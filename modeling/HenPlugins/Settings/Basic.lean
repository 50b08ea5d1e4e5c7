import HenPlugins.Path
import HenPlugins.Ini.Load
import HenPlugins.Ini.Save
import HenPlugins.Ini.Access

open CString Ini Path

namespace Settings

-- The content of the file at `ini_path` and of the buffer at `data_out` after the call. The file can
-- be written. A missing key is read as an empty string and added to the file.
def readWriteLocalSettings
    (file : Option Bytes) (iniSection id value : Bytes) (wantRead : Bool) (dataOut : Bytes) :
    Option Bytes × Bytes :=
  let ini := iniLoad file
  if wantRead then
    let v  := iniGet ini iniSection id
    let v₂ := v.getD []
    let n  := if v₂.length > dataOut.length then dataOut.length - 1 else v₂.length
    let dataOut := v₂.take n ++ dataOut.drop n
    match v with
    | none   => (some (iniSave (iniSet ini iniSection id (bytes "0"))), dataOut)
    | some _ => (file, dataOut)
  else
    (some (iniSave (iniSet ini iniSection id value)), dataOut)

-- The pages whose ids `NewOnPress` and `NewOnPreCreate` compare `g_PageID` to.
inductive Page
  | payloadOptions
  | idPluginManager
  | other
deriving DecidableEq

inductive ShellUIElementType
  | invalid
  | button
  | list
  | toggleSwitch
  | message
deriving DecidableEq

def isValidElementType : ShellUIElementType → Bool
  | .list | .toggleSwitch => true
  | _                     => false

-- The contents of the files at `HDD_INI_PATH` and `PLUGINS_INI_PATH`.
structure Files where
  henIni     : Option Bytes
  pluginsIni : Option Bytes

def newOnPress (page : Page) (type : ShellUIElementType) (id value : Bytes) (files : Files) : Files :=
  if isValidElementType type then
    match page with
    | .payloadOptions =>
      { files with henIni := (readWriteLocalSettings files.henIni henSection id value false []).1 }
    | .idPluginManager =>
      { files with pluginsIni := (readWriteLocalSettings files.pluginsIni pluginsAllSection id value false []).1 }
    | .other => files
  else files

abbrev prxPathSize := 260

-- `snprintf(prx_path, _countof(prx_path) - 1, USER_PLUGIN_PATH "/%s", filename)`
def prxPath (filename : Bytes) : Bytes :=
  (userPluginPath ++ bytes "/" ++ filename).take (prxPathSize - 1 - 1)

def toupper (c : UInt8) : UInt8 :=
  if 97 ≤ c && c ≤ 122 then c - 32 else c

def endsWith (a b : Bytes) : Bool :=
  (b.map toupper).isSuffixOf (a.map toupper)

-- The directory entries for which `RunPluginsBuild` loads a module and shows a switch.
def isPlugin (filename : Bytes) : Bool :=
  endsWith filename (bytes ".prx") || endsWith filename (bytes ".sprx")

end Settings

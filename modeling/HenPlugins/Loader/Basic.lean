import HenPlugins.Library.Run
import HenPlugins.Path
import HenPlugins.Loader.Appinfo
import HenPlugins.Ini.Load

open CString Ini Path

namespace Loader

def simpleGetBool : Option Bytes → Bool
  | none     => false
  | some val =>
    if val = [] then false
    else
      startsWithCase val (bytes "1") ||
      startsWithCase val (bytes "enabled") ||
      startsWithCase val (bytes "yes") ||
      startsWithCase val (bytes "y") ||
      startsWithCase val (bytes "on") ||
      startsWithCase val (bytes "true")

-- The state of the loop over the sections: the sections that `section` points to, those that have been
-- examined, and the paths that `load_module` has been called with.
@[ext]
structure Loop where
  rest     : List Section
  examined : List Section
  loaded   : List Bytes

-- The condition under which the loop looks at the keys of a section.
def isSelected (titleid : Bytes) (sec : Section) : Bool :=
  startsWithCase sec.name.text pluginsAllSection || startsWith sec.name.text titleid

def enabledKeys (sec : Section) : List Bytes :=
  (sec.keys.filter fun kv => simpleGetBool kv.value.text).map (·.id)

-- One round of the loop. The next section is only selected after a match.
def loopStep (titleid : Bytes) (l : Loop) : Option Loop :=
  match l.rest with
  | [] => none
  | sec :: secs =>
    if isSelected titleid sec then
      some { rest := secs, examined := l.examined ++ [sec], loaded := l.loaded ++ enabledKeys sec }
    else
      some { l with examined := l.examined ++ [sec] }

def loopStart (ini : INIFile) : Loop where
  rest     := ini.sections
  examined := []
  loaded   := []

-- The state in which `loadPlugins` starts the loop, if it does not return before.
def loadPlugins (iniFile appInfo : Option Bytes) : Option Loop :=
  if (readAppinfo appInfo).pid.toInt < 0 then none else some (loopStart (iniLoad iniFile))

end Loader

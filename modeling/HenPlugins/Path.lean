import HenPlugins.Library.CString

namespace Path

def basePath : Bytes :=
  bytes "/data/hen"

def userPluginPath : Bytes :=
  basePath ++ bytes "/plugins"

def henSection : Bytes :=
  bytes "HEN"

def pluginsAllSection : Bytes :=
  bytes "all"

def shelluiDataPath : Bytes :=
  basePath ++ bytes "/shellui_data"

def shelluiIconsPath : Bytes :=
  shelluiDataPath ++ bytes "/icons"

def shelluiHenSettingsIconPath : Bytes :=
  shelluiIconsPath ++ bytes "/hen_settings_icon.png"

end Path

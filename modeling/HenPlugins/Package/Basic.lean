import HenPlugins.Library.Encoding

open List CString Encoding

-- The paths of the packages that are shown and installed.
namespace Package

-- The strings of the runtime are given in UTF-16. None is made of a text that is not valid. `wideText` is what `%ls`
-- writes in the locale of the process, if it can convert all characters.
structure Mono where
  monoStringToUtf8 : List UInt16 → Bytes
  monoNewString    : Bytes → Option (List UInt16)
  wideText         : List UInt16 → Option Bytes

def mntSusPath : List Char :=
  "/mnt/..".toList

-- The content URL that is passed on.
def downloadRegisterTaskByStorageEx (mono : Mono) (contentUrl : List UInt16) : Option (List UInt16) :=
  let curl := cstr (mono.monoStringToUtf8 contentUrl)
  if utf8 mntSusPath <:+: curl then mono.monoNewString (curl.drop mntSusPath.length) else some contentUrl

abbrev pathDescSize := 260 + 128

-- The second title of the element.
def pkgNewElementEx (mono : Mono) (path : List UInt16) : Option (List UInt16) := do
  let str := path.takeWhile (· ≠ 0)
  let hddPath := utf16 (mntSusPath ++ "/data".toList) <:+: str
  let text ← mono.wideText (if hddPath then str.drop mntSusPath.length else str)
  let pathDesc := (bytes "Path: " ++ text).take (pathDescSize - 1 - 1)
  mono.monoNewString (cstr pathDesc)

end Package

import HenPlugins.Library.Stream
import HenPlugins.Ini.Basic

open CString

namespace Ini

-- The lines that `ini_save` writes, without their newlines.

def commentLine (text : Comment) : Bytes :=
  if text.text.length = 0 then [] else [semicolon, space] ++ text.text

def trailingComment (comment : Buf maxCommentLength) : Bytes :=
  if comment.text.length > 0 then [space, semicolon, space] ++ comment.text else []

def Section.headerLine (sec : Section) : Bytes :=
  [lbracket] ++ sec.name.text ++ [rbracket] ++ trailingComment sec.comment

def KeyValue.keyLine (kv : KeyValue) : Bytes :=
  kv.key.text ++ [space, equals, space] ++ kv.value.text ++ trailingComment kv.comment

def KeyValue.lines (kv : KeyValue) : List Bytes :=
  kv.commentsBefore.map commentLine ++ [kv.keyLine]

def Section.lines (sec : Section) : List Bytes :=
  sec.commentsBefore.map commentLine ++ [sec.headerLine] ++ sec.keys.flatMap (·.lines) ++ [[]]

-- The lines of the whole file, each of which is written by one call of `fprintf`.
def INIFile.lines (ini : INIFile) : List Bytes :=
  ini.headerComments.map commentLine ++ ini.sections.flatMap (·.lines)

-- The content of the file, if it can be opened and every write succeeds.
def iniSave (ini : INIFile) : Bytes :=
  Stream.unlines ini.lines

end Ini

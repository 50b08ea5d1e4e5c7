import HenPlugins.Library.Stdio
import HenPlugins.Ini.Save

open CString Stdio

-- `ini_save`, if opening, writing and closing the file may fail.
namespace Ini

def saveComments (comments : List Comment) : Writer :=
  forM comments fun comment => fprintf (commentLine comment ++ [lf])

def KeyValue.save (kv : KeyValue) : Writer := do
  saveComments kv.commentsBefore
  fprintf (kv.keyLine ++ [lf])

def Section.save (sec : Section) : Writer := do
  saveComments sec.commentsBefore
  fprintf (sec.headerLine ++ [lf])
  forM sec.keys (·.save)
  fprintf [lf]

def INIFile.save (ini : INIFile) : Writer := do
  saveComments ini.headerComments
  forM ini.sections (·.save)

-- Whether the file can be opened, what becomes of each `fprintf`, and how much of what has been accepted is in the
-- file once it has been closed.
structure Outcomes where
  fopen   : Bool
  fprintf : List Outcome
  fclose  : Outcome

-- What the function returns, and the structure and the file after the call. Opening the file empties it.
def iniSaveFile (o : Outcomes) (filename : Option Bytes) (ini : INIFile) (file : Option Bytes) :
    Bool × INIFile × Option Bytes :=
  match filename with
  | none   => (false, ini, file)
  | some _ =>
    if o.fopen then
      let out := (ini.save.run ⟨[], o.fprintf⟩).snd
      (true, { ini with modified := false }, some (accept o.fclose out.content))
    else (false, ini, file)

end Ini

import HenPlugins.Library.Trim
import HenPlugins.Library.CString
import HenPlugins.Library.Keyed

open CString

namespace Ini

abbrev maxLineLength    := 1024
abbrev maxKeyLength     := 256
abbrev maxValueLength   := 512
abbrev maxSectionLength := 256
abbrev maxCommentLength := 512

attribute [simp] maxLineLength maxKeyLength maxValueLength maxSectionLength maxCommentLength

instance : NeZero maxKeyLength :=
  ⟨by decide⟩

instance : NeZero maxValueLength :=
  ⟨by decide⟩

instance : NeZero maxSectionLength :=
  ⟨by decide⟩

instance : NeZero maxCommentLength :=
  ⟨by decide⟩

abbrev Comment := Buf maxCommentLength

@[ext]
structure KeyValue where
  key            : Buf maxKeyLength
  value          : Buf maxValueLength
  comment        : Buf maxCommentLength
  commentsBefore : List Comment
deriving DecidableEq

@[ext]
structure Section where
  name           : Buf maxSectionLength
  comment        : Buf maxCommentLength
  commentsBefore : List Comment
  keys           : List KeyValue
deriving DecidableEq

-- The file name is not part of the structure: the functions that open the file are given the
-- content of the file instead.
@[ext]
structure INIFile where
  sections       : List Section
  headerComments : List Comment
  modified       : Bool
deriving DecidableEq

abbrev KeyValue.id (kv : KeyValue) : Bytes :=
  kv.key.text

abbrev Section.id (sec : Section) : Bytes :=
  sec.name.text

def trimWhitespace (str : Bytes) : Bytes :=
  Trim.trim isspace str

abbrev Trimmed (str : Bytes) : Prop :=
  Trim.Trimmed isspace str

-- The state of `in_quotes` after a string. A quote after a backslash does not count.
def inQuotes (q : Bool) : Bytes → Bool
  | []           => q
  | [c]          => if c = dquote ∨ c = squote then !q else q
  | c :: d :: cs =>
    if c = dquote ∨ c = squote then inQuotes (!q) (d :: cs)
    else if c = backslash ∧ (d = dquote ∨ d = squote) then inQuotes q cs
    else inQuotes q (d :: cs)

-- What is left of the line and the comment that was cut off it. Only the first occurrence of the
-- comment character is considered, even if it turns out to be quoted.
def extractComment (line : Bytes) (commentChar : UInt8) : Option (Bytes × Bytes) :=
  match strchr line commentChar with
  | none => none
  | some (before, after) =>
    if inQuotes false before then none else some (before, trimWhitespace after)

-- `extract_comment(line_copy, ';')`, and if that fails `extract_comment(line_copy, '#')`
def splitComment (line : Bytes) : Bytes × Bytes :=
  (extractComment line semicolon <|> extractComment line hash).getD (line, [])

namespace INIFile

def empty : INIFile where
  sections       := []
  headerComments := []
  modified       := false

def findSection (ini : INIFile) (sectionName : Bytes) : Option Section :=
  Keyed.lookup Section.id sectionName ini.sections

end INIFile

def Section.findKey (sec : Section) (keyName : Bytes) : Option KeyValue :=
  Keyed.lookup KeyValue.id keyName sec.keys

-- The section that `create_section` puts in front of the list.
def createSection (sectionName : Bytes) : Section where
  name           := .strncpy sectionName
  comment        := .empty
  commentsBefore := []
  keys           := []

-- The key that `create_key` puts in front of the list.
def createKey (keyName : Bytes) : KeyValue where
  key            := .strncpy keyName
  value          := .empty
  comment        := .empty
  commentsBefore := []

end Ini

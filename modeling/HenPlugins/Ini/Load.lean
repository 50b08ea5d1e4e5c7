import HenPlugins.Library.Stream
import HenPlugins.Ini.Basic

open CString

namespace Ini

-- The ways in which `ini_load` reads a line.
inductive Line
  | comment (text : Bytes)
  | header (name comment : Bytes)
  | keyValue (key value comment : Bytes)
  | ignored
deriving DecidableEq

-- A header is searched in a copy of the untrimmed line, whose first character is then skipped as if
-- it were the bracket.
def parseHeader (line : Bytes) : Line :=
  let (lineCopy, comment) := splitComment line
  match strchr lineCopy rbracket with
  | none             => .ignored
  | some (before, _) => .header (trimWhitespace (before.drop 1)) comment

def parseKeyValue (line : Bytes) : Line :=
  let (lineCopy, comment) := splitComment line
  match strchr lineCopy equals with
  | none              => .ignored
  | some (key, value) => .keyValue (trimWhitespace key) (trimWhitespace value) comment

def parseLine (line : Bytes) : Line :=
  match trimWhitespace line with
  | []      => .comment []
  | c :: cs =>
    if c = semicolon ∨ c = hash then .comment (trimWhitespace cs)
    else if c = lbracket then parseHeader line
    else parseKeyValue line

namespace INIFile

variable (ini : INIFile)

-- The list that `pending_comments` points to. The pointer is to the comments of the file until the
-- first section is created, and then to those of `current_section`, which is the head of the list.
def pendingComments : List Comment :=
  match ini.sections with
  | []       => ini.headerComments
  | sec :: _ => sec.commentsBefore

def setPendingComments (comments : List Comment) : INIFile :=
  match ini.sections with
  | []          => { ini with headerComments := comments }
  | sec :: secs => { ini with sections := { sec with commentsBefore := comments } :: secs }

def addPendingComment (text : Bytes) : INIFile :=
  ini.setPendingComments (ini.pendingComments ++ [.strncpy text])

def loadHeader (name comment : Bytes) : INIFile :=
  let sec := { createSection name with
    comment        := .strncpy comment,
    commentsBefore := ini.pendingComments }
  let ini := ini.setPendingComments []
  let ini := { ini with sections := sec :: ini.sections }
  -- `pending_comments` now points to the comments of the new section, and these are dropped.
  ini.setPendingComments []

-- A key is only stored if there is a current section.
def loadKeyValue (key value comment : Bytes) : INIFile :=
  match ini.sections with
  | []          => ini
  | sec :: secs =>
    let kv := { createKey key with
      value          := .strncpy value,
      comment        := .strncpy comment,
      commentsBefore := sec.commentsBefore }
    { ini with sections := { sec with commentsBefore := [], keys := kv :: sec.keys } :: secs }

def load : Line → INIFile
  | .comment text               => ini.addPendingComment text
  | .header name comment        => ini.loadHeader name comment
  | .keyValue key value comment => ini.loadKeyValue key value comment
  | .ignored                    => ini

-- One round of the loop in `ini_load`, given what `fgets` put into the buffer.
def loadLine (buf : Bytes) : INIFile :=
  ini.load <| parseLine <| (cstr buf).takeWhile fun c => c ≠ cr ∧ c ≠ lf

end INIFile

-- A missing file is loaded as an empty one.
def iniLoad : Option Bytes → INIFile
  | none      => .empty
  | some file => (Stream.readLines maxLineLength file.length file).foldl .loadLine .empty

end Ini

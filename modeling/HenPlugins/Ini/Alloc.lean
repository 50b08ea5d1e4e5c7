import HenPlugins.Ini.Access

open CString

-- The functions that set a value, if allocations may fail.
namespace Ini

-- Whether the calls of `malloc` that are still to come succeed. Those that are not listed do.
abbrev Malloc := StateM (List Bool)

def malloc : Malloc Bool :=
  modifyGet fun outcomes => (outcomes.headD true, outcomes.tail)

-- `find_key`, or `create_key` if there is none, and then the assignments to the key. There is no result if
-- the key cannot be created, and the section is as it was then.
def Section.setAlloc (sec : Section) (keyName value : Bytes) (comment : Option Bytes) : Malloc (Option Section) := do
  match sec.findKey keyName with
  | some _ => return some { sec with
      keys := Keyed.modifyFirst (·.id = keyName) (·.setValue value comment) sec.keys }
  | none   =>
    if ← malloc then return some { sec with keys := (createKey keyName).setValue value comment :: sec.keys }
    else return none

-- Null pointers are given as `none`. The returned flag is the return value of the function.
def iniSetWithCommentAlloc (ini : INIFile) (sectionName keyName value comment : Option Bytes) : Malloc (Bool × INIFile) := do
  match sectionName, keyName, value with
  | some sectionName, some keyName, some value =>
    match ini.findSection sectionName with
    | some sec =>
      match ← sec.setAlloc keyName value comment with
      | none     => return (false, ini)
      | some sec => return (true, { ini with
          sections := Keyed.modifyFirst (·.id = sectionName) (fun _ => sec) ini.sections, modified := true })
    | none =>
      if ← malloc then
        -- The new section is already in the list when the key is created.
        let sec := createSection sectionName
        match ← sec.setAlloc keyName value comment with
        | none     => return (false, { ini with sections := sec :: ini.sections })
        | some sec => return (true, { ini with sections := sec :: ini.sections, modified := true })
      else return (false, ini)
  | _, _, _ => return (false, ini)

def iniSetAlloc (ini : INIFile) (sectionName keyName value : Option Bytes) : Malloc (Bool × INIFile) :=
  iniSetWithCommentAlloc ini sectionName keyName value none

end Ini

import HenPlugins.Ini.Basic

namespace Ini

open INIFile

def iniGet (ini : INIFile) (sectionName keyName : Bytes) : Option Bytes :=
  match ini.findSection sectionName with
  | none     => none
  | some sec =>
    match sec.findKey keyName with
    | none    => none
    | some kv => some kv.value.text

def KeyValue.setValue (kv : KeyValue) (value : Bytes) (comment : Option Bytes) : KeyValue :=
  match comment with
  | none         => { kv with value := .strncpy value }
  | some comment => { kv with value := .strncpy value, comment := .strncpy comment }

def Section.set (sec : Section) (keyName value : Bytes) (comment : Option Bytes) : Section :=
  { sec with keys := Keyed.upsert KeyValue.id keyName (createKey keyName) (·.setValue value comment) sec.keys }

-- Sections and keys that do not exist yet are created. All allocations succeed.
def iniSetWithComment (ini : INIFile) (sectionName keyName value : Bytes) (comment : Option Bytes) : INIFile where
  sections       := Keyed.upsert Section.id sectionName (createSection sectionName) (·.set keyName value comment) ini.sections
  headerComments := ini.headerComments
  modified       := true

def iniSet (ini : INIFile) (sectionName keyName value : Bytes) : INIFile :=
  iniSetWithComment ini sectionName keyName value none

def Section.deleteKey (sec : Section) (keyName : Bytes) : Section :=
  { sec with keys := sec.keys.eraseP (·.id = keyName) }

-- The returned flag is the return value of the function.
def iniDeleteKey (ini : INIFile) (sectionName keyName : Bytes) : Bool × INIFile :=
  match ini.findSection sectionName with
  | none     => (false, ini)
  | some sec =>
    match sec.findKey keyName with
    | none   => (false, ini)
    | some _ => (true, { ini with
        sections := Keyed.modifyFirst (·.id = sectionName) (·.deleteKey keyName) ini.sections,
        modified := true })

def iniDeleteSection (ini : INIFile) (sectionName : Bytes) : Bool × INIFile :=
  match ini.findSection sectionName with
  | none   => (false, ini)
  | some _ => (true, { ini with sections := ini.sections.eraseP (·.id = sectionName), modified := true })

end Ini

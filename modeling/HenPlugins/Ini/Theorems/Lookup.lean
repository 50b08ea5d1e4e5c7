import HenPlugins.Ini.Access
import HenPlugins.Ini.Theorems.Reload

open List CString

namespace Ini

namespace INIFile

variable {ini : INIFile} {sec : Section} {s k s' k' : Bytes}

-- The entry that a lookup finds: the first one in the first section.
def find (ini : INIFile) (s k : Bytes) : Option KeyValue :=
  (ini.findSection s).bind (·.findKey k)

-- The entry that a lookup would find if the file was read from its end.
def findLast (ini : INIFile) (s k : Bytes) : Option KeyValue :=
  (Keyed.lookupLast Section.id s ini.sections).bind fun sec => Keyed.lookupLast KeyValue.id k sec.keys

def lastGet (ini : INIFile) (s k : Bytes) : Option Bytes :=
  (ini.findLast s k).map (·.value.text)

theorem iniGet_eq : iniGet ini s k = (ini.find s k).map (·.value.text) := by
  rw [iniGet, find]
  cases ini.findSection s
  case none => rfl
  case some sec => cases h : sec.findKey k <;> simp [h]

theorem find_dropPending : ini.dropPending.find s k = ini.find s k := by
  cases h : ini.sections
  case nil => simp [find, findSection, dropPending, setPendingComments, h]
  case cons sec secs =>
    simp only [find, findSection, dropPending, setPendingComments, h, Keyed.lookup_cons]
    split <;> rfl

theorem findSection_dropPending :
    (ini.dropPending.findSection s).map (·.comment) = (ini.findSection s).map (·.comment) := by
  cases h : ini.sections
  case nil => simp [findSection, dropPending, setPendingComments, h]
  case cons sec secs =>
    simp only [findSection, dropPending, setPendingComments, h, Keyed.lookup_cons]
    split <;> rfl

theorem sections_dropPending : ini.dropPending.sections.map Section.id = ini.sections.map Section.id := by
  cases h : ini.sections <;> simp [dropPending, setPendingComments, h]

theorem exists_dropPending (h : sec ∈ ini.sections) :
    ∃ sec' ∈ ini.dropPending.sections, sec'.name = sec.name ∧ sec'.keys = sec.keys := by
  rw [dropPending, setPendingComments]
  split
  case h_1 hn => simp [hn] at h
  case h_2 sec' secs hc =>
    rw [hc, mem_cons] at h
    obtain rfl | h := h
    · exact ⟨_, mem_cons_self, rfl, rfl⟩
    · exact ⟨sec, mem_cons_of_mem _ h, rfl, rfl⟩

-- No name occurs twice, neither among the sections nor among the keys of a section.
structure Unambiguous (ini : INIFile) : Prop where
  sections : (ini.sections.map Section.id).Nodup
  keys     : ∀ sec ∈ ini.sections, (sec.keys.map KeyValue.id).Nodup

theorem Unambiguous.findLast_eq (h : ini.Unambiguous) : ini.findLast s k = ini.find s k := by
  rw [findLast, find, findSection, Keyed.lookupLast_eq_lookup (Keyed.occurrences_le_one h.sections)]
  cases hs : Keyed.lookup Section.id s ini.sections
  case none => rfl
  case some sec =>
    have hk := h.keys sec (Keyed.mem_of_lookup hs)
    exact Keyed.lookupLast_eq_lookup (Keyed.occurrences_le_one hk)

theorem lookup_reread_keys {kvs : List KeyValue} :
    Keyed.lookup KeyValue.id k (kvs.map (·.reread)).reverse =
      (Keyed.lookupLast KeyValue.id k kvs).map (·.reread) := by
  rw [← map_reverse]
  exact Keyed.lookup_map fun _ => rfl

theorem lookup_reread_sections {secs : List Section} :
    Keyed.lookup Section.id s (secs.map (·.reread)).reverse =
      (Keyed.lookupLast Section.id s secs).map (·.reread) := by
  rw [← map_reverse]
  exact Keyed.lookup_map fun _ => rfl

-- After a file is saved, lookups find what was last in the structure.
theorem find_iniLoad_iniSave (hb : ini.NoBreaks) (hr : ∀ sec ∈ ini.sections, sec.Rereads) :
    (iniLoad (some (iniSave ini))).find s k = (ini.findLast s k).map (·.reread) := by
  rw [← find_dropPending, iniLoad_iniSave hb hr]
  simp only [find, findSection, findLast, lookup_reread_sections]
  cases Keyed.lookupLast Section.id s ini.sections
  case none     => rfl
  case some sec => exact lookup_reread_keys

theorem iniGet_iniLoad_iniSave (hb : ini.NoBreaks) (hr : ∀ sec ∈ ini.sections, sec.Rereads) :
    iniGet (iniLoad (some (iniSave ini))) s k = ini.lastGet s k := by
  rw [iniGet_eq, find_iniLoad_iniSave hb hr, lastGet, Option.map_map]
  rfl

theorem ids_iniLoad_iniSave (hb : ini.NoBreaks) (hr : ∀ sec ∈ ini.sections, sec.Rereads) :
    (iniLoad (some (iniSave ini))).sections.map Section.id = (ini.sections.map Section.id).reverse := by
  rw [← sections_dropPending, iniLoad_iniSave hb hr, map_reverse, map_map]
  rfl

theorem mem_iniLoad_iniSave (hb : ini.NoBreaks) (hr : ∀ sec ∈ ini.sections, sec.Rereads)
    (h : sec ∈ (iniLoad (some (iniSave ini))).sections) :
    ∃ sec' ∈ ini.sections, sec.name = sec'.name ∧ sec.keys = (sec'.keys.map (·.reread)).reverse := by
  have ⟨d, hd, hn, hk⟩ := exists_dropPending h
  rw [iniLoad_iniSave hb hr, mem_reverse, mem_map] at hd
  have ⟨sec', hs, he⟩ := hd
  exact ⟨sec', hs, hn ▸ he ▸ rfl, hk ▸ he ▸ rfl⟩

theorem Unambiguous.reload (hb : ini.NoBreaks) (hr : ∀ sec ∈ ini.sections, sec.Rereads)
    (h : ini.Unambiguous) : (iniLoad (some (iniSave ini))).Unambiguous where
  sections := by
    rw [ids_iniLoad_iniSave hb hr, nodup_reverse]
    exact h.sections
  keys := by
    intro sec hs
    have ⟨sec', hs', _, hk⟩ := mem_iniLoad_iniSave hb hr hs
    rw [hk, map_reverse, nodup_reverse, map_map]
    exact h.keys sec' hs'

end INIFile
end Ini

import HenPlugins.Ini.Theorems.Load
import HenPlugins.Ini.Theorems.Lookup

open List CString

namespace Ini

variable {ini : INIFile} {sec : Section} {kv : KeyValue} {s k v s' k' : Bytes} {comment : Option Bytes}

@[simp]
theorem KeyValue.setValue_id : (kv.setValue v comment).id = kv.id := by
  cases comment <;> rfl

@[simp]
theorem KeyValue.setValue_value : (kv.setValue v comment).value = .strncpy v := by
  cases comment <;> rfl

@[simp]
theorem Section.set_id : (sec.set k v comment).id = sec.id := rfl

theorem createSection_id (hf : s.length < maxSectionLength) (hz : 0 ∉ s) : (createSection s).id = s :=
  Buf.strncpy_text hf hz

theorem createKey_id (hf : k.length < maxKeyLength) (hz : 0 ∉ k) : (createKey k).id = k :=
  Buf.strncpy_text hf hz

namespace INIFile

-- A section name or a key of that name in the first such section occurs more than once.
def Repeated (ini : INIFile) (s k : Bytes) : Prop :=
  1 < Keyed.occurrences Section.id s ini.sections ∨
  ∃ sec, ini.findSection s = some sec ∧ 1 < Keyed.occurrences KeyValue.id k sec.keys

theorem Unambiguous.not_repeated (h : ini.Unambiguous) : ¬ini.Repeated s k := by
  rintro (ho | ⟨sec, hs, ho⟩)
  case inl => exact Nat.not_lt_of_le (Keyed.occurrences_le_one h.sections) ho
  case inr =>
    have hk := h.keys sec (Keyed.mem_of_lookup hs)
    exact Nat.not_lt_of_le (Keyed.occurrences_le_one hk) ho

theorem sections_set : (iniSetWithComment ini s k v comment).sections =
    Keyed.upsert Section.id s (createSection s) (Section.set · k v comment) ini.sections := rfl

theorem keys_set : (sec.set k v comment).keys =
    Keyed.upsert KeyValue.id k (createKey k) (KeyValue.setValue · v comment) sec.keys := rfl

theorem findSection_set (hs : (createSection s).id = s) :
    (iniSetWithComment ini s k v comment).findSection s = ((ini.findSection s).getD (createSection s)).set k v comment := by
  rw [findSection, sections_set]
  exact Keyed.lookup_upsert (fun _ => Section.set_id) hs

theorem findSection_set_ne (hs : (createSection s).id = s) (h : s' ≠ s) :
    (iniSetWithComment ini s k v comment).findSection s' = ini.findSection s' := by
  rw [findSection, sections_set]
  exact Keyed.lookup_upsert_ne (fun _ => Section.set_id) hs h

theorem findKey_set (hk : (createKey k).id = k) :
    (sec.set k v comment).findKey k = ((sec.findKey k).getD (createKey k)).setValue v comment := by
  rw [Section.findKey, keys_set]
  exact Keyed.lookup_upsert (fun _ => KeyValue.setValue_id) hk

theorem findKey_set_ne (hk : (createKey k).id = k) (h : k' ≠ k) :
    (sec.set k v comment).findKey k' = sec.findKey k' := by
  rw [Section.findKey, keys_set]
  exact Keyed.lookup_upsert_ne (fun _ => KeyValue.setValue_id) hk h

theorem find_set (hs : (createSection s).id = s) (hk : (createKey k).id = k) :
    (iniSetWithComment ini s k v comment).find s k = ((ini.find s k).getD (createKey k)).setValue v comment := by
  rw [find, findSection_set hs, Option.bind_some, findKey_set hk, find]
  cases ini.findSection s <;> rfl

theorem find_set_ne (hs : (createSection s).id = s) (hk : (createKey k).id = k)
    (h : (s', k') ≠ (s, k)) : (iniSetWithComment ini s k v comment).find s' k' = ini.find s' k' := by
  by_cases hs' : s' = s
  case neg => rw [find, findSection_set_ne hs hs', find]
  case pos =>
    subst hs'
    have hn : k' ≠ k := fun hk' => h (hk' ▸ rfl)
    rw [find, findSection_set hs, Option.bind_some, findKey_set_ne hk hn, find]
    cases ini.findSection s' <;> rfl

theorem iniGet_set (hs : (createSection s).id = s) (hk : (createKey k).id = k)
    (hv : v.length < maxValueLength) (hz : 0 ∉ v) : iniGet (iniSetWithComment ini s k v comment) s k = v := by
  rw [iniGet_eq, find_set hs hk, Option.map_some, KeyValue.setValue_value, Buf.strncpy_text hv hz]

theorem iniGet_set_ne (hs : (createSection s).id = s) (hk : (createKey k).id = k)
    (h : (s', k') ≠ (s, k)) : iniGet (iniSetWithComment ini s k v comment) s' k' = iniGet ini s' k' := by
  rw [iniGet_eq, find_set_ne hs hk h, iniGet_eq]

theorem lookupLast_set (hs : (createSection s).id = s) :
    Keyed.lookupLast Section.id s (iniSetWithComment ini s k v comment).sections =
      if 1 < Keyed.occurrences Section.id s ini.sections then Keyed.lookupLast Section.id s ini.sections
      else some (((ini.findSection s).getD (createSection s)).set k v comment) := by
  rw [sections_set]
  exact Keyed.lookupLast_upsert (fun _ => Section.set_id) hs

theorem lookupLast_set_ne (hs : (createSection s).id = s) (h : s' ≠ s) :
    Keyed.lookupLast Section.id s' (iniSetWithComment ini s k v comment).sections =
      Keyed.lookupLast Section.id s' ini.sections := by
  rw [sections_set]
  exact Keyed.lookupLast_upsert_ne (fun _ => Section.set_id) hs h

theorem lookupLast_keys_set (hk : (createKey k).id = k) :
    Keyed.lookupLast KeyValue.id k (sec.set k v comment).keys =
      if 1 < Keyed.occurrences KeyValue.id k sec.keys then Keyed.lookupLast KeyValue.id k sec.keys
      else some (((sec.findKey k).getD (createKey k)).setValue v comment) := by
  rw [keys_set]
  exact Keyed.lookupLast_upsert (fun _ => KeyValue.setValue_id) hk

theorem lookupLast_keys_set_ne (hk : (createKey k).id = k) (h : k' ≠ k) :
    Keyed.lookupLast KeyValue.id k' (sec.set k v comment).keys = Keyed.lookupLast KeyValue.id k' sec.keys := by
  rw [keys_set]
  exact Keyed.lookupLast_upsert_ne (fun _ => KeyValue.setValue_id) hk h

-- A write to one key does not change what is found last for another one.
theorem findLast_set_ne (hs : (createSection s).id = s) (hk : (createKey k).id = k)
    (h : (s', k') ≠ (s, k)) : (iniSet ini s k v).findLast s' k' = ini.findLast s' k' := by
  by_cases hs' : s' = s
  case neg => rw [iniSet, findLast, lookupLast_set_ne hs hs', findLast]
  case pos =>
    subst hs'
    have hn : k' ≠ k := fun hk' => h (hk' ▸ rfl)
    rw [iniSet, findLast, lookupLast_set hs, findLast]
    split
    case isTrue     => rfl
    case isFalse ho =>
      rw [Keyed.lookupLast_eq_lookup (Nat.le_of_not_lt ho), Option.bind_some, lookupLast_keys_set_ne hk hn]
      simp only [findSection]
      cases Keyed.lookup Section.id s' ini.sections <;> rfl

theorem findLast_set_of_not_repeated (hs : (createSection s).id = s) (hk : (createKey k).id = k)
    (h : ¬ini.Repeated s k) : (iniSet ini s k v).findLast s k = (iniSet ini s k v).find s k := by
  have ⟨ho, hr⟩ := not_or.mp h
  rw [iniSet, findLast, lookupLast_set hs, if_neg ho, find, findSection_set hs]
  simp only [Option.bind_some]
  rw [lookupLast_keys_set hk, findKey_set hk, if_neg]
  cases hf : ini.findSection s
  case none     => simp [createSection, Keyed.occurrences]
  case some sec => exact fun ho' => hr ⟨sec, hf, ho'⟩

theorem findLast_set_of_repeated (hs : (createSection s).id = s) (hk : (createKey k).id = k)
    (h : ini.Repeated s k) : (iniSet ini s k v).findLast s k = ini.findLast s k := by
  rw [iniSet, findLast, lookupLast_set hs, findLast]
  split
  case isTrue     => rfl
  case isFalse ho =>
    obtain ⟨sec, hf, ho'⟩ := h.resolve_left ho
    rw [Keyed.lookupLast_eq_lookup (Nat.le_of_not_lt ho)]
    rw [findSection] at hf
    simp only [findSection, hf, Option.getD_some, Option.bind_some]
    rw [lookupLast_keys_set hk, if_pos ho']

theorem mem_set_sections (h : sec ∈ (iniSetWithComment ini s k v comment).sections) :
    sec = ((ini.findSection s).getD (createSection s)).set k v comment ∨
    sec ∈ ini.sections.eraseP (·.id = s) := by
  rw [sections_set] at h
  exact mem_cons.mp <| Keyed.upsert_perm.mem_iff.mp h

theorem mem_set_keys (h : kv ∈ (sec.set k v comment).keys) :
    kv = ((sec.findKey k).getD (createKey k)).setValue v comment ∨ kv ∈ sec.keys.eraseP (·.id = k) := by
  rw [keys_set] at h
  exact mem_cons.mp <| Keyed.upsert_perm.mem_iff.mp h

theorem Unambiguous.set (hs : (createSection s).id = s) (hk : (createKey k).id = k)
    (h : ini.Unambiguous) : (iniSetWithComment ini s k v comment).Unambiguous where
  sections := by
    rw [sections_set]
    exact Keyed.nodup_upsert (fun _ => Section.set_id) hs h.sections
  keys := by
    intro sec hm
    obtain rfl | hm := mem_set_sections hm
    case inr => exact h.keys sec (mem_of_mem_eraseP hm)
    case inl =>
      rw [keys_set]
      apply Keyed.nodup_upsert (fun _ => KeyValue.setValue_id) hk
      cases hf : ini.findSection s
      case none     => exact nodup_nil
      case some sec => exact h.keys sec (Keyed.mem_of_lookup hf)

theorem NoBreaks.set (h : ini.NoBreaks) (hs : NoBreak s) (hk : NoBreak k) (hv : NoBreak v) :
    (iniSet ini s k v).NoBreaks where
  headerComments := h.headerComments
  sections := by
    intro sec hm
    obtain rfl | hm := mem_set_sections hm
    case inr => exact h.sections sec (mem_of_mem_eraseP hm)
    case inl =>
      have hn : ((ini.findSection s).getD (createSection s)).NoBreaks := by
        cases hf : ini.findSection s
        case some sec => exact h.sections sec (Keyed.mem_of_lookup hf)
        case none =>
          exact {
            name := hs.strncpy, comment := .nil,
            commentsBefore := by simp [createSection], keys := by simp [createSection] }
      refine { hn with keys := fun kv hm => ?_ }
      obtain rfl | hm := mem_set_keys hm
      case inr => exact hn.keys kv (mem_of_mem_eraseP hm)
      case inl =>
        cases hf : Section.findKey _ k
        case some kv => exact { hn.keys kv (Keyed.mem_of_lookup hf) with value := hv.strncpy }
        case none =>
          exact {
            key := hk.strncpy, value := hv.strncpy, comment := .nil,
            commentsBefore := by simp [createKey, KeyValue.setValue] }

end INIFile
end Ini

import HenPlugins.Settings.Basic
import HenPlugins.Ini.Theorems.RoundTrip
import HenPlugins.Ini.Theorems.Set

open List CString Ini

namespace Settings

variable {file : Option Bytes} {ini : INIFile} {s k v s' k' : Bytes}

-- A section, key and value that fit their buffers and do not contain syntax.
structure Setting (s k v : Bytes) : Prop where
  sectionName : Text s ∧ Plain s ∧ rbracket ∉ s
  sectionFits : s.length < maxSectionLength ∧ 0 ∉ s
  key         : Text k ∧ Plain k ∧ equals ∉ k ∧ lbracket ∉ k.head?
  keyFits     : k.length < maxKeyLength ∧ 0 ∉ k
  value       : Text v ∧ Plain v
  valueFits   : v.length < maxValueLength ∧ 0 ∉ v

namespace Setting

variable (h : Setting s k v)

include h

theorem createSection_id : (createSection s).id = s :=
  Ini.createSection_id h.sectionFits.left h.sectionFits.right

theorem createKey_id : (createKey k).id = k :=
  Ini.createKey_id h.keyFits.left h.keyFits.right

theorem keyStart : ∀ c ∈ k.head?, KeyStart c := fun _ hc =>
  have hm := mem_of_mem_head? hc
  have ⟨_, ⟨hs, hh, _⟩, _, hb⟩ := h.key
  ⟨fun he => hs (he ▸ hm), fun he => hh (he ▸ hm), fun he => hb (he ▸ hc)⟩

theorem rereads {kv : KeyValue} (hk : kv.key.text = k) (hv : kv.value.text = v)
    (hf : kv.keyLine.length + 1 < maxLineLength) : kv.Rereads where
  fits   := hf
  parses := by
    subst hk hv
    have ⟨ht, hp, he, _⟩ := h.key
    have hl := parseLine_keyLine ht.left h.value.left.left hp h.value.right he h.keyStart
    rw [KeyValue.trailing, hl]

theorem section_parses {sec : Section} (hs : sec.name.text = s) :
    parseLine sec.headerLine = .header sec.name.text sec.trailing := by
  subst hs
  have ⟨ht, hp, hb⟩ := h.sectionName
  rw [Section.trailing, parseLine_headerLine ht.left hp hb]

end Setting

-- Every header and every key other than the written one is read back as it is saved, and the written
-- key still fits on a line with the comment that stands after it.
structure Rewritable (ini : INIFile) (s k v : Bytes) : Prop where
  headers : ∀ sec ∈ ini.sections, parseLine sec.headerLine = .header sec.name.text sec.trailing
  others  : ∀ sec ∈ (iniDeleteKey ini s k).2.sections, ∀ kv ∈ sec.keys, kv.Rereads
  written : ∀ kv ∈ ini.find s k, (kv.setValue v none).keyLine.length ≤ 1022

-- Each key is found with the same value from either end of the file. For the written key this is
-- only asked if it is repeated.
structure OrderFree (ini : INIFile) (s k v : Bytes) : Prop where
  others  : ∀ s' k', (s', k') ≠ (s, k) → ini.lastGet s' k' = iniGet ini s' k'
  written : ini.Repeated s k → ini.lastGet s k = v

theorem OrderFree.of_unambiguous (h : ini.Unambiguous) : OrderFree ini s k v where
  others s' k' _ := by rw [INIFile.lastGet, h.findLast_eq, INIFile.iniGet_eq]
  written hr     := absurd hr h.not_repeated

section Delete

variable {sec : Section} {ini : INIFile}

theorem deleteKey_mem (h : ini.findSection s = some sec) :
    sec.deleteKey k ∈ (iniDeleteKey ini s k).2.sections := by
  cases hk : sec.findKey k
  case none =>
    have hn : sec.deleteKey k = sec := by
      rw [Section.deleteKey, eraseP_of_forall_not (by simpa using Keyed.lookup_eq_none.mp hk)]
    simp only [iniDeleteKey, h, hk, hn]
    exact Keyed.mem_of_lookup h
  case some kv =>
    simp only [iniDeleteKey, h, hk]
    exact Keyed.modifyFirst_perm h |>.mem_iff.mpr mem_cons_self

theorem mem_iniDeleteKey (h : sec ∈ ini.sections.eraseP (·.id = s)) :
    sec ∈ (iniDeleteKey ini s k).2.sections := by
  rw [iniDeleteKey]
  split
  case h_1 => exact mem_of_mem_eraseP h
  case h_2 sec' hs =>
    split
    case h_1 => exact mem_of_mem_eraseP h
    case h_2 => exact Keyed.modifyFirst_perm hs |>.mem_iff.mpr (mem_cons_of_mem _ h)

end Delete

theorem Setting.new_key_fits (h : Setting s k v) :
    ((createKey k).setValue v none).keyLine.length ≤ 1022 := by
  have hk : (createKey k).key.text = k := h.createKey_id
  have hv : (Buf.strncpy v : Buf maxValueLength).text = v := Buf.strncpy_text h.valueFits.left h.valueFits.right
  have hkl := h.keyFits.left
  have hvl := h.valueFits.left
  simp only [maxKeyLength, maxValueLength] at hkl hvl
  simp only [KeyValue.setValue, KeyValue.keyLine, hk, hv, length_append, length_cons, length_nil]
  have : (trailingComment (createKey k).comment).length = 0 := rfl
  omega

namespace Rewritable

variable (hr : Rewritable ini s k v) (h : Setting s k v)

include hr h

theorem written_rereads {kv : KeyValue} (hs : ini.find s k = some kv ∨ kv = createKey k) :
    (kv.setValue v none).Rereads := by
  have hv : (Buf.strncpy v : Buf maxValueLength).text = v := Buf.strncpy_text h.valueFits.left h.valueFits.right
  have hk : kv.key.text = k := by
    obtain hs | rfl := hs
    · have ⟨_, _, hk⟩ := Option.bind_eq_some_iff.mp hs
      have he : kv.id = k := Keyed.key_of_lookup hk
      exact he
    · exact h.createKey_id
  have hf : (kv.setValue v none).keyLine.length ≤ 1022 := by
    obtain hs | rfl := hs
    · exact hr.written kv hs
    · exact h.new_key_fits
  exact h.rereads hk hv (Nat.lt_succ_of_le <| Nat.succ_le_succ hf)

-- The entry that is written to and all others are read back after the write.
theorem set_rereads : ∀ sec ∈ (iniSet ini s k v).sections, sec.Rereads := by
  intro sec hm
  obtain rfl | hm := INIFile.mem_set_sections hm
  case inr =>
    exact ⟨hr.headers sec (mem_of_mem_eraseP hm), hr.others sec (mem_iniDeleteKey hm)⟩
  case inl =>
    cases hs : ini.findSection s
    case none =>
      refine ⟨h.section_parses h.createSection_id, fun kv hk => ?_⟩
      obtain rfl | hk := INIFile.mem_set_keys hk
      · exact hr.written_rereads h (.inr rfl)
      · simp [createSection] at hk
    case some sec =>
      refine ⟨hr.headers sec (Keyed.mem_of_lookup hs), fun kv hk => ?_⟩
      obtain rfl | hk := INIFile.mem_set_keys hk
      case inr => exact hr.others _ (deleteKey_mem hs) kv hk
      case inl =>
        apply hr.written_rereads h
        simp only [INIFile.find, hs, Option.bind_some, Option.getD_some]
        cases sec.findKey k <;> simp

end Rewritable

-- The content of the file after a value has been written to it.
def written (file : Option Bytes) (s k v : Bytes) : Option Bytes :=
  (readWriteLocalSettings file s k v false []).1

-- The written value is found and all other values are as they were.
structure WriteContract (file : Option Bytes) (s k v : Bytes) : Prop where
  written : iniGet (iniLoad (written file s k v)) s k = v
  others  : ∀ s' k', (s', k') ≠ (s, k) →
    iniGet (iniLoad (Settings.written file s k v)) s' k' = iniGet (iniLoad file) s' k'

-- The names fit into their buffers, and every line that is written is read as what it was written for.
structure Reloads (file : Option Bytes) (s k v : Bytes) : Prop where
  sectionName : (createSection s).id = s
  key         : (createKey k).id = k
  value       : v.length < maxValueLength ∧ 0 ∉ v
  noBreaks    : (iniSet (iniLoad file) s k v).NoBreaks
  lines       : ∀ sec ∈ (iniSet (iniLoad file) s k v).sections, sec.Rereads

namespace Reloads

variable (h : Reloads file s k v)

include h

theorem iniGet_written (s' k' : Bytes) :
    iniGet (iniLoad (written file s k v)) s' k' = (iniSet (iniLoad file) s k v).lastGet s' k' :=
  INIFile.iniGet_iniLoad_iniSave h.noBreaks h.lines

theorem iniGet_written_ne (hn : (s', k') ≠ (s, k)) :
    iniGet (iniLoad (written file s k v)) s' k' = (iniLoad file).lastGet s' k' := by
  rw [h.iniGet_written, INIFile.lastGet, INIFile.findLast_set_ne h.sectionName h.key hn]
  rfl

theorem iniGet_written_of_repeated (ho : (iniLoad file).Repeated s k) :
    iniGet (iniLoad (written file s k v)) s k = (iniLoad file).lastGet s k := by
  rw [h.iniGet_written, INIFile.lastGet, INIFile.findLast_set_of_repeated h.sectionName h.key ho]
  rfl

theorem iniGet_written_of_not_repeated (ho : ¬(iniLoad file).Repeated s k) :
    iniGet (iniLoad (written file s k v)) s k = v := by
  rw [h.iniGet_written, INIFile.lastGet, INIFile.findLast_set_of_not_repeated h.sectionName h.key ho,
    ← INIFile.iniGet_eq]
  exact INIFile.iniGet_set h.sectionName h.key h.value.left h.value.right

-- As a write reverses the order of the file, it is only safe if the order does not matter.
theorem contract_iff : WriteContract file s k v ↔ OrderFree (iniLoad file) s k v := by
  constructor
  case mp =>
    intro ⟨hw, ho⟩
    constructor
    case others =>
      intro s' k' hn
      rw [← h.iniGet_written_ne hn]
      exact ho s' k' hn
    case written =>
      intro hrep
      rw [← h.iniGet_written_of_repeated hrep]
      exact hw
  case mpr =>
    intro ⟨ho, hw⟩
    constructor
    case others =>
      intro s' k' hn
      rw [h.iniGet_written_ne hn]
      exact ho s' k' hn
    case written =>
      by_cases hrep : (iniLoad file).Repeated s k
      case pos =>
        rw [h.iniGet_written_of_repeated hrep]
        exact hw hrep
      case neg => exact h.iniGet_written_of_not_repeated hrep

end Reloads

theorem Rewritable.reloads (hr : Rewritable (iniLoad file) s k v) (h : Setting s k v) : Reloads file s k v where
  sectionName := h.createSection_id
  key         := h.createKey_id
  value       := h.valueFits
  noBreaks    := (iniLoad_noBreaks file).set h.sectionName.left.right h.key.left.right h.value.left.right
  lines       := hr.set_rereads h

theorem writeContract_iff (h : Setting s k v) (hr : Rewritable (iniLoad file) s k v) :
    WriteContract file s k v ↔ OrderFree (iniLoad file) s k v :=
  (hr.reloads h).contract_iff

theorem writeContract_sample :
    WriteContract (bytes "[all]\nb=1 ; x\n") (bytes "all") (bytes "a") (bytes "0") := by
  have h : Setting (bytes "all") (bytes "a") (bytes "0") := {
    sectionName := by decide, sectionFits := by decide, key := by decide, keyFits := by decide,
    value := by decide, valueFits := by decide }
  have hr : Rewritable (iniLoad (bytes "[all]\nb=1 ; x\n")) (bytes "all") (bytes "a") (bytes "0") := {
    headers := by decide, others := by decide, written := by decide }
  have hu : (iniLoad (bytes "[all]\nb=1 ; x\n")).Unambiguous := ⟨by decide, by decide⟩
  exact writeContract_iff h hr |>.mpr (.of_unambiguous hu)

-- The first of two equal keys is updated, but the second one is found once the file is loaded again.
theorem writeContract_fails :
    Setting (bytes "all") (bytes "k") (bytes "5") ∧
    iniGet (iniLoad (written (bytes "[all]\nk=1\nk=2\n") (bytes "all") (bytes "k") (bytes "5")))
      (bytes "all") (bytes "k") = bytes "1" ∧
    ¬WriteContract (bytes "[all]\nk=1\nk=2\n") (bytes "all") (bytes "k") (bytes "5") := by
  refine ⟨?setting, by decide, fun h => absurd h.written (by decide)⟩
  exact {
    sectionName := by decide, sectionFits := by decide, key := by decide, keyFits := by decide,
    value := by decide, valueFits := by decide }

end Settings

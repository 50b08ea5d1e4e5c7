import HenPlugins.Ini.Theorems.Lookup

open List CString

namespace Ini

-- Texts that fit on a line and have no blanks at their ends.
def Text (s : Bytes) : Prop :=
  Trimmed s ∧ NoBreak s

instance {s : Bytes} : Decidable (Text s) :=
  inferInstanceAs (Decidable (_ ∧ _))

structure KeyValue.WellFormed (kv : KeyValue) : Prop where
  key            : Text kv.key.text ∧ Plain kv.key.text
  noEquals       : equals ∉ kv.key.text
  noBracket      : lbracket ∉ kv.key.text.head?
  value          : Text kv.value.text ∧ Plain kv.value.text
  comment        : Text kv.comment.text
  commentsBefore : ∀ c ∈ kv.commentsBefore, Text c.text
  fits           : kv.keyLine.length ≤ 1022

-- The lines of a section other than those of its keys always fit.
structure Section.WellFormed (sec : Section) : Prop where
  name           : Text sec.name.text ∧ Plain sec.name.text
  noBracket      : rbracket ∉ sec.name.text
  comment        : Text sec.comment.text
  commentsBefore : ∀ c ∈ sec.commentsBefore, Text c.text
  keys           : ∀ kv ∈ sec.keys, kv.WellFormed

structure INIFile.WellFormed (ini : INIFile) : Prop where
  unambiguous    : ini.Unambiguous
  headerComments : ∀ c ∈ ini.headerComments, Text c.text
  sections       : ∀ sec ∈ ini.sections, sec.WellFormed

variable {kv : KeyValue} {sec : Section} {ini : INIFile}

namespace KeyValue.WellFormed

theorem parses (h : kv.WellFormed) :
    parseLine kv.keyLine = .keyValue kv.key.text kv.value.text kv.comment.text := by
  have hs : ∀ c ∈ kv.key.text.head?, KeyStart c := fun c hc =>
    have hm := mem_of_mem_head? hc
    have hp := h.key.right
    ⟨fun he => hp.left (he ▸ hm), fun he => hp.right.left (he ▸ hm), fun he => h.noBracket (he ▸ hc)⟩
  rw [parseLine_keyLine h.key.left.left h.value.left.left h.key.right h.value.right h.noEquals hs,
    trimWhitespace, h.comment.left]

theorem trailing_eq (h : kv.WellFormed) : kv.trailing = kv.comment.text := by
  rw [trailing, h.parses]

theorem rereads (h : kv.WellFormed) : kv.Rereads where
  fits   := Nat.lt_succ_of_le <| Nat.succ_le_succ h.fits
  parses := h.trailing_eq ▸ h.parses

theorem noBreaks (h : kv.WellFormed) : kv.NoBreaks where
  key            := h.key.left.right
  value          := h.value.left.right
  comment        := h.comment.right
  commentsBefore := fun c hc => (h.commentsBefore c hc).right

theorem reread_eq (h : kv.WellFormed) : kv.reread = kv := by
  have hc : kv.commentsBefore.map rereadComment = kv.commentsBefore := by
    conv_rhs => rw [← map_id kv.commentsBefore]
    apply map_congr_left
    intro c hc
    rw [rereadComment, trimWhitespace, (h.commentsBefore c hc).left]
    exact Buf.strncpy_self c
  simp [reread, h.trailing_eq, hc]

end KeyValue.WellFormed

namespace Section.WellFormed

theorem parses (h : sec.WellFormed) :
    parseLine sec.headerLine = .header sec.name.text sec.comment.text := by
  rw [parseLine_headerLine h.name.left.left h.name.right h.noBracket, trimWhitespace, h.comment.left]

theorem trailing_eq (h : sec.WellFormed) : sec.trailing = sec.comment.text := by
  rw [trailing, h.parses]

theorem rereads (h : sec.WellFormed) : sec.Rereads where
  parses := h.trailing_eq ▸ h.parses
  keys   := fun kv hk => (h.keys kv hk).rereads

theorem noBreaks (h : sec.WellFormed) : sec.NoBreaks where
  name           := h.name.left.right
  comment        := h.comment.right
  commentsBefore := fun c hc => (h.commentsBefore c hc).right
  keys           := fun kv hk => (h.keys kv hk).noBreaks

theorem reread_comment (h : sec.WellFormed) : sec.reread.comment = sec.comment := by
  simp [reread, h.trailing_eq]

end Section.WellFormed

namespace INIFile.WellFormed

theorem noBreaks (h : ini.WellFormed) : ini.NoBreaks where
  headerComments := fun c hc => (h.headerComments c hc).right
  sections       := fun sec hs => (h.sections sec hs).noBreaks

theorem rereads (h : ini.WellFormed) : ∀ sec ∈ ini.sections, sec.Rereads :=
  fun sec hs => (h.sections sec hs).rereads

theorem sections_perm (h : ini.WellFormed) :
    ((iniLoad (some (iniSave ini))).sections.map Section.id).Perm (ini.sections.map Section.id) := by
  rw [ids_iniLoad_iniSave h.noBreaks h.rereads]
  exact reverse_perm _

theorem sections_comment (h : ini.WellFormed) (s : Bytes) :
    ((iniLoad (some (iniSave ini))).findSection s).map (·.comment) = (ini.findSection s).map (·.comment) := by
  rw [← findSection_dropPending, iniLoad_iniSave h.noBreaks h.rereads]
  simp only [findSection, lookup_reread_sections]
  rw [Keyed.lookupLast_eq_lookup (Keyed.occurrences_le_one h.unambiguous.sections)]
  cases hs : Keyed.lookup Section.id s ini.sections
  case none => rfl
  case some sec => simp [(h.sections sec (Keyed.mem_of_lookup hs)).reread_comment]

theorem find_eq (h : ini.WellFormed) (s k : Bytes) :
    (iniLoad (some (iniSave ini))).find s k = ini.find s k := by
  rw [find_iniLoad_iniSave h.noBreaks h.rereads, h.unambiguous.findLast_eq]
  cases hf : ini.find s k
  case none => rfl
  case some kv =>
    rw [find, Option.bind_eq_some_iff] at hf
    obtain ⟨sec, hs, hk⟩ := hf
    have hw := (h.sections sec (Keyed.mem_of_lookup hs)).keys kv (Keyed.mem_of_lookup hk)
    simp [hw.reread_eq]

end INIFile.WellFormed

-- A well-formed file is read as it was written, up to the order of its sections and keys. The entry
-- that is found for a key consists of the key, its value, its comment and the comments before it.
theorem ini_roundTrip (h : ini.WellFormed) :
    ((iniLoad (some (iniSave ini))).sections.map Section.id).Perm (ini.sections.map Section.id) ∧
    (∀ s, ((iniLoad (some (iniSave ini))).findSection s).map (·.comment) = (ini.findSection s).map (·.comment)) ∧
    (∀ s k, (iniLoad (some (iniSave ini))).find s k = ini.find s k) :=
  ⟨h.sections_perm, h.sections_comment, h.find_eq⟩

theorem ini_roundTrip_sample :
    let kv₁  := { createKey (bytes "a.prx") with
      value := .strncpy (bytes "1"), comment := .strncpy (bytes "it's; on"), commentsBefore := [.strncpy (bytes "; first")] }
    let kv₂  := { createKey (bytes "b.prx") with value := .strncpy (bytes "0") }
    let sec₁ := { createSection (bytes "all") with comment := .strncpy (bytes "for # all"), keys := [kv₁, kv₂] }
    let sec₂ := { createSection (bytes "CUSA00001") with keys := [kv₂, kv₁] }
    let ini  := { INIFile.empty with sections := [sec₁, sec₂], headerComments := [.empty] }
    let ini' := iniLoad (some (iniSave ini))
    ini'.find (bytes "all") (bytes "a.prx") = some kv₁ ∧ ini'.find (bytes "CUSA00001") (bytes "b.prx") = some kv₂ ∧
    (ini'.findSection (bytes "all")).map (·.comment) = some (.strncpy (bytes "for # all")) ∧
    ini'.sections.map Section.id ~ [bytes "all", bytes "CUSA00001"] := by
  intro kv₁ kv₂ sec₁ sec₂ ini ini'
  have hk₁ : kv₁.WellFormed := {
    key := by decide, noEquals := by decide, noBracket := by decide, value := by decide,
    comment := by decide, commentsBefore := by decide, fits := by decide }
  have hk₂ : kv₂.WellFormed := {
    key := by decide, noEquals := by decide, noBracket := by decide, value := by decide,
    comment := by decide, commentsBefore := by decide, fits := by decide }
  have hs₁ : sec₁.WellFormed := {
    name := by decide, noBracket := by decide, comment := by decide,
    commentsBefore := by decide, keys := by simpa [sec₁] using ⟨hk₁, hk₂⟩ }
  have hs₂ : sec₂.WellFormed := {
    name := by decide, noBracket := by decide, comment := by decide,
    commentsBefore := by decide, keys := by simpa [sec₂] using ⟨hk₂, hk₁⟩ }
  have hi : ini.WellFormed := {
    unambiguous := ⟨by decide, by decide⟩, headerComments := by decide,
    sections := by simpa [ini] using ⟨hs₁, hs₂⟩ }
  have ⟨hp, hc, hf⟩ := ini_roundTrip hi
  exact ⟨hf _ _, hf _ _, hc _, hp⟩

end Ini

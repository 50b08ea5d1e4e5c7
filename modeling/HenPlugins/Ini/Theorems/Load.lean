import HenPlugins.Ini.Theorems.Reload

open List CString

namespace Ini

variable {s line : Bytes} {c : UInt8}

-- Every string that a line is split into satisfies `P`.
def Line.All (P : Bytes → Prop) : Line → Prop
  | .comment text         => P text
  | .header name text     => P name ∧ P text
  | .keyValue k v text    => P k ∧ P v ∧ P text
  | .ignored              => True

theorem trimWhitespace_subset : trimWhitespace s ⊆ s :=
  fun _ => Trim.mem_of_mem_trim

theorem strchr_subset {before after : Bytes} (h : strchr s c = some (before, after)) :
    before ⊆ s ∧ after ⊆ s := by
  have ⟨hs, _⟩ := strchr_eq_some h
  subst hs
  simp

theorem extractComment_subset {p : Bytes × Bytes} (h : extractComment s c = some p) :
    p.1 ⊆ s ∧ p.2 ⊆ s := by
  rw [extractComment] at h
  split at h
  case h_1 => contradiction
  case h_2 before after hc =>
    split at h
    case isTrue => contradiction
    case isFalse =>
      obtain ⟨hb, ha⟩ := strchr_subset hc
      cases h
      exact ⟨hb, List.Subset.trans trimWhitespace_subset ha⟩

theorem splitComment_subset : (splitComment s).1 ⊆ s ∧ (splitComment s).2 ⊆ s := by
  rw [splitComment]
  cases h : extractComment s semicolon <;> cases h' : extractComment s hash
  case none.none => simp
  case none.some => simpa using extractComment_subset h'
  all_goals simpa using extractComment_subset h

theorem parseHeader_subset : (parseHeader line).All (· ⊆ line) := by
  have ⟨h₁, h₂⟩ := splitComment_subset (s := line)
  simp only [parseHeader]
  split
  case h_1 => trivial
  case h_2 before _ hc =>
    have hd := List.Subset.trans (drop_subset 1 before) (strchr_subset hc).left
    have ht := List.Subset.trans trimWhitespace_subset hd
    exact ⟨List.Subset.trans ht h₁, h₂⟩

theorem parseKeyValue_subset : (parseKeyValue line).All (· ⊆ line) := by
  have ⟨h₁, h₂⟩ := splitComment_subset (s := line)
  simp only [parseKeyValue]
  split
  case h_1 => trivial
  case h_2 key value hc =>
    obtain ⟨hk, hv⟩ := strchr_subset hc
    have hk := List.Subset.trans trimWhitespace_subset hk
    have hv := List.Subset.trans trimWhitespace_subset hv
    exact ⟨List.Subset.trans hk h₁, List.Subset.trans hv h₁, h₂⟩

theorem parseLine_subset : (parseLine line).All (· ⊆ line) := by
  rw [parseLine]
  split
  case h_1 => exact nil_subset line
  case h_2 c cs h =>
    split_ifs
    case pos =>
      have hc : cs ⊆ line := fun d hd => trimWhitespace_subset (h ▸ mem_cons_of_mem c hd)
      exact List.Subset.trans trimWhitespace_subset hc
    · exact parseHeader_subset
    · exact parseKeyValue_subset

theorem NoBreak.strncpy {size : Nat} [NeZero size] (hs : NoBreak s) : NoBreak (Buf.strncpy s : Buf size).text :=
  hs.of_subset <| List.Subset.trans (take_subset _ _) (takeWhile_subset _)

theorem Section.NoBreaks.set_commentsBefore {sec : Section} {cs : List Comment} (h : sec.NoBreaks)
    (hc : ∀ c ∈ cs, NoBreak c.text) : Section.NoBreaks { sec with commentsBefore := cs } :=
  { h with commentsBefore := hc }

namespace INIFile.NoBreaks

variable {ini : INIFile} {cs : List Comment}

theorem empty : INIFile.empty.NoBreaks where
  headerComments := by simp [INIFile.empty]
  sections       := by simp [INIFile.empty]

theorem pendingComments (h : ini.NoBreaks) : ∀ c ∈ ini.pendingComments, NoBreak c.text := by
  rw [INIFile.pendingComments]
  split
  case h_1       => exact h.headerComments
  case h_2 sec _ he => exact (h.sections sec (by simp [he])).commentsBefore

theorem setPendingComments (h : ini.NoBreaks) (hc : ∀ c ∈ cs, NoBreak c.text) :
    (ini.setPendingComments cs).NoBreaks := by
  rw [INIFile.setPendingComments]
  split
  case h_1 => exact { h with headerComments := hc }
  case h_2 sec secs he =>
    have hs := he ▸ h.sections
    rw [forall_mem_cons] at hs
    refine { h with sections := ?_ }
    rw [forall_mem_cons]
    exact ⟨hs.left.set_commentsBefore hc, hs.right⟩

theorem cons {sec : Section} (h : ini.NoBreaks) (hs : sec.NoBreaks) :
    NoBreaks { ini with sections := sec :: ini.sections } :=
  { h with sections := forall_mem_cons.mpr ⟨hs, h.sections⟩ }

theorem load {l : Line} (h : ini.NoBreaks) (hl : l.All NoBreak) : (ini.load l).NoBreaks := by
  cases l <;> simp only [INIFile.load]
  case ignored => exact h
  case comment text =>
    refine h.setPendingComments ?_
    simp only [mem_append, mem_singleton]
    rintro c (hc | rfl)
    · exact h.pendingComments c hc
    · exact hl.strncpy
  case header name comment =>
    have hn : ∀ c ∈ ([] : List Comment), NoBreak c.text := by simp
    have hs : Section.NoBreaks { createSection name with
        comment := .strncpy comment, commentsBefore := ini.pendingComments } := {
      name := hl.left.strncpy, comment := hl.right.strncpy,
      commentsBefore := h.pendingComments, keys := by simp [createSection] }
    exact setPendingComments (.cons (h.setPendingComments hn) hs) hn
  case keyValue key value comment =>
    rw [loadKeyValue]
    split
    case h_1 => exact h
    case h_2 sec secs he =>
      have hs := he ▸ h.sections
      rw [forall_mem_cons] at hs
      refine { h with sections := ?_ }
      have hk : KeyValue.NoBreaks { createKey key with
          value := .strncpy value, comment := .strncpy comment, commentsBefore := sec.commentsBefore } := {
        key := hl.left.strncpy, value := hl.right.left.strncpy,
        comment := hl.right.right.strncpy, commentsBefore := hs.left.commentsBefore }
      rw [forall_mem_cons]
      refine ⟨{ hs.left with commentsBefore := by simp, keys := ?_ }, hs.right⟩
      exact forall_mem_cons.mpr ⟨hk, hs.left.keys⟩

end INIFile.NoBreaks

theorem Line.All.mono {P Q : Bytes → Prop} {l : Line} (h : l.All P) (hi : ∀ s, P s → Q s) : l.All Q := by
  cases l <;> simp_all [All]

-- No string that is read from a file extends over several lines.
theorem iniLoad_noBreaks (file : Option Bytes) : (iniLoad file).NoBreaks := by
  cases file
  case none => exact .empty
  case some file =>
    refine foldlRecOn _ _ .empty fun ini hi buf _ => hi.load ?_
    refine parseLine_subset.mono fun s hs => NoBreak.of_subset ⟨?cr, ?lf⟩ hs
    all_goals exact fun hm => by simpa using mem_takeWhile_imp hm

end Ini

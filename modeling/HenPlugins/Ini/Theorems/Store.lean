import HenPlugins.Library.Replay
import HenPlugins.Ini.Theorems.Alloc

open List CString

namespace Ini

-- The calls that change what is stored.
inductive Update
  | set            (s k v : Bytes)
  | setWithComment (s k v : Bytes) (comment : Option Bytes)
  | deleteKey      (s k : Bytes)
  | deleteSection  (s : Bytes)

-- Names and values are not cut at the buffers they are copied to. There is no bound on the names
-- of what is deleted.
def Update.Fits : Update → Prop
  | set s k v | setWithComment s k v _ =>
    (s.length < maxSectionLength ∧ 0 ∉ s) ∧ (k.length < maxKeyLength ∧ 0 ∉ k) ∧ v.length < maxValueLength ∧ 0 ∉ v
  | deleteKey .. | deleteSection _ => True

-- What the functions return and leave behind if all allocations succeed.
def INIFile.update : Update → INIFile → Bool × INIFile
  | .set s k v, ini                    => ((iniSetAlloc ini s k v).run []).fst
  | .setWithComment s k v comment, ini => ((iniSetWithCommentAlloc ini s k v comment).run []).fst
  | .deleteKey s k, ini                => iniDeleteKey ini s k
  | .deleteSection s, ini              => iniDeleteSection ini s

-- What the structure stands for: a map from pairs of names to values. A section exists from the first value
-- that is set in it until it is deleted, whether or not there are values left in it.
structure Reference where
  sections : Finset Bytes
  values   : Bytes × Bytes → Option Bytes

namespace Reference

def empty : Reference where
  sections := ∅
  values   := fun _ => none

def set (ref : Reference) (s k v : Bytes) : Reference where
  sections := insert s ref.sections
  values   := Function.update ref.values (s, k) v

def deleteKey (ref : Reference) (s k : Bytes) : Reference :=
  { ref with values := Function.update ref.values (s, k) none }

def deleteSection (ref : Reference) (s : Bytes) : Reference where
  sections := ref.sections.erase s
  values   := fun p => if p.fst = s then none else ref.values p

section

variable {ref : Reference} {s k v s' k' : Bytes}

theorem values_set : (ref.set s k v).values (s, k) = v :=
  Function.update_self ..

theorem values_set_ne (h : (s', k') ≠ (s, k)) : (ref.set s k v).values (s', k') = ref.values (s', k') :=
  Function.update_of_ne h ..

theorem values_deleteKey : (ref.deleteKey s k).values (s, k) = none :=
  Function.update_self ..

theorem values_deleteKey_ne (h : (s', k') ≠ (s, k)) : (ref.deleteKey s k).values (s', k') = ref.values (s', k') :=
  Function.update_of_ne h ..

theorem deleteKey_of_none (h : ref.values (s, k) = none) : ref.deleteKey s k = ref := by
  rw [deleteKey, ← h, Function.update_eq_self]

theorem values_deleteSection : (ref.deleteSection s).values (s, k) = none :=
  if_pos rfl

theorem values_deleteSection_ne (h : s' ≠ s) : (ref.deleteSection s).values (s', k) = ref.values (s', k) :=
  if_neg h

end

-- A deletion applies if there is something to be deleted.
def update : Update → Reference → Bool × Reference
  | .set s k v, ref              => (true, ref.set s k v)
  | .setWithComment s k v _, ref => (true, ref.set s k v)
  | .deleteKey s k, ref          => ((ref.values (s, k)).isSome, ref.deleteKey s k)
  | .deleteSection s, ref        => (s ∈ ref.sections, ref.deleteSection s)

end Reference

variable {ini : INIFile} {sec : Section} {ref : Reference} {s k v s' k' : Bytes} {comment : Option Bytes} {u : Update}

namespace INIFile

def removeKey (ini : INIFile) (s k : Bytes) : INIFile :=
  { ini with sections := Keyed.modifyFirst (·.id = s) (·.deleteKey k) ini.sections, modified := true }

def removeSection (ini : INIFile) (s : Bytes) : INIFile :=
  { ini with sections := ini.sections.eraseP (·.id = s), modified := true }

theorem iniDeleteKey_of_none (h : ini.find s k = none) : iniDeleteKey ini s k = (false, ini) := by
  rw [iniDeleteKey]
  cases hs : ini.findSection s
  case none     => rfl
  case some sec =>
    rw [find, hs, Option.bind_some] at h
    simp only [h]

theorem iniDeleteKey_of_some (h : (ini.find s k).isSome) : iniDeleteKey ini s k = (true, ini.removeKey s k) := by
  rw [iniDeleteKey]
  cases hs : ini.findSection s
  case none     => simp [find, hs] at h
  case some sec =>
    rw [find, hs, Option.bind_some] at h
    obtain ⟨kv, hk⟩ := Option.isSome_iff_exists.mp h
    simp only [hk, removeKey]

theorem findSection_removeKey : (ini.removeKey s k).findSection s = (ini.findSection s).map (·.deleteKey k) :=
  Keyed.lookup_modifyFirst fun _ => rfl

theorem findSection_removeKey_ne (h : s' ≠ s) : (ini.removeKey s k).findSection s' = ini.findSection s' :=
  Keyed.lookup_modifyFirst_ne (fun _ => rfl) h

theorem find_removeKey (h : ini.Unambiguous) : (ini.removeKey s k).find s k = none := by
  rw [find, findSection_removeKey]
  cases hs : ini.findSection s
  case none     => rfl
  case some sec => exact Keyed.lookup_erase (h.keys sec (Keyed.mem_of_lookup hs))

theorem find_removeKey_ne (h : (s', k') ≠ (s, k)) : (ini.removeKey s k).find s' k' = ini.find s' k' := by
  by_cases hs' : s' = s
  case neg => rw [find, findSection_removeKey_ne hs', find]
  case pos =>
    subst hs'
    have hk' : k' ≠ k := fun hk' => h (hk' ▸ rfl)
    rw [find, findSection_removeKey, find]
    cases hs : ini.findSection s'
    case none     => rfl
    case some sec => exact Keyed.lookup_erase_ne hk'

theorem Unambiguous.removeKey (h : ini.Unambiguous) : (ini.removeKey s k).Unambiguous where
  sections := by
    have hm : (ini.removeKey s k).sections.map Section.id = ini.sections.map Section.id :=
      Keyed.map_modifyFirst (f := (Section.deleteKey · k)) fun _ => rfl
    exact hm ▸ h.sections
  keys := by
    intro sec hm
    cases Keyed.mem_modifyFirst hm
    case inl hm => exact h.keys sec hm
    case inr hm =>
      have ⟨sec', hm, he⟩ := hm
      rw [he]
      exact Keyed.nodup_erase (h.keys sec' hm)

theorem findSection_removeSection (h : ini.Unambiguous) : (ini.removeSection s).findSection s = none :=
  Keyed.lookup_erase h.sections

theorem findSection_removeSection_ne (h : s' ≠ s) : (ini.removeSection s).findSection s' = ini.findSection s' :=
  Keyed.lookup_erase_ne h

theorem Unambiguous.removeSection (h : ini.Unambiguous) : (ini.removeSection s).Unambiguous where
  sections := Keyed.nodup_erase h.sections
  keys     := fun sec hm => h.keys sec (mem_of_mem_eraseP hm)

-- The structure represents the map. No name occurs twice, as otherwise a deletion would uncover an old value.
structure Refines (ini : INIFile) (ref : Reference) : Prop where
  unambiguous : ini.Unambiguous
  sections    : ∀ s, (ini.findSection s).isSome ↔ s ∈ ref.sections
  values      : ∀ s k, iniGet ini s k = ref.values (s, k)

namespace Refines

theorem empty : INIFile.empty.Refines .empty where
  unambiguous := ⟨nodup_nil, by simp [INIFile.empty]⟩
  sections    := by simp [findSection, INIFile.empty, Reference.empty]
  values      := fun _ _ => rfl

theorem set (h : ini.Refines ref) (hu : (Update.set s k v).Fits) :
    (iniSetWithComment ini s k v comment).Refines (ref.set s k v) := by
  have ⟨⟨hs, hs'⟩, ⟨hk, hk'⟩, hv, hv'⟩ := hu
  have hs := createSection_id hs hs'
  have hk := createKey_id hk hk'
  constructor
  case unambiguous => exact h.unambiguous.set hs hk
  case sections =>
    intro s'
    rw [Reference.set, Finset.mem_insert]
    by_cases he : s' = s
    case pos => simp [he, findSection_set hs]
    case neg => rw [findSection_set_ne hs he, h.sections, or_iff_right he]
  case values =>
    intro s' k'
    by_cases he : (s', k') = (s, k)
    case neg => rw [iniGet_set_ne hs hk he, ref.values_set_ne he, h.values]
    case pos =>
      obtain ⟨rfl, rfl⟩ := Prod.mk.inj he
      rw [iniGet_set hs hk hv hv', ref.values_set]

theorem removeKey (h : ini.Refines ref) : (ini.removeKey s k).Refines (ref.deleteKey s k) where
  unambiguous := h.unambiguous.removeKey
  sections := by
    intro s'
    rw [Reference.deleteKey, ← h.sections]
    by_cases he : s' = s
    case pos => rw [he, findSection_removeKey, Option.isSome_map]
    case neg => rw [findSection_removeKey_ne he]
  values := by
    intro s' k'
    rw [iniGet_eq]
    by_cases he : (s', k') = (s, k)
    case neg => rw [find_removeKey_ne he, ref.values_deleteKey_ne he, ← h.values, iniGet_eq]
    case pos =>
      obtain ⟨rfl, rfl⟩ := Prod.mk.inj he
      rw [find_removeKey h.unambiguous, ref.values_deleteKey, Option.map_none]

theorem removeSection (h : ini.Refines ref) : (ini.removeSection s).Refines (ref.deleteSection s) where
  unambiguous := h.unambiguous.removeSection
  sections := by
    intro s'
    rw [Reference.deleteSection, Finset.mem_erase, ← h.sections]
    by_cases he : s' = s
    case pos => simp [he, findSection_removeSection h.unambiguous]
    case neg => rw [findSection_removeSection_ne he, and_iff_right he]
  values := by
    intro s' k'
    rw [iniGet_eq, find]
    by_cases he : s' = s
    case pos => rw [he, findSection_removeSection h.unambiguous, ref.values_deleteSection, Option.bind_none, Option.map_none]
    case neg => rw [findSection_removeSection_ne he, ref.values_deleteSection_ne he, ← h.values, iniGet_eq, find]

theorem deleteKey (h : ini.Refines ref) :
    (iniDeleteKey ini s k).fst = (ref.values (s, k)).isSome ∧ (iniDeleteKey ini s k).snd.Refines (ref.deleteKey s k) := by
  rw [← h.values, iniGet_eq, Option.isSome_map]
  cases hf : ini.find s k
  case some kv =>
    rw [iniDeleteKey_of_some (hf ▸ rfl)]
    exact ⟨rfl, h.removeKey⟩
  case none =>
    have hn : ref.values (s, k) = none := by rw [← h.values, iniGet_eq, hf, Option.map_none]
    rw [iniDeleteKey_of_none hf, ref.deleteKey_of_none hn]
    exact ⟨rfl, h⟩

theorem deleteSection (h : ini.Refines ref) :
    (iniDeleteSection ini s).fst = decide (s ∈ ref.sections) ∧
      (iniDeleteSection ini s).snd.Refines (ref.deleteSection s) := by
  simp only [← h.sections]
  rw [iniDeleteSection]
  cases hf : ini.findSection s
  case some sec => exact ⟨rfl, h.removeSection⟩
  case none =>
    -- Deleting a section that does not exist changes nothing.
    have hs : s ∉ ref.sections := by simp [← h.sections, hf]
    have hd : ref.deleteSection s = ref := by
      rw [Reference.deleteSection, Finset.erase_eq_of_notMem hs]
      congr
      funext ⟨s', k'⟩
      split
      case isFalse   => rfl
      case isTrue he =>
        have he : s' = s := he
        rw [he, ← h.values, iniGet_eq, find, hf, Option.bind_none, Option.map_none]
    rw [hd]
    exact ⟨rfl, h⟩

theorem update (h : ini.Refines ref) (hu : u.Fits) :
    (ini.update u).fst = (ref.update u).fst ∧ (ini.update u).snd.Refines (ref.update u).snd := by
  have hs {s k v : Bytes} {comment : Option Bytes} :
      ((iniSetWithCommentAlloc ini s k v comment).run []).fst = (true, iniSetWithComment ini s k v comment) :=
    alloc_of_succeeds (forall_mem_nil _)
  cases u
  case set s k v                    =>
    rw [INIFile.update, iniSetAlloc, hs]
    exact ⟨rfl, h.set hu⟩
  case setWithComment s k v comment =>
    rw [INIFile.update, hs]
    exact ⟨rfl, h.set hu⟩
  case deleteKey s k                => exact h.deleteKey
  case deleteSection s              => exact h.deleteSection

end Refines

-- In every run, the functions return what the operations of the map return, and they store what is in the map.
theorem replay_refines {us : List Update} (h : ∀ u ∈ us, u.Fits) :
    Forall₂ (fun x y => x.fst = y.fst ∧ ∀ s k, iniGet x.snd s k = y.snd.values (s, k))
      (Replay.replay INIFile.update .empty us) (Replay.replay Reference.update .empty us) := by
  have hu (u : Update) (ini : INIFile) (ref : Reference) (hu : u.Fits) (h : ini.Refines ref) := h.update hu
  exact (Replay.simulation hu h .empty).imp fun _ _ ⟨hr, hs⟩ => ⟨hr, hs.values⟩

theorem replay_refines_sample :
    Forall₂ (fun x y => x.fst = y.fst ∧ ∀ s k, iniGet x.snd s k = y.snd.values (s, k))
      (Replay.replay INIFile.update .empty [.set [115] [107] [118], .deleteKey [115] [107], .deleteSection [115]])
      (Replay.replay Reference.update .empty [.set [115] [107] [118], .deleteKey [115] [107], .deleteSection [115]]) :=
  replay_refines (by simp [Update.Fits])

-- The values alone do not determine what is returned: a section that has lost all of them is deleted as well.
theorem deleteSection_not_determined :
    (∀ s k, iniGet (iniDeleteKey (iniSet .empty [115] [107] [118]) [115] [107]).snd s k = iniGet .empty s k) ∧
      (iniDeleteSection (iniDeleteKey (iniSet .empty [115] [107] [118]) [115] [107]).snd [115]).fst ≠
        (iniDeleteSection .empty [115]).fst := by
  constructor
  case right => decide
  case left =>
    intro s k
    have h : (iniDeleteKey (iniSet .empty [115] [107] [118]) [115] [107]).snd.sections = [createSection [115]] := by
      decide
    rw [iniGet_eq, find, findSection, h, Keyed.lookup_cons]
    split
    all_goals rfl

end INIFile
end Ini

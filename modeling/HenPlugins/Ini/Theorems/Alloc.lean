import HenPlugins.Ini.Alloc
import HenPlugins.Ini.Theorems.Set

open List CString

namespace Ini

variable {ini : INIFile} {sec : Section} {s k v : Bytes} {comment : Option Bytes} {outcomes : List Bool}

theorem malloc_bind {α : Type} {f : Bool → Malloc α} :
    (malloc >>= f).run outcomes = (f (outcomes.headD true)).run outcomes.tail := rfl

theorem setAlloc_of_isSome (h : (sec.findKey k).isSome) :
    sec.setAlloc k v comment = pure (some (sec.set k v comment)) := by
  have ⟨kv, hk⟩ := Option.isSome_iff_exists.mp h
  rw [Section.findKey] at hk
  simp only [Section.setAlloc, Section.set, Keyed.upsert, Section.findKey, hk, Option.isSome_some, if_true]

-- The key is created by the next call of `malloc`.
theorem setAlloc_of_none (h : sec.findKey k = none) : sec.setAlloc k v comment =
    malloc >>= fun ok => pure (if ok then some (sec.set k v comment) else none) := by
  rw [Section.findKey] at h
  simp only [Section.setAlloc, Section.set, Keyed.upsert, Section.findKey, h]
  refine bind_congr fun ok => ?_
  cases ok <;> rfl

-- The section to be written to exists.
theorem alloc_of_findSection (h : ini.findSection s = some sec) :
    ((iniSetWithCommentAlloc ini (some s) (some k) (some v) comment).run outcomes).fst =
      if (sec.findKey k).isSome ∨ outcomes.headD true then (true, iniSetWithComment ini s k v comment)
      else (false, ini) := by
  have he : iniSetWithComment ini s k v comment = { ini with
      sections := Keyed.modifyFirst (·.id = s) (fun _ => sec.set k v comment) ini.sections, modified := true } := by
    rw [Keyed.modifyFirst_const (f := (Section.set · k v comment)) h, iniSetWithComment, Keyed.upsert]
    rw [INIFile.findSection] at h
    simp only [h, Option.isSome_some, if_true]
  simp only [iniSetWithCommentAlloc, h, he]
  cases hk : sec.findKey k
  case some kv =>
    rw [setAlloc_of_isSome (hk ▸ rfl), pure_bind]
    rfl
  case none =>
    rw [setAlloc_of_none hk, bind_assoc, malloc_bind]
    cases outcomes.headD true <;> rfl

theorem alloc_of_none (h : ini.findSection s = none) :
    ((iniSetWithCommentAlloc ini (some s) (some k) (some v) comment).run outcomes).fst =
      if outcomes.headD true then
        if outcomes.tail.headD true then (true, iniSetWithComment ini s k v comment)
        else (false, { ini with sections := createSection s :: ini.sections })
      else (false, ini) := by
  have he : iniSetWithComment ini s k v comment = { ini with
      sections := (createSection s).set k v comment :: ini.sections, modified := true } := by
    rw [INIFile.findSection] at h
    simp only [iniSetWithComment, Keyed.upsert, h]
    rfl
  simp only [iniSetWithCommentAlloc, h, he]
  rw [malloc_bind]
  cases outcomes.headD true
  case false => rfl
  case true  =>
    rw [if_pos rfl, setAlloc_of_none rfl, bind_assoc, malloc_bind]
    cases outcomes.tail.headD true <;> rfl

-- If all allocations succeed, the function is the one without allocations.
theorem alloc_of_succeeds (h : ∀ b ∈ outcomes, b = true) :
    ((iniSetWithCommentAlloc ini (some s) (some k) (some v) comment).run outcomes).fst =
      (true, iniSetWithComment ini s k v comment) := by
  have hh {l : List Bool} (h : ∀ b ∈ l, b = true) : l.headD true = true := by
    cases l
    case nil      => rfl
    case cons b l => exact h b mem_cons_self
  cases hs : ini.findSection s
  case some sec => rw [alloc_of_findSection hs, if_pos (.inr (hh h))]
  case none => rw [alloc_of_none hs, if_pos (hh h), if_pos (hh fun b hb => h b (mem_of_mem_tail hb))]

-- A call that returns 0 has changed nothing.
def FailsClean (ini : INIFile) (result : Bool × INIFile) : Prop :=
  result.fst = false → result.snd = ini

-- The section does not exist and is created, but its key is not.
def LeavesSection (ini : INIFile) (sectionName keyName value : Option Bytes) (outcomes : List Bool) : Prop :=
  keyName.isSome ∧ value.isSome ∧ (∃ s ∈ sectionName, ini.findSection s = none) ∧ [true, false] <+: outcomes

theorem failsClean_iff {sectionName keyName value : Option Bytes} :
    FailsClean ini ((iniSetWithCommentAlloc ini sectionName keyName value comment).run outcomes).fst ↔
      ¬LeavesSection ini sectionName keyName value outcomes := by
  cases sectionName
  case none   => exact iff_of_true (fun _ => rfl) (by simp [LeavesSection])
  case some s =>
    cases keyName <;> cases value
    case some.some k v =>
      cases hs : ini.findSection s
      case some sec =>
        rw [alloc_of_findSection hs, FailsClean]
        split <;> simp [LeavesSection, hs]
      case none =>
        -- The list is longer than before if only the first of the two allocations succeeds.
        have hc : { ini with sections := createSection s :: ini.sections } ≠ ini := fun he =>
          absurd (congrArg (·.sections.length) he) (by simp)
        rw [alloc_of_none hs, FailsClean]
        rcases outcomes with _ | ⟨_ | _, _ | ⟨_ | _, _⟩⟩
        all_goals simp [LeavesSection, hs, hc]
    all_goals exact iff_of_true (fun _ => rfl) (by simp [LeavesSection])

-- A failed call changes nothing, unless the memory runs out between its two allocations.
theorem ini_set_failsClean_iff (ini : INIFile) (sectionName keyName value comment : Option Bytes) (outcomes : List Bool) :
    (FailsClean ini ((iniSetAlloc ini sectionName keyName value).run outcomes).fst ∧
      FailsClean ini ((iniSetWithCommentAlloc ini sectionName keyName value comment).run outcomes).fst) ↔
    ¬LeavesSection ini sectionName keyName value outcomes := by
  rw [iniSetAlloc, failsClean_iff, failsClean_iff, and_self]

-- An empty section is left behind.
theorem ini_set_leaves_section :
    ((iniSetAlloc .empty (bytes "all") (bytes "a.prx") (bytes "1")).run [true, false]).fst =
      (false, { INIFile.empty with sections := [createSection (bytes "all")] }) ∧
    ¬FailsClean .empty ((iniSetAlloc .empty (bytes "all") (bytes "a.prx") (bytes "1")).run [true, false]).fst := by
  refine ⟨by rfl, fun h => ?_⟩
  exact absurd (congrArg (·.sections.length) (h rfl)) (by decide)

end Ini

import HenPlugins.Loader.Basic

open List CString Ini StateTransition

namespace Loader

variable {t : Bytes} {l l' : Loop} {sec : Section} {secs pre : List Section} {ini : INIFile} {p : Bytes}

theorem loopStep_nil (h : l.rest = []) : loopStep t l = none := by
  rw [loopStep, h]

theorem loopStep_eq_none : loopStep t l = none ↔ l.rest = [] := by
  constructor
  case mpr => exact loopStep_nil
  case mp =>
    intro h
    rw [loopStep] at h
    split at h
    case h_1 hr => exact hr
    case h_2    => split at h <;> contradiction

theorem loopStep_selected (h : l.rest = sec :: secs) (hs : isSelected t sec) : loopStep t l =
    some { rest := secs, examined := l.examined ++ [sec], loaded := l.loaded ++ enabledKeys sec } := by
  simp [loopStep, h, hs]

theorem loopStep_not_selected (h : l.rest = sec :: secs) (hs : ¬isSelected t sec) :
    loopStep t l = some { l with examined := l.examined ++ [sec] } := by
  simp [loopStep, h, hs]

-- The loop never gets past a section that is not selected.
theorem not_halts (h : l.rest = sec :: secs) (hs : ¬isSelected t sec) {P : Loop → Prop} :
    ¬Run.Halts (loopStep t) l P := by
  refine Run.not_halts (Q := fun l => l.rest = sec :: secs) ?step ?none h
  case none => intro l hl hn; simp [loopStep_eq_none, hl] at hn
  case step =>
    intro l l' he hl
    rw [loopStep_not_selected hl hs, Option.some.injEq] at he
    rw [← he]
    exact hl

-- Each of the sections in front of the others is examined once, if all of them are selected.
theorem reaches_append (h : ∀ sec ∈ pre, isSelected t sec) (secs ex : List Section) (ld : List Bytes) :
    Reaches (loopStep t) { rest := pre ++ secs, examined := ex, loaded := ld }
      { rest := secs, examined := ex ++ pre, loaded := ld ++ pre.flatMap enabledKeys } := by
  induction pre generalizing ex ld
  case nil =>
    simp only [append_nil, flatMap_nil, nil_append]
    exact .refl
  case cons sec pre hi =>
    rw [forall_mem_cons] at h
    rw [append_cons, flatMap_cons, ← append_assoc]
    exact .head (loopStep_selected rfl h.left) (hi h.right (ex ++ [sec]) (ld ++ enabledKeys sec))

theorem halts_iff (ex : List Section) (ld : List Bytes) :
    Run.Halts (loopStep t) { rest := secs, examined := ex, loaded := ld }
      (fun l => l.examined = ex ++ secs) ↔ ∀ sec ∈ secs, isSelected t sec := by
  constructor
  case mpr =>
    intro h
    have hr := reaches_append h [] ex ld
    rw [append_nil] at hr
    exact ⟨_, hr, loopStep_nil rfl, rfl⟩
  case mp =>
    intro h
    induction secs generalizing ex ld
    case nil => simp
    case cons sec secs hi =>
      by_cases hs : isSelected t sec
      case neg => exact absurd h (not_halts rfl hs)
      case pos =>
        rw [Run.halts_iff_of_step (loopStep_selected rfl hs), append_cons ex sec secs] at h
        rw [forall_mem_cons]
        exact ⟨hs, hi (ex ++ [sec]) (ld ++ enabledKeys sec) h⟩

-- What the loop has loaded is determined by how far it has got.
structure Progress (ini : INIFile) (t : Bytes) (l : Loop) : Prop where
  position : ∃ pre, ini.sections = pre ++ l.rest ∧ (∀ sec ∈ pre, isSelected t sec) ∧
    l.loaded = pre.flatMap enabledKeys

theorem progress_step (hs : loopStep t l = some l') (h : Progress ini t l) : Progress ini t l' := by
  have ⟨pre, hp, hm, hl⟩ := h.position
  rw [loopStep] at hs
  split at hs
  case h_1 => contradiction
  case h_2 sec secs hr =>
    split at hs
    all_goals
      rw [Option.some.injEq] at hs
      subst hs
    case isFalse => exact ⟨h.position⟩
    case isTrue ht =>
      refine ⟨pre ++ [sec], ?_, ?_, ?_⟩
      · simp [hp, hr]
      · simpa [or_imp, forall_and] using ⟨hm, ht⟩
      · simp [hl]

theorem progress_of_reaches (h : Reaches (loopStep t) (loopStart ini) l) : Progress ini t l :=
  Run.invariant h (fun _ _ => progress_step) ⟨[], rfl, by simp, rfl⟩

-- The sections that the loop gets past, and the paths that it loads.
theorem loaded_iff : (∃ l, Reaches (loopStep t) (loopStart ini) l ∧ p ∈ l.loaded) ↔
    ∃ sec ∈ ini.sections.takeWhile (isSelected t), p ∈ enabledKeys sec := by
  constructor
  case mp =>
    intro ⟨l, hl, hp⟩
    have ⟨pre, he, hs, hd⟩ := (progress_of_reaches hl).position
    rw [hd, mem_flatMap] at hp
    have ⟨sec, hm, hp⟩ := hp
    refine ⟨sec, ?_, hp⟩
    rw [he, takeWhile_append_of_pos hs]
    exact mem_append_left _ hm
  case mpr =>
    intro ⟨sec, hm, hp⟩
    have hs : ∀ sec ∈ ini.sections.takeWhile (isSelected t), isSelected t sec := fun _ => mem_takeWhile_imp
    have hr := reaches_append hs (ini.sections.dropWhile (isSelected t)) [] []
    rw [takeWhile_append_dropWhile] at hr
    exact ⟨_, hr, mem_flatMap.mpr ⟨sec, hm, hp⟩⟩

end Loader

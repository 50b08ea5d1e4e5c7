import Mathlib

open StateTransition Relation

-- Loops as state transition functions: the loop is left in a state without a successor.
namespace Run

variable {σ : Type*} {f : σ → Option σ} {P : σ → Prop} {a b c : σ}

-- What every step preserves, every run preserves.
theorem invariant (h : Reaches f a b) (hs : ∀ a b, f a = some b → P a → P b) (ha : P a) : P b := by
  induction h
  case refl            => exact ha
  case tail b c _ s hi => exact hs b c s hi

-- A loop halts in a state that satisfies `P`.
def Halts (f : σ → Option σ) (a : σ) (P : σ → Prop) : Prop :=
  ∃ b, Reaches f a b ∧ f b = none ∧ P b

theorem halts_iff_of_final (h : f a = none) : Halts f a P ↔ P a := by
  constructor
  case mpr => exact fun ha => ⟨a, .refl, h, ha⟩
  case mp =>
    intro ⟨b, hb, _, hP⟩
    cases hb.cases_head
    case inl he => exact he ▸ hP
    case inr hs =>
      have ⟨_, hs, _⟩ := hs
      rw [Option.mem_def, h] at hs
      contradiction

theorem halts_iff_of_step (h : f a = some b) : Halts f a P ↔ Halts f b P := by
  constructor
  case mpr => exact fun ⟨c, hc, hP⟩ => ⟨c, hc.head h, hP⟩
  case mp =>
    intro ⟨c, hc, hf, hP⟩
    cases hc.cases_head
    case inl he =>
      rw [← he, h] at hf
      contradiction
    case inr hs =>
      have ⟨b', hs, hc⟩ := hs
      rw [Option.mem_def, h, Option.some.injEq] at hs
      exact ⟨c, hs ▸ hc, hf, hP⟩

theorem halts_iff_of_reaches (h : Reaches f a b) : Halts f a P ↔ Halts f b P := by
  induction h
  case refl           => rfl
  case tail _ _ _ s hi => exact hi.trans (halts_iff_of_step s)

-- A loop does not halt while an invariant of it rules out the states without a successor.
theorem not_halts {Q : σ → Prop} (hs : ∀ a b, f a = some b → Q a → Q b) (hn : ∀ a, Q a → f a ≠ none)
    (ha : Q a) : ¬Halts f a P :=
  fun ⟨b, hb, hf, _⟩ => hn b (invariant hb hs ha) hf

-- Two loops go along with each other if every step of the one is a step of the other.
theorem respects {τ : Type*} {g : τ → Option τ} {tr : σ → τ → Prop}
    (h : ∀ a b, tr a b → Option.Rel tr (f a) (g b)) : Respects f g tr := by
  intro a b hab
  have hr := h a b hab
  cases hf : f a <;> cases hg : g b <;> rw [hf, hg] at hr <;> cases hr
  -- Two final states agree by definition.
  case some.some.some hr => exact ⟨_, hr, .single hg⟩

end Run

import Mathlib

open List

-- Machines that answer one input after the other.
namespace Replay

variable {ι ρ σ τ : Type*} {f : ι → σ → ρ × σ} {g : ι → τ → ρ × τ} {a : σ} {b : τ}

-- The answers, together with the states that the machine is in after giving them.
def replay (f : ι → σ → ρ × σ) (a : σ) : List ι → List (ρ × σ)
  | []      => []
  | i :: is => f i a :: replay f (f i a).2 is

-- Machines that give the same answers and stay related in each step do so in each run.
theorem simulation {R : σ → τ → Prop} {P : ι → Prop} {is : List ι}
    (hs : ∀ i a b, P i → R a b → (f i a).1 = (g i b).1 ∧ R (f i a).2 (g i b).2) (hP : ∀ i ∈ is, P i) (hR : R a b) :
    Forall₂ (fun x y => x.1 = y.1 ∧ R x.2 y.2) (replay f a is) (replay g b is) := by
  induction is generalizing a b
  case nil => exact .nil
  case cons i is hi =>
    rw [forall_mem_cons] at hP
    have h := hs i a b hP.left hR
    exact .cons h (hi hP.right h.right)

end Replay

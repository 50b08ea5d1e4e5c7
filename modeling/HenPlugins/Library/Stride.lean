import Mathlib

open Set

-- Walks that only go forward: every position is followed by a later one.
namespace Stride

variable {next : ℕ → ℕ} {a b n s x : ℕ}

-- The positions that a walk comes through.
def walk (next : ℕ → ℕ) (a : ℕ) : Set ℕ :=
  Set.range fun k => next^[k] a

-- The first position that is not in front of `n`.
def IsFirst (next : ℕ → ℕ) (a n s : ℕ) : Prop :=
  IsLeast {x ∈ walk next a | n ≤ x} s

theorem start_mem_walk : a ∈ walk next a :=
  ⟨0, rfl⟩

theorem mem_walk_iff : x ∈ walk next a ↔ x = a ∨ x ∈ walk next (next a) := by
  constructor
  case mp =>
    rintro ⟨_ | k, rfl⟩
    · exact .inl rfl
    · exact .inr ⟨k, rfl⟩
  case mpr =>
    rintro (rfl | ⟨k, rfl⟩)
    · exact start_mem_walk
    · exact ⟨k + 1, rfl⟩

theorem le_iterate (hn : ∀ x, x < next x) (k : ℕ) : a + k ≤ next^[k] a := by
  induction k
  case zero      => exact le_rfl
  case succ k hi =>
    rw [Function.iterate_succ_apply', ← Nat.add_assoc]
    exact Nat.succ_le_of_lt (hi.trans_lt (hn _))

theorem le_of_mem_walk (hn : ∀ x, x < next x) (h : x ∈ walk next a) : a ≤ x := by
  obtain ⟨k, rfl⟩ := h
  exact Nat.le_of_add_right_le (le_iterate hn k)

theorem exists_isFirst (hn : ∀ x, x < next x) (a n : ℕ) : ∃ s, IsFirst next a n s := by
  have hs : {x ∈ walk next a | n ≤ x}.Nonempty :=
    ⟨next^[n] a, ⟨n, rfl⟩, Nat.le_of_add_left_le (le_iterate hn n)⟩
  exact ⟨_, isLeast_csInf hs⟩

theorem isFirst_iff_of_le (hn : ∀ x, x < next x) (h : n ≤ a) : IsFirst next a n s ↔ s = a := by
  have ha : IsFirst next a n a := ⟨⟨start_mem_walk, h⟩, fun x hx => le_of_mem_walk hn hx.left⟩
  exact ⟨fun hs => hs.unique ha, fun hs => hs ▸ ha⟩

theorem isFirst_iff_of_lt (h : a < n) : IsFirst next a n s ↔ IsFirst next (next a) n s := by
  have hs : {x ∈ walk next a | n ≤ x} = {x ∈ walk next (next a) | n ≤ x} := by
    ext x
    simp only [mem_ofPred_eq, mem_walk_iff (x := x) (a := a), or_and_right, or_iff_right_iff_imp, and_imp]
    rintro rfl hx
    exact absurd hx (not_le.mpr h)
  rw [IsFirst, IsFirst, hs]

-- The last stride before it starts in front of `n`.
theorem IsFirst.lt_add (hn : ∀ x, x < next x) (hb : ∀ x, next x ≤ x + b) (h : IsFirst next a n s) (ha : a < n) :
    s < n + b := by
  obtain ⟨⟨k, rfl⟩, hk⟩ := h.left
  cases k
  case zero   => exact absurd hk (not_le.mpr ha)
  case succ k =>
    have hl : next^[k] a < n := by
      by_contra hl
      have hk := h.right ⟨⟨k, rfl⟩, not_lt.mp hl⟩
      simp only [Function.iterate_succ_apply'] at hk
      exact absurd (hn (next^[k] a)) (not_lt.mpr hk)
    simp only [Function.iterate_succ_apply']
    exact (hb _).trans_lt (Nat.add_lt_add_right hl b)

-- Nothing is between a position and the next one.
theorem le_of_mem_walk_of_lt (hn : ∀ x, x < next x) (hx : x ∈ walk next a) (hs : s ∈ walk next a) (h : x < s) :
    next x ≤ s := by
  obtain ⟨i, rfl⟩ := hx
  obtain ⟨k, rfl⟩ := hs
  have hi : i < k := by
    by_contra! hk
    have hle := le_iterate (a := next^[k] a) hn (i - k)
    rw [← Function.iterate_add_apply, Nat.sub_add_cancel hk] at hle
    simp only at h
    omega
  have hle := le_iterate (a := next^[i + 1] a) hn (k - (i + 1))
  rw [← Function.iterate_add_apply, Nat.sub_add_cancel hi, Function.iterate_succ_apply'] at hle
  simp only
  omega

-- Walks that agree up to one of the positions of the first one
theorem mem_walk_congr {next' : ℕ → ℕ} (hn : ∀ x, x < next x) (hn' : ∀ x, x < next' x) (hs : s ∈ walk next a)
    (h : ∀ x ∈ walk next a, x < s → next' x = next x) (hx : x ≤ s) : x ∈ walk next' a ↔ x ∈ walk next a := by
  obtain ⟨k, hk⟩ := hs
  have heq : ∀ i ≤ k, next'^[i] a = next^[i] a := by
    intro i hi
    induction i
    case zero => rfl
    case succ i hi' =>
      have hlt : next^[i] a < s := by
        have hle := le_iterate (a := next^[i] a) hn (k - i)
        rw [← Function.iterate_add_apply, Nat.sub_add_cancel (by omega)] at hle
        simp only at hk
        omega
      rw [Function.iterate_succ_apply', Function.iterate_succ_apply', hi' (by omega), h _ ⟨i, rfl⟩ hlt]
  -- What comes behind the k-th position is beyond it.
  have hlast {f : ℕ → ℕ} (hf : ∀ x, x < f x) (hfk : f^[k] a = s) {i : ℕ} (hi : f^[i] a ≤ s) : i ≤ k := by
    by_contra! hlt
    have hle := le_iterate (a := f^[k] a) hf (i - k)
    rw [← Function.iterate_add_apply, Nat.sub_add_cancel hlt.le] at hle
    omega
  have hk' : next'^[k] a = s := (heq k le_rfl).trans hk
  constructor
  case mp =>
    rintro ⟨i, rfl⟩
    exact ⟨i, (heq i (hlast hn' hk' hx)).symm⟩
  case mpr =>
    rintro ⟨i, rfl⟩
    exact ⟨i, heq i (hlast hn hk hx)⟩

end Stride

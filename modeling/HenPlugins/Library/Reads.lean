import HenPlugins.Library.LittleEndian
import HenPlugins.Library.Memory

open List

-- Code that reads memory: what it returns, and the addresses that it reads.
def Reads (α : Type) := Mem → α × List Addr

namespace Reads

variable {α β : Type} {m : Mem} {s : Set Addr} {x : Addr} {n i : Nat}

instance : Monad Reads where
  pure a   := fun _ => (a, [])
  bind p f := fun m => ((f (p m).fst m).fst, (p m).snd ++ (f (p m).fst m).snd)

def result (p : Reads α) (m : Mem) : α :=
  (p m).fst

def Inside (p : Reads α) (m : Mem) (s : Set Addr) : Prop :=
  ∀ x ∈ (p m).snd, x ∈ s

def load (x : Addr) : Reads UInt8 :=
  fun m => (m x, [x])

def loadBytes (x : Addr) (n : Nat) : Reads Bytes :=
  fun m => (m.read x n, (List.range n).map fun i => x + .ofNat 64 i)

-- The first of `n` indices from `i` on at which the test succeeds.
def search (f : Nat → Reads Bool) : (n i : Nat) → Reads (Option Nat)
  | 0, _     => return none
  | n + 1, i => do if ← f i then return some i else search f n (i + 1)

@[simp]
theorem result_pure {a : α} : (pure a : Reads α).result m = a := rfl

@[simp]
theorem result_bind {p : Reads α} {f : α → Reads β} : (p >>= f).result m = (f (p.result m)).result m := rfl

@[simp]
theorem result_load : (load x).result m = m x := by
  rw [result, load]

theorem result_ite {b : Prop} [Decidable b] {p q : Reads α} :
    (if b then p else q).result m = if b then p.result m else q.result m := by
  split <;> rfl

@[simp]
theorem inside_pure {a : α} : (pure a : Reads α).Inside m s := by
  intro x hx
  cases hx

@[simp]
theorem inside_bind {p : Reads α} {f : α → Reads β} :
    (p >>= f).Inside m s ↔ p.Inside m s ∧ (f (p.result m)).Inside m s :=
  forall_mem_append

@[simp]
theorem inside_load : (load x).Inside m s ↔ x ∈ s :=
  forall_mem_singleton

@[simp]
theorem inside_loadBytes : (loadBytes x n).Inside m s ↔ Mem.region x n ⊆ s := by
  constructor
  case mp =>
    intro h y hy
    have ⟨i, hi, he⟩ := Mem.exists_of_mem_region hy
    exact he ▸ h _ (mem_map_of_mem (mem_range.mpr hi))
  case mpr =>
    intro h y hy
    have ⟨i, hi, he⟩ := mem_map.mp hy
    exact he ▸ h (Mem.add_mem_region (mem_range.mp hi))

theorem inside_ite {b : Prop} [Decidable b] {p q : Reads α} :
    (if b then p else q).Inside m s ↔ if b then p.Inside m s else q.Inside m s := by
  split <;> rfl

variable {f : Nat → Reads Bool}

theorem result_search : (search f n i).result m = (List.range' i n).find? fun k => (f k).result m := by
  induction n generalizing i
  case zero => rfl
  case succ n hi =>
    rw [search, result_bind, range'_succ, find?_cons]
    cases (f i).result m
    case false => exact hi
    case true  => rfl

-- Every test is made up to the first one that succeeds.
theorem inside_search : (search f n i).Inside m s ↔
    ∀ k < n, (∀ l < k, (f (i + l)).result m = false) → (f (i + k)).Inside m s := by
  induction n generalizing i
  case zero => simp [search]
  case succ n hi =>
    rw [search, inside_bind]
    cases hr : (f i).result m
    case true =>
      rw [if_pos rfl]
      constructor
      case mpr => exact fun h => ⟨h 0 n.succ_pos (by simp), inside_pure⟩
      case mp =>
        intro h k hk hn
        cases k
        case zero   => exact h.left
        case succ k => exact absurd (hn 0 k.succ_pos) (by simp [hr])
    case false =>
      rw [if_neg Bool.false_ne_true, hi]
      constructor
      case mp =>
        intro h k hk hn
        cases k
        case zero => exact h.left
        case succ k =>
          rw [← Nat.add_assoc, Nat.add_right_comm]
          refine h.right k (by omega) fun l hl => ?_
          rw [Nat.add_right_comm, Nat.add_assoc]
          exact hn (l + 1) (by omega)
      case mpr =>
        intro h
        refine ⟨h 0 n.succ_pos (by simp), fun k hk hn => ?_⟩
        rw [Nat.add_right_comm, Nat.add_assoc]
        refine h (k + 1) (by omega) fun l hl => ?_
        cases l
        case zero => exact hr
        case succ l =>
          rw [← Nat.add_assoc, Nat.add_right_comm]
          exact hn l (by omega)

end Reads

import HenPlugins.Library.Stride
import HenPlugins.Memory.InstructionSize

open Stride

namespace Memory

variable {disasm : Disasm} {m : Mem} {address : Addr} {minSize : BitVec 64} {n o s x fuel : ℕ}

-- Where the instruction behind the one at the given offset starts.
def nextInstruction (disasm : Disasm) (m : Mem) (address : Addr) (o : ℕ) : ℕ :=
  o + (disasm m (address + .ofNat 64 o)).len

-- The sums of the lengths of consecutive instructions, from the offset on.
abbrev boundaries (disasm : Disasm) (m : Mem) (address : Addr) (o : ℕ) : Set ℕ :=
  walk (nextInstruction disasm m address) o

-- An instruction that starts in front of `s` cannot be decoded.
def FailsBefore (disasm : Disasm) (m : Mem) (address : Addr) (o s : ℕ) : Prop :=
  ∃ x ∈ boundaries disasm m address o, x < s ∧ (disasm m (address + .ofNat 64 x)).error

theorem lt_nextInstruction (o : ℕ) : o < nextInstruction disasm m address o :=
  Nat.lt_add_of_pos_right (disasm m _).bounds.left

theorem nextInstruction_le (o : ℕ) : nextInstruction disasm m address o ≤ o + 15 :=
  Nat.add_le_add_left (disasm m _).bounds.right o

theorem not_failsBefore_of_le (h : s ≤ o) : ¬FailsBefore disasm m address o s := by
  rintro ⟨x, hx, hl, _⟩
  exact absurd (hl.trans_le h) (not_lt.mpr (le_of_mem_walk lt_nextInstruction hx))

theorem failsBefore_iff (h : o < s) : FailsBefore disasm m address o s ↔
    (disasm m (address + .ofNat 64 o)).error ∨ FailsBefore disasm m address (nextInstruction disasm m address o) s := by
  simp only [FailsBefore, mem_walk_iff (x := _) (a := o), or_and_right, exists_or, exists_eq_left, h, true_and]

theorem instructionSizeLoop_of_ge (h : n ≤ o) : instructionSizeLoop disasm m address n fuel o = o := by
  cases fuel
  case zero => rfl
  case succ => exact if_neg (not_lt.mpr h)

-- Without a limit to the numbers, the loop returns the first boundary.
theorem instructionSizeLoop_eq (hf : n ≤ o + fuel) (h : IsFirst (nextInstruction disasm m address) o n s) :
    (FailsBefore disasm m address o s → instructionSizeLoop disasm m address n fuel o = 0) ∧
      (¬FailsBefore disasm m address o s → instructionSizeLoop disasm m address n fuel o = s) := by
  induction fuel generalizing o
  case zero =>
    obtain rfl := (isFirst_iff_of_le lt_nextInstruction hf).mp h
    exact ⟨fun hs => absurd hs (not_failsBefore_of_le le_rfl), fun _ => rfl⟩
  case succ fuel hi =>
    rw [instructionSizeLoop]
    split
    case isFalse hn =>
      obtain rfl := (isFirst_iff_of_le lt_nextInstruction (not_lt.mp hn)).mp h
      exact ⟨fun hs => absurd hs (not_failsBefore_of_le le_rfl), fun _ => rfl⟩
    case isTrue hn =>
      have hs : o < s := hn.trans_le h.left.right
      have hl := @lt_nextInstruction disasm m address o
      rw [failsBefore_iff hs]
      dsimp only
      split
      case isTrue he  => exact ⟨fun _ => rfl, fun hne => absurd (.inl he) hne⟩
      case isFalse he =>
        rw [or_iff_right he]
        exact hi (by omega) ((isFirst_iff_of_lt hn).mp h)

section Machine

variable {result : BitVec 64} {state : SizeState} {P : SizeState → Prop}

theorem halts_loop_of_ge (h : minSize.toNat ≤ o) (ho : o < 2 ^ 64) :
    Run.Halts (sizeStep disasm m address minSize) (.loop (.ofNat 64 o)) (· = .returned (.ofNat 64 o)) := by
  have hs : sizeStep disasm m address minSize (.loop (.ofNat 64 o)) = some (.returned (.ofNat 64 o)) := by
    refine if_neg ?_
    rw [BitVec.lt_def, BitVec.toNat_ofNat, Nat.mod_eq_of_lt ho]
    exact not_lt.mpr h
  exact Run.halts_iff_of_step hs |>.mpr <| Run.halts_iff_of_final rfl |>.mpr rfl

-- The numbers of the machine are large enough if the result is one of them.
theorem halts_loop (hf : minSize.toNat ≤ o + fuel) (ho : o < 2 ^ 64)
    (h : instructionSizeLoop disasm m address minSize.toNat fuel o < 2 ^ 64) :
    Run.Halts (sizeStep disasm m address minSize) (.loop (.ofNat 64 o))
      (· = .returned (.ofNat 64 (instructionSizeLoop disasm m address minSize.toNat fuel o))) := by
  induction fuel generalizing o
  case zero => exact halts_loop_of_ge hf ho
  case succ fuel hi =>
    revert h
    rw [instructionSizeLoop]
    split
    case isFalse hn => exact fun _ => halts_loop_of_ge (not_lt.mp hn) ho
    case isTrue hn =>
      have hb := (disasm m (address + .ofNat 64 o)).bounds
      have hlt : BitVec.ofNat 64 o < minSize := by
        rw [BitVec.lt_def, BitVec.toNat_ofNat, Nat.mod_eq_of_lt ho]
        exact hn
      dsimp only
      split
      case isTrue he =>
        intro _
        have hs : sizeStep disasm m address minSize (.loop (.ofNat 64 o)) = some (.returned 0) := by
          rw [sizeStep, if_pos hlt, if_pos he]
        exact Run.halts_iff_of_step hs |>.mpr <| Run.halts_iff_of_final rfl |>.mpr rfl
      case isFalse he =>
        intro h
        have hs : sizeStep disasm m address minSize (.loop (.ofNat 64 o)) =
            some (.loop (.ofNat 64 (o + (disasm m (address + .ofNat 64 o)).len))) := by
          rw [sizeStep, if_pos hlt, if_neg he, BitVec.ofNat_add]
        refine Run.halts_iff_of_step hs |>.mpr (hi (by omega) ?_ h)
        by_contra hl
        -- The end of this instruction would be the result.
        rw [instructionSizeLoop_of_ge (minSize.isLt.le.trans (not_lt.mp hl))] at h
        exact hl h

-- The size that `CreatePrologueHook` gets: it passes an `int`.
theorem sizeReturned_getInstructionSize (ha : address ≠ 0)
    (h : getInstructionSize disasm m address minSize.toNat < 2 ^ 64) :
    SizeReturned disasm m address minSize (.ofNat 64 (getInstructionSize disasm m address minSize.toNat)) := by
  rw [getInstructionSize, if_neg ha] at h ⊢
  rw [SizeReturned, SizeState.start, if_neg ha]
  exact halts_loop (by omega) (by decide) h

end Machine

-- A size that is a sum of lengths is only returned if it can be represented.
theorem getInstructionSize_isFirst (disasm : Disasm) (m : Mem) (address : Addr) (minSize : BitVec 64)
    (ha : address ≠ 0) (hn : minSize ≠ 0) :
    ∃ s, IsLeast {x ∈ boundaries disasm m address 0 | minSize.toNat ≤ x} s ∧ s < minSize.toNat + 15 ∧
      (s < 2 ^ 64 ∨ FailsBefore disasm m address 0 s →
        ∃ result, SizeReturned disasm m address minSize result ∧ (result = 0 ↔ FailsBefore disasm m address 0 s) ∧
          (¬FailsBefore disasm m address 0 s → result.toNat = s)) := by
  have ⟨s, hs⟩ := exists_isFirst (@lt_nextInstruction disasm m address) 0 minSize.toNat
  have hp : 0 < minSize.toNat := by bv_omega
  have hz : 0 < s := hp.trans_le hs.left.right
  have hn' : minSize.toNat ≤ 0 + minSize.toNat := Nat.le_add_left ..
  have ⟨hfails, hsum⟩ := instructionSizeLoop_eq hn' hs
  have he : getInstructionSize disasm m address minSize.toNat =
      instructionSizeLoop disasm m address minSize.toNat minSize.toNat 0 := if_neg ha
  rw [← he] at hfails hsum
  refine ⟨s, hs, hs.lt_add lt_nextInstruction nextInstruction_le hp, fun hr => ?_⟩
  by_cases hf : FailsBefore disasm m address 0 s
  case pos =>
    have hr := @sizeReturned_getInstructionSize disasm m address minSize ha (by rw [hfails hf]; decide)
    rw [hfails hf] at hr
    exact ⟨0, hr, iff_of_true rfl hf, fun hn => absurd hf hn⟩
  case neg =>
    have hl : s < 2 ^ 64 := hr.resolve_right hf
    have hr := @sizeReturned_getInstructionSize disasm m address minSize ha (by rwa [hsum hf])
    rw [hsum hf] at hr
    have ht : (BitVec.ofNat 64 s).toNat = s := BitVec.toNat_ofNat s 64 ▸ Nat.mod_eq_of_lt hl
    refine ⟨.ofNat 64 s, hr, iff_of_false (fun h => ?_) hf, fun _ => ht⟩
    rw [h] at ht
    exact absurd ht (Nat.ne_of_lt hz)

-- The instructions `66 90`
def longNops : Mem :=
  fun x => if x.toNat % 2 = 0 then 0x66 else 0x90

def longNopsDisasm : Disasm :=
  fun _ _ => ⟨2, false, by decide⟩

theorem getInstructionSize_isFirst_sample :
    ∃ result, SizeReturned longNopsDisasm longNops 0x400000 5 result ∧ result.toNat = 6 := by
  have ⟨s, hs, hl, hr⟩ := getInstructionSize_isFirst longNopsDisasm longNops 0x400000 5 (by decide) (by decide)
  have hf : ¬FailsBefore longNopsDisasm longNops 0x400000 0 s := fun ⟨_, _, _, he⟩ => absurd he Bool.false_ne_true
  have ⟨result, h, _, ht⟩ := hr (.inl (hl.trans (by decide)))
  have h2 := (isFirst_iff_of_lt (a := 0) (by decide)).mp hs
  have h4 := (isFirst_iff_of_lt (by decide)).mp h2
  have h6 := (isFirst_iff_of_lt (by decide)).mp h4
  exact ⟨result, h, (ht hf).trans ((isFirst_iff_of_le lt_nextInstruction (by decide)).mp h6)⟩

-- The sums wrap around in front of a size that cannot be reached.
theorem getInstructionSize_diverges : ¬∃ result, SizeReturned longNopsDisasm longNops 0x400000 (-1) result := by
  rintro ⟨result, h⟩
  refine Run.not_halts (Q := fun s => ∃ x : BitVec 64, s = .loop x ∧ x.toNat % 2 = 0) ?_ ?_ ⟨0, rfl, rfl⟩ h
  case refine_1 =>
    rintro _ b hb ⟨x, rfl, hx⟩
    rw [sizeStep] at hb
    split at hb
    case isTrue =>
      obtain rfl := Option.some.inj hb
      exact ⟨x + 2, rfl, by bv_omega⟩
    case isFalse hn => exact absurd (by bv_omega) hn
  case refine_2 =>
    rintro _ ⟨x, rfl, _⟩
    rw [sizeStep]
    split
    all_goals simp [longNopsDisasm]

end Memory

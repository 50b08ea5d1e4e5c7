import HenPlugins.Hde.Theorems.Table

open List

namespace Hde

variable {i k tableEnd fuel : Nat} {hs : Hde64s} {opcode op pref mod reg : UInt8} {ps : List (UInt8 × UInt8)}

-- The table holds these entries from `i` on.
def Entries (i : Nat) : List (UInt8 × UInt8) → Prop
  | []           => True
  | (o, m) :: ps => ht i = some o ∧ ht (i + 1) = some m ∧ Entries (i + 2) ps

instance decidableEntries : (i : Nat) → (ps : List (UInt8 × UInt8)) → Decidable (Entries i ps)
  | _, []           => .isTrue trivial
  | i, (_, _) :: ps =>
    haveI := decidableEntries (i + 2) ps
    inferInstanceAs (Decidable (_ ∧ _ ∧ _))

-- The bit that stands for the register is not set in the mask.
def permits (reg mask : UInt8) : Bool :=
  mask <<< reg &&& 0x80 = 0

-- The loop looks the opcode up.
theorem lockLoop_eq (h : Entries i ps) (he : i + 2 * ps.length = tableEnd) (hf : ps.length < fuel) :
    lockLoop op reg tableEnd fuel i = some !(ps.lookup op).any (permits reg) := by
  induction ps generalizing i fuel
  case nil =>
    cases fuel
    case zero => exact absurd hf (Nat.not_lt_zero _)
    case succ => exact if_pos he
  case cons p ps hi =>
    have ⟨h₁, h₂, hps⟩ := h
    cases fuel
    case zero => exact absurd hf (Nat.not_lt_zero _)
    case succ fuel =>
      rw [length_cons] at he
      have hn : ¬i = tableEnd := by omega
      rw [lockLoop, if_neg hn, h₁, h₂]
      obtain ⟨o, m⟩ := p
      simp only [Option.bind_eq_bind, Option.bind_some]
      split
      case isTrue ho =>
        rw [ho, lookup_cons_self, Option.any_some, permits]
        simp
      case isFalse ho =>
        have hb : (op == o) = false := beq_eq_false_iff_ne.mpr (Ne.symm ho)
        rw [hi hps (by omega) (Nat.lt_of_succ_lt_succ hf), List.lookup, hb]

abbrev opLockOk : List (UInt8 × UInt8) :=
  [(0x00, 0x00), (0x08, 0x00), (0x10, 0x00), (0x18, 0x00), (0x20, 0x00), (0x28, 0x00), (0x30, 0x00), (0x80, 0x01),
    (0x82, 0x01), (0x86, 0x00), (0xf6, 0xcf), (0xfe, 0x3f)]

abbrev op2LockOk : List (UInt8 × UInt8) :=
  [(0xab, 0x00), (0xb0, 0x00), (0xb1, 0x00), (0xb3, 0x00), (0xba, 0xf8), (0xbb, 0x00), (0xc0, 0x00), (0xc1, 0x00),
    (0xc7, 0xbf)]

theorem entries_opLockOk : Entries deltaOpLockOk opLockOk := by
  decide +kernel

theorem entries_op2LockOk : Entries deltaOp2LockOk op2LockOk := by
  decide +kernel

-- The instructions that can be locked: `ADD`, `OR`, `ADC`, `SBB`, `AND`, `SUB`, `XOR` where they store to the operand of
-- the ModRM, `XCHG`, `NOT`, `NEG`, `INC`, `DEC`
def lockable (opcode reg : UInt8) : Bool :=
  let op := opcode &&& 0xfe
  (op < 0x38 && op &&& 0x07 = 0) || ((op = 0x80 || op = 0x82) && reg ≠ 7) || op = 0x86 ||
    (op = 0xf6 && (reg = 2 || reg = 3)) || (op = 0xfe && reg ≤ 1)

-- `BTS`, `CMPXCHG`, `BTR`, `BTC`, `XADD`, `CMPXCHG8B`
def lockable2 (opcode reg : UInt8) : Bool :=
  opcode = 0xab || opcode = 0xb0 || opcode = 0xb1 || opcode = 0xb3 || (opcode = 0xba && reg ≥ 5) || opcode = 0xbb ||
    opcode = 0xc0 || opcode = 0xc1 || (opcode = 0xc7 && reg = 1)

theorem forall_reg {P : UInt8 → UInt8 → Prop} (h : ∀ r : Fin 8, ∀ n : Fin 256, P (.ofNat r) (.ofNat n))
    (hr : reg < 8) : P reg opcode := by
  have hr := UInt8.lt_iff_toNat_lt.mp hr
  have hc := h ⟨reg.toNat, hr⟩ ⟨opcode.toNat, opcode.toNat_lt⟩
  rwa [UInt8.ofNat_toNat, UInt8.ofNat_toNat] at hc

theorem lookup_opLockOk (hr : reg < 8) :
    (opLockOk.lookup (opcode &&& 0xfe)).any (permits reg) = lockable opcode reg :=
  forall_reg (P := fun reg opcode => (opLockOk.lookup (opcode &&& 0xfe)).any (permits reg) = lockable opcode reg)
    (by decide +kernel) hr

theorem lookup_op2LockOk (hr : reg < 8) : (op2LockOk.lookup opcode).any (permits reg) = lockable2 opcode reg :=
  forall_reg (P := fun reg opcode => (op2LockOk.lookup opcode).any (permits reg) = lockable2 opcode reg)
    (by decide +kernel) hr

theorem lockError_eq (hr : reg < 8) : lockError hs opcode pref mod reg = some (pref &&& preLock ≠ 0 &&
    (mod = 3 || !if hs.opcode2 ≠ 0 then lockable2 opcode reg else lockable opcode reg)) := by
  have h₁ : lockLoop (opcode &&& 0xfe) reg deltaOp2LockOk hde64Table.length deltaOpLockOk =
      some !lockable opcode reg := by
    rw [← lookup_opLockOk hr]
    exact lockLoop_eq entries_opLockOk rfl (by rw [length_hde64Table]; decide)
  have h₂ : lockLoop opcode reg deltaOpOnlyMem hde64Table.length deltaOp2LockOk = some !lockable2 opcode reg := by
    rw [← lookup_op2LockOk hr]
    exact lockLoop_eq entries_op2LockOk rfl (by rw [length_hde64Table]; decide)
  rw [lockError]
  split
  case isFalse hp => simp [hp]
  case isTrue hp =>
    split
    case isTrue hm => simp [hp, hm]
    case isFalse hm =>
      split
      case isTrue h2  => simp [hp, hm, h₂]
      case isFalse h2 => simp [hp, hm, h₁]

end Hde

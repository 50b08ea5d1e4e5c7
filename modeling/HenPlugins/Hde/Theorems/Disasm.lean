import HenPlugins.Hde.Theorems.Layout
import HenPlugins.Hde.Theorems.Local

open List Decoder

namespace Hde

variable {code code' : Nat → UInt8} {hs : Hde64s} {n p : Nat} {s : Place}

theorem length_encode : 1 ≤ (encode hs).length ∧ (encode hs).length ≤ 24 := by
  have hr : (encodeRex hs).length ≤ 1 := by
    rw [encodeRex]
    split <;> simp
  have ho : 1 ≤ (encodeOpcode hs).length ∧ (encodeOpcode hs).length ≤ 2 := by
    rw [encodeOpcode]
    split <;> simp
  have hm : (encodeModrm hs).length ≤ 1 := by
    rw [encodeModrm]
    split <;> simp
  have hsib : (encodeSib hs).length ≤ 1 := by
    rw [encodeSib]
    split <;> simp
  have hd : (hs.disp.take (dispBytes hs.flags)).length ≤ 4 := by
    refine (length_take_le ..).trans ?_
    rw [dispBytes]
    repeat' split
    all_goals decide
  have hi : (encodeImm hs).length ≤ 15 := by
    refine (length_take_le ..).trans ?_
    rw [immBytes]
    repeat' split
    all_goals decide
  simp only [encode, encodeHead, encodeAddress, length_append]
  omega

-- The check of the length changes nothing but the length and the flags for it.
theorem encode_flags {e : UInt32} {len : UInt8} (he : e &&& 0x400003ff = 0) :
    encode { hs with flags := hs.flags ||| e, len } = encode hs := by
  have h {f : UInt32} (hf : f &&& 0x400003ff = f) : Has (hs.flags ||| e) f ↔ Has hs.flags f :=
    has_or_iff (and_eq_zero he hf)
  simp only [encode, encodeHead, encodeRex, encodeOpcode, encodeAddress, encodeModrm, encodeSib, encodeImm, dispBytes,
    immBytes, Hde64s.has, h (f := fPrefixRex) rfl, h (f := fModrm) rfl, h (f := fSib) rfl, h (f := fDisp8) rfl,
    h (f := fDisp16) rfl, h (f := fDisp32) rfl, h (f := fImm8) rfl, h (f := fImm16) rfl, h (f := fImm32) rfl,
    h (f := fImm64) rfl]

theorem finish_eq (hp : p < 256) : finish hs p = { hs with
    flags := hs.flags ||| if 15 < p then fError ||| fErrorLength else 0, len := (min p 15).toUInt8 } := by
  have h : p.toUInt8 > 15 ↔ 15 < p := by
    rw [gt_iff_lt, UInt8.lt_iff_toNat_lt, Nat.toUInt8, UInt8.toNat_ofNat', Nat.mod_eq_of_lt hp]
    rfl
  rw [finish]
  by_cases hl : 15 < p
  case pos =>
    rw [min_eq_right hl.le, if_pos hl]
    exact if_pos (h.mpr hl)
  case neg =>
    rw [min_eq_left (not_lt.mp hl), if_neg hl, UInt32.or_zero]
    exact if_neg (mt h.mp hl)

-- The other flags
theorem has_finish {f : UInt32} (hp : p < 256) (hf : (fError ||| fErrorLength) &&& f = 0) :
    (finish hs p).has f ↔ hs.has f := by
  rw [finish_eq hp]
  exact has_or_iff (ite_and_eq_zero hf)

-- An instruction comes to its end, and it is found out how long it is: as long as what its fields stand for, behind
-- the prefixes.
structure Disassembled (code : Nat → UInt8) (n : Nat) (hs : Hde64s) : Prop where
  run    : PrefixRun code n
  result : hde64Disasm code = some hs
  len    : hs.len.toNat = min (n + (encode hs).length) 15
  bytes  : ¬TwoRex code n → hs.opcode ≠ 0xc8 → slice code n (encode hs).length = encode hs
  any    : hs.has fError ↔ hs.has fErrorLength ∨ hs.has subErrors
  length : hs.has fErrorLength ↔ 15 < n + (encode hs).length
  lock   : hs.has fErrorLock ↔ Locked code n ∧ ¬(Lockable hs ∨ ZeroSecond hs)
  congr  : ∀ code', (∀ i < n + (encode hs).length, code' i = code i) → hde64Disasm code' = some hs

theorem exists_disassembled (code : Nat → UInt8) : ∃ n hs, Disassembled code n hs := by
  obtain ⟨hs, s, hd, n, hrun, h⟩ := @decode_wp code
  have hl := @length_encode hs
  have hpos := h.pos
  have hp : s.pos < 256 := by
    have := hrun.le
    omega
  have hf := @finish_eq hs s.pos hp
  have he : encode (finish hs s.pos) = encode hs := by
    rw [hf]
    exact encode_flags (ite_and_eq_zero rfl)
  refine ⟨n, finish hs s.pos, ?_⟩
  constructor
  case run    => exact hrun
  case result =>
    rw [hde64Disasm, hd]
    rfl
  case len    =>
    rw [he, ← hpos, hf]
    rw [Nat.toUInt8, UInt8.toNat_ofNat', Nat.mod_eq_of_lt (by omega)]
  case bytes  =>
    rw [he]
    intro ht h8
    refine h.bytes ht ?_
    rwa [hf] at h8
  case any    =>
    rw [hf, Hde64s.has, Hde64s.has, Hde64s.has, has_or, has_or, has_or, has_ite, has_ite, has_ite, h.errors.any]
    split
    case isTrue  => exact iff_of_true (.inr (by decide)) (.inl <| .inr (by decide))
    case isFalse => simp [h.errors.length]
  case length =>
    rw [he, ← hpos, hf, Hde64s.has, has_or, or_iff_right h.errors.length, has_ite]
    split
    case isTrue hl  => exact iff_of_true (by decide) hl
    case isFalse hl => exact iff_of_false not_has_zero hl
  case lock   =>
    rw [has_finish hp rfl, h.lock, Lockable, Lockable, ZeroSecond, ZeroSecond, InMemory, InMemory, has_finish hp rfl, hf]
  case congr  =>
    rw [he, ← hpos]
    intro code' hc
    obtain ⟨_, hcongr⟩ := local_decode _ _ _ _ hd
    rw [hde64Disasm, hcongr code' fun i _ hi => hc i hi]
    rfl

-- Every byte sequence is decoded without leaving the table, and what is stored stands for the bytes of the instruction.
-- Of two REX prefixes the second one is not stored, and the immediates of `ENTER` are stored on top of each other.
theorem hde64Disasm_encode (code : Nat → UInt8) : ∃ n hs, PrefixRun code n ∧ hde64Disasm code = some hs ∧
    hs.len.toNat = min (n + (encode hs).length) 15 ∧ 1 ≤ hs.len.toNat ∧
    (¬TwoRex code n → hs.opcode ≠ 0xc8 → slice code n (encode hs).length = encode hs) := by
  have ⟨n, hs, h⟩ := exists_disassembled code
  have hl := h.len
  have he := (@length_encode hs).left
  exact ⟨n, hs, h.run, h.result, hl, by omega, h.bytes⟩

-- Nothing behind the instruction has an influence on the result. One byte of it is read if the instruction ends with a
-- ModRM.
theorem decode_reach (code : Nat → UInt8) : ∃ n hs s, PrefixRun code n ∧ decode code ⟨0, 0⟩ = some (hs, s) ∧
    s.pos = n + (encode hs).length ∧
    s.reach = s.pos + (if (encodeAddress hs).length = 1 ∧ (encodeImm hs).length = 0 then 1 else 0) ∧
    ∀ code', (∀ i < s.pos, code' i = code i) → hde64Disasm code' = hde64Disasm code := by
  have ⟨hs, s, hd, n, hrun, h⟩ := @decode_wp code
  refine ⟨n, hs, s, hrun, hd, h.pos, ?_, fun code' hc => ?_⟩
  · rw [h.reach]
    split <;> rfl
  · have ⟨_, hcongr⟩ := local_decode _ _ _ _ hd
    rw [hde64Disasm, hcongr code' fun i _ hi => hc i hi, hde64Disasm, hd]

-- The flag for any error is set together with the one for its kind, the one for the length if more than 15 bytes have
-- been consumed, and the one for `LOCK` if it stands in front of an instruction that cannot be locked. The instructions
-- whose opcode is an escape and a 0 are let through as well.
theorem hde64Disasm_errors (code : Nat → UInt8) : ∃ n hs, PrefixRun code n ∧ hde64Disasm code = some hs ∧
    (hs.has fError ↔ hs.has fErrorLength ∨ hs.has fErrorOpcode ∨ hs.has fErrorLock ∨ hs.has fErrorOperand) ∧
    (hs.has fErrorLength ↔ 15 < n + (encode hs).length) ∧
    (hs.has fErrorLock ↔ (∃ i ≤ n, code i = 0xf0) ∧ ¬Lockable hs ∧ ¬ZeroSecond hs) := by
  have ⟨n, hs, h⟩ := exists_disassembled code
  refine ⟨n, hs, h.run, h.result, ?_, h.length, h.lock.trans <| and_congr_right fun _ => not_or⟩
  rw [h.any]
  refine or_congr_right ?_
  rw [Hde64s.has, Has, UInt32.and_comm, or_and_distrib_right, or_and_distrib_right, ne_eq, UInt32.or_eq_zero_iff,
    UInt32.or_eq_zero_iff, not_and_or, not_and_or, or_assoc]
  simp only [UInt32.and_comm _ hs.flags, Hde64s.has, Has, ne_eq]

end Hde

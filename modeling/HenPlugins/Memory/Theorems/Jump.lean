import HenPlugins.Memory.Basic

open List

namespace Memory

variable {m : Mem} {src dst : Addr} {len : Nat} {call : Bool} {r : BitVec 32}

theorem setWidth_signExtend : (r.signExtend 64).setWidth 32 = r := by
  apply BitVec.eq_of_getLsbD_eq
  intro i hi
  simp only [BitVec.getLsbD_setWidth, BitVec.getLsbD_signExtend, hi, decide_true, Bool.true_and, if_true]
  rw [decide_eq_true (by omega), Bool.true_and]

-- The opcode of a jump and its displacement.
theorem jump32_fields (h : m.Contains src (jump32 src dst len call)) :
    m src = (if call then 0xe8 else 0xe9) ∧ readInt32 m (src + 1) = (dst - src - 5).setWidth 32 := by
  rw [jump32, Mem.Contains.append] at h
  replace h := h.left
  rw [← singleton_append, Mem.Contains.append] at h
  obtain ⟨ho, hr⟩ := h
  have hr : m.read (src + 1) 4 = LittleEndian.encode 4 ((dst - src - 5).setWidth 32).toNat := by
    simpa [Mem.Contains] using hr
  constructor
  case left  => simpa using ho.apply (i := 0) (by simp)
  case right =>
    rw [readInt32, hr, LittleEndian.decode_encode]
    bv_omega

theorem jump32_filling {i : Nat} (h : m.Contains src (jump32 src dst len call)) (h5 : 5 ≤ i) (hi : i < len) :
    m (src + .ofNat 64 i) = 0x90 := by
  have hl : (LittleEndian.encode 4 ((dst - src - 5).setWidth 32).toNat).length = 4 := LittleEndian.length_encode
  have hj : i < (jump32 src dst len call).length := by rwa [length_jump32 (by omega)]
  have hj' : ((if call then (0xe8 : UInt8) else 0xe9) ::
      LittleEndian.encode 4 ((dst - src - 5).setWidth 32).toNat).length ≤ i := by simpa [hl] using h5
  rw [h.apply hj]
  simp only [jump32]
  rw [getElem_append_right hj', getElem_replicate]

theorem readLEA32_jump32 (h : m.Contains src (jump32 src dst len call)) (hs : src ≠ 0)
    (hr : dst - (src + 5) = r.signExtend 64) : readLEA32 m src 0 1 5 = dst := by
  have hd : (dst - src - 5).setWidth 32 = r := by rw [BitVec.sub_sub, hr, setWidth_signExtend]
  have ha : src + (dst - (src + 5)) + 5 = dst := by bv_omega
  rw [readLEA32, if_neg hs, if_pos rfl, BitVec.add_comm 1 src, (jump32_fields h).right, hd, ← hr]
  exact ha

-- A jump is read back, and nothing but its bytes is changed.
theorem writeJump32_decodes (hs : src ≠ 0) (hd : dst ≠ 0) (hr : dst - (src + 5) = r.signExtend 64) (hl : 5 ≤ len)
    (hm : len ≤ 8192) :
    readLEA32 (writeJump32 m src dst len call) src 0 1 5 = dst ∧
      writeJump32 m src dst len call src = (if call then 0xe8 else 0xe9) ∧
      (∀ i, 5 ≤ i → i < len → writeJump32 m src dst len call (src + .ofNat 64 i) = 0x90) ∧
      ∀ x ∉ Mem.region src len, writeJump32 m src dst len call x = m x := by
  have hj : (jump32 src dst len call).length = len := length_jump32 hl
  rw [writeJump32_eq hs hd hl hm]
  have hc : (m.write src (jump32 src dst len call)).Contains src (jump32 src dst len call) :=
    Mem.Contains.write_self (by omega)
  refine ⟨readLEA32_jump32 hc hs hr, (jump32_fields hc).left, fun i h5 hi => jump32_filling hc h5 hi, fun x hx => ?_⟩
  exact Mem.write_eqOn (by rwa [Set.mem_compl_iff, hj])

-- A call of the code five bytes before it, with three bytes of filling.
theorem writeJump32_decodes_sample :
    readLEA32 (writeJump32 (fun _ => 0xcc) 0x400005 0x400000 8 true) 0x400005 0 1 5 = 0x400000 ∧
      writeJump32 (fun _ => 0xcc) 0x400005 0x400000 8 true 0x400005 = 0xe8 ∧
      (∀ i, 5 ≤ i → i < 8 → writeJump32 (fun _ => 0xcc) 0x400005 0x400000 8 true (0x400005 + .ofNat 64 i) = 0x90) ∧
      ∀ x ∉ Mem.region 0x400005 8, writeJump32 (fun _ => 0xcc) 0x400005 0x400000 8 true x = 0xcc :=
  @writeJump32_decodes _ 0x400005 0x400000 8 true (-10) (by decide) (by decide) (by decide) (by decide) (by decide)

end Memory

import HenPlugins.Memory.Trampoline
import HenPlugins.Memory.Theorems.Jump

open List Set

namespace Memory

variable {m m' : Mem} {x a src dst base : Addr} {len i n : Nat} {call : Bool}

-- The displacements that occur within a text.
def Near (d : Addr) : Prop :=
  d.toNat < 2 ^ 27 + 16 ∨ 2 ^ 64 - (2 ^ 27 + 5) ≤ d.toNat

theorem signExtend_setWidth {d : Addr} (h : Near d) : (d.setWidth 32).signExtend 64 = d := by
  rw [Near] at h
  apply BitVec.eq_of_toInt_eq
  rw [BitVec.toInt_signExtend_of_le (by decide), BitVec.toInt_eq_toNat_cond, BitVec.toInt_eq_toNat_cond,
    BitVec.toNat_setWidth]
  have := d.isLt
  split <;> split <;> omega

-- A jump is decoded to its target.
theorem decodeJump32_eq (h : m.Contains src (jump32 src dst len call))
    (hd : Near (dst - src - 5)) : decodeJump32 m src = some (call, dst) := by
  have ⟨ho, hi⟩ := jump32_fields h
  have ht : src + 5 + (dst - src - 5) = dst := by bv_omega
  rw [decodeJump32, ho, hi, signExtend_setWidth hd, ht]
  cases call <;> simp

theorem decodeJump64_eq (h : m.Contains a (jump64 dst)) : decodeJump64 m a = dst := by
  rw [jump64, Mem.Contains.append] at h
  obtain ⟨hs, hd⟩ := h
  have hr : m.read (a + 6) 8 = LittleEndian.encode 8 dst.toNat := by
    simpa [Mem.Contains, jmpStub] using hd
  have ht : BitVec.ofNat 64 (dst.toNat % 256 ^ 8) = dst := by bv_omega
  rw [decodeJump64, if_pos hs, hr, LittleEndian.decode_encode, ht]

-- The bytes of the areas that `Make32to64Jmp` searches.
structure Filling (p : Bytes) : Prop where
  length : p.length = 16
  ops    : 0xff ∉ p ∧ 0xe8 ∉ p ∧ 0xe9 ∉ p
  head   : ∀ h : 0 < p.length, p[0] ≠ 0x00 ∧ p[0] ≠ 0x25 ∧ p[0] ≠ 0x90
  high   : ∀ i (h : i < p.length), i < 4 → 8 < p[i].toNat ∧ p[i].toNat < 0xf7
  body   : ∀ i (h : i < p.length), i < 11 → p[i] ≠ 0x00

theorem filling_ud2 : Filling (patternToByte ud2Filler) where
  length := by decide
  ops    := by decide
  head   := by decide
  high   := by decide
  body   := by decide

theorem filling_nop : Filling (patternToByte nopFiller) where
  length := by decide
  ops    := by decide
  head   := by decide
  high   := by decide
  body   := by decide

variable {p : Bytes}

theorem found_iff_contains (h : 0xff ∉ p) : found m x p ↔ m.Contains x p := by
  rw [found_iff, Mem.contains_iff]
  apply forall₂_congr
  intro j hj
  exact or_iff_left fun he => h (he ▸ getElem_mem hj)

namespace Filling

theorem clash_jump64 (h : Filling p) : Mem.Clash p (jump64 dst) := by
  intro k hk
  refine ⟨0, hk, by simp, fun he => h.ops.left ?_⟩
  have he : p[k] = 0xff := he
  exact he ▸ getElem_mem hk

-- The two highest bytes of the target are zero.
theorem jump64_clash (h : Filling p) (hd : dst.toNat < 2 ^ 47) : Mem.Clash (jump64 dst) p := by
  have hb : 13 < (jump64 dst).length := by simp
  have h13 : (jump64 dst)[13] = 0 := by
    have hz : dst.toNat / 256 ^ 7 = 0 := Nat.div_eq_of_lt (by omega)
    simp only [jump64]
    rw [getElem_append_right (by decide), LittleEndian.getElem_encode]
    exact congrArg Nat.toUInt8 hz
  have hl := h.length
  intro k hk
  rw [length_jump64] at hk
  by_cases h2 : k ≤ 2
  case pos =>
    obtain ⟨h0, h25, _⟩ := h.head (by omega)
    have hff : p[0] ≠ 0xff := fun he => h.ops.left (he ▸ getElem_mem _)
    refine ⟨0, by simpa using hk, by omega, ?_⟩
    obtain rfl | rfl | rfl : k = 0 ∨ k = 1 ∨ k = 2 := by omega
    · exact hff.symm
    · exact h25.symm
    · exact h0.symm
  case neg =>
    refine ⟨13 - k, by simp; omega, by omega, ?_⟩
    have hk' : k + (13 - k) = 13 := by omega
    simp only [hk', h13]
    exact (h.body (13 - k) (by omega) (by omega)).symm

theorem clash_jump32 (h : Filling p) : Mem.Clash p (jump32 src dst len call) := by
  intro k hk
  refine ⟨0, hk, by simp [jump32], fun he => ?_⟩
  have he : p[k] = if call then 0xe8 else 0xe9 := he
  have hm := he ▸ getElem_mem hk
  cases call
  case true  => exact h.ops.right.left hm
  case false => exact h.ops.right.right hm

theorem jump32_clash (h : Filling p) (hl : len = 5 ∨ len = 6) (hd : Near (dst - src - 5)) :
    Mem.Clash (jump32 src dst len call) p := by
  have hl' : (jump32 src dst len call).length = len := length_jump32 (by omega)
  have hb : 4 < (jump32 src dst len call).length := by omega
  have h4 : (jump32 src dst len call)[4].toNat ≤ 8 ∨ 0xf7 ≤ (jump32 src dst len call)[4].toNat := by
    have he : (jump32 src dst len call)[4] =
        (((dst - src - 5).setWidth 32).toNat / 256 ^ 3).toUInt8 := by
      simp only [jump32]
      rw [getElem_append_left (by simp), getElem_cons_succ, LittleEndian.getElem_encode]
    rw [he, BitVec.toNat_setWidth, Nat.toUInt8_eq, UInt8.toNat_ofNat']
    rw [Near] at hd
    omega
  have hp := h.length
  obtain ⟨_, _, h90⟩ := h.head (by omega)
  intro k hk
  obtain rfl | ⟨hk0, hk4⟩ | rfl : k = 0 ∨ (0 < k ∧ k ≤ 4) ∨ k = 5 := by omega
  case inl =>
    refine ⟨0, hk, by omega, fun he => ?_⟩
    have he : (if call then (0xe8 : UInt8) else 0xe9) = p[0] := he
    have hm : p[0] ∈ p := getElem_mem _
    rw [← he] at hm
    cases call
    case true  => exact h.ops.right.left hm
    case false => exact h.ops.right.right hm
  case inr.inl =>
    -- The highest byte of a displacement within the text.
    have hi : k + (4 - k) = 4 := by omega
    have hb := h.high (4 - k) (by omega) (by omega)
    refine ⟨4 - k, by omega, by omega, fun he => ?_⟩
    simp only [hi] at he
    rw [he] at h4
    omega
  case inr.inr =>
    -- The filling behind a jump of six bytes.
    have h5 : (jump32 src dst len call)[5] = 0x90 := by
      simp only [jump32]
      rw [getElem_append_right (by simp), getElem_replicate]
    exact ⟨0, hk, by omega, fun he => h90 (he.symm.trans h5)⟩

end Filling

-- A position at which one of the two patterns of `Make32to64Jmp` matches.
def Filler (m : Mem) (x : Addr) : Prop :=
  found m x (patternToByte ud2Filler) ∨ found m x (patternToByte nopFiller)

instance : Decidable (Filler m x) :=
  inferInstanceAs (Decidable (_ ∨ _))

theorem filler_iff : Filler m x ↔ ∃ p, Filling p ∧ (p = patternToByte ud2Filler ∨ p = patternToByte nopFiller) ∧
    m.Contains x p := by
  rw [Filler, found_iff_contains filling_ud2.ops.left, found_iff_contains filling_nop.ops.left]
  constructor
  case mp =>
    rintro (h | h)
    · exact ⟨_, filling_ud2, .inl rfl, h⟩
    · exact ⟨_, filling_nop, .inr rfl, h⟩
  case mpr =>
    rintro ⟨_, _, rfl | rfl, h⟩
    · exact .inl h
    · exact .inr h

theorem Filler.congr (h : Filler m x) (he : EqOn m' m (Mem.region x 16)) : Filler m' x := by
  have ⟨p, hp, hf, hc⟩ := filler_iff.mp h
  exact filler_iff.mpr ⟨p, hp, hf, hc.congr (hp.length ▸ he)⟩

theorem Filler.disjoint_jump64 (h : Filler m x) (hj : m.Contains a (jump64 dst)) (hd : dst.toNat < 2 ^ 47) :
    Disjoint (Mem.region x 16) (Mem.region a 14) := by
  have ⟨p, hp, _, hc⟩ := filler_iff.mp h
  have hp' : Mem.Clash p (jump64 dst) := hp.clash_jump64
  have := hp'.disjoint (hp.jump64_clash hd) hc hj
  rwa [hp.length, length_jump64] at this

theorem Filler.disjoint_jump32 (h : Filler m x) (hj : m.Contains src (jump32 src dst len call))
    (hl : len = 5 ∨ len = 6) (hd : Near (dst - src - 5)) : Disjoint (Mem.region x 16) (Mem.region src len) := by
  have ⟨p, hp, _, hc⟩ := filler_iff.mp h
  have := hp.clash_jump32.disjoint (hp.jump32_clash hl hd) hc hj
  rwa [hp.length, length_jump32 (by omega)] at this

-- The area is part of a filler in the text.
theorem exists_filler {sz : Nat} (h : jmparea m base sz ≠ 0) :
    ∃ x ∈ Mem.region base sz, Filler m x ∧ Mem.region (jmparea m base sz) 14 ⊆ Mem.region x 16 := by
  revert h
  rw [jmparea]
  split
  case isTrue =>
    intro h
    have ⟨x, hx, hf, he⟩ := exists_found h
    exact ⟨x, hx, .inr hf, he ▸ Mem.region_subset (i := 1) (by decide)⟩
  case isFalse =>
    intro h
    have ⟨x, hx, hf, he⟩ := exists_found h
    exact ⟨x, hx, .inl hf, he ▸ Mem.region_subset (i := 2) (by decide)⟩

end Memory

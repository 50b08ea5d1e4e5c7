import HenPlugins.Hde.Basic

open List

-- The table is only read inside of its bounds.
namespace Hde

variable {delta i k tableEnd fuel : Nat} {hs : Hde64s} {l : Locals} {opcode op pref cflags x mod reg rm : UInt8}

theorem forall_uint8 {P : UInt8 → Prop} (h : ∀ n : Fin 256, P (.ofNat n)) (c : UInt8) : P c := by
  have hc := h ⟨c.toNat, c.toNat_lt⟩
  rwa [UInt8.ofNat_toNat] at hc

theorem length_hde64Table : hde64Table.length = 529 := by
  decide +kernel

theorem ht_of_lt (h : i < hde64Table.length) : ∃ c, ht i = some c :=
  ⟨_, getElem?_eq_getElem h⟩

theorem lookup_isSome (h : delta = 0 ∨ delta = deltaOpcodes ∨ delta = deltaPrefixes) (opcode : UInt8) :
    ∃ c, lookup delta opcode = some c := by
  rw [← Option.isSome_iff_exists]
  revert opcode
  obtain rfl | rfl | rfl := h
  all_goals exact forall_uint8 (by decide +kernel)

section Forms

-- What follows an opcode, once its group has been looked up
abbrev forms : List UInt8 :=
  [0, cModrm, cImm8, cModrm ||| cImm8, cImm16, cImm16 ||| cImm8, cImmP66, cModrm ||| cImmP66, cRel8, cImmP66 ||| cRel32]

-- The flags that the tables give for an opcode, or those of an error
def Listed (delta : Nat) (opcode cflags : UInt8) : Prop :=
  (delta = 0 ∨ delta = deltaOpcodes) ∧
    (cflags = 0 ∨ cflags = cModrm ∨ lookup delta opcode = some cflags ∧ cflags ≠ cError)

structure Formed (delta : Nat) (opcode cflags : UInt8) : Prop where
  mem   : cflags ∈ forms
  reg   : opcode = 0xf6 ∨ opcode = 0xf7 → cflags = 0 ∨ cflags = cModrm
  enter : cflags = cImm16 ||| cImm8 → delta = 0 ∧ opcode = 0xc8

instance : Decidable (Formed delta opcode cflags) :=
  decidable_of_iff _ (Iff.intro (fun ⟨h, h', h''⟩ => ⟨h, h', h''⟩) fun h => And.intro h.mem (And.intro h.reg h.enter))

theorem formed_all (h : delta = 0 ∨ delta = deltaOpcodes) (opcode : UInt8) :
    (lookup delta opcode).all fun cflags =>
      cflags = cError || (groupFlags delta cflags).any fun g => Formed delta opcode g.1 := by
  revert opcode
  obtain rfl | rfl := h
  all_goals exact forall_uint8 (by decide +kernel)

theorem group_eq (h : Listed l.ht l.opcode l.cflags) :
    ∃ cflags x, group l = some { l with cflags, x } ∧ Formed l.ht l.opcode cflags ∧ (l.cflags = 0 → cflags = 0) := by
  have ⟨hd, hc⟩ := h
  suffices hg : ∃ g, groupFlags l.ht l.cflags = some g ∧ Formed l.ht l.opcode g.1 by
    have ⟨g, hg, hf⟩ := hg
    refine ⟨g.1, g.2, by rw [group, hg]; rfl, hf, fun h0 => ?_⟩
    rw [h0] at hg
    cases hg
    rfl
  obtain hc | hc | ⟨hc, hn⟩ := hc
  case inl     => exact ⟨(0, 0), by rw [hc]; rfl, by decide, fun _ => .inl rfl, fun h => absurd h (by decide)⟩
  case inr.inl => exact ⟨(cModrm, 0), by rw [hc]; rfl, by decide, fun _ => .inr rfl, fun h => absurd h (by decide)⟩
  case inr.inr =>
    have hk := formed_all hd l.opcode
    rw [hc, Option.all_some, decide_eq_false hn, Bool.false_or, Option.any_eq_true] at hk
    have ⟨g, hg, hk⟩ := hk
    exact ⟨g, hg, of_decide_eq_true hk⟩

theorem Formed.immOfReg (h : Formed delta opcode cflags) (hm : cflags &&& cModrm ≠ 0) :
    immOfReg opcode cflags reg ∈ forms ∧ immOfReg opcode cflags reg ≠ cImm16 ||| cImm8 := by
  have hn : cflags ≠ cImm16 ||| cImm8 := fun h6 => hm (h6 ▸ rfl)
  have hc (ho : opcode = 0xf6 ∨ opcode = 0xf7) : cflags = cModrm := by
    refine (h.reg ho).resolve_left fun h0 => hm ?_
    rw [h0]
    rfl
  rw [Hde.immOfReg]
  split
  case isFalse => exact ⟨h.mem, hn⟩
  case isTrue =>
    split
    case isTrue h6 => exact hc (.inl h6) ▸ by decide
    case isFalse =>
      split
      case isTrue h7 => exact hc (.inr h7) ▸ by decide
      case isFalse   => exact ⟨h.mem, hn⟩

end Forms

section Errors

theorem prefixError_isSome : ∃ b, prefixError hs opcode pref = some b := by
  rw [prefixError]
  split
  case isFalse => exact ⟨_, rfl⟩
  case isTrue =>
    have ⟨c, hc⟩ := lookup_isSome (.inr <| .inr rfl) opcode
    exact ⟨_, by rw [hc]; rfl⟩

theorem fpuError_isSome (hr : reg < 8) : ∃ b, fpuError hs opcode mod reg rm = some b := by
  rw [fpuError]
  split
  case isFalse => exact ⟨_, rfl⟩
  case isTrue h =>
    have ht' : (opcode - 0xd9).toNat < 7 := by
      have h₁ := UInt8.le_iff_toNat_le.mp h.right.left
      have h₂ := UInt8.le_iff_toNat_le.mp h.right.right
      rw [UInt8.toNat_sub_of_le _ _ h.right.left]
      simp only [UInt8.reduceToNat] at *
      omega
    have hr := UInt8.lt_iff_toNat_lt.mp hr
    simp only [UInt8.reduceToNat] at hr
    split
    case isTrue =>
      have ⟨c, hc⟩ := @ht_of_lt (deltaFpuModrm + (opcode - 0xd9).toNat * 8 + reg.toNat) (by
        rw [length_hde64Table, deltaFpuModrm]
        omega)
      exact ⟨_, by simp only [hc]; rfl⟩
    case isFalse =>
      have ⟨c, hc⟩ := @ht_of_lt (deltaFpuReg + (opcode - 0xd9).toNat) (by
        rw [length_hde64Table, deltaFpuReg]
        omega)
      exact ⟨_, by simp only [hc]; rfl⟩

-- The end is met, as the entries have two bytes.
theorem lockLoop_isSome (hk : i + 2 * k = tableEnd) (he : tableEnd ≤ hde64Table.length) (hf : k < fuel) :
    ∃ b, lockLoop op reg tableEnd fuel i = some b := by
  induction fuel generalizing i k
  case zero => exact absurd hf (Nat.not_lt_zero _)
  case succ fuel hi =>
    rw [lockLoop]
    split
    case isTrue  => exact ⟨_, rfl⟩
    case isFalse hn =>
      have ⟨c, hc⟩ := @ht_of_lt i (by omega)
      have ⟨d, hd⟩ := @ht_of_lt (i + 1) (by omega)
      simp only [hc, hd, Option.bind_eq_bind, Option.bind_some]
      split
      case isTrue  => exact ⟨_, rfl⟩
      case isFalse => exact @hi (i + 2) (k - 1) (by omega) (by omega)

theorem lockError_isSome : ∃ b, lockError hs opcode pref mod reg = some b := by
  rw [lockError]
  split
  case isFalse => exact ⟨_, rfl⟩
  case isTrue =>
    split
    case isTrue => exact ⟨_, rfl⟩
    case isFalse =>
      split
      case isTrue  => exact lockLoop_isSome (k := 9) rfl (by rw [length_hde64Table]; decide) (by rw [length_hde64Table]; decide)
      case isFalse => exact lockLoop_isSome (k := 12) rfl (by rw [length_hde64Table]; decide) (by rw [length_hde64Table]; decide)

theorem onlyMemLoop_isSome (hk : i + 3 * k = tableEnd) (he : tableEnd ≤ hde64Table.length) (hf : k < fuel) :
    ∃ b, onlyMemLoop opcode pref reg tableEnd fuel i = some b := by
  induction fuel generalizing i k
  case zero => exact absurd hf (Nat.not_lt_zero _)
  case succ fuel hi =>
    rw [onlyMemLoop]
    split
    case isTrue  => exact ⟨_, rfl⟩
    case isFalse hn =>
      have ⟨c, hc⟩ := @ht_of_lt i (by omega)
      have ⟨d, hd⟩ := @ht_of_lt (i + 1) (by omega)
      have ⟨e, he⟩ := @ht_of_lt (i + 2) (by omega)
      simp only [hc, hd, he, Option.bind_eq_bind, Option.bind_some]
      split
      case isFalse => exact @hi (i + 3) (k - 1) (by omega) (by omega)
      case isTrue =>
        split
        case isTrue  => exact ⟨_, rfl⟩
        case isFalse => exact ⟨_, rfl⟩

theorem operandError_isSome : ∃ b, operandError hs opcode pref mod reg = some b := by
  have ⟨b, hb⟩ := @onlyMemLoop_isSome deltaOp2OnlyMem 14 hde64Table.length hde64Table.length opcode pref reg
    (by rw [length_hde64Table]) le_rfl (by rw [length_hde64Table]; decide)
  have ⟨b', hb'⟩ := @onlyMemLoop_isSome deltaOpOnlyMem 5 deltaOp2OnlyMem hde64Table.length opcode pref reg
    rfl (by rw [length_hde64Table]; decide) (by rw [length_hde64Table]; decide)
  rw [operandError, hb, hb']
  repeat' split
  all_goals exact ⟨_, rfl⟩

end Errors

end Hde

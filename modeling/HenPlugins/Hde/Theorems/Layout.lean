import HenPlugins.Hde.Theorems.Head
import HenPlugins.Hde.Theorems.Lock

open List Decoder

namespace Hde

variable {code : Nat → UInt8} {l l' : Locals} {hs hs' : Hde64s} {s s' : Place} {n : Nat}
  {opcode pref op64 cflags x mod reg rm : UInt8} {a b f : UInt32}

def encodeModrm (hs : Hde64s) : Bytes :=
  if hs.has fModrm then [hs.modrmMod <<< 6 ||| hs.modrmReg <<< 3 ||| hs.modrmRm] else []

def encodeSib (hs : Hde64s) : Bytes :=
  if hs.has fSib then [hs.sibScale <<< 6 ||| hs.sibIndex <<< 3 ||| hs.sibBase] else []

def dispBytes (flags : UInt32) : Nat :=
  if Has flags fDisp8 then 1 else if Has flags fDisp16 then 2 else if Has flags fDisp32 then 4 else 0

-- `ENTER` is the only instruction with two immediates.
def immBytes (flags : UInt32) : Nat :=
  (if Has flags fImm8 then 1 else 0) + (if Has flags fImm16 then 2 else 0) +
    (if Has flags fImm32 then 4 else 0) + (if Has flags fImm64 then 8 else 0)

-- The address that follows the opcode
def encodeAddress (hs : Hde64s) : Bytes :=
  encodeModrm hs ++ encodeSib hs ++ hs.disp.take (dispBytes hs.flags)

def encodeImm (hs : Hde64s) : Bytes :=
  hs.imm.take (immBytes hs.flags)

def encode (hs : Hde64s) : Bytes :=
  encodeHead hs ++ encodeAddress hs ++ encodeImm hs

section Imm

abbrev immMask : UInt32 := 0x23c

structure ImmRead (code : Nat → UInt8) (cflags : UInt8) (hs hs' : Hde64s) (s s' : Place) (f : UInt32) : Prop where
  eq    : hs' = { hs with imm := hs'.imm, flags := hs.flags ||| f }
  mask  : f &&& immMask = f
  pos   : s'.pos = s.pos + immBytes f
  reach : s'.reach = if immBytes f = 0 then s.reach else s'.pos
  bytes : cflags ≠ cImm16 ||| cImm8 → hs'.imm.take (immBytes f) = slice code s.pos (immBytes f)
  size  : hs.imm.length = 8 → immBytes f ≤ hs'.imm.length

theorem take_store {u bs : Bytes} : (store u bs).take bs.length = bs := by
  simp [store]

theorem immRead_zero : ImmRead code cflags hs hs s s 0 where
  eq    := by rw [UInt32.or_zero]
  mask  := rfl
  pos   := rfl
  reach := rfl
  bytes := fun _ => rfl
  size  := fun _ => Nat.zero_le _

theorem immRead_one (hr : s.reach ≤ s.pos + 1) (hm : f &&& immMask = f) (hb : immBytes f = n) (hn : 0 < n) :
    ImmRead code cflags hs { hs with imm := store hs.imm (slice code s.pos n), flags := hs.flags ||| f } s
      ⟨s.pos + n, max s.reach (s.pos + n)⟩ f where
  eq    := rfl
  mask  := hm
  pos   := by rw [hb]
  reach := by
    rw [hb, if_neg hn.ne']
    simp only
    omega
  bytes := by
    have ht := @take_store hs.imm (slice code s.pos n)
    rw [length_slice] at ht
    exact fun _ => by rw [hb, ht]
  size  := fun _ => by
    rw [hb, store, length_append, length_slice]
    exact Nat.le_add_right ..

theorem imm_wp (hc : cflags ∈ forms) (hr : s.reach ≤ s.pos + 1) :
    (imm pref op64 cflags hs).wp code s fun hs' s' => ∃ f, ImmRead code cflags hs hs' s s' f := by
  simp only [forms, mem_cons, not_mem_nil, or_false] at hc
  rcases hc with rfl | rfl | rfl | rfl | rfl | rfl | rfl | rfl | rfl | rfl
  case inr.inr.inr.inr.inr.inl =>
    simp +decide only [imm, imm16, imm8, rel, immediate, wp_bind, wp_pure, wp_take, if_true, if_false]
    refine ⟨fImm16 ||| fImm8, ?_, rfl, rfl, ?_, fun h => absurd rfl h, fun hl => ?_⟩
    · simp only [UInt32.or_assoc]
    · have hb : immBytes (fImm16 ||| fImm8) = 3 := rfl
      rw [hb, if_neg (by decide)]
      simp only
      omega
    · have hb : immBytes (fImm16 ||| fImm8) = 3 := rfl
      simp only [hb, store, length_append, length_drop, length_slice]
      omega
  all_goals
    simp +decide only [imm, imm16, imm8, rel, immediate, wp_bind, wp_pure, wp_take, if_true, if_false, wp_ite]
    repeat' split
  all_goals first | exact ⟨0, immRead_zero⟩ | exact ⟨_, immRead_one hr rfl rfl (by decide)⟩

end Imm

section Address

abbrev errorMask : UInt32 := 0x1f000

-- The flags of the errors that are found behind the byte of the ModRM
structure Errors (e : UInt32) (lock : Bool) : Prop where
  mask : e &&& errorMask = e
  any  : Consistent e
  lock : Has e fErrorLock ↔ lock

theorem errors_all : ∀ a b c d : Bool, Errors ((if a then fError ||| fErrorOpcode else 0) |||
    (if b then fError ||| fErrorOpcode else 0) ||| (if c then fError ||| fErrorLock else 0) |||
    (if d then fError ||| fErrorOperand else 0)) c := by
  intro a b c d
  cases a <;> cases b <;> cases c <;> cases d <;> exact ⟨rfl, by decide, by decide⟩

theorem modrmErrors_eq (hr : reg < 8) : ∃ e lock,
    modrmErrors hs opcode pref x mod reg rm = some { hs with flags := hs.flags ||| e } ∧
    lockError hs opcode pref mod reg = some lock ∧ Errors e lock := by
  have ⟨b, hb⟩ := @fpuError_isSome hs opcode mod reg rm hr
  have ⟨c, hc⟩ := @lockError_isSome hs opcode pref mod reg
  have ⟨d, hd⟩ := @operandError_isSome hs opcode pref mod reg
  -- The checks only look at the opcode.
  have hb' {f : UInt32} : fpuError { hs with flags := f } opcode mod reg rm = some b := hb
  have hc' {f : UInt32} : lockError { hs with flags := f } opcode pref mod reg = some c := hc
  have hd' {f : UInt32} : operandError { hs with flags := f } opcode pref mod reg = some d := hd
  refine ⟨_, c, ?_, hc, errors_all (groupError x reg) b c d⟩
  simp only [modrmErrors, Hde64s.flagIf, hb', hc', hd', Option.bind_eq_bind, Option.bind_some, UInt32.or_assoc]
  rfl

theorem modrm_bits : ∀ c : UInt8, (c >>> 6) <<< 6 ||| ((c &&& 0x3f) >>> 3) <<< 3 ||| (c &&& 7) = c :=
  forall_uint8 (by decide +kernel)

theorem reg_lt : ∀ c : UInt8, (c &&& 0x3f) >>> 3 < 8 :=
  forall_uint8 (by decide +kernel)

theorem has_or_left (h : Has a f) : Has (a ||| b) f :=
  has_or.mpr <| .inl h

theorem has_or_right (h : Has b f) : Has (a ||| b) f :=
  has_or.mpr <| .inr h

theorem not_has_or (ha : ¬Has a f) (hb : ¬Has b f) : ¬Has (a ||| b) f :=
  fun h => (has_or.mp h).elim ha hb

theorem Errors.not_has {lock : Bool} (h : Errors a lock) (hf : f &&& errorMask = 0) : ¬Has a f := by
  rw [Has, not_not, ← h.mask, UInt32.and_assoc, UInt32.and_comm errorMask, hf, UInt32.and_zero]

abbrev DispSize (n : Nat) : Prop :=
  n = 0 ∨ n = 1 ∨ n = 2 ∨ n = 4

theorem dispSize_dispSize : DispSize (dispSize pref mod rm) := by
  rw [dispSize]
  repeat' split
  all_goals decide

theorem dispBytes_or (h : a &&& 0x1c0 = 0) (hn : DispSize n) : dispBytes (a ||| dispFlag n) = n := by
  have h8  := not_has (f := fDisp8) h rfl
  have h16 := not_has (f := fDisp16) h rfl
  have h32 := not_has (f := fDisp32) h rfl
  obtain rfl | rfl | rfl | rfl := hn
  all_goals simp +decide [dispBytes, has_or, h8, h16, h32, dispFlag]

-- What is decoded behind the byte of the ModRM
structure DispRead (code : Nat → UInt8) (hs hs' : Hde64s) (s s' : Place) (g : UInt32) (bs : Bytes) : Prop where
  hs    : hs' = { hs with
    sib := hs'.sib, sibScale := hs'.sibScale, sibIndex := hs'.sibIndex, sibBase := hs'.sibBase, disp := hs'.disp,
    flags := hs.flags ||| g }
  mask  : g &&& 0x1c2 = g
  bytes : encodeSib hs' ++ hs'.disp.take (dispBytes hs'.flags) = bs
  slice : bs = slice code s.pos bs.length
  pos   : s'.pos = s.pos + bs.length
  reach : s'.reach = if bs = [] then s'.pos + 1 else s'.pos

theorem take_slice {u : Bytes} {i : Nat} : (store u (slice code i n)).take n = slice code i n := by
  have h := @take_store u (slice code i n)
  rwa [length_slice] at h

theorem slice_eq_nil {i : Nat} : slice code i n = [] ↔ n = 0 := by
  rw [← length_eq_zero_iff, length_slice]

theorem address_wp (hf : hs.flags &&& 0x1c2 = 0) (hn : DispSize n) (hr : s.reach = s.pos) :
    (address hs mod rm n).wp code s fun hs' s' => ∃ g bs, DispRead code hs hs' s s' g bs := by
  have hsib : ¬Has hs.flags fSib := not_has hf rfl
  have hd : hs.flags &&& 0x1c0 = 0 := and_eq_zero hf rfl
  simp only [address, sib, disp, wp_bind, wp_peek, wp_ite, wp_skip, wp_take, wp_pure]
  split
  case isTrue =>
    have hm : DispSize (if code s.pos &&& 7 = 5 ∧ mod &&& 1 = 0 then 4 else n) := by
      split
      · decide
      · exact hn
    revert hm
    generalize (if code s.pos &&& 7 = 5 ∧ mod &&& 1 = 0 then 4 else n) = k
    intro hk
    have hs' : Has (hs.flags ||| fSib ||| dispFlag k) fSib := has_or_left <| has_or_right (by decide)
    have hd' : dispBytes (hs.flags ||| fSib ||| dispFlag k) = k := dispBytes_or (or_and_eq_zero hd rfl) hk
    refine ⟨fSib ||| dispFlag k, code s.pos :: slice code (s.pos + 1) k, by simp only [UInt32.or_assoc], ?_, ?_, ?_, ?_, ?_⟩
    · obtain rfl | rfl | rfl | rfl := hk
      all_goals rfl
    · simp only [encodeSib, hs', if_true, hd', take_slice, modrm_bits, singleton_append]
    · rw [length_cons, length_slice, slice_succ]
    · simp only [length_cons, length_slice]
      omega
    · simp only [reduceCtorEq, if_false]
      omega
  case isFalse =>
    have hs' : ¬Has (hs.flags ||| dispFlag n) fSib := by
      refine not_has_or hsib ?_
      obtain rfl | rfl | rfl | rfl := hn
      all_goals decide
    have hd' : dispBytes (hs.flags ||| dispFlag n) = n := dispBytes_or hd hn
    refine ⟨dispFlag n, slice code s.pos n, rfl, ?_, ?_, ?_, ?_, ?_⟩
    · obtain rfl | rfl | rfl | rfl := hn
      all_goals rfl
    · simp only [encodeSib, hs', if_false, hd', take_slice, nil_append]
    · rw [length_slice]
    · rw [length_slice]
    · simp only [slice_eq_nil]
      split
      all_goals omega

structure AddressRead (code : Nat → UInt8) (l l' : Locals) (s s' : Place) : Prop where
  head  : encodeHead l'.hs = encodeHead l.hs
  bytes : encodeAddress l'.hs = slice code s.pos (encodeAddress l'.hs).length
  pos   : s'.pos = s.pos + (encodeAddress l'.hs).length
  reach : s'.reach = if (encodeAddress l'.hs).length = 1 then s'.pos + 1 else s'.pos
  clear : l'.hs.flags &&& immMask = 0
  imm   : l'.hs.imm = l.hs.imm
  opc   : l'.hs.opcode = l.hs.opcode
  opc2  : l'.hs.opcode2 = l.hs.opcode2
  modrm : l'.hs.has fModrm
  errors : Consistent l.hs.flags → Consistent l'.hs.flags
  lock  : ¬l.hs.has fErrorLock → (l'.hs.has fErrorLock ↔ l.pref &&& preLock ≠ 0 ∧
    (l'.hs.modrmMod = 3 ∨ ¬if l.hs.opcode2 ≠ 0 then lockable2 l.opcode l'.hs.modrmReg else lockable l.opcode l'.hs.modrmReg))
  frame : l' = { l with
    hs := l'.hs, c := code s.pos, cflags := immOfReg l.opcode l.cflags ((code s.pos &&& 0x3f) >>> 3) }

-- The flags that are not set before the address is decoded
abbrev addressMask : UInt32 := 0x3ff

theorem has_or_iff (h : b &&& f = 0) : Has (a ||| b) f ↔ Has a f := by
  rw [Has, or_and_distrib_right, h, UInt32.or_zero]
  rfl

theorem and_of_mask {m : UInt32} (h : b &&& m = b) (hf : m &&& f = 0) : b &&& f = 0 := by
  rw [← h, UInt32.and_assoc, hf, UInt32.and_zero]

-- A flag outside of the ones that are set.
theorem Hde64s.has_congr {hs hs' : Hde64s} {m : UInt32} (h : hs'.flags = hs.flags ||| b) (hb : b &&& m = b)
    (hf : m &&& f = 0) : hs'.has f ↔ hs.has f := by
  rw [Hde64s.has, h]
  exact has_or_iff (and_of_mask hb hf)

theorem ite_and_eq_zero {c : Prop} [Decidable c] (h : a &&& f = 0) : (if c then a else 0) &&& f = 0 := by
  split
  · exact h
  · exact UInt32.zero_and

theorem encodeModrm_eq {hs : Hde64s} {c : UInt8} (h : hs.has fModrm) (hmod : hs.modrmMod = c >>> 6)
    (hreg : hs.modrmReg = (c &&& 0x3f) >>> 3) (hrm : hs.modrmRm = c &&& 7) : encodeModrm hs = [c] := by
  rw [encodeModrm, if_pos h, hmod, hreg, hrm, modrm_bits]

theorem modrm_wp (hc : l.hs.flags &&& addressMask = 0) (hr : s.reach = s.pos) :
    (modrm l).wp code s fun l' s' => AddressRead code l l' s s' := by
  simp only [modrm, wp_bind, wp_next, wp_lift]
  obtain ⟨e, lock, he, hl, herr⟩ := @modrmErrors_eq { l.hs with
      flags := l.hs.flags ||| fModrm, modrm := code s.pos, modrmMod := code s.pos >>> 6, modrmRm := code s.pos &&& 7,
      modrmReg := (code s.pos &&& 0x3f) >>> 3 }
    l.opcode l.pref l.x (code s.pos >>> 6) ((code s.pos &&& 0x3f) >>> 3) (code s.pos &&& 7) (reg_lt _)
  have hm : max s.reach (s.pos + 1) = s.pos + 1 := by omega
  have he0 {f : UInt32} (hf : errorMask &&& f = 0) : e &&& f = 0 := and_of_mask herr.mask hf
  have hf : (l.hs.flags ||| fModrm ||| e) &&& 0x1c2 = 0 :=
    or_and_eq_zero (or_and_eq_zero (and_eq_zero hc rfl) rfl) (he0 rfl)
  refine ⟨_, he, ?_⟩
  rw [hm]
  refine wp_mono (address_wp hf dispSize_dispSize rfl) fun hs' s' hd => ?_
  obtain ⟨g, bs, hd⟩ := hd
  rw [wp_pure]
  have hg0 {f : UInt32} (hf : 0x1c2 &&& f = 0) : g &&& f = 0 := and_of_mask hd.mask hf
  have hflags : hs'.flags = l.hs.flags ||| fModrm ||| e ||| g := congrArg Hde64s.flags hd.hs
  have hmod : hs'.modrmMod = code s.pos >>> 6 := congrArg Hde64s.modrmMod hd.hs
  have hreg : hs'.modrmReg = (code s.pos &&& 0x3f) >>> 3 := congrArg Hde64s.modrmReg hd.hs
  have himm : hs'.imm = l.hs.imm := by rw [hd.hs]
  have hopc : hs'.opcode = l.hs.opcode := by rw [hd.hs]
  have hopc2 : hs'.opcode2 = l.hs.opcode2 := by rw [hd.hs]
  have hmodrm : hs'.has fModrm := by
    rw [Hde64s.has, hflags]
    exact has_or_left <| has_or_left <| has_or_right (by decide)
  have haddr : encodeAddress hs' = code s.pos :: bs := by
    rw [encodeAddress, encodeModrm_eq hmodrm hmod hreg (congrArg Hde64s.modrmRm hd.hs), append_assoc, hd.bytes,
      singleton_append]
  have hrex : hs'.has fPrefixRex ↔ l.hs.has fPrefixRex := by
    rw [Hde64s.has, hflags, has_or_iff (hg0 rfl), has_or_iff (he0 rfl), has_or_iff rfl]
  exact {
    head  := by
      simp only [encodeHead, encodeRex, hrex]
      rw [hd.hs]
      rfl
    bytes := by rw [haddr, length_cons, slice_succ, ← hd.slice]
    pos   := by
      rw [haddr, hd.pos, length_cons]
      simp only
      omega
    reach := by
      rw [haddr, hd.reach, length_cons]
      simp only [Nat.add_eq_right, length_eq_zero_iff]
    clear := by
      rw [hflags]
      exact or_and_eq_zero (or_and_eq_zero (or_and_eq_zero (and_eq_zero hc rfl) rfl) (he0 rfl)) (hg0 rfl)
    imm   := himm
    opc   := hopc
    opc2  := hopc2
    modrm := hmodrm
    errors := fun hc => by
      rw [hflags]
      have hm : Consistent fModrm := by decide
      exact ((hc.or hm).or herr.any).or <| consistent_of_and (hg0 rfl)
    lock  := fun hn => by
      have hlock := Option.some.inj <| hl.symm.trans <| lockError_eq (reg_lt (code s.pos))
      have hne : ¬Has (l.hs.flags ||| fModrm) fErrorLock := not_has_or hn (by decide)
      rw [Hde64s.has, hflags, has_or, has_or, or_iff_right hne, or_iff_left (fun h => h (hg0 rfl)), herr.lock, hlock, hmod,
        hreg]
      simp
    frame := rfl }

end Address

section Decode

-- The byte that the tables are looked up for
def lastOpcode (hs : Hde64s) : UInt8 :=
  if hs.opcode = escape then hs.opcode2 else hs.opcode

def InMemory (hs : Hde64s) : Prop :=
  hs.has fModrm ∧ hs.modrmMod ≠ 3

-- The instruction is one that can be locked, and its operand is in memory.
def Lockable (hs : Hde64s) : Prop :=
  InMemory hs ∧ if hs.opcode = escape then lockable2 hs.opcode2 hs.modrmReg else lockable hs.opcode hs.modrmReg

-- `SLDT`, `STR`, `LLDT`, `LTR`, `VERR` and `VERW` with an operand in memory. The second byte of the opcode is 0, which
-- stands for no second byte where `LOCK` is checked.
def ZeroSecond (hs : Hde64s) : Prop :=
  InMemory hs ∧ hs.opcode = escape ∧ hs.opcode2 = 0

theorem lockable_or_zeroSecond (h : hs.opcode2 ≠ 0 → hs.opcode = escape) : Lockable hs ∨ ZeroSecond hs ↔ InMemory hs ∧
    if hs.opcode2 ≠ 0 then lockable2 (lastOpcode hs) hs.modrmReg else lockable (lastOpcode hs) hs.modrmReg := by
  rw [Lockable, ZeroSecond, ← and_or_left, lastOpcode]
  refine and_congr_right fun _ => ?_
  by_cases he : hs.opcode = escape
  case neg =>
    have h2 : ¬hs.opcode2 ≠ 0 := mt h he
    simp only [if_neg h2, he, if_false, false_and, or_false]
  case pos =>
    simp only [he, if_true, true_and]
    by_cases h2 : hs.opcode2 = 0
    case pos =>
      -- It is looked up as an `ADD`.
      simp only [h2, ne_eq, not_true, if_false, or_true, true_iff]
      rfl
    case neg => simp only [h2, ne_eq, not_false_eq_true, if_true, or_false]

structure Decoded (code : Nat → UInt8) (n : Nat) (hs : Hde64s) (s : Place) : Prop where
  pos    : s.pos = n + (encode hs).length
  reach  : s.reach = if (encodeAddress hs).length = 1 ∧ (encodeImm hs).length = 0 then s.pos + 1 else s.pos
  bytes  : ¬TwoRex code n → hs.opcode ≠ 0xc8 → slice code n (encode hs).length = encode hs
  errors : Consistent hs.flags
  lock   : hs.has fErrorLock ↔ Locked code n ∧ ¬(Lockable hs ∨ ZeroSecond hs)

-- What the last stage does not change
theorem ImmRead.encode_eq (h : ImmRead code cflags hs hs' s s' f) (hf : hs.flags &&& immMask = 0)
    (hl : hs.imm.length = 8) :
    encodeHead hs' = encodeHead hs ∧ encodeAddress hs' = encodeAddress hs ∧ (encodeImm hs').length = immBytes f ∧
      (cflags ≠ cImm16 ||| cImm8 → encodeImm hs' = slice code s.pos (immBytes f)) := by
  have hflags : hs'.flags = hs.flags ||| f := congrArg Hde64s.flags h.eq
  have hh : encodeHead hs' = encodeHead hs := by
    simp only [encodeHead, encodeRex, Hde64s.has_congr (f := fPrefixRex) hflags h.mask rfl]
    rw [h.eq]
    rfl
  have ha : encodeAddress hs' = encodeAddress hs := by
    have hm : hs'.has fModrm ↔ hs.has fModrm := Hde64s.has_congr hflags h.mask rfl
    have hsib : hs'.has fSib ↔ hs.has fSib := Hde64s.has_congr hflags h.mask rfl
    have hd : dispBytes hs'.flags = dispBytes hs.flags := by
      rw [hflags]
      simp only [dispBytes, has_or_iff (f := fDisp8) (and_of_mask h.mask rfl),
        has_or_iff (f := fDisp16) (and_of_mask h.mask rfl), has_or_iff (f := fDisp32) (and_of_mask h.mask rfl)]
    simp only [encodeAddress, encodeModrm, encodeSib, hm, hsib, hd]
    rw [h.eq]
  have hi : immBytes hs'.flags = immBytes f := by
    have hn {g : UInt32} (hg : g &&& immMask = g) : Has (hs.flags ||| f) g ↔ Has f g := by
      rw [has_or, or_iff_right (not_has hf hg)]
    simp only [hflags, immBytes, hn (g := fImm8) rfl, hn (g := fImm16) rfl, hn (g := fImm32) rfl, hn (g := fImm64) rfl]
  refine ⟨hh, ha, ?_, fun hc => ?_⟩
  · rw [encodeImm, hi, length_take, min_eq_left (h.size hl)]
  · rw [encodeImm, hi, h.bytes hc]

-- What there is in front of the last stage, whether there is an address or not
structure Addressed (code : Nat → UInt8) (l l' : Locals) (s s' : Place) : Prop where
  head  : encodeHead l'.hs = encodeHead l.hs
  bytes : encodeAddress l'.hs = slice code s.pos (encodeAddress l'.hs).length
  pos   : s'.pos = s.pos + (encodeAddress l'.hs).length
  reach : s'.reach = if (encodeAddress l'.hs).length = 1 then s'.pos + 1 else s'.pos
  clear : l'.hs.flags &&& immMask = 0
  imm   : l'.hs.imm = l.hs.imm
  forms : l'.cflags ∈ forms
  enter : l'.cflags = cImm16 ||| cImm8 → l.ht = 0 ∧ l.opcode = 0xc8
  opc   : l'.hs.opcode = l.hs.opcode
  opc2  : l'.hs.opcode2 = l.hs.opcode2
  errors : Consistent l.hs.flags → Consistent l'.hs.flags
  lock  : ¬l.hs.has fErrorLock → (l'.hs.has fErrorLock ↔ l.pref &&& preLock ≠ 0 ∧ ¬(l'.hs.has fModrm ∧ l'.hs.modrmMod ≠ 3 ∧
    if l.hs.opcode2 ≠ 0 then lockable2 l.opcode l'.hs.modrmReg else lockable l.opcode l'.hs.modrmReg))
  modrm : l.cflags = 0 → ¬l'.hs.has fModrm

theorem addressed_wp (hf : Formed l.ht l.opcode l.cflags) (hc : l.hs.flags &&& addressMask = 0) (hr : s.reach = s.pos) :
    (if l.cflags &&& cModrm ≠ 0 then modrm l
      else pure { l with hs := l.hs.flagIf (l.pref &&& preLock ≠ 0) (fError ||| fErrorLock) } : Decoder Locals).wp code s
      (Addressed code l · s ·) := by
  rw [wp_ite]
  split
  case isTrue hm =>
    refine wp_mono (modrm_wp hc hr) fun l' s' h => ?_
    have hcf : l'.cflags = immOfReg l.opcode l.cflags ((code s.pos &&& 0x3f) >>> 3) := congrArg Locals.cflags h.frame
    have hi := @Formed.immOfReg l.ht l.opcode l.cflags ((code s.pos &&& 0x3f) >>> 3) hf hm
    rw [← hcf] at hi
    refine ⟨h.head, h.bytes, h.pos, h.reach, h.clear, h.imm, hi.left, fun h6 => absurd h6 hi.right, h.opc, h.opc2,
      h.errors, fun hn => ?_, fun h0 => ?_⟩
    · rw [h.lock hn, not_and, not_and_or, imp_iff_right h.modrm, not_not]
    · rw [h0] at hm
      exact absurd rfl hm
  case isFalse hm =>
    rw [wp_pure]
    have he {f : UInt32} (h : (fError ||| fErrorLock) &&& f = 0) :
        (if l.pref &&& preLock ≠ 0 then fError ||| fErrorLock else 0) &&& f = 0 := ite_and_eq_zero h
    have hclear := or_and_eq_zero hc (he (f := addressMask) rfl)
    have hd : dispBytes (l.hs.flags ||| if l.pref &&& preLock ≠ 0 then fError ||| fErrorLock else 0) = 0 := by
      rw [dispBytes, if_neg (not_has hclear rfl), if_neg (not_has hclear rfl), if_neg (not_has hclear rfl)]
    have ha : encodeAddress (l.hs.flagIf (l.pref &&& preLock ≠ 0) (fError ||| fErrorLock)) = [] := by
      have hm : ¬(l.hs.flagIf (l.pref &&& preLock ≠ 0) (fError ||| fErrorLock)).has fModrm := not_has hclear rfl
      have hs : ¬(l.hs.flagIf (l.pref &&& preLock ≠ 0) (fError ||| fErrorLock)).has fSib := not_has hclear rfl
      rw [encodeAddress, encodeModrm, if_neg hm, encodeSib, if_neg hs, Hde64s.flagIf, hd]
      rfl
    have hn : ¬Has (l.hs.flags ||| if l.pref &&& preLock ≠ 0 then fError ||| fErrorLock else 0) fModrm :=
      not_has hclear rfl
    refine ⟨?_, ?_, ?_, ?_, and_eq_zero hclear rfl, rfl, hf.mem, hf.enter, rfl, rfl, ?_, ?_, fun _ => hn⟩
    · simp only [encodeHead, encodeRex, encodeOpcode, Hde64s.flagIf, Hde64s.has, has_or_iff (he (f := fPrefixRex) rfl)]
      rfl
    · rw [ha]
      rfl
    · rw [ha]
      rfl
    · rw [ha, hr]
      rfl
    · exact fun hc => hc.or (.ite (by decide))
    · intro hl
      simp only [Hde64s.flagIf, hn, false_and, not_false_eq_true, and_true]
      rw [Hde64s.has, has_or, or_iff_right hl, has_ite]
      split
      case isTrue hp  => exact iff_of_true (by decide) hp
      case isFalse hp => exact iff_of_false not_has_zero hp

theorem operands_wp (h : Headed code n l s) (hf : Formed l.ht l.opcode l.cflags) :
    (operands l).wp code s (Decoded code n) := by
  rw [operands, wp_bind]
  refine wp_mono (addressed_wp hf (and_eq_zero h.clear rfl) h.reach) fun l' s₁ ha => ?_
  have hreach : s₁.reach ≤ s₁.pos + 1 := by
    rw [ha.reach]
    split <;> omega
  refine wp_mono (imm_wp ha.forms hreach) fun hs' s' ⟨f, hi⟩ => ?_
  have ⟨hh, hadd, hlen, hbytes⟩ := hi.encode_eq ha.clear (by rw [ha.imm, h.imm, length_replicate])
  have hop : hs'.opcode = l'.hs.opcode := by rw [hi.eq]
  constructor
  case pos =>
    rw [encode, hh, hadd, length_append, length_append, hlen, hi.pos, ha.pos, h.pos, ha.head]
    omega
  case reach =>
    rw [hi.reach, hadd, hlen, ha.reach]
    have hpos := hi.pos
    by_cases h0 : immBytes f = 0
    case pos =>
      simp only [h0, and_true, if_true]
      rw [h0] at hpos
      rw [hpos]
      rfl
    case neg => simp only [h0, and_false, if_false]
  case bytes =>
    intro ht h8'
    have hn : l'.cflags ≠ cImm16 ||| cImm8 := fun h6 =>
      h8' <| hop.trans <| ha.opc.trans <| h.enter (ha.enter h6).left (ha.enter h6).right
    have hs₁ : s₁.pos = n + ((encodeHead l.hs).length + (encodeAddress l'.hs).length) := by
      rw [ha.pos, h.pos, Nat.add_assoc]
    rw [encode, hh, hadd, ha.head, length_append, length_append, slice_add, slice_add, h.bytes ht, hlen, ← hs₁, ← hbytes hn,
      ← h.pos, ← ha.bytes]
  case errors =>
    rw [hi.eq]
    exact (ha.errors h.errors).or <| consistent_of_and (and_of_mask hi.mask rfl)
  case lock =>
    have hflags : hs'.flags = l'.hs.flags ||| f := by rw [hi.eq]
    have hm : hs'.has fModrm ↔ l'.hs.has fModrm := Hde64s.has_congr hflags hi.mask rfl
    have hl : hs'.has fErrorLock ↔ l'.hs.has fErrorLock := Hde64s.has_congr hflags hi.mask rfl
    have hreg : hs'.modrmReg = l'.hs.modrmReg ∧ hs'.modrmMod = l'.hs.modrmMod ∧ hs'.opcode2 = l'.hs.opcode2 := by
      rw [hi.eq]
      exact ⟨rfl, rfl, rfl⟩
    have hn : ¬l.hs.has fErrorLock := not_has h.clear rfl
    have hsecond : hs'.opcode2 ≠ 0 → hs'.opcode = escape := by
      rw [hreg.right.right, ha.opc2, hop, ha.opc]
      exact h.second
    rw [hl, ha.lock hn, h.locked, lockable_or_zeroSecond hsecond, InMemory, hm, lastOpcode, hop, ha.opc, hreg.left,
      hreg.right.left, hreg.right.right, ha.opc2, and_assoc]
    refine and_congr_right fun _ => not_congr <| and_congr_right fun hmod => ?_
    rw [h.opcode.resolve_left fun h0 => ha.modrm h0 hmod]

theorem pref_and_eq_zero : ∀ p : UInt8, p &&& 0x80 = 0 → p.toUInt32 <<< 23 &&& 0x4001ffff = 0 :=
  forall_uint8 (by decide +kernel)

theorem decode_wp : decode.wp code ⟨0, 0⟩ fun hs s => ∃ n, PrefixRun code n ∧ Decoded code n hs s := by
  rw [decode, wp_bind]
  refine wp_mono (prefixes_wp (x := 15)) fun l s hp => ?_
  obtain ⟨hs, n, hn, hall, hstop, hs', hsame, hl⟩ := hp
  simp only [Nat.zero_add] at hall hstop hs' hl
  have hready : Ready code n l.prefDone s := by
    subst hl
    rw [SameButPrefixes] at hsame
    have hp : ∀ p : UInt8, (if p = 0 then p ||| preNone else p) &&& preLock = p &&& preLock :=
      forall_uint8 (by decide +kernel)
    refine ⟨hs', rfl, rfl, ?_, ?_, pref_and_eq_zero _ prefixBits_and_rex, ?_, ?_⟩
    case refine_4 =>
      simp only [Locals.prefDone]
      rw [hp]
      exact prefixBits_locked
    all_goals
      simp only [Locals.prefDone]
      rw [hsame]
      rfl
  refine wp_bind.mpr <| wp_mono (head_wp hready) fun l₁ s₁ hh => ?_
  obtain ⟨l₂, hg, hh₂, hform⟩ := hh.left.group hh.right
  obtain ⟨b, hb⟩ := @prefixError_isSome l₂.hs l₂.opcode l₂.pref
  rw [wp_bind, wp_lift]
  refine ⟨l₂, hg, ?_⟩
  rw [wp_bind, wp_lift]
  exact ⟨b, hb, wp_mono (operands_wp hh₂.flagIf hform) fun _ _ h => ⟨n, ⟨hn, hall, hstop⟩, h⟩⟩

end Decode

end Hde

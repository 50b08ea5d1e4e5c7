import HenPlugins.Hde.Theorems.Table

open List Decoder

namespace Hde

section Flags

variable {a b f m : UInt32} {p : Prop} [Decidable p]

def Has (flags f : UInt32) : Prop :=
  flags &&& f ≠ 0

instance : Decidable (Has a f) :=
  inferInstanceAs (Decidable (_ ≠ _))

abbrev Hde64s.has (hs : Hde64s) (f : UInt32) : Prop :=
  Has hs.flags f

theorem or_and_distrib_right : (a ||| b) &&& f = (a &&& f) ||| (b &&& f) := by
  apply UInt32.eq_of_toBitVec_eq
  simp only [UInt32.toBitVec_and, UInt32.toBitVec_or]
  ext i
  simp [Bool.and_or_distrib_right]

theorem has_or : Has (a ||| b) f ↔ Has a f ∨ Has b f := by
  rw [Has, or_and_distrib_right, ne_eq, UInt32.or_eq_zero_iff, not_and_or]
  rfl

theorem has_ite : Has (if p then a else b) f ↔ if p then Has a f else Has b f := by
  split <;> rfl

@[simp]
theorem not_has_zero : ¬Has 0 f := by
  simp [Has]

theorem not_has (h : a &&& m = 0) (hf : f &&& m = f) : ¬Has a f := by
  rw [Has, ← hf, not_not]
  rw [UInt32.and_comm f, ← UInt32.and_assoc, h, UInt32.zero_and]

theorem and_eq_zero {m' : UInt32} (h : a &&& m = 0) (hm : m' &&& m = m') : a &&& m' = 0 := by
  rw [← hm, UInt32.and_comm m', ← UInt32.and_assoc, h, UInt32.zero_and]

theorem or_and_eq_zero (ha : a &&& m = 0) (hb : b &&& m = 0) : (a ||| b) &&& m = 0 := by
  rw [or_and_distrib_right, ha, hb]
  rfl

abbrev subErrors : UInt32 := fErrorOpcode ||| fErrorLock ||| fErrorOperand

-- The flag for any error goes with another one. The length has not been checked.
structure Consistent (flags : UInt32) : Prop where
  any    : Has flags fError ↔ Has flags subErrors
  length : ¬Has flags fErrorLength

instance : Decidable (Consistent a) :=
  decidable_of_iff _ (Iff.intro (fun ⟨h, h'⟩ => ⟨h, h'⟩) fun h => And.intro h.any h.length)

theorem Consistent.or (ha : Consistent a) (hb : Consistent b) : Consistent (a ||| b) where
  any    := by rw [has_or, has_or, ha.any, hb.any]
  length := fun h => (has_or.mp h).elim ha.length hb.length

theorem consistent_of_and (h : a &&& 0x1f000 = 0) : Consistent a where
  any    := iff_of_false (not_has h rfl) (not_has h rfl)
  length := not_has h rfl

theorem Consistent.ite (ha : Consistent a) : Consistent (if p then a else 0) := by
  split
  · exact ha
  · decide

end Flags

section Prefixes

variable {code : Nat → UInt8} {n i x : Nat} {l l' : Locals} {c : UInt8}

def prefixBit (c : UInt8) : UInt8 :=
  if c = 0xf3 then preF3
  else if c = 0xf2 then preF2
  else if c = 0xf0 then preLock
  else if c = 0x26 ∨ c = 0x2e ∨ c = 0x36 ∨ c = 0x3e ∨ c = 0x64 ∨ c = 0x65 then preSeg
  else if c = 0x66 then pre66
  else if c = 0x67 then pre67
  else 0

def prefixBits (bs : Bytes) : UInt8 :=
  bs.foldl (fun p c => p ||| prefixBit c) 0

-- The instruction begins with `n` prefixes. A 16th one is taken for the opcode.
structure PrefixRun (code : Nat → UInt8) (n : Nat) : Prop where
  le   : n ≤ 15
  all  : ∀ i < n, prefixBit (code i) ≠ 0
  stop : n = 15 ∨ prefixBit (code n) = 0

-- Only the fields for the prefixes differ.
def SameButPrefixes (hs hs' : Hde64s) : Prop :=
  hs' = { hs with pRep := hs'.pRep, pLock := hs'.pLock, pSeg := hs'.pSeg, p66 := hs'.p66, p67 := hs'.p67 }

theorem SameButPrefixes.trans {hs₁ hs₂ hs₃ : Hde64s} (h : SameButPrefixes hs₁ hs₂) (h' : SameButPrefixes hs₂ hs₃) :
    SameButPrefixes hs₁ hs₃ := by
  rw [SameButPrefixes] at *
  rw [h', h]

theorem prefixed_cases : (prefixBit c = 0 ∧ l.prefixed c = none) ∨ ∃ hs, prefixBit c ≠ 0 ∧
    l.prefixed c = some { l with hs, pref := l.pref ||| prefixBit c } ∧ SameButPrefixes l.hs hs := by
  rw [Locals.prefixed, prefixBit]
  repeat' split
  case isFalse => exact .inl ⟨rfl, rfl⟩
  all_goals exact .inr ⟨_, by decide, rfl, rfl⟩

theorem PrefixRun.unique {n' : Nat} (h : PrefixRun code n) (h' : PrefixRun code n') : n = n' := by
  by_contra hn
  cases Nat.lt_or_gt_of_ne hn
  case inl hl => exact h.stop.elim (fun h => by have := h'.le; omega) (h'.all n hl)
  case inr hl => exact h'.stop.elim (fun h' => by have := h.le; omega) (h.all n' hl)

theorem slice_succ {k : Nat} : slice code i (k + 1) = code i :: slice code (i + 1) k := by
  rw [Nat.add_comm, slice_add, slice_one, singleton_append]

theorem prefixes_wp : (prefixes (x + 1) l).wp code ⟨i, i⟩ fun l' s => ∃ hs k, k ≤ x ∧
    (∀ j < k, prefixBit (code (i + j)) ≠ 0) ∧ (k = x ∨ prefixBit (code (i + k)) = 0) ∧
    s = ⟨i + k + 1, i + k + 1⟩ ∧ SameButPrefixes l.hs hs ∧
    l' = { l with
      hs, c := code (i + k), pref := (slice code i (k + 1)).foldl (fun p c => p ||| prefixBit c) l.pref } := by
  induction x generalizing i l
  case zero =>
    simp only [prefixes, wp_bind, wp_next, Nat.le_succ, max_eq_right]
    have h := @prefixed_cases { l with c := code i } (code i)
    cases h
    case inl h =>
      simp only [h.right, wp_pure]
      refine ⟨l.hs, 0, le_rfl, fun j hj => absurd hj (Nat.not_lt_zero _), .inl rfl, rfl, rfl, ?_⟩
      simp [slice_one, h.left]
    case inr h =>
      obtain ⟨hs, hb, he, hsame⟩ := h
      simp only [he, wp_pure]
      exact ⟨hs, 0, le_rfl, fun j hj => absurd hj (Nat.not_lt_zero _), .inl rfl, rfl, hsame, rfl⟩
  case succ x hi =>
    rw [prefixes]
    simp only [wp_bind, wp_next, Nat.le_succ, max_eq_right]
    have h := @prefixed_cases { l with c := code i } (code i)
    cases h
    case inl h =>
      simp only [h.right, wp_pure]
      refine ⟨l.hs, 0, Nat.zero_le _, fun j hj => absurd hj (Nat.not_lt_zero _), .inr h.left, rfl, rfl, ?_⟩
      simp [slice_one, h.left]
    case inr h =>
      obtain ⟨hs, hb, he, hsame⟩ := h
      simp only [he]
      refine wp_mono hi fun l' s h => ?_
      obtain ⟨hs', k, hk, hall, hstop, hs, hsame', hl⟩ := h
      have ha (j : Nat) : i + (j + 1) = i + 1 + j := by omega
      refine ⟨hs', k + 1, Nat.succ_le_succ hk, fun j hj => ?_, ?_, ?_, hsame.trans hsame', ?_⟩
      · cases j
        case zero   => exact hb
        case succ j => exact ha j ▸ hall j (Nat.lt_of_succ_lt_succ hj)
      · exact ha k ▸ hstop.imp (congrArg (· + 1)) id
      · rw [hs, ha k]
      · rw [hl, ha k, slice_succ (k := k + 1), foldl_cons]

theorem or_and_distrib_right8 {a b f : UInt8} : (a ||| b) &&& f = (a &&& f) ||| (b &&& f) := by
  apply UInt8.eq_of_toBitVec_eq
  simp only [UInt8.toBitVec_and, UInt8.toBitVec_or]
  ext i
  simp [Bool.and_or_distrib_right]

theorem foldl_prefixBit_and {bs : Bytes} {p m : UInt8} (hm : ∀ c, prefixBit c &&& m = 0) :
    bs.foldl (fun p c => p ||| prefixBit c) p &&& m = p &&& m := by
  induction bs generalizing p
  case nil => rfl
  case cons c bs hi =>
    rw [foldl_cons, hi, or_and_distrib_right8, hm, UInt8.or_zero]

theorem foldl_prefixBit_ne_iff {bs : Bytes} {p m : UInt8} :
    bs.foldl (fun p c => p ||| prefixBit c) p &&& m ≠ 0 ↔ p &&& m ≠ 0 ∨ ∃ c ∈ bs, prefixBit c &&& m ≠ 0 := by
  induction bs generalizing p
  case nil => simp
  case cons c bs hi =>
    rw [foldl_cons, hi, or_and_distrib_right8, ne_eq, UInt8.or_eq_zero_iff, not_and_or, or_assoc]
    simp only [mem_cons, exists_eq_or_imp, ne_eq]

theorem prefixBits_and_rex {bs : Bytes} : prefixBits bs &&& 0x80 = 0 :=
  foldl_prefixBit_and (forall_uint8 (by decide +kernel))

-- One of the bytes up to the one behind the prefixes is `LOCK`.
def Locked (code : Nat → UInt8) (n : Nat) : Prop :=
  ∃ i ≤ n, code i = 0xf0

theorem prefixBits_locked : prefixBits (slice code 0 (n + 1)) &&& preLock ≠ 0 ↔ Locked code n := by
  have hb : ∀ c, prefixBit c &&& preLock ≠ 0 ↔ c = 0xf0 := forall_uint8 (by decide +kernel)
  rw [prefixBits, foldl_prefixBit_ne_iff]
  simp only [hb, slice, mem_map, List.mem_range, exists_exists_and_eq_and, Locked, Nat.zero_add, Nat.lt_succ_iff]
  exact or_iff_right (by decide)

end Prefixes

section Opcode

variable {code : Nat → UInt8} {l l' : Locals} {s s' : Place} {n : Nat}

-- The bytes of REX and of the opcode
def encodeRex (hs : Hde64s) : Bytes :=
  if hs.has fPrefixRex then [(0x40 : UInt8) ||| hs.rexW <<< 3 ||| hs.rexR <<< 2 ||| hs.rexX <<< 1 ||| hs.rexB] else []

def encodeOpcode (hs : Hde64s) : Bytes :=
  if hs.opcode = 0x0f then [hs.opcode, hs.opcode2] else [hs.opcode]

abbrev escape : UInt8 := 0x0f

-- The byte behind an escape, or the given one
def escaped (code : Nat → UInt8) (c : UInt8) (s : Place) (other : UInt8) : UInt8 :=
  if c = escape then code s.pos else other

structure OpcodeRead (code : Nat → UInt8) (l l' : Locals) (s s' : Place) : Prop where
  hs     : l'.hs = { l.hs with opcode := l.c, opcode2 := escaped code l.c s 0, flags := l'.hs.flags }
  flags  : l'.hs.flags = l.hs.flags ∨ l'.hs.flags = l.hs.flags ||| (fError ||| fErrorOpcode)
  place  : s' = if l.c = escape then ⟨s.pos + 1, s.pos + 1⟩ else s
  opcode : l'.opcode = escaped code l.c s l.c
  ht     : l'.ht = if l.c = escape then deltaOpcodes else 0
  listed : Listed l'.ht l'.opcode l'.cflags
  lock   : l'.pref &&& preLock = l.pref &&& preLock

theorem listed_errorOpcode (h : l.ht = 0 ∨ l.ht = deltaOpcodes) :
    Listed (errorOpcode l).ht (errorOpcode l).opcode (errorOpcode l).cflags := by
  refine ⟨h, ?_⟩
  simp only [errorOpcode]
  split
  case isTrue  => exact .inr <| .inl rfl
  case isFalse => exact .inl rfl

theorem opcodeBytes_wp (hh : l.ht = 0) (h2 : l.hs.opcode2 = 0) (hr : s.reach = s.pos) :
    (opcodeBytes l).wp code s fun l' s' =>
      l'.hs = { l.hs with opcode := l.c, opcode2 := escaped code l.c s 0 } ∧
      s' = (if l.c = escape then ⟨s.pos + 1, s.pos + 1⟩ else s) ∧
      l'.c = escaped code l.c s l.c ∧
      l'.ht = (if l.c = escape then deltaOpcodes else 0) ∧
      l'.pref &&& preLock = l.pref &&& preLock := by
  simp only [opcodeBytes, wp_ite, escaped]
  split
  case isTrue h =>
    have hm : max s.reach (s.pos + 1) = s.pos + 1 := by omega
    simp [hm]
  case isFalse h =>
    split
    case isFalse => simp [← h2, hh]
    case isTrue =>
      have h66 : ∀ p : UInt8, (p ||| pre66) &&& preLock = p &&& preLock := forall_uint8 (by decide +kernel)
      have h66' : ∀ p : UInt8, (p &&& ~~~pre66) &&& preLock = p &&& preLock := forall_uint8 (by decide +kernel)
      simp only [wp_pure, ← h2, hh, true_and]
      split
      · exact h66 l.pref
      · exact h66' l.pref

theorem opcode_wp (hh : l.ht = 0) (h2 : l.hs.opcode2 = 0) (hr : s.reach = s.pos) :
    (opcode l).wp code s (OpcodeRead code l · s ·) := by
  rw [opcode, wp_bind]
  refine wp_mono (opcodeBytes_wp hh h2 hr) fun l' s' ⟨hs, hp, hc, ht, hl⟩ => ?_
  have hd : l'.ht = 0 ∨ l'.ht = deltaOpcodes := by
    rw [ht]
    split
    · exact .inr rfl
    · exact .inl rfl
  have ⟨cflags, hf⟩ := lookup_isSome (hd.imp_right .inl) l'.c
  simp only [wp_bind, wp_lift, wp_pure]
  refine ⟨cflags, hf, ?_⟩
  split
  case isTrue =>
    exact ⟨by simp only [errorOpcode, hs], .inr (by simp only [errorOpcode, hs]), hp, hc, ht, listed_errorOpcode hd, hl⟩
  case isFalse hn =>
    exact ⟨by simp only [hs], .inl (by simp only [hs]), hp, hc, ht, ⟨hd, .inr <| .inr ⟨hf, hn⟩⟩, hl⟩

def encodeHead (hs : Hde64s) : Bytes :=
  encodeRex hs ++ encodeOpcode hs

-- A REX prefix is followed by another one, which is not stored.
def TwoRex (code : Nat → UInt8) (n : Nat) : Prop :=
  isRex (code n) ∧ isRex (code (n + 1))

-- What there is behind the prefixes
structure Ready (code : Nat → UInt8) (n : Nat) (l : Locals) (s : Place) : Prop where
  place   : s = ⟨n + 1, n + 1⟩
  c       : l.c = code n
  ht      : l.ht = 0
  opcode  : l.hs.opcode = 0
  opcode2 : l.hs.opcode2 = 0
  flags   : l.hs.flags &&& 0x4001ffff = 0
  imm     : l.hs.imm = replicate 8 0
  locked  : l.pref &&& preLock ≠ 0 ↔ Locked code n

structure Headed (code : Nat → UInt8) (n : Nat) (l : Locals) (s : Place) : Prop where
  pos     : s.pos = n + (encodeHead l.hs).length
  reach   : s.reach = s.pos
  bytes   : ¬TwoRex code n → slice code n (encodeHead l.hs).length = encodeHead l.hs
  clear   : l.hs.flags &&& 0x1c3ff = 0
  errors  : Consistent l.hs.flags
  imm     : l.hs.imm = replicate 8 0
  locked  : l.pref &&& preLock ≠ 0 ↔ Locked code n
  enter   : l.ht = 0 → l.opcode = 0xc8 → l.hs.opcode = 0xc8
  second  : l.hs.opcode2 ≠ 0 → l.hs.opcode = escape
  opcode  : l.cflags = 0 ∨ l.opcode = if l.hs.opcode = escape then l.hs.opcode2 else l.hs.opcode

theorem rex_bits : ∀ c : UInt8, isRex c →
    (0x40 : UInt8) ||| ((c &&& 0xf) >>> 3) <<< 3 ||| ((c &&& 7) >>> 2) <<< 2 ||| ((c &&& 3) >>> 1) <<< 1 ||| (c &&& 1) = c :=
  forall_uint8 (by decide +kernel)

theorem encodeHead_opcodeRead (h : OpcodeRead code l l' s s') (hr : s.reach = s.pos) (h2 : 0 < s.pos)
    (hc : l.c = code (s.pos - 1)) :
    encodeOpcode l'.hs = slice code (s.pos - 1) (encodeOpcode l'.hs).length ∧
    s'.pos = s.pos - 1 + (encodeOpcode l'.hs).length ∧ s'.reach = s'.pos := by
  rw [encodeOpcode, h.hs, h.place]
  dsimp only
  split
  case isTrue he =>
    have hp : s.pos - 1 + 1 = s.pos := by omega
    rw [escaped, if_pos he, length_cons, length_singleton, slice_succ, slice_one, ← hc, hp]
    exact ⟨rfl, by simp only; omega, rfl⟩
  case isFalse he =>
    rw [length_singleton, slice_one, ← hc]
    exact ⟨rfl, by omega, hr⟩

theorem not_has_rex {flags : UInt32} (h : flags &&& 0x4001ffff = 0) : ¬Has flags fPrefixRex :=
  not_has h rfl

theorem flags_and {flags flags' m : UInt32} (h : flags' = flags ∨ flags' = flags ||| (fError ||| fErrorOpcode))
    (hm : (fError ||| fErrorOpcode) &&& m = 0) : flags' &&& m = flags &&& m := by
  obtain rfl | rfl := h
  · rfl
  · rw [or_and_distrib_right, hm, UInt32.or_zero]

theorem consistent_flags {flags flags' : UInt32} (h : flags' = flags ∨ flags' = flags ||| (fError ||| fErrorOpcode))
    (hf : Consistent flags) : Consistent flags' := by
  obtain rfl | rfl := h
  · exact hf
  · exact hf.or (by decide)

namespace OpcodeRead

variable (h : OpcodeRead code l l' s s')

include h

theorem hs_opcode : l'.hs.opcode = l.c := by
  rw [h.hs]

theorem hs_opcode2 : l'.hs.opcode2 = escaped code l.c s 0 := by
  rw [h.hs]

theorem second (h2 : l'.hs.opcode2 ≠ 0) : l'.hs.opcode = escape := by
  rw [h.hs_opcode2, escaped] at h2
  rw [h.hs_opcode]
  by_contra hn
  exact h2 (if_neg hn)

theorem last : l'.opcode = if l'.hs.opcode = escape then l'.hs.opcode2 else l'.hs.opcode := by
  rw [h.opcode, h.hs_opcode, h.hs_opcode2, escaped, escaped]
  split <;> rfl

theorem enter (h0 : l'.ht = 0) (h8 : l'.opcode = 0xc8) : l'.hs.opcode = 0xc8 := by
  have hl : l.c ≠ escape := fun he => by
    rw [h.ht, if_pos he] at h0
    exact absurd h0 (by decide)
  rw [h.opcode, escaped, if_neg hl] at h8
  rw [h.hs_opcode, h8]

end OpcodeRead

theorem opcode_headed (h : Ready code n l s) : (opcode l).wp code s fun l' s' =>
    Headed code n l' s' ∧ Listed l'.ht l'.opcode l'.cflags := by
  obtain ⟨rfl, hc, hh, ho, h2, hf, hi, hk⟩ := h
  refine wp_mono (opcode_wp hh h2 rfl) fun l' s' hr => ?_
  have ⟨hb, hp, hreach⟩ := encodeHead_opcodeRead hr rfl (Nat.succ_pos _) hc
  have hx : ¬l'.hs.has fPrefixRex := by
    rw [Hde64s.has, Has, flags_and hr.flags rfl]
    exact not_has_rex hf
  have he : encodeHead l'.hs = encodeOpcode l'.hs := by
    rw [encodeHead, encodeRex, if_neg hx, nil_append]
  refine ⟨?_, hr.listed⟩
  exact {
    pos := by
      rw [he, hp]
      rfl
    reach := hreach
    bytes := fun _ => by
      rw [he]
      exact hb.symm
    clear  := by
      rw [flags_and hr.flags rfl]
      exact and_eq_zero hf rfl
    errors := consistent_flags hr.flags (consistent_of_and (and_eq_zero hf rfl))
    imm    := by
      rw [hr.hs]
      exact hi
    locked := by rw [hr.lock, hk]
    enter  := hr.enter
    second := hr.second
    opcode := .inr hr.last }

-- What there is behind a REX prefix
structure RexRead (code : Nat → UInt8) (n : Nat) (l : Locals) : Prop where
  c       : l.c = code (n + 1)
  ht      : l.ht = 0
  rex     : l.hs.has fPrefixRex
  encoded : encodeRex l.hs = [code n]
  opcode  : l.hs.opcode = 0
  opcode2 : l.hs.opcode2 = 0
  flags   : l.hs.flags &&& 0x1ffff = 0
  errors  : Consistent l.hs.flags
  imm     : l.hs.imm = replicate 8 0
  locked  : l.pref &&& preLock ≠ 0 ↔ Locked code n

theorem rex_wp (h : Ready code n l s) (hn : isRex (code n)) :
    (rex l).wp code s fun l' s' => s' = ⟨n + 2, n + 2⟩ ∧ RexRead code n l' := by
  obtain ⟨rfl, hc, hh, ho, h2, hf, hi, hk⟩ := h
  have hm : max (max (n + 1) (n + 1 + 1)) (n + 1 + 1) = n + 2 := by omega
  have hx : Has (l.hs.flags ||| fPrefixRex) fPrefixRex := has_or.mpr <| .inr (by decide)
  have hclear : (l.hs.flags ||| fPrefixRex) &&& 0x1ffff = 0 := or_and_eq_zero (and_eq_zero hf rfl) rfl
  simp only [rex, wp_bind, wp_peek, wp_next, wp_pure, hc, hm]
  exact ⟨trivial, {
    c       := rfl
    ht      := hh
    rex     := hx
    encoded := by simp only [encodeRex, Hde64s.has, if_pos hx, rex_bits _ hn]
    opcode  := ho
    opcode2 := h2
    flags   := hclear
    errors  := consistent_of_and (and_eq_zero hclear rfl)
    imm     := hi
    locked  := hk }⟩

theorem RexRead.twice (h : RexRead code n l) (hn : isRex (code n)) (hr : isRex l.c) :
    Headed code n (errorOpcode { l with opcode := l.c }) ⟨n + 2, n + 2⟩ where
  pos    := by
    have hx : (errorOpcode { l with opcode := l.c }).hs.has fPrefixRex := has_or.mpr <| .inl h.rex
    have ho : (errorOpcode { l with opcode := l.c }).hs.opcode = 0 := h.opcode
    rw [encodeHead, encodeRex, if_pos hx, encodeOpcode, ho]
    rfl
  reach  := rfl
  bytes  := fun ht => absurd ⟨hn, h.c ▸ hr⟩ ht
  clear  := or_and_eq_zero (and_eq_zero h.flags rfl) rfl
  errors := h.errors.or (by decide)
  imm    := h.imm
  locked := h.locked
  enter  := fun _ h8 => by
    have h8 : l.c = 0xc8 := h8
    rw [h8] at hr
    exact absurd hr (by decide)
  second := fun h2 => absurd h.opcode2 h2
  opcode := by
    have hop : ∀ c : UInt8, isRex c → ¬c &&& 0xfd = 0x24 := forall_uint8 (by decide +kernel)
    exact .inl (if_neg (hop _ hr))

theorem RexRead.once (h : RexRead code n l) (hr : OpcodeRead code l l' ⟨n + 2, n + 2⟩ s') : Headed code n l' s' := by
  obtain ⟨hb, hp, hreach⟩ := encodeHead_opcodeRead hr rfl (Nat.succ_pos _) h.c
  have hx : l'.hs.has fPrefixRex := by
    rw [Hde64s.has, Has, flags_and hr.flags rfl]
    exact h.rex
  have he : encodeHead l'.hs = code n :: encodeOpcode l'.hs := by
    have hrex := h.encoded
    rw [encodeRex, if_pos h.rex] at hrex
    rw [encodeHead, encodeRex, if_pos hx, hr.hs]
    exact congrArg (· ++ _) hrex
  exact {
    pos := by
      rw [he, hp, length_cons]
      simp only
      omega
    reach := hreach
    bytes := fun _ => by
      rw [he, length_cons, slice_succ]
      exact congrArg _ hb.symm
    clear  := by
      rw [flags_and hr.flags rfl]
      exact and_eq_zero h.flags rfl
    errors := consistent_flags hr.flags h.errors
    imm    := by
      rw [hr.hs]
      exact h.imm
    locked := by
      rw [hr.lock]
      exact h.locked
    enter  := hr.enter
    second := hr.second
    opcode := .inr hr.last }

theorem rexOpcode_headed (h : Ready code n l s) (hn : isRex (code n)) : (rexOpcode l).wp code s fun l' s' =>
    Headed code n l' s' ∧ Listed l'.ht l'.opcode l'.cflags := by
  rw [rexOpcode, wp_bind]
  refine wp_mono (rex_wp h hn) fun l₁ s₁ h₁ => ?_
  obtain ⟨rfl, h₁⟩ := h₁
  rw [wp_ite]
  split
  case isTrue hr =>
    rw [wp_pure]
    exact ⟨h₁.twice hn hr, listed_errorOpcode (.inl h₁.ht)⟩
  case isFalse => exact wp_mono (opcode_wp h₁.ht h₁.opcode2 rfl) fun _ _ hr => ⟨h₁.once hr, hr.listed⟩

theorem head_wp (h : Ready code n l s) :
    (if isRex l.c then rexOpcode l else opcode l).wp code s fun l' s' =>
      Headed code n l' s' ∧ Listed l'.ht l'.opcode l'.cflags := by
  rw [wp_ite, h.c]
  split
  case isTrue hn => exact rexOpcode_headed h hn
  case isFalse   => exact opcode_headed h

theorem Headed.group (h : Headed code n l s) (hl : Listed l.ht l.opcode l.cflags) :
    ∃ l', group l = some l' ∧ Headed code n l' s ∧ Formed l'.ht l'.opcode l'.cflags := by
  have ⟨cflags, x, hg, hf, hz⟩ := group_eq hl
  exact ⟨_, hg, { h with opcode := h.opcode.imp_left hz }, hf⟩

theorem Headed.flagIf {b : Bool} (h : Headed code n l s) :
    Headed code n { l with hs := l.hs.flagIf b (fError ||| fErrorOpcode) } s := by
  have he {f : UInt32} (h : (fError ||| fErrorOpcode) &&& f = 0) :
      (if b then fError ||| fErrorOpcode else 0) &&& f = 0 := by
    split
    · exact h
    · exact UInt32.zero_and
  have hx : Has (l.hs.flags ||| if b then fError ||| fErrorOpcode else 0) fPrefixRex ↔ Has l.hs.flags fPrefixRex := by
    rw [Has, or_and_distrib_right, he rfl, UInt32.or_zero]
    rfl
  have heq : encodeHead (l.hs.flagIf b (fError ||| fErrorOpcode)) = encodeHead l.hs := by
    simp only [encodeHead, encodeRex, encodeOpcode, Hde64s.flagIf, Hde64s.has, hx]
    rfl
  exact { h with
    pos := by
      rw [heq]
      exact h.pos
    bytes := by
      rw [heq]
      exact h.bytes
    clear  := or_and_eq_zero h.clear (he rfl)
    errors := h.errors.or (.ite (by decide)) }

end Opcode

end Hde

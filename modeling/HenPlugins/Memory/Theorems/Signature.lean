import HenPlugins.Memory.Pattern

open List CString

namespace Memory

-- The byte patterns of IDA, of which `PatternScan` takes the spelling.

inductive Token
  | literal (b : UInt8)
  | wildcard
deriving DecidableEq

namespace Token

inductive Spells : Token → Bytes → Prop
  | literal {h l : UInt8} {x y : Nat} (hx : hexDigit h = some x) (hy : hexDigit l = some y) :
    Spells (literal (16 * x + y).toUInt8) [h, l]
  | question  : Spells wildcard [question]
  | questions : Spells wildcard [question, question]

def Matches (b : UInt8) : Token → Prop
  | literal c => b = c
  | wildcard  => True

-- What the token is turned into by `pattern_to_byte`.
def byte : Token → UInt8
  | literal b => b
  | wildcard  => 0xff

instance {b : UInt8} : DecidablePred (Matches b)
  | literal c => inferInstanceAs (Decidable (b = c))
  | wildcard  => inferInstanceAs (Decidable True)

end Token

abbrev Signature := List Token

namespace Signature

-- The tokens are separated by single spaces.
inductive Spells : Signature → Bytes → Prop
  | single {t : Token} {w : Bytes} (h : t.Spells w) : Spells [t] w
  | cons {t : Token} {ts : Signature} {w s : Bytes} (h : t.Spells w) (hs : Spells ts s) :
    Spells (t :: ts) (w ++ space :: s)

def Matches (ts : Signature) (m : Mem) (x : Addr) : Prop :=
  ∀ j (h : j < ts.length), ts[j].Matches (m (x + .ofNat 64 j))

-- The token `FF` is taken for a wildcard.
def LooselyMatches (ts : Signature) (m : Mem) (x : Addr) : Prop :=
  ∀ j (h : j < ts.length), ts[j] = .literal 0xff ∨ ts[j].Matches (m (x + .ofNat 64 j))

instance {ts : Signature} {m : Mem} {x : Addr} : Decidable (ts.Matches m x) :=
  inferInstanceAs (Decidable (∀ j (h : j < ts.length), ts[j].Matches (m (x + .ofNat 64 j))))

instance {ts : Signature} {m : Mem} {x : Addr} : Decidable (ts.LooselyMatches m x) :=
  inferInstanceAs (Decidable (∀ j (h : j < ts.length), ts[j] = .literal 0xff ∨ ts[j].Matches (m (x + .ofNat 64 j))))

-- The address that belongs to the first match in the module.
structure Scan (ts : Signature) (m : Mem) (base : Addr) (size : Nat) (offset result : Addr) : Prop where
  first : ∀ i < size, ts.Matches m (base + .ofNat 64 i) → (∀ k < i, ¬ts.Matches m (base + .ofNat 64 k)) →
    result = base + .ofNat 64 i + offset
  none  : (∀ i < size, ¬ts.Matches m (base + .ofNat 64 i)) → result = 0

-- The first position at which all tokens other than `FF` match is a match. If it is not, it goes unnoticed
-- in case there is no match at all and its address looks like there was none.
def Unambiguous (ts : Signature) (m : Mem) (base : Addr) (size : Nat) (offset : Addr) : Prop :=
  ∀ i < size, ts.LooselyMatches m (base + .ofNat 64 i) → (∀ k < i, ¬ts.LooselyMatches m (base + .ofNat 64 k)) →
    ts.Matches m (base + .ofNat 64 i) ∨
      (base + .ofNat 64 i + offset = 0 ∧ ∀ k < size, ¬ts.Matches m (base + .ofNat 64 k))

instance {ts : Signature} {m : Mem} {base offset : Addr} {size : Nat} : Decidable (ts.Unambiguous m base size offset) :=
  @Nat.decidableBallLT size _ fun _ _ => inferInstance

end Signature

section

variable {c h l : UInt8} {n x y : Nat} {s : Bytes}

theorem hexDigit_lt (h : hexDigit c = some n) : n < 16 := by
  revert h
  fun_cases hexDigit c
  case case4 => simp
  all_goals
    intro h
    simp only [Bool.and_eq_true, decide_eq_true_eq, UInt8.le_iff_toNat_le, Option.some.injEq] at *
    rw [← h, UInt8.toNat_sub_of_le _ _ (UInt8.le_iff_toNat_le.mpr ?_)]
    all_goals
      simp only [UInt8.reduceToNat] at *
      omega

-- The characters that are treated in a special way are not digits.

theorem isspace_eq_false (h : hexDigit c = some n) : isspace c = false := by
  by_contra hs
  simp only [isspace, Bool.not_eq_false, Bool.or_eq_true, Bool.and_eq_true, decide_eq_true_eq] at hs
  cases hs
  case inl hs =>
    subst hs
    contradiction
  case inr hs =>
    simp only [hexDigit] at h
    grind

theorem ne_of_hexDigit {b : UInt8} (h : hexDigit c = some n) (hb : hexDigit b = none := by decide) : c ≠ b := by
  intro he
  rw [he, hb] at h
  contradiction

-- A number is read if the prefix `0x` is not seen in it.
theorem strtoull_digits {ds : Bytes} (hd : ∀ c ∈ ds, (hexDigit c).isSome) (hn : ds ≠ [])
    (hp : strtoullPrefix (ds ++ s) = ds ++ s) (hs : ∀ c ∈ s.head?, hexDigit c = none)
    (hv : ds.foldl (fun v c => 16 * v + (hexDigit c).getD 0) 0 < 2 ^ 64) :
    strtoull (ds ++ s) = (ds.foldl (fun v c => 16 * v + (hexDigit c).getD 0) 0, s) := by
  have ⟨h, ds', hds⟩ := exists_cons_of_ne_nil hn
  obtain ⟨x, hx⟩ := Option.isSome_iff_exists.mp (hd h (hds ▸ mem_cons_self))
  have hw : (ds ++ s).dropWhile isspace = ds ++ s := by
    rw [hds, cons_append, dropWhile_cons, isspace_eq_false hx, if_neg Bool.false_ne_true]
  have hg : strtoullSign (ds ++ s) = (false, ds ++ s) := by
    have hm : h ≠ 45 := ne_of_hexDigit hx
    have hp : h ≠ 43 := ne_of_hexDigit hx
    rw [hds, cons_append, strtoullSign.eq_def]
    split
    all_goals simp_all
  have ht : (ds ++ s).takeWhile (fun c => (hexDigit c).isSome) = ds := by
    rw [takeWhile_append_of_pos hd]
    cases s
    case nil      => simp
    case cons c s => simp [hs c rfl]
  simp only [strtoull, hw, hg, hp, ht, if_neg hn, if_neg (not_le.mpr hv), Bool.false_eq_true, if_false, drop_left]

theorem strtoull_pair (hx : hexDigit h = some x) (hy : hexDigit l = some y) (hs : ∀ c ∈ s.head?, hexDigit c = none) :
    strtoull (h :: l :: s) = (16 * x + y, s) := by
  have hp : strtoullPrefix ([h, l] ++ s) = [h, l] ++ s := by
    have hl : l ≠ 120 := ne_of_hexDigit hy
    have hL : l ≠ 88 := ne_of_hexDigit hy
    rw [strtoullPrefix.eq_def]
    split
    all_goals simp_all
  have hv : [h, l].foldl (fun v c => 16 * v + (hexDigit c).getD 0) 0 = 16 * x + y := by simp [hx, hy]
  have hl : 16 * x + y < 2 ^ 64 := by
    have hx := hexDigit_lt hx
    have hy := hexDigit_lt hy
    omega
  have he := strtoull_digits (by simp [hx, hy]) (cons_ne_nil h [l]) hp hs (hv ▸ hl)
  rwa [hv] at he

theorem strtoull_single (hx : hexDigit h = some x) (hs : ∀ c ∈ s.head?, hexDigit c = none ∧ c ≠ 120 ∧ c ≠ 88) :
    strtoull (h :: s) = (x, s) := by
  have hp : strtoullPrefix ([h] ++ s) = [h] ++ s := by
    rw [strtoullPrefix.eq_def]
    split
    all_goals simp_all
  have hv : [h].foldl (fun v c => 16 * v + (hexDigit c).getD 0) 0 = x := by simp [hx]
  have hl : x < 2 ^ 64 := (hexDigit_lt hx).trans (by decide)
  have he := strtoull_digits (by simp [hx]) (cons_ne_nil h []) hp (fun c hc => (hs c hc).left) (hv ▸ hl)
  rwa [hv] at he

end

namespace Signature

variable {t : Token} {ts : Signature} {m : Mem} {x base offset : Addr} {size i fuel : Nat} {w s signature : Bytes}

-- A token and the separator behind it are consumed by one round of the loop.
theorem patternToByteLoop_token (h : t.Spells w) (hs : ∀ c ∈ s.head?, c = space) :
    patternToByteLoop (fuel + 1) (w ++ s) = t.byte :: patternToByteLoop fuel (s.drop 1) := by
  cases h
  case literal hx hy =>
    have hn : ∀ c ∈ s.head?, hexDigit c = none := fun c hc => hs c hc ▸ rfl
    have hq : _ ≠ question := ne_of_hexDigit hx
    simp only [patternToByteLoop, cons_append, nil_append, if_neg hq, strtoull_pair hx hy hn, Token.byte]
  case question =>
    have hn : s.head? ≠ some question := fun hc => absurd (hs _ hc) (by decide)
    simp only [patternToByteLoop, cons_append, nil_append, if_true, if_neg hn, Token.byte]
  case questions =>
    simp [patternToByteLoop, Token.byte]

theorem length_pos (h : t.Spells w) : 0 < w.length := by
  cases h
  all_goals simp

-- The bytes of a signature are the ones of its tokens.
theorem patternToByteLoop_eq (h : Spells ts signature) (hf : signature.length ≤ fuel) :
    patternToByteLoop fuel signature = ts.map Token.byte := by
  induction h generalizing fuel
  case single t w h =>
    have hw := length_pos h
    obtain ⟨fuel, rfl⟩ := Nat.exists_eq_add_of_le' (hw.trans_le hf)
    have ht := @patternToByteLoop_token t fuel w [] h (by simp)
    rw [append_nil] at ht
    rw [ht]
    cases fuel
    all_goals rfl
  case cons t ts w s h hs hi =>
    have hw := length_pos h
    simp only [length_append, length_cons] at hf
    obtain ⟨fuel, rfl⟩ := Nat.exists_eq_add_of_le' (hw.trans_le (Nat.le_of_add_right_le hf))
    rw [patternToByteLoop_token h (by simp), drop_one, tail_cons, hi (by omega), map_cons]

theorem patternToByte_eq (h : Spells ts signature) : patternToByte signature = ts.map Token.byte :=
  patternToByteLoop_eq h le_rfl

theorem found_iff_looselyMatches : found m x (ts.map Token.byte) ↔ ts.LooselyMatches m x := by
  rw [found_iff, LooselyMatches]
  simp only [length_map, getElem_map]
  apply forall₂_congr
  intro j hj
  cases ts[j]
  case literal b => simp [Token.byte, Token.Matches, or_comm]
  case wildcard => simp [Token.byte, Token.Matches]

theorem Matches.loosely (h : ts.Matches m x) : ts.LooselyMatches m x :=
  fun j hj => .inr (h j hj)

theorem scannable (hs : Spells ts signature) (hl : ts.length < maxPatternLength) :
    Scannable (patternToByte signature) := by
  rw [Scannable, patternToByte_eq hs, length_map]
  cases hs
  case single => exact ⟨by simp, hl⟩
  case cons   => exact ⟨by simp, hl⟩

theorem patternScan_eq_of_first (hs : Spells ts signature) (hl : ts.length < maxPatternLength) (hb : base ≠ 0)
    (hi : i < size) (h : ts.LooselyMatches m (base + .ofNat 64 i))
    (hn : ∀ k < i, ¬ts.LooselyMatches m (base + .ofNat 64 k)) :
    patternScan m base size signature offset = base + .ofNat 64 i + offset := by
  apply patternScan_eq hb (scannable hs hl) hi
  case hf => rwa [patternToByte_eq hs, found_iff_looselyMatches]
  case hn =>
    intro k hk
    rw [patternToByte_eq hs, found_iff_looselyMatches]
    exact hn k hk

theorem patternScan_eq_zero_of_none (hs : Spells ts signature)
    (hn : ∀ i < size, ¬ts.LooselyMatches m (base + .ofNat 64 i)) :
    patternScan m base size signature offset = 0 := by
  apply patternScan_eq_zero
  intro _ i hi
  rw [patternToByte_eq hs, found_iff_looselyMatches]
  exact hn i hi

-- There is one address for each position.
theorem add_inj {k : Nat} (hz : size ≤ 2 ^ 64) (hi : i < size) (hk : k < size)
    (h : base + .ofNat 64 i + offset = base + .ofNat 64 k + offset) : i = k := by
  have h := congrArg BitVec.toNat <| BitVec.add_right_inj base |>.mp <| BitVec.add_left_inj offset |>.mp h
  rwa [BitVec.toNat_ofNat, BitVec.toNat_ofNat, Nat.mod_eq_of_lt (by omega), Nat.mod_eq_of_lt (by omega)] at h

-- What decides is the first position at which the pattern is found.
theorem scan_iff_of_first {result : Addr} (hz : size ≤ 2 ^ 64) (hi : i < size)
    (hn : ∀ k < i, ¬ts.Matches m (base + .ofNat 64 k)) (hr : result = base + .ofNat 64 i + offset) :
    ts.Scan m base size offset result ↔
      ts.Matches m (base + .ofNat 64 i) ∨ (result = 0 ∧ ∀ k < size, ¬ts.Matches m (base + .ofNat 64 k)) := by
  constructor
  case mp =>
    intro hs
    by_cases hm : ∃ k < size, ts.Matches m (base + .ofNat 64 k)
    case pos =>
      have ⟨k, hk, hm, hf⟩ := exists_least hm
      have he := hs.first k hk hm hf
      exact .inl <| add_inj hz hi hk (hr.symm.trans he) ▸ hm
    case neg =>
      simp only [not_exists, not_and] at hm
      exact .inr ⟨hs.none hm, hm⟩
  case mpr =>
    intro h
    cases h
    case inl hm =>
      constructor
      case none => exact fun h => absurd hm (h i hi)
      case first =>
        intro k hk hk' hf
        have he : k = i := le_antisymm (not_lt.mp fun hl => hf i hl hm) (not_lt.mp fun hl => hn k hl hk')
        rw [he, hr]
    case inr h =>
      constructor
      case none  => exact fun _ => h.left
      case first => exact fun k hk hm => absurd hm (h.right k hk)

-- Exactly the modules in which `FF` does not lead astray are scanned as the signature says.
theorem scan_patternScan_iff (hs : Spells ts signature) (hl : ts.length < maxPatternLength) (hb : base ≠ 0)
    (hz : size < 2 ^ 64) :
    ts.Scan m base size offset (patternScan m base size signature offset) ↔ ts.Unambiguous m base size offset := by
  by_cases hm : ∃ i < size, ts.LooselyMatches m (base + .ofNat 64 i)
  case pos =>
    have ⟨i, hi, hm, hf⟩ := exists_least hm
    have hr := @patternScan_eq_of_first _ _ _ offset _ _ _ hs hl hb hi hm hf
    rw [scan_iff_of_first hz.le hi (fun k hk h => hf k hk h.loosely) hr, hr]
    constructor
    case mpr => exact fun h => h i hi hm hf
    case mp =>
      intro h k hk hm' hf'
      have he : k = i := le_antisymm (not_lt.mp fun hl => hf' i hl hm) (not_lt.mp fun hl => hf k hl hm')
      rwa [he]
  case neg =>
    simp only [not_exists, not_and] at hm
    rw [patternScan_eq_zero_of_none hs hm]
    constructor
    case mp  => exact fun _ i hi h => absurd h (hm i hi)
    case mpr =>
      intro _
      constructor
      case none  => exact fun _ => rfl
      case first => exact fun i hi h => absurd h.loosely (hm i hi)

def callSample : Mem :=
  fun x => [0x90, 0x4c, 0x8b, 0xff][(x - 0x400000).toNat]?.getD 0

theorem spells_callSample : Spells [.literal 0x4c, .wildcard, .literal 0xff] [52, 67, 32, 63, 63, 32, 70, 102] :=
  .cons (.literal (x := 4) (y := 12) rfl rfl) <| .cons .questions <| .single (.literal (x := 15) (y := 15) rfl rfl)

theorem scan_patternScan_sample :
    Scan [.literal 0x4c, .wildcard, .literal 0xff] callSample 0x400000 4 2
      (patternScan callSample 0x400000 4 [52, 67, 32, 63, 63, 32, 70, 102] 2) :=
  (scan_patternScan_iff spells_callSample (by decide) (by decide) (by decide)).mpr (by decide)

-- Every byte is taken for `FF`.
theorem patternScan_fails : Spells [.literal 0xff] [70, 70] ∧
    ¬Scan [.literal 0xff] (fun x => if x = 0x400001 then 0xff else 0x90) 0x400000 2 0
      (patternScan (fun x => if x = 0x400001 then 0xff else 0x90) 0x400000 2 [70, 70] 0) := by
  constructor
  case left  => exact .single (.literal (x := 15) (y := 15) rfl rfl)
  case right => exact fun h => absurd (h.first 1 (by decide) (by decide) (by decide)) (by decide)

end Signature
end Memory

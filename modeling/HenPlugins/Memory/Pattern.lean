import HenPlugins.Library.Memory

open List CString

namespace Memory

abbrev question : UInt8 := 63

def hexDigit (c : UInt8) : Option Nat :=
  if 48 ≤ c && c ≤ 57 then some (c - 48).toNat
  else if 97 ≤ c && c ≤ 102 then some (c - 87).toNat
  else if 65 ≤ c && c ≤ 70 then some (c - 55).toNat
  else none

-- Whether there is a minus sign, and what follows the sign.
def strtoullSign : Bytes → Bool × Bytes
  | 45 :: s => (true, s)
  | 43 :: s => (false, s)
  | s       => (false, s)

-- The prefix `0x` is only skipped in front of a digit.
def strtoullPrefix : Bytes → Bytes
  | 48 :: x :: d :: s =>
    if (x = 120 || x = 88) && (hexDigit d).isSome then d :: s else 48 :: x :: d :: s
  | s => s

-- `strtoull(s, &end, 16)`, with what is left of `s` at `end`. Nothing is consumed without a digit.
def strtoull (s : Bytes) : Nat × Bytes :=
  let (neg, t) := strtoullSign (s.dropWhile isspace)
  let t        := strtoullPrefix t
  let digits   := t.takeWhile fun c => (hexDigit c).isSome
  let value    := digits.foldl (fun v c => 16 * v + (hexDigit c).getD 0) 0
  if digits = [] then (0, s)
  else if 2 ^ 64 ≤ value then (2 ^ 64 - 1, t.drop digits.length)
  else (if neg then (2 ^ 64 - value) % 2 ^ 64 else value, t.drop digits.length)

-- The loop of `pattern_to_byte`. Each round consumes a character, so the length of the pattern is
-- enough fuel. The last `drop 1` is the `++current` of the loop.
def patternToByteLoop : (fuel : Nat) → Bytes → Bytes
  | 0, _        => []
  | _ + 1, []   => []
  | fuel + 1, c :: s =>
    if c = question then
      let s := if s.head? = question then s.drop 1 else s
      0xff :: patternToByteLoop fuel (s.drop 1)
    else
      let (value, s) := strtoull (c :: s)
      value.toUInt8 :: patternToByteLoop fuel (s.drop 1)

def patternToByte (pattern : Bytes) : Bytes :=
  patternToByteLoop pattern.length pattern

abbrev maxPatternLength := 512

-- The inner loop of `PatternScan`. The byte `0xff` matches everything.
def found (m : Mem) (x : Addr) (patternBytes : Bytes) : Bool :=
  patternBytes.zipIdx.all fun (b, j) => m (x + .ofNat 64 j) = b || b = 0xff

-- Patterns that do not fit into the array are rejected: what they overwrite behind it is not modelled.
def patternScan (m : Mem) (moduleBase : Addr) (moduleSize : Nat) (signature : Bytes) (offset : Addr) : Addr :=
  if moduleBase = 0 ∨ moduleSize = 0 then 0
  else
    let patternBytes := patternToByte signature
    if patternBytes.length = 0 ∨ patternBytes.length ≥ maxPatternLength then 0
    else
      match (List.range moduleSize).find? fun i => found m (moduleBase + .ofNat 64 i) patternBytes with
      | none   => 0
      | some i => moduleBase + .ofNat 64 i + offset

-- The patterns that `PatternScan` does not reject.
def Scannable (patternBytes : Bytes) : Prop :=
  patternBytes.length ≠ 0 ∧ patternBytes.length < maxPatternLength

section

variable {m m' : Mem} {x base offset : Addr} {p signature : Bytes} {size : Nat}

theorem found_iff : found m x p ↔ ∀ j (h : j < p.length), m (x + .ofNat 64 j) = p[j] ∨ p[j] = 0xff := by
  simp only [found, all_eq_true, Bool.or_eq_true, decide_eq_true_eq, Prod.forall, mem_zipIdx_iff_getElem?,
    getElem?_eq_some_iff]
  exact ⟨fun h j hj => h p[j] j ⟨hj, rfl⟩, fun h b j ⟨hj, hb⟩ => hb ▸ h j hj⟩

theorem found_congr (h : Set.EqOn m m' (Mem.region x p.length)) : found m x p = found m' x p := by
  rw [Bool.eq_iff_iff, found_iff, found_iff]
  apply forall₂_congr
  intro j hj
  rw [h (Mem.add_mem_region hj)]

theorem found_append {q : Bytes} : found m x (p ++ q) ↔ found m x p ∧ found m (x + .ofNat 64 p.length) q := by
  simp only [found_iff, length_append]
  constructor
  case mp =>
    intro h
    constructor
    case left =>
      intro j hj
      have h := h j (by omega)
      rwa [getElem_append_left hj] at h
    case right =>
      intro j hj
      have h := h (p.length + j) (by omega)
      rw [getElem_append_right (by omega), BitVec.ofNat_add, ← BitVec.add_assoc] at h
      simpa only [Nat.add_sub_cancel_left] using h
  case mpr =>
    intro ⟨h, h'⟩ j hj
    by_cases hl : j < p.length
    case pos =>
      rw [getElem_append_left hl]
      exact h j hl
    case neg =>
      have h' := h' (j - p.length) (by omega)
      rwa [BitVec.add_assoc, ← BitVec.ofNat_add, Nat.add_sub_cancel' (by omega),
        ← getElem_append_right (by omega)] at h'

theorem found_cons {b : UInt8} : found m x (b :: p) ↔ (m x = b ∨ b = 0xff) ∧ found m (x + 1) p := by
  rw [← singleton_append, found_append]
  simp [found]

-- The search for the first position below a bound.
theorem exists_least {P : Nat → Prop} (h : ∃ i < size, P i) : ∃ i < size, P i ∧ ∀ k < i, ¬P k := by
  classical
  have ⟨i, ⟨hi, hp⟩, hn⟩ := Nat.findX h
  exact ⟨i, hi, hp, fun k hk hp => hn k hk ⟨hk.trans hi, hp⟩⟩

-- The first match in the module is the one that is found.
theorem patternScan_eq {i : Nat} (hb : base ≠ 0) (hp : Scannable (patternToByte signature)) (hi : i < size)
    (hf : found m (base + .ofNat 64 i) (patternToByte signature))
    (hn : ∀ j < i, ¬found m (base + .ofNat 64 j) (patternToByte signature)) :
    patternScan m base size signature offset = base + .ofNat 64 i + offset := by
  have hs : size ≠ 0 := by omega
  have hr : (List.range size).find? (fun i => found m (base + .ofNat 64 i) (patternToByte signature)) = some i := by
    apply find?_range_eq_some.mpr
    exact ⟨hf, mem_range.mpr hi, fun j hj => by simp [hn j hj]⟩
  simp only [patternScan, hb, hs, hp.left, not_le.mpr hp.right, or_self, if_false, hr]

theorem patternScan_eq_zero (h : Scannable (patternToByte signature) →
    ∀ i < size, ¬found m (base + .ofNat 64 i) (patternToByte signature)) :
    patternScan m base size signature offset = 0 := by
  simp only [patternScan]
  split_ifs
  case neg hp =>
    have hn : (List.range size).find? (fun i => found m (base + .ofNat 64 i) (patternToByte signature)) = none := by
      rw [not_or, ge_iff_le, not_le] at hp
      exact find?_range_eq_none.mpr fun i hi => by simp [h hp i hi]
    rw [hn]
  all_goals rfl

-- A result other than null belongs to a match in the module.
theorem exists_found (h : patternScan m base size signature offset ≠ 0) :
    ∃ x ∈ Mem.region base size, found m x (patternToByte signature) ∧
      patternScan m base size signature offset = x + offset := by
  revert h
  fun_cases patternScan m base size signature offset
  case case4 i hi =>
    intro _
    have ⟨hf, hr, _⟩ := find?_range_eq_some.mp hi
    exact ⟨_, Mem.add_mem_region (mem_range.mp hr), hf, rfl⟩
  all_goals simp

end

end Memory

import HenPlugins.Memory.ChunkRead
import HenPlugins.Memory.Theorems.ChunkScan
import HenPlugins.Memory.Theorems.Signature

open List StateTransition

namespace Memory

variable {patternOffset memStart : Addr} {memSz : BitVec 64} {remote : Mem} {pattern : Bytes} {initial : Nat → UInt8}
  {env : Surroundings patternOffset} {ts : Signature} {x k j : Nat}

-- The contents of the array before a round.
def contents (env : Surroundings patternOffset) (remote : Mem) (memStart : Addr) (initial : Nat → UInt8) :
    (round : Nat) → Nat → UInt8
  | 0         => initial
  | round + 1 =>
    env.read round remote (memStart + .ofNat 64 (chunkSize * round)) (contents env remote memStart initial round)

-- What a round compares the signature to.
def compared (env : Surroundings patternOffset) (remote : Mem) (memStart : Addr) (initial : Nat → UInt8)
    (round : Nat) : Mem :=
  env.fill round (contents env remote memStart initial (round + 1))

abbrev atRound (env : Surroundings patternOffset) (remote : Mem) (memStart : Addr) (initial : Nat → UInt8)
    (round : Nat) : ReadState :=
  .scanning round (.ofNat 64 (chunkSize * round)) (contents env remote memStart initial round)

-- The comparison succeeds at the given position. The positions of all rounds are numbered consecutively.
structure ReadHit (env : Surroundings patternOffset) (remote : Mem) (memStart : Addr) (memSz : BitVec 64)
    (pattern : Bytes) (initial : Nat → UInt8) (x : Nat) : Prop where
  entered   : ∀ k ≤ x / chunkSize, BitVec.ofNat 64 (chunkSize * k) < memSz - .ofNat 64 chunkSize
  scannable : Scannable (patternToByte pattern)
  found     : found (compared env remote memStart initial (x / chunkSize)) (env.mem + .ofNat 64 (x % chunkSize))
    (patternToByte pattern)

structure FirstReadHit (env : Surroundings patternOffset) (remote : Mem) (memStart : Addr) (memSz : BitVec 64)
    (pattern : Bytes) (initial : Nat → UInt8) (x : Nat) : Prop
    extends ReadHit env remote memStart memSz pattern initial x where
  first : ∀ y < x, ¬ReadHit env remote memStart memSz pattern initial y

section Step

theorem readStep_of_hit (hj : j < chunkSize)
    (h : FirstReadHit env remote memStart memSz pattern initial (chunkSize * k + j)) :
    pidChunkReadStep env remote memStart memSz pattern (atRound env remote memStart initial k) =
      some (.returned (memStart + .ofNat 64 (chunkSize * k + j) + patternOffset)) := by
  have ⟨hd, hm⟩ := @chunk_div_mod k j hj
  have he := h.entered
  have hf := h.found
  rw [hd] at he hf
  rw [hm] at hf
  have hp : patternScan (compared env remote memStart initial k) env.mem chunkSize pattern patternOffset =
      env.mem + .ofNat 64 j + patternOffset := by
    apply patternScan_eq env.mem_ne h.scannable hj hf
    intro i hi hf
    have ⟨hd, hm⟩ := @chunk_div_mod k i (hi.trans hj)
    exact h.first _ (by omega) { entered := hd.symm ▸ he, scannable := h.scannable, found := hd.symm ▸ hm.symm ▸ hf }
  rw [compared, contents] at hp
  simp only [pidChunkReadStep, he k le_rfl, if_true, hp, ne_eq, env.found_ne j hj, not_false_eq_true, chunk_address]

theorem readStep_of_not_hit (he : ∀ l ≤ k, BitVec.ofNat 64 (chunkSize * l) < memSz - .ofNat 64 chunkSize)
    (hn : ∀ y < chunkSize * (k + 1), ¬ReadHit env remote memStart memSz pattern initial y) :
    pidChunkReadStep env remote memStart memSz pattern (atRound env remote memStart initial k) =
      some (atRound env remote memStart initial (k + 1)) := by
  have hp : patternScan (compared env remote memStart initial k) env.mem chunkSize pattern patternOffset = 0 := by
    apply patternScan_eq_zero
    intro hs i hi hf
    have ⟨hd, hm⟩ := @chunk_div_mod k i hi
    rw [Nat.mul_succ] at hn
    exact hn _ (by omega) { entered := hd.symm ▸ he, scannable := hs, found := hd.symm ▸ hm.symm ▸ hf }
  rw [compared, contents] at hp
  rw [atRound, atRound, Nat.mul_succ, BitVec.ofNat_add, contents]
  simp only [pidChunkReadStep, he k le_rfl, if_true, hp, ne_eq, not_true_eq_false, if_false]

end Step

section Run

-- Without a hit, the loop goes from round to round.
theorem reaches_atRound (he : ∀ l < k, BitVec.ofNat 64 (chunkSize * l) < memSz - .ofNat 64 chunkSize)
    (hn : ∀ y < chunkSize * k, ¬ReadHit env remote memStart memSz pattern initial y) :
    Reaches (pidChunkReadStep env remote memStart memSz pattern) (.scanning 0 0 initial)
      (atRound env remote memStart initial k) := by
  induction k
  case zero => exact .refl
  case succ k hi =>
    have hr := hi (fun l hl => he l (by omega)) fun y hy => hn y (hy.trans_le (Nat.mul_le_mul_left _ k.le_succ))
    exact hr.tail (readStep_of_not_hit (fun l hl => he l (by omega)) hn)

theorem FirstReadHit.reaches (h : FirstReadHit env remote memStart memSz pattern initial x) :
    Reaches (pidChunkReadStep env remote memStart memSz pattern) (.scanning 0 0 initial)
      (.returned (memStart + .ofNat 64 x + patternOffset)) := by
  have hx := Nat.div_add_mod x chunkSize
  have hr := reaches_atRound (k := x / chunkSize) (fun l hl => h.entered l hl.le) fun y hy => h.first y (by omega)
  have hs := readStep_of_hit (k := x / chunkSize) (Nat.mod_lt x (by decide)) (hx.symm ▸ h)
  rw [hx] at hs
  exact hr.tail hs

-- A round is entered without a hit before, and what is returned is the first hit.
def Traced (env : Surroundings patternOffset) (remote : Mem) (memStart : Addr) (memSz : BitVec 64) (pattern : Bytes)
    (initial : Nat → UInt8) : ReadState → Prop
  | .returned a => a ≠ 0 →
    ∃ x, FirstReadHit env remote memStart memSz pattern initial x ∧ a = memStart + .ofNat 64 x + patternOffset
  | s => ∃ k, s = atRound env remote memStart initial k ∧
    (∀ l < k, BitVec.ofNat 64 (chunkSize * l) < memSz - .ofNat 64 chunkSize) ∧
    ∀ y < chunkSize * k, ¬ReadHit env remote memStart memSz pattern initial y

theorem traced_step {s s' : ReadState} (hs : pidChunkReadStep env remote memStart memSz pattern s = some s')
    (h : Traced env remote memStart memSz pattern initial s) :
    Traced env remote memStart memSz pattern initial s' := by
  cases s
  case returned a => simp [pidChunkReadStep] at hs
  case scanning round i array =>
    obtain ⟨k, he, hl, hn⟩ := h
    rw [he] at hs
    by_cases hb : BitVec.ofNat 64 (chunkSize * k) < memSz - .ofNat 64 chunkSize
    case neg =>
      simp only [pidChunkReadStep, hb, if_false, Option.some.injEq] at hs
      exact hs ▸ fun h => absurd rfl h
    case pos =>
      have hl : ∀ l ≤ k, BitVec.ofNat 64 (chunkSize * l) < memSz - .ofNat 64 chunkSize := fun l h =>
        h.lt_or_eq.elim (hl l) fun h => h ▸ hb
      by_cases hh : ∃ y < chunkSize * (k + 1), ReadHit env remote memStart memSz pattern initial y
      case neg =>
        simp only [not_exists, not_and] at hh
        rw [readStep_of_not_hit hl hh, Option.some.injEq] at hs
        exact hs ▸ ⟨k + 1, rfl, fun l h => hl l (by omega), hh⟩
      case pos =>
        have ⟨y, hy, hy', hf⟩ := exists_least hh
        obtain ⟨j, rfl⟩ := Nat.exists_eq_add_of_le (not_lt.mp fun hlt => hn y hlt hy')
        have hfirst : FirstReadHit env remote memStart memSz pattern initial (chunkSize * k + j) := { hy' with first := hf }
        rw [Nat.mul_succ] at hy
        rw [readStep_of_hit (by omega) hfirst, Option.some.injEq] at hs
        exact hs ▸ fun _ => ⟨_, hfirst, rfl⟩

-- An address is returned if and only if the first hit is there.
theorem reaches_returned_iff {a : Addr} (ha : a ≠ 0) :
    Reaches (pidChunkReadStep env remote memStart memSz pattern) (.scanning 0 0 initial) (.returned a) ↔
      ∃ x, FirstReadHit env remote memStart memSz pattern initial x ∧ a = memStart + .ofNat 64 x + patternOffset := by
  constructor
  case mpr => exact fun ⟨x, h, he⟩ => he ▸ h.reaches
  case mp =>
    intro h
    have ht : Traced env remote memStart memSz pattern initial (.returned a) :=
      Run.invariant h (fun _ _ => traced_step) ⟨0, rfl, by simp, by simp⟩
    exact ht ha

end Run

section Refinement

variable {buffer : Buffer patternOffset}

-- What surrounds the array if every read copies the whole chunk.
def Buffer.surroundings (buffer : Buffer patternOffset) : Surroundings patternOffset where
  mem          := buffer.mem
  mem_ne       := buffer.mem_ne
  found_ne     := buffer.found_ne
  stack round  := buffer.stack (.ofNat 64 (chunkSize * round))
  copied _ _   := true

inductive Corresponds : ReadState → ScanState → Prop
  | scanning (round : Nat) (array : Nat → UInt8) :
    Corresponds (.scanning round (.ofNat 64 (chunkSize * round)) array) (.scanning (.ofNat 64 (chunkSize * round)))
  | returned (found : Addr) : Corresponds (.returned found) (.returned found)

theorem fill_surroundings {array : Nat → UInt8} {a : Addr} :
    buffer.surroundings.fill k (buffer.surroundings.read k remote a array) =
      buffer.fill (.ofNat 64 (chunkSize * k)) (remote.read a chunkSize) :=
  rfl

-- If no read fails, the scan is the one that reads the chunks as they are.
theorem respects_pidChunkScanStep : Respects (pidChunkReadStep buffer.surroundings remote memStart memSz pattern)
    (pidChunkScanStep buffer remote memStart memSz pattern) Corresponds := by
  apply Run.respects
  intro a b h
  cases h
  case returned => exact .none
  case scanning k array =>
    have hm : buffer.surroundings.mem = buffer.mem := rfl
    simp only [pidChunkReadStep, pidChunkScanStep, fill_surroundings, hm]
    split_ifs
    case pos => exact .some (.returned _)
    case neg =>
      rw [← BitVec.ofNat_add, ← Nat.mul_succ]
      exact .some (.scanning (k + 1) _)
    case neg => exact .some (.returned 0)

end Refinement

-- What is returned is where the signature is in the memory of the other process.
def Genuine (env : Surroundings patternOffset) (remote : Mem) (memStart : Addr) (memSz : BitVec 64) (pattern : Bytes)
    (initial : Nat → UInt8) (ts : Signature) : Prop :=
  ∀ a, Reaches (pidChunkReadStep env remote memStart memSz pattern) (.scanning 0 0 initial) (.returned a) → a ≠ 0 →
    ts.Matches remote (a - patternOffset)

-- The tokens that are not compared to the memory at all or not as they are: `FF`, those that go beyond the chunk,
-- and those that stand at bytes that the last read has not copied.
def Doubtful (env : Surroundings patternOffset) (ts : Signature) (x j : Nat) : Prop :=
  ts[j]? = some (.literal 0xff) ∨ chunkSize ≤ x % chunkSize + j ∨ env.copied (x / chunkSize) (x % chunkSize + j) = false

-- Inside of the array, its contents are compared.
theorem compared_apply (hj : j < chunkSize) : compared env remote memStart initial k (env.mem + .ofNat 64 j) =
    contents env remote memStart initial (k + 1) j := by
  have hl : j < ((List.range chunkSize).map (contents env remote memStart initial (k + 1))).length := by
    rwa [length_map, length_range]
  have hr : ((List.range chunkSize).map (contents env remote memStart initial (k + 1))).length ≤ 2 ^ 64 := by
    rw [length_map, length_range]
    decide
  rw [compared, Surroundings.fill, Mem.write_apply hl hr, getElem_map, getElem_range]

theorem contents_of_copied (hc : env.copied k j = true) :
    contents env remote memStart initial (k + 1) j = remote (memStart + .ofNat 64 (chunkSize * k + j)) := by
  rw [contents, Surroundings.read, if_pos hc, BitVec.add_assoc, ← BitVec.ofNat_add]

theorem contents_of_not_copied (hc : env.copied k j = false) :
    contents env remote memStart initial (k + 1) j = contents env remote memStart initial k j := by
  rw [contents, Surroundings.read, hc, if_neg Bool.false_ne_true]

-- The last round, up to the given one, whose read has copied a byte of the array.
def lastCopied (env : Surroundings patternOffset) (k j : Nat) : Option Nat :=
  (List.range (k + 1)).reverse.find? (env.copied · j)

-- What is known of a byte of the array in a round: the memory it has last been copied from, or what was there at first.
def held (env : Surroundings patternOffset) (remote : Mem) (memStart : Addr) (initial : Nat → UInt8) (k j : Nat) : UInt8 :=
  match lastCopied env k j with
  | some r => remote (memStart + .ofNat 64 (chunkSize * r + j))
  | none   => initial j

-- The signature fits to the bytes of the array, as far as it does not go beyond the chunk.
structure Plausible (env : Surroundings patternOffset) (remote : Mem) (memStart : Addr) (memSz : BitVec 64)
    (initial : Nat → UInt8) (ts : Signature) (x : Nat) : Prop where
  entered : ∀ k ≤ x / chunkSize, BitVec.ofNat 64 (chunkSize * k) < memSz - .ofNat 64 chunkSize
  short   : ts.length < maxPatternLength
  fits    : ∀ j (h : j < ts.length), x % chunkSize + j < chunkSize →
    ts[j] = .literal 0xff ∨ ts[j].Matches (held env remote memStart initial (x / chunkSize) (x % chunkSize + j))

-- The signature is in the memory of the other process, inside of one chunk, and all of it has been copied.
structure Sure (env : Surroundings patternOffset) (remote : Mem) (memStart : Addr) (memSz : BitVec 64) (ts : Signature)
    (x : Nat) : Prop where
  entered : ∀ k ≤ x / chunkSize, BitVec.ofNat 64 (chunkSize * k) < memSz - .ofNat 64 chunkSize
  certain : ∀ j < ts.length, ¬Doubtful env ts x j
  isMatch : ts.Matches remote (memStart + .ofNat 64 x)

theorem lastCopied_zero : lastCopied env 0 j = if env.copied 0 j then some 0 else none := by
  rw [lastCopied, zero_add, range_one, reverse_singleton, find?_singleton]

theorem lastCopied_succ : lastCopied env (k + 1) j = if env.copied (k + 1) j then some (k + 1) else lastCopied env k j := by
  rw [lastCopied, lastCopied, List.range_succ, reverse_append, reverse_singleton, singleton_append, find?_cons]
  cases env.copied (k + 1) j <;> rfl

theorem contents_eq_held : contents env remote memStart initial (k + 1) j = held env remote memStart initial k j := by
  induction k
  case zero =>
    cases hc : env.copied 0 j
    case true  => rw [contents_of_copied hc, held, lastCopied_zero, if_pos hc]
    case false => rw [contents_of_not_copied hc, held, lastCopied_zero, hc, if_neg Bool.false_ne_true, contents]
  case succ k hi =>
    cases hc : env.copied (k + 1) j
    case true  => rw [contents_of_copied hc, held, lastCopied_succ, if_pos hc]
    case false => rw [contents_of_not_copied hc, hi, held, held, lastCopied_succ, hc, if_neg Bool.false_ne_true]

theorem matches_compared_iff (hj : j < ts.length) (hd : ¬Doubtful env ts x j) :
    ts[j].Matches (compared env remote memStart initial (x / chunkSize)
      (env.mem + .ofNat 64 (x % chunkSize) + .ofNat 64 j)) ↔ ts[j].Matches (remote (memStart + .ofNat 64 (x + j))) := by
  rw [Doubtful, not_or, not_or, not_le, Bool.not_eq_false] at hd
  have ⟨_, hl, hc⟩ := hd
  rw [BitVec.add_assoc, ← BitVec.ofNat_add, compared_apply hl, contents_of_copied hc, ← Nat.add_assoc, Nat.div_add_mod]

section Hit

variable (hs : ts.Spells pattern)

include hs

theorem ReadHit.looselyMatches (h : ReadHit env remote memStart memSz pattern initial x) :
    ts.LooselyMatches (compared env remote memStart initial (x / chunkSize)) (env.mem + .ofNat 64 (x % chunkSize)) := by
  have hf := h.found
  rwa [Signature.patternToByte_eq hs, Signature.found_iff_looselyMatches] at hf

theorem ReadHit.plausible (h : ReadHit env remote memStart memSz pattern initial x) :
    Plausible env remote memStart memSz initial ts x where
  entered := h.entered
  short   := by
    have hl := h.scannable.right
    rwa [Signature.patternToByte_eq hs, length_map] at hl
  fits j hj hl := by
    have hf := h.looselyMatches hs j hj
    rwa [BitVec.add_assoc, ← BitVec.ofNat_add, compared_apply hl, contents_eq_held] at hf

theorem ReadHit.matches (h : ReadHit env remote memStart memSz pattern initial x)
    (hc : ∀ j < ts.length, ¬Doubtful env ts x j) : ts.Matches remote (memStart + .ofNat 64 x) := by
  intro j hj
  have hd := hc j hj
  have hn : ts[j] ≠ .literal 0xff := fun he => hd <| .inl <| (getElem?_eq_getElem hj).trans (congrArg some he)
  rw [BitVec.add_assoc, ← BitVec.ofNat_add]
  exact (matches_compared_iff hj hd).mp <| (h.looselyMatches hs j hj).resolve_left hn

theorem Sure.readHit (h : Sure env remote memStart memSz ts x) (hl : ts.length < maxPatternLength) :
    ReadHit env remote memStart memSz pattern initial x where
  entered   := h.entered
  scannable := Signature.scannable hs hl
  found     := by
    rw [Signature.patternToByte_eq hs, Signature.found_iff_looselyMatches]
    intro j hj
    have hm := h.isMatch j hj
    rw [BitVec.add_assoc, ← BitVec.ofNat_add] at hm
    exact .inr <| (matches_compared_iff hj (h.certain j hj)).mpr hm

end Hit

section Sample

theorem spells_nopSample : Signature.Spells [.literal 0x90] [57, 48] :=
  .single (.literal (x := 9) (y := 0) rfl rfl)

def stackSample (copied : Nat → Nat → Bool) : Surroundings 0 where
  mem      := 0x7fff0000
  mem_ne   := by decide
  found_ne := stackSample_ne
  stack _  := fun _ => 0
  copied   := copied

theorem firstReadHit_stale : FirstReadHit (stackSample fun _ _ => false) (fun _ => 0) 0x400000 0x4000 [57, 48]
    (fun _ => 0x90) 0 where
  entered k hk := by
    obtain rfl : k = 0 := Nat.le_zero.mp hk
    decide
  scannable := ⟨by decide, by decide⟩
  found := by
    rw [Signature.patternToByte_eq spells_nopSample, Signature.found_iff_looselyMatches]
    intro j hj
    obtain rfl : j = 0 := Nat.lt_one_iff.mp hj
    rw [BitVec.add_zero, compared_apply (by decide), contents_of_not_copied rfl]
    exact .inr rfl
  first y hy := absurd hy (Nat.not_lt_zero y)

end Sample
end Memory

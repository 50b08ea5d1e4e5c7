import HenPlugins.Memory.Theorems.Scan
import HenPlugins.Memory.Theorems.ChunkRead

open List Reads Mem StateTransition

namespace Memory

variable {m : Mem} {base offset : Addr} {size : BitVec 64} {n i : Nat} {p : Bytes} {s : Scanner}

theorem add_mem_region_iff (hi : i < 2 ^ 64) : base + .ofNat 64 i ∈ region base n ↔ i < n := by
  have he : base + BitVec.ofNat 64 i - base = .ofNat 64 i := by bv_omega
  rw [mem_region, he, BitVec.toNat_ofNat, Nat.mod_eq_of_lt hi]

section Value

-- What the scanners compare at one position.
def Scanner.test (x : Addr) : Scanner → Reads Bool
  | .mem value    => memcmp x value
  | .u64 value    => return (← loadU64 x) = value
  | .char value _ => strncmp x value

theorem result_test {x : Addr} : (s.test x).result m = decide (m.Contains x s.needle) := by
  cases s
  case mem value    => exact result_memcmp
  case char value _ => exact result_strncmp
  case u64 value =>
    rw [Scanner.test, result_bind, result_pure, decide_eq_decide]
    exact loadU64_eq_iff

theorem inside_strncmp {x : Addr} {value : Bytes} {r : Set Addr} (h : region x value.length ⊆ r) :
    (strncmp x value).Inside m r := by
  induction value generalizing x
  case nil => exact inside_pure
  case cons c value hi =>
    have hx : x ∈ region x (value.length + 1) := by simp [mem_region]
    have hr : region (x + 1) value.length ⊆ region x (value.length + 1) :=
      region_subset (i := 1) (by omega)
    rw [strncmp, inside_bind, inside_load, inside_ite]
    refine ⟨h hx, ?_⟩
    split
    case isTrue  => exact hi (hr.trans h)
    case isFalse => exact inside_pure

theorem inside_test {x : Addr} {r : Set Addr} (h : region x s.needle.length ⊆ r) : (s.test x).Inside m r := by
  cases s
  case mem value    => exact inside_bind.mpr ⟨inside_loadBytes.mpr h, inside_pure⟩
  case char value _ => exact inside_strncmp h
  case u64 value =>
    rw [Scanner.needle, LittleEndian.length_encode] at h
    exact inside_bind.mpr ⟨inside_bind.mpr ⟨inside_loadBytes.mpr h, inside_pure⟩, inside_pure⟩

-- A string is read up to the first difference, so all of it is read if it is there.
theorem region_of_inside_strncmp {x : Addr} {value : Bytes} {r : Set Addr} (hc : m.Contains x value)
    (h : (strncmp x value).Inside m r) : region x value.length ⊆ r := by
  induction value generalizing x
  case nil => exact fun y hy => absurd hy (Nat.not_lt_zero _)
  case cons c value hi =>
    rw [contains_cons] at hc
    rw [strncmp, inside_bind, inside_load, inside_ite, result_load, if_pos hc.left] at h
    have hr := hi hc.right h.right
    intro y hy
    obtain ⟨k, hk, rfl⟩ := exists_of_mem_region hy
    cases k
    case zero => simpa using h.left
    case succ k =>
      rw [length_cons] at hk
      have ha : x + .ofNat 64 (k + 1) = x + 1 + .ofNat 64 k := by bv_omega
      exact hr (ha ▸ add_mem_region (by omega))

theorem region_of_inside_test {x : Addr} {r : Set Addr} (hc : m.Contains x s.needle)
    (h : (s.test x).Inside m r) : region x s.needle.length ⊆ r := by
  cases s
  case mem value    => exact inside_loadBytes.mp (inside_bind.mp h).left
  case char value _ => exact region_of_inside_strncmp hc h
  case u64 value =>
    rw [Scanner.needle, LittleEndian.length_encode]
    exact inside_loadBytes.mp (inside_bind.mp (inside_bind.mp h).left).left

-- At least one byte is read.
theorem mem_of_inside_test {x : Addr} {r : Set Addr} (hn : s.needle ≠ []) (h : (s.test x).Inside m r) : x ∈ r := by
  have hx {n : Nat} (hn : 0 < n) : x ∈ region x n := by simpa [mem_region] using hn
  cases s
  case mem value => exact inside_loadBytes.mp (inside_bind.mp h).left (hx (length_pos_iff.mpr hn))
  case u64 value => exact inside_loadBytes.mp (inside_bind.mp (inside_bind.mp h).left).left (hx (by decide))
  case char value _ =>
    cases value
    case nil          => exact absurd rfl hn
    case cons c value => exact inside_load.mp (inside_bind.mp h).left

theorem reads_eq : s.reads base size = do
    let i ← search (fun i => s.test (base + .ofNat 64 i)) (size - .ofNat 64 s.needle.length).toNat 0
    return i.map fun i => base + .ofNat 64 i := by
  cases s
  case mem value    => rfl
  case char value _ => rfl
  case u64 value =>
    rw [Scanner.needle, LittleEndian.length_encode]
    rfl

-- The bound wraps around if the needle is longer than the region, and everything behind the region is looked at.
theorem inside_reads_iff (hn : s.needle.length < 2 ^ 64) :
    (s.reads base size).Inside m (region base size.toNat) ↔ s.needle.length ≤ size.toNat := by
  have hs := size.isLt
  simp only [reads_eq, inside_bind, inside_pure, and_true, inside_search, Nat.zero_add, result_test, decide_eq_false_iff_not]
  constructor
  case mpr =>
    intro hl i hi _
    refine inside_test (region_subset ?_)
    have hb : (size - .ofNat 64 s.needle.length).toNat = size.toNat - s.needle.length := by bv_omega
    omega
  case mp =>
    intro h
    by_contra! hl
    have hb : size.toNat < (size - .ofNat 64 s.needle.length).toNat := by bv_omega
    have he : base + .ofNat 64 size.toNat ∉ region base size.toNat := by
      rw [add_mem_region_iff hs]
      exact lt_irrefl _
    by_cases ho : ∃ i < size.toNat + 1, Occurs m base s.needle i
    case pos =>
      obtain ⟨i, hi⟩ := exists_firstAt ho
      have hi' := hi.lt
      have hr := region_of_inside_test hi.occurs (h i (by omega) hi.first)
      have ha : base + .ofNat 64 i + .ofNat 64 (size.toNat - i) = base + .ofNat 64 size.toNat := by
        rw [BitVec.add_assoc, ← BitVec.ofNat_add, Nat.add_sub_cancel' (by omega)]
      exact he (ha ▸ hr (add_mem_region (by omega)))
    case neg =>
      simp only [not_exists, not_and] at ho
      have hn' : s.needle ≠ [] := by
        rw [← length_pos_iff]
        omega
      exact he (mem_of_inside_test hn' (h size.toNat hb fun l hl => ho l (by omega)))

end Value

section Pattern

-- The region does not rule out a match, as far as it goes.
structure Partial (m : Mem) (base : Addr) (n : Nat) (p : Bytes) (i : Nat) : Prop where
  lt     : i < n
  agrees : found m (base + .ofNat 64 i) (p.take (n - i))

structure FirstPartial (m : Mem) (base : Addr) (n : Nat) (p : Bytes) (i : Nat) : Prop
    extends Partial m base n p i where
  first : ∀ k < i, ¬Partial m base n p k

-- The bytes of an array that something has been written to.
def written (base : Addr) (n : Nat) (copied : Nat → Bool) : Set Addr :=
  {a | ∃ j < n, copied j ∧ a = base + .ofNat 64 j}

theorem add_mem_written_iff {copied : Nat → Bool} (hn : n ≤ 2 ^ 64) (hi : i < 2 ^ 64) :
    base + .ofNat 64 i ∈ written base n copied ↔ i < n ∧ copied i := by
  constructor
  case mpr => exact fun ⟨hi, hc⟩ => ⟨i, hi, hc, rfl⟩
  case mp =>
    intro ⟨j, hj, hc, he⟩
    have he := congrArg BitVec.toNat <| (BitVec.add_right_inj base).mp he
    rw [BitVec.toNat_ofNat, BitVec.toNat_ofNat, Nat.mod_eq_of_lt hi, Nat.mod_eq_of_lt (hj.trans_le hn)] at he
    exact ⟨he ▸ hj, he ▸ hc⟩

theorem written_subset {copied : Nat → Bool} : written base n copied ⊆ region base n := by
  intro x ⟨j, hj, _, he⟩
  exact he ▸ add_mem_region hj

theorem found_take {x : Addr} {k : Nat} (h : found m x p) : found m x (p.take k) := by
  rw [← take_append_drop k p, found_append] at h
  exact h.left

theorem found_take_le {x : Addr} {k l : Nat} (hk : k ≤ l) (h : found m x (p.take l)) : found m x (p.take k) := by
  have h := @found_take m _ x k h
  rwa [take_take, Nat.min_eq_left hk] at h

theorem Partial.exists_first (h : Partial m base n p i) : ∃ k ≤ i, FirstPartial m base n p k := by
  have ⟨k, hi, hk, hf⟩ := exists_least ⟨i, i.lt_succ_self, h⟩
  exact ⟨k, Nat.le_of_lt_succ hi, { hk with first := hf }⟩

theorem partial_of_found (hi : i < n) (h : found m (base + .ofNat 64 i) p) : Partial m base n p i :=
  ⟨hi, found_take h⟩

theorem Partial.found (h : Partial m base n p i) (hl : i + p.length ≤ n) : found m (base + .ofNat 64 i) p := by
  have ha := h.agrees
  rwa [take_of_length_le (by omega)] at ha

theorem FirstPartial.eq {j : Nat} (h : FirstPartial m base n p i) (h' : FirstPartial m base n p j) : i = j :=
  le_antisymm (not_lt.mp fun hl => h.first _ hl h'.toPartial) (not_lt.mp fun hl => h'.first _ hl h.toPartial)

-- The bytes are compared in order up to the first difference.
theorem inside_foundReads {x : Addr} {r : Set Addr} :
    (foundReads x p).Inside m r ↔ ∀ j < p.length, found m x (p.take j) → x + .ofNat 64 j ∈ r := by
  induction p generalizing x
  case nil => simp [foundReads]
  case cons b p hi =>
    have hx : x + BitVec.ofNat 64 0 = x := BitVec.add_zero x
    have ha (j : Nat) : x + .ofNat 64 (j + 1) = x + 1 + .ofNat 64 j := by
      bv_omega
    rw [foundReads, inside_bind, inside_load, inside_ite, result_load, length_cons, Nat.forall_lt_succ_left]
    simp only [take_zero, take_succ_cons, found_cons, hx, ha]
    refine and_congr (by simp [found]) ?_
    split
    case isTrue h =>
      have hn : ¬(m x = b ∨ b = 0xff) := not_or.mpr h
      simp [hn]
    case isFalse h =>
      have hm : m x = b ∨ b = 0xff := not_not.mp (mt not_or.mp h)
      simp only [hi, hm, true_and]

theorem inside_search_found {r : Set Addr} :
    (search (fun i => foundReads (base + .ofNat 64 i) p) n 0).Inside m r ↔
      ∀ i < n, (∀ k < i, ¬found m (base + .ofNat 64 k) p) → ∀ j < p.length, found m (base + .ofNat 64 i) (p.take j) →
        base + .ofNat 64 (i + j) ∈ r := by
  simp only [inside_search, Nat.zero_add, result_foundReads, inside_foundReads, BitVec.ofNat_add, BitVec.add_assoc,
    Bool.not_eq_true]

-- Nothing is looked at behind a whole match.
theorem FirstPartial.le {k : Nat} (h : FirstPartial m base n p k) (hl : k + p.length ≤ n)
    (hf : ∀ k < i, ¬found m (base + .ofNat 64 k) p) : i ≤ k :=
  not_lt.mp fun hk => hf k hk (h.found hl)

theorem lt_of_found_take {j : Nat} (h : ∀ i, FirstPartial m base n p i → i + p.length ≤ n) (hi : i < n)
    (hf : ∀ k < i, ¬found m (base + .ofNat 64 k) p) (hj : j < p.length) (hp : found m (base + .ofNat 64 i) (p.take j)) :
    i + j < n := by
  by_contra hn
  have hw : Partial m base n p i := ⟨hi, found_take_le (by omega) hp⟩
  have ⟨k, hk, hfirst⟩ := hw.exists_first
  have hl := h k hfirst
  have hi := hfirst.le hl hf
  omega

-- The search ends at the first position that is not ruled out, if the match there is a whole one.
theorem inside_search_found_iff (hn : n < 2 ^ 64) :
    (search (fun i => foundReads (base + .ofNat 64 i) p) n 0).Inside m (region base n) ↔
      ∀ i, FirstPartial m base n p i → i + p.length ≤ n := by
  rw [inside_search_found]
  constructor
  case mpr => exact fun h i hi hf j hj hp => add_mem_region (lt_of_found_take h hi hf hj hp)
  case mp =>
    intro h i hi
    have hl := hi.lt
    by_contra hw
    have hf : ∀ k < i, ¬found m (base + .ofNat 64 k) p := fun k hk hf => hi.first k hk (partial_of_found (hk.trans hl) hf)
    have hm := h i hl hf (n - i) (by omega) hi.agrees
    rw [add_mem_region_iff (by omega)] at hm
    omega

-- Everything is read up to the end of this match, or to the end of the array if there is none.
theorem inside_search_written_iff {copied : Nat → Bool} (hn : n < 2 ^ 64) (hp : p ≠ [])
    (h : ∀ i, FirstPartial m base n p i → i + p.length ≤ n) :
    (search (fun i => foundReads (base + .ofNat 64 i) p) n 0).Inside m (written base n copied) ↔
      ∀ y < n, (∀ i, FirstPartial m base n p i → y < i + p.length) → copied y := by
  rw [inside_search_found]
  constructor
  case mp =>
    intro hr y hy hl
    by_cases hx : ∃ i ≤ y, FirstPartial m base n p i
    case pos =>
      have ⟨i, hi, hfirst⟩ := hx
      have hf : ∀ k < i, ¬found m (base + .ofNat 64 k) p := fun k hk hf =>
        hfirst.first k hk (partial_of_found (hk.trans hfirst.lt) hf)
      have hj := hl i hfirst
      have hm := hr i hfirst.lt hf (y - i) (by omega) (found_take (hfirst.found (h i hfirst)))
      rw [Nat.add_sub_cancel' hi, add_mem_written_iff hn.le (hy.trans hn)] at hm
      exact hm.right
    case neg =>
      have hf : ∀ k < y, ¬found m (base + .ofNat 64 k) p := by
        intro k hk hf
        have ⟨i, hi, hfirst⟩ := (partial_of_found (hk.trans hy) hf).exists_first
        exact hx ⟨i, hi.trans hk.le, hfirst⟩
      have hm := hr y hy hf 0 (length_pos_iff.mpr hp) rfl
      rw [Nat.add_zero, add_mem_written_iff hn.le (hy.trans hn)] at hm
      exact hm.right
  case mpr =>
    intro hc i hi hf j hj hp
    have hl := lt_of_found_take h hi hf hj hp
    rw [add_mem_written_iff hn.le (hl.trans hn)]
    refine ⟨hl, hc _ hl fun k hk => ?_⟩
    have := hk.le (h k hk) hf
    omega

theorem inside_patternScanReads {signature : Bytes} {r : Set Addr} :
    (patternScanReads base n signature offset).Inside m r ↔ (base ≠ 0 → Scannable (patternToByte signature) →
      (search (fun i => foundReads (base + .ofNat 64 i) (patternToByte signature)) n 0).Inside m r) := by
  rw [patternScanReads, inside_ite]
  split
  case isTrue hb =>
    refine iff_of_true inside_pure fun hb' _ => ?_
    rw [hb.resolve_left hb']
    exact inside_pure
  case isFalse hb =>
    have hs : Scannable (patternToByte signature) ↔
        ¬((patternToByte signature).length = 0 ∨ (patternToByte signature).length ≥ maxPatternLength) := by
      rw [Scannable]
      omega
    rw [not_or] at hb
    dsimp only
    rw [imp_iff_right hb.left, inside_ite, hs]
    split
    case isTrue h  => exact iff_of_true inside_pure fun hn => absurd h hn
    case isFalse h => rw [imp_iff_right h, inside_bind, and_iff_left inside_pure]

theorem inside_patternScanReads_iff {signature : Bytes} (hn : n < 2 ^ 64) :
    (patternScanReads base n signature offset).Inside m (region base n) ↔
      (base ≠ 0 → Scannable (patternToByte signature) →
        ∀ i, FirstPartial m base n (patternToByte signature) i → i + (patternToByte signature).length ≤ n) := by
  rw [inside_patternScanReads, inside_search_found_iff hn]

end Pattern

section Chunks

variable {patternOffset memStart : Addr} {memSz : BitVec 64} {remote : Mem} {pattern : Bytes} {initial : Nat → UInt8}
  {env : Surroundings patternOffset} {x k j e : Nat}

-- What a round requests is in the region, and nothing is matched but what it has copied.
def RoundInside (env : Surroundings patternOffset) (remote : Mem) (memStart : Addr) (memSz : BitVec 64)
    (pattern : Bytes) : ReadState → Prop
  | .returned _ => True
  | .scanning round i array =>
    i < memSz - .ofNat 64 chunkSize →
      region (memStart + i) chunkSize ⊆ region memStart memSz.toNat ∧
      (patternScanReads env.mem chunkSize pattern patternOffset).Inside
        (env.fill round (env.read round remote (memStart + i) array)) (written env.mem chunkSize (env.copied round))

-- The region has room for a chunk, the first candidate does not go beyond its chunk, and all bytes are copied up to
-- the end of it, or altogether if there is none.
structure Sufficient (env : Surroundings patternOffset) (remote : Mem) (memStart : Addr) (memSz : BitVec 64)
    (pattern : Bytes) : Prop where
  chunk  : chunkSize ≤ memSz.toNat
  whole  : ∀ x, FirstCandidate remote memStart memSz pattern x →
    x % chunkSize + (patternToByte pattern).length ≤ chunkSize
  copied : Scannable (patternToByte pattern) → ∀ y < chunkSize * chunkCount memSz,
    (∀ x, FirstCandidate remote memStart memSz pattern x → y < x + (patternToByte pattern).length) →
      env.copied (y / chunkSize) (y % chunkSize)

theorem FirstCandidate.le (h : FirstCandidate remote memStart memSz pattern x)
    (hk : Candidate remote memStart memSz pattern k) : x ≤ k :=
  not_lt.mp fun hl => h.first k hl hk

theorem not_candidate (hx : ∀ x, FirstCandidate remote memStart memSz pattern x → chunkSize * (k + 1) ≤ x)
    (hj : j < chunkSize) : ¬Candidate remote memStart memSz pattern (chunkSize * k + j) := by
  intro hc
  have ⟨x, hf⟩ := hc.exists_first
  have := (hx x hf).trans (hf.le hc)
  rw [Nat.mul_succ] at this
  omega

theorem request_subset (hl : chunkSize ≤ memSz.toNat) (hk : k < chunkCount memSz) :
    region (memStart + .ofNat 64 (chunkSize * k)) chunkSize ⊆ region memStart memSz.toNat := by
  apply region_subset
  have hb := (lt_bound_iff (hk.trans_le chunkCount_le)).mpr hk
  have hc : chunkCount memSz ≤ 2 ^ 51 := chunkCount_le
  simp only [chunkSize] at *
  bv_omega

theorem entered_iff (hl : chunkSize ≤ memSz.toNat) :
    (∀ l ≤ k, BitVec.ofNat 64 (chunkSize * l) < memSz - .ofNat 64 chunkSize) ↔ k < chunkCount memSz := by
  constructor
  case mpr => exact fun hk l hl => (lt_bound_iff ((hl.trans_lt hk).trans_le chunkCount_le)).mpr (hl.trans_lt hk)
  case mp =>
    intro h
    by_contra hk
    exact lt_irrefl _ <| (lt_bound_iff (chunkCount_lt_iff.mpr (.inr hl))).mp (h _ (not_lt.mp hk))

theorem position_lt (hk : k < chunkCount memSz) (hj : j < chunkSize) : chunkSize * k + j < chunkSize * chunkCount memSz := by
  simp only [chunkSize] at *
  omega

-- Where the bytes have been copied, the array does not rule out more or less than the region.
theorem partial_compared_iff (hk : k < chunkCount memSz) (hs : Scannable (patternToByte pattern)) (hj : j < chunkSize)
    (hc : ∀ y < e, env.copied k y) (he : min chunkSize (j + (patternToByte pattern).length) ≤ e) :
    Partial (compared env remote memStart initial k) env.mem chunkSize (patternToByte pattern) j ↔
      Candidate remote memStart memSz pattern (chunkSize * k + j) := by
  have hf : found (compared env remote memStart initial k) (env.mem + .ofNat 64 j)
        ((patternToByte pattern).take (chunkSize - j)) ↔
      found remote (memStart + .ofNat 64 (chunkSize * k + j)) (inChunk (chunkSize * k + j) (patternToByte pattern)) := by
    rw [inChunk, (chunk_div_mod hj).right, found_iff, found_iff]
    apply forall₂_congr
    intro r hr
    rw [length_take] at hr
    rw [BitVec.add_assoc, ← BitVec.ofNat_add, compared_apply (by omega), contents_of_copied (hc _ (by omega)),
      BitVec.add_assoc, ← BitVec.ofNat_add, Nat.add_assoc]
  constructor
  case mp  => exact fun h => ⟨position_lt hk hj, hs, hf.mp h.agrees⟩
  case mpr => exact fun h => ⟨hj, hf.mpr h.inChunk⟩

theorem inside_compared_iff (hs : Scannable (patternToByte pattern)) :
    (patternScanReads env.mem chunkSize pattern patternOffset).Inside (compared env remote memStart initial k)
        (written env.mem chunkSize (env.copied k)) ↔
      (∀ i, FirstPartial (compared env remote memStart initial k) env.mem chunkSize (patternToByte pattern) i →
        i + (patternToByte pattern).length ≤ chunkSize) ∧
      ∀ y < chunkSize,
        (∀ i, FirstPartial (compared env remote memStart initial k) env.mem chunkSize (patternToByte pattern) i →
          y < i + (patternToByte pattern).length) → env.copied k y := by
  rw [inside_patternScanReads, imp_iff_right env.mem_ne, imp_iff_right hs]
  have hp : patternToByte pattern ≠ [] := fun he => hs.left (he ▸ rfl)
  constructor
  case mpr => exact fun ⟨hw, hc⟩ => (inside_search_written_iff (by decide) hp hw).mpr hc
  case mp =>
    intro h
    have hw := (inside_search_found_iff (by decide)).mp fun x hx => written_subset (h x hx)
    exact ⟨hw, (inside_search_written_iff (by decide) hp hw).mp h⟩

theorem Sufficient.copied_chunk (h : Sufficient env remote memStart memSz pattern)
    (hs : Scannable (patternToByte pattern)) (hk : k < chunkCount memSz) (hj : j < chunkSize)
    (hx : ∀ x, FirstCandidate remote memStart memSz pattern x →
      chunkSize * k + j < x + (patternToByte pattern).length) : env.copied k j := by
  have hc := h.copied hs _ (position_lt hk hj) hx
  rwa [(chunk_div_mod hj).left, (chunk_div_mod hj).right] at hc

theorem Sufficient.copied_first (h : Sufficient env remote memStart memSz pattern)
    (hx : FirstCandidate remote memStart memSz pattern (chunkSize * k + j)) (hk : k < chunkCount memSz)
    (hj : j < chunkSize) : j + (patternToByte pattern).length ≤ chunkSize ∧
      ∀ y < j + (patternToByte pattern).length, env.copied k y := by
  have hw := h.whole _ hx
  rw [(chunk_div_mod hj).right] at hw
  refine ⟨hw, fun y hy => h.copied_chunk hx.scannable hk (by omega) fun x hx' => ?_⟩
  have := hx.le hx'.toCandidate
  omega

-- The first candidate is a hit.
theorem Sufficient.hit (h : Sufficient env remote memStart memSz pattern)
    (hx : FirstCandidate remote memStart memSz pattern x) : ReadHit env remote memStart memSz pattern initial x := by
  have hd := Nat.div_add_mod x chunkSize
  have hj : x % chunkSize < chunkSize := Nat.mod_lt _ (by decide)
  have hk : x / chunkSize < chunkCount memSz := Nat.div_lt_of_lt_mul hx.scanned
  have ⟨hw, hc⟩ := h.copied_first (hd.symm ▸ hx) hk hj
  have hp := (@partial_compared_iff _ _ _ _ _ initial _ _ _ _ hk hx.scannable hj hc (Nat.min_le_right ..)).mpr
    (hd.symm ▸ hx.toCandidate)
  exact { entered := (entered_iff h.chunk).mpr hk, scannable := hx.scannable, found := hp.found hw }

theorem Sufficient.inside (h : Sufficient env remote memStart memSz pattern) (hk : k < chunkCount memSz)
    (hn : ∀ y < chunkSize * k, ¬ReadHit env remote memStart memSz pattern initial y) :
    (patternScanReads env.mem chunkSize pattern patternOffset).Inside (compared env remote memStart initial k)
      (written env.mem chunkSize (env.copied k)) := by
  by_cases hs : Scannable (patternToByte pattern)
  case neg => exact inside_patternScanReads.mpr fun _ h => absurd h hs
  case pos =>
    rw [inside_compared_iff hs]
    by_cases hx : ∃ x < chunkSize * (k + 1), FirstCandidate remote memStart memSz pattern x
    case pos =>
      have ⟨x, hl, hc⟩ := hx
      obtain ⟨j, rfl⟩ := Nat.exists_eq_add_of_le (not_lt.mp fun hlt => hn x hlt (h.hit hc))
      have hj : j < chunkSize := by
        rw [Nat.mul_succ] at hl
        omega
      have ⟨hw, hcop⟩ := h.copied_first hc hk hj
      have hp (i : Nat) (hi : i ≤ j) := @partial_compared_iff _ memStart _ remote _ initial _ _ i _ hk hs (by omega) hcop (by omega)
      have hfirst : FirstPartial (compared env remote memStart initial k) env.mem chunkSize (patternToByte pattern) j := {
        toPartial := (hp j le_rfl).mpr hc.toCandidate
        first i hi hi' := hc.first _ (by omega) ((hp i hi.le).mp hi') }
      exact ⟨fun i hi => hi.eq hfirst ▸ hw, fun y _ hy => hcop y (hy j hfirst)⟩
    case neg =>
      have hc : ∀ x, FirstCandidate remote memStart memSz pattern x → chunkSize * (k + 1) ≤ x :=
        fun x hc => not_lt.mp fun hl => hx ⟨x, hl, hc⟩
      have hcop : ∀ y < chunkSize, env.copied k y := by
        intro y hy
        apply h.copied_chunk hs hk hy
        intro x hx
        have := hc x hx
        rw [Nat.mul_succ] at this
        omega
      have hp : ∀ i, ¬FirstPartial (compared env remote memStart initial k) env.mem chunkSize (patternToByte pattern) i := by
        intro i hi
        exact not_candidate hc hi.lt <| (partial_compared_iff hk hs hi.lt hcop (Nat.min_le_left ..)).mp hi.toPartial
      exact ⟨fun i hi => absurd hi (hp i), fun y hy _ => hcop y hy⟩

theorem lt_or_eq_add {y : Nat} (hy : y < chunkSize * (k + 1)) : y < chunkSize * k ∨ ∃ j < chunkSize, y = chunkSize * k + j := by
  by_cases hl : y < chunkSize * k
  case pos => exact .inl hl
  case neg =>
    rw [Nat.mul_succ] at hy
    exact .inr ⟨y - chunkSize * k, by omega, by omega⟩

section Rounds

variable (hl : chunkSize ≤ memSz.toNat) (hs : Scannable (patternToByte pattern))
  (h : ∀ s, Reaches (pidChunkReadStep env remote memStart memSz pattern) (.scanning 0 0 initial) s →
    RoundInside env remote memStart memSz pattern s)

include hl hs h

-- What a round without an earlier hit reads.
theorem round_inside (hk : k < chunkCount memSz)
    (hn : ∀ y < chunkSize * k, ¬ReadHit env remote memStart memSz pattern initial y) :
    (∀ i, FirstPartial (compared env remote memStart initial k) env.mem chunkSize (patternToByte pattern) i →
      i + (patternToByte pattern).length ≤ chunkSize) ∧
    ∀ y < chunkSize,
      (∀ i, FirstPartial (compared env remote memStart initial k) env.mem chunkSize (patternToByte pattern) i →
        y < i + (patternToByte pattern).length) → env.copied k y := by
  have he := (entered_iff hl).mpr hk
  have hr := h _ (reaches_atRound (fun l hl => he l hl.le) hn) (he k le_rfl)
  exact (inside_compared_iff hs).mp hr.right

-- What the array does not rule out has been copied.
theorem candidate_of_firstPartial (hk : k < chunkCount memSz)
    (hn : ∀ y < chunkSize * k, ¬ReadHit env remote memStart memSz pattern initial y)
    (hj : FirstPartial (compared env remote memStart initial k) env.mem chunkSize (patternToByte pattern) j) :
    (∀ y < j + (patternToByte pattern).length, env.copied k y) ∧
      Candidate remote memStart memSz pattern (chunkSize * k + j) := by
  have ⟨hw, hc⟩ := round_inside hl hs h hk hn
  have hcop : ∀ y < j + (patternToByte pattern).length, env.copied k y := by
    intro y hy
    exact hc y (hy.trans_le (hw j hj)) fun i hi => hi.eq hj ▸ hy
  exact ⟨hcop, (partial_compared_iff hk hs hj.lt hcop (Nat.min_le_right ..)).mp hj.toPartial⟩

-- In front of the first candidate, everything is copied and there is no hit.
theorem copied_of_lt (hk : k ≤ chunkCount memSz)
    (hx : ∀ x, FirstCandidate remote memStart memSz pattern x → chunkSize * k ≤ x) :
    (∀ y < chunkSize * k, ¬ReadHit env remote memStart memSz pattern initial y) ∧
      ∀ y < chunkSize * k, env.copied (y / chunkSize) (y % chunkSize) := by
  induction k
  case zero => simp
  case succ k hi =>
    have ⟨hn, hc⟩ := hi (by omega) fun x hx' => (Nat.mul_le_mul_left _ k.le_succ).trans (hx x hx')
    have hp : ∀ i, ¬FirstPartial (compared env remote memStart initial k) env.mem chunkSize (patternToByte pattern) i := by
      intro i hi
      exact not_candidate hx hi.lt (candidate_of_firstPartial hl hs h hk hn hi).right
    refine ⟨fun y hy hy' => ?_, fun y hy => ?_⟩
    case refine_1 =>
      cases lt_or_eq_add hy
      case inl hlt => exact hn y hlt hy'
      case inr he =>
        obtain ⟨j, hj, rfl⟩ := he
        have hf := hy'.found
        rw [(chunk_div_mod hj).left, (chunk_div_mod hj).right] at hf
        have ⟨i, _, hi⟩ := (partial_of_found hj hf).exists_first
        exact hp i hi
    case refine_2 =>
      cases lt_or_eq_add hy
      case inl hlt => exact hc y hlt
      case inr he =>
        obtain ⟨j, hj, rfl⟩ := he
        rw [(chunk_div_mod hj).left, (chunk_div_mod hj).right]
        exact (round_inside hl hs h hk hn).right j hj fun i hi => absurd hi (hp i)

theorem first_of_rounds_inside (hx : FirstCandidate remote memStart memSz pattern x) :
    x % chunkSize + (patternToByte pattern).length ≤ chunkSize ∧
      (∀ y < chunkSize * (x / chunkSize), env.copied (y / chunkSize) (y % chunkSize)) ∧
      ∀ y < x % chunkSize + (patternToByte pattern).length, env.copied (x / chunkSize) y := by
  have hd := Nat.div_add_mod x chunkSize
  have hj : x % chunkSize < chunkSize := Nat.mod_lt _ (by decide)
  have hk : x / chunkSize < chunkCount memSz := Nat.div_lt_of_lt_mul hx.scanned
  have hx' : Candidate remote memStart memSz pattern (chunkSize * (x / chunkSize) + x % chunkSize) := hd.symm ▸ hx.toCandidate
  have ⟨hn, hb⟩ := copied_of_lt hl hs h hk.le fun y hy => (Nat.mul_div_le ..).trans (hx.le hy.toCandidate)
  have ⟨hw, hc⟩ := round_inside hl hs h hk hn
  have hp : ∃ j, FirstPartial (compared env remote memStart initial (x / chunkSize)) env.mem chunkSize (patternToByte pattern) j := by
    by_contra hp
    have hc : ∀ y < chunkSize, env.copied (x / chunkSize) y := fun y hy => hc y hy fun i hi => absurd ⟨i, hi⟩ hp
    have hx := (@partial_compared_iff _ _ _ _ _ initial _ _ _ _ hk hs hj hc (Nat.min_le_left ..)).mpr hx'
    have ⟨i, _, hi⟩ := hx.exists_first
    exact hp ⟨i, hi⟩
  obtain ⟨j, hp⟩ := hp
  have ⟨hcop, hi⟩ := candidate_of_firstPartial hl hs h hk hn hp
  have hle := hx.le hi
  -- The candidate is not ruled out by the array either.
  have hpx := (@partial_compared_iff _ _ _ _ _ initial _ _ _ _ hk hs hj hcop (by omega)).mpr hx'
  have hge : ¬x % chunkSize < j := fun hlt => hp.first _ hlt hpx
  obtain rfl : j = x % chunkSize := by omega
  exact ⟨hw _ hp, hb, hcop⟩

end Rounds

-- The requests and the comparisons of all rounds, whatever the reads copy.
theorem rounds_inside_iff :
    (∀ s, Reaches (pidChunkReadStep env remote memStart memSz pattern) (.scanning 0 0 initial) s →
      RoundInside env remote memStart memSz pattern s) ↔ Sufficient env remote memStart memSz pattern := by
  constructor
  case mp =>
    intro h
    have hl : chunkSize ≤ memSz.toNat := by
      by_contra! hl
      have hb : (0 : BitVec 64) < memSz - .ofNat 64 chunkSize := by
        simp only [chunkSize] at *
        bv_omega
      have hm := (h _ .refl hb).left (add_mem_region hl)
      rw [add_zero, add_mem_region_iff memSz.isLt] at hm
      exact lt_irrefl _ hm
    constructor
    case chunk => exact hl
    case whole => exact fun x hx => (first_of_rounds_inside hl hx.scannable h hx).left
    case copied =>
      intro hs y hy hx
      by_cases hf : ∃ x, FirstCandidate remote memStart memSz pattern x
      case neg => exact (copied_of_lt hl hs h le_rfl fun x hx => absurd ⟨x, hx⟩ hf).right y hy
      case pos =>
        have ⟨x, hf⟩ := hf
        have ⟨hw, hb, hc⟩ := first_of_rounds_inside hl hs h hf
        have hlt := hx x hf
        have hd := Nat.div_add_mod x chunkSize
        have hy : y < chunkSize * (x / chunkSize + 1) := by
          rw [Nat.mul_succ]
          omega
        cases lt_or_eq_add hy
        case inl hy => exact hb y hy
        case inr he =>
          obtain ⟨j, hj, rfl⟩ := he
          rw [(chunk_div_mod hj).left, (chunk_div_mod hj).right]
          exact hc j (by omega)
  case mpr =>
    intro h s hs
    have ht : Traced env remote memStart memSz pattern initial s :=
      Run.invariant hs (fun _ _ => traced_step) ⟨0, rfl, by simp, by simp⟩
    cases s
    case returned => trivial
    case scanning round i array =>
      obtain ⟨k, he, hb, hn⟩ := ht
      cases he
      intro hi
      have hk := (entered_iff h.chunk).mp fun l hl => hl.lt_or_eq.elim (hb l) fun hl => hl ▸ hi
      exact ⟨request_subset h.chunk hk, h.inside hk hn⟩

end Chunks
end Memory

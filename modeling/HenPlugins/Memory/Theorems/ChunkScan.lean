import HenPlugins.Memory.ChunkScan

open List StateTransition

namespace Memory

variable {patternOffset memStart : Addr} {memSz : BitVec 64} {remote : Mem} {pattern : Bytes}

section

variable {k n : Nat}

theorem chunkCount_le : chunkCount memSz ≤ 2 ^ 51 := by
  have h := (memSz - BitVec.ofNat 64 chunkSize).isLt
  simp only [chunkCount, chunkSize] at *
  omega

theorem lt_bound_iff (h : k < 2 ^ 51) :
    BitVec.ofNat 64 (chunkSize * k) < memSz - .ofNat 64 chunkSize ↔ k < chunkCount memSz := by
  have hk : chunkSize * k < 2 ^ 64 := by
    simp only [chunkSize]
    omega
  rw [BitVec.lt_def, BitVec.toNat_ofNat, Nat.mod_eq_of_lt hk, chunkCount]
  generalize (memSz - BitVec.ofNat 64 chunkSize).toNat = bound
  simp only [chunkSize]
  omega

-- The loop is endless for the sizes that make its bound wrap around, save for the size zero.
theorem chunkCount_lt_iff : chunkCount memSz < 2 ^ 51 ↔ memSz.toNat = 0 ∨ chunkSize ≤ memSz.toNat := by
  have h : (memSz - BitVec.ofNat 64 chunkSize).toNat = (2 ^ 64 - chunkSize + memSz.toNat) % 2 ^ 64 := by
    rw [BitVec.toNat_sub]
    rfl
  have h' := memSz.isLt
  simp only [chunkCount, h, chunkSize]
  omega

end

-- A position as the chunk it is in and its distance from the beginning of the chunk.

theorem chunk_div_mod {k j : Nat} (hj : j < chunkSize) :
    (chunkSize * k + j) / chunkSize = k ∧ (chunkSize * k + j) % chunkSize = j := by
  rw [Nat.mul_add_mod, Nat.mod_eq_of_lt hj, Nat.mul_add_div (by decide), Nat.div_eq_of_lt hj, Nat.add_zero]
  exact ⟨rfl, rfl⟩

theorem chunk_address {k j : Nat} {mem : Addr} :
    memStart + .ofNat 64 (chunkSize * k) + (mem + .ofNat 64 j + patternOffset - mem) =
      memStart + .ofNat 64 (chunkSize * k + j) + patternOffset := by
  rw [BitVec.ofNat_add, BitVec.add_assoc mem, BitVec.add_comm mem, BitVec.add_sub_cancel]
  simp only [BitVec.add_assoc]

variable {x : Nat} {buffer : Buffer patternOffset}

-- The stack when the chunk with the given number is scanned.
def filled (buffer : Buffer patternOffset) (remote : Mem) (memStart : Addr) (k : Nat) : Mem :=
  buffer.fill (.ofNat 64 (chunkSize * k)) (remote.read (memStart + .ofNat 64 (chunkSize * k)) chunkSize)

-- Inside of the array, the stack holds what has been read from the region.
theorem filled_apply {k j : Nat} (h : j < chunkSize) :
    filled buffer remote memStart k (buffer.mem + .ofNat 64 j) =
      remote (memStart + .ofNat 64 (chunkSize * k + j)) := by
  have hr : j < (remote.read (memStart + .ofNat 64 (chunkSize * k)) chunkSize).length := by rwa [Mem.length_read]
  have hl : (remote.read (memStart + .ofNat 64 (chunkSize * k)) chunkSize).length ≤ 2 ^ 64 := by
    rw [Mem.length_read]
    decide
  rw [filled, Buffer.fill, Mem.write_apply hr hl, Mem.getElem_read, BitVec.add_assoc, ← BitVec.ofNat_add]

-- Behind the array, it holds what it has held before.
theorem filled_eqOn {k n : Nat} (hn : n < maxPatternLength) :
    Set.EqOn (filled buffer remote memStart k) (buffer.stack (.ofNat 64 (chunkSize * k)))
      (Mem.region (buffer.mem + .ofNat 64 chunkSize) n) := by
  have hd := Mem.disjoint_region_add (a := buffer.mem) (i := 0) (n := chunkSize) (k := chunkSize) (l := n)
    (by omega) (by simp only [chunkSize, maxPatternLength] at *; omega)
  rw [BitVec.add_zero] at hd
  rw [filled, Buffer.fill]
  apply Mem.eqOn_write_of_disjoint
  rw [Mem.length_read]
  exact hd.symm

theorem found_filled {k j : Nat} {p : Bytes} (h : j + p.length ≤ chunkSize) :
    found (filled buffer remote memStart k) (buffer.mem + .ofNat 64 j) p ↔
      found remote (memStart + .ofNat 64 (chunkSize * k + j)) p := by
  rw [found_iff, found_iff]
  apply forall₂_congr
  intro r hr
  rw [BitVec.add_assoc, ← BitVec.ofNat_add, filled_apply (by omega), BitVec.add_assoc, ← BitVec.ofNat_add,
    Nat.add_assoc]

theorem length_behindChunk {p : Bytes} (h : p.length < maxPatternLength) :
    (behindChunk x p).length < maxPatternLength := by
  rw [behindChunk, length_drop]
  omega

-- At each position, a part of the pattern is compared to the chunk and the rest to the stack.
theorem found_filled_iff {k j : Nat} {p : Bytes} (hj : j < chunkSize) (hx : x = chunkSize * k + j)
    (hp : p.length < maxPatternLength) :
    found (filled buffer remote memStart k) (buffer.mem + .ofNat 64 j) p ↔
      found remote (memStart + .ofNat 64 x) (inChunk x p) ∧
        found (buffer.stack (.ofNat 64 (chunkSize * k))) (buffer.mem + .ofNat 64 chunkSize) (behindChunk x p) := by
  have hx' : x % chunkSize = j := hx ▸ (chunk_div_mod hj).right
  have ht : (inChunk x p).length ≤ chunkSize - j := by
    rw [inChunk, hx']
    exact length_take_le ..
  conv => lhs; rw [← take_append_drop (chunkSize - x % chunkSize) p]
  rw [found_append, ← inChunk, ← behindChunk, found_filled (by omega), ← hx,
    ← found_congr (filled_eqOn (length_behindChunk hp))]
  apply and_congr_right
  intro _
  by_cases hn : chunkSize - j ≤ p.length
  case pos =>
    rw [BitVec.add_assoc, ← BitVec.ofNat_add, inChunk, length_take, hx', Nat.min_eq_left hn,
      Nat.add_sub_cancel' hj.le]
  case neg =>
    have he : behindChunk x p = [] := drop_eq_nil_of_le (by omega)
    simp [he, found]

theorem hit_iff {k j : Nat} (hk : k < chunkCount memSz) (hj : j < chunkSize) :
    Hit buffer remote memStart memSz pattern (chunkSize * k + j) ↔ Scannable (patternToByte pattern) ∧
      found (filled buffer remote memStart k) (buffer.mem + .ofNat 64 j) (patternToByte pattern) := by
  have hd : (chunkSize * k + j) / chunkSize = k := (chunk_div_mod hj).left
  constructor
  case mp =>
    intro h
    have hb := h.behindChunk
    rw [hd] at hb
    exact ⟨h.scannable, (found_filled_iff hj rfl h.scannable.right).mpr ⟨h.inChunk, hb⟩⟩
  case mpr =>
    intro ⟨hs, hf⟩
    have ⟨hi, hb⟩ := (found_filled_iff hj rfl hs.right).mp hf
    have hl : chunkSize * k + j < chunkSize * chunkCount memSz := by
      simp only [chunkSize] at *
      omega
    exact { scanned := hl, scannable := hs, inChunk := hi, behindChunk := hd.symm ▸ hb }

abbrev atChunk (k : Nat) : ScanState :=
  .scanning (.ofNat 64 (chunkSize * k))

-- The first hit of a chunk is returned.
theorem step_of_hit {k j : Nat} (hk : k < chunkCount memSz) (hj : j < chunkSize)
    (h : Hit buffer remote memStart memSz pattern (chunkSize * k + j))
    (hn : ∀ y < chunkSize * k + j, ¬Hit buffer remote memStart memSz pattern y) :
    pidChunkScanStep buffer remote memStart memSz pattern (atChunk k) =
      some (.returned (memStart + .ofNat 64 (chunkSize * k + j) + patternOffset)) := by
  have hb : BitVec.ofNat 64 (chunkSize * k) < memSz - .ofNat 64 chunkSize :=
    (lt_bound_iff (hk.trans_le chunkCount_le)).mpr hk
  have ⟨hs, hf⟩ := (hit_iff hk hj).mp h
  have hp : patternScan (filled buffer remote memStart k) buffer.mem chunkSize pattern patternOffset =
      buffer.mem + .ofNat 64 j + patternOffset := by
    apply patternScan_eq buffer.mem_ne hs hj hf
    intro i hi hf
    exact hn _ (by omega) <| (hit_iff hk (by omega)).mpr ⟨hs, hf⟩
  rw [filled] at hp
  simp only [pidChunkScanStep, hb, if_true, hp, ne_eq, buffer.found_ne j hj, not_false_eq_true, chunk_address]

theorem step_of_not_hit {k : Nat} (hk : k < chunkCount memSz)
    (hn : ∀ y < chunkSize * (k + 1), ¬Hit buffer remote memStart memSz pattern y) :
    pidChunkScanStep buffer remote memStart memSz pattern (atChunk k) = some (atChunk (k + 1)) := by
  have hb : BitVec.ofNat 64 (chunkSize * k) < memSz - .ofNat 64 chunkSize :=
    (lt_bound_iff (hk.trans_le chunkCount_le)).mpr hk
  have hp : patternScan (filled buffer remote memStart k) buffer.mem chunkSize pattern patternOffset = 0 := by
    apply patternScan_eq_zero
    intro hs i hi hf
    rw [Nat.mul_succ] at hn
    exact hn _ (by omega) <| (hit_iff hk hi).mpr ⟨hs, hf⟩
  rw [filled] at hp
  rw [atChunk, atChunk, Nat.mul_succ, BitVec.ofNat_add]
  simp only [pidChunkScanStep, hb, if_true, hp, ne_eq, not_true_eq_false, if_false]

theorem step_of_last (h : chunkCount memSz < 2 ^ 51) :
    pidChunkScanStep buffer remote memStart memSz pattern (atChunk (chunkCount memSz)) = some (.returned 0) := by
  have hb : ¬BitVec.ofNat 64 (chunkSize * chunkCount memSz) < memSz - .ofNat 64 chunkSize := by
    rw [lt_bound_iff h]
    exact lt_irrefl _
  simp only [pidChunkScanStep, hb, if_false]

-- Without a hit, the loop goes from chunk to chunk.
theorem reaches_atChunk {k : Nat} (hk : k ≤ chunkCount memSz)
    (hn : ∀ y < chunkSize * k, ¬Hit buffer remote memStart memSz pattern y) :
    Reaches (pidChunkScanStep buffer remote memStart memSz pattern) (atChunk 0) (atChunk k) := by
  induction k
  case zero => exact .refl
  case succ k hi =>
    have hr := hi (by omega) fun y hy => hn y (hy.trans_le (Nat.mul_le_mul_left _ k.le_succ))
    exact hr.tail (step_of_not_hit (by omega) hn)

theorem halts_iff_of_reaches {k : Nat} {found : Addr} {P : ScanState → Prop}
    (hr : Reaches (pidChunkScanStep buffer remote memStart memSz pattern) (atChunk 0) (atChunk k))
    (hs : pidChunkScanStep buffer remote memStart memSz pattern (atChunk k) = some (.returned found)) :
    Run.Halts (pidChunkScanStep buffer remote memStart memSz pattern) (.scanning 0) P ↔ P (.returned found) :=
  (Run.halts_iff_of_reaches (hr.tail hs)).trans <| Run.halts_iff_of_final rfl

-- The first hit decides what is returned.
theorem halts_iff_of_hit {P : ScanState → Prop} (h : Hit buffer remote memStart memSz pattern x)
    (hn : ∀ y < x, ¬Hit buffer remote memStart memSz pattern y) :
    Run.Halts (pidChunkScanStep buffer remote memStart memSz pattern) (.scanning 0) P ↔
      P (.returned (memStart + .ofNat 64 x + patternOffset)) := by
  have hx := Nat.div_add_mod x chunkSize
  have hj := Nat.mod_lt x (show chunkSize > 0 by decide)
  have hk : x / chunkSize < chunkCount memSz := Nat.div_lt_of_lt_mul h.scanned
  have hr := reaches_atChunk hk.le fun y hy => hn y (hy.trans_le (Nat.mul_div_le x chunkSize))
  have hs := step_of_hit hk hj (hx.symm ▸ h) (hx.symm ▸ hn)
  rw [hx] at hs
  exact halts_iff_of_reaches hr hs

theorem halts_iff_of_not_hit {P : ScanState → Prop} (hn : ∀ x, ¬Hit buffer remote memStart memSz pattern x) :
    Run.Halts (pidChunkScanStep buffer remote memStart memSz pattern) (.scanning 0) P ↔
      chunkCount memSz < 2 ^ 51 ∧ P (.returned 0) := by
  by_cases hc : chunkCount memSz < 2 ^ 51
  case pos =>
    rw [and_iff_right hc]
    exact halts_iff_of_reaches (reaches_atChunk le_rfl fun y _ => hn y) (step_of_last hc)
  case neg =>
    have he : chunkCount memSz = 2 ^ 51 := chunkCount_le.antisymm (not_lt.mp hc)
    refine iff_of_false ?_ fun h => hc h.left
    -- The counter wraps around to the first chunk.
    apply Run.not_halts (Q := fun s => ∃ k < 2 ^ 51, s = atChunk k)
    case hs =>
      intro _ b hs ⟨k, hk, ha⟩
      rw [ha, step_of_not_hit (he ▸ hk) fun y _ => hn y, Option.some.injEq] at hs
      by_cases hl : k + 1 < 2 ^ 51
      case pos => exact ⟨k + 1, hl, hs.symm⟩
      case neg =>
        have hl : k + 1 = 2 ^ 51 := by omega
        exact ⟨0, by decide, by rw [← hs, hl]; rfl⟩
    case hn =>
      intro _ ⟨k, hk, ha⟩
      rw [ha, step_of_not_hit (he ▸ hk) fun y _ => hn y]
      exact Option.some_ne_none _
    case ha => exact ⟨0, by decide, rfl⟩

theorem Candidate.lt (h : Candidate remote memStart memSz pattern x) : x < 2 ^ 64 := by
  have hs := h.scanned
  have hc : chunkCount memSz ≤ 2 ^ 51 := chunkCount_le
  simp only [chunkSize] at hs
  omega

theorem eq_of_add_eq {y : Nat} (h : memStart + .ofNat 64 x + patternOffset = memStart + .ofNat 64 y + patternOffset)
    (hx : x < 2 ^ 64) (hy : y < 2 ^ 64) : x = y := by
  have h : BitVec.ofNat 64 x = .ofNat 64 y := by bv_omega
  have h := congrArg BitVec.toNat h
  rwa [BitVec.toNat_ofNat, BitVec.toNat_ofNat, Nat.mod_eq_of_lt hx, Nat.mod_eq_of_lt hy] at h

-- The array fits somewhere, whatever the offset.
theorem exists_buffer (patternOffset : Addr) (stack : BitVec 64 → Addr → Mem) :
    ∃ buffer : Buffer patternOffset, ∀ i, buffer.stack i = stack i buffer.mem := by
  suffices h : ∃ a : Addr, a ≠ 0 ∧ ∀ j < chunkSize, a + .ofNat 64 j + patternOffset ≠ 0 by
    have ⟨a, ha, hf⟩ := h
    exact ⟨⟨fun i => stack i a, a, ha, hf⟩, fun i => rfl⟩
  by_cases h : ∀ j < chunkSize, (1 : Addr) + .ofNat 64 j + patternOffset ≠ 0
  case pos => exact ⟨1, by decide, h⟩
  case neg =>
    simp only [ne_eq, not_forall, not_not] at h
    have ⟨j, hj, he⟩ := h
    refine ⟨.ofNat 64 (1 + chunkSize), by decide, fun r hr => ?_⟩
    simp only [chunkSize] at *
    bv_omega

-- The strings that a string matches, followed by bytes that match nothing but wildcards.
theorem found_write_iff {a : Addr} {bs cs : Bytes} (hb : bs.length < maxPatternLength) :
    found (Mem.write (fun _ => 0xff) a cs) a bs ↔ Covered bs cs := by
  rw [found_iff]
  apply forall₂_congr
  intro j hj
  have ha : (a + BitVec.ofNat 64 j - a).toNat = j := by
    simp only [maxPatternLength] at hb
    bv_omega
  rw [Mem.write, ha]
  cases hc : cs[j]?
  case none   => simp [eq_comm]
  case some b => simp [or_comm]

theorem Covered.found {m : Mem} {a : Addr} {bs cs : Bytes} (h : Covered bs cs) (hc : found m a cs) :
    found m a bs := by
  rw [found_iff] at hc ⊢
  intro j hj
  cases h j hj
  case inl h => exact .inr h
  case inr h =>
    have ⟨hj, he⟩ := List.getElem?_eq_some_iff.mp h
    exact he ▸ hc j hj

theorem Firm.found {m : Mem} {a : Addr} (h : Firm pattern x) :
    found m a (behindChunk x (patternToByte pattern)) :=
  found_iff.mpr fun _ hj => .inr (h _ (getElem_mem hj))

theorem firm_iff : Firm pattern x ↔ Covered (behindChunk x (patternToByte pattern)) [] := by
  simp [Firm, Covered, forall_mem_iff_getElem]

-- Nothing completes the candidates except for wildcards.
theorem exists_blank (patternOffset : Addr) : ∃ buffer : Buffer patternOffset,
    ∀ {remote memStart memSz pattern x}, Hit buffer remote memStart memSz pattern x → Firm pattern x := by
  have ⟨buffer, hb⟩ := exists_buffer patternOffset fun _ a =>
    Mem.write (fun _ => 0xff) (a + .ofNat 64 chunkSize) []
  refine ⟨buffer, fun hx => ?_⟩
  have hf := hx.behindChunk
  rwa [hb, found_write_iff (length_behindChunk hx.scannable.right), ← firm_iff] at hf

-- A candidate is completed, with as few others as possible.
theorem exists_completing (patternOffset : Addr) (h : Candidate remote memStart memSz pattern x) :
    ∃ buffer : Buffer patternOffset, Hit buffer remote memStart memSz pattern x ∧
      ∀ y, Hit buffer remote memStart memSz pattern y → Firm pattern y ∨
        y / chunkSize = x / chunkSize ∧
          Covered (behindChunk y (patternToByte pattern)) (behindChunk x (patternToByte pattern)) := by
  have ⟨buffer, hb⟩ := exists_buffer patternOffset fun i a =>
    Mem.write (fun _ => 0xff) (a + .ofNat 64 chunkSize) <|
      if i = .ofNat 64 (chunkSize * (x / chunkSize)) then behindChunk x (patternToByte pattern) else []
  refine ⟨buffer, { h with behindChunk := ?_ }, fun y hy => ?_⟩
  case refine_1 =>
    rw [hb, if_pos rfl, found_write_iff (length_behindChunk h.scannable.right)]
    exact fun i hi => .inr (getElem?_eq_getElem hi)
  case refine_2 =>
    have hf := hy.behindChunk
    rw [hb, found_write_iff (length_behindChunk hy.scannable.right)] at hf
    split_ifs at hf with he
    case neg => exact .inl (firm_iff.mpr hf)
    case pos =>
      have hx := h.lt
      have hy := hy.lt
      have he := congrArg BitVec.toNat he
      simp only [BitVec.toNat_ofNat, chunkSize] at he
      exact .inr ⟨by simp only [chunkSize]; omega, hf⟩

-- What the chunks find is what a scan of the whole region finds, whatever the stack looks like.
def ChunksAgree (remote : Mem) (memStart : Addr) (memSz : BitVec 64) (pattern : Bytes) (patternOffset : Addr) : Prop :=
  ∀ buffer : Buffer patternOffset, Run.Halts (pidChunkScanStep buffer remote memStart memSz pattern) (.scanning 0)
    (· = .returned (regionScan remote memStart memSz pattern patternOffset))

theorem Candidate.exists_first (h : Candidate remote memStart memSz pattern x) :
    ∃ c, FirstCandidate remote memStart memSz pattern c := by
  have ⟨c, _, hc, hf⟩ := exists_least ⟨x, x.lt_succ_self, h⟩
  exact ⟨c, { hc with first := hf }⟩

-- A first candidate that is completed is returned.
theorem FirstCandidate.halts_iff {P : ScanState → Prop} (h : FirstCandidate remote memStart memSz pattern x)
    (hb : found (buffer.stack (.ofNat 64 (chunkSize * (x / chunkSize)))) (buffer.mem + .ofNat 64 chunkSize)
      (behindChunk x (patternToByte pattern))) :
    Run.Halts (pidChunkScanStep buffer remote memStart memSz pattern) (.scanning 0) P ↔
      P (.returned (memStart + .ofNat 64 x + patternOffset)) :=
  halts_iff_of_hit { h with behindChunk := hb } fun y hy hh => h.first y hy hh.toCandidate

namespace ChunksAgree

-- If there is a hit, then the scan of the region ends at one.
theorem exists_hit (ha : ChunksAgree remote memStart memSz pattern patternOffset)
    (h : Hit buffer remote memStart memSz pattern x) :
    ∃ y ≤ x, Hit buffer remote memStart memSz pattern y ∧
      regionScan remote memStart memSz pattern patternOffset = memStart + .ofNat 64 y + patternOffset := by
  have ⟨y, hl, hy, hf⟩ := exists_least ⟨x, x.lt_succ_self, h⟩
  have hr := (halts_iff_of_hit hy hf).mp (ha buffer)
  exact ⟨y, Nat.le_of_lt_succ hl, hy, ScanState.returned.inj hr.symm⟩

theorem regionScan_eq (ha : ChunksAgree remote memStart memSz pattern patternOffset)
    (h : FirstCandidate remote memStart memSz pattern x) :
    regionScan remote memStart memSz pattern patternOffset = memStart + .ofNat 64 x + patternOffset := by
  have ⟨buffer, hx, _⟩ := exists_completing patternOffset h.toCandidate
  have ⟨y, hl, hy, he⟩ := ha.exists_hit hx
  have hxy : y = x := hl.antisymm <| not_lt.mp fun hl => h.first y hl hy.toCandidate
  rwa [hxy] at he

-- No stack may complete a candidate without completing the first one.
theorem hit_first (ha : ChunksAgree remote memStart memSz pattern patternOffset)
    {c : Nat} (hc : FirstCandidate remote memStart memSz pattern c)
    (h : Hit buffer remote memStart memSz pattern x) : Hit buffer remote memStart memSz pattern c := by
  have ⟨y, _, hy, he⟩ := ha.exists_hit h
  rwa [eq_of_add_eq ((ha.regionScan_eq hc).symm.trans he) hc.lt hy.lt]

end ChunksAgree

-- An array that no pointer of the samples leaves.
theorem stackSample_ne : ∀ j < chunkSize, (0x7fff0000 : Addr) + .ofNat 64 j + 0 ≠ 0 := by
  intro j hj
  simp only [chunkSize] at hj
  bv_omega

end Memory

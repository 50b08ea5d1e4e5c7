import HenPlugins.Hde.Theorems.Disasm
import HenPlugins.Memory.Theorems.Cave
import HenPlugins.Memory.Theorems.InstructionSize

open List Mem Stride Hde

namespace Memory

variable {m m' : Mem} {a a' cave : Addr} {size x n : ℕ} {s : CaveState} {c : HookCall} {calls : List HookCall}

def codeAt (m : Mem) (a : Addr) (i : ℕ) : UInt8 :=
  m (a + .ofNat 64 i)

theorem isSome_disasm : (hde64Disasm (codeAt m a)).isSome := by
  have ⟨n, hs, h⟩ := exists_disassembled (codeAt m a)
  rw [h.result]
  rfl

theorem bounds_disasm {code : ℕ → UInt8} {hs : Hde.Hde64s} (h : hde64Disasm code = some hs) :
    1 ≤ hs.len.toNat ∧ hs.len.toNat ≤ 15 := by
  have ⟨n, hs', h'⟩ := exists_disassembled code
  obtain rfl := Option.some.inj <| h.symm.trans h'.result
  have hl := (@length_encode hs).left
  rw [h'.len]
  omega

-- The disassembler that the hooks are installed with
def disasm : Disasm := fun m a =>
  let hs := (hde64Disasm (codeAt m a)).get isSome_disasm
  { len    := hs.len.toNat
    error  := hs.has fError
    bounds := bounds_disasm (Option.some_get isSome_disasm).symm }

theorem disasm_eq {n : ℕ} {hs : Hde.Hde64s} (h : Disassembled (codeAt m a) n hs) :
    (disasm m a).len = hs.len.toNat ∧ (disasm m a).error = decide (hs.has fError) := by
  have he : (hde64Disasm (codeAt m a)).get isSome_disasm = hs := Option.get_of_eq_some _ h.result
  simp only [disasm, he, true_and]

-- An instruction that is copied is decoded in the same way, with all that is stored about it.
theorem hde64Disasm_congr (he : ¬(disasm m a).error)
    (hc : ∀ i < (disasm m a).len, m' (a' + .ofNat 64 i) = m (a + .ofNat 64 i)) :
    hde64Disasm (codeAt m' a') = hde64Disasm (codeAt m a) := by
  have ⟨n, hs, h⟩ := exists_disassembled (codeAt m a)
  have ⟨hl, herr⟩ := disasm_eq h
  have hne : ¬hs.has fErrorLength := fun hlen => by
    rw [herr, decide_eq_true_iff] at he
    exact he (h.any.mpr (.inl hlen))
  have hle : n + (encode hs).length ≤ 15 := not_lt.mp (mt h.length.mpr hne)
  rw [hl, h.len, min_eq_left hle] at hc
  exact (h.congr (codeAt m' a') hc).trans h.result.symm

theorem disasm_congr (h : hde64Disasm (codeAt m' a') = hde64Disasm (codeAt m a)) : disasm m' a' = disasm m a := by
  simp only [disasm, h]

-- Whole instructions that are copied
theorem boundaries_congr (hs : size ∈ boundaries disasm m a 0) (hf : ¬FailsBefore disasm m a 0 size)
    (hc : ∀ i < size, m' (a' + .ofNat 64 i) = m (a + .ofNat 64 i)) :
    (∀ x ≤ size, x ∈ boundaries disasm m' a' 0 ↔ x ∈ boundaries disasm m a 0) ∧
    ∀ x ∈ boundaries disasm m a 0, x < size →
      hde64Disasm (codeAt m' (a' + .ofNat 64 x)) = hde64Disasm (codeAt m (a + .ofNat 64 x)) ∧
        ¬(disasm m (a + .ofNat 64 x)).error := by
  have hd : ∀ x ∈ boundaries disasm m a 0, x < size →
      hde64Disasm (codeAt m' (a' + .ofNat 64 x)) = hde64Disasm (codeAt m (a + .ofNat 64 x)) ∧
        ¬(disasm m (a + .ofNat 64 x)).error := by
    intro x hx hl
    have he : ¬(disasm m (a + .ofNat 64 x)).error := fun he => hf ⟨x, hx, hl, he⟩
    refine ⟨hde64Disasm_congr he fun i hi => ?_, he⟩
    -- The next boundary is not behind the end.
    have hle : nextInstruction disasm m a x ≤ size := le_of_mem_walk_of_lt lt_nextInstruction hx hs hl
    rw [nextInstruction] at hle
    have h := hc (x + i) (by omega)
    rwa [BitVec.ofNat_add, ← BitVec.add_assoc, ← BitVec.add_assoc] at h
  refine ⟨fun x hx => mem_walk_congr lt_nextInstruction lt_nextInstruction hs (fun x hx hl => ?_) hx, hd⟩
  rw [nextInstruction, nextInstruction, disasm_congr (hd x hx hl).left]

-- The size consists of whole instructions that are decoded without an error.
theorem getInstructionSize_mem (h : getInstructionSize disasm m a n ≠ 0) :
    getInstructionSize disasm m a n ∈ boundaries disasm m a 0 ∧
      ¬FailsBefore disasm m a 0 (getInstructionSize disasm m a n) := by
  rw [getInstructionSize] at h ⊢
  split at h
  case isTrue => exact absurd rfl h
  case isFalse ha =>
    obtain ⟨s, hs⟩ := exists_isFirst (@lt_nextInstruction disasm m a) 0 n
    obtain ⟨hfails, hsum⟩ := instructionSizeLoop_eq (Nat.le_add_left ..) hs
    have hn : ¬FailsBefore disasm m a 0 s := fun hf => h (hfails hf)
    rw [if_neg ha, hsum hn]
    exact ⟨hs.left.left, hn⟩

section Run

-- The memory that a call finds once the cave has been set up, where it puts its block, and what is in the block
structure HasBlock (cave : Addr) (s : CaveState) (off : ℕ) (bs : Bytes) : Prop where
  once : s.once
  size : off + bs.length ≤ s.caveInstSize
  mem  : s.mem.Contains (cave + .ofNat 64 off) bs

theorem Admitted.hasBlock (h : Admitted disasm cave s c) :
    HasBlock cave (hookStep disasm cave s c) s.caveInstSize (block disasm cave s c) where
  once := h.once_eq
  size := by
    rw [hookStep, h.caveInstSize_eq, length_block]
  mem  := by
    have hs := h.size
    simp only [maxCaveSize] at hs
    rw [hookStep, h.mem_eq]
    exact Contains.write_self (by rw [length_block]; omega)

theorem HasBlock.step {off : ℕ} {bs : Bytes} (h : HasBlock cave s off bs) :
    HasBlock cave (hookStep disasm cave s c) off bs := by
  by_cases ha : Admitted disasm cave s c
  case neg =>
    rw [hookStep, createPrologueHook_of_not_admitted ha, caveBlockInit_of_once h.once]
    exact h
  case pos =>
    refine ⟨ha.once_eq, ?_, ?_⟩
    · rw [hookStep, ha.caveInstSize_eq]
      exact h.size.trans (Nat.le_add_right ..)
    · rw [hookStep, ha.mem_eq, caveBlockInit_of_once h.once]
      refine h.mem.write (disjoint_region_add h.size ?_)
      have hs := ha.size
      simp only [maxCaveSize] at hs
      rw [length_block]
      omega

theorem HasBlock.run {off : ℕ} {bs : Bytes} (h : HasBlock cave s off bs) :
    HasBlock cave (runCalls disasm cave s calls) off bs := by
  induction calls generalizing s
  case nil          => exact h
  case cons c calls hi => exact hi h.step

-- At the end of any run, the block of every call that was admitted consists of the instructions at the address of the
-- hook, and the jump back is where they end.
theorem createPrologueHook_relocates (cave : Addr) (m : Mem) (pre post : List HookCall) (c : HookCall)
    (ha : Admitted disasm cave (runCalls disasm cave (.init m) pre) c) :
    let s    := runCalls disasm cave (.init m) pre
    let code := (caveBlockInit cave s).mem
    let new  := (createPrologueHook disasm cave s c.address c.minInstructionSize).1
    let size := copied disasm cave s c
    let m'   := (runCalls disasm cave (.init m) (pre ++ c :: post)).mem
    c.minInstructionSize.toNat ≤ size ∧ size ∈ boundaries disasm code c.address 0 ∧
    (∀ x ≤ size, x ∈ boundaries disasm m' new 0 ↔ x ∈ boundaries disasm code c.address 0) ∧
    (∀ i < size, m' (new + .ofNat 64 i) = code (c.address + .ofNat 64 i)) ∧
    (∀ x ∈ boundaries disasm code c.address 0, x < size → ∃ hs,
      hde64Disasm (codeAt code (c.address + .ofNat 64 x)) = some hs ∧
      hde64Disasm (codeAt m' (new + .ofNat 64 x)) = some hs ∧ ¬hs.has fError) ∧
    m'.Contains (new + .ofNat 64 size) (jump64 (c.address + .ofNat 64 size)) := by
  intro s code new size m'
  have hi : HasBlock cave (runCalls disasm cave (hookStep disasm cave s c) post) s.caveInstSize (block disasm cave s c) :=
    ha.hasBlock.run
  have hm : m' = (runCalls disasm cave (hookStep disasm cave s c) post).mem := by
    simp only [m', runCalls, foldl_append, foldl_cons]
    rfl
  have hnew : new = cave + .ofNat 64 s.caveInstSize := ha.block_addr
  obtain ⟨hcode, hjump⟩ := Contains.append.mp <| (hi.mem : Contains _ _ (_ ++ _))
  rw [length_read, ← hnew, ← hm] at hjump
  rw [← hnew, ← hm] at hcode
  have hd := ha.decodes
  obtain ⟨hmem, hfails⟩ := getInstructionSize_mem hd
  have hc : ∀ i < size, m' (new + .ofNat 64 i) = code (c.address + .ofNat 64 i) := by
    intro i hi
    have h := hcode.apply (i := i) (by rwa [length_read])
    rwa [getElem_read] at h
  obtain ⟨hb, hx⟩ := boundaries_congr hmem hfails hc
  refine ⟨getInstructionSize_ge.resolve_left hd, hmem, hb, hc, fun x hm hl => ?_, hjump⟩
  obtain ⟨heq, he⟩ := hx x hm hl
  obtain ⟨n, hs, h⟩ := exists_disassembled (codeAt code (c.address + .ofNat 64 x))
  rw [(disasm_eq h).right, decide_eq_true_iff] at he
  exact ⟨hs, h.result, heq.trans h.result, he⟩

-- `push rbp`, `mov rbp, rsp`, `sub rsp, 32`
def prologue : Mem :=
  Mem.write (fun _ => 0x90) 0x400000 [0x55, 0x48, 0x89, 0xe5, 0x48, 0x83, 0xec, 0x20]

theorem copied_prologue : copied disasm 0x500000 (.init prologue) ⟨0x400000, 5⟩ = 8 := by
  decide +kernel

theorem admitted_prologue : Admitted disasm 0x500000 (.init prologue) ⟨0x400000, 5⟩ where
  address := by decide
  min     := by decide
  decodes := by
    rw [copied_prologue]
    decide
  size    := by
    rw [copied_prologue]
    decide

-- The second hook is in the middle of the first function.
theorem createPrologueHook_relocates_prologue :
    (runCalls disasm 0x500000 (.init prologue) [⟨0x400000, 5⟩, ⟨0x400004, 5⟩]).mem.Contains 0x500008 (jump64 0x400008) := by
  have ⟨_, _, _, _, _, h⟩ := createPrologueHook_relocates 0x500000 prologue [] [⟨0x400004, 5⟩] ⟨0x400000, 5⟩ admitted_prologue
  have hs : copied disasm 0x500000 (runCalls disasm 0x500000 (.init prologue) []) ⟨0x400000, 5⟩ = 8 := copied_prologue
  have ha : (createPrologueHook disasm 0x500000 (runCalls disasm 0x500000 (.init prologue) []) 0x400000 5).1 = 0x500000 :=
    admitted_prologue.block_addr
  rw [hs, ha] at h
  exact h

end Run

end Memory

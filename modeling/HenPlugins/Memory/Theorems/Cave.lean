import HenPlugins.Memory.Cave

open List Mem

namespace Memory

variable {disasm : Disasm} {cave : Addr} {s : CaveState} {m : Mem} {c : HookCall} {calls : List HookCall}
  {address : Addr} {n fuel size : Nat} {min : Int}

theorem instructionSizeLoop_ge (h : n ≤ size + fuel) :
    instructionSizeLoop disasm m address n fuel size = 0 ∨
    n ≤ instructionSizeLoop disasm m address n fuel size := by
  induction fuel generalizing size
  case zero => exact .inr h
  case succ fuel hi =>
    rw [instructionSizeLoop]
    split
    case isFalse hn => exact .inr (not_lt.mp hn)
    case isTrue =>
      have := (disasm m (address + .ofNat 64 size)).bounds
      simp only
      split
      · exact .inl rfl
      · exact hi (by omega)

-- The length of whole instructions that is copied, or zero if they cannot be decoded.
theorem getInstructionSize_ge :
    getInstructionSize disasm m address n = 0 ∨ n ≤ getInstructionSize disasm m address n := by
  rw [getInstructionSize]
  split
  · exact .inl rfl
  · exact instructionSizeLoop_ge (by omega)

-- The number of bytes that a call copies, once the cave has been set up.
def copied (disasm : Disasm) (cave : Addr) (s : CaveState) (c : HookCall) : Nat :=
  getInstructionSize disasm (caveBlockInit cave s).mem c.address c.minInstructionSize.toNat

-- A call passes all checks.
structure Admitted (disasm : Disasm) (cave : Addr) (s : CaveState) (c : HookCall) : Prop where
  address : c.address ≠ 0
  min     : 5 ≤ c.minInstructionSize
  decodes : copied disasm cave s c ≠ 0
  size    : s.caveInstSize + copied disasm cave s c + 6 ≤ maxCaveSize

-- What an admitted call adds to the cave: the copied instructions and a jump back behind them.
def block (disasm : Disasm) (cave : Addr) (s : CaveState) (c : HookCall) : Bytes :=
  (caveBlockInit cave s).mem.read c.address (copied disasm cave s c) ++
    jump64 (c.address + .ofNat 64 (copied disasm cave s c))

@[simp]
theorem length_block : (block disasm cave s c).length = copied disasm cave s c + 14 := by
  simp [block]

section Init

theorem caveBlockInit_of_once (h : s.once) : caveBlockInit cave s = s := by
  rw [caveBlockInit, if_pos h]

@[simp]
theorem caveBlockInit_caveInstSize : (caveBlockInit cave s).caveInstSize = s.caveInstSize := by
  rw [caveBlockInit]
  split <;> rfl

theorem caveBlockInit_once : (caveBlockInit cave s).once := by
  rw [caveBlockInit]
  split
  case isTrue h => exact h
  case isFalse  => rfl

-- The cave is filled with 4096 bytes.
theorem caveBlockInit_writes : ∃ ws, (caveBlockInit cave s).writes = s.writes ++ ws ∧
    ∀ w ∈ ws, region w.1 w.2.length ⊆ region cave maxCaveSize := by
  rw [caveBlockInit]
  split
  case isTrue  => exact ⟨[], by simp, by simp⟩
  case isFalse =>
    have hm : ¬maxCaveSize > maxMemset := by decide
    refine ⟨_, by simp only [CaveState.sysProcMemset, if_neg hm, CaveState.sysProcRw, append_assoc]; rfl, ?_⟩
    rw [singleton_append, forall_mem_cons, forall_mem_singleton, length_replicate]
    exact ⟨region_mono (show 6 ≤ maxCaveSize by decide), subset_rfl⟩

theorem caveBlockInit_eqOn : Set.EqOn (caveBlockInit cave s).mem s.mem (region cave maxCaveSize)ᶜ := by
  intro x hx
  rw [caveBlockInit]
  split
  case isTrue => rfl
  case isFalse =>
    have hm : ¬maxCaveSize > maxMemset := by decide
    simp only [CaveState.sysProcMemset, if_neg hm, CaveState.sysProcRw, sysProcRw]
    have h₁ : x ∈ (region cave (replicate maxCaveSize (0xcc : UInt8)).length)ᶜ := by rwa [length_replicate]
    have h₂ : x ∈ (region cave 6)ᶜ := fun hm => hx (region_mono (by decide) hm)
    exact (write_eqOn h₁).trans (write_eqOn h₂)

end Init

theorem createPrologueHook_of_not_admitted (h : ¬Admitted disasm cave s c) :
    createPrologueHook disasm cave s c.address c.minInstructionSize = (0, caveBlockInit cave s) := by
  rw [createPrologueHook]
  split
  case isTrue => rfl
  case isFalse ha =>
    simp only
    split
    case isTrue => rfl
    case isFalse hs =>
      have ⟨ha, hm⟩ := not_or.mp ha
      have ⟨hd, hv⟩ := not_or.mp hs
      refine absurd ⟨ha, not_lt.mp hm, hd, ?_⟩ h
      simpa [validnateBlockSize, jmpStub, copied] using hv

namespace Admitted

variable (h : Admitted disasm cave s c)

include h

theorem createPrologueHook_eq : createPrologueHook disasm cave s c.address c.minInstructionSize =
    let s' := ((caveBlockInit cave s).sysProcRw (cave + .ofNat 64 s.caveInstSize)
      ((caveBlockInit cave s).mem.read c.address (copied disasm cave s c)))
    let s' := s'.sysProcRw (cave + .ofNat 64 s.caveInstSize + .ofNat 64 (copied disasm cave s c)) jmpStub
    let s' := s'.sysProcRw (cave + .ofNat 64 s.caveInstSize + .ofNat 64 (copied disasm cave s c) + 6)
      (LittleEndian.encode 8 (c.address + .ofNat 64 (copied disasm cave s c)).toNat)
    (cave + .ofNat 64 s.caveInstSize, { s' with caveInstSize := s.caveInstSize + (copied disasm cave s c + 14) }) := by
  have hv : validnateBlockSize maxCaveSize (s.caveInstSize + copied disasm cave s c + jmpStub.length) := by
    simpa [validnateBlockSize, jmpStub] using h.size
  have ha : ¬(c.address = 0 ∨ c.minInstructionSize < 5) := not_or.mpr ⟨h.address, not_lt.mpr h.min⟩
  have hd := h.decodes
  rw [copied] at hd hv
  rw [createPrologueHook, if_neg ha]
  simp only [caveBlockInit_caveInstSize, hv, hd, Bool.not_true, Bool.false_eq_true, or_self, if_false]
  rfl

theorem block_addr : (createPrologueHook disasm cave s c.address c.minInstructionSize).1 =
    cave + .ofNat 64 s.caveInstSize := by
  rw [h.createPrologueHook_eq]

theorem mem_eq : (createPrologueHook disasm cave s c.address c.minInstructionSize).2.mem =
    (caveBlockInit cave s).mem.write (cave + .ofNat 64 s.caveInstSize) (block disasm cave s c) := by
  have hl : ((caveBlockInit cave s).mem.read c.address (copied disasm cave s c)).length = copied disasm cave s c :=
    length_read
  have hs : (block disasm cave s c).length ≤ 2 ^ 64 := by
    have hs := h.size
    simp only [maxCaveSize] at hs
    rw [length_block]
    omega
  have hw := write_append (m := (caveBlockInit cave s).mem) (a := cave + .ofNat 64 s.caveInstSize) hs
  rw [hl] at hw
  rw [h.createPrologueHook_eq, block, ← hw, ← writeJump64_eq]
  rfl

theorem caveInstSize_eq : (createPrologueHook disasm cave s c.address c.minInstructionSize).2.caveInstSize =
    s.caveInstSize + (copied disasm cave s c + 14) := by
  rw [h.createPrologueHook_eq]

theorem once_eq : (createPrologueHook disasm cave s c.address c.minInstructionSize).2.once := by
  rw [h.createPrologueHook_eq]
  exact caveBlockInit_once

-- All of the writes together cover the block and no more.
theorem writes_eq : ∃ ws, (createPrologueHook disasm cave s c.address c.minInstructionSize).2.writes =
      (caveBlockInit cave s).writes ++ ws ∧
    ∀ w ∈ ws, region w.1 w.2.length ⊆ region (cave + .ofNat 64 s.caveInstSize) (copied disasm cave s c + 14) := by
  rw [h.createPrologueHook_eq]
  refine ⟨_, by simp only [CaveState.sysProcRw, append_assoc]; rfl, ?_⟩
  simp only [singleton_append, forall_mem_cons, length_read, LittleEndian.length_encode]
  refine ⟨region_mono (Nat.le_add_right ..), region_subset (Nat.add_le_add_left (by decide) _), ?_, by simp⟩
  have h6 : (6 : Addr) = .ofNat 64 6 := rfl
  rw [BitVec.add_assoc, h6, ← BitVec.ofNat_add]
  exact region_subset (by omega)

end Admitted

-- What is required to stay inside the cave.
structure InCave (cave : Addr) (s : CaveState) : Prop where
  size   : s.caveInstSize ≤ maxCaveSize
  writes : ∀ w ∈ s.writes, region w.1 w.2.length ⊆ region cave maxCaveSize

-- A call does not copy anything, is rejected, or leaves room for the quadword behind the jump.
def Fits (disasm : Disasm) (cave : Addr) (s : CaveState) (c : HookCall) : Prop :=
  c.address = 0 ∨ c.minInstructionSize < 5 ∨ copied disasm cave s c = 0 ∨
  maxCaveSize < s.caveInstSize + copied disasm cave s c + 6 ∨
  s.caveInstSize + copied disasm cave s c + 14 ≤ maxCaveSize

theorem fits_iff : Fits disasm cave s c ↔
    (Admitted disasm cave s c → s.caveInstSize + copied disasm cave s c + 14 ≤ maxCaveSize) := by
  constructor
  case mp =>
    rintro (hf | hf | hf | hf | hf) h
    · exact absurd hf h.address
    · exact absurd hf (not_lt.mpr h.min)
    · exact absurd hf h.decodes
    · exact absurd hf (not_lt.mpr h.size)
    · exact hf
  case mpr =>
    intro h
    rw [Fits]
    by_contra! hn
    have ⟨ha, hm, hd, hs, hn⟩ := hn
    exact not_lt.mpr (h ⟨ha, hm, hd, hs⟩) hn

abbrev hookStep (disasm : Disasm) (cave : Addr) (s : CaveState) (c : HookCall) : CaveState :=
  (createPrologueHook disasm cave s c.address c.minInstructionSize).2

theorem inCave_caveBlockInit (h : InCave cave s) : InCave cave (caveBlockInit cave s) where
  size   := by
    rw [caveBlockInit_caveInstSize]
    exact h.size
  writes := by
    have ⟨ws, he, hw⟩ := @caveBlockInit_writes cave s
    rw [he, forall_mem_append]
    exact ⟨h.writes, hw⟩

-- A call stays inside the cave if and only if it fits.
theorem inCave_step_iff (h : InCave cave s) : InCave cave (hookStep disasm cave s c) ↔ Fits disasm cave s c := by
  rw [fits_iff]
  by_cases ha : Admitted disasm cave s c
  case neg =>
    have hi : InCave cave (hookStep disasm cave s c) := by
      rw [hookStep, createPrologueHook_of_not_admitted ha]
      exact inCave_caveBlockInit h
    exact iff_of_true hi fun h => absurd h ha
  case pos =>
    rw [imp_iff_right ha]
    constructor
    case mp =>
      intro hi
      have := ha.caveInstSize_eq ▸ hi.size
      omega
    case mpr =>
      intro hs
      constructor
      case size =>
        rw [hookStep, ha.caveInstSize_eq]
        omega
      case writes =>
        have ⟨ws, he, hw⟩ := ha.writes_eq
        rw [hookStep, he, forall_mem_append]
        refine ⟨(inCave_caveBlockInit h).writes, fun w hm => (hw w hm).trans (region_subset ?_)⟩
        omega

-- Every call in the sequence fits when it is made.
def AllFit (disasm : Disasm) (cave : Addr) : CaveState → List HookCall → Prop
  | _, []         => True
  | s, c :: calls => Fits disasm cave s c ∧ AllFit disasm cave (hookStep disasm cave s c) calls

theorem inCave_run_iff (h : InCave cave s) :
    (∀ pre, pre <+: calls → InCave cave (runCalls disasm cave s pre)) ↔ AllFit disasm cave s calls := by
  induction calls generalizing s
  case nil => simpa [runCalls, AllFit] using h
  case cons c calls hi =>
    rw [AllFit]
    constructor
    case mp =>
      intro hp
      have hc : InCave cave (hookStep disasm cave s c) := hp [c] (by simp)
      refine ⟨(inCave_step_iff h).mp hc, (hi hc).mp fun pre hpre => ?_⟩
      exact hp (c :: pre) (cons_prefix_cons.mpr ⟨rfl, hpre⟩)
    case mpr =>
      intro ⟨hf, ha⟩ pre hpre
      have hc := (inCave_step_iff h).mpr hf
      cases pre
      case nil => exact h
      case cons d pre =>
        have ⟨he, hpre⟩ := cons_prefix_cons.mp hpre
        exact he ▸ (hi hc).mpr ha pre hpre

theorem inCave_init : InCave cave (.init m) where
  size   := Nat.zero_le _
  writes := forall_mem_nil _

-- The checked size leaves out the quadword behind the jump, so every call has to leave room for it.
theorem createPrologueHook_inCave_iff (disasm : Disasm) (cave : Addr) (m : Mem) (calls : List HookCall) :
    (∀ pre, pre <+: calls → InCave cave (runCalls disasm cave (.init m) pre)) ↔
      AllFit disasm cave (.init m) calls :=
  inCave_run_iff inCave_init

-- Code in which every instruction has five bytes.
def fiveBytes : Disasm :=
  fun _ _ => ⟨5, false, by decide⟩

theorem copied_fiveBytes : copied fiveBytes cave s ⟨0x400000, 5⟩ = 5 := rfl

theorem caveInstSize_fiveBytes (h : n ≤ 216) :
    (runCalls fiveBytes cave (.init m) (replicate n ⟨0x400000, 5⟩)).caveInstSize = 19 * n := by
  induction n
  case zero => rfl
  case succ n hi =>
    have hi := hi (by omega)
    rw [replicate_succ', runCalls, foldl_append]
    have ha : Admitted fiveBytes cave (runCalls fiveBytes cave (.init m) (replicate n ⟨0x400000, 5⟩)) ⟨0x400000, 5⟩ := {
      address := by decide, min := by decide,
      decodes := by
        rw [copied_fiveBytes]
        decide
      size := by
        rw [hi, copied_fiveBytes]
        simp only [maxCaveSize]
        omega }
    have hs := ha.caveInstSize_eq
    rw [hi, copied_fiveBytes] at hs
    exact hs.trans (by omega)

-- The 216th hook of five bytes starts at offset 4085 of the cave, and it takes up 19 bytes.
theorem createPrologueHook_leaves_cave :
    ¬InCave 0x500000 (runCalls fiveBytes 0x500000 (.init fun _ => 0x90) (replicate 216 ⟨0x400000, 5⟩)) := by
  intro h
  have := h.size
  rw [caveInstSize_fiveBytes le_rfl] at this
  exact absurd this (by decide)

end Memory

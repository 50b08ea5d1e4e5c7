import HenPlugins.Memory.Theorems.Cave

open List Mem

namespace Memory

-- What `hde64_disasm` stores about operands. The immediate is sign-extended.
structure Instruction extends Hde64s where
  fRelative : Bool
  imm       : BitVec 64
  fModrm    : Bool
  modrmMod  : BitVec 2
  modrmRm   : BitVec 3
  p67       : Bool
  disp32    : BitVec 32

namespace Instruction

abbrev ripRelative (i : Instruction) : Bool :=
  i.fModrm && i.modrmMod = 0 && i.modrmRm = 5 && !i.p67

abbrev pcRelative (i : Instruction) : Bool :=
  i.fRelative || i.ripRelative

-- The addresses that an instruction refers to by their distance from the next one, if it is executed at `x`.
def targets (i : Instruction) (x : Addr) : List Addr :=
  (if i.fRelative then [x + .ofNat 64 i.len + i.imm] else []) ++
    if i.ripRelative then [x + .ofNat 64 i.len + i.disp32.signExtend 64] else []

end Instruction

abbrev Decoder := Mem → Addr → Instruction

abbrev Decoder.disasm (decode : Decoder) : Disasm :=
  fun m x => (decode m x).toHde64s

-- An instruction is decoded from its bytes, wherever they are.
def Decoder.Local (decode : Decoder) : Prop :=
  ∀ m x m' x', (decode m x).error = false → m'.read x' (decode m x).len = m.read x (decode m x).len →
    decode m' x' = decode m x

-- The offsets of the instructions that `GetInstructionSize` decodes.
def instructionOffsets (disasm : Disasm) (m : Mem) (address : Addr) (minSize : Nat) : (fuel : Nat) → Nat → List Nat
  | 0, _ => []
  | fuel + 1, instructionSize =>
    if instructionSize < minSize then
      let hs := disasm m (address + .ofNat 64 instructionSize)
      instructionSize :: instructionOffsets disasm m address minSize fuel (instructionSize + hs.len)
    else []

variable {decode : Decoder} {cave address : Addr} {s : CaveState} {m : Mem} {c : HookCall} {n fuel size o : Nat}

-- The instructions that a call copies.
def copiedOffsets (decode : Decoder) (cave : Addr) (s : CaveState) (c : HookCall) : List Nat :=
  instructionOffsets decode.disasm (caveBlockInit cave s).mem c.address c.minInstructionSize.toNat
    c.minInstructionSize.toNat 0

-- The memory after a call, and the address it returns.

abbrev hooked (decode : Decoder) (cave : Addr) (s : CaveState) (c : HookCall) : Mem :=
  (createPrologueHook decode.disasm cave s c.address c.minInstructionSize).2.mem

abbrev hookAddr (decode : Decoder) (cave : Addr) (s : CaveState) (c : HookCall) : Addr :=
  (createPrologueHook decode.disasm cave s c.address c.minInstructionSize).1

def originalAt (decode : Decoder) (cave : Addr) (s : CaveState) (c : HookCall) (o : Nat) : Instruction :=
  decode (caveBlockInit cave s).mem (c.address + .ofNat 64 o)

def copyAt (decode : Decoder) (cave : Addr) (s : CaveState) (c : HookCall) (o : Nat) : Instruction :=
  decode (hooked decode cave s c) (hookAddr decode cave s c + .ofNat 64 o)

-- The copies refer to the same addresses as the instructions of the function.
def KeepsTargets (decode : Decoder) (cave : Addr) (s : CaveState) (c : HookCall) : Prop :=
  ∀ o ∈ copiedOffsets decode cave s c,
    (copyAt decode cave s c o).targets (hookAddr decode cave s c + .ofNat 64 o) =
      (originalAt decode cave s c o).targets (c.address + .ofNat 64 o)

theorem le_instructionSizeLoop {disasm : Disasm} (h : instructionSizeLoop disasm m address n fuel size ≠ 0) :
    size ≤ instructionSizeLoop disasm m address n fuel size := by
  induction fuel generalizing size
  case zero => exact le_rfl
  case succ fuel hi =>
    revert h
    rw [instructionSizeLoop]
    split
    case isFalse => exact fun _ => le_rfl
    case isTrue =>
      simp only
      split
      case isTrue  => exact fun h => absurd rfl h
      case isFalse => exact fun h => (Nat.le_add_right ..).trans (hi h)

-- What is decoded has no error and is copied as a whole.
theorem mem_instructionOffsets {disasm : Disasm} (h : instructionSizeLoop disasm m address n fuel size ≠ 0)
    (ho : o ∈ instructionOffsets disasm m address n fuel size) :
    (disasm m (address + .ofNat 64 o)).error = false ∧
      o + (disasm m (address + .ofNat 64 o)).len ≤ instructionSizeLoop disasm m address n fuel size := by
  induction fuel generalizing size
  case zero => simp [instructionOffsets] at ho
  case succ fuel hi =>
    revert h
    rw [instructionOffsets] at ho
    rw [instructionSizeLoop]
    split at ho
    case isFalse => simp at ho
    case isTrue hn =>
      rw [if_pos hn]
      simp only
      split
      case isTrue => exact fun h => absurd rfl h
      case isFalse he =>
        intro h
        cases mem_cons.mp ho
        case inr ho => exact hi h ho
        case inl ho =>
          subst ho
          exact ⟨by simpa using he, le_instructionSizeLoop h⟩

theorem admitted_of_ne_zero (h : hookAddr decode cave s c ≠ 0) : Admitted decode.disasm cave s c := by
  by_contra hn
  exact h (congrArg Prod.fst (createPrologueHook_of_not_admitted hn))

theorem read_hooked (ha : Admitted decode.disasm cave s c) (hk : o + n ≤ copied decode.disasm cave s c) :
    (hooked decode cave s c).read (cave + .ofNat 64 s.caveInstSize + .ofNat 64 o) n =
      (caveBlockInit cave s).mem.read (c.address + .ofNat 64 o) n := by
  have hs : (block decode.disasm cave s c).length ≤ 2 ^ 64 := by
    have hs := ha.size
    simp only [maxCaveSize] at hs
    rw [length_block]
    omega
  have hc := (Contains.append.mp <| Contains.write_self (m := (caveBlockInit cave s).mem)
    (a := cave + .ofNat 64 s.caveInstSize) hs).left
  rw [hooked, ha.mem_eq]
  apply ext_getElem (by simp)
  intro i hi hi'
  have hi := length_read ▸ hi
  have hr : o + i < ((caveBlockInit cave s).mem.read c.address (copied decode.disasm cave s c)).length := by
    rw [length_read]
    omega
  have he := contains_iff.mp hc _ hr
  rw [BitVec.ofNat_add, ← BitVec.add_assoc] at he
  simp only [getElem_read] at he ⊢
  rw [BitVec.add_assoc c.address, ← BitVec.ofNat_add]
  exact he

-- The instructions are copied byte by byte.
theorem copyAt_eq (hd : decode.Local) (h : hookAddr decode cave s c ≠ 0) (ho : o ∈ copiedOffsets decode cave s c) :
    copyAt decode cave s c o = originalAt decode cave s c o := by
  have ha := admitted_of_ne_zero h
  have hn := ha.decodes
  rw [copied, getInstructionSize, if_neg ha.address] at hn
  obtain ⟨he, hl⟩ := mem_instructionOffsets hn ho
  apply hd _ _ _ _ he
  rw [hookAddr, ha.block_addr]
  apply read_hooked ha
  rwa [copied, getInstructionSize, if_neg ha.address]

-- The operands are the same wherever the instruction is, so what they refer to moves with it.
theorem targets_eq_iff {i : Instruction} {x y : Addr} : i.targets x = i.targets y ↔ i.pcRelative = false ∨ x = y := by
  constructor
  case mpr =>
    rintro (h | rfl)
    case inr => rfl
    case inl =>
      have ⟨hf, hr⟩ := Bool.or_eq_false_iff.mp h
      simp only [Instruction.targets, hf, hr, Bool.false_eq_true, if_false]
  case mp =>
    intro h
    by_contra! hn
    have ⟨hp, hn⟩ := hn
    have hne {z : Addr} : x + .ofNat 64 i.len + z ≠ y + .ofNat 64 i.len + z := fun he =>
      hn (add_right_cancel (add_right_cancel he))
    rw [Instruction.targets, Instruction.targets] at h
    cases hf : i.fRelative
    case true =>
      rw [hf, if_pos rfl, if_pos rfl] at h
      exact hne (List.cons.inj h).left
    case false =>
      have hr : i.ripRelative = true := (Bool.or_eq_true_iff.mp (Bool.not_eq_false _ ▸ hp)).resolve_left (hf ▸ Bool.false_ne_true)
      rw [hf, hr] at h
      exact hne (List.cons.inj h).left

-- Instructions with a PC-relative operand are copied like all others, so no copy of them keeps its target
-- unless it is where the function is.
theorem keepsTargets_iff (decode : Decoder) (cave : Addr) (s : CaveState) (c : HookCall) (hd : decode.Local)
    (h : hookAddr decode cave s c ≠ 0) : KeepsTargets decode cave s c ↔
      (∀ o ∈ copiedOffsets decode cave s c, (originalAt decode cave s c o).pcRelative = false) ∨
        cave + .ofNat 64 s.caveInstSize = c.address := by
  have ha : hookAddr decode cave s c = cave + .ofNat 64 s.caveInstSize := (admitted_of_ne_zero h).block_addr
  constructor
  case mpr =>
    intro hc o ho
    rw [copyAt_eq hd h ho, targets_eq_iff, ha]
    exact hc.imp (fun hp => hp o ho) (congrArg (· + _))
  case mp =>
    intro hk
    by_contra! hn
    have ⟨⟨o, ho, hp⟩, hne⟩ := hn
    have ht := hk o ho
    rw [copyAt_eq hd h ho, targets_eq_iff, ha] at ht
    exact ht.elim hp fun he => hne (add_right_cancel he)

theorem bounds_one : 1 ≤ 1 ∧ 1 ≤ 15 :=
  ⟨le_rfl, by decide⟩

theorem bounds_five : 1 ≤ 5 ∧ 5 ≤ 15 :=
  ⟨by decide, by decide⟩

-- Calls and the instructions that do nothing, as `hde64_disasm` decodes them.
def callsAndNops : Decoder := fun m x =>
  let i : Instruction := {
    len := 1, error := m x ≠ 0x90, bounds := bounds_one, fRelative := false, imm := 0, fModrm := false
    modrmMod := 0, modrmRm := 0, p67 := false, disp32 := 0 }
  if m x = 0xe8 then
    { i with
      len := 5, error := false, bounds := bounds_five, fRelative := true
      imm := (BitVec.ofNat 32 (LittleEndian.decode (m.read (x + .ofNat 64 1) 4))).signExtend 64 }
  else i

theorem callsAndNops_local : callsAndNops.Local := by
  intro m x m' x' he hr
  have h₁ (m : Mem) (x : Addr) : m.read x 1 = [m x] := by simp [Mem.read]
  by_cases hc : m x = 0xe8
  case pos =>
    have hl : (callsAndNops m x).len = 1 + 4 := by simp only [callsAndNops, if_pos hc]
    rw [hl, read_add, read_add] at hr
    obtain ⟨hb, hi⟩ := append_inj hr (by simp)
    have hb : m' x' = m x := by simpa [h₁] using hb
    simp only [callsAndNops, hb, hi, if_pos hc]
  case neg =>
    have hl : (callsAndNops m x).len = 1 := by simp only [callsAndNops, if_neg hc]
    have hb : m' x' = m x := by simpa [hl, h₁] using hr
    simp only [callsAndNops, hb, if_neg hc]

theorem keepsTargets_sample :
    KeepsTargets callsAndNops 0x500000 (.init fun _ => 0x90) ⟨0x400000, 5⟩ :=
  (keepsTargets_iff callsAndNops 0x500000 (.init fun _ => 0x90) ⟨0x400000, 5⟩ callsAndNops_local (by decide +kernel)).mpr
    (.inl (by decide +kernel))

-- The function starts with a call of the one at 0x400105.
theorem createPrologueHook_moves_target :
    let c : HookCall := ⟨0x400000, 5⟩
    let s : CaveState := .init (Mem.write (fun _ => 0x90) 0x400000 [0xe8, 0x00, 0x01, 0x00, 0x00])
    hookAddr callsAndNops 0x500000 s c = 0x500000 ∧ ¬KeepsTargets callsAndNops 0x500000 s c := by
  intro c s
  refine ⟨by decide +kernel, fun h => ?_⟩
  have := h 0 (by decide +kernel)
  exact absurd this (by decide +kernel)

end Memory

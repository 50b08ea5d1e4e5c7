import HenPlugins.Library.Decoder
import HenPlugins.Hde.Table

open List Decoder

namespace Hde

-- The unions are given as their bytes.
structure Hde64s where
  len       : UInt8
  pRep      : UInt8
  pLock     : UInt8
  pSeg      : UInt8
  p66       : UInt8
  p67       : UInt8
  rex       : UInt8
  rexW      : UInt8
  rexR      : UInt8
  rexX      : UInt8
  rexB      : UInt8
  opcode    : UInt8
  opcode2   : UInt8
  modrm     : UInt8
  modrmMod  : UInt8
  modrmReg  : UInt8
  modrmRm   : UInt8
  sib       : UInt8
  sibScale  : UInt8
  sibIndex  : UInt8
  sibBase   : UInt8
  imm       : Bytes
  disp      : Bytes
  flags     : UInt32

def Hde64s.zero : Hde64s :=
  ⟨0, 0, 0, 0, 0, 0, 0, 0, 0, 0, 0, 0, 0, 0, 0, 0, 0, 0, 0, 0, 0, replicate 8 0, replicate 4 0, 0⟩

def Hde64s.flagIf (hs : Hde64s) (b : Prop) [Decidable b] (f : UInt32) : Hde64s :=
  { hs with flags := hs.flags ||| if b then f else 0 }

-- A member of a union is stored.
def store (u bs : Bytes) : Bytes :=
  bs ++ u.drop bs.length

-- The local variables of `hde64_disasm`. `ht` is given as an offset into the table.
structure Locals where
  hs     : Hde64s
  pref   : UInt8
  c      : UInt8
  op64   : UInt8
  ht     : Nat
  opcode : UInt8
  cflags : UInt8
  x      : UInt8

def Locals.start : Locals :=
  ⟨.zero, 0, 0, 0, 0, 0, 0, 0⟩

-- Reading outside of the table fails.
def ht (i : Nat) : Option UInt8 :=
  hde64Table[i]?

def lookup (delta : Nat) (opcode : UInt8) : Option UInt8 := do
  let i ← ht (delta + (opcode / 4).toNat)
  ht (delta + (i.toNat + (opcode % 4).toNat))

-- The switch over the prefixes.
def Locals.prefixed (l : Locals) (c : UInt8) : Option Locals :=
  if c = 0xf3 then some { l with hs.pRep := c, pref := l.pref ||| preF3 }
  else if c = 0xf2 then some { l with hs.pRep := c, pref := l.pref ||| preF2 }
  else if c = 0xf0 then some { l with hs.pLock := c, pref := l.pref ||| preLock }
  else if c = 0x26 ∨ c = 0x2e ∨ c = 0x36 ∨ c = 0x3e ∨ c = 0x64 ∨ c = 0x65 then
    some { l with hs.pSeg := c, pref := l.pref ||| preSeg }
  else if c = 0x66 then some { l with hs.p66 := c, pref := l.pref ||| pre66 }
  else if c = 0x67 then some { l with hs.p67 := c, pref := l.pref ||| pre67 }
  else none

def prefixes : (x : Nat) → Locals → Decoder Locals
  | 0, l     => return l
  | x + 1, l => do
    let c ← next
    match { l with c }.prefixed c with
    | some l => prefixes x l
    | none   => return { l with c }

def Locals.prefDone (l : Locals) : Locals :=
  { l with hs.flags := l.pref.toUInt32 <<< 23, pref := if l.pref = 0 then l.pref ||| preNone else l.pref }

def isRex (c : UInt8) : Bool :=
  c &&& 0xf0 = 0x40

def rex (l : Locals) : Decoder Locals := do
  let rexW := (l.c &&& 0xf) >>> 3
  let b ← peek
  let op64 := if rexW ≠ 0 ∧ b &&& 0xf8 = 0xb8 then l.op64 + 1 else l.op64
  let c ← next
  return { l with
    hs.flags := l.hs.flags ||| fPrefixRex
    hs.rexW  := rexW
    hs.rexR  := (l.c &&& 7) >>> 2
    hs.rexX  := (l.c &&& 3) >>> 1
    hs.rexB  := l.c &&& 1
    op64, c }

def errorOpcode (l : Locals) : Locals :=
  { l with
    hs.flags := l.hs.flags ||| (fError ||| fErrorOpcode)
    cflags   := if l.opcode &&& 0xfd = 0x24 then 1 else 0 }

def opcodeBytes (l : Locals) : Decoder Locals := do
  let l := { l with hs.opcode := l.c }
  if l.c = 0x0f then
    let c ← next
    return { l with hs.opcode2 := c, c, ht := deltaOpcodes }
  else if 0xa0 ≤ l.c ∧ l.c ≤ 0xa3 then
    let pref := if l.pref &&& pre67 ≠ 0 then l.pref ||| pre66 else l.pref &&& ~~~pre66
    return { l with op64 := l.op64 + 1, pref }
  else return l

def opcode (l : Locals) : Decoder Locals := do
  let l ← opcodeBytes l
  let cflags ← lift <| lookup l.ht l.c
  let l := { l with opcode := l.c, cflags }
  return if cflags = cError then errorOpcode l else l

-- An opcode that is another REX prefix is not looked up.
def rexOpcode (l : Locals) : Decoder Locals := do
  let l ← rex l
  if isRex l.c then return errorOpcode { l with opcode := l.c } else opcode l

-- The flags and the mask `x`
def groupFlags (delta : Nat) (cflags : UInt8) : Option (UInt8 × UInt8) :=
  if cflags &&& cGroup ≠ 0 then do
    let i := delta + (cflags &&& 0x7f).toNat
    return (← ht i, ← ht (i + 1))
  else return (cflags, 0)

def group (l : Locals) : Option Locals := do
  let (cflags, x) ← groupFlags l.ht l.cflags
  return { l with cflags, x }

def prefixError (hs : Hde64s) (opcode pref : UInt8) : Option Bool :=
  if hs.opcode2 ≠ 0 then do
    let t ← lookup deltaPrefixes opcode
    return t &&& pref ≠ 0
  else return false

def groupError (x reg : UInt8) : Bool :=
  x ≠ 0 ∧ (x <<< reg) &&& 0x80 ≠ 0

def fpuError (hs : Hde64s) (opcode mod reg rm : UInt8) : Option Bool :=
  if hs.opcode2 = 0 ∧ 0xd9 ≤ opcode ∧ opcode ≤ 0xdf then do
    let t := opcode - 0xd9
    if mod = 3 then return (← ht (deltaFpuModrm + t.toNat * 8 + reg.toNat)) <<< rm &&& 0x80 ≠ 0
    else return (← ht (deltaFpuReg + t.toNat)) <<< reg &&& 0x80 ≠ 0
  else return false

-- Every turn moves on in the table, so its length is enough fuel.
def lockLoop (op reg : UInt8) (tableEnd : Nat) : (fuel : Nat) → Nat → Option Bool
  | 0, _ => none
  | fuel + 1, i =>
    if i = tableEnd then some true
    else do
      if (← ht i) = op then return (← ht (i + 1)) <<< reg &&& 0x80 ≠ 0
      else lockLoop op reg tableEnd fuel (i + 2)

def lockError (hs : Hde64s) (opcode pref mod reg : UInt8) : Option Bool :=
  if pref &&& preLock ≠ 0 then
    if mod = 3 then some true
    else if hs.opcode2 ≠ 0 then lockLoop opcode reg deltaOpOnlyMem hde64Table.length deltaOp2LockOk
    else lockLoop (opcode &&& 0xfe) reg deltaOp2LockOk hde64Table.length deltaOpLockOk
  else some false

def onlyMemLoop (opcode pref reg : UInt8) (tableEnd : Nat) : (fuel : Nat) → Nat → Option Bool
  | 0, _ => none
  | fuel + 1, i =>
    if i = tableEnd then some false
    else do
      if (← ht i) = opcode then
        if (← ht (i + 1)) &&& pref ≠ 0 then return (← ht (i + 2)) <<< reg &&& 0x80 = 0
        else return false
      else onlyMemLoop opcode pref reg tableEnd fuel (i + 3)

def operandError (hs : Hde64s) (opcode pref mod reg : UInt8) : Option Bool :=
  if hs.opcode2 ≠ 0 ∧ (opcode = 0x20 ∨ opcode = 0x22) then some (reg > 4 ∨ reg = 1)
  else if hs.opcode2 ≠ 0 ∧ (opcode = 0x21 ∨ opcode = 0x23) then some (reg = 4 ∨ reg = 5)
  else if hs.opcode2 = 0 ∧ opcode = 0x8c then some (reg > 5)
  else if hs.opcode2 = 0 ∧ opcode = 0x8e then some (reg = 1 ∨ reg > 5)
  else if mod = 3 then
    if hs.opcode2 ≠ 0 then onlyMemLoop opcode pref reg hde64Table.length hde64Table.length deltaOp2OnlyMem
    else onlyMemLoop opcode pref reg deltaOp2OnlyMem hde64Table.length deltaOpOnlyMem
  else if hs.opcode2 ≠ 0 then
    if opcode = 0x50 ∨ opcode = 0xd7 ∨ opcode = 0xf7 then some (pref &&& (preNone ||| pre66) ≠ 0)
    else if opcode = 0xd6 then some (pref &&& (preF2 ||| preF3) ≠ 0)
    else some (opcode = 0xc5)
  else some false

-- The control and debug registers
def forcedMod (hs : Hde64s) (opcode mod : UInt8) : UInt8 :=
  if hs.opcode2 ≠ 0 ∧ (opcode = 0x20 ∨ opcode = 0x21 ∨ opcode = 0x22 ∨ opcode = 0x23) then 3 else mod

def immOfReg (opcode cflags reg : UInt8) : UInt8 :=
  if reg ≤ 1 then
    if opcode = 0xf6 then cflags ||| cImm8
    else if opcode = 0xf7 then cflags ||| cImmP66
    else cflags
  else cflags

def dispSize (pref mod rm : UInt8) : Nat :=
  if mod = 0 then
    if pref &&& pre67 ≠ 0 then if rm = 6 then 2 else 0
    else if rm = 5 then 4
    else 0
  else if mod = 1 then 1
  else if mod = 2 then if pref &&& pre67 = 0 then 4 else 2
  else 0

-- `c` has been read at `p`, which is only moved behind it if this is the byte of the SIB.
def sib (hs : Hde64s) (mod rm : UInt8) (disp : Nat) : Decoder (Hde64s × Nat) := do
  let c ← peek
  if mod ≠ 3 ∧ rm = 4 then
    skip 1
    let hs := { hs with
      flags    := hs.flags ||| fSib
      sib      := c
      sibScale := c >>> 6
      sibIndex := (c &&& 0x3f) >>> 3
      sibBase  := c &&& 7 }
    return (hs, if c &&& 7 = 5 ∧ mod &&& 1 = 0 then 4 else disp)
  else return (hs, disp)

def dispFlag (n : Nat) : UInt32 :=
  if n = 1 then fDisp8 else if n = 2 then fDisp16 else if n = 4 then fDisp32 else 0

def disp (hs : Hde64s) (n : Nat) : Decoder Hde64s := do
  let bs ← take n
  return { hs with flags := hs.flags ||| dispFlag n, disp := store hs.disp bs }

def address (hs : Hde64s) (mod rm : UInt8) (n : Nat) : Decoder Hde64s := do
  let (hs, n) ← sib hs mod rm n
  disp hs n

def modrmErrors (hs : Hde64s) (opcode pref x mod reg rm : UInt8) : Option Hde64s := do
  let hs := hs.flagIf (groupError x reg) (fError ||| fErrorOpcode)
  let hs := hs.flagIf (← fpuError hs opcode mod reg rm) (fError ||| fErrorOpcode)
  let hs := hs.flagIf (← lockError hs opcode pref mod reg) (fError ||| fErrorLock)
  return hs.flagIf (← operandError hs opcode pref mod reg) (fError ||| fErrorOperand)

def modrm (l : Locals) : Decoder Locals := do
  let c ← next
  let mod := c >>> 6
  let rm  := c &&& 7
  let reg := (c &&& 0x3f) >>> 3
  let hs := { l.hs with
    flags    := l.hs.flags ||| fModrm
    modrm    := c
    modrmMod := mod
    modrmRm  := rm
    modrmReg := reg }
  let hs ← lift <| modrmErrors hs l.opcode l.pref l.x mod reg rm
  let mod := forcedMod hs l.opcode mod
  let hs ← address hs mod rm (dispSize l.pref mod rm)
  return { l with hs, c, cflags := immOfReg l.opcode l.cflags reg }

def immediate (flags : UInt32) (n : Nat) (hs : Hde64s) : Decoder Hde64s := do
  let bs ← take n
  return { hs with flags := hs.flags ||| flags, imm := store hs.imm bs }

def rel (cflags : UInt8) (hs : Hde64s) : Decoder Hde64s :=
  if cflags &&& cRel32 ≠ 0 then immediate (fImm32 ||| fRelative) 4 hs
  else if cflags &&& cRel8 ≠ 0 then immediate (fImm8 ||| fRelative) 1 hs
  else return hs

def imm8 (cflags : UInt8) (hs : Hde64s) : Decoder Hde64s := do
  let hs ← (if cflags &&& cImm8 ≠ 0 then immediate fImm8 1 hs else pure hs)
  rel cflags hs

def imm16 (cflags : UInt8) (hs : Hde64s) : Decoder Hde64s := do
  let hs ← (if cflags &&& cImm16 ≠ 0 then immediate fImm16 2 hs else pure hs)
  imm8 cflags hs

def imm (pref op64 cflags : UInt8) (hs : Hde64s) : Decoder Hde64s :=
  if cflags &&& cImmP66 ≠ 0 then
    if cflags &&& cRel32 ≠ 0 then
      if pref &&& pre66 ≠ 0 then immediate (fImm16 ||| fRelative) 2 hs
      else immediate (fImm32 ||| fRelative) 4 hs
    else if op64 ≠ 0 then do imm16 cflags (← immediate fImm64 8 hs)
    else if pref &&& pre66 = 0 then do imm16 cflags (← immediate fImm32 4 hs)
    else do imm8 cflags (← immediate fImm16 2 hs)
  else imm16 cflags hs

def operands (l : Locals) : Decoder Hde64s := do
  let l ← (if l.cflags &&& cModrm ≠ 0 then modrm l
    else pure { l with hs := l.hs.flagIf (l.pref &&& preLock ≠ 0) (fError ||| fErrorLock) })
  imm l.pref l.op64 l.cflags l.hs

-- Up to the label `disasm_done`
def decode : Decoder Hde64s := do
  let l ← prefixes 16 .start
  let l := l.prefDone
  let l ← (if isRex l.c then rexOpcode l else opcode l)
  let l ← lift <| group l
  let l := { l with hs := l.hs.flagIf (← lift <| prefixError l.hs l.opcode l.pref) (fError ||| fErrorOpcode) }
  operands l

-- The length is cut down to eight bits before it is compared.
def finish (hs : Hde64s) (p : Nat) : Hde64s :=
  let len := p.toUInt8
  if len > 15 then { hs with flags := hs.flags ||| (fError ||| fErrorLength), len := 15 } else { hs with len }

def hde64Disasm (code : Nat → UInt8) : Option Hde64s :=
  (decode code ⟨0, 0⟩).map fun (hs, s) => finish hs s.pos

end Hde

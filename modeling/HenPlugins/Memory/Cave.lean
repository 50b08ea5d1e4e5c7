import HenPlugins.Memory.Basic

open List

namespace Memory

-- What `hde64_disasm` returns and stores. The length is that of a decoded instruction, and it is cut down
-- to 15 if it is too large.
structure Hde64s where
  len    : Nat
  error  : Bool
  bounds : 1 ≤ len ∧ len ≤ 15

abbrev Disasm := Mem → Addr → Hde64s

-- The value of `MAX_CAVE_SIZE` that `build.sh` generates.
abbrev maxCaveSize := 4096

-- The static variables, the memory of the process and all writes to it so far.
structure CaveState where
  mem          : Mem
  once         : Bool
  caveInstSize : Nat
  writes       : List (Addr × Bytes)

def CaveState.init (m : Mem) : CaveState where
  mem          := m
  once         := false
  caveInstSize := 0
  writes       := []

def CaveState.sysProcRw (s : CaveState) (addr : Addr) (data : Bytes) : CaveState :=
  { s with mem := Memory.sysProcRw s.mem addr data, writes := s.writes ++ [(addr, data)] }

def CaveState.sysProcMemset (s : CaveState) (src : Addr) (c : UInt8) (len : Nat) : CaveState :=
  if len > maxMemset then s else s.sysProcRw src (replicate len c)

section

variable (disasm : Disasm) (cavePadFunc : Addr)

-- The loop of `GetInstructionSize`. An instruction has at least one byte, so the minimum size is enough
-- fuel.
def instructionSizeLoop (m : Mem) (address : Addr) (minSize : Nat) : (fuel : Nat) → Nat → Nat
  | 0, instructionSize => instructionSize
  | fuel + 1, instructionSize =>
    if instructionSize < minSize then
      let hs := disasm m (address + .ofNat 64 instructionSize)
      if hs.error then 0 else instructionSizeLoop m address minSize fuel (instructionSize + hs.len)
    else instructionSize

def getInstructionSize (m : Mem) (address : Addr) (minSize : Nat) : Nat :=
  if address = 0 then 0 else instructionSizeLoop disasm m address minSize minSize 0

-- The code that is written first is only called to check that it can be executed.
def caveBlockInit (s : CaveState) : CaveState :=
  if s.once then s
  else
    let s := s.sysProcRw cavePadFunc [0xb8, 0x01, 0x00, 0x00, 0x00, 0xc3]
    let s := s.sysProcMemset cavePadFunc 0xcc maxCaveSize
    { s with once := true }

def validnateBlockSize (cavePadSize newSize : Nat) : Bool :=
  newSize ≤ cavePadSize

def createPrologueHook (s : CaveState) (address : Addr) (minInstructionSize : Int) : Addr × CaveState :=
  let s := caveBlockInit cavePadFunc s
  if address = 0 ∨ minInstructionSize < 5 then (0, s)
  else
    let intSize := getInstructionSize disasm s.mem address minInstructionSize.toNat
    if intSize = 0 ∨ !validnateBlockSize maxCaveSize (s.caveInstSize + intSize + jmpStub.length) then (0, s)
    else
      let ucavePadNew := cavePadFunc + .ofNat 64 s.caveInstSize
      let retaddr     := address + .ofNat 64 intSize
      let s' := s.sysProcRw ucavePadNew (s.mem.read address intSize)
      let s' := s'.sysProcRw (ucavePadNew + .ofNat 64 intSize) jmpStub
      let s' := s'.sysProcRw (ucavePadNew + .ofNat 64 intSize + .ofNat 64 jmpStub.length)
        (LittleEndian.encode 8 retaddr.toNat)
      (ucavePadNew, { s' with caveInstSize := s.caveInstSize + (intSize + (jmpStub.length + 8)) })

-- A call of `CreatePrologueHook`.
structure HookCall where
  address            : Addr
  minInstructionSize : Int

def runCalls (s : CaveState) (calls : List HookCall) : CaveState :=
  calls.foldl (fun s c => (createPrologueHook disasm cavePadFunc s c.address c.minInstructionSize).2) s

end

end Memory

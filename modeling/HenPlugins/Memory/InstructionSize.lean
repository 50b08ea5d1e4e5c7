import HenPlugins.Library.Run
import HenPlugins.Memory.Cave

namespace Memory

-- `GetInstructionSize` in its loop, or once it has returned. The size is counted in 64 bits.
inductive SizeState
  | loop (instructionSize : BitVec 64)
  | returned (instructionSize : BitVec 64)

section

variable (disasm : Disasm) (m : Mem) (address : Addr) (minSize : BitVec 64)

def SizeState.start : SizeState :=
  if address = 0 then .returned 0 else .loop 0

def sizeStep : SizeState → Option SizeState
  | .loop instructionSize =>
    if instructionSize < minSize then
      let hs := disasm m (address + instructionSize)
      if hs.error then some (.returned 0) else some (.loop (instructionSize + .ofNat 64 hs.len))
    else some (.returned instructionSize)
  | .returned _ => none

-- The function comes to its end and returns this.
def SizeReturned (result : BitVec 64) : Prop :=
  Run.Halts (sizeStep disasm m address minSize) (.start address) (· = .returned result)

end

end Memory

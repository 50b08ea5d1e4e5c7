import HenPlugins.Memory.Basic
import HenPlugins.Memory.Pattern

namespace Memory

def ud2Filler : Bytes :=
  bytes "0f 0b 90 90 90 90 90 90 90 90 90 90 90 90 90 90"

def nopFiller : Bytes :=
  bytes "c3 66 66 66 66 66 66 2e 0f 1f 84 00 00 00 00 00"

-- The area that `Make32to64Jmp` puts the long jump into, or null.
def jmparea (m : Mem) (textbase : Addr) (textsz : Nat) : Addr :=
  let jmparea := patternScan m textbase textsz ud2Filler 2
  if jmparea = 0 then patternScan m textbase textsz nopFiller 1 else jmparea

-- The first component is what is stored at `src_out`, if this is not null.
def make32to64Jmp (m : Mem) (textbase : Addr) (textsz : Nat) (src dst : Addr) (srclen : Nat) (call : Bool) :
    Option Addr × Mem :=
  let jmparea := jmparea m textbase textsz
  if jmparea = 0 then (none, m)
  else
    let m' := writeJump32 m src jmparea srclen call
    (some (readLEA32 m src 0 1 5), writeJump64 m' jmparea dst)

structure JmpCall where
  src    : Addr
  dst    : Addr
  srclen : Nat
  call   : Bool

-- The memory after a sequence of calls on the same text.
def runJmps (textbase : Addr) (textsz : Nat) (m : Mem) (calls : List JmpCall) : Mem :=
  calls.foldl (fun m c => (make32to64Jmp m textbase textsz c.src c.dst c.srclen c.call).2) m

-- How the processor reads the jumps.

-- Whether a call or a jump with a 32-bit displacement is found, and where it leads to.
def decodeJump32 (m : Mem) (x : Addr) : Option (Bool × Addr) :=
  if m x = 0xe8 then some (true, x + 5 + (readInt32 m (x + 1)).signExtend 64)
  else if m x = 0xe9 then some (false, x + 5 + (readInt32 m (x + 1)).signExtend 64)
  else none

-- Where an indirect jump through the quadword behind it leads to.
def decodeJump64 (m : Mem) (x : Addr) : Option Addr :=
  if m.Contains x jmpStub then some (.ofNat 64 <| LittleEndian.decode (m.read (x + 6) 8)) else none

end Memory

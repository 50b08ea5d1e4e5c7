import HenPlugins.Library.LittleEndian
import HenPlugins.Library.Memory

open List

-- The functions are given the memory of the process that they are called for.
namespace Memory

-- All calls succeed.
def sysProcRw (m : Mem) (addr : Addr) (data : Bytes) : Mem :=
  m.write addr data

abbrev maxMemset := 8 * 1024

def sysProcMemset (m : Mem) (src : Addr) (c : UInt8) (len : Nat) : Mem :=
  if len > maxMemset then m else sysProcRw m src (replicate len c)

abbrev jmpcallbytes := 5

def writeJump32 (m : Mem) (src dst : Addr) (len : Nat) (call : Bool) : Mem :=
  if src = 0 ∨ dst = 0 ∨ len < jmpcallbytes then m
  else
    let m := if len ≠ jmpcallbytes then sysProcMemset m src 0x90 len else m
    let relativeAddress : BitVec 32 := (dst - src - 5).setWidth 32
    let op := if call then 0xe8 else 0xe9
    let m := sysProcRw m src [op]
    sysProcRw m (src + 1) (LittleEndian.encode 4 relativeAddress.toNat)

def jmpStub : Bytes :=
  [0xff, 0x25, 0x00, 0x00, 0x00, 0x00]

def writeJump64 (m : Mem) (src dst : Addr) : Mem :=
  let m := sysProcRw m src jmpStub
  sysProcRw m (src + 6) (LittleEndian.encode 8 dst.toNat)

def readInt32 (m : Mem) (x : Addr) : BitVec 32 :=
  .ofNat 32 <| LittleEndian.decode (m.read x 4)

def readLEA32 (m : Mem) (address offset leaSize leaOpcodeSize : Addr) : Addr :=
  if address = 0 then 0
  else
    let patchAddress := if offset = 0 then address else offset + address
    patchAddress + (readInt32 m (leaSize + address)).signExtend 64 + leaOpcodeSize

-- What the jumps consist of.

def jump32 (src dst : Addr) (len : Nat) (call : Bool) : Bytes :=
  (if call then 0xe8 else 0xe9) :: LittleEndian.encode 4 ((dst - src - 5).setWidth 32).toNat ++
    replicate (len - 5) 0x90

def jump64 (dst : Addr) : Bytes :=
  jmpStub ++ LittleEndian.encode 8 dst.toNat

section

variable {m : Mem} {src dst x : Addr} {len : Nat} {call : Bool}

@[simp]
theorem length_jump32 (h : 5 ≤ len) : (jump32 src dst len call).length = len := by
  simp [jump32]
  omega

@[simp]
theorem length_jump64 : (jump64 dst).length = 14 := by
  simp [jump64, jmpStub]

theorem writeJump64_eq : writeJump64 m src dst = m.write src (jump64 dst) := by
  have h : (6 : Addr) = .ofNat 64 jmpStub.length := rfl
  rw [writeJump64, sysProcRw, sysProcRw, h, Mem.write_append (by simp [jmpStub]), jump64]

theorem writeJump32_eq (hs : src ≠ 0) (hd : dst ≠ 0) (hl : 5 ≤ len) (hm : len ≤ maxMemset) :
    writeJump32 m src dst len call = m.write src (jump32 src dst len call) := by
  have hn : ¬(src = 0 ∨ dst = 0 ∨ len < jmpcallbytes) := not_or.mpr ⟨hs, not_or.mpr ⟨hd, not_lt.mpr hl⟩⟩
  have h1 : (1 : Addr) = .ofNat 64 [if call then (0xe8 : UInt8) else 0xe9].length := rfl
  simp only [writeJump32, if_neg hn, sysProcRw]
  rw [h1, Mem.write_append (by simp), singleton_append]
  split
  case isFalse h =>
    have h5 : len = 5 := not_not.mp h
    simp [jump32, h5]
  case isTrue h =>
    -- The filling stays behind the jump.
    have hr : replicate len (0x90 : UInt8) = replicate 5 0x90 ++ replicate (len - 5) 0x90 := by
      rw [replicate_append_replicate]
      congr
      omega
    rw [sysProcMemset, if_neg (not_lt.mpr hm), sysProcRw, hr, Mem.write_overwrite (by simp), jump32]

end

end Memory

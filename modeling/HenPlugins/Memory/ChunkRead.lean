import HenPlugins.Memory.ChunkScan

open List

namespace Memory

-- What a scan has no influence on: where its array is, what surrounds the array in each round, and which bytes
-- the read of each round copies into it. A read that fails may have copied some of them.
structure Surroundings (patternOffset : Addr) where
  mem      : Addr
  mem_ne   : mem ≠ 0
  found_ne : ∀ j < chunkSize, mem + .ofNat 64 j + patternOffset ≠ 0
  stack    : (round : Nat) → Mem
  copied   : (round j : Nat) → Bool

variable {patternOffset : Addr}

-- `sys_proc_rw(pid, chunk_start, mem, chunk_size, 0)`. The bytes that are not copied are still there from before.
def Surroundings.read (env : Surroundings patternOffset) (round : Nat) (remote : Mem) (chunkStart : Addr)
    (array : Nat → UInt8) : Nat → UInt8 :=
  fun j => if env.copied round j then remote (chunkStart + .ofNat 64 j) else array j

def Surroundings.fill (env : Surroundings patternOffset) (round : Nat) (array : Nat → UInt8) : Mem :=
  (env.stack round).write env.mem ((List.range chunkSize).map array)

inductive ReadState
  | scanning (round : Nat) (i : BitVec 64) (array : Nat → UInt8)
  | returned (found : Addr)

-- A round of the loop in `pid_chunk_scan`, which does not look at the result of the read.
def pidChunkReadStep (env : Surroundings patternOffset) (remote : Mem) (memStart : Addr) (memSz : BitVec 64)
    (pattern : Bytes) : ReadState → Option ReadState
  | .returned _ => none
  | .scanning round i array =>
    if i < memSz - .ofNat 64 chunkSize then
      let chunkStart   := memStart + i
      let array        := env.read round remote chunkStart array
      let stack        := env.fill round array
      let foundPattern := patternScan stack env.mem chunkSize pattern patternOffset
      if foundPattern ≠ 0 then
        let chunkOffset := foundPattern - env.mem
        some (.returned (chunkStart + chunkOffset))
      else
        some (.scanning (round + 1) (i + .ofNat 64 chunkSize) array)
    else
      some (.returned 0)

end Memory

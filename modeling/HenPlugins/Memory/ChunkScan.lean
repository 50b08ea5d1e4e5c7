import HenPlugins.Library.Run
import HenPlugins.Memory.Pattern

open List

namespace Memory

abbrev chunkSize := 8 * 1024

-- The array `mem` on the stack of the scanning process. In each round, at `i`, nothing is known about
-- the bytes behind the array. A pointer into the array is not null, neither before nor after the offset
-- of the pattern is added to it.
structure Buffer (patternOffset : Addr) where
  stack    : (i : BitVec 64) → Mem
  mem      : Addr
  mem_ne   : mem ≠ 0
  found_ne : ∀ j < chunkSize, mem + .ofNat 64 j + patternOffset ≠ 0

-- The stack in the round at `i`, after the array has been filled.
def Buffer.fill {patternOffset : Addr} (buffer : Buffer patternOffset) (i : BitVec 64) (chunk : Bytes) : Mem :=
  (buffer.stack i).write buffer.mem chunk

inductive ScanState
  | scanning (i : BitVec 64)
  | returned (found : Addr)

variable {patternOffset : Addr}

-- A round of the loop in `pid_chunk_scan`. The bound of the loop wraps around for sizes below the size
-- of a chunk.
def pidChunkScanStep (buffer : Buffer patternOffset) (remote : Mem) (memStart : Addr) (memSz : BitVec 64)
    (pattern : Bytes) : ScanState → Option ScanState
  | .returned _ => none
  | .scanning i =>
    if i < memSz - .ofNat 64 chunkSize then
      let chunkStart   := memStart + i
      let stack        := buffer.fill i (remote.read chunkStart chunkSize)
      let foundPattern := patternScan stack buffer.mem chunkSize pattern patternOffset
      if foundPattern ≠ 0 then
        let chunkOffset := foundPattern - buffer.mem
        some (.returned (chunkStart + chunkOffset))
      else
        some (.scanning (i + .ofNat 64 chunkSize))
    else
      some (.returned 0)

-- What the chunks stand for: a scan of the whole region for matches that lie inside of it.
def regionScan (remote : Mem) (memStart : Addr) (memSz : BitVec 64) (pattern : Bytes) (patternOffset : Addr) :
    Addr :=
  patternScan remote memStart (memSz.toNat + 1 - (patternToByte pattern).length) pattern patternOffset

-- The number of rounds until the loop is left for lack of a match.
def chunkCount (memSz : BitVec 64) : Nat :=
  ((memSz - .ofNat 64 chunkSize).toNat + (chunkSize - 1)) / chunkSize

-- The bytes of a pattern at position `x` that the chunk of `x` can be compared to.
def inChunk (x : Nat) (patternBytes : Bytes) : Bytes :=
  patternBytes.take (chunkSize - x % chunkSize)

-- The bytes that are compared to what follows the array on the stack.
def behindChunk (x : Nat) (patternBytes : Bytes) : Bytes :=
  patternBytes.drop (chunkSize - x % chunkSize)

-- The positions at which the region does not rule out a match.
structure Candidate (remote : Mem) (memStart : Addr) (memSz : BitVec 64) (pattern : Bytes) (x : Nat) : Prop where
  scanned   : x < chunkSize * chunkCount memSz
  scannable : Scannable (patternToByte pattern)
  inChunk   : found remote (memStart + .ofNat 64 x) (inChunk x (patternToByte pattern))

structure FirstCandidate (remote : Mem) (memStart : Addr) (memSz : BitVec 64) (pattern : Bytes) (x : Nat) : Prop
    extends Candidate remote memStart memSz pattern x where
  first : ∀ y < x, ¬Candidate remote memStart memSz pattern y

-- Nothing but wildcards is compared to the stack.
def Firm (pattern : Bytes) (x : Nat) : Prop :=
  ∀ b ∈ behindChunk x (patternToByte pattern), b = 0xff

-- What lies behind the array completes a candidate to a match.
structure Hit (buffer : Buffer patternOffset) (remote : Mem) (memStart : Addr) (memSz : BitVec 64) (pattern : Bytes)
    (x : Nat) : Prop extends Candidate remote memStart memSz pattern x where
  behindChunk : found (buffer.stack (.ofNat 64 (chunkSize * (x / chunkSize)))) (buffer.mem + .ofNat 64 chunkSize)
    (behindChunk x (patternToByte pattern))

-- Whatever the second string matches, the first one does as well.
def Covered (bs cs : Bytes) : Prop :=
  ∀ i (h : i < bs.length), bs[i] = 0xff ∨ cs[i]? = some bs[i]

end Memory

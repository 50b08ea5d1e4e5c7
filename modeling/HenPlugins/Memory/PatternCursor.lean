import HenPlugins.Library.Run
import HenPlugins.Memory.Pattern

open List CString

-- `pattern_to_byte` with its cursor, which is given as an offset from `start`. The terminator is at the length of
-- the pattern.
namespace Memory.PatternCursor

-- Where in a round the loop is: at `current < end`, behind the first `++current` of a wildcard, or at the
-- `++current` of the loop.
inductive Point
  | condition
  | wildcard
  | increment
deriving DecidableEq

-- The array of the caller, and how much of it has been filled.
@[ext]
structure Output where
  count : BitVec 32
  bytes : BitVec 32 → UInt8

-- `bytes[count++] = b`
def Output.store (o : Output) (b : UInt8) : Output where
  count := o.count + 1
  bytes := Function.update o.bytes o.count b

structure State where
  point   : Point
  current : Nat
  output  : Output

def State.start (bytes : BitVec 32 → UInt8) : State where
  point   := .condition
  current := 0
  output  := ⟨0, bytes⟩

-- `*current`
def charAt (pattern : Bytes) (current : Nat) : UInt8 :=
  pattern.getD current 0

-- `strtoull(current, &current, 16)`
def strtoullAt (pattern : Bytes) (current : Nat) : Nat × Nat :=
  let (value, rest) := strtoull (pattern.drop current)
  (value, pattern.length - rest.length)

def step (pattern : Bytes) (s : State) : Option State :=
  match s.point with
  | .condition =>
    if s.current < pattern.length then
      if charAt pattern s.current = question then some { s with point := .wildcard, current := s.current + 1 }
      else
        let (value, current) := strtoullAt pattern s.current
        some ⟨.increment, current, s.output.store value.toUInt8⟩
    else none
  | .wildcard =>
    let current := if charAt pattern s.current = question then s.current + 1 else s.current
    some ⟨.increment, current, s.output.store 0xff⟩
  | .increment => some { s with point := .condition, current := s.current + 1 }

end Memory.PatternCursor

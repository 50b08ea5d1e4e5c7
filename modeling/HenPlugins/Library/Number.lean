import HenPlugins.Library.CString

open List CString

-- Numbers at the beginning of a string, and numbers as text.
namespace Number

def digit (base : Nat) (c : UInt8) : Option Nat :=
  if 48 ≤ c && (c - 48).toNat < base && c ≤ 57 then some (c - 48).toNat else none

structure Scanned where
  neg   : Bool
  value : Nat
  rest  : Bytes

-- Blanks, a sign and digits in a base of at most ten. There is no number without a digit.
def scan (base : Nat) (s : Bytes) : Option Scanned :=
  let s := s.dropWhile isspace
  let neg := s.head? = some 45
  let s := if s.head? = some 45 ∨ s.head? = some 43 then s.drop 1 else s
  let digits := s.takeWhile fun c => (digit base c).isSome
  if digits = [] then none
  else some {
    neg   := neg
    value := digits.foldl (fun v c => base * v + (digit base c).getD 0) 0
    rest  := s.drop digits.length }

-- `strtol(s, NULL, base)`
def strtol (base : Nat) (s : Bytes) : Int :=
  match scan base s with
  | none   => 0
  | some n => max (-2 ^ 63) (min (2 ^ 63 - 1) (if n.neg then -n.value else n.value))

def atol (s : Bytes) : Int :=
  strtol 10 s

-- What `%hhu` stores of a number.
def Scanned.toUInt8 (n : Scanned) : UInt8 :=
  if 2 ^ 64 ≤ n.value then 255
  else if n.neg then (2 ^ 64 - n.value).toUInt8 else n.value.toUInt8

-- `sscanf` with as many times `%hhu` as given, separated by commas. There is no result if not all of them match.
def sscanfBytes : Nat → Bytes → Option Bytes
  | 0, _     => some []
  | 1, s     => (scan 10 s).map ([·.toUInt8])
  | k + 1, s => do
    let n ← scan 10 s
    if n.rest.head? = some 44 then return n.toUInt8 :: (← sscanfBytes k (n.rest.drop 1)) else none

def decimal (n : Nat) : Bytes :=
  bytes n.repr

example : sscanfBytes 6 (bytes "10,0,+0,1,4,260") = some [10, 0, 0, 1, 4, 4] := by decide +kernel

end Number

import HenPlugins.Library.Reads
import HenPlugins.Memory.Pattern

open List Reads

namespace Memory

-- The scanners, together with what they read. A pointer that may be null is an `Option`. The bounds of the loops are
-- differences of unsigned numbers.

def loadU64 (x : Addr) : Reads (BitVec 64) :=
  return .ofNat 64 <| LittleEndian.decode (← loadBytes x 8)

def u64ScanReads (module : Addr) (sizeOfImage value : BitVec 64) : Reads (Option Addr) := do
  let bound := sizeOfImage - 8
  let i ← search (fun i => return (← loadU64 (module + .ofNat 64 i)) = value) bound.toNat 0
  return i.map fun i => module + .ofNat 64 i

-- `memcmp(v, value, value_sz) == 0`
def memcmp (v : Addr) (value : Bytes) : Reads Bool :=
  return (← loadBytes v value.length) = value

def memScanReads (module : Addr) (sizeOfImage : BitVec 64) (value : Bytes) : Reads (Option Addr) := do
  let bound := sizeOfImage - .ofNat 64 value.length
  let i ← search (fun i => memcmp (module + .ofNat 64 i) value) bound.toNat 0
  return i.map fun i => module + .ofNat 64 i

-- `strncmp(currentValue, value, strlen(value)) == 0`, where the value is given without its terminator. Nothing is
-- read behind the first difference.
def strncmp (currentValue : Addr) : Bytes → Reads Bool
  | []         => return true
  | c :: value => do if (← load currentValue) = c then strncmp (currentValue + 1) value else return false

def charScanReads (module : Addr) (sizeOfImage : BitVec 64) (value : Bytes) : Reads (Option Addr) := do
  let bound := sizeOfImage - .ofNat 64 value.length
  let i ← search (fun i => strncmp (module + .ofNat 64 i) value) bound.toNat 0
  return i.map fun i => module + .ofNat 64 i

-- The inner loop of `PatternScan`. The byte is read before the pattern is asked for a wildcard.
def foundReads (x : Addr) : Bytes → Reads Bool
  | []                => return true
  | b :: patternBytes => do
    let c ← load x
    if c ≠ b ∧ b ≠ 0xff then return false else foundReads (x + 1) patternBytes

def patternScanReads (moduleBase : Addr) (moduleSize : Nat) (signature : Bytes) (offset : Addr) : Reads Addr :=
  if moduleBase = 0 ∨ moduleSize = 0 then return 0
  else
    let patternBytes := patternToByte signature
    if patternBytes.length = 0 ∨ patternBytes.length ≥ maxPatternLength then return 0
    else do
      let i ← search (fun i => foundReads (moduleBase + .ofNat 64 i) patternBytes) moduleSize 0
      return i.elim 0 fun i => moduleBase + .ofNat 64 i + offset

-- What the scanners return.

def u64Scan (m : Mem) (module : Addr) (sizeOfImage value : BitVec 64) : Option Addr :=
  (u64ScanReads module sizeOfImage value).result m

def memScan (m : Mem) (module : Addr) (sizeOfImage : BitVec 64) (value : Bytes) : Option Addr :=
  (memScanReads module sizeOfImage value).result m

def charScan (m : Mem) (module : Addr) (sizeOfImage : BitVec 64) (value : Bytes) : Option Addr :=
  (charScanReads module sizeOfImage value).result m

section

variable {m : Mem} {x base offset : Addr} {value : Bytes} {size : BitVec 64}

theorem contains_nil : m.Contains x [] := rfl

theorem contains_cons {b : UInt8} {bs : Bytes} : m.Contains x (b :: bs) ↔ m x = b ∧ m.Contains (x + 1) bs := by
  rw [← singleton_append, Mem.Contains.append]
  simp [Mem.contains_iff]

@[simp]
theorem result_memcmp : (memcmp x value).result m = decide (m.Contains x value) := rfl

@[simp]
theorem result_strncmp : (strncmp x value).result m = decide (m.Contains x value) := by
  induction value generalizing x
  case nil => simp [strncmp, contains_nil]
  case cons c value hi =>
    simp only [strncmp, result_bind, result_load, result_ite, result_pure, contains_cons, Bool.decide_and, hi]
    split
    case isTrue h  => simp [h]
    case isFalse h => simp [h]

@[simp]
theorem result_foundReads {p : Bytes} : (foundReads x p).result m = found m x p := by
  induction p generalizing x
  case nil => simp [foundReads, found]
  case cons b p hi =>
    simp only [foundReads, result_bind, result_load, result_ite, result_pure, hi]
    rw [Bool.eq_iff_iff, found_cons]
    split
    case isTrue h =>
      have hn : ¬(m x = b ∨ b = 0xff) := not_or.mpr h
      simp [hn]
    case isFalse h =>
      have hn : m x = b ∨ b = 0xff := not_not.mp (mt not_or.mp h)
      simp [hn]

theorem loadU64_eq_iff {value : BitVec 64} :
    (loadU64 x).result m = value ↔ m.Contains x (LittleEndian.encode 8 value.toNat) := by
  have hl : LittleEndian.decode (m.read x 8) < 2 ^ 64 := by
    simpa using @LittleEndian.decode_lt (m.read x 8)
  have he : LittleEndian.encode 8 (LittleEndian.decode (m.read x 8)) = m.read x 8 := by
    simpa using @LittleEndian.encode_decode (m.read x 8)
  have hr : (loadU64 x).result m = .ofNat 64 (LittleEndian.decode (m.read x 8)) := rfl
  rw [hr, Mem.Contains, LittleEndian.length_encode]
  constructor
  case mp =>
    intro h
    rw [← h, BitVec.toNat_ofNat, Nat.mod_eq_of_lt hl, he]
  case mpr =>
    intro h
    rw [h, LittleEndian.decode_encode]
    bv_omega

-- What is modelled by `patternScan` is what the loop with its reads returns.
theorem result_patternScanReads {n : Nat} {signature : Bytes} :
    (patternScanReads base n signature offset).result m = patternScan m base n signature offset := by
  rw [patternScanReads, patternScan, result_ite]
  apply if_congr .rfl rfl
  dsimp only
  rw [result_ite]
  apply if_congr .rfl rfl
  rw [result_bind, result_search, range_eq_range']
  simp only [result_foundReads, result_pure]
  cases find? _ (range' 0 n)
  case none => rfl
  case some => rfl

end

end Memory

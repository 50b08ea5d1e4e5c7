import HenPlugins.Memory.Scan

open List Reads

namespace Memory

-- The scanners for values, with what they look for.
inductive Scanner
  | mem  (value : Bytes)
  | u64  (value : BitVec 64)
  | char (value : Bytes) (terminated : 0 ∉ value)

namespace Scanner

def needle : Scanner → Bytes
  | mem value | char value _ => value
  | u64 value                => LittleEndian.encode 8 value.toNat

def reads (base : Addr) (size : BitVec 64) : Scanner → Reads (Option Addr)
  | mem value    => memScanReads base size value
  | u64 value    => u64ScanReads base size value
  | char value _ => charScanReads base size value

def scan (m : Mem) (base : Addr) (size : BitVec 64) : Scanner → Option Addr
  | mem value    => memScan m base size value
  | u64 value    => u64Scan m base size value
  | char value _ => charScan m base size value

end Scanner

def Occurs (m : Mem) (base : Addr) (needle : Bytes) (i : Nat) : Prop :=
  m.Contains (base + .ofNat 64 i) needle

instance {m : Mem} {base : Addr} {needle : Bytes} {i : Nat} : Decidable (Occurs m base needle i) :=
  inferInstanceAs (Decidable (m.Contains _ _))

-- The first position at which something occurs, if it is below the bound.
structure FirstAt (m : Mem) (base : Addr) (bound : Nat) (needle : Bytes) (i : Nat) : Prop where
  lt     : i < bound
  occurs : Occurs m base needle i
  first  : ∀ k < i, ¬Occurs m base needle k

-- The address of the first occurrence in a buffer of `n` bytes.
structure FindsFirst (m : Mem) (base : Addr) (n : Nat) (needle : Bytes) (result : Option Addr) : Prop where
  first : ∀ i, i + needle.length ≤ n → Occurs m base needle i → (∀ k < i, ¬Occurs m base needle k) →
    result = some (base + .ofNat 64 i)
  none  : (∀ i, i + needle.length ≤ n → ¬Occurs m base needle i) → result = none

section

variable {m : Mem} {base : Addr} {size : BitVec 64} {needle : Bytes} {n : Nat} {s : Scanner}

def scanBefore (m : Mem) (base : Addr) (bound : Nat) (needle : Bytes) : Option Addr :=
  ((List.range bound).find? fun i => Occurs m base needle i).map fun i => base + .ofNat 64 i

theorem FirstAt.scanBefore_eq {i : Nat} (h : FirstAt m base n needle i) :
    scanBefore m base n needle = some (base + .ofNat 64 i) := by
  have hf : (List.range n).find? (fun i => Occurs m base needle i) = some i :=
    find?_range_eq_some.mpr ⟨decide_eq_true h.occurs, mem_range.mpr h.lt, fun k hk => by simpa using h.first k hk⟩
  rw [scanBefore, hf, Option.map_some]

theorem scanBefore_eq_none (hn : ∀ i < n, ¬Occurs m base needle i) : scanBefore m base n needle = none := by
  have hf : (List.range n).find? (fun i => Occurs m base needle i) = none :=
    find?_range_eq_none.mpr fun i hi => by simpa using hn i hi
  rw [scanBefore, hf, Option.map_none]

theorem map_search_eq {f : Nat → Reads Bool} (h : ∀ i, (f i).result m = decide (Occurs m base needle i)) :
    ((search f n 0).result m).map (fun i => base + .ofNat 64 i) = scanBefore m base n needle := by
  rw [result_search, scanBefore, range_eq_range']
  simp only [h]

theorem memScan_eq : memScan m base size needle = scanBefore m base (size - .ofNat 64 needle.length).toNat needle := by
  rw [memScan, memScanReads, result_bind, result_pure]
  exact map_search_eq fun i => result_memcmp

theorem charScan_eq : charScan m base size needle = scanBefore m base (size - .ofNat 64 needle.length).toNat needle := by
  rw [charScan, charScanReads, result_bind, result_pure]
  exact map_search_eq fun i => result_strncmp

theorem u64Scan_eq {value : BitVec 64} :
    u64Scan m base size value = scanBefore m base (size - 8).toNat (LittleEndian.encode 8 value.toNat) := by
  rw [u64Scan, u64ScanReads, result_bind, result_pure]
  apply map_search_eq
  intro i
  rw [result_bind, result_pure, decide_eq_decide, loadU64_eq_iff, Occurs]

theorem exists_firstAt (h : ∃ i < n, Occurs m base needle i) : ∃ i, FirstAt m base n needle i :=
  have ⟨i, hl, ho, hf⟩ := exists_least h
  ⟨i, hl, ho, hf⟩

theorem FirstAt.eq {n' i j : Nat} (h : FirstAt m base n needle i) (h' : FirstAt m base n' needle j) : i = j :=
  le_antisymm (not_lt.mp fun hl => h.first _ hl h'.occurs) (not_lt.mp fun hl => h'.first _ hl h.occurs)

-- What is found is the first occurrence.
theorem scanBefore_eq_some_iff {x : Addr} :
    scanBefore m base n needle = some x ↔ ∃ i, FirstAt m base n needle i ∧ x = base + .ofNat 64 i := by
  constructor
  case mpr =>
    intro ⟨i, h, he⟩
    rw [h.scanBefore_eq, he]
  case mp =>
    intro hx
    by_cases h : ∃ i < n, Occurs m base needle i
    case pos =>
      have ⟨i, hi⟩ := exists_firstAt h
      rw [hi.scanBefore_eq, Option.some.injEq] at hx
      exact ⟨i, hi, hx.symm⟩
    case neg =>
      simp only [not_exists, not_and] at h
      rw [scanBefore_eq_none h] at hx
      contradiction

-- All three of them compare the same bytes up to the same bound.
theorem Scanner.scan_eq (hl : s.needle.length ≤ size.toNat) :
    s.scan m base size = scanBefore m base (size.toNat - s.needle.length) s.needle := by
  have hb : (size - .ofNat 64 s.needle.length).toNat = size.toNat - s.needle.length := by
    have hs := size.isLt
    bv_omega
  rw [← hb]
  cases s
  case mem value    => exact memScan_eq
  case char value _ => exact charScan_eq
  case u64 value =>
    have hn : 8 = BitVec.ofNat 64 (u64 value).needle.length := by
      rw [needle, LittleEndian.length_encode]
      rfl
    rw [scan, u64Scan_eq, hn, needle]

-- The last position is not looked at.
theorem finds_scanBefore_iff (hl : needle.length ≤ n) :
    FindsFirst m base n needle (scanBefore m base (n - needle.length) needle) ↔
      (Occurs m base needle (n - needle.length) → ∃ i < n - needle.length, Occurs m base needle i) := by
  constructor
  case mp =>
    intro hf ho
    by_contra hn
    simp only [not_exists, not_and] at hn
    have hr := hf.first (n - needle.length) (by omega) ho hn
    rw [scanBefore_eq_none hn] at hr
    contradiction
  case mpr =>
    intro h
    by_cases hx : ∃ i < n - needle.length, Occurs m base needle i
    case pos =>
      have ⟨i, hi⟩ := exists_firstAt hx
      have hl := hi.lt
      constructor
      case none  => exact fun hn => absurd hi.occurs (hn i (by omega))
      case first =>
        intro k _ ho hn
        have hk : FirstAt m base (k + 1) needle k := ⟨k.lt_succ_self, ho, hn⟩
        rw [hi.scanBefore_eq, hi.eq hk]
    case neg =>
      have hn : ∀ i, i + needle.length ≤ n → ¬Occurs m base needle i := by
        intro i hi ho
        cases (Nat.le_sub_of_add_le hi).lt_or_eq
        case inl hl => exact hx ⟨i, hl, ho⟩
        case inr he => exact hx (h (he ▸ ho))
      constructor
      case none  => exact fun _ => scanBefore_eq_none fun i hi => hn i (by omega)
      case first => exact fun i hi ho => absurd ho (hn i hi)

-- The first occurrence is found unless it is at the very end of the buffer.
theorem scan_findsFirst_iff (hl : s.needle.length ≤ size.toNat) :
    FindsFirst m base size.toNat s.needle (s.scan m base size) ↔
      (Occurs m base s.needle (size.toNat - s.needle.length) →
        ∃ i < size.toNat - s.needle.length, Occurs m base s.needle i) := by
  rw [Scanner.scan_eq hl]
  exact finds_scanBefore_iff hl

theorem scan_findsFirst_sample :
    FindsFirst (fun x => if x = 0x400001 then 0x41 else 0x90) 0x400000 3 [0x41]
      (memScan (fun x => if x = 0x400001 then 0x41 else 0x90) 0x400000 3 [0x41]) :=
  (@scan_findsFirst_iff _ _ 3 (.mem [0x41]) (by decide)).mpr fun _ => ⟨1, by decide, by decide⟩

-- A buffer that consists of the needle is not searched at all.
theorem scan_misses_last : ¬∀ (s : Scanner) (m : Mem) (base : Addr) (size : BitVec 64), 1 ≤ s.needle.length →
    s.needle.length ≤ size.toNat → FindsFirst m base size.toNat s.needle (s.scan m base size) := by
  intro ha
  have hf := (ha (.mem [0x41]) (fun _ => 0x41) 0x400000 1 (by decide) (by decide)).first 0 (by decide) (by decide) nofun
  exact absurd hf (by decide)

end

end Memory

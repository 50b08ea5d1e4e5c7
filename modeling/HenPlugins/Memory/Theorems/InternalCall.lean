import HenPlugins.Memory.InternalCall
import HenPlugins.Memory.Theorems.Scan

open List

namespace Memory

-- Pairs of a pointer to a name and a function, inside of a page.
structure Table (pSize : BitVec 64) where
  offset : Nat
  count  : Nat
  inside : offset + 16 * count < pSize.toNat

namespace Table

variable {pSize : BitVec 64} (t : Table pSize) (m : Mem) (pPage : Addr) (k : Nat)

abbrev position : Nat :=
  t.offset + 16 * k

def entry : Addr :=
  pPage + .ofNat 64 (t.position k)

def name : Addr :=
  readU64 m (t.entry pPage k)

def func : Addr :=
  readU64 m (t.entry pPage k + 8)

end Table

-- The name is a string that starts at position `i` of the text and ends in it.
structure NamedAt (m : Mem) (textbase : Addr) (textsz : BitVec 64) (symbol : Bytes) (name : Addr) (i : Nat) : Prop where
  inside  : i + symbol.length < textsz.toNat
  name_eq : name = textbase + .ofNat 64 i
  string  : m.Contains name (symbol ++ [0])

-- The first occurrence of the symbol in the text is the name at `i`, and the first occurrence of its address in the
-- page is at `j`.
structure Direct (m : Mem) (textbase : Addr) (symbol : Bytes) (i : Nat) (pPage name : Addr) (j : Nat) : Prop where
  text : ∀ k < i, ¬Occurs m textbase symbol k
  page : ∀ k < j, ¬Occurs m pPage (LittleEndian.encode 8 name.toNat) k

-- The symbol stands at `i` in the text, as the first place, and the first place of this address in the page is `j`.
structure FirstSlot (m : Mem) (textbase : Addr) (textsz : BitVec 64) (symbol : Bytes) (pPage : Addr) (pSize : BitVec 64)
    (i j : Nat) : Prop where
  text : FirstAt m textbase (textsz.toNat - symbol.length) symbol i
  page : FirstAt m pPage (pSize.toNat - 8) (LittleEndian.encode 8 (textbase + .ofNat 64 i).toNat) j

-- The entry has the new function already, and so has the first slot.
structure AlreadyCalls (m : Mem) (textbase : Addr) (textsz : BitVec 64) (symbol : Bytes) (pPage : Addr) (pSize : BitVec 64)
    (entry destCall : Addr) : Prop where
  entry : readU64 m (entry + 8) = destCall
  slot  : ∃ i j, FirstSlot m textbase textsz symbol pPage pSize i j ∧ readU64 m (pPage + .ofNat 64 j + 8) = destCall

section

variable {m : Mem} {textbase pPage name destCall : Addr} {textsz pSize : BitVec 64} {symbol : Bytes} {t : Table pSize}
variable {i i' j k : Nat}

theorem readU64_eq_iff {x : Addr} {value : BitVec 64} :
    readU64 m x = value ↔ m.Contains x (LittleEndian.encode 8 value.toNat) :=
  loadU64_eq_iff

theorem NamedAt.occurs (h : NamedAt m textbase textsz symbol name i) : Occurs m textbase symbol i := by
  have hs := (Mem.Contains.append.mp h.string).left
  rwa [h.name_eq] at hs

theorem charScan_of_firstAt (hl : symbol.length ≤ textsz.toNat)
    (h : FirstAt m textbase (textsz.toNat - symbol.length) symbol i) :
    charScan m textbase textsz symbol = some (textbase + .ofNat 64 i) := by
  have hs := textsz.isLt
  have hb : (textsz - .ofNat 64 symbol.length).toNat = textsz.toNat - symbol.length := by bv_omega
  rw [charScan_eq, hb, h.scanBefore_eq]

theorem u64Scan_eq_scanBefore {value : BitVec 64} (hl : 8 ≤ pSize.toNat) :
    u64Scan m pPage pSize value = scanBefore m pPage (pSize.toNat - 8) (LittleEndian.encode 8 value.toNat) := by
  have hb : (pSize - 8).toNat = pSize.toNat - 8 := by bv_omega
  rw [u64Scan_eq, hb]

theorem patchInternalCallList_of_firstSlot (hl : symbol.length ≤ textsz.toNat) (hz : 8 ≤ pSize.toNat)
    (h : FirstSlot m textbase textsz symbol pPage pSize i j) :
    patchInternalCallList m textbase textsz symbol (some (pPage, pSize)) destCall =
      (some (readU64 m (pPage + .ofNat 64 j + 8)),
        m.write (pPage + .ofNat 64 j + 8) (LittleEndian.encode 8 destCall.toNat)) := by
  simp only [patchInternalCallList, charScan_of_firstAt hl h.text, u64Scan_eq_scanBefore hz, h.page.scanBefore_eq, sysProcRw]

theorem firstSlot_of_patchInternalCallList (hl : symbol.length ≤ textsz.toNat) (hz : 8 ≤ pSize.toNat)
    (hi : FirstAt m textbase (textsz.toNat - symbol.length) symbol i)
    (h : (patchInternalCallList m textbase textsz symbol (some (pPage, pSize)) destCall).fst ≠ none) :
    ∃ j, FirstSlot m textbase textsz symbol pPage pSize i j := by
  simp only [patchInternalCallList, charScan_of_firstAt hl hi, u64Scan_eq_scanBefore hz] at h
  cases hs : scanBefore m pPage (pSize.toNat - 8) (LittleEndian.encode 8 (textbase + .ofNat 64 i).toNat)
  case none =>
    rw [hs] at h
    exact absurd rfl h
  case some x =>
    have ⟨j, hj, _⟩ := scanBefore_eq_some_iff.mp hs
    exact ⟨j, hi, hj⟩

-- The first slot is the one of the entry if it has the same address.
theorem FirstSlot.direct (h : FirstSlot m textbase textsz symbol pPage pSize i j) (hk : k < t.count)
    (he : pPage + .ofNat 64 j = t.entry pPage k) (hn : NamedAt m textbase textsz symbol (t.name m pPage k) i') :
    Direct m textbase symbol i' pPage (t.name m pPage k) (t.position k) := by
  have ht := t.inside
  have hin := hn.inside
  have hlt := h.text.lt
  have hj := h.page.lt
  have hp := pSize.isLt
  have hname : t.name m pPage k = textbase + .ofNat 64 i := by
    rw [Table.name, ← he]
    exact readU64_eq_iff.mpr h.page.occurs
  obtain rfl : i' = i := by
    have hi := hn.name_eq.symm.trans hname
    bv_omega
  obtain rfl : j = t.position k := by
    simp only [Table.entry, Table.position] at he ⊢
    bv_omega
  exact ⟨h.text.first, hname ▸ h.page.first⟩

theorem Direct.firstSlot (h : Direct m textbase symbol i pPage (t.name m pPage k) (t.position k)) (hk : k < t.count)
    (hn : NamedAt m textbase textsz symbol (t.name m pPage k) i) :
    FirstSlot m textbase textsz symbol pPage pSize i (t.position k) := by
  have ht := t.inside
  have hi := hn.inside
  have ho : Occurs m pPage (LittleEndian.encode 8 (t.name m pPage k).toNat) (t.position k) := readU64_eq_iff.mp rfl
  constructor
  case text => exact ⟨by omega, hn.occurs, h.text⟩
  case page =>
    rw [← hn.name_eq]
    exact ⟨by simp only [Table.position]; omega, ho, h.page⟩

-- The entry of the name is patched if its string and its slot are the first ones of their kind, or if there is nothing
-- left to change.
theorem patchInternalCallList_iff (hk : k < t.count) (hn : NamedAt m textbase textsz symbol (t.name m pPage k) i) :
    patchInternalCallList m textbase textsz symbol (some (pPage, pSize)) destCall =
        (some (t.func m pPage k), m.write (t.entry pPage k + 8) (LittleEndian.encode 8 destCall.toNat)) ↔
      Direct m textbase symbol i pPage (t.name m pPage k) (t.position k) ∨
        AlreadyCalls m textbase textsz symbol pPage pSize (t.entry pPage k) destCall := by
  have hi := hn.inside
  have ht := t.inside
  have hl : symbol.length ≤ textsz.toNat := by omega
  have hz : 8 ≤ pSize.toNat := by omega
  have hd : (LittleEndian.encode 8 destCall.toNat).length = 8 := LittleEndian.length_encode
  constructor
  case mp =>
    intro h
    obtain ⟨i', hi'⟩ := @exists_firstAt m textbase symbol (textsz.toNat - symbol.length) ⟨i, by omega, hn.occurs⟩
    have hs := (congrArg Prod.fst h).trans_ne (Option.some_ne_none _)
    obtain ⟨j, hp⟩ := firstSlot_of_patchInternalCallList hl hz hi' hs
    rw [patchInternalCallList_of_firstSlot hl hz hp, Prod.mk.injEq, Option.some.injEq] at h
    by_cases he : pPage + .ofNat 64 j = t.entry pPage k
    case pos => exact .inl (hp.direct hk he hn)
    case neg =>
      -- Both slots hold the same function, and it makes no difference which one is written to.
      have hne : pPage + .ofNat 64 j + 8 ≠ t.entry pPage k + 8 := fun h8 => he ((BitVec.add_left_inj 8).mp h8)
      have hr := readU64_eq_iff.mp h.left
      have hr' : m.Contains (t.entry pPage k + 8) (LittleEndian.encode 8 (t.func m pPage k).toNat) := readU64_eq_iff.mp rfl
      rw [Mem.Contains, LittleEndian.length_encode] at hr hr'
      obtain ⟨hslot, hentry⟩ := Mem.contains_of_write_eq (by omega) hne h.right (by rw [hd, hr, hr'])
      exact .inr ⟨readU64_eq_iff.mpr hentry, i', j, hp, readU64_eq_iff.mpr hslot⟩
  case mpr =>
    intro h
    cases h
    case inl h => rw [patchInternalCallList_of_firstSlot hl hz (h.firstSlot hk hn), Table.func, Table.entry]
    case inr h =>
      obtain ⟨he, i', j, hp, hs⟩ := h
      have hslot := (readU64_eq_iff.mp hs).write_eq (by omega)
      have hentry := (readU64_eq_iff.mp he).write_eq (by omega)
      rw [patchInternalCallList_of_firstSlot hl hz hp, hs, hslot, Table.func, he, hentry]

-- A text with the strings "AB" and "B", and a page with one pair.

def patchSample (name : UInt8) : Mem := fun x =>
  ([65, 66, 0, 66, 0] ++ [name, 0, 0x40, 0, 0, 0, 0, 0] ++ [0, 2, 0x40, 0, 0, 0, 0, 0]).getD (x - 0x400000).toNat 0xcc

def tableSample : Table 17 where
  offset := 0
  count  := 1
  inside := by decide

theorem namedAt_patchSample : NamedAt (patchSample 0) 0x400000 5 [65, 66] (tableSample.name (patchSample 0) 0x400005 0) 0 where
  inside  := by decide
  name_eq := by decide +kernel
  string  := by decide +kernel

-- The first string is found by its beginning.
theorem patchInternalCallList_sample :
    patchInternalCallList (patchSample 0) 0x400000 5 [65, 66] (some (0x400005, 17)) 0x400300 =
      (some (tableSample.func (patchSample 0) 0x400005 0),
        (patchSample 0).write (tableSample.entry 0x400005 0 + 8) (LittleEndian.encode 8 (0x400300 : Addr).toNat)) :=
  (patchInternalCallList_iff (by decide) namedAt_patchSample).mpr (.inl ⟨nofun, nofun⟩)

-- The second one is found in the first one, to which no pair points.
theorem patchInternalCallList_misses : ¬∀ (m : Mem) (textbase pPage destCall : Addr) (textsz pSize : BitVec 64)
    (symbol : Bytes) (t : Table pSize) (i k : Nat), k < t.count →
    NamedAt m textbase textsz symbol (t.name m pPage k) i →
    (∀ k' < t.count, ∀ i', NamedAt m textbase textsz symbol (t.name m pPage k') i' → k' = k) →
    patchInternalCallList m textbase textsz symbol (some (pPage, pSize)) destCall =
      (some (t.func m pPage k), m.write (t.entry pPage k + 8) (LittleEndian.encode 8 destCall.toNat)) := by
  intro ha
  have hn : NamedAt (patchSample 3) 0x400000 5 [66] (tableSample.name (patchSample 3) 0x400005 0) 3 :=
    ⟨by decide, by decide +kernel, by decide +kernel⟩
  have h := ha _ _ _ 0x400300 _ _ _ _ _ _ (by decide) hn fun k' hk _ _ => Nat.lt_one_iff.mp hk
  exact absurd (congrArg Prod.fst h) (by decide +kernel)

end

end Memory

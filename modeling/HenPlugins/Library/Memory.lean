import HenPlugins.Library.CString

open List Set

-- Addresses wrap around.
abbrev Addr := BitVec 64

abbrev Mem := Addr → UInt8

namespace Mem

variable {m m' : Mem} {a b x : Addr} {bs cs : Bytes} {n k i : Nat}

-- The `n` addresses from `a` on.
def region (a : Addr) (n : Nat) : Set Addr :=
  {x | (x - a).toNat < n}

def read (m : Mem) (a : Addr) (n : Nat) : Bytes :=
  (List.range n).map fun i => m (a + .ofNat 64 i)

def write (m : Mem) (a : Addr) (bs : Bytes) : Mem :=
  fun x => bs[(x - a).toNat]?.getD (m x)

-- The memory holds the given bytes from `a` on.
def Contains (m : Mem) (a : Addr) (bs : Bytes) : Prop :=
  m.read a bs.length = bs

instance : Decidable (x ∈ region a n) :=
  inferInstanceAs (Decidable ((x - a).toNat < n))

instance : Decidable (m.Contains a bs) :=
  inferInstanceAs (Decidable (_ = _))

theorem mem_region : x ∈ region a n ↔ (x - a).toNat < n :=
  .rfl

theorem add_mem_region (h : i < n) : a + .ofNat 64 i ∈ region a n := by
  rw [mem_region]
  bv_omega

theorem exists_of_mem_region (h : x ∈ region a n) : ∃ i < n, x = a + .ofNat 64 i := by
  rw [mem_region] at h
  exact ⟨(x - a).toNat, h, by bv_omega⟩

theorem region_subset (h : i + k ≤ n) : region (a + .ofNat 64 i) k ⊆ region a n := by
  intro x hx
  rw [mem_region] at hx ⊢
  bv_omega

theorem region_mono (h : k ≤ n) : region a k ⊆ region a n :=
  fun _ hx => Nat.lt_of_lt_of_le hx h

@[simp]
theorem length_read : (m.read a n).length = n := by
  simp [read]

theorem getElem_read (h : i < (m.read a n).length) : (m.read a n)[i] = m (a + .ofNat 64 i) := by
  simp [read]

theorem read_congr (h : EqOn m m' (region a n)) : m.read a n = m'.read a n := by
  apply map_congr_left
  intro i hi
  exact h (add_mem_region (List.mem_range.mp hi))

theorem read_add : m.read a (n + k) = m.read a n ++ m.read (a + .ofNat 64 n) k := by
  simp only [read, List.range_add, List.map_append, List.map_map, Function.comp_def, BitVec.ofNat_add,
    BitVec.add_assoc]

-- Two regions that meet do so at the beginning of one of them.
theorem mem_or_mem_of_mem (hx : x ∈ region a n) (hx' : x ∈ region b k) : b ∈ region a n ∨ a ∈ region b k := by
  simp only [mem_region] at *
  bv_omega

theorem disjoint_region (h : b ∉ region a n) (h' : a ∉ region b k) : Disjoint (region a n) (region b k) :=
  Set.disjoint_left.mpr fun _ hx hx' => (mem_or_mem_of_mem hx hx').elim h h'

-- Regions at different offsets from one address.
theorem disjoint_region_add {l : Nat} (hi : i + n ≤ k) (hk : k + l ≤ 2 ^ 64) :
    Disjoint (region (a + .ofNat 64 i) n) (region (a + .ofNat 64 k) l) := by
  refine Set.disjoint_left.mpr fun x hx hx' => ?_
  rw [mem_region] at hx hx'
  bv_omega

-- Only the addresses that are written to change.
theorem write_eqOn : EqOn (m.write a bs) m (region a bs.length)ᶜ := by
  intro x hx
  rw [mem_compl_iff, mem_region, not_lt] at hx
  rw [write, getElem?_eq_none hx, Option.getD_none]

theorem write_apply (h : i < bs.length) (hl : bs.length ≤ 2 ^ 64) :
    m.write a bs (a + .ofNat 64 i) = bs[i] := by
  have hi : (a + BitVec.ofNat 64 i - a).toNat = i := by bv_omega
  rw [write, hi, getElem?_eq_getElem h, Option.getD_some]

theorem read_write (hl : bs.length ≤ 2 ^ 64) : (m.write a bs).read a bs.length = bs := by
  apply ext_getElem length_read
  intro i hi hb
  rw [getElem_read, write_apply hb hl]

theorem eqOn_write_of_disjoint {s : Set Addr} (h : Disjoint s (region a bs.length)) :
    EqOn (m.write a bs) m s :=
  write_eqOn.mono h.subset_compl_right

theorem eqOn_write {s : Set Addr} (h : EqOn m m' sᶜ) (hs : region a bs.length ⊆ s) :
    EqOn (m.write a bs) m' sᶜ :=
  fun _ hx => (write_eqOn fun hm => hx (hs hm)).trans (h hx)

theorem write_append (hl : (bs ++ cs).length ≤ 2 ^ 64) :
    (m.write a bs).write (a + .ofNat 64 bs.length) cs = m.write a (bs ++ cs) := by
  rw [length_append] at hl
  funext x
  simp only [write]
  by_cases hx : (x - a).toNat < bs.length
  case pos =>
    have hn : cs.length ≤ (x - (a + .ofNat 64 bs.length)).toNat := by bv_omega
    rw [getElem?_eq_none hn, getElem?_append_left hx, Option.getD_none]
  case neg =>
    have he : (x - (a + .ofNat 64 bs.length)).toNat = (x - a).toNat - bs.length := by bv_omega
    rw [not_lt] at hx
    rw [he, getElem?_append_right hx, getElem?_eq_none hx, Option.getD_none]

-- The beginning of what has been written is written once more.
theorem write_overwrite {ds : Bytes} (h : ds.length = bs.length) :
    (m.write a (bs ++ cs)).write a ds = m.write a (ds ++ cs) := by
  funext x
  simp only [write]
  by_cases hx : (x - a).toNat < ds.length
  case pos => rw [getElem?_append_left hx, getElem?_eq_getElem hx, Option.getD_some, Option.getD_some]
  case neg =>
    rw [not_lt] at hx
    rw [getElem?_append_right hx, getElem?_eq_none hx, getElem?_append_right (h ▸ hx), h, Option.getD_none]

theorem contains_iff : m.Contains a bs ↔ ∀ i (h : i < bs.length), m (a + .ofNat 64 i) = bs[i] := by
  constructor
  case mpr =>
    intro h
    apply ext_getElem length_read
    intro i hi hb
    rw [getElem_read, h i hb]
  case mp =>
    intro h i hi
    have hr : i < (m.read a bs.length).length := by rwa [length_read]
    rw [← getElem_read hr]
    simp only [show m.read a bs.length = bs from h]

namespace Contains

theorem apply (h : m.Contains a bs) (hi : i < bs.length) : m (a + .ofNat 64 i) = bs[i] := by
  exact contains_iff.mp h i hi

-- Two strings that are both in memory agree where they overlap.
theorem agree (h : m.Contains a bs) (h' : m.Contains (a + .ofNat 64 k) cs) (hb : k + i < bs.length)
    (hc : i < cs.length) : bs[k + i] = cs[i] := by
  rw [← h.apply hb, ← h'.apply hc, BitVec.ofNat_add, BitVec.add_assoc]

theorem append : m.Contains a (bs ++ cs) ↔ m.Contains a bs ∧ m.Contains (a + .ofNat 64 bs.length) cs := by
  rw [Contains, length_append, read_add]
  constructor
  case mp  => exact fun h => append_inj h length_read
  case mpr => exact fun ⟨h, h'⟩ => congrArg₂ _ h h'

theorem write_self (hl : bs.length ≤ 2 ^ 64) : (m.write a bs).Contains a bs :=
  read_write hl

theorem congr (h : m.Contains a bs) (he : EqOn m' m (region a bs.length)) : m'.Contains a bs :=
  (read_congr he).trans h

theorem write (h : m.Contains a bs) (hd : Disjoint (region a bs.length) (region b cs.length)) :
    (m.write b cs).Contains a bs :=
  h.congr (eqOn_write_of_disjoint hd)

end Contains

-- Where the second place comes first, what is written is found again further in front.
theorem contains_of_write_eq_of_le (hl : bs.length ≤ 2 ^ 62) (hne : a ≠ b) (hle : (b - a).toNat ≤ (a - b).toNat)
    (hw : m.write a bs = m.write b bs) (hr : m.read a bs.length = m.read b bs.length) : m.Contains a bs := by
  have hr (i : Nat) (hi : i < bs.length) : m (a + .ofNat 64 i) = m (b + .ofNat 64 i) := by
    have h := getElem_of_eq hr (i := i) (by rwa [length_read])
    rwa [getElem_read, getElem_read] at h
  rw [contains_iff]
  intro i
  induction i using Nat.strong_induction_on
  case h i hi =>
    intro hb
    have h := congrFun hw (a + .ofNat 64 i)
    rw [write_apply hb (by omega)] at h
    by_cases hm : a + .ofNat 64 i ∈ region b bs.length
    case neg => exact (write_eqOn hm).symm.trans h.symm
    case pos =>
      have ⟨k, hk, he⟩ := exists_of_mem_region hm
      have hlt : k < i := by bv_omega
      rw [he, write_apply hk (by omega)] at h
      rw [he, ← hr k hk, hi k hlt hk, h]

-- If it makes no difference to which of two places something is written, and both hold the same, they hold it already.
theorem contains_of_write_eq (hl : bs.length ≤ 2 ^ 62) (hne : a ≠ b) (hw : m.write a bs = m.write b bs)
    (hr : m.read a bs.length = m.read b bs.length) : m.Contains a bs ∧ m.Contains b bs := by
  obtain hle | hle := Nat.le_total (b - a).toNat (a - b).toNat
  · have h := contains_of_write_eq_of_le hl hne hle hw hr
    exact ⟨h, hr.symm.trans h⟩
  · have h := contains_of_write_eq_of_le hl hne.symm hle hw.symm hr.symm
    exact ⟨hr.trans h, h⟩

theorem Contains.write_eq (h : m.Contains a bs) (hl : bs.length ≤ 2 ^ 64) : m.write a bs = m := by
  funext x
  by_cases hm : x ∈ region a bs.length
  case neg => exact write_eqOn hm
  case pos =>
    have ⟨i, hi, he⟩ := exists_of_mem_region hm
    rw [he, write_apply hi hl, h.apply hi]

-- Wherever the second string starts inside the first one, they disagree at some position.
def Clash (bs cs : Bytes) : Prop :=
  ∀ k < bs.length, ∃ i, ∃ (hb : k + i < bs.length) (hc : i < cs.length), bs[k + i] ≠ cs[i]

theorem Clash.not_mem (h : Clash bs cs) (hb : m.Contains a bs) (hc : m.Contains b cs) :
    b ∉ region a bs.length := by
  intro hm
  have ⟨k, hk, he⟩ := exists_of_mem_region hm
  have ⟨i, hi, hi', hn⟩ := h k hk
  exact hn <| hb.agree (he ▸ hc) hi hi'

-- Strings that clash do not overlap in memory.
theorem Clash.disjoint (h : Clash bs cs) (h' : Clash cs bs) (hb : m.Contains a bs) (hc : m.Contains b cs) :
    Disjoint (region a bs.length) (region b cs.length) :=
  disjoint_region (h.not_mem hb hc) (h'.not_mem hc hb)

end Mem

import HenPlugins.Library.CharArray
import HenPlugins.Settings.Theorems.Write

open List CString Ini

namespace Settings

variable {file : Option Bytes} {s id value v : Bytes} {n : Nat}

-- The content of the file and of a buffer of zeros after a value has been read.
def read (file : Option Bytes) (s id value : Bytes) (n : Nat) : Option Bytes × Bytes :=
  readWriteLocalSettings file s id value true (replicate n 0)

-- The buffer would not be as long as before if something was written behind it.
structure ReadContract (file : Option Bytes) (s id value : Bytes) (n : Nat) : Prop where
  bounded : (read file s id value n).2.length = n
  text    : CharArray.string (read file s id value n).2 = some (((iniGet (iniLoad file) s id).getD []).take (n - 1))
  added   : iniGet (iniLoad file) s id = none → iniGet (iniLoad (read file s id value n).1) s id = bytes "0"
  others  : iniGet (iniLoad file) s id = none → ∀ s' id', (s', id') ≠ (s, id) →
    iniGet (iniLoad (read file s id value n).1) s' id' = iniGet (iniLoad file) s' id'

section Buffer

theorem read_of_some (h : iniGet (iniLoad file) s id = some v) : (read file s id value n).2 =
    if v.length > n then v.take (n - 1) ++ replicate (n - (n - 1)) 0 else v ++ replicate (n - v.length) 0 := by
  simp only [read, readWriteLocalSettings, if_true, h, Option.getD_some, length_replicate]
  split
  · rw [drop_replicate]
  · rw [drop_replicate, take_length]

theorem read_of_none (h : iniGet (iniLoad file) s id = none) :
    read file s id value n = (written file s id (bytes "0"), replicate n 0) := by
  simp [read, readWriteLocalSettings, h, written]

theorem zero_not_mem_iniGet {ini : INIFile} (h : iniGet ini s id = some v) : 0 ∉ v := by
  rw [INIFile.iniGet_eq, Option.map_eq_some_iff] at h
  obtain ⟨kv, _, rfl⟩ := h
  exact kv.value.terminated

-- If the value is as long as the buffer, then there is no room for its terminator.
theorem readContract_iff_of_some (hn : 0 < n) (h : iniGet (iniLoad file) s id = some v) :
    ReadContract file s id value n ↔ v.length ≠ n := by
  have hz := zero_not_mem_iniGet h
  constructor
  case mp =>
    rintro hc rfl
    have ht := hc.text
    rw [read_of_some h, if_neg (Nat.lt_irrefl _), Nat.sub_self, replicate_zero, append_nil, CharArray.string, if_neg hz] at ht
    contradiction
  case mpr =>
    intro hl
    constructor
    case added  => simp [h]
    case others => simp [h]
    case bounded =>
      rw [read_of_some h]
      split
      · simp
        omega
      · simp
        omega
    case text =>
      rw [read_of_some h, h, Option.getD_some]
      split
      case isTrue hg =>
        rw [Nat.sub_sub_self hn]
        exact CharArray.string_terminated fun hm => hz (mem_of_mem_take hm)
      case isFalse hg =>
        have hr : n - v.length = n - 1 - v.length + 1 := by omega
        rw [hr, replicate_succ, CharArray.string_terminated hz, take_of_length_le (by omega)]

end Buffer

section Added

-- The names fit into their buffers and stay on one line.
structure Storable (s id : Bytes) : Prop where
  sectionFits : s.length < maxSectionLength ∧ 0 ∉ s
  keyFits     : id.length < maxKeyLength ∧ 0 ∉ id
  noBreak     : NoBreak s ∧ NoBreak id

-- Every line that is written is read as what it was written for.
def LinesReread (file : Option Bytes) (s id v : Bytes) : Prop :=
  ∀ sec ∈ (iniSet (iniLoad file) s id v).sections, sec.Rereads

-- What is found in a file has been read from one of its lines.
theorem storable_of_iniGet (h : iniGet (iniLoad file) s id = some v) : Storable s id := by
  rw [INIFile.iniGet_eq, Option.map_eq_some_iff] at h
  obtain ⟨kv, hf, _⟩ := h
  obtain ⟨sec, hs, hk⟩ := Option.bind_eq_some_iff.mp hf
  have hb := (iniLoad_noBreaks file).sections sec (Keyed.mem_of_lookup hs)
  have hbk := hb.keys kv (Keyed.mem_of_lookup hk)
  obtain rfl : sec.id = s := Keyed.key_of_lookup hs
  obtain rfl : kv.id = id := Keyed.key_of_lookup hk
  exact ⟨⟨sec.name.fits, sec.name.terminated⟩, ⟨kv.key.fits, kv.key.terminated⟩, hb.name, hbk.key⟩

theorem Storable.reloads (h : Storable s id) (hl : LinesReread file s id (bytes "0")) : Reloads file s id (bytes "0") where
  sectionName := createSection_id h.sectionFits.left h.sectionFits.right
  key         := createKey_id h.keyFits.left h.keyFits.right
  value       := by decide
  noBreaks    := (iniLoad_noBreaks file).set h.noBreak.left h.noBreak.right (by decide)
  lines       := hl

theorem readContract_iff_of_none (hn : 0 < n) (h : iniGet (iniLoad file) s id = none) :
    ReadContract file s id value n ↔ WriteContract file s id (bytes "0") := by
  have hr : read file s id value n = (written file s id (bytes "0"), replicate n 0) := read_of_none h
  constructor
  case mp =>
    intro hc
    have hw := hc.added h
    have ho := hc.others h
    rw [hr] at hw ho
    exact ⟨hw, ho⟩
  case mpr =>
    intro hw
    constructor
    case bounded => rw [hr, length_replicate]
    case added   => exact fun _ => hr ▸ hw.written
    case others  => exact fun _ => hr ▸ hw.others
    case text    =>
      obtain ⟨n, rfl⟩ := Nat.exists_eq_succ_of_ne_zero (Nat.ne_of_gt hn)
      rw [hr, h, Option.getD_none, take_nil, replicate_succ]
      exact @CharArray.string_terminated [] _ not_mem_nil

end Added

-- A value of the length of the buffer is copied without its terminator, and a default that is added to the file is read
-- back like any other value that is written.
theorem readContract_iff (file : Option Bytes) (s id value : Bytes) (n : Nat) (hn : 0 < n) :
    (∀ v, iniGet (iniLoad file) s id = some v → (ReadContract file s id value n ↔ v.length ≠ n)) ∧
    (iniGet (iniLoad file) s id = none →
      (ReadContract file s id value n → Storable s id) ∧
      (LinesReread file s id (bytes "0") →
        (ReadContract file s id value n ↔ Storable s id ∧ OrderFree (iniLoad file) s id (bytes "0")))) := by
  refine ⟨fun v h => readContract_iff_of_some hn h, fun h => ?_⟩
  have hi := @readContract_iff_of_none file s id value n hn h
  have hs : ReadContract file s id value n → Storable s id :=
    fun hc => storable_of_iniGet (hi.mp hc).written
  refine ⟨hs, fun hl => ⟨fun hc => ⟨hs hc, ?_⟩, fun ⟨hs, ho⟩ => ?_⟩⟩
  case refine_1 => exact ((hs hc).reloads hl).contract_iff.mp (hi.mp hc)
  case refine_2 => exact hi.mpr <| (hs.reloads hl).contract_iff.mpr ho

theorem readContract_sample :
    ReadContract (bytes "[all]\na=1\n") (bytes "all") (bytes "a") [] 128 ∧
    ReadContract (bytes "[all]\na=1\n") (bytes "all") (bytes "b") [] 128 := by
  constructor
  case left =>
    have hc := (readContract_iff (bytes "[all]\na=1\n") (bytes "all") (bytes "a") [] 128 (by decide)).left
    exact hc (bytes "1") (by decide) |>.mpr (by decide)
  case right =>
    have h : Setting (bytes "all") (bytes "b") (bytes "0") := {
      sectionName := by decide, sectionFits := by decide, key := by decide, keyFits := by decide,
      value := by decide, valueFits := by decide }
    have hr : Rewritable (iniLoad (bytes "[all]\na=1\n")) (bytes "all") (bytes "b") (bytes "0") := {
      headers := by decide, others := by decide, written := by decide }
    have hs : Storable (bytes "all") (bytes "b") := ⟨h.sectionFits, h.keyFits, by decide⟩
    have hu : (iniLoad (bytes "[all]\na=1\n")).Unambiguous := ⟨by decide, by decide⟩
    have hc := (readContract_iff (bytes "[all]\na=1\n") (bytes "all") (bytes "b") [] 128 (by decide)).right (by decide)
    exact hc.right (hr.set_rereads h) |>.mpr ⟨hs, .of_unambiguous hu⟩

def longValue : Bytes :=
  bytes "[all]\na=" ++ replicate 128 49 ++ bytes "\n"

-- The buffer of `NewOnPreCreate` has 128 bytes.
theorem readContract_unterminated :
    CharArray.string (read longValue (bytes "all") (bytes "a") [] 128).2 = none ∧
    ¬ReadContract longValue (bytes "all") (bytes "a") [] 128 := by
  have h : CharArray.string (read longValue (bytes "all") (bytes "a") [] 128).2 = none := by decide +kernel
  refine ⟨h, fun hc => ?_⟩
  exact Option.some_ne_none _ (hc.text.symm.trans h)

end Settings

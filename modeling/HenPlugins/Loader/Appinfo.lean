import HenPlugins.Library.LittleEndian

open List CString

namespace Loader

-- The content of the buffer at `data` after `read_file`. The buffer is cleared once the file is open,
-- and a file that is too short leaves the rest of it cleared.
def readFile (file : Option Bytes) (data : Bytes) : Bytes :=
  match file with
  | none      => data
  | some file => file.take data.length ++ replicate (data.length - file.length) 0

-- The fields of the structure that are not just printed.
@[ext]
structure DiskAppinfo where
  pid     : BitVec 32
  titleid : Bytes

abbrev sizeofDiskAppinfo := 32

-- `m_titleid` is used as a string, which extends into the fields behind it if it is not terminated.
def DiskAppinfo.ofBytes (data : Bytes) : DiskAppinfo where
  pid     := .ofNat 32 <| LittleEndian.decode (data.take 4)
  titleid := cstr (data.drop 4)

def readAppinfo (file : Option Bytes) : DiskAppinfo :=
  .ofBytes <| readFile file (replicate sizeofDiskAppinfo 0)

-- `strncpy0(array, s, sizeof(array))` for an array that is zero before.
def charArray (size : Nat) [NeZero size] (s : Bytes) : Bytes :=
  let buf : Buf size := .strncpy s
  buf.text ++ replicate (size - buf.text.length) 0

-- The content of the file that `chmodRootDirForBug86309_Hook` writes when an application starts. The
-- structure ends with two bytes of padding.
def diskAppinfo (appPid : BitVec 32) (titleid category appver : Bytes) : Bytes :=
  LittleEndian.encode 4 appPid.toNat ++
  charArray 10 titleid ++ charArray 8 category ++ charArray 8 appver ++ replicate 2 0

section

variable {pid : BitVec 32} {t c v : Bytes} {n : Nat}

theorem length_charArray {size : Nat} [NeZero size] {s : Bytes} : (charArray size s).length = size := by
  have := (Buf.strncpy s : Buf size).fits
  simp only [charArray, length_append, length_replicate]
  omega

theorem length_diskAppinfo : (diskAppinfo pid t c v).length = sizeofDiskAppinfo := by
  simp [diskAppinfo, length_charArray]

theorem cstr_append_zero {a b : Bytes} (h : 0 ∉ a) : cstr (a ++ 0 :: b) = a := by
  rw [cstr, takeWhile_append_of_pos, takeWhile_cons_of_neg (by simp), append_nil]
  intro d hd
  simp only [ne_eq, decide_eq_true_eq]
  exact fun h0 => h (h0 ▸ hd)

theorem drop_diskAppinfo (pid : BitVec 32) (t c v : Bytes) :
    ∃ rest, (diskAppinfo pid t c v).drop 4 = (Buf.strncpy t : Buf 10).text ++ 0 :: rest := by
  have hf := (Buf.strncpy t : Buf 10).fits
  have ⟨k, hk⟩ : ∃ k, 10 - (Buf.strncpy t : Buf 10).text.length = k + 1 :=
    Nat.exists_eq_add_one.mpr (by omega)
  refine ⟨replicate k 0 ++ (charArray 8 c ++ charArray 8 v ++ replicate 2 0), ?_⟩
  simp only [diskAppinfo, append_assoc]
  rw [drop_left' (by simp), charArray, hk, replicate_succ]
  simp

theorem readFile_take : readFile (some ((diskAppinfo pid t c v).take n)) (replicate sizeofDiskAppinfo 0) =
    (diskAppinfo pid t c v).take n ++ replicate (sizeofDiskAppinfo - n) 0 := by
  have hl : (diskAppinfo pid t c v).length = sizeofDiskAppinfo := length_diskAppinfo
  have hm : sizeofDiskAppinfo - min n sizeofDiskAppinfo = sizeofDiskAppinfo - n := by omega
  have ht : ((diskAppinfo pid t c v).take n).length ≤ sizeofDiskAppinfo := by
    rw [length_take, hl]
    exact Nat.min_le_right ..
  rw [readFile, length_replicate, take_of_length_le ht, length_take, hl, hm]

theorem pid_readAppinfo (h : 4 ≤ n) : (readAppinfo (some ((diskAppinfo pid t c v).take n))).pid = pid := by
  have ht : (diskAppinfo pid t c v).take 4 = LittleEndian.encode 4 pid.toNat := by
    simp only [diskAppinfo, append_assoc]
    exact take_left' LittleEndian.length_encode
  have hl : 4 ≤ ((diskAppinfo pid t c v).take n).length := by
    rw [length_take, length_diskAppinfo]
    exact le_min h (by decide)
  simp only [readAppinfo, DiskAppinfo.ofBytes, readFile_take]
  rw [take_append_of_le_length hl, take_take, min_eq_left h, ht, LittleEndian.decode_encode]
  bv_omega

-- However much of the file has been written, the title id that is read from it is a prefix of the one
-- of the application.
theorem titleid_readAppinfo :
    (readAppinfo (some ((diskAppinfo pid t c v).take n))).titleid =
      (Buf.strncpy t : Buf 10).text.take (n - 4) := by
  have hf := (Buf.strncpy t : Buf 10).fits
  have ht := (Buf.strncpy t : Buf 10).terminated
  have ⟨rest, hd⟩ := drop_diskAppinfo pid t c v
  simp only [readAppinfo, DiskAppinfo.ofBytes, readFile_take, drop_append, drop_take, hd]
  generalize (Buf.strncpy t : Buf 10).text = t' at *
  have ht' : 0 ∉ t'.take (n - 4) := fun h => ht (mem_of_mem_take h)
  rw [take_append, append_assoc]
  by_cases hn : n - 4 ≤ t'.length
  case pos =>
    -- The rest of the buffer has been cleared.
    have ⟨k, hk⟩ : ∃ k, 32 - n - (4 - min n 32) = k + 1 := Nat.exists_eq_add_one.mpr (by omega)
    have hz : n - 4 - t'.length = 0 := by omega
    rw [hz, drop_replicate, length_take, length_diskAppinfo, hk, replicate_succ, take_zero, nil_append]
    exact cstr_append_zero ht'
  case neg =>
    have ⟨k, hk⟩ : ∃ k, n - 4 - t'.length = k + 1 := Nat.exists_eq_add_one.mpr (by omega)
    rw [hk, take_succ_cons, cons_append]
    exact cstr_append_zero ht'

end
end Loader

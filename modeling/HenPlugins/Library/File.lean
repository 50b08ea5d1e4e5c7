import HenPlugins.Library.CString

open List

-- The contents of files.
namespace File

-- The first `k` bytes, where zeros stand behind the end.
def upto (k : Nat) (c : Bytes) : Bytes :=
  (c ++ replicate (k - c.length) 0).take k

-- Overwrites at a position, which may be behind the end. Nothing happens if there is nothing to write.
def write (pos : Nat) (bs c : Bytes) : Bytes :=
  if bs = [] then c else upto pos c ++ bs ++ c.drop (pos + bs.length)

def truncate (k : Nat) (c : Bytes) : Bytes :=
  upto k c

variable {k pos : Nat} {c bs d : Bytes}

@[simp]
theorem length_upto : (upto k c).length = k := by
  simp only [upto, length_take, length_append, length_replicate]
  omega

@[simp]
theorem upto_length : upto c.length c = c := by
  simp [upto]

theorem upto_append (h : d.length = k) : upto k (d ++ c) = d := by
  subst h
  rw [upto, append_assoc, take_left]

-- What is in front of the position after a write.
theorem upto_write : upto (pos + bs.length) (write pos bs c) = upto pos c ++ bs := by
  by_cases h : bs = []
  case pos => simp [h, write]
  case neg =>
    rw [write, if_neg h]
    exact upto_append (by simp)

example : truncate 4 (write 3 [7, 8] [1, 2]) = [1, 2, 0, 7] := by decide

end File

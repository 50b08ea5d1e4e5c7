import HenPlugins.Library.CString

open List CString

-- The contents of a `char` array. An access outside of it has no result.
namespace CharArray

variable {array s text : Bytes}

-- `memcpy(array + i, s, n)` for `n` bytes `s`
def memcpy (array : Bytes) (i : Nat) (s : Bytes) : Option Bytes :=
  if i + s.length ≤ array.length then some (array.take i ++ s ++ array.drop (i + s.length)) else none

-- The string that an array holds. It has to be terminated inside of the array.
def string (array : Bytes) : Option Bytes :=
  if 0 ∈ array then some (cstr array) else none

def strlen (array : Bytes) : Option Nat :=
  return (← string array).length

-- `strncat(array, s, strlen(s))`
def strcat (array s : Bytes) : Option Bytes := do
  memcpy array (← strlen array) (s ++ [0])

-- `strncpy(array, s, n)`, which fills up what the string leaves of `n` bytes with zeros
def strncpy (array s : Bytes) (n : Nat) : Option Bytes :=
  memcpy array 0 ((s ++ replicate n 0).take n)

-- `snprintf(array, n, "%s", text)`
def snprintf (array : Bytes) (n : Nat) (text : Bytes) : Option Bytes :=
  memcpy array 0 (text.take (n - 1) ++ [0])

-- Something is added to what the beginning of the array has been filled with.
theorem memcpy_append (h : (text ++ s).length ≤ array.length) :
    memcpy (text ++ array.drop text.length) text.length s =
      some (text ++ s ++ array.drop (text ++ s).length) := by
  rw [length_append] at h
  have hl : text.length + s.length ≤ (text ++ array.drop text.length).length := by
    simp only [length_append, length_drop]
    omega
  rw [memcpy, if_pos hl, take_left' rfl, ← drop_drop, drop_left' rfl, drop_drop, length_append]

theorem cstr_terminated {t : Bytes} (h : 0 ∉ text) : cstr (text ++ 0 :: t) = text := by
  rw [cstr, takeWhile_append_of_pos, takeWhile_cons_of_neg (by simp), append_nil]
  intro c hc
  simp only [ne_eq, decide_eq_true_eq]
  exact fun h0 => h (h0 ▸ hc)

theorem string_terminated {t : Bytes} (h : 0 ∉ text) : string (text ++ 0 :: t) = some text := by
  rw [string, if_pos (by simp), cstr_terminated h]

theorem strlen_terminated {t : Bytes} (h : 0 ∉ text) : strlen (text ++ 0 :: t) = some text.length := by
  rw [strlen, string_terminated h]
  rfl

-- The string is added if there is room for it and its terminator.
theorem strcat_terminated {t : Bytes} (h : 0 ∉ text) : strcat (text ++ 0 :: t) s =
    if s.length ≤ t.length then some (text ++ s ++ 0 :: t.drop s.length) else none := by
  have hs : (s ++ [0]).length = s.length + 1 := by simp
  rw [strcat, strlen_terminated h, Option.bind_eq_bind, Option.bind_some, memcpy, hs]
  simp only [length_append, length_cons, Nat.add_le_add_iff_left, Nat.add_le_add_iff_right]
  congr 2
  rw [take_left' rfl, ← drop_drop, drop_left' rfl, drop_succ_cons]
  simp

-- An array of zeros holds an empty string.

theorem memcpy_zeros {n : Nat} (hs : s.length ≤ n) :
    memcpy (replicate (n + 1) 0) 0 s = some (s ++ 0 :: replicate (n - s.length) 0) := by
  have he := @memcpy_append (replicate (n + 1) 0) s [] (by simpa using Nat.le_succ_of_le hs)
  rwa [drop_replicate, length_nil, Nat.sub_zero, nil_append, nil_append, drop_replicate, Nat.succ_sub hs,
    replicate_succ] at he

theorem strcat_zeros {n : Nat} (hs : s.length ≤ n) :
    strcat (replicate (n + 1) 0) s = some (s ++ 0 :: replicate (n - s.length) 0) := by
  have he := @strcat_terminated s [] (replicate n 0) not_mem_nil
  rw [length_replicate, if_pos hs, drop_replicate] at he
  exact he

-- An array that is filled in full keeps nothing of what it has held.

theorem memcpy_full (h : s.length = array.length) : memcpy array 0 s = some s := by
  have hl : 0 + s.length ≤ array.length := by omega
  rw [memcpy, if_pos hl, zero_add, h, drop_length, take_zero, nil_append, append_nil]

theorem strncpy_full : strncpy array s array.length = some ((s ++ replicate array.length 0).take array.length) :=
  memcpy_full (by simp)

-- What is left of a text that has been cut is the text itself to a copy that is cut in the same place.
theorem strncpy_take {n : Nat} : strncpy array (s.take n) n = strncpy array s n := by
  have ht : (s.take n ++ replicate n 0).take n = (s ++ replicate n 0).take n := by
    rw [take_append, take_append, take_take, length_take, min_self]
    congr 1
    cases Nat.le_total n s.length
    case inl h => simp [h]
    case inr h => rw [min_eq_right h]
  rw [strncpy, strncpy, ht]

-- The terminator is there if the string does not take all of the bytes.
theorem string_filled {n : Nat} (h : 0 ∉ s) :
    string ((s ++ replicate n 0).take n) = if s.length < n then some s else none := by
  split
  case isTrue hl =>
    have ht : (s ++ replicate n 0).take n = s ++ 0 :: replicate (n - s.length - 1) 0 := by
      rw [take_append, take_of_length_le (Nat.le_of_lt hl), take_replicate, min_eq_left (Nat.sub_le _ _), ← replicate_succ]
      congr 2
      omega
    rw [ht, string_terminated h]
  case isFalse hl =>
    rw [take_append_of_le_length (not_lt.mp hl), string, if_neg fun hm => h (mem_of_mem_take hm)]

-- The text is cut so that it is terminated.
theorem string_snprintf {n : Nat} (h : 0 ∉ s) (hn : 0 < n) (ha : n ≤ array.length) :
    (snprintf array n s).bind string = some (s.take (n - 1)) := by
  have hl : 0 + (s.take (n - 1) ++ [0]).length ≤ array.length := by
    simp only [length_append, length_take, length_singleton]
    omega
  have ht : 0 ∉ s.take (n - 1) := fun hm => h (mem_of_mem_take hm)
  rw [snprintf, memcpy, if_pos hl, take_zero, nil_append, append_assoc, singleton_append, Option.bind_some,
    string_terminated ht]

end CharArray

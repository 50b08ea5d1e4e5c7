import Mathlib

open List

abbrev Bytes := List UInt8

-- The bytes of an ASCII literal.
def bytes (s : String) : Bytes :=
  s.toList.map (·.toNat.toUInt8)

namespace CString

abbrev tab    : UInt8 := 9
abbrev lf     : UInt8 := 10
abbrev cr     : UInt8 := 13
abbrev space  : UInt8 := 32
abbrev dquote : UInt8 := 34
abbrev hash   : UInt8 := 35
abbrev squote : UInt8 := 39
abbrev semicolon : UInt8 := 59
abbrev equals    : UInt8 := 61
abbrev lbracket  : UInt8 := 91
abbrev backslash : UInt8 := 92
abbrev rbracket  : UInt8 := 93

attribute [simp] tab lf cr space dquote hash squote semicolon equals lbracket backslash rbracket

def isspace (c : UInt8) : Bool :=
  c = space || (tab ≤ c && c ≤ cr)

def tolower (c : UInt8) : UInt8 :=
  if 65 ≤ c && c ≤ 90 then c + 32 else c

-- The string that starts at the beginning of a buffer: everything up to its terminator.
def cstr (s : Bytes) : Bytes :=
  s.takeWhile (· ≠ 0)

theorem zero_not_mem_cstr {s : Bytes} : 0 ∉ cstr s := by
  intro h
  simpa using mem_takeWhile_imp h

theorem cstr_eq_self {s : Bytes} (h : 0 ∉ s) : cstr s = s :=
  takeWhile_eq_self_iff.mpr fun c hc => by
    simp only [ne_eq, decide_eq_true_eq]
    exact fun h0 => h (h0 ▸ hc)

-- `strncmp(s, t, strlen(t)) == 0`
def startsWith (s t : Bytes) : Bool :=
  t.isPrefixOf s

-- `strncasecmp(s, t, strlen(t)) == 0`
def startsWithCase (s t : Bytes) : Bool :=
  startsWith (s.map tolower) (t.map tolower)

-- A pointer to the first `c` in `s` is given as what stands before and after it.
def strchr : Bytes → UInt8 → Option (Bytes × Bytes)
  | [], _     => none
  | b :: s, c =>
    if b = c then some ([], s)
    else (strchr s c).map fun (before, after) => (b :: before, after)

section

variable {s t before after : Bytes} {c : UInt8}

theorem strchr_eq_none : strchr s c = none ↔ c ∉ s := by
  induction s
  case nil => simp [strchr]
  case cons b s hi =>
    by_cases hb : b = c
    case pos => simp [strchr, hb]
    case neg => simp [strchr, hb, hi, Ne.symm hb]

theorem strchr_append (h : c ∉ before) : strchr (before ++ c :: after) c = (before, after) := by
  induction before
  case nil => simp [strchr]
  case cons b before hi =>
    simp only [mem_cons, not_or] at h
    simp [strchr, Ne.symm h.left, hi h.right]

theorem strchr_eq_some (h : strchr s c = some (before, after)) :
    s = before ++ c :: after ∧ c ∉ before := by
  induction s generalizing before
  case nil => simp [strchr] at h
  case cons b s hi =>
    rw [strchr] at h
    split at h
    case isTrue hb => simp_all
    case isFalse hb =>
      simp only [Option.map_eq_some_iff, Prod.exists, Prod.mk.injEq] at h
      obtain ⟨before', after', h, rfl, rfl⟩ := h
      have ⟨hs, hn⟩ := hi h
      exact ⟨by simp [hs], by simp [Ne.symm hb, hn]⟩

-- Text after the first match does not matter to `strchr`.
theorem strchr_append_right (h : strchr s c = some (before, after)) :
    strchr (s ++ t) c = some (before, after ++ t) := by
  have ⟨hs, hn⟩ := strchr_eq_some h
  simp [hs, strchr_append hn]

end

-- The string that a `char` array of the given size holds.
@[ext]
structure Buf (size : Nat) where
  text : Bytes
  fits : text.length < size
  terminated : 0 ∉ text
deriving DecidableEq

namespace Buf

variable {size : Nat} [NeZero size]

def empty : Buf size :=
  ⟨[], NeZero.pos size, by simp⟩

-- `strncpy(buf, s, size - 1), buf[size - 1] = 0`
def strncpy (s : Bytes) : Buf size where
  text := (cstr s).take (size - 1)
  fits := by
    have := NeZero.pos size
    simp only [length_take]
    omega
  terminated := fun hm => zero_not_mem_cstr (mem_of_mem_take hm)

theorem strncpy_text {s : Bytes} (hs : s.length < size) (hz : 0 ∉ s) : (strncpy s : Buf size).text = s := by
  simp only [strncpy, cstr_eq_self hz]
  exact take_of_length_le (by omega)

@[simp]
theorem strncpy_nil : (strncpy [] : Buf size) = empty := by
  simp [strncpy, empty, cstr]

@[simp]
theorem strncpy_self (b : Buf size) : strncpy b.text = b :=
  Buf.ext <| strncpy_text b.fits b.terminated

end Buf
end CString

import HenPlugins.Library.CString

open List

-- Texts that are written down with a word for each of their symbols.
namespace Encoding

section Plain

variable {α β : Type} {enc : α → List β} {a c : α} {s t : List α}

-- A symbol that is written with a single unit, which no other symbol is written with.
def Plain (enc : α → List β) (a : α) : Prop :=
  ∃ u, enc a = [u] ∧ ∀ c, u ∈ enc c → c = a

theorem Plain.mem_iff {u : β} (h : Plain enc a) (hu : enc a = [u]) : u ∈ s.flatMap enc ↔ a ∈ s := by
  have ⟨v, hv, hc⟩ := h
  obtain rfl : u = v := singleton_injective (hu.symm.trans hv)
  rw [mem_flatMap]
  constructor
  case mp =>
    rintro ⟨c, hm, h⟩
    exact hc c h ▸ hm
  case mpr => exact fun hm => ⟨a, hm, hu ▸ mem_singleton_self u⟩

variable (hn : ∀ c, enc c ≠ []) (hs : ∀ a ∈ s, Plain enc a)

include hn hs in
theorem prefix_iff : s.flatMap enc <+: t.flatMap enc ↔ s <+: t := by
  constructor
  case mpr =>
    rintro ⟨r, rfl⟩
    rw [flatMap_append]
    exact prefix_append _ _
  case mp =>
    intro h
    induction s generalizing t
    case nil => exact nil_prefix
    case cons a s hi =>
      have ⟨⟨u, hu, hc⟩, hs'⟩ := forall_mem_cons.mp hs
      rw [flatMap_cons, hu, singleton_append] at h
      cases t
      case nil => exact absurd h (by simp)
      case cons c t =>
        have ⟨v, w, hw⟩ := exists_cons_of_ne_nil (hn c)
        rw [flatMap_cons, hw, cons_append, cons_prefix_cons] at h
        obtain rfl := hc c (hw ▸ h.left ▸ mem_cons_self)
        rw [hw, cons_eq_cons] at hu
        rw [hu.right, nil_append] at h
        exact cons_prefix_cons.mpr ⟨rfl, hi hs' h.right⟩

-- Where the word of a plain symbol is found, that symbol stands.
include hn hs in
theorem infix_iff : s.flatMap enc <:+: t.flatMap enc ↔ s <:+: t := by
  constructor
  case mpr =>
    rintro ⟨l, r, rfl⟩
    exact ⟨l.flatMap enc, r.flatMap enc, by simp⟩
  case mp =>
    intro h
    cases s
    case nil => exact nil_infix
    case cons a s =>
      have ⟨⟨u, hu, hc⟩, _⟩ := forall_mem_cons.mp hs
      induction t
      case nil => simp [hu] at h
      case cons c t hi =>
        have ⟨l, r, he⟩ := h
        have ht : (c :: t).flatMap enc = enc c ++ t.flatMap enc := flatMap_cons
        rw [ht, append_assoc, append_eq_append_iff] at he
        obtain ⟨x, hx, hr⟩ | ⟨x, _, hr⟩ := he
        case inr => exact infix_cons (hi ⟨x, r, by rw [hr, append_assoc]⟩)
        case inl =>
          cases x
          case nil => exact infix_cons (hi ⟨[], r, hr⟩)
          case cons v x =>
            have hl : l = [] := by
              have hv := hr
              rw [flatMap_cons, hu, singleton_append, cons_append, cons_append, cons_eq_cons] at hv
              obtain rfl := hv.left
              obtain rfl := hc c (hx ▸ mem_append_right _ mem_cons_self)
              rw [hu, singleton_eq_append_iff] at hx
              have ⟨hl, _⟩ : l = [] ∧ x = [] := by simpa using hx
              exact hl
            rw [hl, nil_append] at hx
            rw [← hx, ← ht] at hr
            exact ((prefix_iff hn hs).mp ⟨r, hr⟩).isInfix

end Plain

-- The UTF-8 and the UTF-16 of a text.

def utf8 (s : List Char) : Bytes :=
  s.flatMap String.utf8EncodeChar

def utf16EncodeChar (c : Char) : List UInt16 :=
  if c.toNat < 0x10000 then [.ofNat c.toNat]
  else [.ofNat (0xd800 + (c.toNat - 0x10000) / 0x400), .ofNat (0xdc00 + (c.toNat - 0x10000) % 0x400)]

def utf16 (s : List Char) : List UInt16 :=
  s.flatMap utf16EncodeChar

-- The text that is written in UTF-16. The halves of a pair do not stand alone.
def decodeUtf16 : List UInt16 → Option (List Char)
  | []     => some []
  | u :: s =>
    if u.toNat < 0xd800 ∨ 0xe000 ≤ u.toNat then (decodeUtf16 s).map (Char.ofNat u.toNat :: ·)
    else
      match s with
      | []     => none
      | v :: s =>
        if u.toNat < 0xdc00 ∧ 0xdc00 ≤ v.toNat ∧ v.toNat < 0xe000 then
          (decodeUtf16 s).map (Char.ofNat (0x10000 + (u.toNat - 0xd800) * 0x400 + (v.toNat - 0xdc00)) :: ·)
        else none

section

variable {a c : Char} {s t : List Char}

theorem utf8EncodeChar_of_lt (h : a.toNat < 128) : String.utf8EncodeChar a = [.ofNat a.toNat] :=
  if_pos (Nat.le_of_lt_succ h)

theorem utf16EncodeChar_of_lt (h : a.toNat < 128) : utf16EncodeChar a = [.ofNat a.toNat] :=
  if_pos (by omega)

theorem utf16EncodeChar_ne_nil : utf16EncodeChar c ≠ [] := by
  rw [utf16EncodeChar]
  split <;> simp

theorem char_lt (c : Char) : c.toNat < 0xd800 ∨ 0xdfff < c.toNat ∧ c.toNat < 0x110000 :=
  c.valid

theorem plain_utf8EncodeChar (h : a.toNat < 128) : Plain String.utf8EncodeChar a := by
  refine ⟨_, utf8EncodeChar_of_lt h, fun c hc => Char.toNat_inj.mp ?_⟩
  have hv : c.val.toNat = c.toNat := rfl
  rw [String.utf8EncodeChar, hv] at hc
  split_ifs at hc
  all_goals
    simp only [mem_cons, not_mem_nil, or_false, ← UInt8.toNat_inj, UInt8.toNat_ofNat'] at hc
    omega

theorem plain_utf16EncodeChar (h : a.toNat < 128) : Plain utf16EncodeChar a := by
  refine ⟨_, utf16EncodeChar_of_lt h, fun c hc => Char.toNat_inj.mp ?_⟩
  have hv := char_lt c
  rw [utf16EncodeChar] at hc
  split at hc
  all_goals
    simp only [mem_cons, not_mem_nil, or_false, ← UInt16.toNat_inj, UInt16.toNat_ofNat'] at hc
    omega

theorem decodeUtf16_append {u : List UInt16} : decodeUtf16 (utf16EncodeChar c ++ u) = (decodeUtf16 u).map (c :: ·) := by
  have hv := char_lt c
  rw [utf16EncodeChar]
  split
  case isTrue h =>
    have hu : (UInt16.ofNat c.toNat).toNat = c.toNat := by
      rw [UInt16.toNat_ofNat']
      omega
    rw [singleton_append, decodeUtf16.eq_def]
    dsimp only
    rw [hu, if_pos (by omega), Char.ofNat_toNat]
  case isFalse h =>
    have hu : (UInt16.ofNat (0xd800 + (c.toNat - 0x10000) / 0x400)).toNat = 0xd800 + (c.toNat - 0x10000) / 0x400 := by
      rw [UInt16.toNat_ofNat']
      omega
    have hl : (UInt16.ofNat (0xdc00 + (c.toNat - 0x10000) % 0x400)).toNat = 0xdc00 + (c.toNat - 0x10000) % 0x400 := by
      rw [UInt16.toNat_ofNat']
      omega
    have hc : 0x10000 + (0xd800 + (c.toNat - 0x10000) / 0x400 - 0xd800) * 0x400 +
        (0xdc00 + (c.toNat - 0x10000) % 0x400 - 0xdc00) = c.toNat := by omega
    rw [cons_append, singleton_append, decodeUtf16.eq_def]
    dsimp only
    rw [hu, hl, if_neg (by omega), if_pos (by omega), hc, Char.ofNat_toNat]

theorem decodeUtf16_utf16 : decodeUtf16 (utf16 s) = some s := by
  induction s
  case nil         => rfl
  case cons c s hi => rw [utf16, flatMap_cons, decodeUtf16_append, ← utf16, hi, Option.map_some]

@[simp]
theorem utf8_append : utf8 (s ++ t) = utf8 s ++ utf8 t :=
  flatMap_append

@[simp]
theorem utf16_append : utf16 (s ++ t) = utf16 s ++ utf16 t :=
  flatMap_append

theorem utf8_injective (h : utf8 s = utf8 t) : s = t := by
  have he : s.utf8Encode = t.utf8Encode := congrArg List.toByteArray h
  have hd := congrArg ByteArray.utf8Decode? he
  rw [List.utf8Decode?_utf8Encode, List.utf8Decode?_utf8Encode] at hd
  simpa using hd

theorem zero_mem_utf8 : 0 ∈ utf8 s ↔ '\x00' ∈ s :=
  (plain_utf8EncodeChar (by decide)).mem_iff rfl

theorem zero_mem_utf16 : 0 ∈ utf16 s ↔ '\x00' ∈ s :=
  (plain_utf16EncodeChar (by decide)).mem_iff rfl

-- An ASCII text is found where it stands.

theorem utf8_infix_iff (h : ∀ a ∈ s, a.toNat < 128) : utf8 s <:+: utf8 t ↔ s <:+: t :=
  infix_iff (fun _ => String.utf8EncodeChar_ne_nil) fun a ha => plain_utf8EncodeChar (h a ha)

theorem utf16_infix_iff (h : ∀ a ∈ s, a.toNat < 128) : utf16 s <:+: utf16 t ↔ s <:+: t :=
  infix_iff (fun _ => utf16EncodeChar_ne_nil) fun a ha => plain_utf16EncodeChar (h a ha)

end

end Encoding

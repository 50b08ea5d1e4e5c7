import Mathlib

open List

-- Lists of records that are looked up by a key, where the same key may occur more than once.
namespace Keyed

variable {α κ : Type*} [DecidableEq κ] {key : α → κ} {k k' : κ} {l : List α} {f : α → α} {a fresh : α}

-- The first record with the given key.
def lookup (key : α → κ) (k : κ) (l : List α) : Option α :=
  l.find? (key · = k)

-- The last record with the given key.
def lookupLast (key : α → κ) (k : κ) (l : List α) : Option α :=
  lookup key k l.reverse

def occurrences (key : α → κ) (k : κ) (l : List α) : Nat :=
  l.countP (key · = k)

def modifyFirst (p : α → Bool) (f : α → α) : List α → List α
  | []     => []
  | a :: l => if p a then f a :: l else a :: modifyFirst p f l

-- Updates the first record with the given key, or prepends a fresh one if there is none.
def upsert (key : α → κ) (k : κ) (fresh : α) (f : α → α) (l : List α) : List α :=
  if (lookup key k l).isSome then modifyFirst (key · = k) f l else f fresh :: l

@[simp]
theorem lookup_nil : lookup key k [] = none := rfl

theorem lookup_cons : lookup key k (a :: l) = if key a = k then some a else lookup key k l := by
  by_cases h : key a = k <;> simp [lookup, h]

theorem lookup_append {l₁ l₂ : List α} :
    lookup key k (l₁ ++ l₂) = (lookup key k l₁).or (lookup key k l₂) := by
  simp [lookup]

theorem lookup_eq_none : lookup key k l = none ↔ ∀ a ∈ l, key a ≠ k := by
  simp [lookup]

theorem key_of_lookup (h : lookup key k l = some a) : key a = k := by
  simpa using find?_some h

theorem mem_of_lookup (h : lookup key k l = some a) : a ∈ l :=
  mem_of_find?_eq_some h

theorem lookup_map {β} {key' : β → κ} {g : α → β} (h : ∀ a, key' (g a) = key a) :
    lookup key' k (l.map g) = (lookup key k l).map g := by
  induction l
  case nil => rfl
  case cons a l hi =>
    rw [map_cons, lookup_cons, lookup_cons, h, hi]
    split <;> rfl

theorem lookupLast_cons :
    lookupLast key k (a :: l) = (lookupLast key k l).or (if key a = k then some a else none) := by
  rw [lookupLast, reverse_cons, lookup_append, lookup_cons]
  rfl

theorem lookupLast_eq_none : lookupLast key k l = none ↔ lookup key k l = none := by
  simp [lookupLast, lookup_eq_none]

theorem lookup_isSome_iff_occurrences : (lookup key k l).isSome ↔ 0 < occurrences key k l := by
  simp [lookup, occurrences, countP_pos_iff]

theorem occurrences_cons :
    occurrences key k (a :: l) = occurrences key k l + if key a = k then 1 else 0 := by
  by_cases h : key a = k <;> simp [occurrences, h]

-- Without repetitions it does not matter from which end a key is looked up.
theorem lookupLast_eq_lookup (h : occurrences key k l ≤ 1) : lookupLast key k l = lookup key k l := by
  induction l
  case nil => rfl
  case cons a l hi =>
    rw [occurrences_cons] at h
    rw [lookupLast_cons, lookup_cons]
    by_cases ha : key a = k
    case neg => simp [ha, hi (by simpa [ha] using h)]
    case pos =>
      have hn : lookup key k l = none := by
        rw [← Option.not_isSome_iff_eq_none, lookup_isSome_iff_occurrences]
        simp only [ha, ite_true] at h
        omega
      simp [ha, lookupLast_eq_none.mpr hn]

theorem occurrences_eq_count : occurrences key k l = (l.map key).count k := by
  rw [occurrences, count, countP_map]
  exact countP_congr fun a _ => by simp

theorem occurrences_le_one (h : (l.map key).Nodup) : occurrences key k l ≤ 1 := by
  rw [occurrences_eq_count]
  exact nodup_iff_count_le_one.mp h k

omit [DecidableEq κ] in
theorem map_modifyFirst (hf : ∀ a, key (f a) = key a) {p : α → Bool} :
    (modifyFirst p f l).map key = l.map key := by
  induction l
  case nil => rfl
  case cons a l hi =>
    rw [modifyFirst]
    split <;> simp [hf, hi]

-- Only the record that is found is modified.
theorem modifyFirst_const (h : lookup key k l = some a) :
    modifyFirst (key · = k) (fun _ => f a) l = modifyFirst (key · = k) f l := by
  induction l
  case nil => rfl
  case cons b l hi =>
    rw [lookup_cons] at h
    simp only [modifyFirst, decide_eq_true_eq]
    split at h
    case isTrue hb =>
      rw [if_pos hb, if_pos hb, Option.some.inj h]
    case isFalse hb =>
      rw [if_neg hb, if_neg hb, hi h]

theorem lookup_modifyFirst (hf : ∀ a, key (f a) = key a) :
    lookup key k (modifyFirst (key · = k) f l) = (lookup key k l).map f := by
  induction l
  case nil => rfl
  case cons a l hi =>
    by_cases ha : key a = k <;> simp [modifyFirst, lookup_cons, ha, hf, hi]

theorem lookup_modifyFirst_ne (hf : ∀ a, key (f a) = key a) (h : k' ≠ k) :
    lookup key k' (modifyFirst (key · = k) f l) = lookup key k' l := by
  induction l
  case nil => rfl
  case cons a l hi =>
    by_cases ha : key a = k
    case pos => simp [modifyFirst, lookup_cons, ha, hf, h.symm]
    case neg => simp [modifyFirst, lookup_cons, ha, hi]

theorem lookupLast_modifyFirst (hf : ∀ a, key (f a) = key a) :
    lookupLast key k (modifyFirst (key · = k) f l) =
      if 1 < occurrences key k l then lookupLast key k l else (lookup key k l).map f := by
  split
  case isFalse h =>
    have ho : occurrences key k (modifyFirst (key · = k) f l) = occurrences key k l := by
      rw [occurrences_eq_count, occurrences_eq_count, map_modifyFirst hf]
    rw [lookupLast_eq_lookup (by omega), lookup_modifyFirst hf]
  case isTrue h =>
    induction l
    case nil => rfl
    case cons a l hi =>
      rw [occurrences_cons] at h
      by_cases ha : key a = k
      case neg => simp [modifyFirst, lookupLast_cons, ha, hi (by simpa [ha] using h)]
      case pos =>
        -- Another record with the key follows, so the modified one is not the last.
        have hs : (lookup key k l).isSome := by
          rw [lookup_isSome_iff_occurrences]
          simp only [ha, ite_true] at h
          omega
        have hl : lookupLast key k l ≠ none := by
          rw [ne_eq, lookupLast_eq_none]
          exact Option.isSome_iff_ne_none.mp hs
        have ⟨b, hb⟩ := Option.ne_none_iff_exists'.mp hl
        simp [modifyFirst, lookupLast_cons, ha, hb]

theorem lookupLast_modifyFirst_ne (hf : ∀ a, key (f a) = key a) (h : k' ≠ k) :
    lookupLast key k' (modifyFirst (key · = k) f l) = lookupLast key k' l := by
  induction l
  case nil => rfl
  case cons a l hi =>
    by_cases ha : key a = k
    case pos => simp [modifyFirst, lookupLast_cons, ha, hf, h.symm]
    case neg => simp [modifyFirst, lookupLast_cons, ha, hi]

theorem modifyFirst_perm (h : lookup key k l = some a) :
    (modifyFirst (key · = k) f l).Perm (f a :: l.eraseP (key · = k)) := by
  induction l
  case nil => simp at h
  case cons b l hi =>
    rw [lookup_cons] at h
    by_cases hb : key b = k
    case pos => simp_all [modifyFirst]
    case neg =>
      simp only [hb, ite_false] at h
      simp only [modifyFirst, hb, decide_false, eraseP_cons_of_neg, not_false_eq_true,
        Bool.false_eq_true, ite_false]
      exact (hi h).cons b |>.trans (.swap ..)

theorem lookup_perm (h : lookup key k l = some a) : l.Perm (a :: l.eraseP (key · = k)) := by
  induction l
  case nil => simp at h
  case cons b l hi =>
    rw [lookup_cons] at h
    by_cases hb : key b = k
    case pos => simp_all
    case neg =>
      simp only [hb, ite_false] at h
      simp only [hb, decide_false, eraseP_cons_of_neg, not_false_eq_true, Bool.false_eq_true]
      exact (hi h).cons b |>.trans (.swap ..)

theorem mem_modifyFirst {p : α → Bool} (h : a ∈ modifyFirst p f l) : a ∈ l ∨ ∃ b ∈ l, a = f b := by
  induction l
  case nil => simp [modifyFirst] at h
  case cons b l hi =>
    rw [modifyFirst] at h
    split at h
    case isTrue =>
      cases mem_cons.mp h
      case inl h => exact .inr ⟨b, mem_cons_self, h⟩
      case inr h => exact .inl (mem_cons_of_mem _ h)
    case isFalse =>
      cases mem_cons.mp h
      case inl h => exact .inl (h ▸ mem_cons_self)
      case inr h =>
        cases hi h
        case inl h => exact .inl (mem_cons_of_mem _ h)
        case inr h =>
          have ⟨c, hc, h⟩ := h
          exact .inr ⟨c, mem_cons_of_mem _ hc, h⟩

section Erase

theorem lookup_erase_ne (h : k' ≠ k) : lookup key k' (l.eraseP (key · = k)) = lookup key k' l := by
  induction l
  case nil => rfl
  case cons a l hi =>
    by_cases ha : key a = k
    case pos => simp [eraseP_cons_of_pos, lookup_cons, ha, h.symm]
    case neg => simp [lookup_cons, ha, hi]

omit [DecidableEq κ] in
theorem nodup_erase {p : α → Bool} (h : (l.map key).Nodup) : ((l.eraseP p).map key).Nodup :=
  h.sublist (eraseP_sublist.map key)

-- Without repetitions, the record that is erased is the only one with its key.
theorem lookup_erase (h : (l.map key).Nodup) : lookup key k (l.eraseP (key · = k)) = none := by
  induction l
  case nil => rfl
  case cons a l hi =>
    rw [map_cons, nodup_cons] at h
    by_cases ha : key a = k
    case neg => simp [lookup_cons, ha, hi h.right]
    case pos =>
      rw [eraseP_cons_of_pos (by simpa using ha), lookup_eq_none]
      exact fun b hb hk => h.left <| mem_map.mpr ⟨b, hb, hk.trans ha.symm⟩

end Erase

-- Updating a record is replacing it, if the order does not matter.
theorem upsert_perm :
    (upsert key k fresh f l).Perm (f ((lookup key k l).getD fresh) :: l.eraseP (key · = k)) := by
  rw [upsert]
  split
  case isTrue h =>
    have ⟨a, ha⟩ := Option.isSome_iff_exists.mp h
    simpa [ha] using modifyFirst_perm ha
  case isFalse h =>
    rw [Option.not_isSome_iff_eq_none] at h
    have hn : ∀ a ∈ l, ¬(decide (key a = k)) = true := by simpa using lookup_eq_none.mp h
    simp [h, eraseP_of_forall_not hn]

section Upsert

variable (hf : ∀ a, key (f a) = key a) (hk : key fresh = k)

include hf hk

theorem lookup_upsert :
    lookup key k (upsert key k fresh f l) = f ((lookup key k l).getD fresh) := by
  rw [upsert]
  split
  case isTrue h =>
    have ⟨a, ha⟩ := Option.isSome_iff_exists.mp h
    simp [lookup_modifyFirst hf, ha]
  case isFalse h => simp [lookup_cons, hf, hk, Option.not_isSome_iff_eq_none.mp h]

theorem lookup_upsert_ne (h : k' ≠ k) :
    lookup key k' (upsert key k fresh f l) = lookup key k' l := by
  rw [upsert]
  split
  · exact lookup_modifyFirst_ne hf h
  · simp [lookup_cons, hf, hk, h.symm]

theorem lookupLast_upsert :
    lookupLast key k (upsert key k fresh f l) =
      if 1 < occurrences key k l then lookupLast key k l
      else some (f ((lookup key k l).getD fresh)) := by
  rw [upsert]
  split
  case isTrue h =>
    have ⟨a, ha⟩ := Option.isSome_iff_exists.mp h
    simp [lookupLast_modifyFirst hf, ha]
  case isFalse h =>
    have ho : ¬1 < occurrences key k l := by
      rw [lookup_isSome_iff_occurrences] at h
      omega
    rw [Option.not_isSome_iff_eq_none] at h
    simp [lookupLast_cons, lookupLast_eq_none.mpr h, hf, hk, ho, h]

theorem lookupLast_upsert_ne (h : k' ≠ k) :
    lookupLast key k' (upsert key k fresh f l) = lookupLast key k' l := by
  rw [upsert]
  split
  · exact lookupLast_modifyFirst_ne hf h
  · simp [lookupLast_cons, hf, hk, h.symm]

theorem nodup_upsert (h : (l.map key).Nodup) : ((upsert key k fresh f l).map key).Nodup := by
  rw [upsert]
  split
  case isTrue  => rwa [map_modifyFirst hf]
  case isFalse hn =>
    rw [Option.not_isSome_iff_eq_none, lookup_eq_none] at hn
    rw [map_cons, nodup_cons, hf, hk]
    exact ⟨by simpa using hn, h⟩

end Upsert

end Keyed

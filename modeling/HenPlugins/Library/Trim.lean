import Mathlib

open List

namespace Trim

variable {α : Type*} {p : α → Bool} {l l₁ l₂ : List α} {a : α}

-- Drops the maximal prefix and the maximal suffix of elements satisfying `p`.
def trim (p : α → Bool) (l : List α) : List α :=
  (l.dropWhile p).rdropWhile p

-- A list is trimmed if neither its first nor its last element satisfies `p`.
def Trimmed (p : α → Bool) (l : List α) : Prop :=
  trim p l = l

instance [DecidableEq α] : Decidable (Trimmed p l) :=
  inferInstanceAs (Decidable (_ = _))

@[simp]
theorem trim_nil : trim p [] = [] := by
  simp [trim]

theorem Trimmed.nil : Trimmed p [] :=
  trim_nil

theorem trim_sublist : (trim p l).Sublist l :=
  ( rdropWhile_prefix p _).sublist.trans (dropWhile_sublist p)

theorem mem_of_mem_trim (h : a ∈ trim p l) : a ∈ l :=
  trim_sublist.mem h

theorem length_trim_le : (trim p l).length ≤ l.length :=
  trim_sublist.length_le

theorem trim_cons_of_pos (h : p a) : trim p (a :: l) = trim p l := by
  simp [trim, h]

theorem rdropWhile_append_of_all (h : ∀ a ∈ l₂, p a) :
    (l₁ ++ l₂).rdropWhile p = l₁.rdropWhile p := by
  induction l₂ using List.reverseRecOn generalizing l₁
  case nil => simp
  case append_singleton l₂ a hi =>
    have ha : p a := h a (by simp)
    rw [← append_assoc, rdropWhile_concat_pos p _ _ ha]
    exact hi fun b hb => h b (by simp [hb])

theorem trim_append_of_all (h : ∀ a ∈ l₂, p a) : trim p (l₁ ++ l₂) = trim p l₁ := by
  rw [trim, dropWhile_append]
  split
  case isTrue hd =>
    rw [List.isEmpty_iff] at hd
    simp [trim, hd, dropWhile_eq_nil_iff.mpr h]
  case isFalse => exact rdropWhile_append_of_all h

theorem trim_cons_of_neg (h : ¬p a) : trim p (a :: l) = a :: l.rdropWhile p := by
  have hd : (a :: l).dropWhile p = a :: l := by simp [h]
  rw [trim, hd]
  induction l using List.reverseRecOn
  case nil => simp [rdropWhile_singleton, h]
  case append_singleton l b hi =>
    rw [← cons_append, rdropWhile_concat, rdropWhile_concat]
    split <;> simp_all

theorem rdropWhile_prefix_append : l₁.rdropWhile p <+: (l₁ ++ l₂).rdropWhile p := by
  induction l₂ using List.reverseRecOn
  case nil => rw [append_nil]
  case append_singleton l₂ a hi =>
    rw [← append_assoc, rdropWhile_concat]
    split
    case isTrue  => exact hi
    case isFalse =>
      rw [append_assoc]
      exact ( rdropWhile_prefix p l₁).trans (prefix_append ..)

-- What is trimmed off the beginning of a list is trimmed off the whole list.
theorem trim_prefix (h : l₁ <+: l₂) : trim p l₁ <+: trim p l₂ := by
  obtain ⟨l, rfl⟩ := h
  rw [trim, trim, dropWhile_append]
  split
  case isTrue h =>
    rw [isEmpty_iff.mp h]
    exact nil_prefix
  case isFalse => exact rdropWhile_prefix_append

theorem trim_rdropWhile : trim p (l.rdropWhile p) = trim p l := by
  have h := rdropWhile_append_rtakeWhile (p := p) (l := l)
  conv_rhs => rw [← h]
  exact trim_append_of_all (fun _ => mem_rtakeWhile_imp) |>.symm

theorem trimmed_trim : Trimmed p (trim p l) := by
  have hd : trim p (l.dropWhile p) = trim p l := congrArg (rdropWhile p) (dropWhile_idempotent p l)
  exact trim_rdropWhile.trans hd

theorem trimmed_of_ends (hh : ∀ a ∈ l.head?, ¬p a) (hl : ∀ a ∈ l.getLast?, ¬p a) :
    Trimmed p l := by
  have hd : l.dropWhile p = l := by
    cases l
    case nil       => rfl
    case cons a l' => simp [hh a rfl]
  rw [Trimmed, trim, hd, rdropWhile_eq_self_iff]
  exact fun hn => hl _ (getLast?_eq_some_getLast hn)

theorem Trimmed.head_neg (ht : Trimmed p (a :: l)) : ¬p a := by
  intro ha
  have := length_trim_le (p := p) (l := l)
  have := congrArg length (trim_cons_of_pos ha |>.symm.trans ht)
  simp only [length_cons] at this
  omega

theorem Trimmed.head?_neg (ht : Trimmed p l) : ∀ a ∈ l.head?, ¬p a := by
  cases l
  case nil      => simp
  case cons b l =>
    rintro _ ⟨⟩
    exact ht.head_neg

theorem head?_trim_neg : ∀ a ∈ (trim p l).head?, ¬p a := by
  intro a ha
  have hd : (l.dropWhile p).head? = some a := by
    have ⟨t, ht⟩ := rdropWhile_prefix p (l.dropWhile p)
    rw [← ht, head?_append, ← trim, Option.mem_def.mp ha, Option.some_or]
  have hn := head?_dropWhile_not p l
  rw [hd] at hn
  simpa using hn

-- What is trimmed off.
theorem takeWhile_append_trim : ∃ t, (∀ a ∈ t, p a) ∧ l = l.takeWhile p ++ (trim p l ++ t) := by
  refine ⟨(l.dropWhile p).rtakeWhile p, fun _ => mem_rtakeWhile_imp, ?_⟩
  rw [trim, rdropWhile_append_rtakeWhile, takeWhile_append_dropWhile]

-- What does not satisfy `p` is not trimmed off.
theorem length_trim_lt (h : ¬p a) : (trim p l₂).length < (trim p (l₁ ++ a :: l₂)).length := by
  have hr (l : List α) : (trim p l).length ≤ (l.rdropWhile p).length :=
    trim_rdropWhile (p := p) (l := l) ▸ length_trim_le
  induction l₁
  case nil =>
    rw [nil_append, trim_cons_of_neg h, length_cons]
    exact Nat.lt_succ_of_le (hr l₂)
  case cons b l₁ hi =>
    rw [cons_append]
    by_cases hb : p b
    case pos =>
      rw [trim_cons_of_pos hb]
      exact hi
    case neg =>
      rw [trim_cons_of_neg hb, length_cons]
      exact (hi.trans_le (hr _)).trans (Nat.lt_succ_self _)

theorem all_of_trim_eq_nil (h : trim p l = []) : ∀ a ∈ l, p a := by
  have ⟨t, ht, he⟩ := takeWhile_append_trim (p := p) (l := l)
  rw [h, nil_append] at he
  intro a ha
  rw [he, mem_append] at ha
  exact ha.elim (fun ha => mem_takeWhile_imp ha) (ht a)

theorem trim_concat_of_neg (h : ¬p a) : trim p (l ++ [a]) = l.dropWhile p ++ [a] := by
  have hd : (l ++ [a]).dropWhile p = l.dropWhile p ++ [a] := by
    rw [dropWhile_append]
    split
    case isTrue he  => simp [isEmpty_iff.mp he, h]
    case isFalse he => rfl
  rw [trim, hd, rdropWhile_concat_neg p _ _ h]

-- A trimmed list survives any padding on either side.
theorem Trimmed.trim_append (ht : Trimmed p l) (h : ∀ a ∈ l₂, p a) : trim p (l ++ l₂) = l :=
  (trim_append_of_all h).trans ht

theorem Trimmed.trim_cons_append (ht : Trimmed p l) (ha : p a) (h : ∀ a ∈ l₂, p a) :
    trim p (a :: (l ++ l₂)) = l :=
  (trim_cons_of_pos ha).trans (ht.trim_append h)

end Trim

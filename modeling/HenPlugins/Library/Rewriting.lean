import Mathlib

open List

namespace Rewriting

variable {α : Type*}

-- What is put in place of the beginning of a list, and what is left of the list. There has to be room for
-- `room` elements.
structure Replacement (α : Type*) where
  new  : List α
  room : Nat
  rest : List α
  fits : new.length ≤ room

structure Rule (α : Type*) where
  apply   : List α → Option (Replacement α)
  shorter : ∀ {s r}, apply s = some r → r.rest.length < s.length

inductive Piece (α : Type*)
  | kept (a : α)
  | new (r : Replacement α)

def Piece.text : Piece α → List α
  | kept a => [a]
  | new r  => r.new

namespace Rule

variable (rule : Rule α) {s : List α} {a : α} {r : Replacement α}

-- The rule is applied wherever it can be, from left to right, and never to what it has put in.
def pieces (s : List α) : List (Piece α) :=
  match _h : rule.apply s with
  | some r => .new r :: pieces r.rest
  | none   =>
    match s with
    | []     => []
    | a :: s => .kept a :: pieces s
termination_by s.length
decreasing_by
  · exact rule.shorter ‹_›
  · exact Nat.lt_succ_self _

def rewrite (s : List α) : List α :=
  (rule.pieces s).flatMap Piece.text

theorem apply_nil : rule.apply [] = none := by
  rw [Option.eq_none_iff_forall_ne_some]
  intro r h
  exact Nat.not_lt_zero _ (rule.shorter h)

variable {rule}

@[simp]
theorem pieces_nil : rule.pieces [] = [] := by
  rw [pieces]
  split
  case h_1 h => simp [apply_nil] at h
  case h_2   => rfl

theorem pieces_of_some (h : rule.apply s = some r) : rule.pieces s = .new r :: rule.pieces r.rest := by
  rw [pieces]
  split
  case h_1 h' => rw [h] at h'; cases h'; rfl
  case h_2 h' => simp [h] at h'

theorem pieces_of_none (h : rule.apply (a :: s) = none) : rule.pieces (a :: s) = .kept a :: rule.pieces s := by
  rw [pieces]
  split
  case h_1 h' => simp [h] at h'
  case h_2    => rfl

@[simp]
theorem rewrite_nil : rule.rewrite [] = [] := by
  simp [rewrite]

theorem rewrite_of_some (h : rule.apply s = some r) : rule.rewrite s = r.new ++ rule.rewrite r.rest := by
  simp [rewrite, pieces_of_some h, Piece.text]

theorem rewrite_of_none (h : rule.apply (a :: s) = none) : rule.rewrite (a :: s) = a :: rule.rewrite s := by
  simp [rewrite, pieces_of_none h, Piece.text]

-- Induction over the places at which a rule looks at a list.
@[elab_as_elim]
theorem induction (rule : Rule α) {motive : List α → Prop} (s : List α) (nil : motive [])
    (new : ∀ s r, rule.apply s = some r → motive r.rest → motive s)
    (kept : ∀ a s, rule.apply (a :: s) = none → motive s → motive (a :: s)) : motive s := by
  induction h : s.length using Nat.strong_induction_on generalizing s
  case _ n hi =>
    subst h
    cases hr : rule.apply s
    case some r => exact new s r hr (hi _ (rule.shorter hr) _ rfl)
    case none =>
      cases s
      case nil      => exact nil
      case cons a s => exact kept a s hr (hi _ (by simp) _ rfl)

-- Every replacement is one that the rule makes somewhere.
theorem exists_of_new_mem (h : .new r ∈ rule.pieces s) : ∃ s, rule.apply s = some r := by
  induction s using rule.induction
  case nil => simp at h
  case new s r' hr hi =>
    rw [pieces_of_some hr, mem_cons, Piece.new.injEq] at h
    obtain rfl | h := h
    · exact ⟨s, hr⟩
    · exact hi h
  case kept a s hr hi =>
    rw [pieces_of_none hr] at h
    exact hi (by simpa using h)

-- All that is put out comes from the list or from a replacement.
theorem forall_mem_rewrite {p : α → Prop} (hr : ∀ s r, rule.apply s = some r → (∀ a ∈ r.new, p a) ∧ r.rest ⊆ s)
    (hs : ∀ a ∈ s, p a) : ∀ a ∈ rule.rewrite s, p a := by
  induction s using rule.induction
  case nil => simp
  case new s r h hi =>
    have ⟨hn, hr⟩ := hr s r h
    rw [rewrite_of_some h, forall_mem_append]
    exact ⟨hn, hi fun a ha => hs a (hr ha)⟩
  case kept a s h hi =>
    rw [forall_mem_cons] at hs
    rw [rewrite_of_none h, forall_mem_cons]
    exact ⟨hs.left, hi hs.right⟩

end Rule

-- What is put out of the pieces if there is room for `limit` elements, of which `n` are in use. It ends before
-- the first piece that there is not enough room for, and a replacement may not use up all of the room.
def cut (limit : Nat) : Nat → List (Piece α) → List α
  | _, []           => []
  | n, .kept a :: l => if n < limit then a :: cut limit (n + 1) l else []
  | n, .new r :: l  => if n + r.room < limit then r.new ++ cut limit (n + r.new.length) l else []

section

variable {limit n k : Nat} {l : List (Piece α)}

theorem cut_prefix : cut limit n l <+: l.flatMap Piece.text := by
  induction l generalizing n
  case nil => simp [cut]
  case cons p l hi =>
    cases p
    all_goals
      rw [cut]
      split
      case isFalse => exact nil_prefix
      case isTrue  => simpa [Piece.text] using hi

theorem length_cut_le (h : n ≤ limit) : n + (cut limit n l).length ≤ limit := by
  induction l generalizing n
  case nil => simpa [cut] using h
  case cons p l hi =>
    cases p
    case kept a =>
      rw [cut]
      split
      case isFalse => simpa using h
      case isTrue hn =>
        have := hi (n := n + 1) hn
        simp only [length_cons]
        omega
    case new r =>
      rw [cut]
      split
      case isFalse => simpa using h
      case isTrue hn =>
        have := hi (n := n + r.new.length) (by have := r.fits; omega)
        simp only [length_append]
        omega

-- Nothing is cut off if there is room for `k` more elements than needed, and no replacement asks for more than
-- that.
theorem cut_eq_self (hk : ∀ r, .new r ∈ l → r.room ≤ r.new.length + k)
    (h : n + (l.flatMap Piece.text).length + k < limit) : cut limit n l = l.flatMap Piece.text := by
  induction l generalizing n
  case nil => rfl
  case cons p l hi =>
    have hk' := fun r hr => hk r (mem_cons_of_mem _ hr)
    cases p
    case kept a =>
      simp only [flatMap_cons, Piece.text, singleton_append, length_cons] at h ⊢
      rw [cut, if_pos (by omega), hi hk' (by omega)]
    case new r =>
      have hr := hk r mem_cons_self
      simp only [flatMap_cons, Piece.text, length_append] at h ⊢
      rw [cut, if_pos (by omega), hi hk' (by omega)]

-- What is put out fills the room unless it ends with the last piece or stops before a replacement.
theorem cut_cases (h : n + (cut limit n l).length < limit) : cut limit n l = l.flatMap Piece.text ∨
    ∃ l₁ r l₂, l = l₁ ++ .new r :: l₂ ∧ cut limit n l = l₁.flatMap Piece.text := by
  induction l generalizing n
  case nil => exact .inl rfl
  case cons p l hi =>
    cases p
    case kept a =>
      rw [cut] at h ⊢
      split
      case isFalse hn => simp [hn] at h
      case isTrue hn =>
        rw [if_pos hn, length_cons] at h
        obtain hc | ⟨l₁, r, l₂, hl, hc⟩ := hi (n := n + 1) (by omega)
        · exact .inl (by simp [hc, Piece.text])
        · exact .inr ⟨.kept a :: l₁, r, l₂, by simp [hl], by simp [hc, Piece.text]⟩
    case new r =>
      rw [cut] at h ⊢
      split
      case isFalse hn => exact .inr ⟨[], r, l, rfl, rfl⟩
      case isTrue hn =>
        rw [if_pos hn, length_append] at h
        obtain hc | ⟨l₁, r', l₂, hl, hc⟩ := hi (n := n + r.new.length) (by omega)
        · exact .inl (by simp [hc, Piece.text])
        · exact .inr ⟨.new r :: l₁, r', l₂, by simp [hl], by simp [hc, Piece.text]⟩

end

namespace Rule

variable {rule : Rule α} {limit k : Nat} {s : List α}

-- As much of the rewritten list as there is room for.
def fit (rule : Rule α) (limit : Nat) (s : List α) : List α :=
  cut limit 0 (rule.pieces s)

theorem fit_prefix : rule.fit limit s <+: rule.rewrite s :=
  cut_prefix

theorem length_fit_le : (rule.fit limit s).length ≤ limit := by
  have := length_cut_le (l := rule.pieces s) (Nat.zero_le limit)
  rwa [Nat.zero_add] at this

theorem fit_eq_rewrite (hk : ∀ s r, rule.apply s = some r → r.room ≤ r.new.length + k)
    (h : (rule.rewrite s).length + k < limit) : rule.fit limit s = rule.rewrite s := by
  apply cut_eq_self (k := k)
  · intro r hr
    have ⟨_, hr⟩ := exists_of_new_mem hr
    exact hk _ r hr
  · rwa [Nat.zero_add]

theorem fit_cases (h : (rule.fit limit s).length < limit) : rule.fit limit s = rule.rewrite s ∨
    ∃ l₁ r l₂, rule.pieces s = l₁ ++ .new r :: l₂ ∧ rule.fit limit s = l₁.flatMap Piece.text :=
  cut_cases (by rwa [Nat.zero_add])

end Rule

section Replacing

variable [DecidableEq α] {search new s t : List α} {h : search ≠ []} {a : α}

-- The rule for `search` to be replaced by `new`.

def replaceAt (search new s : List α) : Option (Replacement α) :=
  if search.isPrefixOf s then
    some { new := new, room := new.length, rest := s.drop search.length, fits := le_rfl }
  else none

theorem replaceAt_eq_some {r : Replacement α} : replaceAt search new s = some r ↔ search.isPrefixOf s ∧
    r = { new := new, room := new.length, rest := s.drop search.length, fits := le_rfl } := by
  rw [replaceAt]
  split
  case isFalse hp => simp [hp]
  case isTrue hp  => simp [hp, eq_comm]

theorem replaceAt_shorter {r : Replacement α} (h : search ≠ []) (hr : replaceAt search new s = some r) :
    r.rest.length < s.length := by
  have ⟨hp, hr⟩ := replaceAt_eq_some.mp hr
  have hl := IsPrefix.length_le <| isPrefixOf_iff_prefix.mp hp
  have := length_pos_iff.mpr h
  rw [hr, length_drop]
  omega

def replacing (search new : List α) (h : search ≠ []) : Rule α :=
  ⟨replaceAt search new, replaceAt_shorter h⟩

theorem replaceAt_append :
    replaceAt search new (search ++ s) = some { new := new, room := new.length, rest := s, fits := le_rfl } := by
  simp [replaceAt]

theorem replaceAt_eq_none_iff : replaceAt search new s = none ↔ ¬search.isPrefixOf s := by
  rw [Option.eq_none_iff_forall_ne_some]
  simp [replaceAt_eq_some]

theorem replaceAt_eq_none (hs : ¬search <+: s) : replaceAt search new s = none :=
  replaceAt_eq_none_iff.mpr fun hp => hs <| isPrefixOf_iff_prefix.mp hp

theorem pieces_append : (replacing search new h).pieces (search ++ s) =
    .new { new := new, room := new.length, rest := s, fits := le_rfl } :: (replacing search new h).pieces s :=
  Rule.pieces_of_some replaceAt_append

theorem pieces_cons (hs : ¬search <+: a :: s) :
    (replacing search new h).pieces (a :: s) = .kept a :: (replacing search new h).pieces s :=
  Rule.pieces_of_none (replaceAt_eq_none hs)

theorem rewrite_append : (replacing search new h).rewrite (search ++ s) = new ++ (replacing search new h).rewrite s := by
  rw [Rule.rewrite, pieces_append]
  rfl

theorem rewrite_cons (hs : ¬search <+: a :: s) :
    (replacing search new h).rewrite (a :: s) = a :: (replacing search new h).rewrite s :=
  Rule.rewrite_of_none (replaceAt_eq_none hs)

-- A list starts with an occurrence of `search` or with an element that is kept.
@[elab_as_elim]
theorem replacing_induction (h : search ≠ []) {motive : List α → Prop} (s : List α) (nil : motive [])
    (found : ∀ s, motive s → motive (search ++ s))
    (kept : ∀ a s, ¬search <+: a :: s → motive s → motive (a :: s)) : motive s := by
  induction s using (replacing search [] h).induction
  case nil => exact nil
  case new s r hr hi =>
    have ⟨hp, hr⟩ := replaceAt_eq_some.mp hr
    obtain ⟨s, rfl⟩ := isPrefixOf_iff_prefix.mp hp
    rw [hr, drop_left' rfl] at hi
    exact found s hi
  case kept a s hr hi =>
    have hp := mt isPrefixOf_iff_prefix.mpr <| replaceAt_eq_none_iff.mp hr
    exact kept a s hp hi

theorem length_le_rewrite (hl : search.length ≤ new.length) :
    s.length ≤ ((replacing search new h).rewrite s).length := by
  induction s using replacing_induction h
  case nil => simp
  case found s hi =>
    rw [rewrite_append, length_append, length_append]
    omega
  case kept a s hs hi =>
    rw [rewrite_cons hs]
    simpa using hi

theorem length_le_of_new_mem {r : Replacement α} (hr : .new r ∈ (replacing search new h).pieces s) :
    search.length ≤ s.length := by
  induction s using replacing_induction h
  case nil => simp at hr
  case found s _ => simp
  case kept a s hs hi =>
    rw [pieces_cons hs] at hr
    have := hi (by simpa using hr)
    simp only [length_cons]
    omega

-- Nothing that comes later has an effect on what is put out before a replacement.
theorem prefix_rewrite_append {l₁ l₂ : List (Piece α)} {r : Replacement α}
    (hp : (replacing search new h).pieces s = l₁ ++ .new r :: l₂) :
    l₁.flatMap Piece.text <+: (replacing search new h).rewrite (s ++ t) := by
  induction s using replacing_induction h generalizing l₁
  case nil => simp at hp
  case found s hi =>
    rw [pieces_append] at hp
    cases l₁
    case nil => exact nil_prefix
    case cons p l₁ =>
      have ⟨hr, hp⟩ := cons.inj hp
      rw [append_assoc, rewrite_append, ← hr]
      exact (prefix_append_right_inj _).mpr (hi hp)
  case kept a s hs hi =>
    have hl : search.length ≤ (a :: s).length := by
      apply @length_le_of_new_mem _ _ _ new _ h r
      simp [hp]
    have hs' : ¬search <+: a :: (s ++ t) := fun h => hs (prefix_of_prefix_length_le h (prefix_append (a :: s) t) hl)
    rw [pieces_cons hs] at hp
    cases l₁
    case nil => exact nil_prefix
    case cons p l₁ =>
      have ⟨hr, hp⟩ := cons.inj hp
      rw [cons_append, rewrite_cons hs', ← hr]
      exact cons_prefix_cons.mpr ⟨rfl, hi hp⟩

-- An element that does not occur in `search` separates what comes before it from what comes after it.

omit [DecidableEq α] in
theorem prefix_append_cons_iff (ha : a ∉ search) : search <+: s ++ a :: t ↔ search <+: s := by
  constructor
  case mpr => exact fun h => h.trans (prefix_append ..)
  case mp =>
    intro ⟨u, hu⟩
    obtain ⟨v, hs, _⟩ | ⟨v, hs, hv⟩ := append_eq_append_iff.mp hu
    · exact ⟨v, hs.symm⟩
    · cases v
      case nil      => exact ⟨[], by simp [hs]⟩
      case cons b v => exact absurd (by simp [hs, (cons.inj hv).left]) ha

theorem rewrite_append_cons (ha : a ∉ search) : (replacing search new h).rewrite (s ++ a :: t) =
    (replacing search new h).rewrite s ++ (replacing search new h).rewrite (a :: t) := by
  induction s using replacing_induction h
  case nil => simp
  case found s hi => rw [append_assoc, rewrite_append, rewrite_append, hi, append_assoc]
  case kept b s hs hi =>
    have hs' : ¬search <+: b :: s ++ a :: t := by rwa [prefix_append_cons_iff ha]
    rw [cons_append] at hs' ⊢
    rw [rewrite_cons hs, rewrite_cons hs', hi, cons_append]

theorem new_of_mem {r : Replacement α} (hr : .new r ∈ (replacing search new h).pieces s) : r.new = new := by
  have ⟨_, hr⟩ := Rule.exists_of_new_mem hr
  exact (replaceAt_eq_some.mp hr).right ▸ rfl

theorem rewrite_eq_self (hs : ¬search <:+: s) : (replacing search new h).rewrite s = s := by
  induction s
  case nil => exact Rule.rewrite_nil
  case cons a s hi =>
    rw [infix_cons_iff, not_or] at hs
    rw [rewrite_cons hs.left, hi hs.right]

theorem fit_eq_self {limit : Nat} (hs : ¬search <:+: s) (hl : s.length < limit) :
    (replacing search new h).fit limit s = s := by
  have hk : ∀ s r, (replacing search new h).apply s = some r → r.room ≤ r.new.length + 0 :=
    fun s r hr => (replaceAt_eq_some.mp hr).right ▸ le_rfl
  rw [Rule.fit_eq_rewrite hk (by rwa [rewrite_eq_self hs]), rewrite_eq_self hs]

section Twice

variable {search' new' : List α} {h' : search' ≠ []} {limit : Nat}

-- A list that is cut off before a replacement is not cut off within an occurrence of something else.
theorem rewrite_fit_prefix (ha : a ∉ search') (hc : ((replacing search (a :: new) h).fit limit s).length < limit) :
    (replacing search' new' h').rewrite ((replacing search (a :: new) h).fit limit s) <+:
      (replacing search' new' h').rewrite ((replacing search (a :: new) h).rewrite s) := by
  obtain hs | ⟨l₁, r, l₂, hp, hs⟩ := Rule.fit_cases hc
  case inl => rw [hs]
  case inr =>
    have hr : r.new = a :: new := new_of_mem (s := s) (h := h) (by simp [hp])
    have hw : (replacing search (a :: new) h).rewrite s =
        l₁.flatMap Piece.text ++ a :: (new ++ l₂.flatMap Piece.text) := by
      simp [Rule.rewrite, hp, Piece.text, hr]
    rw [hs, hw, rewrite_append_cons ha]
    exact prefix_append ..

-- What is put out is rewritten once more, and there is only so much room both times.
theorem fit_fit_prefix (hl : search'.length ≤ new'.length) (ha : a ∉ search') (hc : ((replacing search' new' h').fit
      limit ((replacing search (a :: new) h).fit limit s)).length < limit) :
    (replacing search' new' h').fit limit ((replacing search (a :: new) h).fit limit s) <+:
      (replacing search' new' h').rewrite ((replacing search (a :: new) h).rewrite s) := by
  obtain hs | ⟨l₁, r, l₂, hp, hs⟩ := Rule.fit_cases hc
  case inl =>
    rw [hs] at hc ⊢
    exact rewrite_fit_prefix ha ((length_le_rewrite hl).trans_lt hc)
  case inr =>
    have ⟨t, ht⟩ : (replacing search (a :: new) h).fit limit s <+: _ := Rule.fit_prefix
    rw [hs, ← ht]
    exact prefix_rewrite_append hp

end Twice
end Replacing

section Intercalate

variable {sep : α} {f g : List α → List α} {ls : List (List α)}

theorem length_intercalate_le (hl : ∀ l, (g l).length ≤ (f l).length) :
    ([sep].intercalate (ls.map g)).length ≤ ([sep].intercalate (ls.map f)).length := by
  induction ls
  case nil => simp
  case cons l ls hi =>
    cases ls
    case nil => simpa using hl l
    case cons l' ls =>
      have := hl l
      simp only [map_cons, intercalate_cons_cons, length_append] at hi ⊢
      omega

theorem length_intercalate_le_add {k : Nat} (hl : ∀ l, (f l).length ≤ l.length + k) :
    ([sep].intercalate (ls.map f)).length ≤ ([sep].intercalate ls).length + ls.length * k := by
  induction ls
  case nil => simp
  case cons l ls hi =>
    have := hl l
    cases ls
    case nil => simpa using this
    case cons l' ls =>
      simp only [map_cons, intercalate_cons_cons, length_append, length_cons, Nat.add_mul] at hi ⊢
      omega

theorem intercalate_eq_iff (hl : ∀ l, (g l).length ≤ (f l).length) :
    [sep].intercalate (ls.map f) = [sep].intercalate (ls.map g) ↔ ∀ l ∈ ls, f l = g l := by
  constructor
  case mpr => exact fun h => congrArg _ (map_congr_left h)
  case mp =>
    intro h
    induction ls
    case nil => simp
    case cons l ls hi =>
      cases ls
      case nil => simpa using h
      case cons l' ls =>
        have h₁ := hl l
        have h₂ := @length_intercalate_le _ sep _ _ (l' :: ls) hl
        have h₃ := congrArg length h
        simp only [map_cons, intercalate_cons_cons, append_assoc, length_append] at h h₂ h₃ hi
        have ⟨he, h⟩ := append_inj h (by omega)
        exact forall_mem_cons.mpr ⟨he, hi (append_cancel_left h)⟩

end Intercalate

section Lines

variable [DecidableEq α] {sep a : α} {search new s t : List α} {h : search ≠ []}

theorem dropWhile_line (hs : sep ∉ s) : s.dropWhile (· ≠ sep) = [] ∧
    (s ++ sep :: t).dropWhile (· ≠ sep) = sep :: t := by
  have hs' : ∀ b ∈ s, decide (b ≠ sep) = true := fun b hb => decide_eq_true fun he => hs (he ▸ hb)
  rw [dropWhile_append_of_pos hs', dropWhile_eq_nil_iff]
  exact ⟨hs', dropWhile_cons_of_neg (by simp)⟩

-- The rule for everything from `search` to the end of its line to be replaced by `new`. There has to be room
-- for a separator, even if none follows.

def replaceRestAt (sep : α) (search new s : List α) : Option (Replacement α) :=
  if search.isPrefixOf s then
    match s.dropWhile (· ≠ sep) with
    | []     => some { new := new, room := new.length + 1, rest := [], fits := Nat.le_add_right .. }
    | _ :: s => some { new := new ++ [sep], room := new.length + 1, rest := s, fits := length_append.le }
  else none

theorem replaceRestAt_shorter {r : Replacement α} (h : search ≠ []) (hr : replaceRestAt sep search new s = some r) :
    r.rest.length < s.length := by
  rw [replaceRestAt] at hr
  split at hr
  case isFalse => simp at hr
  case isTrue hp =>
    have hl := IsPrefix.length_le <| isPrefixOf_iff_prefix.mp hp
    have := length_pos_iff.mpr h
    split at hr
    case h_1 =>
      rw [← Option.some.inj hr, length_nil]
      omega
    case h_2 b s' hs =>
      have := (dropWhile_sublist (· ≠ sep) : s.dropWhile (· ≠ sep) <+ s).length_le
      rw [hs, length_cons] at this
      rwa [← Option.some.inj hr]

theorem replaceRestAt_last (hp : search.isPrefixOf s) (hs : s.dropWhile (· ≠ sep) = []) :
    replaceRestAt sep search new s =
      some { new := new, room := new.length + 1, rest := [], fits := Nat.le_add_right .. } := by
  simp only [replaceRestAt, hp, hs, if_true]

theorem replaceRestAt_line (hp : search.isPrefixOf s) (hs : s.dropWhile (· ≠ sep) = a :: t) :
    replaceRestAt sep search new s =
      some { new := new ++ [sep], room := new.length + 1, rest := t, fits := length_append.le } := by
  simp only [replaceRestAt, hp, hs, if_true]

theorem replaceRestAt_eq_none_iff : replaceRestAt sep search new s = none ↔ ¬search.isPrefixOf s := by
  rw [replaceRestAt]
  split
  case isFalse hp => simp [hp]
  case isTrue hp =>
    split
    all_goals simp [hp]

theorem of_replaceRestAt {r : Replacement α} (hr : replaceRestAt sep search new s = some r) :
    r.new ⊆ new ++ [sep] ∧ r.room ≤ r.new.length + 1 ∧ r.rest ⊆ s := by
  rw [replaceRestAt] at hr
  split at hr
  case isFalse => simp at hr
  case isTrue =>
    split at hr
    case h_1 =>
      rw [← Option.some.inj hr]
      exact ⟨subset_append_left .., le_rfl, nil_subset _⟩
    case h_2 b t ht =>
      rw [← Option.some.inj hr]
      refine ⟨fun _ => id, by simp, fun a ha => ?_⟩
      exact (dropWhile_sublist (· ≠ sep)).subset (ht ▸ mem_cons_of_mem _ ha)

def replacingRest (sep : α) (search new : List α) (h : search ≠ []) : Rule α :=
  ⟨replaceRestAt sep search new, replaceRestAt_shorter h⟩

-- Nothing else is replaced if `search` ends with the separator.
theorem replacingRest_eq (he : search = s ++ [sep]) (hs : sep ∉ s) :
    replacingRest sep search new h = replacing search (new ++ [sep]) h := by
  subst he
  have he : replaceRestAt sep (s ++ [sep]) new = replaceAt (s ++ [sep]) (new ++ [sep]) := by
    funext t
    by_cases hp : (s ++ [sep]).isPrefixOf t
    case neg => rw [replaceRestAt_eq_none_iff.mpr hp, replaceAt_eq_none_iff.mpr hp]
    case pos =>
      obtain ⟨t, rfl⟩ := isPrefixOf_iff_prefix.mp hp
      have hd := (dropWhile_line (t := t) hs).right
      rw [replaceAt_append]
      rw [append_assoc, singleton_append] at hp ⊢
      rw [replaceRestAt_line hp hd]
      simp
  simp only [replacingRest, replacing, he]

-- What becomes of a line.
def replaceRest (search new : List α) : List α → List α
  | []     => []
  | a :: s => if search.isPrefixOf (a :: s) then new else a :: replaceRest search new s

theorem rewrite_line (hs : sep ∉ s) (ha : sep ∉ search) :
    (replacingRest sep search new h).rewrite s = replaceRest search new s ∧
    (replacingRest sep search new h).rewrite (s ++ sep :: t) =
      replaceRest search new s ++ sep :: (replacingRest sep search new h).rewrite t := by
  induction s
  case nil =>
    refine ⟨Rule.rewrite_nil, Rule.rewrite_of_none (if_neg ?_)⟩
    refine mt isPrefixOf_iff_prefix.mp ?_
    rwa [← nil_append (sep :: t), prefix_append_cons_iff ha, prefix_nil]
  case cons a s hi =>
    have ⟨h₁, h₂⟩ := dropWhile_line (t := t) hs
    have ⟨hi₁, hi₂⟩ := hi (not_mem_of_not_mem_cons hs)
    have hp' : search.isPrefixOf (a :: s ++ sep :: t) ↔ search.isPrefixOf (a :: s) := by
      exact isPrefixOf_iff_prefix.trans <| (prefix_append_cons_iff ha).trans isPrefixOf_iff_prefix.symm
    rw [cons_append] at h₂ hp' ⊢
    rw [replaceRest]
    split
    case isTrue hp =>
      constructor
      · rw [Rule.rewrite_of_some (replaceRestAt_last hp h₁), Rule.rewrite_nil, append_nil]
      · rw [Rule.rewrite_of_some (replaceRestAt_line (hp'.mpr hp) h₂), append_assoc, singleton_append]
    case isFalse hp =>
      rw [Rule.rewrite_of_none (if_neg hp), Rule.rewrite_of_none (if_neg (mt hp'.mp hp)), hi₁, hi₂, cons_append]
      exact ⟨rfl, rfl⟩

-- Every line is replaced on its own.
theorem rewrite_lines (ha : sep ∉ search) : (replacingRest sep search new h).rewrite s =
    [sep].intercalate ((s.splitOn sep).map (replaceRest search new)) := by
  induction hn : s.length using Nat.strong_induction_on generalizing s
  case _ n hi =>
    subst hn
    by_cases hs : sep ∈ s
    case neg => simp [splitOn_eq_singleton hs, (rewrite_line (t := []) hs ha).left]
    case pos =>
      obtain ⟨l, t, rfl, hl⟩ := eq_append_cons_of_mem hs
      have hne : (t.splitOn sep).map (replaceRest search new) ≠ [] := by simp [splitOn_ne_nil]
      rw [(rewrite_line hl ha).right, splitOn_append_cons_self_of_not_mem hl, map_cons,
        intercalate_cons_of_ne_nil hne, ← hi _ (by rw [length_append, length_cons]; omega) rfl]
      simp

theorem replaceRest_eq_self (hs : ¬search <:+: s) : replaceRest search new s = s := by
  induction s
  case nil => rfl
  case cons a s hi =>
    rw [infix_cons_iff, not_or] at hs
    rw [replaceRest, if_neg (by simpa using hs.left), hi hs.right]

-- What stands before the first occurrence is left in the line.
theorem replaceRest_eq_append (hn : search ≠ []) (hs : search <:+: s) :
    ∃ before after, s = before ++ search ++ after ∧ replaceRest search new s = before ++ new := by
  induction s
  case nil => exact absurd (eq_nil_of_infix_nil hs) hn
  case cons a s hi =>
    rw [replaceRest]
    split
    case isTrue hp =>
      have ⟨after, ha⟩ := isPrefixOf_iff_prefix.mp hp
      exact ⟨[], after, by simp [ha], rfl⟩
    case isFalse hp =>
      have hp := mt isPrefixOf_iff_prefix.mpr hp
      have ⟨before, after, hs, hr⟩ := hi ((infix_cons_iff.mp hs).resolve_left hp)
      exact ⟨a :: before, after, by simp [hs], by simp [hr]⟩

theorem length_replaceRest_le : (replaceRest search new s).length ≤ s.length + new.length := by
  induction s
  case nil => simp [replaceRest]
  case cons a s hi =>
    rw [replaceRest]
    split
    case isTrue  => exact Nat.le_add_left ..
    case isFalse =>
      simp only [length_cons]
      omega

-- A line that contains `search` is replaced as a whole.
def replaceLine (search new s : List α) : List α :=
  if search <:+: s then new else s

theorem length_replaceLine_le (hn : search ≠ []) :
    (replaceLine search new s).length ≤ (replaceRest search new s).length := by
  rw [replaceLine]
  split
  case isFalse hs => rw [replaceRest_eq_self hs]
  case isTrue hs =>
    have ⟨before, _, _, hr⟩ := @replaceRest_eq_append _ _ _ new _ hn hs
    simp [hr]

theorem replaceRest_eq_replaceLine_iff (hn : search ≠ []) :
    replaceRest search new s = replaceLine search new s ↔ (search <:+: s → search <+: s) := by
  rw [replaceLine]
  split
  case isFalse hs => exact iff_of_true (replaceRest_eq_self hs) fun h => absurd h hs
  case isTrue hs =>
    rw [imp_iff_right hs]
    constructor
    case mp =>
      intro he
      have ⟨before, after, hs, hr⟩ := @replaceRest_eq_append _ _ _ new _ hn hs
      have hb : before = [] := append_left_eq_self.mp (hr ▸ he)
      exact ⟨after, by simp [hs, hb]⟩
    case mpr =>
      intro hp
      cases s
      case nil => exact absurd (prefix_nil.mp hp) hn
      case cons a s => exact if_pos <| isPrefixOf_iff_prefix.mpr hp

theorem length_rewrite_le (ha : sep ∉ search) : ((replacingRest sep search new h).rewrite s).length ≤
    s.length + (s.splitOn sep).length * new.length := by
  have hl := @length_intercalate_le_add _ sep (replaceRest search new) (s.splitOn sep) new.length
    fun _ => length_replaceRest_le
  rwa [← rewrite_lines ha, intercalate_splitOn] at hl

-- The lines are replaced as a whole if nothing stands before the first occurrence in any of them.
theorem rewrite_eq_lines_iff (ha : sep ∉ search) : (replacingRest sep search new h).rewrite s =
      [sep].intercalate ((s.splitOn sep).map (replaceLine search new)) ↔
    ∀ l ∈ s.splitOn sep, search <:+: l → search <+: l := by
  rw [rewrite_lines ha, intercalate_eq_iff fun _ => length_replaceLine_le h]
  exact forall₂_congr fun _ _ => replaceRest_eq_replaceLine_iff h

end Lines
end Rewriting

import Mathlib

open List

-- Programs that make calls to the outside, which may answer in any way that fits the type of the call.
-- Loops are observed for a number of rounds, after which the program is stopped.
inductive Prog {C : Type} (R : C → Type) (α : Type)
  | pure (a : α)
  | stop
  | call (c : C) (k : R c → Prog R α)

structure Event {C : Type} (R : C → Type) where
  call   : C
  result : R call

abbrev Trace {C : Type} (R : C → Type) := List (Event R)

namespace Prog

variable {C : Type} {R : C → Type} {α β : Type}

protected def bind : Prog R α → (α → Prog R β) → Prog R β
  | pure a, f   => f a
  | stop, _     => stop
  | call c k, f => call c fun r => (k r).bind f

instance : Monad (Prog R) where
  pure := pure
  bind := Prog.bind

def perform (c : C) : Prog R (R c) :=
  call c pure

-- What is observed of a program: the calls it makes and, if it was not stopped, what it returns.
inductive Observed : Prog R α → Trace R → Option α → Prop
  | pure {a : α} : Observed (pure a) [] (some a)
  | stop : Observed stop [] none
  | call {c : C} {k : R c → Prog R α} {r : R c} {t : Trace R} {o : Option α} (h : Observed (k r) t o) :
    Observed (call c k) (⟨c, r⟩ :: t) o

-- Runs a program on the given answers.
def replay [DecidableEq C] : Prog R α → Trace R → Option (Option α)
  | pure a, []        => some (some a)
  | stop, []          => some none
  | call c k, e :: t  => if h : e.call = c then replay (k (h ▸ e.result)) t else none
  | _, _              => none

theorem observed_of_replay [DecidableEq C] {p : Prog R α} {t : Trace R} {o : Option α} (h : p.replay t = some o) :
    p.Observed t o := by
  induction p generalizing t
  case pure =>
    cases t
    case cons => simp [replay] at h
    case nil =>
      rw [replay, Option.some.injEq] at h
      exact h ▸ .pure
  case stop =>
    cases t
    case cons => simp [replay] at h
    case nil =>
      rw [replay, Option.some.injEq] at h
      exact h ▸ .stop
  case call c k hi =>
    cases t
    case nil => simp [replay] at h
    case cons e t =>
      obtain ⟨c', r⟩ := e
      rw [replay] at h
      split at h
      case isFalse   => contradiction
      case isTrue hc =>
        subst hc
        exact .call (hi _ h)

-- A program that is followed by another one is stopped itself, or comes to its end before the other one starts.
theorem observed_bind {p : Prog R α} {f : α → Prog R β} {t : Trace R} {o : Option β} (h : (p >>= f).Observed t o) :
    (p.Observed t none ∧ o = none) ∨ ∃ a t₁ t₂, t = t₁ ++ t₂ ∧ p.Observed t₁ (some a) ∧ (f a).Observed t₂ o := by
  induction p generalizing t
  case pure a => exact .inr ⟨a, [], t, rfl, .pure, h⟩
  case stop =>
    cases h
    exact .inl ⟨.stop, rfl⟩
  case call c k hi =>
    cases h
    case call t r h =>
      cases hi r h
      case inl h => exact .inl ⟨.call h.left, h.right⟩
      case inr h =>
        have ⟨a, t₁, t₂, ht, h₁, h₂⟩ := h
        exact .inr ⟨a, ⟨c, r⟩ :: t₁, t₂, congrArg _ ht, .call h₁, h₂⟩

theorem observed_call {c : C} {k : R c → Prog R α} {t : Trace R} {o : Option α} (h : (perform c >>= k).Observed t o) :
    ∃ r t', t = ⟨c, r⟩ :: t' ∧ (k r).Observed t' o := by
  cases h
  case call t' r h => exact ⟨r, t', rfl, h⟩

theorem Observed.bind {p : Prog R α} {f : α → Prog R β} {a : α} {t₁ t₂ : Trace R} {o : Option β}
    (h₁ : p.Observed t₁ (some a)) (h₂ : (f a).Observed t₂ o) : (p >>= f).Observed (t₁ ++ t₂) o := by
  induction p generalizing t₁
  case pure =>
    cases h₁
    exact h₂
  case stop => cases h₁
  case call c k hi =>
    cases h₁
    case call t r h => exact .call (hi r h)

end Prog

-- Follows the calls of a program and keeps what is needed to say which calls may be made.
structure Monitor {C : Type} (R : C → Type) (G : Type) where
  next    : G → Event R → G
  -- The answers that the outside may give.
  Allows  : G → Event R → Prop := fun _ _ => True
  -- The calls that the program may make.
  Demands : G → C → Prop := fun _ _ => True

namespace Monitor

variable {C : Type} {R : C → Type} {G : Type} {M : Monitor R G} {g : G} {t t' : Trace R}

def after (M : Monitor R G) (g : G) (t : Trace R) : G :=
  t.foldl M.next g

def Allowed (M : Monitor R G) : G → Trace R → Prop
  | _, []     => True
  | g, e :: t => M.Allows g e ∧ M.Allowed (M.next g e) t

def Met (M : Monitor R G) : G → Trace R → Prop
  | _, []     => True
  | g, e :: t => M.Demands g e.call ∧ M.Met (M.next g e) t

instance decidableAllowed [h : ∀ g e, Decidable (M.Allows g e)] : (g : G) → (t : Trace R) → Decidable (M.Allowed g t)
  | _, []     => isTrue trivial
  | g, e :: t => @instDecidableAnd _ _ (h g e) (decidableAllowed (M.next g e) t)

instance decidableMet [h : ∀ g c, Decidable (M.Demands g c)] : (g : G) → (t : Trace R) → Decidable (M.Met g t)
  | _, []     => isTrue trivial
  | g, e :: t => @instDecidableAnd _ _ (h g e.call) (decidableMet (M.next g e) t)

@[simp]
theorem after_nil : M.after g [] = g := rfl

@[simp]
theorem after_cons {e : Event R} : M.after g (e :: t) = M.after (M.next g e) t := rfl

@[simp]
theorem after_append : M.after g (t ++ t') = M.after (M.after g t) t' :=
  foldl_append

@[simp]
theorem allowed_nil : M.Allowed g [] := trivial

@[simp]
theorem allowed_cons {e : Event R} : M.Allowed g (e :: t) ↔ M.Allows g e ∧ M.Allowed (M.next g e) t := .rfl

@[simp]
theorem allowed_append : M.Allowed g (t ++ t') ↔ M.Allowed g t ∧ M.Allowed (M.after g t) t' := by
  induction t generalizing g
  case nil         => simp
  case cons e t hi => simp [hi, and_assoc]

theorem allowed_of_forall (h : ∀ g e, M.Allows g e) : M.Allowed g t := by
  induction t generalizing g
  case nil         => trivial
  case cons e t hi => exact ⟨h g e, hi⟩

@[simp]
theorem met_nil : M.Met g [] := trivial

@[simp]
theorem met_cons {e : Event R} : M.Met g (e :: t) ↔ M.Demands g e.call ∧ M.Met (M.next g e) t := .rfl

@[simp]
theorem met_append : M.Met g (t ++ t') ↔ M.Met g t ∧ M.Met (M.after g t) t' := by
  induction t generalizing g
  case nil         => simp
  case cons e t hi => simp [hi, and_assoc]

theorem met_congr {M' : Monitor R G} (hn : M.next = M'.next) (hd : M.Demands = M'.Demands) : M.Met g t ↔ M'.Met g t := by
  induction t generalizing g
  case nil         => rfl
  case cons e t hi => rw [met_cons, met_cons, hn, hd, hi]

theorem allowed_mono {M' : Monitor R G} (hn : M.next = M'.next) (ha : ∀ g e, M.Allows g e → M'.Allows g e)
    (h : M.Allowed g t) : M'.Allowed g t := by
  induction t generalizing g
  case nil         => trivial
  case cons e t hi => exact ⟨ha g e h.left, hn ▸ hi h.right⟩

end Monitor

namespace Prog

variable {C : Type} {R : C → Type} {G α β : Type} {M : Monitor R G} {g : G} {t : Trace R} {o : Option α}
variable {Q Q' : Option α → G → Prop} {p : Prog R α} {c : C}

-- The weakest precondition: whatever is answered, the calls are the ones that are demanded, and `Q` holds of the
-- result, or of its absence if the program is stopped.
def wp (M : Monitor R G) (Q : Option α → G → Prop) : Prog R α → G → Prop
  | pure a, g   => Q (some a) g
  | stop, g     => Q none g
  | call c k, g => M.Demands g c ∧ ∀ r, M.Allows g ⟨c, r⟩ → (k r).wp M Q (M.next g ⟨c, r⟩)

theorem wp_sound (h : p.wp M Q g) (ho : p.Observed t o) (ha : M.Allowed g t) : M.Met g t ∧ Q o (M.after g t) := by
  induction ho generalizing g
  case pure => exact ⟨trivial, h⟩
  case stop => exact ⟨trivial, h⟩
  case call c k r t o _ hi =>
    have ⟨hm, hq⟩ := hi (h.right r ha.left) ha.right
    exact ⟨⟨h.left, hm⟩, hq⟩

-- If every demanded call can be answered, then there is a run.
theorem exists_observed (hr : ∀ g c, M.Demands g c → ∃ r, M.Allows g ⟨c, r⟩) (h : p.wp M Q g) :
    ∃ t o, p.Observed t o ∧ M.Allowed g t := by
  induction p generalizing g
  case pure a => exact ⟨[], some a, .pure, trivial⟩
  case stop   => exact ⟨[], none, .stop, trivial⟩
  case call c k hi =>
    have ⟨r, ha⟩ := hr g c h.left
    have ⟨t, o, ho, ht⟩ := hi r (h.right r ha)
    exact ⟨⟨c, r⟩ :: t, o, .call ho, ha, ht⟩

theorem wp_mono (h : p.wp M Q g) (hq : ∀ o g, Q o g → Q' o g) : p.wp M Q' g := by
  induction p generalizing g
  case pure        => exact hq _ _ h
  case stop        => exact hq _ _ h
  case call c k hi => exact ⟨h.left, fun r ha => hi r (h.right r ha)⟩

theorem wp_exists {ι : Type} {Q : ι → Option α → G → Prop} (i : ι) (h : p.wp M (Q i) g) :
    p.wp M (fun o g => ∃ i, Q i o g) g :=
  wp_mono h fun _ _ hq => ⟨i, hq⟩

@[simp]
theorem wp_pure {a : α} : (Pure.pure a : Prog R α).wp M Q g ↔ Q (some a) g := .rfl

@[simp]
theorem wp_stop : (stop : Prog R α).wp M Q g ↔ Q none g := .rfl

@[simp]
theorem wp_perform {Q : Option (R c) → G → Prop} :
    (perform c).wp M Q g ↔ M.Demands g c ∧ ∀ r, M.Allows g ⟨c, r⟩ → Q (some r) (M.next g ⟨c, r⟩) := .rfl

@[simp]
theorem wp_bind {Q : Option β → G → Prop} {f : α → Prog R β} :
    (p >>= f).wp M Q g ↔ p.wp M (fun o g => o.elim (Q none g) fun a => (f a).wp M Q g) g := by
  induction p generalizing g
  case pure        => rfl
  case stop        => rfl
  case call c k hi => exact and_congr_right fun _ => forall₂_congr fun r _ => hi r

@[simp]
theorem wp_ite {b : Prop} [Decidable b] {q : Prog R α} :
    (if b then p else q).wp M Q g ↔ if b then p.wp M Q g else q.wp M Q g := by
  split <;> rfl

-- A call comes first.
theorem wp_call {k : R c → Prog R α} :
    (perform c >>= k).wp M Q g ↔ M.Demands g c ∧ ∀ r, M.Allows g ⟨c, r⟩ → (k r).wp M Q (M.next g ⟨c, r⟩) := .rfl

theorem wp_if {b : Prop} [Decidable b] {q : Prog R α} (hp : b → p.wp M Q g) (hq : ¬b → q.wp M Q g) :
    (if b then p else q).wp M Q g := by
  rw [wp_ite]
  split
  case isTrue h  => exact hp h
  case isFalse h => exact hq h

-- The monitor that demands that all calls are of some kind.
def within (S : C → Prop) : Monitor R Unit where
  next    := fun _ _ => ()
  Demands := fun _ c => S c

-- A program whose calls preserve a property of the state of a monitor.
theorem wp_of_within {S : C → Prop} {P : Option α → Prop} {I : G → Prop}
    (hs : ∀ c, S c → ∀ g, I g → M.Demands g c ∧ ∀ r, I (M.next g ⟨c, r⟩))
    (h : p.wp (within S) (fun o _ => P o) ()) (hi : I g) (hq : ∀ o g, P o → I g → Q o g) : p.wp M Q g := by
  induction p generalizing g
  case pure => exact hq _ _ h hi
  case stop => exact hq _ _ h hi
  case call c k ih =>
    have ⟨hd, hn⟩ := hs c h.left g hi
    exact ⟨hd, fun r _ => ih r (h.right r trivial) (hn r)⟩

-- A program none of whose calls changes the state of a monitor.
theorem wp_of_silent {S : C → Prop} {P : Option α → Prop}
    (hs : ∀ c, S c → M.Demands g c ∧ ∀ r, M.next g ⟨c, r⟩ = g) (h : p.wp (within S) (fun o _ => P o) ()) :
    p.wp M (fun o g' => P o ∧ g' = g) g := by
  apply wp_of_within (I := (· = g)) ?_ h rfl fun _ _ hp hg => ⟨hp, hg⟩
  rintro c hc _ rfl
  exact hs c hc

-- If every call can be answered, then nothing more is required than that all runs make the demanded calls.
theorem wp_iff_met (hr : ∀ g c, ∃ r, M.Allows g ⟨c, r⟩) :
    p.wp M (fun _ _ => True) g ↔ ∀ t o, p.Observed t o → M.Allowed g t → M.Met g t := by
  have hrun (p : Prog R α) (g : G) : ∃ t o, p.Observed t o ∧ M.Allowed g t := by
    induction p generalizing g
    case pure a => exact ⟨[], some a, .pure, trivial⟩
    case stop   => exact ⟨[], none, .stop, trivial⟩
    case call c k hi =>
      have ⟨r, ha⟩ := hr g c
      have ⟨t, o, ho, ht⟩ := hi r (M.next g ⟨c, r⟩)
      exact ⟨⟨c, r⟩ :: t, o, .call ho, ha, ht⟩
  constructor
  case mp => exact fun h t o ho ha => (wp_sound h ho ha).left
  case mpr =>
    intro h
    induction p generalizing g
    case pure => trivial
    case stop => trivial
    case call c k hi =>
      refine ⟨?_, fun r ha => hi r fun t o ho ht => (h _ o (.call ho) ⟨ha, ht⟩).right⟩
      have ⟨r, ha⟩ := hr g c
      have ⟨t, o, ho, ht⟩ := hrun (k r) (M.next g ⟨c, r⟩)
      exact (h _ o (.call ho) ⟨ha, ht⟩).left

end Prog

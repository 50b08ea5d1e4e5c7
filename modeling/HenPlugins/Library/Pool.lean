import HenPlugins.Library.Prog

open List hiding Disjoint
open Relation

-- Threads that make their calls in any order, and share what the system gives out.

namespace Prog

variable {C : Type} {R : C → Type} {α : Type}

-- What is left of a program after some answers
def advance [DecidableEq C] : Prog R α → Trace R → Option (Prog R α)
  | p, []            => some p
  | call c k, e :: t => if h : e.call = c then (k (h ▸ e.result)).advance t else none
  | _, _             => none

def asks : Prog R α → Option C
  | call c _ => some c
  | _        => none

theorem eq_call_of_asks {p : Prog R α} {c : C} (h : p.asks = some c) : ∃ f, p = call c f := by
  cases p
  case call c' f =>
    obtain rfl := Option.some.inj h
    exact ⟨f, rfl⟩
  all_goals contradiction

end Prog

variable {κ ρ : Type} {C : κ → Type} {R : (k : κ) → C k → Type} {α G : κ → Type}

-- What is left of the program of a thread, and what the monitor of its kind has followed of it.
structure Thread (R : (k : κ) → C k → Type) (α G : κ → Type) where
  kind  : κ
  prog  : Prog (R kind) (α kind)
  state : G kind

abbrev Pool (R : (k : κ) → C k → Type) (α G : κ → Type) := List (Thread R α G)

structure Sharing (ρ : Type) (R : (k : κ) → C k → Type) (α G : κ → Type) where
  monitor : (k : κ) → Monitor (R k) (G k)
  inv     : (k : κ) → G k → Prop
  held    : (k : κ) → G k → Set ρ
  uses    : (k : κ) → C k → Set ρ
  gives   : (k : κ) → Event (R k) → Set ρ
  -- The thread that a call starts.
  starts  : (k : κ) → Event (R k) → Option (Thread R α G)

namespace Sharing

variable {S : Sharing ρ R α G} {p p' p₁ p₂ : Pool R α G} {k : κ} {c : C k} {f : R k c → Prog (R k) (α k)} {g : G k}

def heldBy (S : Sharing ρ R α G) (t : Thread R α G) : Set ρ :=
  S.held t.kind t.state

-- Some thread makes its next call, or comes to its end. What the system gives to it is held by none of the others.
inductive Step (S : Sharing ρ R α G) : Pool R α G → Pool R α G → Prop
  | call {p₁ p₂ : Pool R α G} {k : κ} {c : C k} {f : R k c → Prog (R k) (α k)} {g : G k} {r : R k c}
    (allows : (S.monitor k).Allows g ⟨c, r⟩) (fresh : ∀ t ∈ p₁ ++ p₂, Disjoint (S.gives k ⟨c, r⟩) (S.heldBy t)) :
    Step S (p₁ ++ ⟨k, .call c f, g⟩ :: p₂)
      (p₁ ++ ⟨k, f r, (S.monitor k).next g ⟨c, r⟩⟩ :: ((S.starts k ⟨c, r⟩).toList ++ p₂))
  | ends {p₁ p₂ : Pool R α G} {k : κ} {a : α k} {g : G k} : Step S (p₁ ++ ⟨k, .pure a, g⟩ :: p₂) (p₁ ++ p₂)

structure Safe (S : Sharing ρ R α G) (t : Thread R α G) : Prop where
  wp  : t.prog.wp (S.monitor t.kind) (fun _ _ => True) t.state
  inv : S.inv t.kind t.state

-- A thread makes use of what it holds. It only comes to hold what it is given, and passes on to a thread that it starts
-- what it holds itself.
structure Lawful (S : Sharing ρ R α G) : Prop where
  uses   : ∀ k g c, S.inv k g → (S.monitor k).Demands g c → S.uses k c ⊆ S.held k g
  inv    : ∀ k g e, S.inv k g → (S.monitor k).Demands g e.call → (S.monitor k).Allows g e →
    S.inv k ((S.monitor k).next g e)
  held   : ∀ k g e, S.inv k g → (S.monitor k).Demands g e.call → (S.monitor k).Allows g e →
    S.held k ((S.monitor k).next g e) ⊆ S.held k g ∪ S.gives k e
  safe   : ∀ k g e t, S.inv k g → (S.monitor k).Demands g e.call → t ∈ S.starts k e → S.Safe t
  passes : ∀ k g e t, S.inv k g → (S.monitor k).Demands g e.call → t ∈ S.starts k e →
    S.heldBy t ⊆ S.held k g ∧ Disjoint (S.heldBy t) (S.held k ((S.monitor k).next g e))

structure Sound (S : Sharing ρ R α G) (p : Pool R α G) : Prop where
  safe  : ∀ t ∈ p, S.Safe t
  apart : p.Pairwise fun t t' => Disjoint (S.heldBy t) (S.heldBy t')

-- A thread makes some calls, none of which starts another one.
theorem reaches_of_advance [DecidableEq (C k)] {q q' : Prog (R k) (α k)} {t : Trace (R k)} (h : q.advance t = some q')
    (ha : (S.monitor k).Allowed g t) (hf : ∀ e ∈ t, ∀ u ∈ p₁ ++ p₂, Disjoint (S.gives k e) (S.heldBy u))
    (hs : ∀ e ∈ t, S.starts k e = none) :
    ReflTransGen S.Step (p₁ ++ ⟨k, q, g⟩ :: p₂) (p₁ ++ ⟨k, q', (S.monitor k).after g t⟩ :: p₂) := by
  induction t generalizing q g
  case nil =>
    rw [Prog.advance, Option.some.injEq] at h
    exact h ▸ .refl
  case cons e t hi =>
    cases q
    case call c f =>
      obtain ⟨c', r⟩ := e
      rw [Prog.advance] at h
      split at h
      case isFalse   => contradiction
      case isTrue hc =>
        subst hc
        have hstep : S.Step (p₁ ++ ⟨k, .call c' f, g⟩ :: p₂)
            (p₁ ++ ⟨k, f r, (S.monitor k).next g ⟨c', r⟩⟩ :: ((S.starts k ⟨c', r⟩).toList ++ p₂)) :=
          .call ha.left (hf _ mem_cons_self)
        rw [hs _ mem_cons_self] at hstep
        refine .head hstep (hi h ha.right ?_ ?_)
        · exact fun e he => hf e (mem_cons_of_mem _ he)
        · exact fun e he => hs e (mem_cons_of_mem _ he)
    all_goals simp [Prog.advance] at h

namespace Sound

theorem apart_middle {t : Thread R α G} (h : S.Sound (p₁ ++ t :: p₂)) :
    (∀ t' ∈ p₁ ++ p₂, Disjoint (S.heldBy t) (S.heldBy t')) ∧
      (p₁ ++ p₂).Pairwise fun t t' => Disjoint (S.heldBy t) (S.heldBy t') :=
  pairwise_cons.mp <| (perm_middle.pairwise_iff fun hd => hd.symm).mp h.apart

theorem safe_middle {t : Thread R α G} (h : S.Sound (p₁ ++ t :: p₂)) : S.Safe t ∧ ∀ t' ∈ p₁ ++ p₂, S.Safe t' :=
  forall_mem_cons.mp fun t' ht => h.safe t' (perm_middle.mem_iff.mpr ht)

theorem step (hl : S.Lawful) (hs : S.Step p p') (h : S.Sound p) : S.Sound p' := by
  cases hs
  case ends p₁ p₂ k a g => exact ⟨h.safe_middle.right, h.apart_middle.right⟩
  case call p₁ p₂ k c f g r allows fresh =>
    have ⟨⟨⟨hd, hn⟩, hi⟩, hsafe⟩ := h.safe_middle
    have ⟨hothers, hpair⟩ := h.apart_middle
    -- The others are apart from what the thread has held, and from what it is given.
    have hrest : ∀ t ∈ p₁ ++ p₂, ∀ s, s ⊆ S.held k g ∪ S.gives k ⟨c, r⟩ → Disjoint s (S.heldBy t) :=
      fun t ht s hsub => .mono_left hsub <| Set.disjoint_union_left.mpr ⟨hothers t ht, fresh t ht⟩
    have hperm : p₁ ++ ⟨k, f r, (S.monitor k).next g ⟨c, r⟩⟩ :: ((S.starts k ⟨c, r⟩).toList ++ p₂) ~
        ⟨k, f r, (S.monitor k).next g ⟨c, r⟩⟩ :: ((S.starts k ⟨c, r⟩).toList ++ (p₁ ++ p₂)) :=
      perm_middle.trans <| .cons _ <| perm_append_comm_assoc ..
    constructor
    case safe =>
      intro t ht
      obtain rfl | ht := mem_cons.mp (hperm.mem_iff.mp ht)
      · exact ⟨hn r allows, hl.inv k g ⟨c, r⟩ hi hd allows⟩
      obtain ht | ht := mem_append.mp ht
      · exact hl.safe k g ⟨c, r⟩ t hi hd (Option.mem_toList.mp ht)
      · exact hsafe t ht
    case apart =>
      refine (hperm.pairwise_iff fun hd => hd.symm).mpr
        (pairwise_cons.mpr ⟨fun t ht => ?_, pairwise_append.mpr ⟨?_, hpair, fun t ht t' ht' => ?_⟩⟩)
      case refine_1 =>
        obtain ht | ht := mem_append.mp ht
        · exact (hl.passes k g ⟨c, r⟩ t hi hd (Option.mem_toList.mp ht)).right.symm
        · exact hrest t ht _ (hl.held k g ⟨c, r⟩ hi hd allows)
      case refine_2 =>
        cases S.starts k ⟨c, r⟩
        case none   => exact .nil
        case some t => exact pairwise_singleton ..
      case refine_3 =>
        have ⟨hsub, _⟩ := hl.passes k g ⟨c, r⟩ t hi hd (Option.mem_toList.mp ht)
        exact hrest t' ht' _ (hsub.trans Set.subset_union_left)

-- Whatever the order of the calls, every thread keeps to its monitor, and the threads hold different things.
theorem run (hl : S.Lawful) (hr : ReflTransGen S.Step p p') (h : S.Sound p) : S.Sound p' := by
  induction hr
  case refl         => exact h
  case tail _ hs hi => exact hi.step hl hs

-- So what a call makes use of is held by the thread that makes it, and by no other one.
theorem uses (hl : S.Lawful) (h : S.Sound (p₁ ++ ⟨k, .call c f, g⟩ :: p₂)) :
    (S.monitor k).Demands g c ∧ S.uses k c ⊆ S.held k g ∧ ∀ t ∈ p₁ ++ p₂, Disjoint (S.uses k c) (S.heldBy t) := by
  have hd : (S.monitor k).Demands g c := h.safe_middle.left.wp.left
  have hu := hl.uses k g c h.safe_middle.left.inv hd
  exact ⟨hd, hu, fun t ht => (h.apart_middle.left t ht).mono_left hu⟩

end Sound
end Sharing

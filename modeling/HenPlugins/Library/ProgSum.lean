import HenPlugins.Library.Prog

-- Programs whose calls are of two kinds, and the monitors that follow both of them.

variable {C₁ C₂ : Type} {R₁ : C₁ → Type} {R₂ : C₂ → Type} {α : Type}

namespace Prog

-- A program that only makes calls of the first kind, and one that only makes calls of the second kind.

def inl : Prog R₁ α → Prog (Sum.elim R₁ R₂) α
  | pure a   => pure a
  | stop     => stop
  | call c k => call (.inl c) fun r => (k r).inl

def inr : Prog R₂ α → Prog (Sum.elim R₁ R₂) α
  | pure a   => pure a
  | stop     => stop
  | call c k => call (.inr c) fun r => (k r).inr

end Prog

variable {G : Type} {M₁ : Monitor R₁ G} {M₂ : Monitor R₂ G} {g : G}

def Monitor.sum (M₁ : Monitor R₁ G) (M₂ : Monitor R₂ G) : Monitor (Sum.elim R₁ R₂) G where
  next g
    | ⟨.inl c, r⟩ => M₁.next g ⟨c, r⟩
    | ⟨.inr c, r⟩ => M₂.next g ⟨c, r⟩
  Allows g
    | ⟨.inl c, r⟩ => M₁.Allows g ⟨c, r⟩
    | ⟨.inr c, r⟩ => M₂.Allows g ⟨c, r⟩
  Demands g
    | .inl c => M₁.Demands g c
    | .inr c => M₂.Demands g c

namespace Prog

variable {Q : Option α → G → Prop}

-- What is proved of a program with its own monitor holds wherever it is run.

theorem wp_inl {p : Prog R₁ α} : (@inl C₁ C₂ R₁ R₂ α p).wp (M₁.sum M₂) Q g ↔ p.wp M₁ Q g := by
  induction p generalizing g
  case pure        => rfl
  case stop        => rfl
  case call c k hi => exact and_congr_right fun _ => forall₂_congr fun r _ => hi r

theorem wp_inr {p : Prog R₂ α} : (@inr C₁ C₂ R₁ R₂ α p).wp (M₁.sum M₂) Q g ↔ p.wp M₂ Q g := by
  induction p generalizing g
  case pure        => rfl
  case stop        => rfl
  case call c k hi => exact and_congr_right fun _ => forall₂_congr fun r _ => hi r

-- A monitor that does not follow the calls of the second kind is left as it is by them.
theorem wp_of_unfollowed {p : Prog R₂ α} (hn : ∀ g e, M₂.next g e = g) (hd : ∀ g c, M₂.Demands g c) :
    p.wp M₂ (fun _ g' => g' = g) g := by
  induction p
  case pure        => rfl
  case stop        => rfl
  case call c k hi =>
    refine ⟨hd g c, fun r _ => ?_⟩
    rw [hn]
    exact hi r

end Prog

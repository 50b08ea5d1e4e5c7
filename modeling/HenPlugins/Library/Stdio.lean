import HenPlugins.Library.CString

open List

-- Writing to a file, where every write may fail.
namespace Stdio

-- How much of a text gets into the file: all of it, or only its first bytes.
abbrev Outcome := Option Nat

def accept : Outcome → Bytes → Bytes
  | none, text   => text
  | some n, text => text.take n

-- What has been written, and the outcomes of the writes to come. Those that are not listed succeed.
structure Out where
  content  : Bytes
  outcomes : List Outcome

abbrev Writer := StateM Out Unit

def fprintf (text : Bytes) : Writer :=
  modify fun out => ⟨out.content ++ accept (out.outcomes.headD none) text, out.outcomes.tail⟩

def contents : List Outcome → List Bytes → Bytes
  | _, []             => []
  | outcomes, t :: ts => accept (outcomes.headD none) t ++ contents outcomes.tail ts

-- No write loses a byte.
def Whole : List Outcome → List Bytes → Prop
  | _, []             => True
  | outcomes, t :: ts => (∀ n ∈ outcomes.headD none, t.length ≤ n) ∧ Whole outcomes.tail ts

variable {out : Out} {outcomes : List Outcome} {outcome : Outcome} {text : Bytes} {ts ts' : List Bytes}

theorem accept_prefix : accept outcome text <+: text := by
  cases outcome
  case none   => exact prefix_rfl
  case some n => exact take_prefix n text

theorem length_accept_le : (accept outcome text).length ≤ text.length :=
  accept_prefix.length_le

theorem accept_eq_self_iff : accept outcome text = text ↔ ∀ n ∈ outcome, text.length ≤ n := by
  cases outcome <;> simp [accept, take_eq_self_iff]

theorem length_contents_le : (contents outcomes ts).length ≤ ts.flatten.length := by
  induction ts generalizing outcomes
  case nil          => exact le_rfl
  case cons t ts hi =>
    rw [contents, flatten_cons, length_append, length_append]
    exact Nat.add_le_add length_accept_le hi

-- As no write makes up for what another one has lost, all of them have to be complete.
theorem contents_eq_iff : contents outcomes ts = ts.flatten ↔ Whole outcomes ts := by
  induction ts generalizing outcomes
  case nil          => exact iff_of_true rfl trivial
  case cons t ts hi =>
    rw [contents, flatten_cons, Whole, ← hi, ← accept_eq_self_iff]
    constructor
    case mpr =>
      rintro ⟨ht, hs⟩
      rw [ht, hs]
    case mp =>
      intro h
      have hl := congrArg length h
      have ht : (accept (outcomes.headD none) t).length ≤ t.length := length_accept_le
      have hs : (contents outcomes.tail ts).length ≤ ts.flatten.length := length_contents_le
      rw [length_append, length_append] at hl
      exact append_inj h (by omega)

theorem whole_nil : Whole [] ts := by
  induction ts
  case nil          => trivial
  case cons t ts hi => exact ⟨by simp, hi⟩

-- The same for what closing the file leaves of it.
theorem accept_contents_eq_iff : accept outcome (contents outcomes ts) = ts.flatten ↔
    Whole outcomes ts ∧ ∀ n ∈ outcome, ts.flatten.length ≤ n := by
  rw [← contents_eq_iff]
  constructor
  case mpr =>
    rintro ⟨hs, hn⟩
    rw [hs, accept_eq_self_iff.mpr hn]
  case mp =>
    intro h
    have hc : contents outcomes ts = ts.flatten := by
      refine .trans ?_ h
      refine ( accept_prefix.eq_of_length_le ?_).symm
      exact h ▸ length_contents_le
    exact ⟨hc, hc ▸ accept_eq_self_iff.mp (hc ▸ h)⟩

theorem forM_flatMap {α β : Type} {f : α → List β} {g : β → Writer} {l : List α} :
    forM (l.flatMap f) g = forM l fun a => forM (f a) g := by
  induction l
  case nil          => rfl
  case cons a l hi => rw [flatMap_cons, forM_append, hi, forM_cons]

-- What a sequence of writes leaves in the file.
theorem content_forM_fprintf :
    ((forM ts fprintf : Writer).run out).snd.content = out.content ++ contents out.outcomes ts := by
  induction ts generalizing out
  case nil => exact (append_nil _).symm
  case cons t ts hi =>
    refine (@hi ⟨out.content ++ accept (out.outcomes.headD none) t, out.outcomes.tail⟩).trans ?_
    rw [contents, append_assoc]

end Stdio

import HenPlugins.Library.CString

open List

-- A place in a sequence of bytes. Nothing has been read from `reach` on.
structure Place where
  pos   : Nat
  reach : Nat

-- Code that decodes a sequence of bytes from front to back, and that can fail.
def Decoder (α : Type) := (Nat → UInt8) → Place → Option (α × Place)

namespace Decoder

variable {α β : Type} {code code' : Nat → UInt8} {s : Place} {a : α} {o : Option α} {n : Nat} {b : Bool}
  {d : Decoder α} {f : α → Decoder β}

instance : Monad Decoder where
  pure a   := fun _ s => some (a, s)
  bind d f := fun code s => (d code s).bind fun (a, s) => f a code s

def lift (o : Option α) : Decoder α :=
  fun _ s => o.map fun a => (a, s)

def peek : Decoder UInt8 :=
  fun code s => some (code s.pos, { s with reach := max s.reach (s.pos + 1) })

def skip (n : Nat) : Decoder Unit :=
  fun _ s => some ((), { s with pos := s.pos + n })

def next : Decoder UInt8 := do
  let b ← peek
  skip 1
  return b

def slice (code : Nat → UInt8) (i n : Nat) : Bytes :=
  (List.range n).map fun k => code (i + k)

def take (n : Nat) : Decoder Bytes :=
  fun code s => some (slice code s.pos n, { pos := s.pos + n, reach := max s.reach (s.pos + n) })

@[simp]
theorem length_slice {i : Nat} : (slice code i n).length = n := by
  simp [slice]

theorem slice_one {i : Nat} : slice code i 1 = [code i] := rfl

theorem slice_add {i k : Nat} : slice code i (n + k) = slice code i n ++ slice code (i + n) k := by
  simp only [slice, range_add, map_append, map_map, Function.comp_def, Nat.add_assoc]

theorem slice_congr {i : Nat} (h : ∀ k, i ≤ k → k < i + n → code' k = code k) :
    slice code' i n = slice code i n := by
  apply map_congr_left
  intro k hk
  have := List.mem_range.mp hk
  exact h _ (by omega) (by omega)

-- The decoder comes to its end, and its result and the place that it has come to are as required.
def wp (d : Decoder α) (code : Nat → UInt8) (s : Place) (Q : α → Place → Prop) : Prop :=
  ∃ a s', d code s = some (a, s') ∧ Q a s'

section

variable {Q Q' : α → Place → Prop} {R : β → Place → Prop}

@[simp]
theorem wp_pure : (pure a : Decoder α).wp code s Q ↔ Q a s := by
  constructor
  case mpr => exact fun h => ⟨a, s, rfl, h⟩
  case mp =>
    rintro ⟨_, _, he, h⟩
    cases he
    exact h

@[simp]
theorem wp_bind : (d >>= f).wp code s R ↔ d.wp code s fun a s' => (f a).wp code s' R := by
  constructor
  case mp =>
    rintro ⟨b, s', he, h⟩
    have ⟨⟨a, s₁⟩, hd, hf⟩ := Option.bind_eq_some_iff.mp he
    exact ⟨a, s₁, hd, b, s', hf, h⟩
  case mpr =>
    rintro ⟨a, s₁, hd, b, s', hf, h⟩
    exact ⟨b, s', Option.bind_eq_some_iff.mpr ⟨(a, s₁), hd, hf⟩, h⟩

@[simp]
theorem wp_lift : (lift o).wp code s Q ↔ ∃ a, o = some a ∧ Q a s := by
  cases o
  case none => simp [wp, lift]
  case some => simp [wp, lift]

@[simp]
theorem wp_peek {Q : UInt8 → Place → Prop} :
    peek.wp code s Q ↔ Q (code s.pos) { s with reach := max s.reach (s.pos + 1) } := by
  simp [wp, peek]

@[simp]
theorem wp_skip {Q : Unit → Place → Prop} : (skip n).wp code s Q ↔ Q () { s with pos := s.pos + n } := by
  simp only [wp, skip, Option.some.injEq, Prod.mk.injEq]
  constructor
  case mp =>
    rintro ⟨_, _, ⟨_, rfl⟩, h⟩
    exact h
  case mpr => exact fun h => ⟨(), _, ⟨trivial, rfl⟩, h⟩

@[simp]
theorem wp_next {Q : UInt8 → Place → Prop} :
    next.wp code s Q ↔ Q (code s.pos) { pos := s.pos + 1, reach := max s.reach (s.pos + 1) } := by
  simp [next]

@[simp]
theorem wp_take {Q : Bytes → Place → Prop} : (take n).wp code s Q ↔
    Q (slice code s.pos n) { pos := s.pos + n, reach := max s.reach (s.pos + n) } := by
  simp [wp, take]

theorem wp_ite {p : Prop} [Decidable p] {e : Decoder α} :
    (if p then d else e).wp code s Q ↔ if p then d.wp code s Q else e.wp code s Q := by
  split <;> rfl

theorem wp_mono (h : d.wp code s Q) (hQ : ∀ a s', Q a s' → Q' a s') : d.wp code s Q' := by
  have ⟨a, s', he, h⟩ := h
  exact ⟨a, s', he, hQ a s' h⟩

end

-- The result depends on nothing but the bytes that the decoder has moved across.
def Local (d : Decoder α) : Prop :=
  ∀ code s a s', d code s = some (a, s') →
    s.pos ≤ s'.pos ∧ ∀ code', (∀ i, s.pos ≤ i → i < s'.pos → code' i = code i) → d code' s = some (a, s')

theorem local_pure : Local (pure a : Decoder α) := by
  intro code s a s' h
  cases h
  exact ⟨le_rfl, fun _ _ => rfl⟩

theorem local_lift : Local (lift o) := by
  intro code s a s' h
  have ⟨b, hb, he⟩ := Option.map_eq_some_iff.mp h
  cases he
  exact ⟨le_rfl, fun _ _ => h⟩

theorem local_take : Local (take n) := by
  intro code s a s' h
  cases h
  refine ⟨Nat.le_add_right .., fun code' hc => ?_⟩
  rw [take, slice_congr hc]

theorem Local.bind (hd : Local d) (hf : ∀ a, Local (f a)) : Local (d >>= f) := by
  intro code s b s' h
  have ⟨⟨a, s₁⟩, h₁, h₂⟩ := Option.bind_eq_some_iff.mp h
  have ⟨hl₁, hc₁⟩ := hd code s a s₁ h₁
  have ⟨hl₂, hc₂⟩ := hf a code s₁ b s' h₂
  refine ⟨hl₁.trans hl₂, fun code' hc => Option.bind_eq_some_iff.mpr ⟨(a, s₁), ?_, ?_⟩⟩
  · exact hc₁ code' fun i hi hl => hc i hi (hl.trans_le hl₂)
  · exact hc₂ code' fun i hi hl => hc i (hl₁.trans hi) hl

theorem local_ite {p : Prop} [Decidable p] {e : Decoder α} (hd : p → Local d) (he : ¬p → Local e) :
    Local (if p then d else e) := by
  split
  case isTrue h  => exact hd h
  case isFalse h => exact he h

theorem peek_bind {f : UInt8 → Decoder β} :
    (peek >>= f) code s = f (code s.pos) code { s with reach := max s.reach (s.pos + 1) } := rfl

theorem next_bind {f : UInt8 → Decoder β} :
    (next >>= f) code s = f (code s.pos) code { pos := s.pos + 1, reach := max s.reach (s.pos + 1) } := rfl

theorem skip_bind {f : Unit → Decoder β} :
    (skip n >>= f) code s = f () code { s with pos := s.pos + n } := rfl

theorem local_next : Local next := by
  intro code s b s' h
  cases h
  refine ⟨Nat.le_succ _, fun code' hc => ?_⟩
  have hb := hc s.pos le_rfl (Nat.lt_succ_self _)
  exact hb ▸ rfl

-- What has been looked at is moved across.
theorem local_peek_bind_next {f : UInt8 → UInt8 → Decoder β} (h : ∀ b, Local (f b b)) :
    Local (peek >>= fun b => next >>= f b) := by
  intro code s b s' he
  have ⟨hl, hc⟩ := h (code s.pos) code _ b s' he
  refine ⟨(Nat.le_succ _).trans hl, fun code' hc' => ?_⟩
  have hb : code' s.pos = code s.pos := hc' s.pos le_rfl hl
  rw [peek_bind, next_bind, hb]
  exact hc code' fun i hi => hc' i ((Nat.le_succ _).trans hi)

-- What has been looked at is moved across, or it is not used.
theorem local_peek_bind_ite {p : Prop} [Decidable p] {f : UInt8 → Decoder β} {e : Decoder β}
    (hf : ∀ b, Local (f b)) (he : Local e) :
    Local (peek >>= fun c => if p then skip 1 >>= fun _ => f c else e) := by
  intro code s b s' h
  rw [peek_bind] at h
  split at h
  case isTrue hp =>
    have ⟨hl, hc⟩ := hf (code s.pos) code _ b s' h
    refine ⟨(Nat.le_succ _).trans hl, fun code' hc' => ?_⟩
    have hb : code' s.pos = code s.pos := hc' s.pos le_rfl hl
    rw [peek_bind, if_pos hp, skip_bind, hb]
    exact hc code' fun i hi => hc' i ((Nat.le_succ _).trans hi)
  case isFalse hp =>
    have ⟨hl, hc⟩ := he code _ b s' h
    refine ⟨hl, fun code' hc' => ?_⟩
    rw [peek_bind, if_neg hp]
    exact hc code' hc'

end Decoder

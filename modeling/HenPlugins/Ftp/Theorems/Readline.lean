import HenPlugins.Library.CharArray
import HenPlugins.Ftp.Theorems.Transfer

open List Prog Monitor CString

namespace Ftp

-- What a client is still to send, and how many reads are still to be interrupted.
structure Sender where
  rest       : Bytes
  interrupts : Nat

namespace Sender

def next (g : Sender) : Event Result → Sender
  | ⟨.read _ _, .error .eintr⟩ => { g with interrupts := g.interrupts - 1 }
  | ⟨.read _ _, .ok bs⟩        => { g with rest := g.rest.drop bs.val.length }
  | _                          => g

-- All allocations succeed, and what `realloc` adds satisfies `P`.
def Allows (P : UInt8 → Prop) (g : Sender) : Event Result → Prop
  | ⟨.read _ _, .error .eintr⟩ => 0 < g.interrupts
  | ⟨.read _ _, r⟩             => ∃ bs, r = .ok bs ∧ Disk.Reads bs.val g.rest
  | ⟨.calloc _, r⟩             => r = true
  | ⟨.realloc _, r⟩            => ∃ bs, r = some bs ∧ ∀ c ∈ bs.val, P c
  | _                          => True

def Demands : Call → Prop
  | .read _ count            => 0 < count
  | .calloc _ | .realloc _   => True
  | _                        => False

end Sender

def sender (P : UInt8 → Prop) : Monitor Result Sender where
  next    := Sender.next
  Allows  := Sender.Allows P
  Demands := fun _ => Sender.Demands

theorem Sender.Allows.mono {P : UInt8 → Prop} {g : Sender} {e : Event Result} (h : g.Allows P e) :
    g.Allows (fun _ => True) e := by
  obtain ⟨c, r⟩ := e
  cases c
  case realloc =>
    have ⟨bs, he, _⟩ := h
    exact ⟨bs, he, fun _ _ => trivial⟩
  case read    => rcases r with (_ | _) | _ <;> exact h
  all_goals exact h

-- A line and whether there is a carriage return in front of its newline.
structure Line where
  text : Bytes
  crlf : Bool

namespace Line

def encode (l : Line) : Bytes :=
  l.text ++ if l.crlf then [cr, lf] else [lf]

def Valid (l : Line) : Prop :=
  ∀ c ∈ l.text, c ≠ cr ∧ c ≠ lf ∧ c ≠ 0

instance {l : Line} : Decidable l.Valid :=
  List.decidableBAll (fun c => c ≠ cr ∧ c ≠ lf ∧ c ≠ 0) l.text

end Line

-- Successive calls of `ftp_readline`
def readLines (fuel : Nat) (fd : Int) : Nat → Proc (List (Option Bytes))
  | 0     => return []
  | n + 1 => do
    let line ← ftpReadline fuel fd
    return line :: (← readLines fuel fd n)

-- As each read but the interrupted ones takes a byte, the calls return once there are enough rounds for the bytes and
-- the interrupts.
def ReadsExactly (fd : Int) (lines : List Line) : Prop :=
  ∀ fuel interrupts t o, (readLines fuel fd lines.length).Observed t o →
    (sender fun _ => True).Allowed ⟨lines.flatMap (·.encode), interrupts⟩ t →
    (lines.flatMap (·.encode)).length + interrupts < fuel → o = some (lines.map fun l => some l.text)

section Loop

variable {P : UInt8 → Prop} {fd : Int} {fuel k : Nat} {u s t tail : Bytes} {c : UInt8} {b : LineBuffer}
  {Q : Option (Option Bytes) → Sender → Prop}

-- What stands in the buffer behind the bytes that have been read: zeros until the buffer grows, and then whatever was
-- in the memory.
structure Room (P : UInt8 → Prop) (u tail : Bytes) : Prop where
  zeros : u.length < bufsize → tail = replicate (bufsize - u.length) 0
  grown : bufsize ≤ u.length → tail ≠ [] ∧ ∀ c ∈ tail, P c

theorem Room.start : Room P [] (replicate bufsize 0) :=
  ⟨fun _ => rfl, fun h => absurd h (by decide)⟩

theorem Room.exists_cons (h : Room P u tail) : ∃ d ds, tail = d :: ds := by
  refine exists_cons_of_ne_nil ?_
  by_cases hu : u.length < bufsize
  case pos =>
    rw [h.zeros hu, Ne, replicate_eq_nil_iff]
    omega
  case neg => exact (h.grown (Nat.le_of_not_lt hu)).left

-- A byte is stored, and the buffer does not have to grow.
theorem Room.next {d : UInt8} {ds : Bytes} (h : Room P u (d :: ds)) (hd : ds ≠ []) : Room P (u ++ [c]) ds where
  zeros := by
    intro hu
    rw [length_append, length_singleton] at hu ⊢
    have hz := congrArg tail (h.zeros (Nat.lt_of_succ_lt hu))
    rwa [tail_cons, tail_replicate, Nat.sub_sub] at hz
  grown := by
    intro hu
    refine ⟨hd, fun x hx => ?_⟩
    rw [length_append, length_singleton] at hu
    by_cases hl : u.length < bufsize
    case neg => exact (h.grown (Nat.le_of_not_lt hl)).right x (mem_cons_of_mem d hx)
    case pos =>
      have hz := congrArg length (h.zeros hl)
      rw [length_cons, length_replicate] at hz
      exact absurd (length_pos_iff.mpr hd) (by omega)

theorem Room.realloc {d : UInt8} {bs : Bytes} (h : Room P u [d]) (hl : bs.length = bufsize) (hb : ∀ c ∈ bs, P c) :
    Room P (u ++ [c]) bs where
  grown := fun _ => ⟨length_pos_iff.mp (hl ▸ by decide), hb⟩
  zeros := by
    intro hu
    rw [length_append, length_singleton] at hu
    have hz := congrArg length (h.zeros (Nat.lt_of_succ_lt hu))
    rw [length_singleton, length_replicate] at hz
    omega

-- A read of one byte takes the first one or is interrupted.
theorem wp_read {α : Type} {Q : Option α → Sender → Prop} {f : Input 1 → Proc α}
    (hi : 0 < k → (f (.error .eintr)).wp (sender P) Q ⟨c :: t, k - 1⟩)
    (hr : ∀ h, (f (.ok ⟨[c], h⟩)).wp (sender P) Q ⟨t, k⟩) : (perform (.read fd 1) >>= f).wp (sender P) Q ⟨c :: t, k⟩ := by
  refine wp_call.mpr ⟨Nat.one_pos, fun r ha => ?_⟩
  rcases r with (_ | _) | ⟨bs, hl⟩
  case error.eintr => exact hi ha
  case error.other =>
    have ⟨_, he, _⟩ := ha
    cases he
  case ok =>
    have ⟨bs', he, hp, hz⟩ := ha
    cases he
    cases bs
    case nil        => exact absurd (hz rfl) (cons_ne_nil c t)
    case cons d bs =>
      obtain rfl : bs = [] := length_eq_zero_iff.mp (Nat.le_zero.mp (Nat.le_of_succ_le_succ hl))
      obtain rfl : d = c := (cons_prefix_cons.mp hp).left
      exact hr hl

theorem readlineLoop_lf (hf : k < fuel) (hq : ∀ k' ≤ k, Q (some (some (cstr b.buffer))) ⟨t, k'⟩) :
    (readlineLoop fd fuel b).wp (sender P) Q ⟨lf :: t, k⟩ := by
  induction fuel generalizing k
  case zero => omega
  case succ fuel hi =>
    refine wp_read (fun hk => ?_) fun _ => ?_
    case refine_1 => exact hi (by omega) fun k' hk' => hq k' (by omega)
    case refine_2 =>
      exact wp_if (fun hc => absurd hc (by decide)) fun _ => wp_if (fun _ => hq k le_rfl) fun hc => absurd rfl hc

-- A carriage return ends the string at the current position, and the newline is stored nowhere.
theorem readlineLoop_crlf (hf : k + 1 < fuel)
    (hq : ∀ k' ≤ k, Q (some (some (cstr (b.buffer.set b.position 0)))) ⟨t, k'⟩) :
    (readlineLoop fd fuel b).wp (sender P) Q ⟨cr :: lf :: t, k⟩ := by
  induction fuel generalizing k
  case zero => omega
  case succ fuel hi =>
    refine wp_read (fun hk => ?_) fun _ => ?_
    case refine_1 => exact hi (by omega) fun k' hk' => hq k' (by omega)
    case refine_2 =>
      refine wp_if (fun _ => ?_) fun hc => absurd rfl hc
      exact readlineLoop_lf (by omega) hq

-- A byte of the text is stored at the current position, which may be the last one of the buffer.
theorem readlineLoop_byte (hc : c ≠ cr ∧ c ≠ lf ∧ c ≠ 0) (hr : Room P u tail)
    (hi : 0 < k → (readlineLoop fd fuel ⟨u ++ tail, u.length⟩).wp (sender P) Q ⟨c :: t, k - 1⟩)
    (hn : ∀ tail', Room P (u ++ [c]) tail' →
      (readlineLoop fd fuel ⟨u ++ [c] ++ tail', (u ++ [c]).length⟩).wp (sender P) Q ⟨t, k⟩) :
    (readlineLoop fd (fuel + 1) ⟨u ++ tail, u.length⟩).wp (sender P) Q ⟨c :: t, k⟩ := by
  obtain ⟨d, ds, rfl⟩ := hr.exists_cons
  have hl : (u ++ [c]).length = u.length + 1 := by simp
  have hset : (u ++ d :: ds).set u.length c = (u ++ [c]) ++ ds := by
    rw [set_append_right _ _ le_rfl, Nat.sub_self, set_cons_zero, append_cons]
  refine wp_read hi fun _ => ?_
  refine wp_if (fun he => absurd he hc.left) fun _ => wp_if (fun he => absurd he hc.right.left) fun _ => ?_
  simp only [hset]
  refine wp_if (fun hg => ?_) fun hg => ?_
  case refine_1 =>
    -- The buffer is full.
    obtain rfl : ds = [] := by
      rw [length_append, hl] at hg
      exact length_eq_zero_iff.mp (by omega)
    refine wp_call.mpr ⟨trivial, fun r ha => ?_⟩
    have ⟨bs, he, hb⟩ := ha
    cases he
    have hn := hn _ (hr.realloc bs.property hb)
    rw [hl] at hn
    rw [append_nil]
    exact hn
  case refine_2 =>
    have hd : ds ≠ [] := by
      rintro rfl
      rw [append_nil, hl] at hg
      exact hg le_rfl
    have hn := hn _ (hr.next hd)
    rwa [hl] at hn

-- The text of a line is stored in the buffer, which grows as it is needed.
theorem readlineLoop_text (hs : ∀ c ∈ s, c ≠ cr ∧ c ≠ lf ∧ c ≠ 0) (hr : Room P u tail) (hf : (s ++ t).length + k < fuel)
    (h : ∀ fuel' tail' k', t.length + k' < fuel' → k' ≤ k → Room P (u ++ s) tail' →
      (readlineLoop fd fuel' ⟨u ++ s ++ tail', (u ++ s).length⟩).wp (sender P) Q ⟨t, k'⟩) :
    (readlineLoop fd fuel ⟨u ++ tail, u.length⟩).wp (sender P) Q ⟨s ++ t, k⟩ := by
  induction fuel generalizing u s tail k
  case zero => omega
  case succ fuel hi =>
    cases s
    case nil =>
      rw [append_nil] at h
      exact h _ tail k hf le_rfl hr
    case cons c s =>
      have hs' := forall_mem_cons.mp hs
      rw [cons_append, length_cons] at hf
      refine readlineLoop_byte hs'.left hr (fun hk => ?_) fun tail' hr' => ?_
      case refine_1 =>
        refine hi hs hr (by rw [cons_append, length_cons]; omega) ?_
        exact fun fuel' tail' k' hf' hk' => h fuel' tail' k' hf' (by omega)
      case refine_2 =>
        refine hi hs'.right hr' (by omega) fun fuel' tail' k' hf' hk' hr' => ?_
        rw [← append_cons] at hr' ⊢
        exact h fuel' tail' k' hf' hk' hr'

end Loop

section Lines

variable {P : UInt8 → Prop} {fd : Int} {fuel k : Nat} {s t tail : Bytes} {l : Line} {ls lines : List Line}

-- What is returned for a line. Without a carriage return, the string ends where the first zero happens to be.
def Returns (P : UInt8 → Prop) (l : Line) (r : Option Bytes) : Prop :=
  if l.crlf then r = some l.text else ∃ tail, Room P l.text tail ∧ r = some (cstr (l.text ++ tail))

theorem ftpReadline_wp (hl : l.Valid) (hf : (l.encode ++ t).length + k < fuel) : (ftpReadline fuel fd).wp (sender P)
    (fun o g => ∃ r k', o = some r ∧ Returns P l r ∧ k' ≤ k ∧ g = ⟨t, k'⟩) ⟨l.encode ++ t, k⟩ := by
  refine wp_call.mpr ⟨trivial, fun r ha => wp_if (fun _ => ?_) fun hr => absurd ha hr⟩
  have hz : 0 ∉ l.text := fun hm => (hl 0 hm).right.right rfl
  rw [Line.encode, append_assoc] at hf ⊢
  refine readlineLoop_text (u := []) hl .start hf fun fuel' tail' k' hf' hk' hr => ?_
  rw [nil_append] at hr ⊢
  split at hf'
  case isTrue hc =>
    rw [if_pos hc]
    refine readlineLoop_crlf (by simp at hf'; omega) fun k'' hk'' => ⟨_, k'', rfl, ?_, hk''.trans hk', rfl⟩
    obtain ⟨d, ds, rfl⟩ := hr.exists_cons
    rw [Returns, if_pos hc, set_append_right _ _ le_rfl, Nat.sub_self, set_cons_zero, CharArray.cstr_terminated hz]
  case isFalse hc =>
    rw [if_neg hc]
    refine readlineLoop_lf (by simp at hf'; omega) fun k'' hk'' => ⟨_, k'', rfl, ?_, hk''.trans hk', rfl⟩
    rw [Returns, if_neg hc]
    exact ⟨tail', hr, rfl⟩

theorem readLines_wp (hl : ∀ l ∈ ls, l.Valid) (hf : (ls.flatMap (·.encode)).length + k < fuel) :
    (readLines fuel fd ls.length).wp (sender P) (fun o _ => ∃ rs, o = some rs ∧ Forall₂ (Returns P) ls rs)
      ⟨ls.flatMap (·.encode), k⟩ := by
  induction ls generalizing k
  case nil          => exact ⟨[], rfl, .nil⟩
  case cons l ls hi =>
    rw [forall_mem_cons] at hl
    rw [flatMap_cons] at hf ⊢
    rw [length_cons, readLines, wp_bind]
    refine wp_mono (ftpReadline_wp hl.left hf) ?_
    rintro _ _ ⟨r, k', rfl, hr, hk, rfl⟩
    rw [length_append] at hf
    refine wp_bind.mpr <| wp_mono (hi hl.right (by omega)) ?_
    rintro _ _ ⟨rs, rfl, hrs⟩
    exact ⟨r :: rs, rfl, .cons hr hrs⟩

theorem Returns.eq (h : l.crlf = false → l.text.length < 1024) {r : Option Bytes} (hl : l.Valid) (hr : Returns P l r) :
    r = some l.text := by
  rw [Returns] at hr
  split at hr
  case isTrue     => exact hr
  case isFalse hc =>
    have hz : 0 ∉ l.text := fun hm => (hl 0 hm).right.right rfl
    have hs := h (Bool.eq_false_iff.mpr hc)
    obtain ⟨tail, ht, rfl⟩ := hr
    have hn : bufsize - l.text.length = bufsize - l.text.length - 1 + 1 := by
      simp only [bufsize]
      omega
    rw [ht.zeros hs, hn, replicate_succ, CharArray.cstr_terminated hz]

-- Memory without zeros runs on behind the line.
theorem Returns.ne (hc : l.crlf = false) (h : 1024 ≤ l.text.length) {r : Option Bytes} (hl : l.Valid)
    (hr : Returns (· = 1) l r) : r ≠ some l.text := by
  rw [Returns, hc, if_neg Bool.false_ne_true] at hr
  obtain ⟨tail, ht, rfl⟩ := hr
  have ⟨hn, hg⟩ := ht.grown h
  have hz : 0 ∉ l.text ++ tail := by
    rw [mem_append, not_or]
    refine ⟨fun hm => (hl 0 hm).right.right rfl, fun hm => absurd (hg 0 hm) (by decide)⟩
  rw [cstr_eq_self hz, Ne, Option.some.injEq, append_right_eq_self]
  exact hn

theorem eq_map_of_forall₂ {α β : Type} {R : α → β → Prop} {f : α → β} {as : List α} {bs : List β}
    (h : ∀ a ∈ as, ∀ b, R a b → b = f a) (hr : Forall₂ R as bs) : bs = as.map f := by
  induction hr
  case nil           => rfl
  case cons hb _ hi =>
    rw [forall_mem_cons] at h
    rw [map_cons, h.left _ hb, hi h.right]

theorem sender_answers : ∀ g c, (sender (· = 1)).Demands g c → ∃ r, (sender (· = 1)).Allows g ⟨c, r⟩ := by
  intro g c hd
  cases c
  case calloc  => exact ⟨true, rfl⟩
  case realloc count => exact ⟨some ⟨replicate count 1, length_replicate⟩, _, rfl, fun c hc => eq_of_mem_replicate hc⟩
  case read fd count =>
    refine ⟨.ok ⟨g.rest.take count, length_take_le ..⟩, _, rfl, take_prefix .., fun h => ?_⟩
    exact (take_eq_nil_iff.mp h).resolve_left (Nat.ne_of_gt hd)
  all_goals exact hd.elim

-- There is a run in which the memory that a buffer grows by has no zeros in it.
theorem ReadsExactly.length_lt (hr : ReadsExactly fd ls) (h : ∀ l ∈ ls, l.Valid) (hl : l ∈ ls) (hc : l.crlf = false) :
    l.text.length < 1024 := by
  by_contra hn
  have hw := @readLines_wp (· = 1) fd _ 0 _ h (Nat.lt_succ_self _)
  have ⟨t, o, ho, ha⟩ := exists_observed sender_answers hw
  have ⟨_, rs, he, hrs⟩ := wp_sound hw ho ha
  have ha : (sender fun _ => True).Allowed _ t := allowed_mono (M := sender (· = 1)) rfl (fun _ _ => Sender.Allows.mono) ha
  obtain rfl := Option.some.inj (he.symm.trans (hr _ 0 t o ho ha (Nat.lt_succ_self _)))
  rw [forall₂_map_right_iff, forall₂_same] at hrs
  exact Returns.ne hc (Nat.le_of_not_lt hn) (h l hl) (hrs l hl) rfl

end Lines

-- If there is only a newline, then the string is terminated by a zero that the buffer was allocated with.
theorem ftpReadline_reads_iff (fd : Int) (lines : List Line) (h : ∀ l ∈ lines, l.Valid) :
    ReadsExactly fd lines ↔ ∀ l ∈ lines, l.crlf = false → l.text.length < 1024 := by
  constructor
  case mp => exact fun hr l hl hc => hr.length_lt h hl hc
  case mpr =>
    intro hs fuel k t o ho ha hf
    have ⟨_, rs, he, hrs⟩ := wp_sound (readLines_wp h hf) ho ha
    rw [he, eq_map_of_forall₂ (fun l hl r hr => hr.eq (hs l hl) (h l hl)) hrs]

theorem ftpReadline_reads_sample : ReadsExactly 3 [⟨bytes "TYPE I", true⟩, ⟨bytes "QUIT", false⟩] :=
  ftpReadline_reads_iff 3 [⟨bytes "TYPE I", true⟩, ⟨bytes "QUIT", false⟩] (by decide) |>.mpr (by decide)

def longLine : Line where
  text := replicate 1024 65
  crlf := false

theorem ftpReadline_unterminated : longLine.Valid ∧ ¬ReadsExactly 3 [longLine] := by
  have h : longLine.Valid := by
    intro c hc
    obtain rfl := eq_of_mem_replicate hc
    decide
  refine ⟨h, fun hr => ?_⟩
  have hl := hr.length_lt (fun l hl => mem_singleton.mp hl ▸ h) mem_cons_self rfl
  have hn : longLine.text.length = 1024 := length_replicate
  omega

end Ftp

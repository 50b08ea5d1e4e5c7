import HenPlugins.Library.CString

open List CString

namespace Stream

-- What `fgets` puts into a buffer with room for `n` characters and a terminator, and what is left
-- of the stream. A line ends with its newline, the end of the stream or the end of the buffer.
def fgets : Nat → Bytes → Bytes × Bytes
  | 0, s          => ([], s)
  | _ + 1, []     => ([], [])
  | n + 1, c :: s => if c = lf then ([c], s) else (c :: (fgets n s).1, (fgets n s).2)

-- The results of calling `fgets(line, size, file)` until the stream is exhausted.
def readLines (size : Nat) : (fuel : Nat) → Bytes → List Bytes
  | 0, _        => []
  | _ + 1, []   => []
  | fuel + 1, s => (fgets (size - 1) s).1 :: readLines size fuel (fgets (size - 1) s).2

def unlines (ls : List Bytes) : Bytes :=
  ls.flatMap (· ++ [lf])

-- The last line need not end with a newline.
def lines : Bytes → List Bytes
  | []     => []
  | c :: s =>
    if c = lf then [] :: lines s
    else
      match lines s with
      | []      => [[c]]
      | l :: ls => (c :: l) :: ls

@[simp]
theorem unlines_cons {l : Bytes} {ls : List Bytes} : unlines (l :: ls) = l ++ lf :: unlines ls := by
  simp [unlines]

theorem fgets_line {n : Nat} {l s : Bytes} (h : lf ∉ l) (hn : l.length < n) :
    fgets n (l ++ lf :: s) = (l ++ [lf], s) := by
  induction l generalizing n
  case nil =>
    have ⟨m, hm⟩ := Nat.exists_eq_add_of_lt hn
    simp [hm, fgets]
  case cons c l hi =>
    simp only [mem_cons, not_or] at h
    cases n
    case zero   => simp at hn
    case succ n =>
      simp only [length_cons, Nat.add_lt_add_iff_right] at hn
      simp [fgets, Ne.symm h.left, hi h.right hn]

theorem fgets_snd_length {n : Nat} {s : Bytes} : (fgets n s).2.length ≤ s.length := by
  induction n generalizing s
  case zero => simp [fgets]
  case succ n hi =>
    cases s
    case nil => simp [fgets]
    case cons c s =>
      rw [fgets]
      split
      · simp
      · simpa using Nat.le_succ_of_le hi

theorem fgets_consumes {n : Nat} {c : UInt8} {s : Bytes} (hn : 0 < n) :
    (fgets n (c :: s)).2.length ≤ s.length := by
  have ⟨m, hm⟩ := Nat.exists_eq_add_of_lt hn
  rw [hm, fgets]
  split
  · simp
  · exact fgets_snd_length

-- Every call of `fgets` consumes a character, so the length of the stream is enough fuel.
theorem readLines_fuel {size f g : Nat} {s : Bytes} (hs : 1 < size) (hf : s.length ≤ f)
    (hg : s.length ≤ g) : readLines size f s = readLines size g s := by
  induction f generalizing s g
  case zero =>
    cases s
    case nil    => cases g <;> rfl
    case cons _ => simp at hf
  case succ f hi =>
    cases s
    case nil => cases g <;> rfl
    case cons c s =>
      cases g
      case zero => simp at hg
      case succ g =>
        have hc := fgets_consumes (n := size - 1) (c := c) (s := s) (by omega)
        simp only [length_cons, Nat.add_le_add_iff_right] at hf hg
        rw [readLines, readLines, hi (hc.trans hf) (hc.trans hg)]
        all_goals simp

theorem readLines_unlines {size fuel : Nat} {ls : List Bytes}
    (h : ∀ l ∈ ls, lf ∉ l ∧ l.length + 1 < size) (hf : (unlines ls).length ≤ fuel) :
    readLines size fuel (unlines ls) = ls.map (· ++ [lf]) := by
  induction ls generalizing fuel
  case nil => cases fuel <;> rfl
  case cons l ls hi =>
    have ⟨hl, hs⟩ := h l (by simp)
    rw [unlines_cons] at hf ⊢
    simp only [length_append, length_cons] at hf
    cases fuel
    case zero => omega
    case succ fuel =>
      rw [readLines, fgets_line hl (by omega), hi (fun m hm => h m (by simp [hm])) (by omega), map_cons]
      simp

theorem lines_line {l s : Bytes} (h : lf ∉ l) : lines (l ++ lf :: s) = l :: lines s := by
  induction l
  case nil => simp [lines]
  case cons c l hi =>
    rw [mem_cons, not_or] at h
    rw [cons_append, lines, if_neg (Ne.symm h.left), hi h.right]

theorem lines_last {l : Bytes} (h : lf ∉ l) (hn : l ≠ []) : lines l = [l] := by
  induction l
  case nil => exact absurd rfl hn
  case cons c l hi =>
    rw [mem_cons, not_or] at h
    rw [lines, if_neg (Ne.symm h.left)]
    cases l
    case nil      => rfl
    case cons d l => rw [hi h.right (by simp)]

theorem lines_unlines {ls : List Bytes} (h : ∀ l ∈ ls, lf ∉ l) : lines (unlines ls) = ls := by
  induction ls
  case nil => rfl
  case cons l ls hi =>
    rw [forall_mem_cons] at h
    rw [unlines_cons, lines_line h.left, hi h.right]

theorem not_mem_of_mem_lines {l s : Bytes} (h : l ∈ lines s) : lf ∉ l := by
  induction s generalizing l
  case nil => simp [lines] at h
  case cons c s hi =>
    rw [lines] at h
    split at h
    case isTrue =>
      obtain rfl | h := mem_cons.mp h
      · simp
      · exact hi h
    case isFalse hc =>
      split at h
      case h_1 => simp_all [Ne.symm hc]
      case h_2 l' ls hs =>
        obtain rfl | h := mem_cons.mp h
        · rw [mem_cons, not_or]
          exact ⟨Ne.symm hc, hi (hs ▸ mem_cons_self)⟩
        · exact hi (hs ▸ mem_cons_of_mem _ h)

theorem fgets_last {n : Nat} {l : Bytes} (h : lf ∉ l) (hn : l.length < n) : fgets n l = (l, []) := by
  induction l generalizing n
  case nil => cases n <;> rfl
  case cons c l hi =>
    rw [mem_cons, not_or] at h
    cases n
    case zero   => simp at hn
    case succ n => rw [fgets, if_neg (Ne.symm h.left), hi h.right (by simpa using hn)]

theorem readLines_of_ne_nil {size fuel : Nat} {s : Bytes} (hs : s ≠ []) : readLines size (fuel + 1) s =
    (fgets (size - 1) s).1 :: readLines size fuel (fgets (size - 1) s).2 := by
  cases s
  case nil    => exact absurd rfl hs
  case cons _ => rfl

theorem takeWhile_of_not_mem {l : Bytes} (h : lf ∉ l) : l.takeWhile (· ≠ lf) = l :=
  takeWhile_eq_self_iff.mpr fun _ hc => decide_eq_true fun he => h (he ▸ hc)

theorem takeWhile_line {l : Bytes} (h : lf ∉ l) : (l ++ [lf]).takeWhile (· ≠ lf) = l := by
  have hp : ∀ c ∈ l, decide (c ≠ lf) = true := fun _ hc => decide_eq_true fun he => h (he ▸ hc)
  rw [takeWhile_append_of_pos hp]
  simp

-- A line that fits into the buffer is read by one call, with its newline if it has one.
theorem readLines_lines {size fuel : Nat} {s : Bytes} (h : ∀ l ∈ lines s, l.length + 1 < size)
    (hf : s.length ≤ fuel) : (readLines size fuel s).map (takeWhile (· ≠ lf)) = lines s := by
  induction fuel generalizing s
  case zero => simp [length_eq_zero_iff.mp (Nat.le_zero.mp hf), readLines, lines]
  case succ fuel hi =>
    by_cases hs : lf ∈ s
    case pos =>
      obtain ⟨l, t, rfl, hl⟩ := eq_append_cons_of_mem hs
      rw [lines_line hl, forall_mem_cons] at h
      rw [length_append, length_cons] at hf
      rw [readLines_of_ne_nil (by simp), fgets_line hl (by omega), map_cons, takeWhile_line hl, hi h.right (by omega),
        lines_line hl]
    case neg =>
      by_cases hn : s = []
      case pos => simp [hn, readLines, lines]
      case neg =>
        rw [lines_last hs hn, forall_mem_singleton] at h
        rw [readLines_of_ne_nil hn, fgets_last hs (by omega), map_cons, takeWhile_of_not_mem hs, hi (by simp [lines]) (by simp),
          lines_last hs hn]
        rfl

-- What `fgets` puts into the buffer, until the stream is exhausted.
def chunks (size : Nat) (s : Bytes) : List Bytes :=
  readLines size s.length s

-- A stream that ends with a complete line, or is empty.
def Terminated (s : Bytes) : Prop :=
  ∀ c ∈ s.getLast?, c = lf

section Chunks

variable {size n : Nat} {l s t : Bytes}

@[simp]
theorem chunks_nil : chunks size [] = [] := rfl

theorem chunks_of_ne_nil (hs : 1 < size) (h : s ≠ []) :
    chunks size s = (fgets (size - 1) s).1 :: chunks size (fgets (size - 1) s).2 := by
  cases s
  case nil => exact absurd rfl h
  case cons c s =>
    have hc := fgets_consumes (n := size - 1) (c := c) (s := s) (by omega)
    rw [chunks, length_cons, readLines_of_ne_nil h, readLines_fuel hs hc le_rfl, chunks]

theorem fgets_append (h : lf ∈ s) : fgets n (s ++ t) = ((fgets n s).1, (fgets n s).2 ++ t) := by
  induction n generalizing s
  case zero => rfl
  case succ n hi =>
    cases s
    case nil => simp at h
    case cons c s =>
      rw [cons_append, fgets, fgets]
      split
      case isTrue     => rfl
      case isFalse hc =>
        rw [hi ((mem_cons.mp h).resolve_left (Ne.symm hc))]

theorem fgets_suffix : (fgets n s).2 <:+ s := by
  induction n generalizing s
  case zero => exact suffix_rfl
  case succ n hi =>
    cases s
    case nil => exact suffix_rfl
    case cons c s =>
      rw [fgets]
      split
      · exact suffix_cons c s
      · exact hi.trans (suffix_cons c s)

theorem Terminated.of_suffix (h : Terminated s) (ht : t <:+ s) : Terminated t := by
  obtain ⟨r, rfl⟩ := ht
  intro c hc
  exact h c (by rw [getLast?_append, Option.mem_def.mp hc, Option.some_or]; rfl)

theorem Terminated.mem (h : Terminated s) (hs : s ≠ []) : lf ∈ s := by
  have hl := getLast?_eq_some_getLast hs
  exact h _ hl ▸ getLast_mem hs

-- What is read of a file does not depend on the lines that follow.
theorem chunks_append (hs : 1 < size) (h : Terminated s) : chunks size (s ++ t) = chunks size s ++ chunks size t := by
  induction hn : s.length using Nat.strong_induction_on generalizing s
  case h n hi =>
    cases s
    case nil => rfl
    case cons c s =>
      have hc := fgets_consumes (n := size - 1) (c := c) (s := s) (by omega)
      have hi := hi _ (Nat.lt_of_le_of_lt hc (hn ▸ Nat.lt_succ_self _)) (h.of_suffix fgets_suffix) rfl
      rw [chunks_of_ne_nil hs (by simp), chunks_of_ne_nil hs (cons_ne_nil c s), fgets_append (h.mem (by simp)), hi]
      rfl

-- A line that fits into the buffer is read at once.
theorem chunks_line (hl : lf ∉ l) (hf : l.length + 1 < size) : chunks size (l ++ lf :: s) = (l ++ [lf]) :: chunks size s := by
  rw [chunks_of_ne_nil (by omega) (by simp), fgets_line hl (by omega)]

-- A stream without newlines fills the buffer.
theorem fgets_full (hl : lf ∉ l) (hn : n ≤ l.length) : fgets n (l ++ s) = (l.take n, l.drop n ++ s) := by
  induction n generalizing l
  case zero => rfl
  case succ n hi =>
    cases l
    case nil => simp at hn
    case cons c l =>
      rw [mem_cons, not_or] at hl
      rw [cons_append, fgets, if_neg (Ne.symm hl.left), hi hl.right (Nat.le_of_succ_le_succ hn)]
      rfl

-- A line that does not fit is read in two pieces, if it is shorter than two buffers.
theorem chunks_long (hs : 1 < size) (hl : lf ∉ l) (hn : size ≤ l.length + 1) (hf : l.length + 2 < 2 * size) :
    chunks size (l ++ [lf]) = [l.take (size - 1), l.drop (size - 1) ++ [lf]] := by
  have hd : lf ∉ l.drop (size - 1) := fun hm => hl (mem_of_mem_drop hm)
  have hf' : (l.drop (size - 1)).length + 1 < size := by
    rw [length_drop]
    omega
  have hr := chunks_line (s := []) hd hf'
  rw [chunks_of_ne_nil hs (by simp), fgets_full hl (by omega), hr, chunks_nil]

-- The lines of a file are read one after the other.
theorem chunks_unlines {ls : List Bytes} (hs : 1 < size) :
    chunks size (unlines ls) = ls.flatMap fun l => chunks size (l ++ [lf]) := by
  induction ls
  case nil          => rfl
  case cons l ls hi =>
    have ht : Terminated (l ++ [lf]) := by simp [Terminated]
    rw [unlines_cons, append_cons, chunks_append hs ht, hi, flatMap_cons]

theorem chunks_last (hl : lf ∉ l) (hn : l ≠ []) (hf : l.length + 1 < size) : chunks size l = [l] := by
  rw [chunks_of_ne_nil (by omega) hn, fgets_last hl (by omega), chunks_nil]

end Chunks

end Stream

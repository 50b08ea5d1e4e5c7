import HenPlugins.Ini.Theorems.Entry
import HenPlugins.Ini.Theorems.Load

open List CString

namespace Ini

variable {s t text before after lineCopy comment : Bytes} {c d : UInt8} {q : Bool}

-- The quotes in a string that do not stand after a backslash.
def unescapedQuotes (prev : UInt8) : Bytes → Nat
  | []     => 0
  | c :: s => (if (c = dquote ∨ c = squote) ∧ prev ≠ backslash then 1 else 0) + unescapedQuotes c s

-- What stands behind the string is in quotes.
def Quoted (s : Bytes) : Prop :=
  Odd (unescapedQuotes 0 s)

instance : Decidable (Quoted s) :=
  inferInstanceAs (Decidable (Odd _))

theorem unescapedQuotes_cons_of_ne {p p' : UInt8} (hd : d ≠ dquote ∧ d ≠ squote) :
    unescapedQuotes p (d :: s) = unescapedQuotes p' (d :: s) := by
  simp only [unescapedQuotes, hd, or_self, false_and]

theorem inQuotes_eq {p : UInt8} (hp : p ≠ backslash) :
    inQuotes q s = (q ^^ decide (Odd (unescapedQuotes p s))) := by
  induction q, s using inQuotes.induct generalizing p
  case case1 q => simp [inQuotes, unescapedQuotes]
  case case2 q c hc => simp [inQuotes, unescapedQuotes, hc, hp]
  case case3 q c hc => simp [inQuotes, unescapedQuotes, hc]
  case case4 q c d cs hc hi =>
    have hb : c ≠ backslash := by
      rintro rfl
      simp at hc
    have hz : unescapedQuotes p (c :: d :: cs) = unescapedQuotes c (d :: cs) + 1 :=
      (congrArg (· + _) (if_pos ⟨hc, hp⟩)).trans (add_comm ..)
    rw [inQuotes, if_pos hc, hi hb, hz]
    simp only [Nat.odd_add_one, decide_not]
    cases q <;> cases decide (Odd (unescapedQuotes c (d :: cs))) <;> rfl
  case case5 q c d cs hc hb hi =>
    have hd : d ≠ backslash := by
      obtain ⟨_, rfl | rfl⟩ := hb
      all_goals decide
    rw [inQuotes, if_neg hc, if_pos hb, hi hd]
    simp [unescapedQuotes, hb.left]
  case case6 q c d cs hc hb hi =>
    rw [inQuotes, if_neg hc, if_neg hb]
    have hz : unescapedQuotes p (c :: d :: cs) = unescapedQuotes c (d :: cs) := by simp [unescapedQuotes, hc]
    rw [hz]
    by_cases he : c = backslash
    case neg => exact hi he
    case pos =>
      have hd : d ≠ dquote ∧ d ≠ squote := not_or.mp fun hd => hb ⟨he, hd⟩
      rw [@unescapedQuotes_cons_of_ne cs d c 0 hd]
      exact hi (by decide)

theorem inQuotes_iff : inQuotes false s = true ↔ Quoted s := by
  rw [inQuotes_eq (p := 0) (by decide), Quoted, Bool.false_xor, decide_eq_true_iff]

def CommentChar (c : UInt8) : Prop :=
  c = semicolon ∨ c = hash

instance : Decidable (CommentChar c) :=
  inferInstanceAs (Decidable (_ ∨ _))

-- The first comment character of a line outside of quotes, with what stands before and after it.
structure StartsComment (text before : Bytes) (c : UInt8) (after : Bytes) : Prop where
  split    : text = before ++ c :: after
  char     : CommentChar c
  unquoted : ¬Quoted before
  first    : ∀ s d t, before = s ++ d :: t → CommentChar d → Quoted s

theorem exists_startsComment (h : text = s ++ c :: t) (hc : CommentChar c) (hq : ¬Quoted s) :
    ∃ before d after, StartsComment text before d after ∧ before.length ≤ s.length := by
  induction hn : s.length using Nat.strong_induction_on generalizing s c t
  case h n hi =>
    by_cases he : ∃ s' d t', s = s' ++ d :: t' ∧ CommentChar d ∧ ¬Quoted s'
    case neg =>
      refine ⟨s, c, t, ⟨h, hc, hq, fun s' d t' hs hd => ?_⟩, hn.le⟩
      exact not_not.mp fun hq' => he ⟨s', d, t', hs, hd, hq'⟩
    case pos =>
      obtain ⟨s', d, t', rfl, hd, hq'⟩ := he
      have hl : s'.length < n := by
        rw [← hn, length_append, length_cons]
        omega
      have ⟨before, d', after, hf, hb⟩ := hi _ hl (h.trans (append_assoc ..)) hd hq' rfl
      exact ⟨before, d', after, hf, hb.trans hl.le⟩

-- An unquoted comment character does not stand before the first one.
theorem StartsComment.length_le (h : StartsComment text before c after) (hs : text = s ++ d :: t) (hd : CommentChar d)
    (hq : ¬Quoted s) : before.length ≤ s.length := by
  by_contra hl
  have he := h.split.symm.trans hs
  obtain ⟨a, hb, hc⟩ | ⟨a, hb, hc⟩ := append_eq_append_iff.mp he
  case inl => simp [hb] at hl
  case inr =>
    cases a
    case nil => simp [hb] at hl
    case cons e a =>
      obtain ⟨rfl, _⟩ := cons.inj hc
      exact hq (h.first s d a hb hd)

theorem StartsComment.unique {before' after' : Bytes} (h : StartsComment text before c after)
    (h' : StartsComment text before' d after') : before = before' ∧ c = d ∧ after = after' := by
  have hl := Nat.le_antisymm (h.length_le h'.split h'.char h'.unquoted) (h'.length_le h.split h.char h.unquoted)
  have ⟨hb, hc⟩ := append_inj (h.split.symm.trans h'.split) hl
  exact ⟨hb, cons.inj hc⟩

section Split

theorem extractComment_eq_some : extractComment text c = some (lineCopy, comment) ↔
    ∃ after, text = lineCopy ++ c :: after ∧ c ∉ lineCopy ∧ ¬Quoted lineCopy ∧ comment = trimWhitespace after := by
  rw [extractComment]
  constructor
  case mp =>
    intro h
    split at h
    case h_1 => contradiction
    case h_2 before after hs =>
      rw [ite_eq_iff] at h
      obtain ⟨_, h⟩ | ⟨hq, h⟩ := h
      · contradiction
      · obtain ⟨rfl, rfl⟩ := Prod.mk.inj (Option.some.inj h)
        obtain ⟨ht, hc⟩ := strchr_eq_some hs
        exact ⟨after, ht, hc, inQuotes_iff.not.mp hq, rfl⟩
  case mpr =>
    rintro ⟨after, rfl, hc, hq, rfl⟩
    rw [strchr_append hc]
    exact if_neg (inQuotes_iff.not.mpr hq)

theorem extractComment_eq_none :
    extractComment text c = none ↔ ∀ s t, strchr text c = some (s, t) → Quoted s := by
  rw [extractComment]
  split
  case h_1 hs => simp [hs]
  case h_2 before after hs =>
    rw [ite_eq_left_iff, hs]
    simp [inQuotes_iff]

-- The characters that `ini_load` takes for the start of a comment: the first one of their kind, where a semicolon
-- outside of quotes comes first.
def Recognised (text before : Bytes) (c : UInt8) : Prop :=
  c ∉ before ∧ (c = hash → ∀ s t, strchr text semicolon = some (s, t) → Quoted s)

theorem splitComment_of_recognised (h : text = before ++ c :: after) (hc : CommentChar c) (hq : ¬Quoted before)
    (hr : Recognised text before c) : (extractComment text semicolon <|> extractComment text hash) =
      some (before, trimWhitespace after) := by
  have he : extractComment text c = some (before, trimWhitespace after) :=
    extractComment_eq_some.mpr ⟨after, h, hr.left, hq, rfl⟩
  obtain rfl | rfl := hc
  · rw [he]
    rfl
  · rw [extractComment_eq_none.mpr (hr.right rfl), he]
    rfl

theorem recognised_of_some (h : (extractComment text semicolon <|> extractComment text hash) = some (lineCopy, comment)) :
    ∃ c after, text = lineCopy ++ c :: after ∧ CommentChar c ∧ ¬Quoted lineCopy ∧ comment = trimWhitespace after ∧
      Recognised text lineCopy c := by
  cases hs : extractComment text semicolon
  case some p =>
    rw [hs] at h
    obtain rfl := Option.some.inj h
    have ⟨after, ht, hc, hq, he⟩ := extractComment_eq_some.mp hs
    exact ⟨semicolon, after, ht, .inl rfl, hq, he, hc, fun hh => absurd hh (by decide)⟩
  case none =>
    rw [hs] at h
    have ⟨after, ht, hc, hq, he⟩ := extractComment_eq_some.mp h
    exact ⟨hash, after, ht, .inr rfl, hq, he, hc, fun _ => extractComment_eq_none.mp hs⟩

end Split

section Value

-- What stands on a line in front of the value.
def valueStart (text : Bytes) : Bytes :=
  match strchr text equals with
  | none              => text
  | some (key, value) => key ++ equals :: value.takeWhile isspace

theorem parseLine_eq_keyValue {k v : Bytes} (h : parseLine text = .keyValue k v comment) :
    parseKeyValue text = .keyValue k v comment := by
  rw [parseLine] at h
  split at h
  case h_1 => contradiction
  case h_2 =>
    split_ifs at h
    · simp only [parseHeader] at h
      split at h <;> contradiction
    · exact h

-- The value stands where its line says, followed by blanks and what was cut off.
theorem exists_value {k v : Bytes} (h : parseKeyValue text = .keyValue k v comment) :
    comment = (splitComment text).2 ∧ (v ≠ [] → ∃ ws, (∀ c ∈ ws, isspace c) ∧
      (splitComment text).1 = valueStart text ++ (v ++ ws)) := by
  have ⟨rest, ht⟩ : (splitComment text).1 <+: text := splitComment_prefix
  simp only [parseKeyValue] at h
  split at h
  case h_1 => contradiction
  case h_2 key value hs =>
    obtain ⟨rfl, rfl, rfl⟩ := Line.keyValue.inj h
    refine ⟨rfl, fun hv => ?_⟩
    obtain ⟨ws, hw, he⟩ := Trim.takeWhile_append_trim (p := isspace) (l := value)
    have hn : (value.takeWhile isspace).length ≠ value.length := by
      intro hl
      have hl' := congrArg length he
      rw [length_append, length_append, hl] at hl'
      exact hv (length_eq_zero_iff.mp (by rw [trimWhitespace]; omega))
    refine ⟨ws, hw, ?_⟩
    have ht' := strchr_append_right (t := rest) hs
    rw [ht] at ht'
    simp only [valueStart, ht', takeWhile_append, if_neg hn, (strchr_eq_some hs).left, append_assoc, cons_append]
    rw [trimWhitespace, ← he]

end Value

section Inline

-- The comment characters in the value are in quotes where they stand on the line, and what follows the first one
-- that is not is the comment.
structure Inline (text : Bytes) (kv : KeyValue) : Prop where
  value   : ∀ s c t, kv.value.text = s ++ c :: t → CommentChar c → Quoted (valueStart text ++ s)
  comment : ∀ before c after, StartsComment text before c after → kv.comment.text = trimWhitespace after
  none    : (∀ before c after, ¬StartsComment text before c after) → kv.comment.text = []

-- `ini_load` finds no comment, but what it stores is the same as if it did: nothing follows, and as much of the
-- value as is stored stands in front of the comment.
structure Unseen (text before after : Bytes) : Prop where
  unseen : (extractComment text semicolon <|> extractComment text hash) = Option.none
  blank  : trimWhitespace after = []
  beyond : (valueStart text).length + 511 ≤ before.length

-- A line that is read as a key, and what is stored of it.
structure KeyText (text v comment : Bytes) (kv : KeyValue) : Prop where
  parses  : ∃ k, parseKeyValue text = .keyValue k v comment
  value   : kv.value.text = v.take 511
  comment : kv.comment.text = comment.take 511

variable {v : Bytes} {kv : KeyValue}

namespace KeyText

variable (h : KeyText text v comment kv)

include h

-- A character of the stored value, where it stands on the line.
theorem exists_split (hv : kv.value.text = s ++ c :: t) :
    ∃ r, (splitComment text).1 = (valueStart text ++ s) ++ c :: r := by
  have ⟨k, hk⟩ := h.parses
  rw [h.value] at hv
  have ⟨r, he⟩ : ∃ r, v = s ++ c :: (t ++ r) :=
    ⟨v.drop 511, by rw [← cons_append, ← append_assoc, ← hv, take_append_drop]⟩
  have ⟨ws, _, hl⟩ := (exists_value hk).right (by rw [he]; simp)
  exact ⟨t ++ r ++ ws, by rw [hl, he]; simp⟩

-- An unquoted comment character in the value is found or another one before it.
theorem exists_startsComment (hv : kv.value.text = s ++ c :: t) (hc : CommentChar c) (hq : ¬Quoted (valueStart text ++ s)) :
    ∃ before d after, StartsComment text before d after ∧ before.length ≤ (valueStart text ++ s).length ∧
      before.length < (splitComment text).1.length := by
  have ⟨r, hr⟩ := h.exists_split hv
  have ⟨rest, ht⟩ : (splitComment text).1 <+: text := splitComment_prefix
  have ht' : text = (valueStart text ++ s) ++ c :: (r ++ rest) := by
    rw [← cons_append, ← append_assoc, ← hr, ht]
  have ⟨before, d, after, hb, hl⟩ := Ini.exists_startsComment ht' hc hq
  refine ⟨before, d, after, hb, hl, hl.trans_lt ?_⟩
  rw [hr]
  simp

theorem inline_of_not_exists (hn : ∀ before c after, ¬StartsComment text before c after) : Inline text kv where
  comment := fun before c after hb => absurd hb (hn before c after)
  value := by
    intro s c t hv hc
    by_contra hq
    have ⟨before, d, after, hb, _⟩ := h.exists_startsComment hv hc hq
    exact hn before d after hb
  none := by
    intro _
    have ⟨k, hk⟩ := h.parses
    cases he : (extractComment text semicolon <|> extractComment text hash)
    case none =>
      rw [h.comment, (exists_value hk).left, splitComment, he]
      rfl
    case some p =>
      obtain ⟨c, after, ht, hc, hq, _⟩ := recognised_of_some he
      obtain ⟨before, d, after, hb, _⟩ := Ini.exists_startsComment ht hc hq
      exact absurd hb (hn before d after)

-- The first unquoted comment character is the one that is recognised.
theorem inline_iff_of_recognised (hb : StartsComment text before c after) (hr : Recognised text before c) :
    Inline text kv ↔ (trimWhitespace after).length ≤ 511 := by
  have ⟨k, hk⟩ := h.parses
  have hs : splitComment text = (before, trimWhitespace after) := by
    rw [splitComment, splitComment_of_recognised hb.split hb.char hb.unquoted hr, Option.getD_some]
  have hc : kv.comment.text = (trimWhitespace after).take 511 := by
    rw [h.comment, (exists_value hk).left, hs]
  constructor
  case mp => exact fun hi => take_eq_self_iff _ |>.mp <| hc.symm.trans (hi.comment _ _ _ hb)
  case mpr =>
    intro hl
    constructor
    case none    => exact fun hn => absurd hb (hn _ _ _)
    case comment =>
      intro before' c' after' hb'
      obtain ⟨rfl, rfl, rfl⟩ := hb.unique hb'
      rw [hc, take_of_length_le hl]
    case value =>
      intro s d t hv hd
      by_contra hq
      obtain ⟨before', d', after', hb', _, hl⟩ := h.exists_startsComment hv hd hq
      obtain ⟨rfl, _⟩ := hb.unique hb'
      rw [hs] at hl
      exact Nat.lt_irrefl _ hl

theorem comment_of_none (he : (extractComment text semicolon <|> extractComment text hash) = none) :
    splitComment text = (text, []) ∧ kv.comment.text = [] := by
  have ⟨k, hk⟩ := h.parses
  have hs : splitComment text = (text, []) := by rw [splitComment, he, Option.getD_none]
  rw [h.comment, (exists_value hk).left, hs]
  exact ⟨rfl, take_nil⟩

-- If nothing but blanks follows, then the value ends with the comment character.
theorem exists_eq_of_blank (hb : StartsComment text before c after) (ha : trimWhitespace after = [])
    (he : (extractComment text semicolon <|> extractComment text hash) = none) :
    ∃ s, before = valueStart text ++ s ∧ v = s ++ [c] := by
  have ⟨k, hk⟩ := h.parses
  have hn : c ≠ equals ∧ ¬isspace c := by
    obtain rfl | rfl := hb.char
    all_goals decide
  simp only [parseKeyValue, (h.comment_of_none he).left] at hk
  split at hk
  case h_1 => contradiction
  case h_2 key value hs =>
    obtain ⟨_, rfl, _⟩ := Line.keyValue.inj hk
    have ha' := Trim.all_of_trim_eq_nil ha
    have hm : equals ∈ before := by
      have hm : equals ∈ text := by simp [(strchr_eq_some hs).left]
      rw [hb.split, mem_append, mem_cons] at hm
      refine hm.resolve_right fun hm => ?_
      obtain hm | hm := hm
      · exact hn.left hm.symm
      · exact absurd (ha' _ hm) (by decide)
    obtain ⟨key', x, rfl, hk'⟩ := eq_append_cons_of_mem hm
    have hs' := hs
    rw [hb.split, append_assoc, cons_append, strchr_append hk'] at hs'
    obtain ⟨rfl, rfl⟩ := Prod.mk.inj (Option.some.inj hs')
    have ht : (x ++ c :: after).takeWhile isspace = x.takeWhile isspace := by
      rw [takeWhile_append]
      split
      case isFalse    => rfl
      case isTrue hl  => simp [hn.right, ( takeWhile_prefix _).eq_of_length hl]
    refine ⟨x.dropWhile isspace, ?_, ?_⟩
    · simp only [valueStart, hs, ht, append_assoc, cons_append, takeWhile_append_dropWhile]
    · rw [trimWhitespace, append_cons, Trim.trim_append_of_all ha', Trim.trim_concat_of_neg hn.right]

-- No comment is recognised although there is one.
theorem inline_iff_of_none (hb : StartsComment text before c after)
    (he : (extractComment text semicolon <|> extractComment text hash) = none) : Inline text kv ↔ Unseen text before after := by
  have hc := (h.comment_of_none he).right
  constructor
  case mp =>
    intro hi
    have ha := (hi.comment _ _ _ hb).symm.trans hc
    obtain ⟨s, rfl, hv⟩ := h.exists_eq_of_blank hb ha he
    refine ⟨he, ha, ?_⟩
    by_contra hl
    rw [length_append] at hl
    have hs : kv.value.text = s ++ [c] := by
      rw [h.value, hv, take_of_length_le]
      rw [length_append, length_singleton]
      omega
    exact hb.unquoted (hi.value s c [] hs hb.char)
  case mpr =>
    intro hu
    constructor
    case none    => exact fun hn => absurd hb (hn _ _ _)
    case comment =>
      intro before' c' after' hb'
      obtain ⟨rfl, rfl, rfl⟩ := hb.unique hb'
      rw [hc, hu.blank]
    case value =>
      intro s d t hv hd
      by_contra hq
      have ⟨before', d', after', hb', hl, _⟩ := h.exists_startsComment hv hd hq
      obtain ⟨rfl, _⟩ := hb.unique hb'
      have hn := congrArg length hv
      have hu := hu.beyond
      rw [h.value, length_take, length_append, length_cons] at hn
      rw [length_append] at hl
      omega

-- Another comment is recognised, whose text is shorter.
theorem not_inline (hb : StartsComment text before c after)
    (he : (extractComment text semicolon <|> extractComment text hash) = some (lineCopy, s)) (hn : lineCopy ≠ before) :
    ¬Inline text kv := by
  intro hi
  obtain ⟨d, after', ht, hd, hq, rfl, _⟩ := recognised_of_some he
  have ⟨k, hk⟩ := h.parses
  have hc : kv.comment.text = (trimWhitespace after').take 511 := by
    rw [h.comment, (exists_value hk).left, splitComment, he, Option.getD_some]
  have hl := hb.length_le ht hd hq
  obtain ⟨x, hx⟩ : ∃ x, after = x ++ d :: after' := by
    obtain ⟨a, ha, hs⟩ | ⟨a, ha, hs⟩ := append_eq_append_iff.mp (hb.split.symm.trans ht)
    all_goals
      cases a
      case nil => exact absurd (by simp [ha]) hn
    case inl.cons e a =>
      exact ⟨a, (cons.inj hs).right⟩
    case inr.cons e a => simp [ha] at hl
  have hs : ¬isspace d := by
    obtain rfl | rfl := hd
    all_goals decide
  have hlt := @Trim.length_trim_lt _ isspace x after' d hs
  have hle := congrArg length (hc.symm.trans (hi.comment _ _ _ hb))
  rw [length_take, trimWhitespace, trimWhitespace, hx] at hle
  omega

theorem inline_iff_of_starts (hb : StartsComment text before c after) :
    Inline text kv ↔ (Recognised text before c ∧ (trimWhitespace after).length ≤ 511) ∨ Unseen text before after := by
  have hs (hr : Recognised text before c) := splitComment_of_recognised hb.split hb.char hb.unquoted hr
  cases he : (extractComment text semicolon <|> extractComment text hash)
  case none =>
    have hr : ¬Recognised text before c := by
      intro hr
      rw [hs hr] at he
      contradiction
    rw [or_iff_right (fun hr' => hr hr'.left)]
    exact h.inline_iff_of_none hb he
  case some p =>
    have hn : ¬Unseen text before after := by
      intro hn
      rw [hn.unseen] at he
      contradiction
    rw [or_iff_left hn]
    by_cases hp : p.1 = before
    case pos =>
      obtain ⟨d, after', ht, _, _, _, hr⟩ := @recognised_of_some _ p.1 p.2 he
      rw [hp] at ht hr
      obtain ⟨_, hs⟩ := append_inj (hb.split.symm.trans ht) rfl
      obtain ⟨rfl, _⟩ := cons.inj hs
      rw [and_iff_right hr]
      exact h.inline_iff_of_recognised hb hr
    case neg =>
      refine iff_of_false (h.not_inline (s := p.2) hb he hp) fun hr => hp ?_
      rw [hs hr.left] at he
      obtain rfl := Option.some.inj he
      rfl

end KeyText

-- There is at most one character that starts the comment.
theorem inline_iff (h : KeyText text v comment kv) : Inline text kv ↔
    ∀ before c after, StartsComment text before c after →
      (Recognised text before c ∧ (trimWhitespace after).length ≤ 511) ∨ Unseen text before after := by
  by_cases hb : ∃ before c after, StartsComment text before c after
  case neg =>
    have hn : ∀ before c after, ¬StartsComment text before c after :=
      fun before c after hb' => hb ⟨before, c, after, hb'⟩
    exact iff_of_true (h.inline_of_not_exists hn) fun before c after hb => absurd hb (hn before c after)
  case pos =>
    obtain ⟨before, c, after, hb⟩ := hb
    rw [h.inline_iff_of_starts hb]
    refine ⟨fun hr before' c' after' hb' => ?_, fun hr => hr _ _ _ hb⟩
    obtain ⟨rfl, rfl, rfl⟩ := hb.unique hb'
    exact hr

end Inline

theorem Stores.keyText {file line : Bytes} {kv : KeyValue} (h : Stores file line kv) :
    ∃ v comment, KeyText (content line) v comment kv := by
  have ⟨k, v, comment, hr, _, hv, hc⟩ := h.exists_readLine
  have hp : parseKeyValue (content line) = .keyValue k v comment := parseLine_eq_keyValue hr
  have hs : (Line.keyValue k v comment).All (· ⊆ content line) := hp ▸ parseKeyValue_subset
  have ht {s : Bytes} (hs : s ⊆ content line) {n : Nat} : (cstr s).take n = s.take n := by
    rw [cstr_eq_self fun hz => zero_not_mem_content (hs hz)]
  exact ⟨v, comment, ⟨k, hp⟩, by rw [hv]; exact ht hs.right.left, by rw [hc]; exact ht hs.right.right⟩

-- Only the first character of each kind is considered, and semicolons before hashes.
theorem inlineComment_iff (file line : Bytes) (kv : KeyValue) (h : Stores file line kv) :
    Inline (content line) kv ↔ ∀ before c after, StartsComment (content line) before c after →
      (Recognised (content line) before c ∧ (trimWhitespace after).length ≤ 511) ∨
        Unseen (content line) before after := by
  have ⟨v, comment, hk⟩ := h.keyText
  exact inline_iff hk

theorem stores_of_entries {line : Bytes} {kv : KeyValue}
    (h : (iniLoad (some (bytes "[s]\n" ++ line))).entries = [kv]) (hl : lf ∉ line) (hf : line.length ≤ 1022) :
    Stores (bytes "[s]\n" ++ line ++ bytes "\n") line kv where
  stored := by
    have hp : (iniLoad (some (bytes "[s]\n"))).entries = [] := by decide
    exact ⟨bytes "[s]\n", bytes "\n", rfl, fun _ hc => (Option.some.inj hc).symm, fun _ hc => (Option.some.inj hc).symm,
      by rw [h, hp]; rfl⟩
  newline := hl
  fits    := hf

def inlineSample (value comment : String) : KeyValue :=
  { createKey (bytes "k") with value := .strncpy (bytes value), comment := .strncpy (bytes comment) }

theorem inlineComment_sample : Inline (content (bytes "k=v ; c")) (inlineSample "v" "c") := by
  have hs := @stores_of_entries (bytes "k=v ; c") (inlineSample "v" "c") (by decide) (by decide) (by decide)
  refine inlineComment_iff _ _ _ hs |>.mpr fun before c after hb => .inl ⟨?_, ?_⟩
  case refine_1 =>
    -- There is one semicolon and no hash.
    have hc : content (bytes "k=v ; c") = bytes "k=v ; c" := by decide
    have hm : c ∈ content (bytes "k=v ; c") := by
      rw [hb.split]
      simp
    have hn : c ≠ CString.hash := by
      rintro rfl
      revert hm
      decide
    obtain rfl := hb.char.resolve_right hn
    have hn := congrArg (count semicolon) (hc.symm.trans hb.split)
    rw [count_append, count_cons_self] at hn
    have h1 : count semicolon (bytes "k=v ; c") = 1 := by decide
    exact ⟨count_eq_zero.mp (by omega), fun he => absurd he (by decide)⟩
  case refine_2 =>
    have hl : (content (bytes "k=v ; c")).length ≤ 511 := by decide
    have ht : after.length ≤ (content (bytes "k=v ; c")).length := by
      rw [hb.split, length_append, length_cons]
      omega
    exact Trim.length_trim_le.trans (ht.trans hl)

-- The first semicolon is in quotes, so that the second one is not considered.
theorem inlineComment_missed :
    Stores (bytes "[s]\n" ++ bytes "k=';' ; c" ++ bytes "\n") (bytes "k=';' ; c") (inlineSample "';' ; c" "") ∧
      ¬Inline (content (bytes "k=';' ; c")) (inlineSample "';' ; c" "") := by
  refine ⟨stores_of_entries (by decide) (by decide) (by decide), fun hi => ?_⟩
  exact absurd (hi.value (bytes "';' ") semicolon (bytes " c") (by decide) (.inl rfl)) (by decide)

end Ini

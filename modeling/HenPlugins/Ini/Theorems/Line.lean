import HenPlugins.Ini.Load
import HenPlugins.Ini.Save

open List CString

namespace Ini

variable {s before after : Bytes} {c : UInt8}

-- Strings that can be part of a line.
def NoBreak (s : Bytes) : Prop :=
  cr ∉ s ∧ lf ∉ s

-- Strings in which no comment can start and no quote can open.
def Plain (s : Bytes) : Prop :=
  semicolon ∉ s ∧ hash ∉ s ∧ dquote ∉ s ∧ squote ∉ s

instance : Decidable (NoBreak s) :=
  inferInstanceAs (Decidable (_ ∧ _))

instance : Decidable (Plain s) :=
  inferInstanceAs (Decidable (_ ∧ _))

theorem NoBreak.nil : NoBreak [] := by
  simp [NoBreak]

theorem noBreak_append {t : Bytes} : NoBreak (s ++ t) ↔ NoBreak s ∧ NoBreak t := by
  simp only [NoBreak, mem_append, not_or]
  tauto

theorem NoBreak.of_subset {t : Bytes} (h : NoBreak s) (ht : t ⊆ s) : NoBreak t :=
  ⟨fun hc => h.left (ht hc), fun hl => h.right (ht hl)⟩

theorem plain_append {t : Bytes} : Plain (s ++ t) ↔ Plain s ∧ Plain t := by
  simp only [Plain, mem_append, not_or]
  tauto

-- The buffer that `fgets` fills is cut down to the text of the line.
theorem line_text (hz : 0 ∉ s) (hb : NoBreak s) :
    (cstr (s ++ [lf])).takeWhile (fun c => c ≠ cr ∧ c ≠ lf) = s := by
  have hc : cstr (s ++ [lf]) = s ++ [lf] := cstr_eq_self (by simpa using hz)
  have hs : ∀ c ∈ s, (decide (c ≠ cr ∧ c ≠ lf)) = true := by
    intro c hc
    simp only [decide_eq_true_eq]
    exact ⟨fun h => hb.left (h ▸ hc), fun h => hb.right (h ▸ hc)⟩
  rw [hc, takeWhile_append_of_pos hs]
  simp

theorem inQuotes_eq_self {q : Bool} (hd : dquote ∉ s) (hs : squote ∉ s) : inQuotes q s = q := by
  induction q, s using inQuotes.induct <;> grind [inQuotes]

theorem splitComment_eq (hs : semicolon ∉ before) (hq : inQuotes false before = false) :
    splitComment (before ++ semicolon :: after) = (before, trimWhitespace after) := by
  simp [splitComment, extractComment, strchr_append hs, hq]

theorem splitComment_eq_self (hs : semicolon ∉ s) (hh : hash ∉ s) : splitComment s = (s, []) := by
  simp [splitComment, extractComment, strchr_eq_none.mpr hs, strchr_eq_none.mpr hh]

theorem extractComment_append {t : Bytes} (hs : extractComment s c = none) (ht : c ∉ t) :
    extractComment (s ++ t) c = none := by
  rw [extractComment] at hs ⊢
  cases h : strchr s c
  case some p => simp_all [strchr_append_right h]
  case none =>
    have hn : strchr (s ++ t) c = none := by
      rw [strchr_eq_none, mem_append, not_or]
      exact ⟨strchr_eq_none.mp h, ht⟩
    rw [hn]

-- Text without comment characters can be appended to a line without a comment.
theorem splitComment_append {t : Bytes} (hs : extractComment s semicolon = none ∧ extractComment s hash = none)
    (ht : semicolon ∉ t ∧ hash ∉ t) : splitComment (s ++ t) = (s ++ t, []) := by
  rw [splitComment, extractComment_append hs.left ht.left, extractComment_append hs.right ht.right]
  rfl

theorem splitComment_trailing (hp : Plain s) (comment : Buf maxCommentLength) :
    ∃ ws, (∀ c ∈ ws, isspace c) ∧
      splitComment (s ++ trailingComment comment) = (s ++ ws, trimWhitespace comment.text) := by
  have ⟨hs, hh, hd, hq⟩ := hp
  by_cases hc : comment.text.length > 0
  case pos =>
    refine ⟨[space], by simp [isspace], ?_⟩
    have hi := inQuotes_eq_self (q := false) (s := s ++ [space]) (by simp [hd]) (by simp [hq])
    have he : s ++ trailingComment comment = (s ++ [space]) ++ semicolon :: (space :: comment.text) := by
      simp [trailingComment, hc]
    rw [he, splitComment_eq (by simp [hs]) hi, trimWhitespace, Trim.trim_cons_of_pos rfl]
    rfl
  case neg =>
    have hn : comment.text = [] := by simpa using hc
    exact ⟨[], by simp, by simp [trailingComment, hn, splitComment_eq_self hs hh, trimWhitespace]⟩

theorem parseLine_nil : parseLine [] = .comment [] := rfl

theorem parseLine_commentLine (text : Comment) :
    parseLine (commentLine text) = .comment (trimWhitespace text.text) := by
  rw [commentLine]
  split
  case isTrue h =>
    rw [length_eq_zero_iff.mp h]
    rfl
  case isFalse =>
    have hs : ¬isspace semicolon := by decide
    simp only [parseLine, cons_append, nil_append, trimWhitespace, Trim.trim_cons_of_neg hs]
    rw [if_pos (by simp), Trim.trim_rdropWhile, Trim.trim_cons_of_pos rfl]

theorem parseLine_lbracket : parseLine (lbracket :: s) = parseHeader (lbracket :: s) := by
  have hs : ¬isspace lbracket := by decide
  simp only [parseLine, trimWhitespace, Trim.trim_cons_of_neg hs]
  rw [if_neg (by decide), if_pos trivial]

theorem parseLine_headerLine {sec : Section} (hn : Trimmed sec.name.text) (hp : Plain sec.name.text)
    (hb : rbracket ∉ sec.name.text) :
    parseLine sec.headerLine = .header sec.name.text (trimWhitespace sec.comment.text) := by
  have hpl : Plain ([lbracket] ++ sec.name.text ++ [rbracket]) := by
    simp only [plain_append]
    exact ⟨⟨by decide, hp⟩, by decide⟩
  have ⟨ws, _, he⟩ := splitComment_trailing hpl sec.comment
  have hl : [lbracket] ++ sec.name.text ++ [rbracket] ++ ws =
      (lbracket :: sec.name.text) ++ rbracket :: ws := by simp
  have hs : sec.headerLine = lbracket :: (sec.name.text ++ [rbracket] ++ trailingComment sec.comment) := by
    simp [Section.headerLine]
  rw [hs, parseLine_lbracket, ← hs, parseHeader, Section.headerLine, he, hl]
  simp only
  rw [strchr_append (by simp [hb])]
  simp only [drop_succ_cons, drop_zero]
  rw [trimWhitespace, hn]

-- The first character of a key that is neither mistaken for a comment nor for a header.
def KeyStart (c : UInt8) : Prop :=
  c ≠ semicolon ∧ c ≠ hash ∧ c ≠ lbracket

instance : Decidable (KeyStart c) :=
  inferInstanceAs (Decidable (_ ∧ _))

theorem parseLine_key {key : Bytes} (ht : ∀ c ∈ key.head?, ¬isspace c) (hh : ∀ c ∈ key.head?, KeyStart c) :
    parseLine (key ++ space :: equals :: s) = parseKeyValue (key ++ space :: equals :: s) := by
  -- A line with an empty key starts with the equals sign once it is trimmed.
  have ⟨d, l, hd, hl⟩ : ∃ d l, KeyStart d ∧ trimWhitespace (key ++ space :: equals :: s) = d :: l := by
    cases key
    case nil =>
      have he : ¬isspace equals := by decide
      exact ⟨equals, _, by decide, (Trim.trim_cons_of_pos rfl).trans (Trim.trim_cons_of_neg he)⟩
    case cons d key => exact ⟨d, _, hh d rfl, Trim.trim_cons_of_neg (ht d rfl)⟩
  rw [parseLine, hl]
  simp only
  rw [if_neg (by simp [hd.left, hd.right.left]), if_neg hd.right.right]

theorem parseKeyValue_eq {key value ws line comment : Bytes} (hk : Trimmed key) (he : equals ∉ key)
    (hv : Trimmed value) (hw : ∀ c ∈ ws, isspace c)
    (hs : splitComment line = (key ++ [space, equals, space] ++ value ++ ws, comment)) :
    parseKeyValue line = .keyValue key value comment := by
  have hl : key ++ [space, equals, space] ++ value ++ ws =
      (key ++ [space]) ++ equals :: (space :: (value ++ ws)) := by simp
  have hk' : trimWhitespace (key ++ [space]) = key := hk.trim_append (by simp [isspace])
  have hv' : trimWhitespace (space :: (value ++ ws)) = value := hv.trim_cons_append rfl hw
  simp only [parseKeyValue, hs, hl]
  rw [strchr_append (by simpa using he)]
  simp only [hk', hv']

theorem parseLine_keyLine {kv : KeyValue} (hk : Trimmed kv.key.text) (hv : Trimmed kv.value.text)
    (hpk : Plain kv.key.text) (hpv : Plain kv.value.text) (he : equals ∉ kv.key.text)
    (hh : ∀ c ∈ kv.key.text.head?, KeyStart c) :
    parseLine kv.keyLine = .keyValue kv.key.text kv.value.text (trimWhitespace kv.comment.text) := by
  have hp : Plain (kv.key.text ++ [space, equals, space] ++ kv.value.text) := by
    simp only [plain_append]
    exact ⟨⟨hpk, by decide⟩, hpv⟩
  have ⟨ws, hws, hs⟩ := splitComment_trailing hp kv.comment
  have hl : parseLine kv.keyLine = parseKeyValue kv.keyLine := by
    simp only [KeyValue.keyLine, append_assoc, cons_append, nil_append]
    exact parseLine_key hk.head?_neg hh
  rw [hl]
  exact parseKeyValue_eq hk he hv hws hs

end Ini

import HenPlugins.Ini.Theorems.Entry

open List CString

namespace Ini

variable {s t text before after ws name comment : Bytes} {c : UInt8} {q : Bool}

-- Spaces and tabs
def Blank (s : Bytes) : Prop :=
  ∀ c ∈ s, c = space ∨ c = tab

instance : Decidable (Blank s) :=
  List.decidableBAll (fun c => c = space ∨ c = tab) s

theorem Blank.isspace (h : Blank s) : ∀ c ∈ s, isspace c := by
  intro c hc
  obtain rfl | rfl := h c hc
  · rfl
  · rfl

theorem Blank.not_mem (h : Blank s) (hc : ¬CString.isspace c) : c ∉ s :=
  fun hm => hc (h.isspace c hm)

theorem strchr_pad (hb : c ∉ before) (ha : c ∉ after) :
    strchr (before ++ (text ++ after)) c = (strchr text c).map fun (s, t) => (before ++ s, t ++ after) := by
  cases h : strchr text c
  case some p =>
    have ⟨ht, hc⟩ := strchr_eq_some h
    have hn : c ∉ before ++ p.1 := by
      rw [mem_append, not_or]
      exact ⟨hb, hc⟩
    have he : before ++ (text ++ after) = (before ++ p.1) ++ c :: (p.2 ++ after) := by simp [ht]
    rw [he, strchr_append hn]
    rfl
  case none =>
    rw [Option.map_none, strchr_eq_none, mem_append, mem_append, not_or, not_or]
    exact ⟨hb, strchr_eq_none.mp h, ha⟩

theorem inQuotes_pad (h : Blank s) : inQuotes q (s ++ t) = inQuotes q t := by
  induction s
  case nil          => rfl
  case cons c s hi =>
    have hc : c ≠ dquote ∧ c ≠ squote ∧ c ≠ backslash := by
      obtain rfl | rfl := h c mem_cons_self
      all_goals decide
    have hi := hi fun d hd => h d (mem_cons_of_mem c hd)
    rw [← hi, cons_append]
    cases s ++ t <;> simp [inQuotes, hc]

theorem trim_pad (hb : Blank before) (ha : Blank after) : trimWhitespace (before ++ (text ++ after)) = trimWhitespace text := by
  rw [trimWhitespace, Trim.trim, dropWhile_append_of_pos hb.isspace]
  exact Trim.trim_append_of_all ha.isspace

theorem extractComment_pad (hb : Blank before) (ha : Blank after) (hc : ¬isspace c) :
    extractComment (before ++ (text ++ after)) c = (extractComment text c).map fun (s, t) => (before ++ s, t) := by
  simp only [extractComment, strchr_pad (hb.not_mem hc) (ha.not_mem hc)]
  cases strchr text c
  case none   => rfl
  case some p =>
    simp only [Option.map_some, inQuotes_pad hb]
    split
    · rfl
    · rw [trimWhitespace, Trim.trim_append_of_all ha.isspace]
      rfl

-- Blanks at the ends of a line stay at the ends of what is left of it without its comment.
theorem splitComment_pad (hb : Blank before) (ha : Blank after) : ∃ ws, Blank ws ∧
    splitComment (before ++ (text ++ after)) = (before ++ ((splitComment text).1 ++ ws), (splitComment text).2) := by
  rw [splitComment, extractComment_pad hb ha (by decide), extractComment_pad hb ha (by decide), splitComment]
  cases extractComment text semicolon
  case some p => exact ⟨[], by simp [Blank], by simp⟩
  case none   =>
    cases extractComment text CString.hash
    case some p => exact ⟨[], by simp [Blank], by simp⟩
    case none   => exact ⟨after, ha, rfl⟩

theorem parseKeyValue_pad (hb : Blank before) (ha : Blank after) :
    parseKeyValue (before ++ (text ++ after)) = parseKeyValue text := by
  have ⟨ws, hw, hs⟩ := @splitComment_pad text _ _ hb ha
  simp only [parseKeyValue, hs, strchr_pad (hb.not_mem (c := equals) (by decide)) (hw.not_mem (c := equals) (by decide))]
  cases strchr (splitComment text).1 equals
  case none   => rfl
  case some p =>
    have hk : trimWhitespace (before ++ p.1) = trimWhitespace p.1 := by
      have h := @trim_pad p.1 _ [] hb (by simp [Blank])
      rwa [append_nil] at h
    simp only [Option.map_some, hk]
    rw [trimWhitespace, trimWhitespace, Trim.trim_append_of_all hw.isspace, trimWhitespace]

-- What stands between the bracket at the beginning of a line and the one that closes it.
def headerName (text : Bytes) : Option Bytes :=
  if text.head? = some lbracket then (strchr (splitComment text).1 rbracket).map fun p => p.1.drop 1 else none

section Header

variable {cs nm rest : Bytes}

-- The bracket stands behind the blanks at the beginning of the line.
theorem exists_header (ht : trimWhitespace text = lbracket :: cs)
    (hs : strchr (splitComment text).1 rbracket = some (name, rest)) :
    ∃ ws nm, name = ws ++ lbracket :: nm ∧ (∀ c ∈ ws, isspace c) ∧ (ws = [] ↔ text.head? = some lbracket) := by
  have ⟨t, _, he⟩ := Trim.takeWhile_append_trim (p := isspace) (l := text)
  have hw : ∀ c ∈ text.takeWhile isspace, isspace c := fun _ => mem_takeWhile_imp
  generalize text.takeWhile isspace = ws at he hw
  rw [← trimWhitespace, ht, cons_append] at he
  obtain ⟨y, hy⟩ : (splitComment text).1 <+: text := splitComment_prefix
  rw [(strchr_eq_some hs).left, he, append_assoc, cons_append] at hy
  have hh : ws = [] ↔ text.head? = some lbracket := by
    rw [he]
    cases ws
    case nil         => simp
    case cons c ws =>
      have hc : c ≠ lbracket := by
        rintro rfl
        exact absurd (hw _ mem_cons_self) (by decide)
      simpa using hc
  obtain ⟨a, ha, hl⟩ | ⟨a, ha, hl⟩ := append_eq_append_iff.mp hy
  case inl =>
    cases a
    case nil => simp at hl
    case cons d a =>
      obtain ⟨rfl, _⟩ := cons.inj hl
      exact absurd (hw rbracket (by simp [ha])) (by decide)
  case inr =>
    cases a
    case nil => simp at hl
    case cons d a =>
      obtain ⟨rfl, _⟩ := cons.inj hl
      exact ⟨ws, a, ha, hw, hh⟩

-- The first blank is skipped as if it was the bracket.
theorem trim_drop (hw : ∀ c ∈ ws, isspace c) (hn : ws ≠ []) :
    trimWhitespace ((ws ++ lbracket :: nm).drop 1) = trimWhitespace (lbracket :: nm) := by
  obtain ⟨c, ws, rfl⟩ := exists_cons_of_ne_nil hn
  rw [cons_append, drop_one, tail_cons, trimWhitespace, Trim.trim, dropWhile_append_of_pos]
  · rfl
  · exact fun d hd => hw d (mem_cons_of_mem c hd)

theorem parseHeader_pad (hb : Blank before) (ha : Blank after) (ht : trimWhitespace text = lbracket :: cs)
    (hn : before = [] ∨ headerName text = none) : parseHeader (before ++ (text ++ after)) = parseHeader text := by
  have ⟨ws, hw, hs⟩ := @splitComment_pad text _ _ hb ha
  simp only [parseHeader, hs, strchr_pad (hb.not_mem (c := rbracket) (by decide)) (hw.not_mem (c := rbracket) (by decide))]
  cases hc : strchr (splitComment text).1 rbracket
  case none   => rfl
  case some p =>
    obtain ⟨name, rest⟩ := p
    simp only [Option.map_some]
    obtain rfl | hn := hn
    case inl => rfl
    case inr =>
      obtain ⟨bs, nm, rfl, hbs, hh⟩ := exists_header ht hc
      have hz : bs ≠ [] := by
        rw [Ne, hh]
        intro hh
        rw [headerName, if_pos hh, hc] at hn
        contradiction
      have ha : ∀ c ∈ before ++ bs, isspace c := by
        simp only [mem_append]
        exact fun c hc => hc.elim (hb.isspace c) (hbs c)
      rw [trim_drop hbs hz, ← append_assoc, trim_drop ha (by simp [hz])]

-- If the line begins with the bracket, then the bracket becomes part of the name.
theorem parseHeader_indented (hb : Blank before) (ha : Blank after) (ht : trimWhitespace text = lbracket :: cs)
    (hz : before ≠ []) (hn : headerName text = some nm) : ∃ comment,
      parseHeader text = .header (trimWhitespace nm) comment ∧
      parseHeader (before ++ (text ++ after)) = .header (trimWhitespace (lbracket :: nm)) comment := by
  rw [headerName] at hn
  split at hn
  case isFalse   => contradiction
  case isTrue hh =>
    obtain ⟨p, hc, rfl⟩ := Option.map_eq_some_iff.mp hn
    obtain ⟨name, rest⟩ := p
    obtain ⟨bs, nm, rfl, hbs, he⟩ := exists_header ht hc
    obtain rfl := he.mpr hh
    have ⟨ws, hw, hs⟩ := @splitComment_pad text _ _ hb ha
    simp only [parseHeader, hs, strchr_pad (hb.not_mem (c := rbracket) (by decide)) (hw.not_mem (c := rbracket) (by decide)),
      hc, Option.map_some, nil_append, trim_drop hb.isspace hz]
    exact ⟨_, rfl, rfl⟩

end Header

section Line

variable {cs nm : Bytes}

theorem parseLine_pad (hb : Blank before) (ha : Blank after) (hn : before = [] ∨ headerName text = none) :
    parseLine (before ++ (text ++ after)) = parseLine text := by
  rw [parseLine, trim_pad hb ha, parseLine]
  cases ht : trimWhitespace text
  case nil => rfl
  case cons c cs =>
    by_cases hc : c = lbracket
    case neg => simp only [hc, if_false, parseKeyValue_pad hb ha]
    case pos =>
      subst hc
      simp only [parseHeader_pad hb ha ht hn, if_true]

theorem parseLine_indented (hb : Blank before) (ha : Blank after) (hz : before ≠ []) (hn : headerName text = some nm) :
    ∃ comment, parseLine text = .header (trimWhitespace nm) comment ∧
      parseLine (before ++ (text ++ after)) = .header (trimWhitespace (lbracket :: nm)) comment := by
  have ⟨cs, ht⟩ : ∃ cs, trimWhitespace text = lbracket :: cs := by
    rw [headerName] at hn
    split at hn
    case isFalse   => contradiction
    case isTrue hh =>
      obtain ⟨s, rfl⟩ : ∃ s, text = lbracket :: s := by
        cases text <;> simp_all
      exact ⟨_, Trim.trim_cons_of_neg (by decide)⟩
  have hl {s : Bytes} (hs : trimWhitespace s = lbracket :: cs) : parseLine s = parseHeader s := by
    simp [parseLine, hs]
  rw [hl ht, hl ((trim_pad hb ha).trans ht)]
  exact parseHeader_indented hb ha ht hz hn

end Line

-- A line, and the blanks that are put in front of it and behind it. It may end with a carriage return.
structure Padded where
  before : Bytes
  text   : Bytes
  after  : Bytes
  ending : Bytes
  blank  : Blank before ∧ Blank after
  ends   : ending = [] ∨ ending = [cr]

def Padded.line (p : Padded) : Bytes :=
  p.text ++ p.ending

def Padded.padded (p : Padded) : Bytes :=
  p.before ++ (p.text ++ (p.after ++ p.ending))

-- Nothing is put in front of a bracket at the beginning of a line that is closed, or the name of the section is the
-- same with the bracket as a part of it, as far as it is stored.
def Padded.Harmless (p : Padded) : Prop :=
  p.before = [] ∨ ∀ name ∈ headerName (content p.line),
    (Buf.strncpy (trimWhitespace (lbracket :: name)) : Buf maxSectionLength) = .strncpy (trimWhitespace name)

theorem content_eq {line : Bytes} : content line = line.takeWhile fun c => c ≠ 0 ∧ c ≠ cr ∧ c ≠ lf := by
  simp only [content, cstr, takeWhile_takeWhile]
  congr 1
  funext c
  by_cases hc : c = 0
  all_goals simp [hc]

theorem content_append_cr (h : t = [] ∨ t = [cr]) : content (s ++ t) = content s := by
  obtain rfl | rfl := h
  case inl => rw [append_nil]
  case inr =>
    rw [content_eq, content_eq, takeWhile_append]
    split
    case isFalse   => rfl
    case isTrue hl =>
      rw [( takeWhile_prefix _).eq_of_length hl]
      simp

-- What stands behind a carriage return is not read.
theorem Padded.content_padded {p : Padded} : ∃ ws, Blank ws ∧ content p.padded = p.before ++ (content p.line ++ ws) := by
  have h {s : Bytes} (hs : Blank s) : ∀ c ∈ s, decide (c ≠ 0 ∧ c ≠ cr ∧ c ≠ lf) := by
    intro c hc
    obtain rfl | rfl := hs c hc
    all_goals decide
  rw [line, content_append_cr p.ends, padded, ← append_assoc p.text, ← append_assoc, content_append_cr p.ends,
    content_eq, content_eq, takeWhile_append_of_pos (h p.blank.left), takeWhile_append]
  split
  case isFalse   => exact ⟨[], by simp [Blank], by simp⟩
  case isTrue hl =>
    refine ⟨p.after, p.blank.right, ?_⟩
    rw [( takeWhile_prefix _).eq_of_length hl, takeWhile_eq_self_iff.mpr (h p.blank.right)]

section Names

variable {ls : List Line} {ini : INIFile} {p : Padded} {ps : List Padded} {file file' : Bytes}

-- The name that a header gives to its section.
def Line.sectionName : Line → Option (Buf maxSectionLength)
  | .header name _ => some (.strncpy name)
  | _              => none

theorem INIFile.names_setPendingComments {cs : List Comment} :
    (ini.setPendingComments cs).sections.map (·.name) = ini.sections.map (·.name) := by
  cases h : ini.sections <;> simp [setPendingComments, h]

-- Every header adds a section, and no section is removed.
theorem INIFile.names_foldl_load : (ls.foldl load ini).sections.map (·.name) =
    (ls.filterMap Line.sectionName).reverse ++ ini.sections.map (·.name) := by
  induction ls generalizing ini
  case nil          => rfl
  case cons l ls hi =>
    rw [foldl_cons, hi]
    cases l
    case comment text => rw [filterMap_cons_none rfl, load, addPendingComment, names_setPendingComments]
    case ignored      => rfl
    case header name comment =>
      have hn : (Line.header name comment).sectionName = some (.strncpy name) := rfl
      rw [filterMap_cons_some hn, load_header, map_cons, dropPending, names_setPendingComments]
      simp [createSection]
    case keyValue k v comment =>
      rw [filterMap_cons_none rfl]
      cases hs : ini.sections <;> simp [load, loadKeyValue, hs]

theorem forall_eq_of_filterMap_eq {α β : Type*} {f g : α → Option β} {l : List α}
    (hs : ∀ a ∈ l, (f a).isSome = (g a).isSome) (h : l.filterMap f = l.filterMap g) : ∀ a ∈ l, f a = g a := by
  induction l
  case nil         => simp
  case cons a l hi =>
    rw [forall_mem_cons] at hs ⊢
    have ha := hs.left
    rw [filterMap_cons, filterMap_cons] at h
    cases hf : f a <;> cases hg : g a <;> simp only [hf, hg, Option.isSome_none, Option.isSome_some] at ha h
    case none.none => exact ⟨rfl, hi hs.right h⟩
    case some.some =>
      obtain ⟨rfl, ht⟩ := cons.inj h
      exact ⟨rfl, hi hs.right ht⟩
    all_goals contradiction

theorem Padded.parses : readLine p.padded = readLine p.line ∨ ∃ name comment, p.before ≠ [] ∧
    headerName (content p.line) = some name ∧ readLine p.line = .header (trimWhitespace name) comment ∧
      readLine p.padded = .header (trimWhitespace (lbracket :: name)) comment := by
  have ⟨ws, hw, hc⟩ := p.content_padded
  rw [readLine_eq, hc, readLine_eq]
  by_cases hb : p.before = []
  case pos => exact .inl <| parseLine_pad p.blank.left hw (.inl hb)
  case neg =>
    cases hn : headerName (content p.line)
    case none      => exact .inl <| parseLine_pad p.blank.left hw (.inr hn)
    case some name =>
      have ⟨comment, h, h'⟩ := parseLine_indented p.blank.left hw hb hn
      exact .inr ⟨name, comment, hb, rfl, h, h'⟩

theorem Padded.harmless_iff : p.Harmless ↔ (readLine p.padded).sectionName = (readLine p.line).sectionName := by
  have ⟨ws, hw, hc⟩ := p.content_padded
  by_cases hb : p.before = []
  case pos =>
    rw [readLine_eq, hc, readLine_eq, parseLine_pad p.blank.left hw (.inl hb)]
    exact iff_of_true (.inl hb) rfl
  case neg =>
    rw [readLine_eq, hc, readLine_eq, Harmless, or_iff_right hb]
    cases hn : headerName (content p.line)
    case none =>
      rw [parseLine_pad p.blank.left hw (.inr hn)]
      simp
    case some name =>
      obtain ⟨comment, h, h'⟩ := parseLine_indented p.blank.left hw hb hn
      rw [h, h']
      simp [Line.sectionName]

theorem Padded.Harmless.load_eq (h : p.Harmless) : ini.load (readLine p.padded) = ini.load (readLine p.line) := by
  obtain he | ⟨name, comment, hb, hn, hr, hr'⟩ := p.parses
  case inl => rw [he]
  case inr =>
    have he := h.resolve_left hb name hn
    rw [hr, hr', INIFile.load_header, INIFile.load_header, createSection, createSection, he]

theorem Padded.isSome_sectionName :
    (readLine p.padded).sectionName.isSome = (readLine p.line).sectionName.isSome := by
  obtain he | ⟨name, comment, _, _, hr, hr'⟩ := p.parses
  case inl => rw [he]
  case inr => rw [hr, hr']; rfl

end Names

-- Blanks in front of the bracket of a header get into the name, but nothing else depends on them.
theorem iniLoad_indent_iff (file file' : Bytes) (ps : List Padded) (h : Stream.lines file = ps.map (·.line))
    (h' : Stream.lines file' = ps.map (·.padded)) (hl : ∀ p ∈ ps, p.padded.length ≤ 1022) :
    iniLoad (some file') = iniLoad (some file) ↔ ∀ p ∈ ps, p.Harmless := by
  have hf : iniLoad (some file) = (ps.map fun p => readLine p.line).foldl .load .empty := by
    rw [iniLoad_lines, h, map_map]
    · rfl
    · simp only [h, forall_mem_map]
      intro p hp
      have hn := hl p hp
      simp only [Padded.padded, length_append] at hn
      simp only [Padded.line, length_append, maxLineLength]
      omega
  have hf' : iniLoad (some file') = (ps.map fun p => readLine p.padded).foldl .load .empty := by
    rw [iniLoad_lines, h', map_map]
    · rfl
    · simp only [h', forall_mem_map]
      exact fun p hp => Nat.succ_lt_succ (Nat.lt_succ_of_le (hl p hp))
  constructor
  case mpr =>
    intro hp
    rw [hf, hf', foldl_map, foldl_map]
    exact foldl_ext _ _ _ fun ini p hm => (hp p hm).load_eq
  case mp =>
    intro he p hp
    have hn := congrArg (·.sections.map (·.name)) he
    simp only [hf, hf', INIFile.names_foldl_load, append_cancel_right_eq, reverse_inj, filterMap_map] at hn
    rw [Padded.harmless_iff]
    exact forall_eq_of_filterMap_eq (fun _ _ => Padded.isSome_sectionName) hn p hp

def indentSample : List Padded := [
  { before := [], text := bytes "[a] ; b", after := bytes " ", ending := [], blank := by decide, ends := .inl rfl },
  { before := [tab], text := bytes "k = v", after := [tab], ending := [cr], blank := by decide, ends := .inr rfl }]

theorem iniLoad_indent_sample :
    iniLoad (bytes "[a] ; b \n\tk = v\t\r\n") = iniLoad (bytes "[a] ; b\nk = v\r\n") := by
  refine iniLoad_indent_iff _ _ indentSample (by decide) (by decide) (by decide) |>.mpr ?_
  simp only [indentSample, forall_mem_cons, not_mem_nil, false_implies, implies_true, and_true]
  exact ⟨.inl rfl, .inr (by decide)⟩

-- The name of the section is `[a` once there is a blank in front of its bracket.
theorem iniLoad_indented :
    Stream.lines (bytes "[a]\n") = [bytes "[a]"] ∧ Stream.lines (bytes " [a]\n") = [bytes " " ++ bytes "[a]"] ∧
    (iniLoad (bytes "[a]\n")).sections.map (·.id) = [bytes "a"] ∧
    (iniLoad (bytes " [a]\n")).sections.map (·.id) = [bytes "[a"] ∧
    iniLoad (bytes " [a]\n") ≠ iniLoad (bytes "[a]\n") := by
  decide

end Ini

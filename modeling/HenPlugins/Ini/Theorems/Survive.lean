import HenPlugins.Ini.Theorems.Parsed

open List CString

namespace Ini

variable {ini : INIFile} {sec : Section} {kv : KeyValue} {cs : List Comment} {c : Comment} {l file text : Bytes}
  {pre post : List Bytes}

-- The comment of a line that holds nothing else.
def fullLineComment (line : Bytes) : Option Bytes :=
  match trimWhitespace line with
  | []      => none
  | c :: cs => if c = semicolon ∨ c = hash then some (trimWhitespace cs) else none

def fullLineComments (file : Bytes) : List Bytes :=
  (Stream.lines file).filterMap fullLineComment

-- A comment between other lines can be reached as a whole and is written back as a comment. Without it, there would be
-- one comment less in the structure and in the saved file.
structure Survives (file : Bytes) (pre post : List Bytes) (text : Bytes) : Prop where
  whole : (Buf.strncpy text : Comment).text = text
  once  : (iniLoad (some file)).comments ~
    .strncpy text :: (iniLoad (some (Stream.unlines (pre ++ post)))).comments
  saved : fullLineComments (iniSave (iniLoad (some file))) ~
    text :: fullLineComments (iniSave (iniLoad (some (Stream.unlines (pre ++ post)))))

-- A line is cut off at a carriage return, so there may be less of the comment.
theorem exists_readLine_eq {text : Bytes} (h : fullLineComment l = some text) :
    ∃ text', readLine l = .comment text' ∧ text'.length ≤ text.length ∧ 0 ∉ text' := by
  have hc : ((cstr l).takeWhile fun c => c ≠ cr ∧ c ≠ lf) <+: cstr l := takeWhile_prefix _
  have hp : ((cstr l).takeWhile fun c => c ≠ cr ∧ c ≠ lf) <+: l := hc.trans <| takeWhile_prefix _
  have ht : trimWhitespace ((cstr l).takeWhile fun c => c ≠ cr ∧ c ≠ lf) <+: trimWhitespace l := Trim.trim_prefix hp
  have hz : 0 ∉ trimWhitespace ((cstr l).takeWhile fun c => c ≠ cr ∧ c ≠ lf) := fun h0 =>
    zero_not_mem_cstr <| hc.mem <| Trim.mem_of_mem_trim h0
  rw [readLine, parseLine]
  rw [fullLineComment] at h
  split at h
  case h_1 => simp at h
  case h_2 c cs hs =>
    split at h
    case isFalse => simp at h
    case isTrue hc =>
      have h := Option.some.inj h
      rw [hs] at ht
      split
      case h_1 => exact ⟨[], rfl, Nat.zero_le _, not_mem_nil⟩
      case h_2 c' cs' hs' =>
        rw [hs'] at ht hz
        obtain ⟨he, hp⟩ := cons_prefix_cons.mp ht
        have hz' : 0 ∉ trimWhitespace cs' := fun h0 => hz (mem_cons_of_mem _ (Trim.mem_of_mem_trim h0))
        rw [if_pos (he ▸ hc)]
        have hl : trimWhitespace cs' <+: trimWhitespace cs := Trim.trim_prefix hp
        exact ⟨_, rfl, h ▸ hl.length_le, hz'⟩

theorem trimmed_of_fullLineComment (h : fullLineComment l = some text) : Trimmed text := by
  rw [fullLineComment] at h
  split at h
  case h_1 => simp at h
  case h_2 =>
    split at h
    case isFalse => simp at h
    case isTrue  => exact Option.some.inj h ▸ Trim.trimmed_trim

section Saved

theorem fullLineComment_of_readLine (h : ∀ text, readLine l ≠ .comment text) : fullLineComment l = none := by
  cases hf : fullLineComment l
  case none      => rfl
  case some text =>
    obtain ⟨text', hr, _⟩ := exists_readLine_eq hf
    exact absurd hr (h text')

-- An empty comment is written as an empty line.
theorem fullLineComment_commentLine :
    fullLineComment (commentLine c) = if c.text = [] then none else some (trimWhitespace c.text) := by
  rw [commentLine]
  simp only [length_eq_zero_iff]
  split_ifs with h
  case pos => rfl
  case neg =>
    have hs : ¬isspace semicolon := by decide
    simp only [fullLineComment, cons_append, nil_append, trimWhitespace, Trim.trim_cons_of_neg hs]
    rw [if_pos (by simp), Trim.trim_rdropWhile, Trim.trim_cons_of_pos rfl]

theorem fullLineComment_headerLine (h : sec.NoBreaks) (hp : sec.Parsed) : fullLineComment sec.headerLine = none := by
  have hr := readable_headerLine h
  obtain ⟨comment, he⟩ := parseLine_headerLine_parsed hp
  refine fullLineComment_of_readLine fun text => ?_
  rw [readLine_self hr.terminated hr.noBreak, he]
  split <;> simp

theorem fullLineComment_keyLine (h : kv.NoBreaks) (hp : kv.Parsed) : fullLineComment kv.keyLine = none := by
  have hl : kv.keyLine = (kv.id ++ [space]) ++ equals :: (space :: (kv.value.text ++ trailingComment kv.comment)) := by
    simp [KeyValue.keyLine]
  obtain ⟨value, comment, he⟩ := parseLine_entry hp hl
  refine fullLineComment_of_readLine fun text => ?_
  rw [readLine_self zero_not_mem_keyLine (noBreak_keyLine h), he]
  split <;> simp

theorem noBreak_lines (h : ini.NoBreaks) : ∀ l ∈ ini.lines, NoBreak l := by
  have hc {cs : List Comment} (hc : ∀ c ∈ cs, NoBreak c.text) : ∀ l ∈ cs.map commentLine, NoBreak l :=
    forall_mem_map.mpr fun c hm => (readable_commentLine (hc c hm)).noBreak
  intro l hl
  simp only [INIFile.lines, Section.lines, KeyValue.lines, mem_append, mem_flatMap, mem_singleton] at hl
  obtain hl | ⟨sec, hs, ((hl | rfl) | ⟨kv, hk, hl | rfl⟩) | rfl⟩ := hl
  · exact hc h.headerComments l hl
  · exact hc (h.sections sec hs).commentsBefore l hl
  · exact (readable_headerLine (h.sections sec hs)).noBreak
  · exact hc ((h.sections sec hs).keys kv hk).commentsBefore l hl
  · exact noBreak_keyLine ((h.sections sec hs).keys kv hk)
  · exact .nil

-- The full-line comments of the saved file are the comments of the structure.
theorem fullLineComments_iniSave (h : ini.NoBreaks) (hp : ini.Parsed) :
    fullLineComments (iniSave ini) = ini.comments.filterMap (fullLineComment ∘ commentLine) := by
  rw [fullLineComments, iniSave, Stream.lines_unlines fun l hl => (noBreak_lines h l hl).right, INIFile.lines,
    INIFile.comments, filterMap_append, filterMap_append, filterMap_map, filterMap_flatMap, filterMap_flatMap]
  refine congrArg _ (flatMap_congr fun sec hs => ?_)
  have hk : ∀ kv ∈ sec.keys, kv.lines.filterMap fullLineComment =
      kv.commentsBefore.filterMap (fullLineComment ∘ commentLine) := fun kv hk => by
    rw [KeyValue.lines, filterMap_append, filterMap_map, filterMap_cons_none, filterMap_nil, append_nil]
    exact fullLineComment_keyLine ((h.sections sec hs).keys kv hk) ((hp sec hs).keys kv hk)
  have hn : [([] : Bytes)].filterMap fullLineComment = [] := rfl
  have hh : [sec.headerLine].filterMap fullLineComment = [] :=
    filterMap_cons_none (fullLineComment_headerLine (h.sections sec hs) (hp sec hs))
  rw [Section.lines, Section.comments, filterMap_append, filterMap_append, filterMap_append, filterMap_append,
    filterMap_map, filterMap_flatMap, filterMap_flatMap, hh, hn, append_nil, append_nil, flatMap_congr hk]

-- One comment more in the structure is one comment more in the saved file.
theorem fullLineComments_perm {file' : Bytes} (hw : (Buf.strncpy text : Comment).text = text)
    (h : (iniLoad (some file)).comments ~ .strncpy text :: (iniLoad (some file')).comments) :
    fullLineComments (iniSave (iniLoad (some file))) ~
      (if text = [] then id else cons (trimWhitespace text)) (fullLineComments (iniSave (iniLoad (some file')))) := by
  rw [fullLineComments_iniSave (iniLoad_noBreaks _) (iniLoad_parsed _),
    fullLineComments_iniSave (iniLoad_noBreaks _) (iniLoad_parsed _)]
  refine (h.filterMap _).trans (.of_eq ?_)
  rw [filterMap_cons, Function.comp_apply, fullLineComment_commentLine, hw]
  split_ifs <;> rfl

end Saved

theorem comments_iniLoad (hl : ∀ l ∈ Stream.lines file, l.length ≤ 1022) :
    (iniLoad (some file)).comments ~ survivors false [] ((Stream.lines file).map readLine) := by
  rw [iniLoad_lines fun l hm => Nat.lt_succ_of_le (Nat.succ_le_succ (hl l hm))]
  exact INIFile.comments_foldl_load

-- The comment is there if it has been read as a whole and a key comes before the next header. It has to have a text to be
-- written.
theorem survives_iff (hl : ∀ l ∈ Stream.lines file, l.length ≤ 1022)
    (he : Stream.lines file = pre ++ l :: post) (ht : fullLineComment l = some text) (hc : text.length ≤ 511) :
    Survives file pre post text ↔
      text ≠ [] ∧ readLine l = .comment text ∧ kept ((pre.map readLine).any Line.isHeader) (post.map readLine) := by
  obtain ⟨text', hr, hn, hz⟩ := exists_readLine_eq ht
  have hw : (Buf.strncpy text' : Comment).text = text' :=
    Buf.strncpy_text (Nat.lt_succ_of_le (hn.trans hc)) hz
  have hm : ∀ m ∈ pre ++ post, m ∈ Stream.lines file := fun m hm => by
    rw [he, mem_append, mem_cons]
    exact (mem_append.mp hm).imp id .inr
  have hu : Stream.lines (Stream.unlines (pre ++ post)) = pre ++ post :=
    Stream.lines_unlines fun m h => Stream.not_mem_of_mem_lines (hm m h)
  have h₁ := comments_iniLoad hl
  have h₂ : (iniLoad (some (Stream.unlines (pre ++ post)))).comments ~ _ :=
    comments_iniLoad fun m h => hl m (hm m (hu ▸ h))
  rw [he, map_append, map_cons, hr] at h₁
  rw [hu, map_append] at h₂
  replace h₁ := h₁.trans survivors_comment
  constructor
  case mp =>
    rintro ⟨hw', ho, hs⟩
    refine ⟨?_, ?_⟩
    case refine_1 =>
      rintro rfl
      have hf := (fullLineComments_perm hw' ho).symm.trans hs
      simpa using hf.length_eq
    case refine_2 =>
      replace ho := (h₁.symm.trans ho).trans (h₂.cons _)
      split at ho
      case isFalse hk => simpa using ho.length_eq
      case isTrue hk =>
        rw [← Multiset.coe_eq_coe, ← Multiset.cons_coe, ← Multiset.cons_coe, Multiset.cons_inj_left] at ho
        rw [ho, hw'] at hw
        exact ⟨hw ▸ hr, hk⟩
  case mpr =>
    rintro ⟨ht', hr', hk⟩
    cases hr.symm.trans hr'
    rw [if_pos hk] at h₁
    have ho := h₁.trans (h₂.symm.cons _)
    have hs := fullLineComments_perm hw ho
    have hi : trimWhitespace text = text := trimmed_of_fullLineComment ht
    rw [if_neg ht', hi] at hs
    exact ⟨hw, ho, hs⟩

-- A comment is lost if a header follows before the next key.
theorem iniLoad_comments_iff (file : Bytes) (hl : ∀ l ∈ Stream.lines file, l.length ≤ 1022)
    (hc : ∀ l ∈ Stream.lines file, ∀ text ∈ fullLineComment l, text.length ≤ 511) :
    (∀ pre l post text, Stream.lines file = pre ++ l :: post → fullLineComment l = some text →
      Survives file pre post text) ↔
    ∀ pre l post text, Stream.lines file = pre ++ l :: post → fullLineComment l = some text →
      text ≠ [] ∧ readLine l = .comment text ∧ kept ((pre.map readLine).any Line.isHeader) (post.map readLine) := by
  refine forall_congr' fun pre => forall_congr' fun l => forall_congr' fun post => forall_congr' fun text => ?_
  refine forall_congr' fun he => forall_congr' fun ht => ?_
  exact survives_iff hl he ht (hc l (he ▸ by simp) text ht)

theorem iniLoad_comments_sample :
    Survives (bytes "[a]\n; b\nc = d\n") [bytes "[a]"] [bytes "c = d"] (bytes "b") := by
  have hs : Stream.lines (bytes "[a]\n; b\nc = d\n") = [bytes "[a]", bytes "; b", bytes "c = d"] := by decide
  have hn : fullLineComment (bytes "[a]") = none ∧ fullLineComment (bytes "c = d") = none := by decide
  refine (iniLoad_comments_iff (bytes "[a]\n; b\nc = d\n") (by decide) (by decide)).mpr ?_ _ _ _ _ hs (by decide)
  intro pre l post text he ht
  rw [hs] at he
  obtain _ | ⟨_, _ | ⟨_, _ | ⟨_, pre⟩⟩⟩ := pre
  · cases he
    simp [hn] at ht
  · cases he
    cases ht
    decide
  · cases he
    simp [hn] at ht
  · simp at he

-- The comment before the second header is lost.
theorem iniLoad_drops_comment :
    let file := bytes "[a]\n; b\n[c]\n"
    Stream.lines file = [bytes "[a]", bytes "; b", bytes "[c]"] ∧ fullLineComment (bytes "; b") = some (bytes "b") ∧
    (iniLoad (some file)).comments = [] ∧ ¬Survives file [bytes "[a]"] [bytes "[c]"] (bytes "b") := by
  have hc : (iniLoad (some (bytes "[a]\n; b\n[c]\n"))).comments = [] := by decide
  refine ⟨by decide, by decide, hc, fun h => ?_⟩
  simpa [hc] using h.once.length_eq

end Ini

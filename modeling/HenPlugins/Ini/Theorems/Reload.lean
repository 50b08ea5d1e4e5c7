import HenPlugins.Ini.Theorems.Line

open List CString

namespace Ini

namespace INIFile

variable {ini : INIFile} {cs cs' : List Comment} {sec : Section} {secs : List Section}

-- The part of the structure that does not depend on the comments that are still waiting for a key.
def dropPending (ini : INIFile) : INIFile :=
  ini.setPendingComments []

@[simp]
theorem pendingComments_set : (ini.setPendingComments cs).pendingComments = cs := by
  cases h : ini.sections <;> simp [setPendingComments, pendingComments, h]

@[simp]
theorem setPendingComments_set :
    (ini.setPendingComments cs).setPendingComments cs' = ini.setPendingComments cs' := by
  cases h : ini.sections <;> simp [setPendingComments, h]

@[simp]
theorem setPendingComments_self : ini.setPendingComments ini.pendingComments = ini := by
  cases h : ini.sections <;> simp only [setPendingComments, pendingComments, h]
  all_goals ext1 <;> simp [h]

@[simp]
theorem dropPending_setPendingComments : (ini.setPendingComments cs).dropPending = ini.dropPending :=
  setPendingComments_set

theorem foldl_load_comments {texts : List Bytes} : (texts.map .comment).foldl load ini =
    ini.setPendingComments (ini.pendingComments ++ texts.map (.strncpy ·)) := by
  induction texts generalizing ini
  case nil => simp
  case cons text texts hi => simp [load, addPendingComment, hi]

theorem load_header {name comment : Bytes} : ini.load (.header name comment) =
    { ini.dropPending with
      sections := { createSection name with comment := .strncpy comment } :: ini.dropPending.sections } := by
  simp only [load, loadHeader, createSection, dropPending]
  rfl

end INIFile

def rereadComment (text : Comment) : Comment :=
  .strncpy (trimWhitespace text.text)

-- The trailing comments that `ini_load` finds in the lines that `ini_save` writes.

def KeyValue.trailing (kv : KeyValue) : Bytes :=
  match parseLine kv.keyLine with
  | .keyValue _ _ comment => comment
  | _                     => []

def Section.trailing (sec : Section) : Bytes :=
  match parseLine sec.headerLine with
  | .header _ comment => comment
  | _                 => []

-- What becomes of a key and a section if they are saved and loaded again. Keys are prepended as they
-- are loaded, so their order is reversed. The comments before a section are lost.

def KeyValue.reread (kv : KeyValue) : KeyValue :=
  { kv with comment := .strncpy kv.trailing, commentsBefore := kv.commentsBefore.map rereadComment }

def Section.reread (sec : Section) : Section where
  name           := sec.name
  comment        := .strncpy sec.trailing
  commentsBefore := []
  keys           := (sec.keys.map (·.reread)).reverse

-- The line of a key fits into the line buffer and `ini_load` splits it where `ini_save` joined it.
structure KeyValue.Rereads (kv : KeyValue) : Prop where
  fits   : kv.keyLine.length + 1 < maxLineLength
  parses : parseLine kv.keyLine = .keyValue kv.key.text kv.value.text kv.trailing

instance {kv : KeyValue} : Decidable kv.Rereads :=
  decidable_of_iff (_ ∧ _) ⟨fun ⟨hf, hp⟩ => ⟨hf, hp⟩, fun ⟨hf, hp⟩ => ⟨hf, hp⟩⟩

structure Section.Rereads (sec : Section) : Prop where
  parses : parseLine sec.headerLine = .header sec.name.text sec.trailing
  keys   : ∀ kv ∈ sec.keys, kv.Rereads

structure KeyValue.NoBreaks (kv : KeyValue) : Prop where
  key            : NoBreak kv.key.text
  value          : NoBreak kv.value.text
  comment        : NoBreak kv.comment.text
  commentsBefore : ∀ c ∈ kv.commentsBefore, NoBreak c.text

structure Section.NoBreaks (sec : Section) : Prop where
  name           : NoBreak sec.name.text
  comment        : NoBreak sec.comment.text
  commentsBefore : ∀ c ∈ sec.commentsBefore, NoBreak c.text
  keys           : ∀ kv ∈ sec.keys, kv.NoBreaks

-- No text of the file extends over several lines.
structure INIFile.NoBreaks (ini : INIFile) : Prop where
  headerComments : ∀ c ∈ ini.headerComments, NoBreak c.text
  sections       : ∀ sec ∈ ini.sections, sec.NoBreaks

section Lines

-- What a line has to satisfy to be read as it was written.
structure Readable (line : Bytes) : Prop where
  fits       : line.length + 1 < maxLineLength
  terminated : 0 ∉ line
  noBreak    : NoBreak line

variable {kv : KeyValue} {sec : Section} {ini : INIFile}

theorem iniLoad_unlines {ls : List Bytes} (h : ∀ l ∈ ls, Readable l) :
    iniLoad (some (Stream.unlines ls)) = (ls.map parseLine).foldl .load .empty := by
  have hl : ∀ l ∈ ls, lf ∉ l ∧ l.length + 1 < maxLineLength := fun l hl =>
    ⟨(h l hl).noBreak.right, (h l hl).fits⟩
  simp only [iniLoad]
  rw [Stream.readLines_unlines hl le_rfl, foldl_map, foldl_map]
  apply foldl_ext
  intro ini l hl
  simp only [INIFile.loadLine, line_text (h l hl).terminated (h l hl).noBreak]

theorem readable_nil : Readable [] where
  fits       := by decide
  terminated := by simp
  noBreak    := .nil

theorem readable_commentLine {c : Comment} (h : NoBreak c.text) : Readable (commentLine c) := by
  rw [commentLine]
  split
  case isTrue => exact readable_nil
  case isFalse =>
    have hf := c.fits
    have ht := c.terminated
    simp only [maxCommentLength] at hf
    exact ⟨by simp; omega, by simpa using ht, noBreak_append.mpr ⟨by decide, h⟩⟩

theorem noBreak_trailingComment {comment : Buf maxCommentLength} (h : NoBreak comment.text) :
    NoBreak (trailingComment comment) := by
  rw [trailingComment]
  split
  · exact noBreak_append.mpr ⟨by decide, h⟩
  · exact .nil

theorem zero_not_mem_trailingComment {comment : Buf maxCommentLength} :
    0 ∉ trailingComment comment := by
  have := comment.terminated
  rw [trailingComment]
  split <;> simp_all

theorem length_trailingComment_le (comment : Buf maxCommentLength) :
    (trailingComment comment).length ≤ comment.text.length + 3 := by
  rw [trailingComment]
  split <;> simp

theorem readable_headerLine (h : sec.NoBreaks) : Readable sec.headerLine where
  fits := by
    have := sec.name.fits
    have := sec.comment.fits
    have := length_trailingComment_le sec.comment
    simp_all [Section.headerLine]
    omega
  terminated := by
    simp [Section.headerLine, sec.name.terminated, zero_not_mem_trailingComment]
  noBreak := by
    simp only [Section.headerLine, noBreak_append]
    exact ⟨⟨⟨by decide, h.name⟩, by decide⟩, noBreak_trailingComment h.comment⟩

theorem zero_not_mem_keyLine : 0 ∉ kv.keyLine := by
  simp [KeyValue.keyLine, kv.key.terminated, kv.value.terminated, zero_not_mem_trailingComment]

theorem noBreak_keyLine (h : kv.NoBreaks) : NoBreak kv.keyLine := by
  simp only [KeyValue.keyLine, noBreak_append]
  exact ⟨⟨⟨h.key, by decide⟩, h.value⟩, noBreak_trailingComment h.comment⟩

theorem readable_keyLine (h : kv.NoBreaks) (hr : kv.Rereads) : Readable kv.keyLine where
  fits       := hr.fits
  terminated := zero_not_mem_keyLine
  noBreak    := noBreak_keyLine h

theorem readable_kv_lines (h : kv.NoBreaks) (hr : kv.Rereads) : ∀ l ∈ kv.lines, Readable l := by
  intro l hl
  simp only [KeyValue.lines, mem_append, mem_map, mem_singleton] at hl
  obtain ⟨c, hc, rfl⟩ | rfl := hl
  · exact readable_commentLine (h.commentsBefore c hc)
  · exact readable_keyLine h hr

theorem readable_section_lines (h : sec.NoBreaks) (hr : sec.Rereads) : ∀ l ∈ sec.lines, Readable l := by
  intro l hl
  simp only [Section.lines, mem_append, mem_map, mem_singleton, mem_flatMap] at hl
  obtain ((⟨c, hc, rfl⟩ | rfl) | ⟨kv, hkv, hl⟩) | rfl := hl
  · exact readable_commentLine (h.commentsBefore c hc)
  · exact readable_headerLine h
  · exact readable_kv_lines (h.keys kv hkv) (hr.keys kv hkv) l hl
  · exact readable_nil

end Lines

namespace INIFile

variable {ini : INIFile} {kv : KeyValue} {sec : Section} {secs : List Section}

theorem map_parseLine_comments {cs : List Comment} :
    (cs.map commentLine).map parseLine = (cs.map fun c => trimWhitespace c.text).map .comment := by
  simp [parseLine_commentLine]

theorem load_kv_lines (hr : kv.Rereads) (hs : ini.sections = { sec with commentsBefore := [] } :: secs) :
    (kv.lines.map parseLine).foldl load ini =
      { ini with sections := { sec with commentsBefore := [], keys := kv.reread :: sec.keys } :: secs } := by
  simp only [KeyValue.lines, map_append, foldl_append, map_parseLine_comments, foldl_load_comments]
  simp only [map_cons, map_nil, hr.parses, foldl_cons, foldl_nil, load, pendingComments,
    setPendingComments, hs, loadKeyValue, nil_append]
  simp [createKey, KeyValue.reread, rereadComment, Function.comp_def]

theorem load_keys_lines {kvs : List KeyValue} (sec : Section) (hr : ∀ kv ∈ kvs, kv.Rereads)
    (hs : ini.sections = { sec with commentsBefore := [] } :: secs) :
    ((kvs.flatMap (·.lines)).map parseLine).foldl load ini =
      { ini with
        sections := { sec with
          commentsBefore := [], keys := (kvs.map (·.reread)).reverse ++ sec.keys } :: secs } := by
  induction kvs generalizing ini sec
  case nil => ext1 <;> simp [hs]
  case cons kv kvs hi =>
    rw [flatMap_cons, map_append, foldl_append, load_kv_lines (hr kv (by simp)) hs]
    rw [hi { sec with keys := kv.reread :: sec.keys } (fun kv h => hr kv (by simp [h])) rfl]
    simp

-- A saved section is loaded in front of the sections before it in the file. The blank line that ends
-- it is then a pending comment.
theorem load_section_lines (hr : sec.Rereads) :
    (sec.lines.map parseLine).foldl load ini =
      { ini.dropPending with
        sections := { sec.reread with commentsBefore := [.empty] } :: ini.dropPending.sections } := by
  simp only [Section.lines, map_append, foldl_append, map_parseLine_comments, foldl_load_comments]
  simp only [map_cons, map_nil, hr.parses, foldl_cons, foldl_nil, load_header,
    dropPending_setPendingComments]
  rw [load_keys_lines { createSection sec.name.text with comment := .strncpy sec.trailing } hr.keys rfl]
  simp [parseLine_nil, load, addPendingComment, pendingComments, setPendingComments, createSection,
    Section.reread]

theorem load_sections_lines (hr : ∀ sec ∈ secs, sec.Rereads) :
    (((secs.flatMap (·.lines)).map parseLine).foldl load ini).dropPending =
      { ini.dropPending with
        sections := (secs.map (·.reread)).reverse ++ ini.dropPending.sections } := by
  induction secs using List.reverseRecOn
  case nil => simp
  case append_singleton secs sec hi =>
    have hi := hi fun sec h => hr sec (by simp [h])
    simp only [flatMap_append, flatMap_cons, flatMap_nil, append_nil, map_append, foldl_append]
    rw [load_section_lines (hr sec (by simp)), hi]
    simp [dropPending, setPendingComments, Section.reread]

end INIFile

-- Saving and loading a file reverses its sections and the keys of each section.
theorem iniLoad_iniSave {ini : INIFile} (hb : ini.NoBreaks) (hr : ∀ sec ∈ ini.sections, sec.Rereads) :
    (iniLoad (some (iniSave ini))).dropPending =
      { sections := (ini.sections.map (·.reread)).reverse, headerComments := [], modified := false } := by
  have h : ∀ l ∈ ini.lines, Readable l := by
    intro l hl
    simp only [INIFile.lines, mem_append, mem_map, mem_flatMap] at hl
    obtain ⟨c, hc, rfl⟩ | ⟨sec, hs, hl⟩ := hl
    · exact readable_commentLine (hb.headerComments c hc)
    · exact readable_section_lines (hb.sections sec hs) (hr sec hs) l hl
  rw [iniSave, iniLoad_unlines h, INIFile.lines, map_append, foldl_append, INIFile.load_sections_lines hr,
    INIFile.map_parseLine_comments, INIFile.foldl_load_comments]
  simp [INIFile.dropPending, INIFile.setPendingComments, INIFile.empty]

end Ini

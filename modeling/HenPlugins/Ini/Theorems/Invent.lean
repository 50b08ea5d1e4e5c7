import HenPlugins.Ini.Theorems.Parsed

open List CString

namespace Ini

variable {ini : INIFile} {sec : Section} {secs : List Section} {kv : KeyValue} {kvs : List KeyValue} {l : Line}
  {ls ls' : List Line} {q : Bytes × Bytes} {current : Option Bytes}

-- The file maps the key to a value, which need not be the one that a lookup finds.
def INIFile.Has (ini : INIFile) (q : Bytes × Bytes) : Prop :=
  ∃ sec ∈ ini.sections, sec.id = q.1 ∧ ∃ kv ∈ sec.keys, kv.id = q.2

instance : Decidable (ini.Has q) :=
  inferInstanceAs (Decidable (∃ sec ∈ ini.sections, sec.id = q.1 ∧ ∃ kv ∈ sec.keys, kv.id = q.2))

section Pairs

-- The section that keys are stored in once a line is read.
def opens (current : Option Bytes) : Line → Option Bytes
  | .header name _ => some (createSection name).id
  | _              => current

-- The key that is stored when a line is read, with its section.
def stored (current : Option Bytes) : Line → List (Bytes × Bytes)
  | .keyValue key _ _ => current.toList.map (·, (createKey key).id)
  | _                 => []

def pairs (current : Option Bytes) : List Line → List (Bytes × Bytes)
  | []      => []
  | l :: ls => stored current l ++ pairs (opens current l) ls

-- The name of `current_section`.
def INIFile.currentSection (ini : INIFile) : Option Bytes :=
  ini.sections.head?.map (·.id)

variable {cs : List Comment}

theorem currentSection_setPendingComments : (ini.setPendingComments cs).currentSection = ini.currentSection := by
  cases h : ini.sections <;> simp [INIFile.setPendingComments, INIFile.currentSection, h]

theorem has_setPendingComments : (ini.setPendingComments cs).Has q ↔ ini.Has q := by
  cases h : ini.sections <;> simp [INIFile.setPendingComments, INIFile.Has, h]

theorem currentSection_load : (ini.load l).currentSection = opens ini.currentSection l := by
  cases l
  case comment => exact currentSection_setPendingComments
  case ignored => rfl
  case header  =>
    rw [INIFile.load_header]
    rfl
  case keyValue =>
    rw [INIFile.load, INIFile.loadKeyValue, opens]
    cases h : ini.sections <;> simp [INIFile.currentSection, h]
    simp

theorem has_load : (ini.load l).Has q ↔ ini.Has q ∨ q ∈ stored ini.currentSection l := by
  cases l
  case comment => simp [INIFile.load, INIFile.addPendingComment, has_setPendingComments, stored]
  case ignored => simp [INIFile.load, stored]
  case header  =>
    have hs : ini.dropPending.Has q ↔ ini.Has q := has_setPendingComments
    rw [INIFile.load_header, ← hs]
    simp [INIFile.Has, createSection, stored]
  case keyValue k v c =>
    obtain ⟨s, t⟩ := q
    rw [INIFile.load, INIFile.loadKeyValue, stored, INIFile.currentSection]
    cases h : ini.sections
    case nil           => simp [INIFile.Has, h]
    case cons sec secs =>
      simp only [INIFile.Has, h, mem_cons, exists_eq_or_imp, head?_cons, Option.map_some, Option.toList_some, map_cons,
        map_nil, not_mem_nil, or_false, Prod.mk.injEq, createKey, Section.id, KeyValue.id, eq_comm (a := s), eq_comm (a := t)]
      rw [and_or_left, or_assoc]
      exact or_comm

theorem has_foldl_load : (ls.foldl .load ini).Has q ↔ ini.Has q ∨ q ∈ pairs ini.currentSection ls := by
  induction ls generalizing ini
  case nil          => simp [pairs]
  case cons l ls hi => rw [foldl_cons, hi, has_load, currentSection_load, pairs, mem_append, or_assoc]

end Pairs

section Written

-- The lines that `ini_load` reads of a header and of a key that have been written. The name may end with a blank where
-- it was cut off, and a line is ignored if a comment is taken to start in front of the character that ends the name.
-- What does not fit into the buffer is read as a line of its own.

def Section.readHeader (sec : Section) : Line :=
  if rbracket ∈ (splitComment sec.headerLine).1 then .header (trimWhitespace sec.id) [] else .ignored

def KeyValue.readKey (kv : KeyValue) : Line :=
  if equals ∈ (splitComment (kv.keyLine.take (maxLineLength - 1))).1 then .keyValue (trimWhitespace kv.id) [] [] else .ignored

def KeyValue.readRest (kv : KeyValue) : Line :=
  parseLine (kv.keyLine.drop (maxLineLength - 1))

-- A line that opens a section or stores a key.
def Line.isEntry : Line → Bool
  | .header _ _ | .keyValue _ _ _ => true
  | .comment _ | .ignored         => false

def KeyValue.readLines (kv : KeyValue) : List Line :=
  [kv.readKey, kv.readRest]

def Section.readLines (sec : Section) : List Line :=
  sec.readHeader :: sec.keys.flatMap (·.readLines)

-- The lines store the same keys.
def Same (ls ls' : List Line) : Prop :=
  ∀ current, pairs current ls = pairs current ls' ∧ ls.foldl opens current = ls'.foldl opens current

namespace Same

theorem rfl : Same ls ls :=
  fun _ => ⟨Eq.refl _, Eq.refl _⟩

theorem symm (h : Same ls ls') : Same ls' ls :=
  fun current => ⟨(h current).left.symm, (h current).right.symm⟩

theorem trans {ls'' : List Line} (h : Same ls ls') (h' : Same ls' ls'') : Same ls ls'' :=
  fun current => ⟨(h current).left.trans (h' current).left, (h current).right.trans (h' current).right⟩

theorem pairs_append : pairs current (ls ++ ls') = pairs current ls ++ pairs (ls.foldl opens current) ls' := by
  induction ls generalizing current
  case nil          => simp [pairs]
  case cons l ls hi => rw [cons_append, pairs, pairs, hi, foldl_cons, append_assoc]

theorem append {ms ms' : List Line} (h : Same ls ls') (hm : Same ms ms') : Same (ls ++ ms) (ls' ++ ms') := by
  intro current
  rw [pairs_append, pairs_append, foldl_append, foldl_append, (h current).left, (h current).right]
  have ⟨hp, ho⟩ := hm (ls'.foldl opens current)
  exact ⟨hp ▸ Eq.refl _, ho⟩

theorem flatMap {α : Type} {xs : List α} {f g : α → List Line} (h : ∀ x ∈ xs, Same (f x) (g x)) :
    Same (xs.flatMap f) (xs.flatMap g) := by
  induction xs
  case nil          => exact rfl
  case cons x xs hi =>
    rw [forall_mem_cons] at h
    exact append h.left (hi h.right)

theorem comment (t : Bytes) : Same [.comment t] [] := by
  intro current
  simp [pairs, stored, opens]

end Same

section Reads

-- What is read of a line that has been written.
def reads (line : Bytes) : List Line :=
  (Stream.chunks maxLineLength (line ++ [lf])).map readLine

theorem reads_of_readable {line : Bytes} (h : Readable line) : reads line = [parseLine line] := by
  rw [reads, Stream.chunks_line h.noBreak.right h.fits, Stream.chunks_nil, map_singleton,
    readLine_newline h.terminated h.noBreak]

theorem same_commentLine {c : Comment} (h : NoBreak c.text) : Same (reads (commentLine c)) [] := by
  rw [reads_of_readable (readable_commentLine h), parseLine_commentLine]
  exact .comment _

theorem parseLine_keyLine_take (h : kv.Parsed) : ∃ value comment,
    parseLine (kv.keyLine.take (maxLineLength - 1)) =
      if equals ∈ (splitComment (kv.keyLine.take (maxLineLength - 1))).1 then .keyValue (trimWhitespace kv.id) value comment
      else .ignored := by
  -- The equals sign is in the first piece of the line.
  obtain ⟨rest, hl⟩ : ∃ rest, kv.keyLine.take (maxLineLength - 1) = (kv.id ++ [space]) ++ equals :: rest := by
    have hf := kv.key.fits
    simp only [maxKeyLength] at hf
    have hk : kv.keyLine = (kv.id ++ [space, equals]) ++ (space :: (kv.value.text ++ trailingComment kv.comment)) := by
      simp [KeyValue.keyLine]
    have ht : (kv.id ++ [space, equals]).length ≤ maxLineLength - 1 := by
      rw [length_append, length_cons, length_singleton, KeyValue.id]
      simp only [maxLineLength]
      omega
    exact ⟨_, by rw [hk, take_append, take_of_length_le ht, append_cons, append_assoc, singleton_append]⟩
  exact parseLine_entry h hl

theorem same_headerLine (h : sec.NoBreaks) (hp : sec.Parsed) : Same (reads sec.headerLine) [sec.readHeader] := by
  have ⟨comment, he⟩ := parseLine_headerLine_parsed hp
  rw [reads_of_readable (readable_headerLine h), he, Section.readHeader]
  intro current
  split <;> simp [pairs, stored, opens]

theorem reads_keyLine (h : kv.NoBreaks) : Same (reads kv.keyLine)
    [parseLine (kv.keyLine.take (maxLineLength - 1)), parseLine (kv.keyLine.drop (maxLineLength - 1))] := by
  have hz : 0 ∉ kv.keyLine := zero_not_mem_keyLine
  have hb := noBreak_keyLine h
  by_cases hf : kv.keyLine.length + 1 < maxLineLength
  case pos =>
    have hl : kv.keyLine.length ≤ maxLineLength - 1 := Nat.le_sub_one_of_lt (Nat.lt_of_succ_lt hf)
    rw [reads_of_readable ⟨hf, hz, hb⟩, take_of_length_le hl, drop_of_length_le hl, parseLine_nil]
    exact @Same.append [_] [_] _ _ .rfl (Same.symm (.comment []))
  case neg =>
    have hk := kv.key.fits
    have hv := kv.value.fits
    have hc := kv.comment.fits
    have hl : kv.keyLine.length + 2 < 2 * maxLineLength := by
      have := length_trailingComment_le kv.comment
      simp only [maxKeyLength, maxValueLength, maxCommentLength] at hk hv hc
      simp [KeyValue.keyLine]
      omega
    have ht : readLine (kv.keyLine.take (maxLineLength - 1)) = parseLine (kv.keyLine.take (maxLineLength - 1)) :=
      readLine_self (fun hm => hz (mem_of_mem_take hm)) (hb.of_subset (take_subset _ _))
    have hd : readLine (kv.keyLine.drop (maxLineLength - 1) ++ [lf]) = parseLine (kv.keyLine.drop (maxLineLength - 1)) :=
      readLine_newline (fun hm => hz (mem_of_mem_drop hm)) (hb.of_subset (drop_subset _ _))
    rw [reads, Stream.chunks_long (by decide) hb.right (by omega) hl, map_cons, map_singleton, ht, hd]
    exact .rfl

theorem same_keyLine (h : kv.NoBreaks) (hp : kv.Parsed) : Same (reads kv.keyLine) kv.readLines := by
  have ⟨value, comment, he⟩ := parseLine_keyLine_take hp
  refine (reads_keyLine h).trans ?_
  rw [he]
  intro current
  simp only [KeyValue.readLines, KeyValue.readKey, KeyValue.readRest, pairs, foldl_cons, foldl_nil]
  split <;> simp [stored, opens]

theorem same_comments {cs : List Comment} (h : ∀ c ∈ cs, NoBreak c.text) : Same ((cs.map commentLine).flatMap reads) [] := by
  rw [flatMap_map]
  refine (Same.flatMap (g := fun _ => []) fun c hc => same_commentLine (h c hc)).trans ?_
  rw [flatMap_eq_nil_iff.mpr fun _ _ => Eq.refl _]
  exact .rfl

theorem same_keys_lines (h : ∀ kv ∈ kvs, kv.NoBreaks) (hp : ∀ kv ∈ kvs, kv.Parsed) :
    Same ((kvs.flatMap (·.lines)).flatMap reads) (kvs.flatMap (·.readLines)) := by
  rw [flatMap_assoc]
  refine .flatMap fun kv hk => ?_
  rw [KeyValue.lines, flatMap_append, flatMap_singleton]
  exact .append (same_comments (h kv hk).commentsBefore) (same_keyLine (h kv hk) (hp kv hk))

theorem same_section_lines (h : sec.NoBreaks) (hp : sec.Parsed) : Same (sec.lines.flatMap reads) sec.readLines := by
  have hc := same_comments h.commentsBefore
  have hh := hc.append (same_headerLine h hp)
  have hk := hh.append (same_keys_lines h.keys hp.keys)
  have he := hk.append <| (reads_of_readable readable_nil).symm ▸ Same.comment []
  simpa [Section.lines, Section.readLines] using he

theorem same_lines (h : ini.NoBreaks) (hp : ini.Parsed) :
    Same (ini.lines.flatMap reads) (ini.sections.flatMap (·.readLines)) := by
  rw [INIFile.lines, flatMap_append, flatMap_assoc]
  exact .append (same_comments h.headerComments) <| .flatMap fun sec hs => same_section_lines (h.sections sec hs) (hp sec hs)

theorem iniLoad_iniSave_eq : iniLoad (some (iniSave ini)) = (ini.lines.flatMap reads).foldl .load .empty := by
  have ht : Stream.Terminated [] := by simp [Stream.Terminated]
  have hl : ini.lines.flatMap reads = (Stream.chunks maxLineLength (iniSave ini)).map readLine := by
    rw [iniSave, Stream.chunks_unlines (by decide), map_flatMap]
    rfl
  rw [hl]
  exact iniLoad_append ht

end Reads

theorem has_iniLoad_iniSave (h : ini.NoBreaks) (hp : ini.Parsed) :
    (iniLoad (some (iniSave ini))).Has q ↔ q ∈ pairs none (ini.sections.flatMap (·.readLines)) := by
  rw [iniLoad_iniSave_eq, has_foldl_load, ← (same_lines h hp none).left]
  simp [INIFile.Has, INIFile.empty, INIFile.currentSection]

end Written

-- What is read of a written key is this key or nothing.
structure KeyValue.Harmless (kv : KeyValue) : Prop where
  name : equals ∈ (splitComment (kv.keyLine.take (maxLineLength - 1))).1 → trimWhitespace kv.id = kv.id
  rest : (parseLine (kv.keyLine.drop (maxLineLength - 1))).isEntry = false

-- If there are keys, they are read under the name of the section.
structure Section.Harmless (sec : Section) : Prop where
  header : sec.keys ≠ [] → rbracket ∈ (splitComment sec.headerLine).1
  name   : sec.keys ≠ [] → trimWhitespace sec.id = sec.id
  keys   : ∀ kv ∈ sec.keys, kv.Harmless

instance : Decidable kv.Harmless :=
  decidable_of_iff (_ ∧ _) ⟨fun ⟨hn, hr⟩ => ⟨hn, hr⟩, fun ⟨hn, hr⟩ => ⟨hn, hr⟩⟩

instance : Decidable sec.Harmless :=
  decidable_of_iff (_ ∧ _ ∧ _) ⟨fun ⟨hh, hn, hk⟩ => ⟨hh, hn, hk⟩, fun ⟨hh, hn, hk⟩ => ⟨hh, hn, hk⟩⟩

section Harmless

theorem KeyValue.Harmless.readRest (h : kv.Harmless) :
    stored current kv.readRest = [] ∧ opens current kv.readRest = current := by
  have hr : kv.readRest.isEntry = false := h.rest
  cases hl : kv.readRest
  case comment | ignored => exact ⟨rfl, rfl⟩
  all_goals simp [hl, Line.isEntry] at hr

theorem KeyValue.Harmless.readKey (h : kv.Harmless) :
    (∀ q ∈ stored current kv.readKey, current = some q.1 ∧ q.2 = kv.id) ∧ opens current kv.readKey = current := by
  rw [KeyValue.readKey]
  split
  case isFalse => exact ⟨by simp [stored], rfl⟩
  case isTrue hm =>
    have hk : (createKey kv.id).id = kv.id := congrArg Buf.text (Buf.strncpy_self kv.key)
    rw [h.name hm]
    refine ⟨fun q hq => ?_, rfl⟩
    simp only [stored, hk, mem_map, Option.mem_toList] at hq
    obtain ⟨s, hs, rfl⟩ := hq
    exact ⟨hs, rfl⟩

theorem KeyValue.Harmless.readLines (h : kv.Harmless) :
    (∀ q ∈ pairs current kv.readLines, current = some q.1 ∧ q.2 = kv.id) ∧ kv.readLines.foldl opens current = current := by
  have ⟨hs, ho⟩ := @readKey kv current h
  have ⟨hs', ho'⟩ := @readRest kv current h
  simp only [KeyValue.readLines, pairs, foldl_cons, foldl_nil, ho, ho', hs', append_nil]
  exact ⟨hs, trivial⟩

theorem pairs_keys_readLines (h : ∀ kv ∈ kvs, kv.Harmless) :
    ∀ q ∈ pairs current (kvs.flatMap (·.readLines)), current = some q.1 ∧ ∃ kv ∈ kvs, kv.id = q.2 := by
  induction kvs
  case nil => simp [pairs]
  case cons kv kvs hi =>
    rw [forall_mem_cons] at h
    have ⟨hs, ho⟩ := @h.left.readLines kv current
    intro q hq
    rw [flatMap_cons, Same.pairs_append, ho, mem_append] at hq
    cases hq
    case inl hq => exact ⟨(hs q hq).left, kv, mem_cons_self, (hs q hq).right.symm⟩
    case inr hq =>
      have ⟨hc, kv', hk, he⟩ := hi h.right q hq
      exact ⟨hc, kv', mem_cons_of_mem _ hk, he⟩

theorem Section.Harmless.pairs_readLines (h : sec.Harmless) :
    ∀ q ∈ pairs current sec.readLines, sec.id = q.1 ∧ ∃ kv ∈ sec.keys, kv.id = q.2 := by
  intro q hq
  have hs : stored current sec.readHeader = [] := by
    rw [Section.readHeader]
    split <;> rfl
  rw [Section.readLines, pairs, hs, nil_append] at hq
  have ⟨hc, kv, hk, he⟩ := pairs_keys_readLines h.keys q hq
  have hn : sec.keys ≠ [] := ne_nil_of_mem hk
  have ho : opens current sec.readHeader = some sec.id := by
    rw [Section.readHeader, if_pos (h.header hn), h.name hn]
    exact congrArg (fun name => some name.text) (Buf.strncpy_self sec.name)
  exact ⟨Option.some.inj (ho.symm.trans hc), kv, hk, he⟩

theorem has_of_pairs_readLines (h : ∀ sec ∈ secs, sec.Harmless) (hq : q ∈ pairs current (secs.flatMap (·.readLines))) :
    ∃ sec ∈ secs, sec.id = q.1 ∧ ∃ kv ∈ sec.keys, kv.id = q.2 := by
  induction secs generalizing current
  case nil => simp [pairs] at hq
  case cons sec secs hi =>
    rw [forall_mem_cons] at h
    rw [flatMap_cons, Same.pairs_append, mem_append] at hq
    cases hq
    case inl hq => exact ⟨sec, mem_cons_self, h.left.pairs_readLines q hq⟩
    case inr hq =>
      have ⟨sec', hs, hp⟩ := hi h.right hq
      exact ⟨sec', mem_cons_of_mem _ hs, hp⟩

end Harmless

def InventsNothing (text : Bytes) : Prop :=
  ∀ q, (iniLoad (some (iniSave (iniLoad (some text))))).Has q → (iniLoad (some text)).Has q

-- No key appears if every line is read under the name that it was written for, or not at all.
theorem iniSave_inventsNothing (text : Bytes) (h : ∀ sec ∈ (iniLoad (some text)).sections, sec.Harmless) :
    InventsNothing text := by
  intro q hq
  rw [has_iniLoad_iniSave (iniLoad_noBreaks _) (iniLoad_parsed _)] at hq
  exact has_of_pairs_readLines h hq

theorem iniSave_inventsNothing_sample : InventsNothing <| bytes "[a] ; b
k = 1
[c]
l = 2 # d
m = 3
" :=
  iniSave_inventsNothing _ (by decide)

-- The comment of a header is empty and not written back, so that the hash in its name starts one.
theorem iniSave_invents :
    let text := bytes "[a#b] ;
k=1
[s]
x=1
"
    (∀ l ∈ Stream.lines text, l.length ≤ 1022) ∧ ¬InventsNothing text := by
  refine ⟨by decide, fun h => ?_⟩
  exact absurd (h (bytes "s", bytes "k") (by decide)) (by decide)

end Ini

import HenPlugins.Ini.Theorems.Entry
import HenPlugins.Ini.Theorems.Load

open List CString

namespace Ini

variable {ini : INIFile} {sec : Section} {kv : KeyValue} {l : Line} {text after : Bytes}

section Names

-- The names that `ini_load` cuts out of a line.
def Line.Parsed : Line → Prop
  | .header name _    => rbracket ∉ name
  | .keyValue key _ _ => equals ∉ key ∧ ∀ c ∈ key.head?, ¬isspace c ∧ KeyStart c
  | _                 => True

structure KeyValue.Parsed (kv : KeyValue) : Prop where
  name  : equals ∉ kv.id
  start : ∀ c ∈ kv.id.head?, ¬isspace c ∧ KeyStart c

structure Section.Parsed (sec : Section) : Prop where
  name : rbracket ∉ sec.id
  keys : ∀ kv ∈ sec.keys, kv.Parsed

def INIFile.Parsed (ini : INIFile) : Prop :=
  ∀ sec ∈ ini.sections, sec.Parsed

theorem mem_head?_of_prefix {c : UInt8} {s t : Bytes} (h : s <+: t) (hc : c ∈ s.head?) : c ∈ t.head? :=
  singleton_prefix_iff_head?_eq_some.mp <| (singleton_prefix_iff_head?_eq_some.mpr hc).trans h

theorem parseLine_parsed : (parseLine text).Parsed := by
  rw [parseLine]
  split
  case h_1 => trivial
  case h_2 c cs ht =>
    split_ifs with hc hb
    case pos => trivial
    · simp only [parseHeader]
      split
      case h_1 => trivial
      case h_2 before after hs =>
        have hn := (strchr_eq_some hs).right
        exact fun hm => hn (mem_of_mem_drop (Trim.mem_of_mem_trim hm))
    · simp only [parseKeyValue]
      split
      case h_1 => trivial
      case h_2 key value hs =>
        obtain ⟨he, hn⟩ := strchr_eq_some hs
        refine ⟨fun hm => hn (Trim.mem_of_mem_trim hm), fun d hd => ⟨Trim.head?_trim_neg d hd, ?_⟩⟩
        -- The key is at the beginning of the line.
        have hp : key <+: text := by
          have hl : (splitComment text).1 <+: text := splitComment_prefix
          rw [he] at hl
          exact (prefix_append ..).trans hl
        have hh : (trimWhitespace text).head? = some d := mem_head?_of_prefix (Trim.trim_prefix hp) hd
        rw [ht, head?_cons] at hh
        obtain rfl := Option.some.inj hh
        rw [not_or] at hc
        exact ⟨hc.left, hc.right, hb⟩

theorem strncpy_prefix {size : Nat} [NeZero size] {s : Bytes} : (Buf.strncpy s : Buf size).text <+: s :=
  ( take_prefix _ _).trans ( takeWhile_prefix _)

theorem parsed_setPendingComments {cs : List Comment} (h : ini.Parsed) : (ini.setPendingComments cs).Parsed := by
  cases hs : ini.sections
  case nil => simp [INIFile.Parsed, INIFile.setPendingComments, hs]
  case cons sec secs =>
    rw [INIFile.Parsed, hs, forall_mem_cons] at h
    rw [INIFile.setPendingComments, INIFile.Parsed, hs, forall_mem_cons]
    exact ⟨⟨h.left.name, h.left.keys⟩, h.right⟩

theorem INIFile.Parsed.load (h : ini.Parsed) (hl : l.Parsed) : (ini.load l).Parsed := by
  cases l
  case ignored => exact h
  case comment => exact parsed_setPendingComments h
  case header  =>
    rw [load_header]
    refine forall_mem_cons.mpr ⟨⟨fun hm => hl ( strncpy_prefix.mem hm), ?_⟩, parsed_setPendingComments h⟩
    simp [createSection]
  case keyValue k v c =>
    rw [INIFile.load, loadKeyValue]
    cases hs : ini.sections
    case nil           => simp [Parsed, hs]
    case cons sec secs =>
      rw [Parsed, hs, forall_mem_cons] at h
      refine forall_mem_cons.mpr ⟨⟨h.left.name, forall_mem_cons.mpr ⟨?_, h.left.keys⟩⟩, h.right⟩
      refine ⟨fun hm => hl.left ( strncpy_prefix.mem hm), fun d hd => hl.right d ?_⟩
      exact mem_head?_of_prefix strncpy_prefix hd

theorem iniLoad_parsed (file : Option Bytes) : (iniLoad file).Parsed := by
  cases file
  case none      => simp [INIFile.Parsed, iniLoad, INIFile.empty]
  case some file =>
    refine foldlRecOn _ _ ?_ fun ini hi buf _ => hi.load parseLine_parsed
    simp [INIFile.Parsed, INIFile.empty]

end Names

section Lines

theorem readLine_newline {line : Bytes} (hz : 0 ∉ line) (hb : NoBreak line) : readLine (line ++ [lf]) = parseLine line :=
  congrArg parseLine (line_text hz hb)

theorem readLine_self {line : Bytes} (hz : 0 ∉ line) (hb : NoBreak line) : readLine line = parseLine line := by
  have hl : (line ++ [lf]).takeWhile (· ≠ lf) = line := Stream.takeWhile_line hb.right
  rw [← readLine_newline hz hb, ← @readLine_takeWhile (line ++ [lf]), hl]

theorem exists_strchr_of_prefix {s line before : Bytes} {c : UInt8} (h : s <+: line)
    (hl : line = before ++ c :: after) (hc : c ∉ before) (hm : c ∈ s) : ∃ rest, strchr s c = some (before, rest) := by
  obtain ⟨before', rest, rfl, hc'⟩ := eq_append_cons_of_mem hm
  obtain ⟨r, hr⟩ := h
  rw [hl, append_assoc, cons_append] at hr
  have he := (strchr_append hc').symm.trans <| (congrArg (strchr · c) hr).trans (strchr_append hc)
  obtain ⟨rfl, _⟩ := Prod.mk.inj (Option.some.inj he)
  exact ⟨rest, strchr_append hc⟩

-- A comment may start in front of the character that ends the name.
theorem parseHeader_of_text {name : Bytes} (hl : text = (lbracket :: name) ++ rbracket :: after)
    (hn : rbracket ∉ lbracket :: name) : ∃ comment, parseHeader text =
      if rbracket ∈ (splitComment text).1 then .header (trimWhitespace name) comment else .ignored := by
  have hs : (splitComment text).1 <+: text := splitComment_prefix
  refine ⟨(splitComment text).2, ?_⟩
  rw [parseHeader]
  split_ifs with hm
  case pos =>
    obtain ⟨rest, hc⟩ := exists_strchr_of_prefix hs hl hn hm
    simp only [hc, drop_one, tail_cons]
  case neg => simp only [strchr_eq_none.mpr hm]

theorem parseKeyValue_of_text {key : Bytes} (hl : text = key ++ equals :: after) (hn : equals ∉ key) :
    ∃ value comment, parseKeyValue text =
      if equals ∈ (splitComment text).1 then .keyValue (trimWhitespace key) value comment else .ignored := by
  have hs : (splitComment text).1 <+: text := splitComment_prefix
  rw [parseKeyValue]
  split_ifs with hm
  case pos =>
    obtain ⟨value, hc⟩ := exists_strchr_of_prefix hs hl hn hm
    refine ⟨trimWhitespace value, (splitComment text).2, ?_⟩
    simp only [hc]
  case neg => exact ⟨[], [], by simp only [strchr_eq_none.mpr hm]⟩

theorem parseLine_headerLine_parsed (h : sec.Parsed) : ∃ comment, parseLine sec.headerLine =
    if rbracket ∈ (splitComment sec.headerLine).1 then .header (trimWhitespace sec.id) comment else .ignored := by
  have hl : sec.headerLine = (lbracket :: sec.id) ++ rbracket :: trailingComment sec.comment := by
    simp [Section.headerLine]
  have hn : rbracket ∉ lbracket :: sec.id := by
    rw [mem_cons, not_or]
    exact ⟨by decide, h.name⟩
  have hp : parseLine sec.headerLine = parseHeader sec.headerLine := by
    rw [hl]
    exact parseLine_lbracket
  rw [hp]
  exact parseHeader_of_text hl hn

theorem parseLine_entry (h : kv.Parsed) (hl : text = (kv.id ++ [space]) ++ equals :: after) :
    ∃ value comment, parseLine text =
      if equals ∈ (splitComment text).1 then .keyValue (trimWhitespace kv.id) value comment else .ignored := by
  have hn : equals ∉ kv.id ++ [space] := by
    rw [mem_append, not_or]
    exact ⟨h.name, by decide⟩
  have hp : parseLine text = parseKeyValue text := by
    rw [hl, append_assoc, cons_append, nil_append]
    exact parseLine_key (fun c hc => (h.start c hc).left) fun c hc => (h.start c hc).right
  have ht : trimWhitespace (kv.id ++ [space]) = trimWhitespace kv.id := Trim.trim_append_of_all (by simp [isspace])
  rw [hp, ← ht]
  exact parseKeyValue_of_text hl hn

end Lines
end Ini

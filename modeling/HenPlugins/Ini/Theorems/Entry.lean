import HenPlugins.Ini.Theorems.Comments

open List CString

namespace Ini

variable {ini : INIFile} {sec : Section} {secs : List Section} {kv : KeyValue} {cs : List Comment} {l : Line}
  {ls : List Line} {file line pre rest k v c : Bytes}

-- The text of a line.
def content (line : Bytes) : Bytes :=
  (cstr line).takeWhile fun c => c ≠ cr ∧ c ≠ lf

theorem readLine_eq : readLine line = parseLine (content line) := rfl

theorem zero_not_mem_content : 0 ∉ content line :=
  fun h => zero_not_mem_cstr (( takeWhile_prefix _).mem h)

theorem splitComment_prefix : (splitComment line).1 <+: line := by
  have h {c : UInt8} {p : Bytes × Bytes} (he : extractComment line c = some p) : p.1 <+: line := by
    rw [extractComment] at he
    split at he
    case h_1 => contradiction
    case h_2 before after hs =>
      split at he
      case isTrue  => contradiction
      case isFalse =>
        obtain rfl := Option.some.inj he
        exact ⟨c :: after, (strchr_eq_some hs).left.symm⟩
  rw [splitComment]
  cases hs : extractComment line semicolon
  case some p => exact h hs
  case none =>
    cases hh : extractComment line CString.hash
    case some p => exact h hh
    case none   => exact prefix_rfl

namespace INIFile

-- All keys, in the order in which they have been read.
def entries (ini : INIFile) : List KeyValue :=
  (ini.sections.flatMap (·.keys)).reverse

@[simp]
theorem entries_empty : INIFile.empty.entries = [] := rfl

@[simp]
theorem entries_setPendingComments : (ini.setPendingComments cs).entries = ini.entries := by
  cases h : ini.sections <;> simp [entries, setPendingComments, h]

theorem entries_load_keyValue (h : ini.sections = sec :: secs) : (ini.load (.keyValue k v c)).entries =
    ini.entries ++ [{ createKey k with
      value := .strncpy v, comment := .strncpy c, commentsBefore := sec.commentsBefore }] := by
  simp [load, loadKeyValue, entries, h]

theorem entries_load_header : (ini.load (.header k c)).entries = ini.entries := by
  rw [load_header]
  exact entries_setPendingComments

-- Each line adds a key or none.
theorem entries_prefix_load : ini.entries <+: (ini.load l).entries := by
  cases l
  case comment text => simp [load, addPendingComment]
  case header       => rw [entries_load_header]
  case ignored      => exact prefix_rfl
  case keyValue k v c =>
    cases h : ini.sections
    case nil => simp [load, loadKeyValue, h]
    case cons sec secs =>
      rw [entries_load_keyValue h]
      exact prefix_append ..

theorem entries_prefix_foldl : ini.entries <+: (ls.foldl load ini).entries := by
  induction ls generalizing ini
  case nil          => exact prefix_rfl
  case cons l ls hi => exact entries_prefix_load.trans hi

theorem exists_of_entries_load (h : (ini.load l).entries = ini.entries ++ [kv]) :
    ∃ k v c, l = .keyValue k v c ∧ kv.key = .strncpy k ∧ kv.value = .strncpy v ∧ kv.comment = .strncpy c := by
  cases l
  case comment text => simp [load, addPendingComment] at h
  case header       => simp [entries_load_header] at h
  case ignored      => simp [load] at h
  case keyValue k v c =>
    cases hs : ini.sections
    case nil => simp [load, loadKeyValue, hs] at h
    case cons sec secs =>
      rw [entries_load_keyValue hs, append_cancel_left_eq, singleton_inj] at h
      exact ⟨k, v, c, rfl, h ▸ rfl, h ▸ rfl, h ▸ rfl⟩

end INIFile

theorem iniLoad_append (h : Stream.Terminated pre) : iniLoad (some (pre ++ rest)) =
    ((Stream.chunks maxLineLength rest).map readLine).foldl .load (iniLoad (some pre)) := by
  have hc := @Stream.chunks_append maxLineLength _ rest (by decide) h
  simp only [Stream.chunks] at hc
  rw [iniLoad, hc, foldl_append, foldl_map]
  rfl

-- A key is stored when a line is read that fits into the buffer.
structure Stores (file line : Bytes) (kv : KeyValue) : Prop where
  stored  : ∃ pre rest, file = pre ++ line ++ rest ∧ Stream.Terminated pre ∧ (∀ c ∈ rest.head?, c = lf) ∧
    (iniLoad (some (pre ++ line))).entries = (iniLoad (some pre)).entries ++ [kv]
  newline : lf ∉ line
  fits    : line.length ≤ 1022

theorem iniLoad_line (hp : Stream.Terminated pre) (hl : lf ∉ line) (hn : line ≠ []) (hf : line.length ≤ 1022) :
    iniLoad (some (pre ++ line)) = (iniLoad (some pre)).load (readLine line) := by
  rw [iniLoad_append hp, Stream.chunks_last hl hn (Nat.succ_lt_succ (Nat.lt_succ_of_le hf))]
  rfl

theorem iniLoad_line_append (hp : Stream.Terminated pre) (hl : lf ∉ line) (hn : line ≠ []) (hf : line.length ≤ 1022)
    (hr : ∀ c ∈ rest.head?, c = lf) :
    ∃ ls : List Line, iniLoad (some (pre ++ line ++ rest)) = ls.foldl .load (iniLoad (some (pre ++ line))) := by
  rw [iniLoad_line hp hl hn hf]
  cases rest
  case nil => exact ⟨[], by rw [append_nil, iniLoad_line hp hl hn hf]; rfl⟩
  case cons c rest =>
    obtain rfl := hr c rfl
    refine ⟨(Stream.chunks maxLineLength rest).map readLine, ?_⟩
    rw [append_assoc, iniLoad_append hp, Stream.chunks_line hl (Nat.succ_lt_succ (Nat.lt_succ_of_le hf)), map_cons,
      foldl_cons, ← readLine_takeWhile, Stream.takeWhile_line hl]

namespace Stores

variable (h : Stores file line kv)

include h

theorem exists_readLine :
    ∃ k v c, readLine line = .keyValue k v c ∧ kv.key = .strncpy k ∧ kv.value = .strncpy v ∧ kv.comment = .strncpy c := by
  have ⟨pre, rest, _, hp, _, he⟩ := h.stored
  have hn : line ≠ [] := by
    rintro rfl
    simp at he
  rw [iniLoad_line hp h.newline hn h.fits] at he
  exact INIFile.exists_of_entries_load he

-- What is stored stays there.
theorem mem_entries : kv ∈ (iniLoad (some file)).entries := by
  have ⟨pre, rest, hf, hp, hr, he⟩ := h.stored
  have hn : line ≠ [] := by
    rintro rfl
    simp at he
  have ⟨ls, hs⟩ := iniLoad_line_append hp h.newline hn h.fits hr
  rw [hf, hs]
  exact INIFile.entries_prefix_foldl.mem (by simp [he])

end Stores

end Ini

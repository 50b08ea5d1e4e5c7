import HenPlugins.Ini.Theorems.Reload

open List CString

namespace Ini

variable {ini : INIFile} {l file : Bytes} {ls : List Line} {cs : List Comment} {c : Comment}
  {b : Bool}

-- What `ini_load` makes of a line.
def readLine (line : Bytes) : Line :=
  parseLine <| (cstr line).takeWhile fun c => c ≠ cr ∧ c ≠ lf

-- All comments that can be reached in the structure and stand on a line of their own when it is saved.

def Section.comments (sec : Section) : List Comment :=
  sec.commentsBefore ++ sec.keys.flatMap (·.commentsBefore)

def INIFile.comments (ini : INIFile) : List Comment :=
  ini.headerComments ++ ini.sections.flatMap (·.comments)

theorem loadLine_eq : ini.loadLine l = ini.load (readLine l) := rfl

theorem readLine_takeWhile : readLine (l.takeWhile (· ≠ lf)) = readLine l := by
  simp only [readLine, cstr, takeWhile_takeWhile]
  congr 2
  funext c
  by_cases hc : c = lf
  all_goals simp [hc]

theorem iniLoad_lines (h : ∀ l ∈ Stream.lines file, l.length + 1 < maxLineLength) :
    iniLoad (some file) = ((Stream.lines file).map readLine).foldl .load .empty := by
  rw [← Stream.readLines_lines h le_rfl, map_map, foldl_map, iniLoad]
  apply foldl_ext
  intro ini l _
  rw [loadLine_eq, Function.comp_apply, readLine_takeWhile]

def Line.isHeader : Line → Bool
  | .header _ _ => true
  | _           => false

-- The comments in the structure after more lines have been read. Those that are still pending get to the next
-- key and are gone after the next header.
def survivors (current : Bool) (pending : List Comment) : List Line → List Comment
  | []                   => pending
  | .comment text :: ls  => survivors current (pending ++ [.strncpy text]) ls
  | .header _ _ :: ls    => survivors true [] ls
  | .keyValue _ _ _ :: ls =>
    if current then pending ++ survivors current [] ls else survivors current pending ls
  | .ignored :: ls       => survivors current pending ls

namespace INIFile

def hasSection (ini : INIFile) : Bool :=
  !ini.sections.isEmpty

@[simp]
theorem hasSection_setPendingComments : (ini.setPendingComments cs).hasSection = ini.hasSection := by
  cases h : ini.sections <;> simp [setPendingComments, hasSection, h]

theorem comments_perm : ini.comments ~ ini.dropPending.comments ++ ini.pendingComments := by
  cases h : ini.sections
  case nil => simp [comments, dropPending, setPendingComments, pendingComments, h]
  case cons sec secs =>
    simp only [comments, dropPending, setPendingComments, pendingComments, h, flatMap_cons, Section.comments,
      nil_append, append_assoc]
    refine Perm.append_left _ ?_
    rw [← append_assoc (sec.keys.flatMap _)]
    exact perm_append_comm

-- What is pending gets to the key.
theorem loadKeyValue_comments {key value comment : Bytes} (h : ini.hasSection) :
    let ini' := ini.load (.keyValue key value comment)
    ini'.dropPending.comments ~ ini.dropPending.comments ++ ini.pendingComments ∧ ini'.pendingComments = [] ∧
      ini'.hasSection := by
  cases hs : ini.sections
  case nil => simp [hasSection, hs] at h
  case cons sec secs =>
    simp only [load, loadKeyValue, comments, dropPending, setPendingComments, pendingComments, hs, flatMap_cons,
      Section.comments, createKey, nil_append, append_assoc]
    refine ⟨Perm.append_left _ ?_, trivial, rfl⟩
    rw [← append_assoc (sec.keys.flatMap _)]
    exact perm_append_comm

-- What is pending is lost.
theorem loadHeader_comments {name comment : Bytes} :
    let ini' := ini.load (.header name comment)
    ini'.dropPending.comments = ini.dropPending.comments ∧ ini'.pendingComments = [] ∧ ini'.hasSection := by
  rw [load_header]
  exact ⟨rfl, rfl, rfl⟩

theorem comments_foldl_load :
    (ls.foldl load ini).comments ~ ini.dropPending.comments ++ survivors ini.hasSection ini.pendingComments ls := by
  induction ls generalizing ini
  case nil => exact comments_perm
  case cons l ls hi =>
    rw [foldl_cons]
    refine hi.trans ?_
    cases l
    case comment text => simp [load, addPendingComment, survivors]
    case header name comment =>
      obtain ⟨hd, hp, hs⟩ := @loadHeader_comments ini name comment
      rw [hd, hp, hs, survivors]
    case keyValue key value comment =>
      rw [survivors]
      split
      case isTrue h =>
        obtain ⟨hd, hp, hs⟩ := @loadKeyValue_comments ini key value comment h
        rw [hp, hs, h, ← append_assoc]
        exact hd.append_right _
      case isFalse h =>
        have hs : ini.sections = [] := by simpa [hasSection] using h
        rw [load, loadKeyValue, hs]
    case ignored => rfl

end INIFile

-- A comment that is pending is not lost.
def kept (current : Bool) : List Line → Bool
  | []                    => true
  | .header _ _ :: _      => false
  | .keyValue _ _ _ :: ls => current || kept current ls
  | _ :: ls               => kept current ls

theorem survivors_perm {ps qs : List Comment} (h : qs ~ c :: ps) :
    survivors b qs ls ~ if kept b ls then c :: survivors b ps ls else survivors b ps ls := by
  induction ls generalizing ps qs
  case nil => simpa [survivors, kept] using h
  case cons l ls hi =>
    cases l
    case comment text => exact hi (h.append_right [.strncpy text])
    case header name comment => simp [survivors, kept]
    case keyValue key value comment =>
      cases b
      case false => simpa [survivors, kept] using hi h
      case true  => simpa [survivors, kept] using h.append_right _
    case ignored => exact hi h

theorem survivors_append : ∃ qs cs', ∀ ls', survivors b cs (ls ++ ls') =
    qs ++ survivors (b || ls.any Line.isHeader) cs' ls' := by
  induction ls generalizing b cs
  case nil => exact ⟨[], cs, by simp⟩
  case cons l ls hi =>
    cases l
    case comment text =>
      have ⟨qs, cs', h⟩ := @hi (cs ++ [.strncpy text]) b
      exact ⟨qs, cs', by simpa [survivors, Line.isHeader] using h⟩
    case header name comment =>
      have ⟨qs, cs', h⟩ := @hi [] true
      exact ⟨qs, cs', by simpa [survivors, Line.isHeader] using h⟩
    case keyValue key value comment =>
      cases b
      case false =>
        have ⟨qs, cs', h⟩ := @hi cs false
        exact ⟨qs, cs', by simpa [survivors, Line.isHeader] using h⟩
      case true =>
        have ⟨qs, cs', h⟩ := @hi [] true
        exact ⟨cs ++ qs, cs', by simpa [survivors, Line.isHeader] using h⟩
    case ignored =>
      have ⟨qs, cs', h⟩ := @hi cs b
      exact ⟨qs, cs', by simpa [survivors, Line.isHeader] using h⟩

-- A comment adds itself to what is left, or nothing.
theorem survivors_comment {text : Bytes} {ls' : List Line} :
    survivors false [] (ls ++ .comment text :: ls') ~
      if kept (ls.any Line.isHeader) ls' then .strncpy text :: survivors false [] (ls ++ ls')
      else survivors false [] (ls ++ ls') := by
  have ⟨qs, cs, h⟩ := @survivors_append ls [] false
  rw [h, h, Bool.false_or, survivors]
  have hp := @survivors_perm ls' (.strncpy text) (ls.any Line.isHeader) cs (cs ++ [.strncpy text])
    (perm_append_singleton ..)
  refine (hp.append_left qs).trans ?_
  split
  · exact perm_middle
  · rfl

end Ini

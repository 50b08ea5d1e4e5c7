import HenPlugins.Ini.SaveFile
import HenPlugins.Ini.Theorems.Reload

open List CString Stdio

namespace Ini

variable {ini : INIFile} {sec : Section} {kv : KeyValue} {cs : List Comment} {file filename : Option Bytes} {o : Outcomes}

def putLine (l : Bytes) : Writer :=
  fprintf (l ++ [lf])

theorem saveComments_eq : saveComments cs = forM (cs.map commentLine) putLine := by
  rw [forM_map]
  rfl

theorem KeyValue.save_eq : kv.save = forM kv.lines putLine := by
  rw [lines, forM_append, ← saveComments_eq, forM_cons, forM_nil]
  rfl

theorem Section.save_eq : sec.save = forM sec.lines putLine := by
  simp only [lines, forM_append, ← saveComments_eq, forM_cons, forM_nil, forM_flatMap, ← KeyValue.save_eq, bind_assoc]
  rfl

theorem INIFile.save_eq : ini.save = forM (ini.lines.map (· ++ [lf])) fprintf := by
  have h : ini.save = forM ini.lines putLine := by
    simp only [lines, forM_append, ← saveComments_eq, forM_flatMap, ← Section.save_eq]
    rfl
  rw [h, forM_map]
  rfl

theorem flatten_lines : (ini.lines.map (· ++ [lf])).flatten = iniSave ini := rfl

theorem iniSaveFile_of_fopen {name : Bytes} (h : o.fopen) : iniSaveFile o (some name) ini file =
    (true, { ini with modified := false },
      some (accept o.fclose (contents o.fprintf (ini.lines.map (· ++ [lf]))))) := by
  simp only [iniSaveFile, if_pos h, INIFile.save_eq, content_forM_fprintf, nil_append]

-- If nothing fails, the file holds what `ini_save` writes.
theorem iniSaveFile_of_succeeds {name : Bytes} :
    iniSaveFile ⟨true, [], none⟩ (some name) ini file = (true, { ini with modified := false }, some (iniSave ini)) := by
  rw [iniSaveFile_of_fopen rfl, contents_eq_iff.mpr whole_nil]
  rfl

-- The structure is written as a whole, or the call fails and nothing is changed.
structure AllOrNothing (ini : INIFile) (file : Option Bytes) (result : Bool × INIFile × Option Bytes) : Prop where
  saved  : result.1 = true → result.2.2 = some (iniSave ini) ∧ result.2.1 = { ini with modified := false }
  failed : result.1 = false → result.2.2 = file ∧ result.2.1 = ini

-- No line is cut off when it is written, and nothing is lost when the file is closed.
def Outcomes.Complete (o : Outcomes) (ini : INIFile) : Prop :=
  Whole o.fprintf (ini.lines.map (· ++ [lf])) ∧ ∀ n ∈ o.fclose, (iniSave ini).length ≤ n

-- Once the file has been opened, its old content is lost and no failure is noticed.
theorem iniSaveFile_allOrNothing_iff (ini : INIFile) (filename file : Option Bytes) (o : Outcomes) :
    AllOrNothing ini file (iniSaveFile o filename ini file) ↔ filename = none ∨ o.fopen = false ∨ o.Complete ini := by
  cases filename
  case none => exact iff_of_true ⟨by simp [iniSaveFile], fun _ => ⟨rfl, rfl⟩⟩ (.inl rfl)
  case some name =>
    rw [or_iff_right (Option.some_ne_none name)]
    cases ho : o.fopen
    case false =>
      have hs : iniSaveFile o (some name) ini file = (false, ini, file) := by simp [iniSaveFile, ho]
      rw [hs]
      exact iff_of_true ⟨by simp, fun _ => ⟨rfl, rfl⟩⟩ (.inl rfl)
    case true =>
      rw [iniSaveFile_of_fopen ho, or_iff_right (by simp), Outcomes.Complete, ← flatten_lines, ← accept_contents_eq_iff]
      constructor
      case mp  => exact fun h => Option.some.inj (h.saved rfl).left
      case mpr => exact fun h => ⟨fun _ => ⟨congrArg some h, rfl⟩, by simp⟩

-- The disk is full.
theorem iniSaveFile_loses_file :
    iniSaveFile ⟨true, [some 0, some 0], none⟩ (some (bytes "/data/hen/plugins.ini")) (iniLoad (bytes "[all]\n"))
      (bytes "[all]\n") = (true, iniLoad (bytes "[all]\n"), some []) ∧
    ¬AllOrNothing (iniLoad (bytes "[all]\n")) (bytes "[all]\n")
      (iniSaveFile ⟨true, [some 0, some 0], none⟩ (some (bytes "/data/hen/plugins.ini")) (iniLoad (bytes "[all]\n"))
        (bytes "[all]\n")) := by
  have he : iniSaveFile ⟨true, [some 0, some 0], none⟩ (some (bytes "/data/hen/plugins.ini")) (iniLoad (bytes "[all]\n"))
      (bytes "[all]\n") = (true, iniLoad (bytes "[all]\n"), some []) := by decide
  refine ⟨he, fun h => ?_⟩
  rw [he] at h
  exact absurd (h.saved rfl).left (by decide)

end Ini

import HenPlugins.Library.CString

open List

-- Path names, in which slashes separate the names of directories.
namespace PathName

abbrev slash  : UInt8 := 47
abbrev dot    : Bytes := [46]
abbrev dotDot : Bytes := [46, 46]

variable {s t c : Bytes} {cs ds es : List Bytes}

-- Repeated slashes separate as one does, and those at the ends separate nothing.
def components (s : Bytes) : List Bytes :=
  (s.splitOn slash).filter (· ≠ [])

def Absolute (s : Bytes) : Prop :=
  s.head? = some slash

instance : Decidable (Absolute s) :=
  inferInstanceAs (Decidable (_ = _))

-- What leads from the root to a file. Other paths are looked up from a working directory.
def resolve (pwd s : Bytes) : List Bytes :=
  if Absolute s then components s else components pwd ++ components s

@[simp]
theorem components_nil : components [] = [] := rfl

theorem components_append_slash : components (s ++ slash :: t) = components s ++ components t := by
  rw [components, splitOn_append_cons_self, filter_append, components, components]

@[simp]
theorem components_slash : components (slash :: s) = components s :=
  components_append_slash (s := [])

theorem components_of_not_mem (h : slash ∉ s) (hn : s ≠ []) : components s = [s] := by
  rw [components, splitOn_eq_singleton h, filter_singleton]
  simp [hn]

theorem components_concat_slash : components (s ++ [slash]) = components s := by
  rw [components_append_slash, components_nil, append_nil]

section Lexical

-- The directory that a path names if no component is a link to another one.
def lexicalStep (ds : List Bytes) (c : Bytes) : List Bytes :=
  if c = dot then ds else if c = dotDot then ds.dropLast else ds ++ [c]

def lexical (cs : List Bytes) : List Bytes :=
  cs.foldl lexicalStep []

-- No component is `.` or `..`.
def Plain (cs : List Bytes) : Prop :=
  ∀ c ∈ cs, c ≠ dot ∧ c ≠ dotDot

instance : Decidable (Plain cs) :=
  List.decidableBAll (fun c => c ≠ dot ∧ c ≠ dotDot) cs

theorem foldl_lexicalStep (h : Plain cs) : cs.foldl lexicalStep ds = ds ++ cs := by
  induction cs generalizing ds
  case nil          => simp
  case cons c cs hi =>
    rw [Plain, forall_mem_cons] at h
    rw [foldl_cons, hi h.right, lexicalStep, if_neg h.left.left, if_neg h.left.right, append_assoc,
      singleton_append]

theorem lexical_of_plain (h : Plain cs) : lexical cs = cs :=
  foldl_lexicalStep h

theorem Plain.dropLast (h : Plain cs) : Plain cs.dropLast :=
  fun c hc => h c (mem_of_mem_dropLast hc)

end Lexical

-- The directories of a file system. What `..` leads to is only known for the root.
structure FileSystem (Node : Type) where
  root        : Node
  child       : Node → Bytes → Option Node
  child_dot   : ∀ d, child d dot = some d
  root_dotDot : child root dotDot = some root

namespace FileSystem

variable {Node : Type} {fs : FileSystem Node}

def walk (fs : FileSystem Node) (cs : List Bytes) : Option Node :=
  cs.foldlM fs.child fs.root

theorem walk_concat : fs.walk (cs ++ [c]) = (fs.walk cs).bind (fs.child · c) := by
  simp [walk]

end FileSystem

section Location

-- What is known of the directory that is reached without looking at any file system.
def locationStep (ds : List Bytes) (c : Bytes) : List Bytes :=
  if c = dot ∨ c = dotDot ∧ ds = [] then ds else ds ++ [c]

def location (cs : List Bytes) : List Bytes :=
  cs.foldl locationStep []

theorem location_concat : location (cs ++ [c]) = locationStep (location cs) c :=
  foldl_concat ..

-- The file system in which all names are those of directories.
def free : FileSystem (List Bytes) where
  root        := []
  child       := fun d c => some (locationStep d c)
  child_dot   := fun d => by simp [locationStep]
  root_dotDot := by simp [locationStep]

theorem walk_free : free.walk cs = some (location cs) := by
  induction cs using List.reverseRecOn
  case nil                      => rfl
  case append_singleton cs c hi => rw [FileSystem.walk_concat, hi, location_concat]; rfl

theorem walk_location {Node : Type} {fs : FileSystem Node} : fs.walk (location cs) = fs.walk cs := by
  induction cs using List.reverseRecOn
  case nil                      => rfl
  case append_singleton cs c hi =>
    rw [location_concat, FileSystem.walk_concat, ← hi, locationStep]
    split
    case isFalse   => exact FileSystem.walk_concat
    case isTrue hc =>
      obtain rfl | ⟨rfl, hl⟩ := hc
      · cases h : fs.walk (location cs)
        case none   => rfl
        case some d => exact (fs.child_dot d).symm
      · rw [hl]
        exact fs.root_dotDot.symm

-- The paths lead to the same directory in every file system.
def SameDirectory (cs ds : List Bytes) : Prop :=
  ∀ (Node : Type) (fs : FileSystem Node), fs.walk cs = fs.walk ds

theorem sameDirectory_iff : SameDirectory cs ds ↔ location cs = location ds := by
  constructor
  case mp =>
    intro h
    have hf := h _ free
    rw [walk_free, walk_free] at hf
    exact Option.some.inj hf
  case mpr =>
    intro h Node fs
    rw [← walk_location, h, walk_location]

theorem foldl_locationStep (h : ds ≠ []) : cs.foldl locationStep ds = ds ++ cs.filter (· ≠ dot) := by
  induction cs generalizing ds
  case nil          => simp
  case cons c cs hi =>
    rw [foldl_cons, locationStep]
    by_cases hc : c = dot
    case pos => simp [hc, hi h]
    case neg => simp [hc, h, hi]

theorem length_location_le : (location cs).length ≤ (cs.filter (· ≠ dot)).length := by
  induction cs using List.reverseRecOn
  case nil                      => exact le_rfl
  case append_singleton cs c hi =>
    rw [location_concat, locationStep, filter_append, length_append]
    split
    case isTrue     => exact Nat.le_add_right_of_le hi
    case isFalse hc =>
      have hd : c ≠ dot := fun he => hc (.inl he)
      simpa [hd] using hi

theorem location_append (h : location cs ≠ []) : location (cs ++ es) = location cs ++ es.filter (· ≠ dot) := by
  rw [location, foldl_append]
  exact foldl_locationStep h

theorem location_append_of_nil (h : location cs = []) : location (cs ++ es) = location es := by
  rw [location, foldl_append, ← location, h, location]

-- What follows does not make up for a difference.
theorem location_append_right_inj : location (cs ++ es) = location (ds ++ es) ↔ location cs = location ds := by
  -- From the root, leading `..` are dropped, so that the path is too short.
  have hne {cs ds : List Bytes} (hc : location cs = []) (hd : location ds ≠ []) :
      location (cs ++ es) ≠ location (ds ++ es) := by
    intro h
    rw [location_append_of_nil hc, location_append hd] at h
    have hl := congrArg length h
    have hp := length_pos_iff.mpr hd
    have he : (location es).length ≤ (es.filter (· ≠ dot)).length := length_location_le
    rw [length_append] at hl
    omega
  by_cases hc : location cs = []
  case pos =>
    by_cases hd : location ds = []
    case pos => rw [location_append_of_nil hc, location_append_of_nil hd, hc, hd, eq_self, eq_self]
    case neg => exact iff_of_false (hne hc hd) fun h => hd (h ▸ hc)
  case neg =>
    by_cases hd : location ds = []
    case pos => exact iff_of_false (fun h => hne hd hc h.symm) fun h => hc (h ▸ hd)
    case neg => rw [location_append hc, location_append hd, append_cancel_right_eq]

end Location

end PathName

import HenPlugins.Ftp.Theorems.Directory

open List Prog CString PathName

namespace Ftp

variable {env : Env} {pwd arg p name q : Bytes} {fuel dir : Nat}

-- A name that an entry of a directory can have.
def EntryName (name : Bytes) : Prop :=
  name ≠ [] ∧ slash ∉ name ∧ name.length ≤ 255

-- The path is one of the directory that `ftp_abspath` gives.
def Designates (pwd : Bytes) (env : Env) (arg : Bytes) (cs : List Bytes) : Prop :=
  SameDirectory cs (resolve pwd (ftpAbspath env arg))

-- Keeps the name of the last entry. The directory that is opened and the ones in which the entries are looked up are
-- the one that `ftp_abspath` gives. The process itself works in `pwd`.
def lookups (pwd : Bytes) (env : Env) (arg : Bytes) : Monitor Result Bytes where
  next    := fun name e => match e with
    | ⟨.readdir _, some name⟩ => name
    | _                       => name
  Allows  := fun _ e => match e with
    | ⟨.readdir _, some name⟩ => EntryName name
    | _                       => True
  Demands := fun name c => match c with
    | .opendir path => Designates pwd env arg (resolve pwd path)
    | .stat path    => ∃ cs, resolve pwd path = cs ++ [name] ∧ Designates pwd env arg cs
    | _             => True

-- In every run, LIST works on the directory that the other commands would work on.
def ListsDirectory (pwd : Bytes) (env : Env) (arg : Bytes) : Prop :=
  ∀ fuel t o, (ftpCmdLIST fuel env arg).Observed t o → (lookups pwd env arg).Allowed [] t → (lookups pwd env arg).Met [] t

theorem lookups_answers : ∀ g c, ∃ r, (lookups pwd env arg).Allows g ⟨c, r⟩ := by
  intro g c
  cases c
  case readdir => exact ⟨none, trivial⟩
  case write   => exact ⟨⟨-1, .inl rfl⟩, trivial⟩
  case read | recv => exact ⟨.error .other, trivial⟩
  case getsockname | stat | opendir | strerrorR | realloc => exact ⟨none, trivial⟩
  case strerror | strftime => exact ⟨[], trivial⟩
  case calloc => exact ⟨true, trivial⟩
  case exit   => exact ⟨(), trivial⟩
  all_goals exact ⟨(0 : Int), trivial⟩

theorem listsDirectory_iff : ListsDirectory pwd env arg ↔
    ∀ fuel, (ftpCmdLIST fuel env arg).wp (lookups pwd env arg) (fun _ _ => True) [] :=
  forall_congr' fun _ => (wp_iff_met lookups_answers).symm

section Paths

-- The arguments are not cut off on their way to `ftp_abspath` and `stat`, and relative ones are looked up from the same
-- directory by `opendir`.
structure ResolvesAlike (pwd : Bytes) (env : Env) (arg : Bytes) : Prop where
  absolute : Absolute arg → arg.length ≤ 1025 ∧ location (components (arg.take pathMax)) = location (components arg)
  relative : ¬Absolute arg → env.cwd.text.length + arg.length ≤ 1023 ∧
    location (components env.cwd.text) = location (components pwd)

theorem resolve_ftpAbspath (h : env.Absolute) : resolve pwd (ftpAbspath env arg) = components (ftpAbspath env arg) :=
  if_pos (absolute_ftpAbspath h)

theorem ftpAbspath_of_absolute (h : Absolute arg) : ftpAbspath env arg = arg.take pathMax :=
  if_neg (not_not.mpr h)

theorem ftpAbspath_of_relative (h : ¬Absolute arg) : ftpAbspath env arg = (env.cwd.text ++ slash :: arg).take pathMax :=
  if_pos h

theorem listPath_of_absolute (h : Absolute arg) :
    listPath env arg name = (arg ++ slash :: name).take (pathMax + 256 + 1) :=
  congrArg (take _) (if_pos h)

theorem listPath_of_relative (h : ¬Absolute arg) : listPath env arg name =
    ((slash :: env.cwd.text ++ slash :: arg) ++ slash :: name).take (pathMax + 256 + 1) :=
  congrArg (take _) (if_neg h)

theorem resolve_listPath : resolve pwd (listPath env arg name) = components (listPath env arg name) := by
  refine if_pos (absolute_take ?_ (by decide))
  split
  case isTrue ha =>
    rw [Absolute, head?_append, ha]
    rfl
  case isFalse => rfl

theorem components_ftpAbspath (h : ¬Absolute arg) (hl : env.cwd.text.length + arg.length ≤ 1023) :
    components (ftpAbspath env arg) = components env.cwd.text ++ components arg := by
  rw [ftpAbspath_of_relative h, take_of_length_le, components_append_slash]
  simp only [length_append, length_cons, pathMax]
  omega

theorem ResolvesAlike.opendir (h : ResolvesAlike pwd env arg) (ha : env.Absolute) :
    Designates pwd env arg (resolve pwd arg) := by
  rw [Designates, sameDirectory_iff, resolve_ftpAbspath ha, resolve]
  split
  case isTrue hr  => rw [ftpAbspath_of_absolute hr, (h.absolute hr).right]
  case isFalse hr =>
    have ⟨hl, he⟩ := h.relative hr
    rw [components_ftpAbspath hr hl, location_append_right_inj, he]

theorem ResolvesAlike.stat (h : ResolvesAlike pwd env arg) (ha : env.Absolute) (hn : EntryName name) :
    ∃ cs, resolve pwd (listPath env arg name) = cs ++ [name] ∧ Designates pwd env arg cs := by
  have ⟨hz, hs, hl⟩ := hn
  simp only [Designates, sameDirectory_iff, resolve_ftpAbspath ha, resolve_listPath]
  by_cases hr : Absolute arg
  case pos =>
    obtain ⟨hf, he⟩ := h.absolute hr
    refine ⟨components arg, ?_, by rw [ftpAbspath_of_absolute hr, he]⟩
    have hp : listPath env arg name = arg ++ slash :: name := by
      rw [listPath_of_absolute hr, take_of_length_le]
      simp only [length_append, length_cons, pathMax]
      omega
    rw [hp, components_append_slash, components_of_not_mem hs hz]
  case neg =>
    obtain ⟨hf, _⟩ := h.relative hr
    refine ⟨components env.cwd.text ++ components arg, ?_, by rw [components_ftpAbspath hr hf]⟩
    have hp : listPath env arg name = (slash :: env.cwd.text ++ slash :: arg) ++ slash :: name := by
      rw [listPath_of_relative hr, take_of_length_le]
      simp only [length_append, length_cons, pathMax]
      omega
    rw [hp, components_append_slash, components_append_slash, components_slash, components_of_not_mem hs hz]

end Paths

section Runs

variable {Q : Option (Int × Env) → Bytes → Prop}

theorem lookups_listLoop {env' : Env} (h : ResolvesAlike pwd env arg) (ha : env.Absolute) (he : env'.cwd = env.cwd) :
    (listLoop env' arg dir fuel).wp (lookups pwd env arg) (fun _ _ => True) name := by
  induction fuel generalizing name
  case zero => trivial
  case succ fuel hi =>
    refine wp_call.mpr ⟨trivial, fun r hn => ?_⟩
    cases r
    case none => trivial
    case some name =>
      have hp : listPath env' arg name = listPath env arg name := by rw [listPath, he, listPath]
      refine wp_call.mpr ⟨?_, fun st _ => ?_⟩
      case refine_1 =>
        rw [hp]
        exact h.stat ha hn
      case refine_2 =>
        cases st
        case none    => exact hi
        case some st => exact wp_call.mpr ⟨trivial, fun time _ => ⟨trivial, fun n _ => hi⟩⟩

-- Opening the data connection leaves the working directory as it is.
theorem lookups_ftpDataOpen {k : Int × Env → Proc (Int × Env)}
    (h : ∀ r env', env'.cwd = env.cwd → (k (r, env')).wp (lookups pwd env arg) Q name) :
    (ftpDataOpen env >>= k).wp (lookups pwd env arg) Q name := by
  rw [ftpDataOpen]
  split
  case isTrue  => exact wp_call.mpr ⟨trivial, fun r _ => h _ env rfl⟩
  case isFalse => exact wp_call.mpr ⟨trivial, fun fd _ => h _ _ rfl⟩

theorem lookups_ftpCmdLIST (h : ResolvesAlike pwd env arg) (ha : env.Absolute) (hn : arg ≠ [] ∧ arg.head? ≠ some 45) :
    (ftpCmdLIST fuel env arg).wp (lookups pwd env arg) (fun _ _ => True) name := by
  rw [ftpCmdLIST, if_pos hn]
  refine wp_call.mpr ⟨h.opendir ha, fun dir _ => ?_⟩
  cases dir
  case none     => exact ⟨trivial, fun _ _ => ⟨trivial, fun _ _ => trivial⟩⟩
  case some dir =>
    refine lookups_ftpDataOpen fun r env' he => wp_if (fun _ => ?_) fun _ => ?_
    case refine_1 => exact ⟨trivial, fun _ _ => ⟨trivial, fun _ _ => trivial⟩⟩
    refine wp_call.mpr ⟨trivial, fun n _ => wp_bind.mpr ?_⟩
    apply wp_mono (lookups_listLoop h ha he)
    intro o g _
    cases o
    case none => trivial
    case some =>
      refine wp_call.mpr ⟨trivial, fun r _ => wp_if (fun _ => ?_) fun _ => ?_⟩
      case refine_1 => exact ⟨trivial, fun _ _ => ⟨trivial, fun _ _ => ⟨trivial, fun _ _ => trivial⟩⟩⟩
      case refine_2 =>
        refine wp_call.mpr ⟨trivial, fun r _ => wp_if (fun _ => ?_) fun _ => ⟨trivial, fun _ _ => trivial⟩⟩
        exact ⟨trivial, fun _ _ => ⟨trivial, fun _ _ => trivial⟩⟩

theorem exists_of_ftpDataOpen {k : Int × Env → Proc (Int × Env)}
    (h : (ftpDataOpen env >>= k).wp (lookups pwd env arg) Q name) :
    ∃ env', env'.cwd = env.cwd ∧ (k (0, env')).wp (lookups pwd env arg) Q name := by
  rw [ftpDataOpen] at h
  split at h
  case isTrue  => exact ⟨env, rfl, wp_call.mp h |>.right (0 : Int) trivial⟩
  case isFalse => exact ⟨{ env with dataFd := 0 }, rfl, wp_call.mp h |>.right (0 : Int) trivial⟩

-- There is a run in which an entry of the given name is looked up.
theorem stat_of_listsDirectory (h : ListsDirectory pwd env arg) (ha : arg ≠ [] ∧ arg.head? ≠ some 45)
    (hn : EntryName name) :
    ∃ cs, resolve pwd (listPath env arg name) = cs ++ [name] ∧ Designates pwd env arg cs := by
  have hw := listsDirectory_iff.mp h 1
  rw [ftpCmdLIST, if_pos ha] at hw
  have hw := wp_call.mp hw |>.right (some 0) trivial
  have ⟨env', he, hw⟩ := exists_of_ftpDataOpen hw
  have hw := wp_call.mp hw |>.right (0 : Int) trivial
  have hp : listPath env' arg name = listPath env arg name := by rw [listPath, he, listPath]
  have hs := wp_call.mp hw |>.right (some name) hn
  exact hp ▸ (wp_call.mp hs).left

theorem opendir_of_listsDirectory (h : ListsDirectory pwd env arg) (ha : arg ≠ [] ∧ arg.head? ≠ some 45) :
    Designates pwd env arg (resolve pwd arg) := by
  have hw := listsDirectory_iff.mp h 0
  rw [ftpCmdLIST, if_pos ha] at hw
  exact (wp_call.mp hw).left

end Runs

section Cut

variable {c d : UInt8} {x : Bytes}

theorem entryName_replicate (hc : c ≠ slash) : EntryName (replicate 255 c) := by
  refine ⟨?_, fun hm => hc (eq_of_mem_replicate hm).symm, ?_⟩
  · rw [Ne, replicate_eq_nil_iff]
    decide
  · rw [length_replicate]

-- If there is not enough room for every name, then the end of some name is missing.
theorem length_le_of_cut (h : ∀ name, EntryName name →
    ∃ cs, components ((x ++ slash :: name).take (pathMax + 256 + 1)) = cs ++ [name]) : x.length ≤ 1025 := by
  by_contra hl
  have ha : EntryName (replicate 255 97) := entryName_replicate (by decide)
  have hb : EntryName (replicate 255 98) := entryName_replicate (by decide)
  have ⟨as, has⟩ := h _ ha
  have ⟨bs, hbs⟩ := h _ hb
  by_cases hx : (x ++ [slash]).length < pathMax + 256 + 1
  case neg =>
    -- Nothing of the names is left.
    have hcut (name : Bytes) : (x ++ slash :: name).take (pathMax + 256 + 1) = (x ++ [slash]).take (pathMax + 256 + 1) := by
      rw [append_cons, take_append_of_le_length (Nat.le_of_not_lt hx)]
    rw [hcut] at has hbs
    have he := (append_inj' (has.symm.trans hbs) rfl).right
    have hr := (replicate_inj.mp (singleton_inj.mp he)).right
    exact absurd hr (by decide)
  case pos =>
    rw [length_append, length_singleton] at hx
    simp only [pathMax] at hx has
    have ⟨k, hk⟩ : ∃ k, 1024 + 256 + 1 - x.length = k + 1 := ⟨1024 + 256 + 1 - x.length - 1, by omega⟩
    have hz : replicate k (97 : UInt8) ≠ [] := by
      rw [Ne, replicate_eq_nil_iff]
      omega
    have hs : slash ∉ replicate k (97 : UInt8) := fun hm => absurd (eq_of_mem_replicate hm) (by decide)
    rw [take_append, take_of_length_le (by omega), hk, take_succ_cons, take_replicate, Nat.min_eq_left (by omega),
      components_append_slash, components_of_not_mem hs hz] at has
    have he := (append_inj' has rfl).right
    have hr := (replicate_inj.mp (singleton_inj.mp he)).left
    omega

end Cut

theorem ListsDirectory.resolvesAlike (hl : ListsDirectory pwd env arg) (h : env.Absolute)
    (ha : arg ≠ [] ∧ arg.head? ≠ some 45) : ResolvesAlike pwd env arg := by
  have ho := opendir_of_listsDirectory hl ha
  rw [Designates, sameDirectory_iff, resolve_ftpAbspath h, resolve] at ho
  have hs {name : Bytes} (hn : EntryName name) : ∃ cs, components (listPath env arg name) = cs ++ [name] := by
    have ⟨cs, hc, _⟩ := stat_of_listsDirectory hl ha hn
    exact ⟨cs, resolve_listPath ▸ hc⟩
  constructor
  case absolute =>
    intro hr
    rw [if_pos hr, ftpAbspath_of_absolute hr] at ho
    refine ⟨length_le_of_cut fun name hn => ?_, ho.symm⟩
    rw [← listPath_of_absolute hr]
    exact hs hn
  case relative =>
    intro hr
    have hx : (slash :: env.cwd.text ++ slash :: arg).length ≤ 1025 := by
      refine length_le_of_cut fun name hn => ?_
      rw [← listPath_of_relative hr]
      exact hs hn
    simp only [length_append, length_cons] at hx
    have hf : env.cwd.text.length + arg.length ≤ 1023 := by omega
    rw [if_neg hr, components_ftpAbspath hr hf, location_append_right_inj] at ho
    exact ⟨hf, ho.symm⟩

-- A command is executed in this state.
def Reachable (env : Env) : Prop :=
  ∃ activeFd steps t o past s rest, Session (initEnv activeFd) steps t o ∧ steps = past ++ s :: rest ∧ s.env = env

theorem Reachable.absolute (h : Reachable env) : env.Absolute := by
  obtain ⟨_, _, _, _, past, s, rest, h, hs, rfl⟩ := h
  exact (h.absolute past s rest hs).left

-- LIST opens what its argument is to the process, but looks the entries up where it is to the client.
theorem listsDirectory_iff_resolvesAlike (pwd : Bytes) (env : Env) (arg : Bytes) (h : Reachable env)
    (ha : arg ≠ [] ∧ arg.head? ≠ some 45) : ListsDirectory pwd env arg ↔ ResolvesAlike pwd env arg :=
  ⟨fun hl => hl.resolvesAlike h.absolute ha,
    fun hr => listsDirectory_iff.mpr fun _ => lookups_ftpCmdLIST hr h.absolute ha⟩

theorem listsDirectory_sample : ListsDirectory [slash] (initEnv 4) (bytes "a") := by
  have ⟨t, o, h⟩ := @session_of_replays (initEnv 4) [cwdStep (bytes "/a")] 10 (by decide +kernel)
  have hr : Reachable (initEnv 4) := ⟨4, _, t, o, [], _, [], h, rfl, rfl⟩
  refine listsDirectory_iff_resolvesAlike [slash] (initEnv 4) (bytes "a") hr (by decide) |>.mpr ⟨?_, ?_⟩
  case refine_1 => exact fun ha => absurd ha (by decide)
  case refine_2 => exact fun _ => ⟨by decide, by decide⟩

-- The process does not change its directory when the client does.
theorem listsDirectory_fails : Reachable (inDir (bytes "/a")) ∧ ¬ListsDirectory [slash] (inDir (bytes "/a")) (bytes "b") := by
  have ⟨t, o, h⟩ := @session_of_replays (initEnv 4) [cwdStep (bytes "/a"), cdupStep (bytes "/a") (bytes "/")] 10
    (by decide +kernel)
  have hr : Reachable (inDir (bytes "/a")) := ⟨4, _, t, o, [cwdStep (bytes "/a")], _, [], h, rfl, rfl⟩
  refine ⟨hr, fun hl => ?_⟩
  have ho := opendir_of_listsDirectory hl (by decide)
  exact absurd (sameDirectory_iff.mp ho) (by decide)

end Ftp

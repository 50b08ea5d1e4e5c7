import HenPlugins.Ftp.Abspath
import HenPlugins.Ftp.Theorems.Directory

open List Prog Monitor CString Number CharArray

namespace Ftp

variable {α : Type} {env : Env} {s : Step} {steps : List Step} {g : List Bytes} {P : List Bytes → Prop}
  {buf abspath path arg q text p : Bytes} {fd : Int} {fuel dir : Nat} {usage done : String}

section Array

-- What a path is resolved to if there is room for all of it.
def fullPath (env : Env) (path : Bytes) : Bytes :=
  if path.head? ≠ some slash then env.cwd.text ++ slash :: path else path

theorem ftpAbspath_eq : ftpAbspath env path = (fullPath env path).take pathMax := by
  rw [ftpAbspath, fullPath]
  split <;> rfl

theorem zero_not_mem_fullPath (h : 0 ∉ path) : 0 ∉ fullPath env path := by
  have hs : (0 : UInt8) ≠ slash := by decide
  rw [fullPath]
  split
  case isTrue  => simp [h, hs, env.cwd.terminated]
  case isFalse => exact h

-- The local array has room for one byte more than the destination, so that only the destination cuts the path.
theorem ftpAbspathArray_eq (hb : buf.length = pathMax + 1) (ha : abspath.length = pathMax) (h : 0 ∉ path) :
    ftpAbspathArray env buf abspath path = some ((fullPath env path ++ replicate pathMax 0).take pathMax) := by
  have hc : 0 ∉ fullPath env path := zero_not_mem_fullPath h
  have hf (s : Bytes) : strncpy abspath s pathMax = some ((s ++ replicate pathMax 0).take pathMax) :=
    ha ▸ strncpy_full
  rw [ftpAbspathArray]
  split
  case isTrue hp =>
    have he : fullPath env path = env.cwd.text ++ slash :: path := if_pos hp
    have hs : (snprintf buf (pathMax + 1) (env.cwd.text ++ slash :: path)).bind string =
        some ((fullPath env path).take pathMax) := he ▸ string_snprintf (he ▸ hc) (Nat.succ_pos pathMax) hb.ge
    calc
      _ = ((snprintf buf (pathMax + 1) (env.cwd.text ++ slash :: path)).bind string).bind
          fun s => strncpy abspath s pathMax := by
        rw [Option.bind_assoc]
        rfl
      _ = strncpy abspath ((fullPath env path).take pathMax) pathMax := by rw [hs, Option.bind_some]
      _ = strncpy abspath (fullPath env path) pathMax := strncpy_take
      _ = _ := hf _
  case isFalse hp =>
    have he : fullPath env path = path := if_neg hp
    rw [he, hf]

-- The array holds the string by which the commands are modelled, or all of it is what they are modelled by.
theorem string_ftpAbspathArray (h : 0 ∉ path) :
    string ((fullPath env path ++ replicate pathMax 0).take pathMax) =
      if (fullPath env path).length < pathMax then some (ftpAbspath env path) else none := by
  rw [string_filled (zero_not_mem_fullPath h), ftpAbspath_eq]
  split
  case isTrue hl => rw [take_of_length_le (Nat.le_of_lt hl)]
  case isFalse   => rfl

end Array

section Commands

-- The arrays that have been handed over, the last one first.
def handing : Monitor Result (List Bytes) where
  next g e := e.call.buffers ++ g

-- One array at least has been handed over, and all of them hold the same.
def Only (q : Bytes) (g : List Bytes) : Prop :=
  q ∈ g ∧ ∀ p ∈ g, p = q

theorem Only.single : Only q [q] := by
  simp [Only]

theorem Only.cons (h : Only q g) : Only q (q :: g) :=
  ⟨mem_cons_self, by simpa using h.right⟩

theorem handing_reply (h : P g) : (reply env text).wp handing (fun _ => P) g :=
  ⟨trivial, fun _ _ => h⟩

theorem handing_perror (h : P g) : (perror env).wp handing (fun _ => P) g :=
  ⟨trivial, fun _ _ => ⟨trivial, fun _ _ => h⟩⟩

theorem handing_perrorClose (h : P g) : (perrorClose env fd).wp handing (fun _ => P) g :=
  ⟨trivial, fun _ _ => ⟨trivial, fun _ _ => ⟨trivial, fun _ _ => h⟩⟩⟩

theorem handing_perrorDataClose {Q : Option α → List Bytes → Prop} {k : Int → Proc α}
    (h : ∀ ret, (k ret).wp handing Q g) :
    (perrorDataClose env fd >>= k).wp handing Q g :=
  ⟨trivial, fun _ _ => ⟨trivial, fun _ _ => ⟨trivial, fun _ _ => ⟨trivial, fun _ _ => h _⟩⟩⟩⟩

theorem handing_closeFd {Q : Option α → List Bytes → Prop} {k : Unit → Proc α} (h : (k ()).wp handing Q g) :
    (closeFd fd >>= k).wp handing Q g :=
  wp_bind.mpr <| wp_if (fun _ => ⟨trivial, fun _ _ => h⟩) fun _ => h

theorem handing_ftpActivePrintf {Q : Option α → List Bytes → Prop} {k : Int → Proc α}
    (h : ∀ r, (k r).wp handing Q g) :
    (ftpActivePrintf env text >>= k).wp handing Q g :=
  ⟨trivial, fun _ _ => h _⟩

theorem handing_ftpDataOpen {Q : Option α → List Bytes → Prop} {k : Int × Env → Proc α}
    (h : ∀ r, (k r).wp handing Q g) :
    (ftpDataOpen env >>= k).wp handing Q g :=
  wp_bind.mpr <| wp_if (fun _ => ⟨trivial, fun _ _ => h _⟩) fun _ => ⟨trivial, fun _ _ => h _⟩

theorem handing_moving {c : Call} (h : Moving c) : handing.Demands g c ∧ ∀ r, handing.next g ⟨c, r⟩ = g := by
  cases c
  case activeWrite | dataWrite | write | read | recv | close | strerrorR => exact ⟨trivial, fun _ => rfl⟩
  all_goals contradiction

theorem handing_retrLoop : (retrLoop env fd fuel).wp handing (fun _ g' => g' = g) g :=
  wp_mono (wp_of_silent (fun _ => handing_moving) retrLoop_within) fun _ _ h => h.right

theorem handing_storLoop {off : Int} : (storLoop env fd fuel off).wp handing (fun _ g' => g' = g) g :=
  wp_mono (wp_of_silent (fun _ => handing_moving) storLoop_within) fun _ _ h => h.right

-- The paths of a listing have an array of their own.
def Listed (g : List Bytes) : Prop :=
  ∀ p ∈ g, p.length < pathMax + 256 + 2

theorem handing_listLoop (hg : Listed g) : (listLoop env p dir fuel).wp handing (fun _ => Listed) g := by
  induction fuel generalizing g
  case zero => exact hg
  case succ fuel hi =>
    refine wp_call.mpr ⟨trivial, fun name _ => ?_⟩
    rcases name with _ | name
    case none => exact hg
    case some =>
      refine wp_call.mpr ⟨trivial, fun st _ => ?_⟩
      have hl : (listPath env p name).length < pathMax + 256 + 2 := by
        rw [listPath, length_take]
        omega
      have hg' : Listed (listPath env p name :: g) := forall_mem_cons.mpr ⟨hl, hg⟩
      cases st
      case none    => exact hi hg'
      case some st => exact ⟨trivial, fun time _ => ⟨trivial, fun n _ => hi hg'⟩⟩

theorem handing_ftpCmdLIST : (ftpCmdLIST fuel env arg).wp handing (fun _ => Listed) [] := by
  have hn : Listed [] := fun _ => nofun
  refine wp_call.mpr ⟨trivial, fun dir _ => ?_⟩
  cases dir
  case none     => exact handing_perror hn
  case some dir =>
    refine handing_ftpDataOpen fun r => wp_if (fun _ => handing_perror hn) fun _ => handing_ftpActivePrintf fun _ => ?_
    refine wp_bind.mpr (wp_mono (handing_listLoop hn) fun o g hg => ?_)
    cases o
    case none => exact hg
    case some =>
      refine ⟨trivial, fun r _ => wp_if (fun _ => ?_) fun _ => ?_⟩
      case refine_1 => exact ⟨trivial, fun _ _ => ⟨trivial, fun _ _ => ⟨trivial, fun _ _ => hg⟩⟩⟩
      case refine_2 => exact ⟨trivial, fun r _ => wp_if (fun _ => handing_perror hg) fun _ => handing_reply hg⟩

theorem handing_ftpCmdPASV : (ftpCmdPASV env arg).wp handing (fun _ g => g = []) [] := by
  refine wp_call.mpr ⟨trivial, fun sockaddr _ => ?_⟩
  rcases sockaddr with _ | sockaddr
  case none => exact handing_perror rfl
  case some =>
    refine handing_closeFd ⟨trivial, fun passiveFd _ => ?_⟩
    refine wp_if (fun _ => handing_perror rfl) fun _ => wp_call.mpr ⟨trivial, fun r _ => ?_⟩
    refine wp_if (fun _ => handing_perrorClose rfl) fun _ => wp_call.mpr ⟨trivial, fun r _ => ?_⟩
    refine wp_if (fun _ => handing_perrorClose rfl) fun _ => wp_call.mpr ⟨trivial, fun bound _ => ?_⟩
    rcases bound with _ | bound
    case none => exact handing_perrorClose rfl
    case some => exact handing_reply rfl

theorem handing_ftpCmdPORT : (ftpCmdPORT env arg).wp handing (fun _ g => g = []) [] := by
  rw [ftpCmdPORT]
  cases sscanfBytes 6 arg
  case none      => exact handing_reply rfl
  case some addr => exact ⟨trivial, fun dataFd _ => wp_if (fun _ => handing_perror rfl) fun _ => handing_reply rfl⟩

theorem handing_ftpCmdTYPE : (ftpCmdTYPE env arg).wp handing (fun _ g => g = []) [] := by
  rw [ftpCmdTYPE]
  split <;> exact handing_reply rfl

-- The commands whose argument is a path.
def pathCommands : List Bytes :=
  ["APPE", "CWD", "DELE", "MKD", "RETR", "RMD", "RNFR", "SIZE", "STOR", "XCUP", "XMKD", "XRMD"].map bytes

-- What they have handed over in the end.
def Resolved (env : Env) (arg : Bytes) (g : List Bytes) : Prop :=
  (arg = [] → g = []) ∧ (arg ≠ [] → Only (ftpAbspath env arg) g)

def Hands (env : Env) (arg : Bytes) (p : Proc (Int × Env)) : Prop :=
  p.wp handing (fun _ => Resolved env arg) []

theorem Resolved.nil (ha : arg = []) : Resolved env arg [] :=
  ⟨fun _ => rfl, absurd ha⟩

theorem Resolved.only (ha : arg ≠ []) (h : Only (ftpAbspath env arg) g) : Resolved env arg g :=
  ⟨(absurd · ha), fun _ => h⟩

theorem hands_pathCmd {call : Bytes → Proc Int} (hc : ∀ p, (call p).wp handing (fun _ => (· = [p])) []) :
    Hands env arg (pathCmd usage done call env arg) := by
  refine wp_if (fun ha => handing_reply (.nil ha)) fun ha => wp_bind.mpr (wp_mono (hc _) ?_)
  rintro o _ rfl
  have hr : Resolved env arg [ftpAbspath env arg] := .only ha .single
  cases o
  case none => exact hr
  case some => exact wp_if (fun _ => handing_perror hr) fun _ => handing_reply hr

-- The path is looked up first.
theorem handing_lookup {f : Option Stat → Proc (Int × Env)} (hn : (f none).wp handing (fun _ => P) [q])
    (hs : ∀ st, (f (some st)).wp handing (fun _ => P) [q]) : (perform (.stat q) >>= f).wp handing (fun _ => P) [] := by
  refine wp_call.mpr ⟨trivial, fun st _ => ?_⟩
  rcases st with _ | st
  case none => exact hn
  case some => exact hs st

theorem hands_ftpCmdCWD : Hands env arg (ftpCmdCWD env arg) := by
  refine wp_if (fun ha => handing_reply (.nil ha)) fun ha => ?_
  have hr : Resolved env arg [ftpAbspath env arg] := .only ha .single
  exact handing_lookup (handing_perror hr) fun st => wp_if (fun _ => handing_reply hr) fun _ => handing_reply hr

theorem hands_ftpCmdRNFR : Hands env arg (ftpCmdRNFR env arg) := by
  refine wp_if (fun ha => handing_reply (.nil ha)) fun ha => ?_
  have hr : Resolved env arg [ftpAbspath env arg] := .only ha .single
  exact handing_lookup (handing_perror hr) fun st => handing_reply hr

theorem hands_ftpCmdSIZE : Hands env arg (ftpCmdSIZE env arg) := by
  refine wp_if (fun ha => handing_reply (.nil ha)) fun ha => ?_
  have hr : Resolved env arg [ftpAbspath env arg] := .only ha .single
  exact handing_lookup (handing_perror hr) fun st => handing_reply hr

theorem hands_ftpCmdRETR : Hands env arg (ftpCmdRETR fuel env arg) := by
  refine wp_if (fun ha => handing_reply (.nil ha)) fun ha => ?_
  have hr : Resolved env arg [ftpAbspath env arg] := .only ha .single
  refine handing_lookup (handing_perror hr) fun st => wp_if (fun _ => handing_reply hr) fun _ => ?_
  refine wp_call.mpr ⟨trivial, fun fd _ => ?_⟩
  have hr : Resolved env arg [ftpAbspath env arg, ftpAbspath env arg] := .only ha (.cons .single)
  refine wp_if (fun _ => ⟨trivial, fun text _ => handing_reply hr⟩) fun _ => handing_ftpActivePrintf fun r => ?_
  refine wp_if (fun _ => ⟨trivial, fun _ _ => hr⟩) fun _ => handing_ftpDataOpen fun r => ?_
  refine wp_if (fun _ => handing_perrorClose hr) fun _ => wp_bind.mpr (wp_mono handing_retrLoop ?_)
  rintro o _ rfl
  rcases o with _ | err | _
  case none       => exact hr
  case some.error => exact hr
  case some.ok    =>
    exact ⟨trivial, fun r _ => ⟨trivial, fun r' _ => wp_if (fun _ => handing_perror hr) fun _ => handing_reply hr⟩⟩

-- Appending comes to storing after the file has been looked up.
theorem handing_ftpCmdSTOR (ha : arg ≠ []) (hg : ∀ p ∈ g, p = ftpAbspath env arg) :
    (ftpCmdSTOR fuel env arg).wp handing (fun _ => Resolved env arg) g := by
  have hr : Resolved env arg (ftpAbspath env arg :: g) := .only ha ⟨mem_cons_self, forall_mem_cons.mpr ⟨rfl, hg⟩⟩
  refine wp_if (fun h => absurd h ha) fun _ => wp_call.mpr ⟨trivial, fun fd _ => ?_⟩
  refine wp_if (fun _ => handing_perror hr) fun _ => wp_call.mpr ⟨trivial, fun r _ => ?_⟩
  refine wp_if (fun _ => handing_perrorClose hr) fun _ => handing_ftpActivePrintf fun r => ?_
  refine wp_if (fun _ => ⟨trivial, fun _ _ => hr⟩) fun _ => handing_ftpDataOpen fun r => ?_
  refine wp_if (fun _ => handing_perrorClose hr) fun _ => wp_bind.mpr (wp_mono handing_storLoop ?_)
  rintro o _ rfl
  rcases o with _ | err | off
  case none       => exact hr
  case some.error => exact hr
  case some.ok    =>
    refine wp_call.mpr ⟨trivial, fun r _ => wp_if (fun _ => handing_perrorDataClose fun ret => hr) fun _ => ?_⟩
    exact ⟨trivial, fun r _ => ⟨trivial, fun r' _ => wp_if (fun _ => handing_perror hr) fun _ => handing_reply hr⟩⟩

theorem hands_ftpCmdSTOR : Hands env arg (ftpCmdSTOR fuel env arg) := by
  by_cases ha : arg = []
  case pos => exact wp_if (fun ha => handing_reply (.nil ha)) fun h => absurd ha h
  case neg => exact handing_ftpCmdSTOR ha nofun

theorem hands_ftpCmdAPPE : Hands env arg (ftpCmdAPPE fuel env arg) := by
  refine wp_if (fun ha => handing_reply (.nil ha)) fun ha => wp_if (fun _ => ?_) fun _ => handing_ftpCmdSTOR ha nofun
  have hg : ∀ p ∈ [ftpAbspath env arg], p = ftpAbspath env arg := by simp
  refine handing_lookup (handing_perror (.only ha .single)) fun st => ?_
  exact @handing_ftpCmdSTOR { env with dataOffset := st.size } [ftpAbspath env arg] arg fuel ha hg

-- What the commands hand over: that of a path command, of a command that is looked at on its own, or nothing.
inductive Handing (fuel : Nat) (env : Env) (arg : Bytes) : Bytes → Proc (Int × Env) → Prop
  | chmod : Handing fuel env arg (bytes "CHMOD") (ftpCmdCHMOD env arg)
  | list  : Handing fuel env arg (bytes "LIST") (ftpCmdLIST fuel env arg)
  | rnto  : Handing fuel env arg (bytes "RNTO") (ftpCmdRNTO env arg)
  | path {name : Bytes} {p : Proc (Int × Env)} (hn : name ∈ pathCommands) (h : Hands env arg p) :
    Handing fuel env arg name p
  | none {name : Bytes} {p : Proc (Int × Env)} (hn : name ∉ ["CHMOD", "LIST", "RNTO"].map bytes ++ pathCommands)
    (h : p.wp handing (fun _ g => g = []) []) : Handing fuel env arg name p

theorem handing_command : ∀ c ∈ commands, Handing fuel env arg c.fst (c.snd fuel env arg) := by
  have hr {text : Bytes} {env : Env} : (reply env text).wp handing (fun _ g => g = []) [] := handing_reply rfl
  have hp {usage done : String} {c : Bytes → Proc Int} (hc : ∀ p, (c p).wp handing (fun _ => (· = [p])) []) :
      Hands env arg (pathCmd usage done c env arg) := hands_pathCmd hc
  have hq : (ftpCmdQUIT env arg).wp handing (fun _ g => g = []) [] := ⟨trivial, fun _ _ => rfl⟩
  have hk : (ftpCmdKILL env arg).wp handing (fun _ g => g = []) [] := ⟨trivial, fun _ _ => rfl⟩
  have hs : (ftpCmdREST env arg).wp handing (fun _ g => g = []) [] := wp_if (fun _ => hr) fun _ => hr
  simp only [commands, forall_mem_cons, not_mem_nil, false_implies, implies_true, and_true]
  exact ⟨.path (by decide) hands_ftpCmdAPPE, .none (by decide) hr, .path (by decide) hands_ftpCmdCWD,
    .path (by decide) (hp fun _ => ⟨trivial, fun _ _ => rfl⟩), .list,
    .path (by decide) (hp fun _ => ⟨trivial, fun _ _ => rfl⟩), .none (by decide) hr, .none (by decide) handing_ftpCmdPASV,
    .none (by decide) handing_ftpCmdPORT, .none (by decide) hr, .none (by decide) hq, .none (by decide) hs,
    .path (by decide) hands_ftpCmdRETR, .path (by decide) (hp fun _ => ⟨trivial, fun _ _ => rfl⟩),
    .path (by decide) hands_ftpCmdRNFR, .rnto, .path (by decide) hands_ftpCmdSIZE, .path (by decide) hands_ftpCmdSTOR,
    .none (by decide) hr, .none (by decide) handing_ftpCmdTYPE, .none (by decide) hr, .none (by decide) hk,
    .none (by decide) hr, .chmod, .path (by decide) hands_ftpCmdCWD,
    .path (by decide) (hp fun _ => ⟨trivial, fun _ _ => rfl⟩), .none (by decide) hr,
    .path (by decide) (hp fun _ => ⟨trivial, fun _ _ => rfl⟩), .none (by decide) hr, .none (by decide) hr,
    .none (by decide) hr, .none (by decide) hr⟩

theorem handing_ftpCmdCHMOD : (ftpCmdCHMOD env arg).wp handing
    (fun _ g => g = ((strchr arg space).map fun (_, path) => ftpAbspath env path).toList) [] := by
  rw [ftpCmdCHMOD]
  split
  case h_1 hs => exact handing_reply (by rw [hs, Option.map_none, Option.toList_none])
  case h_2 mode path hs =>
    rw [hs, Option.map_some, Option.toList_some]
    exact ⟨trivial, fun r _ => wp_if (fun _ => handing_perror rfl) fun _ => handing_reply rfl⟩

theorem handing_allowed {t : Trace Result} : handing.Allowed g t :=
  allowed_of_forall fun _ _ => trivial

theorem handed_reply {t : Trace Result} {o : Option (Int × Env)} (h : (reply env text).Observed t o) :
    handing.after g t = g := by
  have hr : (reply env text).wp handing (fun _ => (· = g)) g := handing_reply rfl
  exact (wp_sound hr h handing_allowed).right

theorem handed_perror {t : Trace Result} {o : Option (Int × Env)} (h : (perror env).Observed t o) :
    handing.after g t = g := by
  have hp : (perror env).wp handing (fun _ => (· = g)) g := handing_perror rfl
  exact (wp_sound hp h handing_allowed).right

-- The new path is not resolved before the old one has been found.
theorem handing_ftpCmdRNTO {t : Trace Result} {o : Option (Int × Env)} (h : (ftpCmdRNTO env arg).Observed t o) :
    (∃ st t', t = ⟨.stat env.renamePath, some st⟩ :: t' ∧
        handing.after [] t = [env.renamePath, ftpAbspath env arg, env.renamePath]) ∨
      (∀ path st t', t ≠ ⟨.stat path, some st⟩ :: t') ∧ ∀ p ∈ handing.after [] t, p = env.renamePath := by
  rw [ftpCmdRNTO] at h
  split at h
  case isTrue =>
    refine .inr ⟨?_, by simp [handed_reply h]⟩
    obtain ⟨n, t', rfl, _⟩ := observed_call h
    simp
  case isFalse =>
    obtain ⟨st, t₁, rfl, h₁⟩ := observed_call h
    rcases st with _ | st
    case none =>
      refine .inr ⟨by simp, ?_⟩
      rw [after_cons, handed_perror h₁]
      simp [handing, Call.buffers]
    case some =>
      obtain ⟨r, t₂, rfl, h₂⟩ := observed_call h₁
      refine .inl ⟨st, _, rfl, ?_⟩
      rw [after_cons, after_cons]
      split at h₂
      case isTrue =>
        rw [handed_perror h₂]
        rfl
      case isFalse =>
        rw [handed_reply h₂]
        rfl

end Commands

section Session

namespace Step

-- What `ftp_abspath` is called with in the execution of a command line.
inductive Resolves (s : Step) : Bytes → Prop
  | arg (hn : s.name ∈ pathCommands) (ha : s.arg ≠ []) : s.Resolves s.arg
  | chmod {mode path : Bytes} (hn : s.name = bytes "CHMOD") (ha : strchr s.arg space = some (mode, path)) :
    s.Resolves path
  | rnto {path : Bytes} {st : Stat} {t : Trace Result} (hn : s.name = bytes "RNTO")
    (ht : s.trace = ⟨.stat path, some st⟩ :: t) : s.Resolves s.arg

def handed (s : Step) : List Bytes :=
  handing.after [] s.trace

-- The size of the arrays of a command.
def size (s : Step) : Nat :=
  if s.name = bytes "LIST" then pathMax + 256 + 2 else pathMax

-- An array that is not terminated is given as all of it.
def Terminated (s : Step) : Prop :=
  ∀ p ∈ s.handed, p.length < s.size

-- There is room for the paths that are resolved.
def Fits (s : Step) : Prop :=
  ∀ path, s.Resolves path → (fullPath s.env path).length < pathMax

end Step

theorem handing_dispatch : Handing fuel s.env s.arg s.name (ftpExecute fuel s.env s.line) := by
  rw [Step.arg, Step.name]
  cases @ftpExecute_eq s.env fuel s.line
  case inl hc =>
    obtain ⟨c, hc, hn, he⟩ := hc
    exact he ▸ hn ▸ handing_command c hc
  case inr hc =>
    obtain ⟨hn, he⟩ := hc
    have hm : ∀ name ∈ ["CHMOD", "LIST", "RNTO"].map bytes ++ pathCommands, name ∈ commands.map Prod.fst := by decide
    refine he ▸ .none (fun hs => ?_) (handing_reply rfl)
    obtain ⟨c, hc, hcn⟩ := mem_map.mp (hm _ hs)
    exact hn c hc hcn

theorem handed_of_wp {Q : Option (Int × Env) → List Bytes → Prop} {p : Proc (Int × Env)} (hq : p.wp handing Q [])
    (h : p.Observed s.trace s.outcome) : Q s.outcome s.handed :=
  (wp_sound hq h handing_allowed).right

-- Every path that is resolved is handed over.
theorem Step.Observed.mem_handed (h : s.Observed) (hr : s.Resolves path) : ftpAbspath s.env path ∈ s.handed := by
  have ⟨fuel, h⟩ := h
  have hd := @handing_dispatch s fuel
  cases hr
  case arg hn ha =>
    generalize ftpExecute fuel s.env s.line = p at hd h
    generalize he : s.name = name at hd hn
    cases hd
    case chmod | list | rnto => exact absurd hn (by decide)
    case path hp             => exact ((handed_of_wp hp h).right ha).left
    case none hn' _          => exact absurd (mem_append_right _ hn) hn'
  case chmod mode path hn ha =>
    rw [ftpExecute_of_find hn rfl] at h
    have he := handed_of_wp handing_ftpCmdCHMOD h
    rw [show (splitLine s.line).snd = s.arg from rfl, ha] at he
    simp [he]
  case rnto hn ht =>
    rw [ftpExecute_of_find hn rfl] at h
    cases handing_ftpCmdRNTO h
    case inl h =>
      have ⟨_, _, _, he⟩ := h
      rw [handed, he]
      exact mem_cons_of_mem _ mem_cons_self
    case inr h => exact absurd ht (h.left _ _ _)

-- Nothing else is handed over but the stored path and the paths of a listing.
theorem Step.Observed.of_mem_handed (h : s.Observed) (hp : p ∈ s.handed) :
    p = s.env.renamePath ∨ (s.name = bytes "LIST" ∧ p.length < s.size) ∨
      ∃ path, s.Resolves path ∧ p = ftpAbspath s.env path := by
  have ⟨fuel, h⟩ := h
  have hd := @handing_dispatch s fuel
  generalize ftpExecute fuel s.env s.line = q at hd h
  generalize hn : s.name = name at hd
  cases hd
  case chmod =>
    have he := handed_of_wp handing_ftpCmdCHMOD h
    rw [he, Option.mem_toList, Option.map_eq_some_iff] at hp
    have ⟨⟨mode, path⟩, ha, hp⟩ := hp
    exact .inr (.inr ⟨path, .chmod hn ha, hp.symm⟩)
  case list =>
    have hl := handed_of_wp handing_ftpCmdLIST h p hp
    exact .inr (.inl ⟨rfl, by rwa [size, if_pos hn]⟩)
  case rnto =>
    cases handing_ftpCmdRNTO h
    case inl h =>
      have ⟨_, _, ht, he⟩ := h
      rw [handed, he] at hp
      have hr := Resolves.rnto hn ht
      simp only [mem_cons, not_mem_nil, or_false] at hp
      obtain hp | hp | hp := hp
      · exact .inl hp
      · exact .inr (.inr ⟨s.arg, hr, hp⟩)
      · exact .inl hp
    case inr h => exact .inl (h.right p hp)
  case path hm hp' =>
    have he := handed_of_wp hp' h
    by_cases ha : s.arg = []
    case pos => simp [he.left ha] at hp
    case neg => exact .inr (.inr ⟨s.arg, .arg (hn ▸ hm) ha, (he.right ha).right p hp⟩)
  case none hp' => simp [handed_of_wp hp' h] at hp

theorem Step.Resolves.size (h : s.Resolves path) : s.size = pathMax := by
  refine if_neg fun hl => ?_
  cases h
  case arg hn _   => exact absurd (hl ▸ hn) (by decide)
  case chmod hn _ => exact absurd (hl.symm.trans hn) (by decide)
  case rnto hn _  => exact absurd (hl.symm.trans hn) (by decide)

theorem length_ftpAbspath_lt : (ftpAbspath env path).length < pathMax ↔ (fullPath env path).length < pathMax := by
  rw [ftpAbspath_eq, length_take]
  omega

theorem Step.Observed.fits (h : s.Observed) (ht : s.Terminated) : s.Fits :=
  fun _ hr => length_ftpAbspath_lt.mp (hr.size ▸ ht _ (h.mem_handed hr))

theorem Step.Observed.terminated (h : s.Observed) (hr : s.env.renamePath.length < pathMax) (hs : s.Fits) :
    s.Terminated := by
  have hl : pathMax ≤ s.size := by
    rw [size]
    split <;> decide
  intro p hp
  obtain rfl | hp | ⟨path, hp', rfl⟩ := h.of_mem_handed hp
  · exact hr.trans_le hl
  · exact hp.right
  · exact (length_ftpAbspath_lt.mpr (hs path hp')).trans_le hl

-- The path that is stored is one that has been resolved.
theorem Step.Observed.renamePath_lt (h : s.Observed) (hr : s.env.renamePath.length < pathMax) (hs : s.Fits) :
    s.Ends (·.renamePath.length < pathMax) := by
  intro ret env' ho
  cases h.effect
  case rnfr hn _ he =>
    rw [he ret env' ho]
    dsimp only
    split
    case isTrue     => exact hr
    case isFalse ha => exact length_ftpAbspath_lt.mpr (hs _ (.arg (hn ▸ by decide) ha))
  case keeps he => rwa [(he ret env' ho).renamePath]
  case appe he | list he | pasv he | port he | rest he | retr he | rnto he | stor he =>
    rw [he ret env' ho]
    exact hr

theorem Session.terminated_iff {activeFd : Int} {t : Trace Result} {o : Option Env}
    (h : Session (initEnv activeFd) steps t o) :
    (∀ s ∈ steps, s.Terminated) ↔ ∀ s ∈ steps, s.Fits := by
  constructor
  case mp =>
    intro ht s hs
    have ⟨past, rest, he⟩ := append_of_mem hs
    exact (h.absolute past s rest he).right.fits (ht s hs)
  case mpr =>
    intro hr s hs
    have ⟨past, rest, he⟩ := append_of_mem hs
    refine h.invariant (I := fun _ env => env.renamePath.length < pathMax)
      (A := fun _ s => s.Fits) (P := fun _ s => s.Terminated)
      (fun _ s hi ho ha => ⟨ho.terminated hi ha, ho.renamePath_lt hi ha⟩) (NeZero.pos pathMax) ?_ past s rest he
    intro past s rest he
    exact hr s (by simp [he])

end Session

-- The destination is terminated if and only if there is room in it for the whole path, and so are the arrays that the
-- commands of a session hand over if this is so for all of the paths that they resolve.
theorem ftpAbspath_terminated_iff {activeFd : Int} {t : Trace Result} {o : Option Env}
    (hb : buf.length = pathMax + 1) (ha : abspath.length = pathMax) (hp : 0 ∉ path)
    (hs : Session (initEnv activeFd) steps t o) :
    (∃ abspath', ftpAbspathArray env buf abspath path = some abspath' ∧
      (string abspath').getD abspath' = ftpAbspath env path ∧
      ((∃ text, string abspath' = some text ∧ text <+: fullPath env path) ↔ (fullPath env path).length < pathMax)) ∧
    ((∀ s ∈ steps, s.Terminated) ↔ ∀ s ∈ steps, s.Fits) := by
  refine ⟨⟨_, ftpAbspathArray_eq hb ha hp, ?_⟩, hs.terminated_iff⟩
  rw [string_ftpAbspathArray hp]
  split
  case isTrue hl =>
    refine ⟨rfl, iff_of_true ⟨_, rfl, ?_⟩ hl⟩
    rw [ftpAbspath_eq]
    exact take_prefix _ _
  case isFalse hl =>
    refine ⟨?_, iff_of_false (by simp) hl⟩
    rw [Option.getD_none, take_append_of_le_length (not_lt.mp hl), ftpAbspath_eq]

-- The directory `/a` is entered.
def abspathSample : List Step :=
  [{
    env     := initEnv 4
    line    := bytes "CWD /a"
    trace   := [⟨.stat (bytes "/a"), some (⟨0o040755, 0, 0, 0⟩ : Stat)⟩,
      ⟨.activeWrite 4 (bytes "250 OK\r\n"), (8 : Int)⟩]
    outcome := some (0, { initEnv 4 with cwd := .strncpy (bytes "/a") }) }]

theorem ftpAbspath_terminated_sample :
    (∃ abspath',
      ftpAbspathArray (initEnv 4) (replicate (pathMax + 1) 1) (replicate pathMax 1) (bytes "a") = some abspath' ∧
      ∃ text, string abspath' = some text ∧ text <+: bytes "//a") ∧
    ∀ s ∈ abspathSample, s.Terminated := by
  have ⟨_, _, h⟩ := @session_of_replays (initEnv 4) abspathSample 10 (by decide +kernel)
  have ⟨⟨abspath', he, _, ht⟩, hs⟩ := @ftpAbspath_terminated_iff (initEnv 4) abspathSample
    (replicate (pathMax + 1) 1) (replicate pathMax 1) (bytes "a") 4 _ _ length_replicate length_replicate (by decide) h
  refine ⟨⟨abspath', he, ht.mpr (by decide)⟩, hs.mpr ?_⟩
  rw [abspathSample, forall_mem_singleton]
  intro path hr
  cases hr
  case arg                    => decide
  case chmod hn _ | rnto hn _ => exact absurd hn (by decide)

-- An absolute path that takes all of the destination.
def longPath : Bytes :=
  slash :: replicate (pathMax - 1) 97

def longStep : Step where
  env     := initEnv 4
  line    := bytes "RNFR " ++ longPath
  trace   := [⟨.stat longPath, (none : Option Stat)⟩, ⟨.strerrorR, some (bytes "File name too long")⟩,
    ⟨.activeWrite 4 (bytes "550 File name too long\r\n"), (24 : Int)⟩]
  outcome := some (0, { initEnv 4 with renamePath := longPath })

theorem ftpAbspath_not_terminated :
    (¬∃ abspath' text, string abspath' = some text ∧
      ftpAbspathArray (initEnv 4) (replicate (pathMax + 1) 0) (replicate pathMax 0) longPath = some abspath') ∧
    longStep.Observed ∧ ¬longStep.Terminated := by
  have hz : 0 ∉ longPath := by
    rw [longPath, mem_cons, mem_replicate]
    decide
  have hl : longPath.length = pathMax := by
    rw [longPath, length_cons, length_replicate]
    rfl
  have hf : fullPath (initEnv 4) longPath = longPath := if_neg (not_not.mpr rfl)
  have hn : longStep.name = bytes "RNFR" := by decide +kernel
  have he := @ftpAbspathArray_eq (initEnv 4) (replicate (pathMax + 1) 0) (replicate pathMax 0) longPath length_replicate
    length_replicate hz
  refine ⟨?_, ⟨1, observed_of_replay (by decide +kernel)⟩, ?_⟩
  · rintro ⟨abspath', text, ht, ha⟩
    have hn : ¬(fullPath (initEnv 4) longPath).length < pathMax := by
      rw [hf, hl]
      exact lt_irrefl _
    rw [← Option.some.inj (he.symm.trans ha), string_ftpAbspathArray hz, if_neg hn] at ht
    exact nomatch ht
  · intro ht
    have hs : longStep.size = pathMax := if_neg (hn ▸ by decide)
    have hp := ht longPath mem_cons_self
    rw [hl, hs] at hp
    exact lt_irrefl _ hp

end Ftp

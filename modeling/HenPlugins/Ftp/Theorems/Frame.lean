import HenPlugins.Ftp.Server

open List Prog CString

namespace Ftp

-- The calls in the loop of a listing.
def Listing : Call → Prop
  | .readdir _ | .stat _ | .strftime _ | .dataWrite .. => True
  | _ => False

-- The calls by which a line is read.
def Reading : Call → Prop
  | .calloc _ | .realloc _ | .read .. => True
  | _ => False

-- The calls by which a transfer moves its data and is given up.
def Moving : Call → Prop
  | .activeWrite .. | .dataWrite .. | .write .. | .read .. | .recv .. | .close _ | .strerrorR => True
  | _ => False

-- The calls that concern neither descriptors nor the names of files that exist.
def Plain : Call → Prop
  | .activeWrite .. | .stat _ | .chmod .. | .remove _ | .mkdir .. | .rmdir _ | .strerror | .strerrorR | .exit => True
  | _ => False

-- Only the working directory and the type differ.
structure Env.Agrees (env env' : Env) : Prop where
  dataFd     : env'.dataFd = env.dataFd
  activeFd   : env'.activeFd = env.activeFd
  passiveFd  : env'.passiveFd = env.passiveFd
  dataOffset : env'.dataOffset = env.dataOffset
  renamePath : env'.renamePath = env.renamePath
  dataAddr   : env'.dataAddr = env.dataAddr

-- A command makes plain calls only, and `R` holds of the state that it ends in.
def EndsIn (R : Env → Prop) (p : Proc (Int × Env)) : Prop :=
  p.wp (within Plain) (fun o _ => ∀ ret env', o = some (ret, env') → R env') ()

-- A command makes plain calls only, and leaves the state as it is but for the working directory and the type.
def Keeps (env : Env) (p : Proc (Int × Env)) : Prop :=
  p.wp (within Plain) (fun o _ => ∀ ret env', o = some (ret, env') → env.Agrees env') ()

variable {α : Type} {env env' : Env} {R : Env → Prop} {text arg p : Bytes} {dir : Nat} {fd : Int} {fuel : Nat} {usage done : String}

theorem Env.Agrees.refl : env.Agrees env :=
  ⟨rfl, rfl, rfl, rfl, rfl, rfl⟩

theorem listLoop_within : (listLoop env p dir fuel).wp (within Listing) (fun _ _ => True) () := by
  induction fuel
  case zero => trivial
  case succ fuel hi =>
    refine wp_call.mpr ⟨trivial, fun name _ => ?_⟩
    cases name
    case none      => trivial
    case some name =>
      refine wp_call.mpr ⟨trivial, fun st _ => ?_⟩
      cases st
      case none    => exact hi
      case some st => exact wp_call.mpr ⟨trivial, fun time _ => ⟨trivial, fun n _ => hi⟩⟩

theorem perrorDataClose_within {k : Int → Proc (Except Int α)} (h : ∀ ret, (k ret).wp (within Moving) (fun _ _ => True) ()) :
    (perrorDataClose env fd >>= k).wp (within Moving) (fun _ _ => True) () :=
  ⟨trivial, fun _ _ => ⟨trivial, fun _ _ => ⟨trivial, fun _ _ => ⟨trivial, fun _ _ => h _⟩⟩⟩⟩

theorem retrLoop_within : (retrLoop env fd fuel).wp (within Moving) (fun _ _ => True) () := by
  induction fuel
  case zero => trivial
  case succ fuel hi =>
    refine wp_call.mpr ⟨trivial, fun buf _ => ?_⟩
    cases buf
    case error => exact perrorDataClose_within fun ret => trivial
    case ok    =>
      refine wp_if (fun _ => trivial) fun _ => wp_call.mpr ⟨trivial, fun n _ => ?_⟩
      exact wp_if (fun _ => perrorDataClose_within fun ret => trivial) fun _ => hi

theorem storLoop_within {off : Int} : (storLoop env fd fuel off).wp (within Moving) (fun _ _ => True) () := by
  induction fuel generalizing off
  case zero => trivial
  case succ fuel hi =>
    refine wp_call.mpr ⟨trivial, fun readbuf _ => wp_if (fun _ => trivial) fun _ => wp_call.mpr ⟨trivial, fun n _ => ?_⟩⟩
    exact wp_if (fun _ => perrorDataClose_within fun ret => trivial) fun _ => hi

theorem readlineLoop_within {b : LineBuffer} : (readlineLoop fd fuel b).wp (within Reading) (fun _ _ => True) () := by
  induction fuel generalizing b
  case zero => trivial
  case succ fuel hi =>
    refine wp_call.mpr ⟨trivial, fun r _ => ?_⟩
    rcases r with (_ | _) | ⟨bs, _⟩
    case error.eintr => exact hi
    case error.other => trivial
    case ok =>
      dsimp only
      split
      · trivial
      · refine wp_if (fun _ => hi) fun _ => wp_if (fun _ => trivial) fun _ => wp_if (fun _ => ?_) fun _ => hi
        refine wp_call.mpr ⟨trivial, fun bs _ => ?_⟩
        cases bs
        case none => trivial
        case some => exact hi

theorem ftpReadline_within : (ftpReadline fuel fd).wp (within Reading) (fun _ _ => True) () :=
  wp_call.mpr ⟨trivial, fun _ _ => wp_if (fun _ => readlineLoop_within) fun _ => trivial⟩

theorem endsIn_reply (h : R env) : EndsIn R (reply env text) := by
  refine ⟨trivial, fun n _ => ?_⟩
  rintro ret env' ⟨⟩
  exact h

theorem endsIn_perror (h : R env) : EndsIn R (perror env) := by
  refine ⟨trivial, fun buf _ => ⟨trivial, fun n _ => ?_⟩⟩
  rintro ret env' ⟨⟩
  exact h

theorem endsIn_pathCmd {call : Bytes → Proc Int} (hc : ∀ p, (call p).wp (within Plain) (fun _ _ => True) ()) (h : R env) :
    EndsIn R (pathCmd usage done call env arg) := by
  refine wp_if (fun _ => endsIn_reply h) fun _ => wp_bind.mpr ?_
  apply wp_mono (hc _)
  intro o _ _
  cases o
  case none   => simp
  case some r => exact wp_if (fun _ => endsIn_perror h) fun _ => endsIn_reply h

theorem endsIn_ftpCmdCHMOD (h : R env) : EndsIn R (ftpCmdCHMOD env arg) := by
  rw [ftpCmdCHMOD]
  split
  · exact endsIn_reply h
  · exact wp_call.mpr ⟨trivial, fun r _ => wp_if (fun _ => endsIn_perror h) fun _ => endsIn_reply h⟩

theorem endsIn_ftpCmdCWD (h : R env) (hc : R { env with cwd := .strncpy (ftpAbspath env arg) }) :
    EndsIn R (ftpCmdCWD env arg) := by
  refine wp_if (fun _ => endsIn_reply h) fun _ => wp_call.mpr ⟨trivial, fun st _ => ?_⟩
  cases st
  case none    => exact endsIn_perror h
  case some st => exact wp_if (fun _ => endsIn_reply h) fun _ => endsIn_reply hc

theorem endsIn_ftpCmdSIZE (h : R env) : EndsIn R (ftpCmdSIZE env arg) := by
  refine wp_if (fun _ => endsIn_reply h) fun _ => wp_call.mpr ⟨trivial, fun st _ => ?_⟩
  cases st
  case none    => exact endsIn_perror h
  case some st => exact endsIn_reply h

theorem endsIn_ftpCmdTYPE (h : ∀ type, R { env with type := type }) : EndsIn R (ftpCmdTYPE env arg) := by
  rw [ftpCmdTYPE]
  split
  · exact endsIn_reply (h 65)
  · exact endsIn_reply (h 73)
  · exact endsIn_reply (h env.type)

theorem endsIn_ftpCmdQUIT (h : R env) : EndsIn R (ftpCmdQUIT env arg) := by
  refine ⟨trivial, fun n _ => ?_⟩
  rintro ret env' ⟨⟩
  exact h

theorem endsIn_ftpCmdKILL : EndsIn R (ftpCmdKILL env arg) := by
  refine ⟨trivial, fun _ _ => ?_⟩
  rintro ret env' ⟨⟩

-- The commands that do more than that.
def sessionCommands : List Bytes :=
  ["APPE", "LIST", "PASV", "PORT", "REST", "RETR", "RNFR", "RNTO", "STOR"].map bytes

-- What a command line comes to: one of these commands with its argument, or a command that keeps the state.
inductive Dispatch (fuel : Nat) (env : Env) (arg : Bytes) : Bytes → Proc (Int × Env) → Prop
  | appe : Dispatch fuel env arg (bytes "APPE") (ftpCmdAPPE fuel env arg)
  | list : Dispatch fuel env arg (bytes "LIST") (ftpCmdLIST fuel env arg)
  | pasv : Dispatch fuel env arg (bytes "PASV") (ftpCmdPASV env arg)
  | port : Dispatch fuel env arg (bytes "PORT") (ftpCmdPORT env arg)
  | rest : Dispatch fuel env arg (bytes "REST") (ftpCmdREST env arg)
  | retr : Dispatch fuel env arg (bytes "RETR") (ftpCmdRETR fuel env arg)
  | rnfr : Dispatch fuel env arg (bytes "RNFR") (ftpCmdRNFR env arg)
  | rnto : Dispatch fuel env arg (bytes "RNTO") (ftpCmdRNTO env arg)
  | stor : Dispatch fuel env arg (bytes "STOR") (ftpCmdSTOR fuel env arg)
  | keeps {name : Bytes} {p : Proc (Int × Env)} (hn : name ∉ sessionCommands) (h : Keeps env p) :
    Dispatch fuel env arg name p

theorem dispatch_command : ∀ c ∈ commands, Dispatch fuel env arg c.fst (c.snd fuel env arg) := by
  have hr {text : Bytes} : Keeps env (reply env text) := endsIn_reply .refl
  have hp {usage done : String} {c : Bytes → Proc Int} (hc : ∀ p, (c p).wp (within Plain) (fun _ _ => True) ()) :
      Keeps env (pathCmd usage done c env arg) := endsIn_pathCmd hc .refl
  have hu : Keeps env (ftpCmdCDUP env arg) := endsIn_reply ⟨rfl, rfl, rfl, rfl, rfl, rfl⟩
  have hc : Keeps env (ftpCmdCWD env arg) := endsIn_ftpCmdCWD .refl ⟨rfl, rfl, rfl, rfl, rfl, rfl⟩
  have ht : Keeps env (ftpCmdTYPE env arg) := endsIn_ftpCmdTYPE fun _ => ⟨rfl, rfl, rfl, rfl, rfl, rfl⟩
  simp only [commands, forall_mem_cons, not_mem_nil, false_implies, implies_true, and_true]
  exact ⟨.appe, .keeps (by decide) hu, .keeps (by decide) hc,
    .keeps (by decide) (hp fun _ => ⟨trivial, fun _ _ => trivial⟩), .list,
    .keeps (by decide) (hp fun _ => ⟨trivial, fun _ _ => trivial⟩), .keeps (by decide) hr, .pasv, .port,
    .keeps (by decide) hr, .keeps (by decide) (endsIn_ftpCmdQUIT .refl), .rest, .retr,
    .keeps (by decide) (hp fun _ => ⟨trivial, fun _ _ => trivial⟩), .rnfr, .rnto,
    .keeps (by decide) (endsIn_ftpCmdSIZE .refl), .stor, .keeps (by decide) hr, .keeps (by decide) ht,
    .keeps (by decide) hr, .keeps (by decide) endsIn_ftpCmdKILL, .keeps (by decide) hr,
    .keeps (by decide) (endsIn_ftpCmdCHMOD .refl), .keeps (by decide) hc,
    .keeps (by decide) (hp fun _ => ⟨trivial, fun _ _ => trivial⟩), .keeps (by decide) hr,
    .keeps (by decide) (hp fun _ => ⟨trivial, fun _ _ => trivial⟩), .keeps (by decide) hr,
    .keeps (by decide) hr, .keeps (by decide) hr, .keeps (by decide) hr⟩

-- The command line is executed as the entry of the table says.
theorem ftpExecute_eq {line : Bytes} :
    (∃ c ∈ commands, c.fst = (splitLine line).fst ∧ ftpExecute fuel env line = c.snd fuel env (splitLine line).snd) ∨
      (∀ c ∈ commands, c.fst ≠ (splitLine line).fst) ∧ ftpExecute fuel env line = ftpCmdUnknown env (splitLine line).snd := by
  cases hc : commands.find? (·.fst = (splitLine line).fst)
  case none =>
    refine .inr ⟨by simpa using hc, ?_⟩
    simp only [ftpExecute, hc]
  case some c =>
    refine .inl ⟨c, mem_of_find?_eq_some hc, by simpa using find?_some hc, ?_⟩
    simp only [ftpExecute, hc]

theorem ftpExecute_of_find {line name : Bytes} {f : Command} (hn : (splitLine line).fst = name)
    (hf : commands.find? (·.fst = name) = some (name, f)) :
    ftpExecute fuel env line = f fuel env (splitLine line).snd := by
  simp only [ftpExecute, hn, hf]

theorem dispatch {line : Bytes} :
    Dispatch fuel env (splitLine line).snd (splitLine line).fst (ftpExecute fuel env line) := by
  cases @ftpExecute_eq env fuel line
  case inl h =>
    have ⟨c, hc, hn, he⟩ := h
    exact hn ▸ he ▸ dispatch_command c hc
  case inr h =>
    have ⟨hn, he⟩ := h
    have hm : ∀ name ∈ sessionCommands, name ∈ commands.map Prod.fst := by decide
    have hs : (splitLine line).fst ∉ sessionCommands := by
      intro hs
      have ⟨c, hc, hcn⟩ := mem_map.mp (hm _ hs)
      exact hn c hc hcn
    exact he ▸ .keeps hs (endsIn_reply .refl)

end Ftp

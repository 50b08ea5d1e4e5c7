import HenPlugins.Ftp.Theorems.Session

open List Prog CString Number

namespace Ftp

-- Where a data connection comes from.
inductive Endpoint
  | active  (addr : SockAddr)
  | passive (listener : Int)
deriving DecidableEq

def Env.endpoint (env : Env) : Endpoint :=
  if env.dataAddr.port ≠ 0 then .active env.dataAddr else .passive env.passiveFd

-- What is kept of a trace: the size that was last asked for, the socket that was created last, the position in the
-- file that was opened, the positions at which the data connection was established, the requests for it, and the
-- paths that were renamed.
structure Log where
  size      : Option Int     := none
  socket    : Option Int     := none
  pos       : Option Int     := none
  starts    : List Int       := []
  endpoints : List Endpoint  := []
  renamed   : List Bytes     := []

def Log.update (g : Log) : Event Result → Log
  | ⟨.stat _, some st⟩     => { g with size := some st.size }
  | ⟨.socket, fd⟩          => { g with socket := some fd }
  | ⟨.open .., fd⟩         => if fd < (0 : Int) then g else { g with pos := some 0 }
  | ⟨.lseekCur _ off, r⟩   => if r < (0 : Int) then g else { g with pos := g.pos.map (· + off) }
  | ⟨.connect _ addr, r⟩   => { g with
      endpoints := g.endpoints ++ [.active addr]
      starts    := if r ≠ (0 : Int) then g.starts else g.starts ++ g.pos.toList }
  | ⟨.accept listener, r⟩  => { g with
      endpoints := g.endpoints ++ [.passive listener]
      starts    := if r < (0 : Int) then g.starts else g.starts ++ g.pos.toList }
  | ⟨.rename path _, r⟩    => if r = (0 : Int) then { g with renamed := g.renamed ++ [path] } else g
  | _                      => g

def log : Monitor Result Log where
  next := Log.update

def Step.log (s : Step) : Log :=
  Ftp.log.after {} s.trace

-- What is left behind by a command: `P` holds of the log, and `E` of the state if the command comes to its end.
def Leaves (P : Log → Prop) (E : Env → Prop) (o : Option (Int × Env)) (g : Log) : Prop :=
  P g ∧ ∀ ret env, o = some (ret, env) → E env

variable {α β : Type} {P : Log → Prop} {E : Env → Prop} {g : Log} {env : Env} {text arg p : Bytes} {fd : Int} {fuel dir : Nat}

theorem leaves_reply (hp : P g) (he : E env) : (reply env text).wp log (Leaves P E) g := by
  refine ⟨trivial, fun n _ => ⟨hp, ?_⟩⟩
  rintro ret env' ⟨⟩
  exact he

theorem leaves_perror (hp : P g) (he : E env) : (perror env).wp log (Leaves P E) g := by
  refine ⟨trivial, fun buf _ => ⟨trivial, fun n _ => ⟨hp, ?_⟩⟩⟩
  rintro ret env' ⟨⟩
  exact he

theorem leaves_perrorClose (hp : P g) (he : E env) : (perrorClose env fd).wp log (Leaves P E) g := by
  refine ⟨trivial, fun buf _ => ⟨trivial, fun n _ => ⟨trivial, fun r _ => ⟨hp, ?_⟩⟩⟩⟩
  rintro ret env' ⟨⟩
  exact he

theorem log_perrorDataClose {Q : Option α → Log → Prop} {k : Int → Proc α} (h : ∀ ret, (k ret).wp log Q g) :
    (perrorDataClose env fd >>= k).wp log Q g :=
  ⟨trivial, fun _ _ => ⟨trivial, fun _ _ => ⟨trivial, fun _ _ => ⟨trivial, fun _ _ => h _⟩⟩⟩⟩

theorem log_closeFd {Q : Option α → Log → Prop} {k : Unit → Proc α} (h : (k ()).wp log Q g) :
    (closeFd fd >>= k).wp log Q g :=
  wp_bind.mpr <| wp_if (fun _ => ⟨trivial, fun _ _ => h⟩) fun _ => h

theorem log_ftpActivePrintf {Q : Option α → Log → Prop} {k : Int → Proc α} (h : ∀ r, (k r).wp log Q g) :
    (ftpActivePrintf env text >>= k).wp log Q g :=
  ⟨trivial, fun _ _ => h _⟩

-- The data connection is requested at most once, and it is established at the given position.
structure Opened (env : Env) (pos : Option Int) (g : Log) : Prop where
  starts    : g.starts = [] ∨ g.starts = pos.toList
  endpoints : g.endpoints = [] ∨ g.endpoints = [env.endpoint]
  renamed   : g.renamed = []

abbrev Log.blank (size : Option Int) : Log :=
  { size := size }

theorem Opened.blank {pos pos' size : Option Int} : Opened env pos { size := size, pos := pos' } :=
  ⟨.inl rfl, .inl rfl, rfl⟩

theorem log_ftpDataOpen {Q : Option (Int × Env) → Log → Prop} {k : Int × Env → Proc (Int × Env)}
    {size pos : Option Int}
    (h : ∀ r dataFd g, Opened env pos g → g.size = size → (k (r, { env with dataFd := dataFd })).wp log Q g) :
    (ftpDataOpen env >>= k).wp log Q { size := size, pos := pos } := by
  refine wp_bind.mpr (wp_if (fun hp => ⟨trivial, fun r _ => ?_⟩) fun hp => ⟨trivial, fun dataFd _ => ?_⟩)
  case refine_1 =>
    have he : env.endpoint = .active env.dataAddr := if_pos hp
    apply h _ env.dataFd _ ⟨?_, .inr (he ▸ rfl), rfl⟩ rfl
    by_cases hr : r ≠ 0
    case pos => exact .inl (if_pos hr)
    case neg => exact .inr (if_neg hr)
  case refine_2 =>
    have he : env.endpoint = .passive env.passiveFd := if_neg hp
    apply h _ dataFd _ ⟨?_, .inr (he ▸ rfl), rfl⟩ rfl
    by_cases hr : dataFd < 0
    case pos => exact .inl (if_pos hr)
    case neg => exact .inr (if_neg hr)

theorem log_listLoop {env' : Env} {pos : Option Int} (hg : Opened env pos g) :
    (listLoop env' p dir fuel).wp log (fun _ => Opened env pos) g := by
  have hs : ∀ c, Listing c → ∀ g, Opened env pos g → log.Demands g c ∧ ∀ r, Opened env pos (log.next g ⟨c, r⟩) := by
    intro c hc g hg
    cases c
    case readdir | strftime | dataWrite => exact ⟨trivial, fun _ => hg⟩
    case stat                           => exact ⟨trivial, fun st => by cases st <;> exact ⟨hg.starts, hg.endpoints, hg.renamed⟩⟩
    all_goals contradiction
  exact wp_of_within hs listLoop_within hg fun _ _ _ hg => hg

-- Nothing of the log is about the data that is moved.
theorem log_moving {c : Call} (h : Moving c) : log.Demands g c ∧ ∀ r, log.next g ⟨c, r⟩ = g := by
  cases c
  case activeWrite | dataWrite | write | read | recv | close | strerrorR => exact ⟨trivial, fun _ => rfl⟩
  all_goals contradiction

theorem log_retrLoop : (retrLoop env fd fuel).wp log (fun _ g' => g' = g) g :=
  wp_mono (wp_of_silent (fun _ => log_moving) retrLoop_within) fun _ _ h => h.right

theorem log_storLoop {off : Int} : (storLoop env fd fuel off).wp log (fun _ g' => g' = g) g :=
  wp_mono (wp_of_silent (fun _ => log_moving) storLoop_within) fun _ _ h => h.right

theorem log_ftpCmdLIST : (ftpCmdLIST fuel env arg).wp log
    (Leaves (Opened env none) fun env' => env' = { env with dataFd := env'.dataFd }) {} := by
  refine wp_call.mpr ⟨trivial, fun dir _ => ?_⟩
  cases dir
  case none     => exact leaves_perror .blank rfl
  case some dir =>
    refine log_ftpDataOpen fun r dataFd g hg _ => wp_if (fun _ => leaves_perror hg rfl) fun _ => ?_
    refine log_ftpActivePrintf fun _ => wp_bind.mpr ?_
    apply wp_mono (log_listLoop hg)
    intro o g hg
    cases o
    case none => exact ⟨hg, nofun⟩
    case some =>
      refine wp_bind.mpr ⟨trivial, fun r _ => wp_if (fun _ => ?_) fun _ => ?_⟩
      case refine_1 =>
        refine ⟨trivial, fun buf _ => ⟨trivial, fun n _ => ⟨trivial, fun r _ => ⟨hg, ?_⟩⟩⟩⟩
        rintro ret env' ⟨⟩
        rfl
      case refine_2 =>
        exact wp_call.mpr ⟨trivial, fun r _ => wp_if (fun _ => leaves_perror hg rfl) fun _ => leaves_reply hg rfl⟩

-- What opening a file leaves in the log.

theorem log_open_neg {path : Bytes} {flags : OpenFlags} (h : fd < 0) : log.next g ⟨.open path flags, fd⟩ = g :=
  if_pos h

theorem log_open {path : Bytes} {flags : OpenFlags} (h : ¬fd < 0) :
    log.next g ⟨.open path flags, fd⟩ = { g with pos := some 0 } :=
  if_neg h

theorem log_lseek_neg {off r : Int} (h : r < 0) : log.next g ⟨.lseekCur fd off, r⟩ = g :=
  if_pos h

theorem log_lseek {off r : Int} (h : ¬r < 0) :
    log.next g ⟨.lseekCur fd off, r⟩ = { g with pos := g.pos.map (· + off) } :=
  if_neg h

theorem log_ftpCmdRETR : (ftpCmdRETR fuel env arg).wp log
    (Leaves (Opened env (some 0)) fun env' => env' = { env with dataFd := env'.dataFd }) {} := by
  refine wp_if (fun _ => leaves_reply .blank rfl) fun _ => wp_call.mpr ⟨trivial, fun st _ => ?_⟩
  rcases st with _ | st
  case none => exact leaves_perror .blank rfl
  case some =>
    refine wp_if (fun _ => leaves_reply .blank rfl) fun _ => wp_call.mpr ⟨trivial, fun fd _ => wp_if (fun hf => ?_) fun hf => ?_⟩
    case refine_1 =>
      rw [log_open_neg hf]
      exact wp_call.mpr ⟨trivial, fun text _ => leaves_reply .blank rfl⟩
    case refine_2 =>
      rw [log_open hf]
      refine log_ftpActivePrintf fun r => wp_if (fun _ => ⟨trivial, fun _ _ => ⟨.blank, by rintro ret env' ⟨⟩; rfl⟩⟩) fun _ => ?_
      refine log_ftpDataOpen fun r dataFd g hg _ => wp_if (fun _ => leaves_perrorClose hg rfl) fun _ => wp_bind.mpr ?_
      apply wp_mono log_retrLoop
      rintro o _ rfl
      rcases o with _ | err | _
      case none       => exact ⟨hg, nofun⟩
      case some.error => exact ⟨hg, by rintro ret env' ⟨⟩; rfl⟩
      case some.ok    =>
        refine ⟨trivial, fun r _ => ⟨trivial, fun r' _ => ?_⟩⟩
        exact wp_if (fun _ => leaves_perror hg rfl) fun _ => leaves_reply hg rfl

theorem log_ftpCmdSTOR {size : Option Int} : (ftpCmdSTOR fuel env arg).wp log
    (Leaves (fun g => Opened env (some env.dataOffset) g ∧ g.size = size)
      fun env' => env' = { env with dataOffset := 0, dataFd := env'.dataFd }) (.blank size) := by
  refine wp_if (fun _ => leaves_reply ⟨.blank, rfl⟩ rfl) fun _ => wp_call.mpr ⟨trivial, fun fd _ => wp_if (fun hf => ?_) fun hf => ?_⟩
  case refine_1 =>
    rw [log_open_neg hf]
    exact leaves_perror ⟨.blank, rfl⟩ rfl
  case refine_2 =>
    rw [log_open hf]
    refine wp_call.mpr ⟨trivial, fun r _ => wp_if (fun hr => ?_) fun hr => ?_⟩
    case refine_1 =>
      rw [log_lseek_neg hr]
      exact leaves_perrorClose ⟨.blank, rfl⟩ rfl
    case refine_2 =>
      rw [log_lseek hr, Option.map_some, zero_add]
      refine log_ftpActivePrintf fun r => wp_if (fun _ => ?_) fun _ => ?_
      case refine_1 => exact ⟨trivial, fun _ _ => ⟨⟨.blank, rfl⟩, by rintro ret env' ⟨⟩; rfl⟩⟩
      case refine_2 =>
        refine log_ftpDataOpen fun r dataFd g hg hs => ?_
        have hg : Opened env (some env.dataOffset) g := ⟨hg.starts, hg.endpoints, hg.renamed⟩
        refine wp_if (fun _ => leaves_perrorClose ⟨hg, hs⟩ rfl) fun _ => wp_bind.mpr ?_
        apply wp_mono log_storLoop
        rintro o _ rfl
        rcases o with _ | err | off
        case none       => exact ⟨⟨hg, hs⟩, nofun⟩
        case some.error => exact ⟨⟨hg, hs⟩, by rintro ret env' ⟨⟩; rfl⟩
        case some.ok    =>
          refine wp_call.mpr ⟨trivial, fun r _ => wp_if (fun _ => ?_) fun _ => ?_⟩
          case refine_1 => exact log_perrorDataClose fun ret => ⟨⟨hg, hs⟩, by rintro ret env' ⟨⟩; rfl⟩
          case refine_2 =>
            refine ⟨trivial, fun r _ => ⟨trivial, fun r' _ => ?_⟩⟩
            exact wp_if (fun _ => leaves_perror ⟨hg, hs⟩ rfl) fun _ => leaves_reply ⟨hg, hs⟩ rfl

-- Where an appending transfer starts: an offset of 0 is replaced by the size of the file.
def appendAt (env : Env) (arg : Bytes) (g : Log) : Option Int :=
  if arg = [] then none
  else if env.dataOffset = 0 then g.size
  else some env.dataOffset

theorem log_ftpCmdAPPE : (ftpCmdAPPE fuel env arg).wp log
    (Leaves (fun g => Opened env (appendAt env arg g) g) fun env' =>
      env' = { env with dataOffset := if arg = [] then env.dataOffset else 0, dataFd := env'.dataFd }) {} := by
  refine wp_if (fun ha => leaves_reply .blank (by rw [if_pos ha])) fun ha => ?_
  rw [if_neg ha]
  refine wp_if (fun ho => wp_call.mpr ⟨trivial, fun st _ => ?_⟩) fun ho => ?_
  case refine_1 =>
    rcases st with _ | st
    case none => exact leaves_perror .blank (by rw [← ho])
    case some =>
      apply wp_mono log_ftpCmdSTOR
      intro o g hg
      have ⟨⟨ho', hs⟩, he⟩ := hg
      have hp : appendAt env arg g = some st.size := (if_neg ha).trans <| (if_pos ho).trans hs
      exact ⟨⟨hp.symm ▸ ho'.starts, ho'.endpoints, ho'.renamed⟩, he⟩
  case refine_2 =>
    apply wp_mono log_ftpCmdSTOR
    intro o g hg
    have hp : appendAt env arg g = some env.dataOffset := (if_neg ha).trans (if_neg ho)
    have ⟨⟨ho', _⟩, he⟩ := hg
    exact ⟨⟨hp.symm ▸ ho'.starts, ho'.endpoints, ho'.renamed⟩, he⟩

-- The data connection is not requested, and no path is renamed.
structure Quiet (g : Log) : Prop where
  starts    : g.starts = []
  endpoints : g.endpoints = []
  renamed   : g.renamed = []

theorem Quiet.blank {size socket : Option Int} : Quiet { size := size, socket := socket } :=
  ⟨rfl, rfl, rfl⟩

theorem log_ftpCmdPASV : (ftpCmdPASV env arg).wp log
    (fun o g => ∃ fd, Leaves (· = { socket := fd }) (· = { env with passiveFd := fd.getD env.passiveFd }) o g) {} := by
  refine wp_call.mpr ⟨trivial, fun sockaddr _ => ?_⟩
  rcases sockaddr with _ | sockaddr
  case none => exact wp_exists none (leaves_perror rfl rfl)
  case some =>
    refine log_closeFd ⟨trivial, fun passiveFd _ => wp_exists (some passiveFd) ?_⟩
    refine wp_if (fun _ => leaves_perror rfl rfl) fun _ => wp_call.mpr ⟨trivial, fun r _ => ?_⟩
    refine wp_if (fun _ => leaves_perrorClose rfl rfl) fun _ => wp_call.mpr ⟨trivial, fun r _ => ?_⟩
    refine wp_if (fun _ => leaves_perrorClose rfl rfl) fun _ => wp_call.mpr ⟨trivial, fun bound _ => ?_⟩
    rcases bound with _ | bound
    case none => exact leaves_perrorClose rfl rfl
    case some => exact leaves_reply rfl rfl

-- The address that is named by the argument of PORT.
def portAddr (arg : Bytes) : Option SockAddr :=
  (sscanfBytes 6 arg).map fun addr => {
    addr := .ofNat 32 (LittleEndian.decode (addr.take 4))
    port := .ofNat 16 (LittleEndian.decode (addr.drop 4)) }

-- The address is that of the last request for which a socket was created.
def portTarget (env : Env) (arg : Bytes) (socket : Option Int) : SockAddr :=
  if ∃ fd ∈ socket, ¬fd < 0 then (portAddr arg).getD env.dataAddr else env.dataAddr

theorem log_ftpCmdPORT : (ftpCmdPORT env arg).wp log
    (fun o g => ∃ fd, Leaves (fun g => g = { socket := fd } ∧ fd.isSome = (portAddr arg).isSome)
      (fun env' => env' = { env with dataFd := env'.dataFd, dataAddr := portTarget env arg fd }) o g) {} := by
  rw [ftpCmdPORT]
  cases ha : sscanfBytes 6 arg
  case none =>
    have hn : portAddr arg = none := by rw [portAddr, ha, Option.map_none]
    exact wp_exists none (leaves_reply ⟨rfl, by rw [hn, Option.isSome_none, Option.isSome_none]⟩ rfl)
  case some addr =>
    have hs : (portAddr arg).isSome := by rw [portAddr, ha, Option.map_some, Option.isSome_some]
    refine wp_call.mpr ⟨trivial, fun dataFd _ => wp_exists (some dataFd) (wp_if (fun hf => ?_) fun hf => ?_)⟩
    case refine_1 =>
      have ht : portTarget env arg (some dataFd) = env.dataAddr := if_neg (by simpa using hf)
      exact leaves_perror ⟨rfl, hs.symm⟩ (by rw [ht])
    case refine_2 =>
      have ht : portTarget env arg (some dataFd) = (portAddr arg).getD env.dataAddr := if_pos (by simpa using hf)
      exact leaves_reply ⟨rfl, hs.symm⟩ (by rw [ht, portAddr, ha, Option.map_some, Option.getD_some])

theorem log_ftpCmdREST : (ftpCmdREST env arg).wp log
    (Leaves (· = {}) (· = { env with dataOffset := if arg = [] then env.dataOffset else atol arg })) {} :=
  wp_if (fun ha => leaves_reply rfl (by rw [if_pos ha])) fun ha => leaves_reply rfl (by rw [if_neg ha])

theorem log_ftpCmdRNFR : (ftpCmdRNFR env arg).wp log
    (Leaves Quiet (· = { env with renamePath := if arg = [] then env.renamePath else ftpAbspath env arg })) {} := by
  refine wp_if (fun ha => leaves_reply .blank (by rw [if_pos ha])) fun ha => wp_call.mpr ⟨trivial, fun st _ => ?_⟩
  rw [if_neg ha]
  rcases st with _ | st
  case none => exact leaves_perror .blank rfl
  case some => exact leaves_reply .blank rfl

-- A path is renamed once, or not at all.
structure Renamed (env : Env) (arg : Bytes) (g : Log) : Prop where
  starts    : g.starts = []
  endpoints : g.endpoints = []
  renamed   : g.renamed = [] ∨ arg ≠ [] ∧ g.renamed = [env.renamePath]

theorem log_rename_ne {path newPath : Bytes} {r : Int} (h : r ≠ 0) : log.next g ⟨.rename path newPath, r⟩ = g :=
  if_neg h

theorem log_rename {path newPath : Bytes} {r : Int} (h : r = 0) :
    log.next g ⟨.rename path newPath, r⟩ = { g with renamed := g.renamed ++ [path] } :=
  if_pos h

theorem log_ftpCmdRNTO : (ftpCmdRNTO env arg).wp log (Leaves (Renamed env arg) (· = env)) {} := by
  have hn {size : Option Int} : Renamed env arg (.blank size) := ⟨rfl, rfl, .inl rfl⟩
  refine wp_if (fun ha => leaves_reply hn rfl) fun ha => wp_call.mpr ⟨trivial, fun st _ => ?_⟩
  rcases st with _ | st
  case none => exact leaves_perror hn rfl
  case some =>
    refine wp_call.mpr ⟨trivial, fun r _ => wp_if (fun hr => leaves_perror ?_ rfl) fun hr => leaves_reply ?_ rfl⟩
    case refine_1 =>
      rw [log_rename_ne hr]
      exact hn
    case refine_2 =>
      rw [log_rename (not_not.mp hr)]
      exact ⟨rfl, rfl, .inr ⟨ha, rfl⟩⟩

theorem log_keeps {p : Proc (Int × Env)} (h : Keeps env p) : p.wp log (Leaves Quiet env.Agrees) {} := by
  have hs : ∀ c, Plain c → ∀ g, Quiet g → log.Demands g c ∧ ∀ r, Quiet (log.next g ⟨c, r⟩) := by
    intro c hc g hg
    cases c
    case stat => exact ⟨trivial, fun st => by cases st <;> exact ⟨hg.starts, hg.endpoints, hg.renamed⟩⟩
    case activeWrite | chmod | remove | mkdir | rmdir | strerror | strerrorR | exit => exact ⟨trivial, fun _ => hg⟩
    all_goals contradiction
  exact wp_of_within hs h .blank fun _ _ he hg => ⟨hg, he⟩

-- What holds of the state after a command that has come to its end.
def Step.Ends (s : Step) (E : Env → Prop) : Prop :=
  ∀ ret env, s.outcome = some (ret, env) → E env

-- What the execution of a command line leaves behind.
inductive Effect (s : Step) : Prop
  | appe (hn : s.name = bytes "APPE") (hg : Opened s.env (appendAt s.env s.arg s.log) s.log) (he : s.Ends fun env' =>
      env' = { s.env with dataOffset := if s.arg = [] then s.env.dataOffset else 0, dataFd := env'.dataFd })
  | list (hn : s.name = bytes "LIST") (hg : Opened s.env none s.log)
    (he : s.Ends fun env' => env' = { s.env with dataFd := env'.dataFd })
  | pasv (hn : s.name = bytes "PASV") (fd : Option Int) (hg : s.log = { socket := fd })
    (he : s.Ends (· = { s.env with passiveFd := fd.getD s.env.passiveFd }))
  | port (hn : s.name = bytes "PORT") (fd : Option Int) (hg : s.log = { socket := fd })
    (hp : fd.isSome = (portAddr s.arg).isSome)
    (he : s.Ends fun env' => env' = { s.env with dataFd := env'.dataFd, dataAddr := portTarget s.env s.arg fd })
  | rest (hn : s.name = bytes "REST") (hg : s.log = {})
    (he : s.Ends (· = { s.env with dataOffset := if s.arg = [] then s.env.dataOffset else atol s.arg }))
  | retr (hn : s.name = bytes "RETR") (hg : Opened s.env (some 0) s.log)
    (he : s.Ends fun env' => env' = { s.env with dataFd := env'.dataFd })
  | rnfr (hn : s.name = bytes "RNFR") (hg : Quiet s.log)
    (he : s.Ends (· = { s.env with renamePath := if s.arg = [] then s.env.renamePath else ftpAbspath s.env s.arg }))
  | rnto (hn : s.name = bytes "RNTO") (hg : Renamed s.env s.arg s.log) (he : s.Ends (· = s.env))
  | stor (hn : s.name = bytes "STOR") (hg : Opened s.env (some s.env.dataOffset) s.log)
    (he : s.Ends fun env' => env' = { s.env with dataOffset := 0, dataFd := env'.dataFd })
  | keeps (hn : s.name ∉ sessionCommands) (hg : Quiet s.log) (he : s.Ends s.env.Agrees)

theorem log_allowed {t : Trace Result} : log.Allowed g t :=
  Monitor.allowed_of_forall fun _ _ => trivial

theorem Step.Observed.effect {s : Step} (h : s.Observed) : Effect s := by
  have ⟨fuel, h⟩ := h
  have hd := @dispatch s.env fuel s.line
  have hs {Q : Option (Int × Env) → Log → Prop} (hq : (ftpExecute fuel s.env s.line).wp Ftp.log Q {}) : Q s.outcome s.log :=
    (wp_sound hq h log_allowed).right
  generalize hn : (splitLine s.line).fst = name at hd
  generalize ftpExecute fuel s.env s.line = p at hd hs
  replace hn : s.name = name := hn
  cases hd
  case appe =>
    have ⟨hg, he⟩ := hs log_ftpCmdAPPE
    exact .appe hn hg he
  case list =>
    have ⟨hg, he⟩ := hs log_ftpCmdLIST
    exact .list hn hg he
  case pasv =>
    have ⟨fd, hg, he⟩ := hs log_ftpCmdPASV
    exact .pasv hn fd hg he
  case port =>
    have ⟨fd, ⟨hg, hp⟩, he⟩ := hs log_ftpCmdPORT
    exact .port hn fd hg hp he
  case rest =>
    have ⟨hg, he⟩ := hs log_ftpCmdREST
    exact .rest hn hg he
  case retr =>
    have ⟨hg, he⟩ := hs log_ftpCmdRETR
    exact .retr hn hg he
  case rnfr =>
    have ⟨hg, he⟩ := hs log_ftpCmdRNFR
    exact .rnfr hn hg he
  case rnto =>
    have ⟨hg, he⟩ := hs log_ftpCmdRNTO
    exact .rnto hn hg he
  case stor =>
    have ⟨⟨hg, _⟩, he⟩ := hs log_ftpCmdSTOR
    exact .stor hn hg he
  case keeps hk hp =>
    have ⟨hg, he⟩ := hs (log_keeps hp)
    exact .keeps (hn ▸ hk) hg he

end Ftp

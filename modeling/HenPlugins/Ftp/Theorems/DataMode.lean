import HenPlugins.Ftp.Theorems.Log

open List Prog Monitor CString

namespace Ftp

-- The address of an accepted PORT, or the listener of a PASV.
def Step.request (s : Step) : Option Endpoint :=
  if s.name = bytes "PORT" then (portAddr s.arg).map .active
  else if s.name = bytes "PASV" then s.log.socket.map .passive
  else none

-- What the latest request asks for. There is no listener before the first one.
def latest (past : List Step) : Endpoint :=
  past.foldl (fun e s => s.request.getD e) (.passive (-1))

-- The address of the last PORT.
def lastPort (past : List Step) : SockAddr :=
  past.foldl (fun addr s => if s.name = bytes "PORT" then (portAddr s.arg).getD addr else addr) ⟨0, 0⟩

-- The listener of the last PASV.
def lastListener (past : List Step) : Int :=
  past.foldl (fun fd s => if s.name = bytes "PASV" then s.log.socket.getD fd else fd) (-1)

-- The latest request is a PORT that does not name the port 0, or no other PORT has been sent before it.
def Follows (past : List Step) : Prop :=
  match latest past with
  | .active addr => addr.port ≠ 0
  | .passive _   => (lastPort past).port = 0

-- The call for a socket has been successful.
def Succeeds : Event Result → Prop
  | ⟨.socket, fd⟩            => (0 : Int) ≤ fd
  | ⟨.accept _, fd⟩          => (0 : Int) ≤ fd
  | ⟨.bind .., r⟩            => r = (0 : Int)
  | ⟨.listen .., r⟩          => r = (0 : Int)
  | ⟨.connect .., r⟩         => r = (0 : Int)
  | ⟨.getsockname _, result⟩ => result ≠ none
  | _                        => True

variable {env : Env} {past steps : List Step} {s : Step} {t : Trace Result} {g : Log} {fd : Int} {e : Endpoint}

theorem latest_append : latest (past ++ [s]) = s.request.getD (latest past) := by
  simp [latest]

theorem lastPort_append :
    lastPort (past ++ [s]) = if s.name = bytes "PORT" then (portAddr s.arg).getD (lastPort past) else lastPort past := by
  simp [lastPort]

theorem lastListener_append :
    lastListener (past ++ [s]) = if s.name = bytes "PASV" then s.log.socket.getD (lastListener past) else lastListener past := by
  simp [lastListener]

theorem latest_eq : latest past = .active (lastPort past) ∨ latest past = .passive (lastListener past) := by
  induction past using List.reverseRecOn
  case nil => exact .inr rfl
  case append_singleton past s hi =>
    rw [latest_append, lastPort_append, lastListener_append, Step.request]
    by_cases hn : s.name = bytes "PORT"
    case pos =>
      have hp : s.name ≠ bytes "PASV" := hn ▸ by decide
      rw [if_pos hn, if_pos hn, if_neg hp]
      cases portAddr s.arg
      case none => exact hi
      case some => exact .inl rfl
    case neg =>
      rw [if_neg hn, if_neg hn]
      by_cases hp : s.name = bytes "PASV"
      case pos =>
        rw [if_pos hp, if_pos hp]
        cases s.log.socket
        case none => exact hi
        case some => exact .inr rfl
      case neg =>
        rw [if_neg hp, if_neg hp]
        exact hi

-- The fields that `ftp_data_open` reads.
structure Targets (past : List Step) (env : Env) : Prop where
  dataAddr  : env.dataAddr = lastPort past
  passiveFd : env.passiveFd = lastListener past

theorem Targets.endpoint_iff (h : Targets past env) : env.endpoint = latest past ↔ Follows past := by
  rw [Env.endpoint, Follows, h.dataAddr, h.passiveFd]
  cases @latest_eq past
  case inl hl => simp [hl]
  case inr hl => simp [hl]

theorem socket_of_next {e : Event Result} (h : (log.next g e).socket = some fd) : g.socket = some fd ∨ e = ⟨.socket, fd⟩ := by
  simp only [log, Log.update] at h
  split at h
  case h_2             => exact .inr (Option.some.inj h ▸ rfl)
  case h_3 | h_4 | h_7 => split at h <;> exact .inl h
  all_goals exact .inl h

-- The socket that is kept has been created.
theorem socket_mem (h : (log.after g t).socket = some fd) : g.socket = some fd ∨ ⟨.socket, fd⟩ ∈ t := by
  induction t generalizing g
  case nil => exact .inl h
  case cons e t hi =>
    cases hi h
    case inr hm => exact .inr (mem_cons_of_mem e hm)
    case inl hs =>
      cases socket_of_next hs
      case inl hs => exact .inl hs
      case inr he => exact .inr (he ▸ mem_cons_self)

theorem Targets.append (h : Targets past s.env) (hn : s.name ≠ bytes "PORT") (hp : s.name ≠ bytes "PASV")
    (ha : env.dataAddr = s.env.dataAddr) (hf : env.passiveFd = s.env.passiveFd) : Targets (past ++ [s]) env where
  dataAddr  := by rw [lastPort_append, if_neg hn, ha, h.dataAddr]
  passiveFd := by rw [lastListener_append, if_neg hp, hf, h.passiveFd]

theorem Targets.step (h : Targets past s.env) (hs : s.Observed) (ha : ∀ e ∈ s.trace, Succeeds e) :
    s.Ends (Targets (past ++ [s])) := by
  intro ret env' ho
  cases hs.effect
  case pasv hn fd hg he =>
    have hp : s.name ≠ bytes "PORT" := hn ▸ by decide
    rw [he ret env' ho]
    constructor
    · rw [lastPort_append, if_neg hp, h.dataAddr]
    · rw [lastListener_append, if_pos hn, hg, h.passiveFd]
  case port hn fd hg hp he =>
    have hl : s.name ≠ bytes "PASV" := hn ▸ by decide
    rw [he ret env' ho]
    constructor
    case dataAddr =>
      rw [lastPort_append, if_pos hn, portTarget]
      cases fd
      case none =>
        have hn : portAddr s.arg = none := by simpa using hp
        simp [hn, h.dataAddr]
      case some fd =>
        have hm : ⟨.socket, fd⟩ ∈ s.trace := (socket_mem (congrArg Log.socket hg)).resolve_left nofun
        have hf : ¬fd < 0 := Int.not_lt.mpr (ha _ hm)
        simp [hf, h.dataAddr]
    case passiveFd => rw [lastListener_append, if_neg hl, h.passiveFd]
  case keeps hn _ he =>
    have he := he ret env' ho
    exact h.append (fun hr => hn (hr ▸ by decide)) (fun hr => hn (hr ▸ by decide)) he.dataAddr he.passiveFd
  case appe hn _ he | list hn _ he | rest hn _ he | retr hn _ he | rnfr hn _ he | rnto hn _ he | stor hn _ he =>
    refine h.append (hn ▸ by decide) (hn ▸ by decide) ?_ ?_
    all_goals rw [he ret env' ho]

theorem targets_initEnv {activeFd : Int} : Targets [] (initEnv activeFd) :=
  ⟨rfl, rfl⟩

-- The data connection is requested as the state says.
theorem Step.Observed.endpoints (h : s.Observed) : s.log.endpoints = [] ∨ s.log.endpoints = [s.env.endpoint] := by
  cases h.effect
  case appe hg _ | list hg _ | retr hg _ | stor hg _            => exact hg.endpoints
  case rnto hg _ | rnfr hg _ | keeps hg _                       => exact .inl hg.endpoints
  case pasv hg _ | port hg _ _ | rest hg _                      => exact .inl (congrArg Log.endpoints hg)

-- The data connection is the one of the latest request if and only if no address that names a port is left behind by
-- a PORT before it, and the latest request itself names a port if it is a PORT.
theorem endpoints_latest_iff {activeFd : Int} {o : Option Env} (h : Session (initEnv activeFd) steps t o)
    (hs : ∀ s ∈ steps, ∀ e ∈ s.trace, Succeeds e) :
    (∀ past s rest, steps = past ++ s :: rest → ∀ e ∈ s.log.endpoints, e = latest past) ↔
      ∀ past s rest, steps = past ++ s :: rest → s.log.endpoints ≠ [] → Follows past := by
  have hi := h.invariant (I := Targets) (A := fun _ s => ∀ e ∈ s.trace, Succeeds e)
    (P := fun past s => Targets past s.env ∧ s.Observed) (fun past s hi ho ha => ⟨⟨hi, ho⟩, hi.step ho ha⟩)
    targets_initEnv fun past s rest he => hs s (he ▸ mem_append_right _ mem_cons_self)
  refine forall₄_congr fun past s rest he => ?_
  have ⟨ht, ho⟩ := hi past s rest he
  cases ho.endpoints
  case inl hn => simp [hn]
  case inr hn => simp [hn, ht.endpoint_iff]

def portStep (env : Env) : Step where
  env     := env
  line    := bytes "PORT 10,0,0,1,4,1"
  trace   := [⟨.socket, (5 : Int)⟩, ⟨.activeWrite 4 (bytes "200 PORT command successful.\r\n"), (30 : Int)⟩]
  outcome := some (0, { env with dataFd := 5, dataAddr := ⟨0x0100000a, 0x0104⟩ })

-- An empty directory is sent over the given connection.
def listStep (env : Env) (dataOpen : Event Result) (dataFd : Int) : Step where
  env     := env
  line    := bytes "LIST"
  trace   := [⟨.opendir [slash], some (1 : Nat)⟩, dataOpen,
    ⟨.activeWrite 4 (bytes "150 Opening data transfer\r\n"), (27 : Int)⟩, ⟨.readdir 1, (none : Option Bytes)⟩,
    ⟨.close dataFd, (0 : Int)⟩, ⟨.closedir 1, (0 : Int)⟩,
    ⟨.activeWrite 4 (bytes "226 Transfer complete\r\n"), (23 : Int)⟩]
  outcome := some (0, { env with dataFd := dataFd })

-- A client that goes over from passive to active mode.
def modesSample : List Step :=
  let passive : Env := { initEnv 4 with passiveFd := 6 }
  let opened  : Env := { passive with dataFd := 8 }
  let active  : Env := { passive with dataFd := 5, dataAddr := ⟨0x0100000a, 0x0104⟩ }
  [pasvSample (initEnv 4), listStep passive ⟨.accept 6, (8 : Int)⟩ 8, portStep opened,
    listStep active ⟨.connect 5 ⟨0x0100000a, 0x0104⟩, (0 : Int)⟩ 5]

theorem endpoints_latest_sample :
    .passive 6 = latest [modesSample[0]] ∧
    .active ⟨0x0100000a, 0x0104⟩ = latest [modesSample[0], modesSample[1], modesSample[2]] := by
  have ⟨_, _, h⟩ := @session_of_replays (initEnv 4) modesSample 20 (by decide +kernel)
  have hs : ∀ s ∈ modesSample, ∀ e ∈ s.trace, Succeeds e := by
    simp [modesSample, pasvSample, portStep, listStep, Succeeds]
  have hf : ∀ past s rest, modesSample = past ++ s :: rest → s.log.endpoints ≠ [] → Follows past := by
    intro past s rest he hn
    rcases past with _ | ⟨a, _ | ⟨b, _ | ⟨c, _ | ⟨d, past⟩⟩⟩⟩
    all_goals simp [modesSample] at he
    · obtain ⟨rfl, _⟩ := he
      exact absurd rfl hn
    · obtain ⟨rfl, rfl, _⟩ := he
      show (lastPort _).port = 0
      decide +kernel
    · obtain ⟨rfl, rfl, rfl, _⟩ := he
      exact absurd rfl hn
    · obtain ⟨rfl, rfl, rfl, rfl, _⟩ := he
      show (0x0104 : BitVec 16) ≠ 0
      decide
  have hl := (endpoints_latest_iff h hs).mpr hf
  constructor
  case left  => exact hl _ _ [modesSample[2], modesSample[3]] rfl _ (by decide +kernel)
  case right => exact hl _ modesSample[3] [] rfl _ (by decide +kernel)

-- A client that falls back from active to passive mode.
def fallbackSample : List Step :=
  let active  : Env := { initEnv 4 with dataFd := 5, dataAddr := ⟨0x0100000a, 0x0104⟩ }
  let passive : Env := { active with passiveFd := 6 }
  [portStep (initEnv 4), pasvSample active, listStep passive ⟨.connect 5 ⟨0x0100000a, 0x0104⟩, (0 : Int)⟩ 5]

theorem endpoints_not_latest : ¬∀ steps t o, Session (initEnv 4) steps t o →
    (∀ s ∈ steps, ∀ e ∈ s.trace, Succeeds e) →
      ∀ past s rest, steps = past ++ s :: rest → ∀ e ∈ s.log.endpoints, e = latest past := by
  intro ha
  have ⟨t, o, h⟩ := @session_of_replays (initEnv 4) fallbackSample 20 (by decide +kernel)
  have hs : ∀ s ∈ fallbackSample, ∀ e ∈ s.trace, Succeeds e := by
    simp [fallbackSample, pasvSample, portStep, listStep, Succeeds]
  have he := ha _ t o h hs [fallbackSample[0], fallbackSample[1]] fallbackSample[2] [] rfl
    (.active ⟨0x0100000a, 0x0104⟩) (by decide +kernel)
  exact absurd he (by decide +kernel)

end Ftp

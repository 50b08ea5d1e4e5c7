import HenPlugins.Ftp.Theorems.Reply

open List Prog CString

namespace Ftp

-- The numbers of the replies.
def codes (t : Trace Result) : List Nat :=
  t.filterMap fun e =>
    match e.call with
    | .activeWrite _ buf => replyCode buf
    | _                  => none

-- The execution of a command line. There is no outcome if it was stopped.
structure Step where
  env     : Env
  line    : Bytes
  trace   : Trace Result
  outcome : Option (Int × Env)

namespace Step

def name (s : Step) : Bytes :=
  (splitLine s.line).fst

def arg (s : Step) : Bytes :=
  (splitLine s.line).snd

def Observed (s : Step) : Prop :=
  ∃ fuel, (ftpExecute fuel s.env s.line).Observed s.trace s.outcome

def codes (s : Step) : List Nat :=
  Ftp.codes s.trace

end Step

-- The command lines of a client, what is observed while they are read and executed, and the state at the end if
-- the session comes to it.
inductive Session : Env → List Step → Trace Result → Option Env → Prop
  | stop {env : Env} : Session env [] [] none
  | reading {env : Env} {fuel : Nat} {t : Trace Result} (hr : (ftpReadline fuel env.activeFd).Observed t none) :
    Session env [] t none
  | closed {env : Env} {fuel : Nat} {t : Trace Result} (hr : (ftpReadline fuel env.activeFd).Observed t (some none)) :
    Session env [] t (some env)
  | last {env : Env} {fuel : Nat} {line : Bytes} {t t' : Trace Result} {o : Option (Int × Env)}
    (hr : (ftpReadline fuel env.activeFd).Observed t (some (some line)))
    (hx : (ftpExecute fuel env (siteCmd line)).Observed t' o) (ho : ∀ env, o ≠ some (0, env)) :
    Session env [⟨env, siteCmd line, t', o⟩] (t ++ t') (o.map Prod.snd)
  | cons {env env' : Env} {fuel : Nat} {line : Bytes} {t t' t'' : Trace Result} {steps : List Step} {o : Option Env}
    (hr : (ftpReadline fuel env.activeFd).Observed t (some (some line)))
    (hx : (ftpExecute fuel env (siteCmd line)).Observed t' (some (0, env'))) (hs : Session env' steps t'' o) :
    Session env (⟨env, siteCmd line, t', some (0, env')⟩ :: steps) (t ++ (t' ++ t'')) o

variable {env : Env} {steps : List Step} {t : Trace Result} {o : Option Env} {fuel : Nat}

theorem codes_reply {text : Bytes} {code : Nat} {o : Option (Int × Env)} (h : (reply env text).Observed t o)
    (hc : replyCode text = some code) : codes t = [code] := by
  obtain ⟨n, t', rfl, h'⟩ := observed_call h
  cases h'
  exact filterMap_cons_some (@replyCode_take text (printfSize - 5) code hc)

-- What is observed of the loop of a client is a session.
theorem session_of_threadLoop (h : (threadLoop fuel env).Observed t o) : ∃ steps, Session env steps t o := by
  induction fuel generalizing env t
  case zero =>
    cases h
    exact ⟨[], .stop⟩
  case succ fuel hi =>
    obtain ⟨hr, rfl⟩ | ⟨line, t₁, t₂, rfl, hr, h⟩ := observed_bind h
    case inl => exact ⟨[], .reading hr⟩
    case inr =>
      cases line
      case none =>
        cases h
        rw [append_nil]
        exact ⟨[], .closed hr⟩
      case some line =>
        obtain ⟨hx, rfl⟩ | ⟨⟨ret, env'⟩, t₃, t₄, rfl, hx, h⟩ := observed_bind h
        case inl => exact ⟨_, .last hr hx (by simp)⟩
        case inr =>
          dsimp only at h
          split at h
          case isTrue hn =>
            cases h
            rw [append_nil]
            exact ⟨_, .last hr hx (by simp [hn])⟩
          case isFalse hn =>
            obtain rfl := not_not.mp hn
            have ⟨steps, hs⟩ := hi h
            exact ⟨_, .cons hr hx hs⟩

-- What arrives, and what is written, if that many bytes may.

def chunk {count : Nat} (bs : Bytes) : Input count :=
  if h : bs.length ≤ count then .ok ⟨bs, h⟩ else .error .other

def written {count : BitVec 64} (n : Int) : Written count :=
  if h : n = -1 ∨ 0 ≤ n ∧ n ≤ count.toNat ∧ count.toNat < 2 ^ 63 then ⟨n, h⟩ else ⟨-1, .inl rfl⟩

-- What is observed of a client that sends a line.
def lineTrace (fd : Int) (line : Bytes) : Trace Result :=
  ⟨.calloc bufsize, true⟩ :: (line ++ [lf]).map fun c => ⟨.read fd 1, .ok ⟨[c], le_rfl⟩⟩

-- Runs command lines on the given answers.
def replays (fuel : Nat) : Env → List Step → Bool
  | _, []            => true
  | env, s :: steps  =>
    s.env = env &&
    siteCmd s.line = s.line &&
    (ftpReadline fuel env.activeFd).replay (lineTrace env.activeFd s.line) = some (some (some s.line)) &&
    (ftpExecute fuel env s.line).replay s.trace = some s.outcome &&
    match s.outcome with
    | some (0, env') => replays fuel env' steps
    | _              => steps.isEmpty

theorem session_of_replays (h : replays fuel env steps) : ∃ t o, Session env steps t o := by
  induction steps generalizing env
  case nil => exact ⟨_, _, .stop⟩
  case cons s steps hi =>
    obtain ⟨env', line, t, o⟩ := s
    simp only [replays, Bool.and_eq_true, decide_eq_true_eq] at h
    obtain ⟨⟨⟨⟨rfl, hc⟩, hr⟩, hx⟩, hs⟩ := h
    replace hr := observed_of_replay hr
    replace hx := observed_of_replay hx
    rw [← hc] at hx ⊢
    split at hs
    case h_1 =>
      have ⟨_, _, hs⟩ := hi hs
      exact ⟨_, _, .cons hr hx hs⟩
    case h_2 ho =>
      obtain rfl := isEmpty_iff.mp hs
      exact ⟨_, _, .last hr hx fun env he => ho env he⟩

-- The client 4 gets the listener 6.
def pasvSample (env : Env) : Step where
  env     := env
  line    := bytes "PASV"
  trace   := [⟨.getsockname 4, some ⟨0x0200000a, 0x1500⟩⟩, ⟨.socket, (6 : Int)⟩, ⟨.bind 6 ⟨0, 0⟩, (0 : Int)⟩,
    ⟨.listen 6 5, (0 : Int)⟩, ⟨.getsockname 6, some ⟨0, 0x0108⟩⟩,
    ⟨.activeWrite 4 (bytes "227 Entering Passive Mode (10,0,0,2,8,1).\r\n"), (43 : Int)⟩]
  outcome := some (0, { env with passiveFd := 6 })

namespace Session

variable {I : List Step → Env → Prop} {A P : List Step → Step → Prop}

theorem invariant_from (before : List Step) (h : Session env steps t o)
    (hs : ∀ past s, I past s.env → s.Observed → A past s →
      P past s ∧ ∀ ret env, s.outcome = some (ret, env) → I (past ++ [s]) env)
    (hi : I before env) (ha : ∀ past s rest, steps = past ++ s :: rest → A (before ++ past) s) :
    ∀ past s rest, steps = past ++ s :: rest → P (before ++ past) s := by
  induction h generalizing before
  case stop | reading | closed => simp
  case last fuel _ _ _ _ _ hx _ =>
    intro past s rest he
    cases past
    case cons => simp at he
    case nil =>
      obtain ⟨rfl, _⟩ := cons.inj he
      have ha := ha [] _ [] rfl
      rw [append_nil] at ha ⊢
      exact (hs before _ hi ⟨fuel, hx⟩ ha).left
  case cons fuel _ _ _ _ steps _ _ hx _ ih =>
    have ha' := ha [] _ steps rfl
    rw [append_nil] at ha'
    have ⟨hp, hi⟩ := hs before _ hi ⟨fuel, hx⟩ ha'
    have ih := ih _ (hi _ _ rfl) fun past s rest he => by
      rw [append_assoc]
      exact ha (_ :: past) s rest (congrArg _ he)
    intro past s rest he
    cases past
    case nil =>
      obtain ⟨rfl, _⟩ := cons.inj he
      rwa [append_nil]
    case cons =>
      have ⟨hs, he⟩ := cons.inj he
      have hp := ih _ _ _ he
      rwa [append_assoc, singleton_append, hs] at hp

-- What every step establishes, given what the steps before it have preserved, holds of all steps of a session.
theorem invariant (h : Session env steps t o)
    (hs : ∀ past s, I past s.env → s.Observed → A past s →
      P past s ∧ ∀ ret env, s.outcome = some (ret, env) → I (past ++ [s]) env)
    (hi : I [] env) (ha : ∀ past s rest, steps = past ++ s :: rest → A past s) :
    ∀ past s rest, steps = past ++ s :: rest → P past s :=
  h.invariant_from [] hs hi ha

end Session

end Ftp

import HenPlugins.Ftp.Theorems.Log

open List Prog Monitor CString Number

namespace Ftp

-- The commands that transfer a file.
def fileCommands : List Bytes :=
  ["RETR", "STOR", "APPE"].map bytes

def pend (n : Option Int) (s : Step) : Option Int :=
  if s.name ∈ fileCommands then none
  else if s.name = bytes "REST" ∧ 350 ∈ s.codes then some (atol s.arg)
  else n

-- The offset of the REST that has been accepted since the previous transfer.
def pending (past : List Step) : Option Int :=
  past.foldl pend none

-- Where a transfer is to start.
def startOf (past : List Step) (s : Step) : Option Int :=
  (pending past).or (if s.name = bytes "APPE" then s.log.size else some 0)

-- No offset other than 0 is pending when a file is retrieved or when APPE is sent without an argument, and APPE with
-- an argument is not sent while the offset 0 is pending.
structure Consumes (past : List Step) (s : Step) : Prop where
  retr  : s.name = bytes "RETR" → (pending past).getD 0 = 0
  empty : s.name = bytes "APPE" → s.arg = [] → (pending past).getD 0 = 0
  appe  : s.name = bytes "APPE" → s.arg ≠ [] → pending past ≠ some 0

variable {env : Env} {past steps : List Step} {s : Step} {t : Trace Result} {p : Int}

theorem pending_append : pending (past ++ [s]) = pend (pending past) s := by
  simp [pending]

theorem Step.Observed.codes_rest (h : s.Observed) (hn : s.name = bytes "REST") : 350 ∈ s.codes ↔ s.arg ≠ [] := by
  have ⟨fuel, h⟩ := h
  rw [ftpExecute_of_find hn rfl, ftpCmdREST, ← Step.arg] at h
  split at h
  case isTrue ha =>
    have hc : s.codes = [501] := codes_reply h (by decide)
    exact iff_of_false (hc ▸ by decide) (not_not.mpr ha)
  case isFalse ha =>
    have hc : s.codes = [350] := codes_reply h (by decide)
    exact iff_of_true (hc ▸ by decide) ha

-- The state holds the pending offset.
def Holds (past : List Step) (env : Env) : Prop :=
  env.dataOffset = (pending past).getD 0

theorem Holds.append (h : Holds past s.env) (hn : s.name ∉ fileCommands) (hr : s.name ≠ bytes "REST")
    (he : env.dataOffset = s.env.dataOffset) : Holds (past ++ [s]) env := by
  have hp : pending (past ++ [s]) = pending past := by rw [pending_append, pend, if_neg hn, if_neg fun h => hr h.left]
  rw [Holds, hp, he, h]

theorem Holds.append_file (hn : s.name ∈ fileCommands) (he : env.dataOffset = 0) : Holds (past ++ [s]) env := by
  have hp : pending (past ++ [s]) = none := by rw [pending_append, pend, if_pos hn]
  rw [Holds, hp, he, Option.getD_none]

theorem Holds.step (h : Holds past s.env) (hs : s.Observed) (hc : Consumes past s) : s.Ends (Holds (past ++ [s])) := by
  intro ret env' ho
  cases hs.effect
  case retr hn _ he =>
    refine .append_file (hn ▸ by decide) ?_
    rw [he ret env' ho]
    exact h.trans (hc.retr hn)
  case stor hn _ he =>
    refine .append_file (hn ▸ by decide) ?_
    rw [he ret env' ho]
  case appe hn _ he =>
    refine .append_file (hn ▸ by decide) ?_
    rw [he ret env' ho]
    by_cases ha : s.arg = []
    case pos => exact (if_pos ha).trans (h.trans (hc.empty hn ha))
    case neg => exact if_neg ha
  case rest hn _ he =>
    have hf : s.name ∉ fileCommands := hn ▸ by decide
    have hr := hs.codes_rest hn
    rw [Holds, pending_append, pend, if_neg hf]
    by_cases ha : s.arg = []
    case pos =>
      rw [if_neg fun hc => hr.mp hc.right ha, he ret env' ho]
      exact (if_pos ha).trans h
    case neg =>
      rw [if_pos ⟨hn, hr.mpr ha⟩, he ret env' ho]
      exact if_neg ha
  case keeps hn _ he =>
    refine h.append (fun hf => hn ?_) (fun hr => hn (hr ▸ by decide)) (he ret env' ho).dataOffset
    exact Subset.trans (by decide : fileCommands ⊆ sessionCommands) (Subset.refl _) hf
  case list hn _ he | pasv hn _ _ he | port hn _ _ _ he | rnfr hn _ he | rnto hn _ he =>
    refine h.append (hn ▸ by decide) (hn ▸ by decide) ?_
    rw [he ret env' ho]

theorem Holds.starts (h : Holds past s.env) (hs : s.Observed) (hc : Consumes past s) (hp : p ∈ s.log.starts) :
    startOf past s = some p := by
  have hm {pos : Option Int} (hg : Opened s.env pos s.log) : pos = some p := by
    cases hg.starts
    case inl hn => simp [hn] at hp
    case inr hn => simpa [hn] using hp
  cases hs.effect
  case retr hn hg _ =>
    have hr := hc.retr hn
    have ha : s.name ≠ bytes "APPE" := hn ▸ by decide
    rw [startOf, if_neg ha]
    cases hq : pending past
    case none => exact hm hg
    case some n =>
      rw [hq, Option.getD_some] at hr
      exact congrArg some hr |>.trans (hm hg)
  case stor hn hg _ =>
    have ha : s.name ≠ bytes "APPE" := hn ▸ by decide
    rw [startOf, if_neg ha, ← hm hg, h]
    cases pending past
    case none => rfl
    case some => rfl
  case appe hn hg _ =>
    have ha : s.arg ≠ [] := by
      intro ha
      exact absurd (hm hg) (by simp [appendAt, ha])
    have hq := hm hg
    rw [appendAt, if_neg ha, h] at hq
    rw [startOf, if_pos hn]
    cases hr : pending past
    case none => exact (if_pos (hr ▸ rfl)).symm.trans hq
    case some n =>
      have hz : n ≠ 0 := fun hz => hc.appe hn ha (hz ▸ hr)
      rw [hr, Option.getD_some, if_neg hz] at hq
      exact hq
  case list hn hg _ => exact absurd (hm hg) nofun
  case pasv hg _ | port hg _ _ | rest hg _ => simp [hg] at hp
  case rnfr hg _ | rnto hg _ | keeps hg _ => simp [hg.starts] at hp

theorem holds_initEnv {activeFd : Int} : Holds [] (initEnv activeFd) :=
  rfl

-- In a session whose commands do not meet an offset that they do not consume, all transfers start where they are to
-- start.
theorem starts_of_consumes {activeFd : Int} {o : Option Env} (h : Session (initEnv activeFd) steps t o)
    (hc : ∀ past s rest, steps = past ++ s :: rest → Consumes past s) :
    ∀ past s rest, steps = past ++ s :: rest → ∀ p ∈ s.log.starts, startOf past s = some p :=
  h.invariant (I := Holds) (A := Consumes) (P := fun past s => ∀ p ∈ s.log.starts, startOf past s = some p)
    (fun _ _ hi hs hc => ⟨fun _ hp => hi.starts hs hc hp, hi.step hs hc⟩) holds_initEnv hc

def restSample (env : Env) : Step where
  env     := env
  line    := bytes "REST 2"
  trace   := [⟨.activeWrite 4 (bytes "350 REST OK\r\n"), (13 : Int)⟩]
  outcome := some (0, { env with dataOffset := 2 })

-- The file is to be written from its third byte on.

def storStep : Step where
  env     := { initEnv 4 with passiveFd := 6, dataOffset := 2 }
  line    := bytes "STOR /f"
  trace   := [⟨.open (bytes "/f") .creatWronly, (7 : Int)⟩, ⟨.lseekCur 7 2, (2 : Int)⟩,
    ⟨.activeWrite 4 (bytes "150 Opening data transfer\r\n"), (27 : Int)⟩, ⟨.accept 6, (8 : Int)⟩,
    ⟨.recv 8 readbufSize, chunk [65]⟩, ⟨.write 7 [65] 1, written 1⟩, ⟨.recv 8 readbufSize, chunk []⟩,
    ⟨.ftruncate 7 3, (0 : Int)⟩, ⟨.close 7, (0 : Int)⟩, ⟨.close 8, (0 : Int)⟩,
    ⟨.activeWrite 4 (bytes "226 Data transfer complete\r\n"), (28 : Int)⟩]
  outcome := some (0, { initEnv 4 with passiveFd := 6, dataFd := 8 })

def storSample : List Step :=
  [pasvSample (initEnv 4), restSample { initEnv 4 with passiveFd := 6 }, storStep]

theorem starts_of_consumes_sample :
    startOf [pasvSample (initEnv 4), restSample { initEnv 4 with passiveFd := 6 }] storStep = some 2 := by
  have ⟨_, _, h⟩ := @session_of_replays (initEnv 4) storSample 10 (by decide +kernel)
  have hc : ∀ past s rest, storSample = past ++ s :: rest → Consumes past s := by
    intro past s rest he
    rcases past with _ | ⟨a, _ | ⟨b, _ | ⟨c, past⟩⟩⟩
    all_goals simp [storSample] at he
    · obtain ⟨rfl, _⟩ := he
      exact ⟨by decide, by decide, by decide⟩
    · obtain ⟨rfl, rfl, _⟩ := he
      exact ⟨by decide, by decide, by decide⟩
    · obtain ⟨rfl, rfl, rfl, _⟩ := he
      exact ⟨by decide, by decide, by decide⟩
  exact starts_of_consumes h hc _ _ [] rfl 2 (by decide +kernel)

-- The file is to be read from its third byte on.

def retrStep : Step where
  env     := { initEnv 4 with passiveFd := 6, dataOffset := 2 }
  line    := bytes "RETR /f"
  trace   := [⟨.stat (bytes "/f"), some ⟨0o100644, 3, 0, 3⟩⟩, ⟨.open (bytes "/f") .rdonly, (7 : Int)⟩,
    ⟨.activeWrite 4 (bytes "150 Opening data transfer\r\n"), (27 : Int)⟩, ⟨.accept 6, (8 : Int)⟩,
    ⟨.read 7 pageSize, chunk [65, 66, 67]⟩, ⟨.dataWrite 8 [65, 66, 67], (3 : Int)⟩, ⟨.read 7 pageSize, chunk []⟩,
    ⟨.close 7, (0 : Int)⟩, ⟨.close 8, (0 : Int)⟩, ⟨.activeWrite 4 (bytes "226 Transfer completed\r\n"), (24 : Int)⟩]
  outcome := some (0, { initEnv 4 with passiveFd := 6, dataFd := 8, dataOffset := 2 })

def retrSample : List Step :=
  [pasvSample (initEnv 4), restSample { initEnv 4 with passiveFd := 6 }, retrStep]

theorem retrieve_ignores_rest : ¬∀ steps t o, Session (initEnv 4) steps t o →
    ∀ past s rest, steps = past ++ s :: rest → ∀ p ∈ s.log.starts, startOf past s = some p := by
  intro ha
  have ⟨t, o, h⟩ := @session_of_replays (initEnv 4) retrSample 10 (by decide +kernel)
  have hs := ha retrSample t o h [pasvSample (initEnv 4), restSample { initEnv 4 with passiveFd := 6 }] retrStep [] rfl 0
    (by decide +kernel)
  exact absurd hs (by decide +kernel)

end Ftp

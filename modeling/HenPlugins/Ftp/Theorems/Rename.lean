import HenPlugins.Ftp.Theorems.Log

open List Prog Monitor CString

namespace Ftp

namespace Step

-- The command names a path that is to be renamed.
def Names (s : Step) : Prop :=
  s.name = bytes "RNFR" ∧ s.arg ≠ []

end Step

-- A path may be renamed if the last command that has named a path has named this one and has been answered with
-- 350, and no path has been renamed since.
def Authorised (past : List Step) (p : Bytes) : Prop :=
  ∃ before r between, past = before ++ r :: between ∧ r.Names ∧ 350 ∈ r.codes ∧ p = ftpAbspath r.env r.arg ∧
    ∀ s ∈ between, s.log.renamed = [] ∧ ¬s.Names

-- Every path that is renamed has been authorised before.
def RenamesAuthorised (steps : List Step) : Prop :=
  ∀ past s rest, steps = past ++ s :: rest → ∀ p ∈ s.log.renamed, Authorised past p

-- What names a file while a command is executed is arbitrary, but `stat` finds nothing else.
def FindsPresent (present : List Step → Bytes → Prop) (steps : List Step) : Prop :=
  ∀ past s rest, steps = past ++ s :: rest → ∀ p, (∃ st : Stat, ⟨.stat p, some st⟩ ∈ s.trace) → present past p

variable {env : Env} {past steps : List Step} {s : Step} {p arg : Bytes} {t : Trace Result} {o : Option (Int × Env)}

-- Whether a path may be renamed after a command is decided by the command, or has been the case before it.
theorem Authorised.of_append (h : Authorised (past ++ [s]) p) :
    (s.Names ∧ p = ftpAbspath s.env s.arg) ∨ ¬s.Names ∧ Authorised past p := by
  have ⟨before, r, between, hp, hn, hc, hr, hb⟩ := h
  cases between using List.reverseRecOn
  case nil =>
    have ⟨_, hs⟩ := append_inj' hp rfl
    obtain ⟨rfl, _⟩ := cons.inj hs
    exact .inl ⟨hn, hr⟩
  case append_singleton between s' _ =>
    rw [← cons_append, ← append_assoc] at hp
    have ⟨hp', hs⟩ := append_inj' hp rfl
    obtain ⟨rfl, _⟩ := cons.inj hs
    exact .inr ⟨(hb s (by simp)).right, before, r, between, hp', hn, hc, hr, fun s' hs' => hb s' (by simp [hs'])⟩

-- The path that may be renamed is the one that is stored.
def Remembered (past : List Step) (env : Env) : Prop :=
  ∀ p, Authorised past p → env.renamePath = p

theorem remembered_nil : Remembered [] env := by
  intro p ⟨before, r, between, hp, _⟩
  simp at hp

theorem Remembered.append_of_not_names {env' : Env} (h : Remembered past s.env) (hn : s.name ≠ bytes "RNFR")
    (he : env'.renamePath = s.env.renamePath) : Remembered (past ++ [s]) env' := by
  intro p hp
  cases hp.of_append
  case inl hp => exact absurd hp.left.left hn
  case inr hp => exact he.trans (h p hp.right)

theorem Remembered.step (h : Remembered past s.env) (hs : s.Observed) : s.Ends (Remembered (past ++ [s])) := by
  intro ret env' ho
  cases hs.effect
  case rnfr hn _ he =>
    intro p hp
    rw [he ret env' ho]
    cases hp.of_append
    case inl hp => exact (if_neg hp.left.right).trans hp.right.symm
    case inr hp =>
      have ha : s.arg = [] := not_not.mp fun ha => hp.left ⟨hn, ha⟩
      exact (if_pos ha).trans (h p hp.right)
  case keeps hn _ he => exact h.append_of_not_names (fun hr => hn (hr ▸ by decide)) (he ret env' ho).renamePath
  case appe hn _ he | list hn _ he | pasv hn _ _ he | port hn _ _ _ he | rest hn _ he | retr hn _ he | rnto hn _ he
      | stor hn _ he =>
    refine h.append_of_not_names (hn ▸ by decide) ?_
    rw [he ret env' ho]

-- Nothing is renamed unless the stored path names a file.
theorem stat_of_renamed (h : (ftpCmdRNTO env arg).Observed t o) (ha : arg ≠ []) (hr : (log.after {} t).renamed ≠ []) :
    ∃ st : Stat, ⟨.stat env.renamePath, some st⟩ ∈ t := by
  rw [ftpCmdRNTO, if_neg ha] at h
  obtain ⟨st, t₁, rfl, h₁⟩ := observed_call h
  rcases st with _ | st
  case none =>
    have hp := @leaves_perror (·.renamed = []) (fun _ => True) {} env rfl trivial
    exact absurd (wp_sound hp h₁ log_allowed).right.left hr
  case some => exact ⟨st, mem_cons_self⟩

theorem Step.Observed.renamed (h : s.Observed) (hp : p ∈ s.log.renamed) :
    s.name = bytes "RNTO" ∧ s.arg ≠ [] ∧ p = s.env.renamePath := by
  cases h.effect
  case rnto hn hg _ =>
    cases hg.renamed
    case inl hr => simp [hr] at hp
    case inr hr => exact ⟨hn, hr.left, by simpa [hr.right] using hp⟩
  case pasv hg _ | port hg _ _ | rest hg _ => simp [hg] at hp
  case appe hg _ | list hg _ | retr hg _ | stor hg _ | rnfr hg _ | keeps hg _ => simp [hg.renamed] at hp

-- What a session renames is authorised if no new name is sent for a file that is there while nothing is authorised.
theorem renamed_authorised {activeFd : Int} {t : Trace Result} {o : Option Env} {present : List Step → Bytes → Prop}
    (h : Session (initEnv activeFd) steps t o) (hf : FindsPresent present steps)
    (hc : ∀ past s rest, steps = past ++ s :: rest → s.name = bytes "RNTO" → s.arg ≠ [] →
      (∃ p, Authorised past p) ∨ ¬present past s.env.renamePath) : RenamesAuthorised steps := by
  have hi := h.invariant (I := Remembered) (A := fun _ _ => True) (P := fun past s => Remembered past s.env ∧ s.Observed)
    (fun past s hi hs _ => ⟨⟨hi, hs⟩, hi.step hs⟩) remembered_nil fun _ _ _ _ => trivial
  intro past s rest he p hp
  have ⟨hs, ho⟩ := hi past s rest he
  have ⟨hn, ha, hr⟩ := ho.renamed hp
  cases hc past s rest he hn ha
  case inl hp' =>
    have ⟨p', hp'⟩ := hp'
    rw [hr, hs p' hp']
    exact hp'
  case inr hp' =>
    have ⟨fuel, ho⟩ := ho
    rw [ftpExecute_of_find hn rfl] at ho
    exact absurd (hf past s rest he _ (stat_of_renamed ho ha (ne_nil_of_mem hp))) hp'

-- The file is renamed once, and it is not there any more for the second request.
def renamesSample : List Step :=
  let env : Env := { initEnv 4 with renamePath := bytes "/a" }
  let st : Stat := ⟨0o100644, 3, 0, 3⟩
  [{
    env     := initEnv 4
    line    := bytes "RNFR /a"
    trace   := [⟨.stat (bytes "/a"), some st⟩, ⟨.activeWrite 4 (bytes "350 Awaiting new name\r\n"), (23 : Int)⟩]
    outcome := some (0, env) }, {
    env     := env
    line    := bytes "RNTO /b"
    trace   := [⟨.stat (bytes "/a"), some st⟩, ⟨.rename (bytes "/a") (bytes "/b"), (0 : Int)⟩,
      ⟨.activeWrite 4 (bytes "226 Path renamed\r\n"), (18 : Int)⟩]
    outcome := some (0, env) }, {
    env     := env
    line    := bytes "RNTO /c"
    trace   := [⟨.stat (bytes "/a"), (none : Option Stat)⟩, ⟨.strerrorR, some (bytes "No such file or directory")⟩,
      ⟨.activeWrite 4 (bytes "550 No such file or directory\r\n"), (31 : Int)⟩]
    outcome := some (0, env) }]

theorem renamed_authorised_sample : RenamesAuthorised renamesSample := by
  have ⟨_, _, h⟩ := @session_of_replays (initEnv 4) renamesSample 10 (by decide +kernel)
  have hf : FindsPresent (fun past _ => past.length < 2) renamesSample := by
    intro past s rest he p ⟨st, hst⟩
    rcases past with _ | ⟨a, _ | ⟨b, _ | ⟨c, past⟩⟩⟩
    all_goals simp [renamesSample] at he
    · decide
    · exact Nat.one_lt_two
    · obtain ⟨rfl, rfl, rfl, _⟩ := he
      simp at hst
  refine renamed_authorised h hf ?_
  intro past s rest he hn _
  rcases past with _ | ⟨a, _ | ⟨b, _ | ⟨c, past⟩⟩⟩
  all_goals simp [renamesSample] at he
  · obtain ⟨rfl, _⟩ := he
    exact absurd hn (by decide)
  · obtain ⟨rfl, rfl, _⟩ := he
    exact .inl ⟨bytes "/a", [], _, [], rfl, ⟨by decide, by decide⟩, by decide, by decide, by simp⟩
  · exact .inr (lt_irrefl 2)

-- The file does not exist when it is named, but when it is renamed.
def renameSample : List Step :=
  let env : Env := { initEnv 4 with renamePath := bytes "/a" }
  let st : Stat := ⟨0o100644, 3, 0, 3⟩
  [{
    env     := initEnv 4
    line    := bytes "RNFR /a"
    trace   := [⟨.stat (bytes "/a"), (none : Option Stat)⟩, ⟨.strerrorR, some (bytes "No such file or directory")⟩,
      ⟨.activeWrite 4 (bytes "550 No such file or directory\r\n"), (31 : Int)⟩]
    outcome := some (0, env) }, {
    env     := env
    line    := bytes "RNTO /b"
    trace   := [⟨.stat (bytes "/a"), some st⟩, ⟨.rename (bytes "/a") (bytes "/b"), (0 : Int)⟩,
      ⟨.activeWrite 4 (bytes "226 Path renamed\r\n"), (18 : Int)⟩]
    outcome := some (0, env) }]

theorem renamed_not_authorised : ¬∀ steps t o, Session (initEnv 4) steps t o → RenamesAuthorised steps := by
  intro ha
  have ⟨t, o, h⟩ := @session_of_replays (initEnv 4) renameSample 10 (by decide +kernel)
  have ⟨before, r, between, hp, _, hc, _⟩ := ha _ t o h [renameSample[0]] renameSample[1] [] rfl (bytes "/a") (by decide)
  have hr : r ∈ [renameSample[0]] := hp ▸ by simp
  obtain rfl := mem_singleton.mp hr
  exact absurd hc (by decide)

end Ftp

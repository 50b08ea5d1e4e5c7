import HenPlugins.Library.PathName
import HenPlugins.Ftp.Theorems.Log

open List Prog CString PathName

namespace Ftp

variable {env : Env} {s : Step} {steps : List Step} {t : Trace Result} {o : Option Env} {p text last arg line : Bytes}
  {n fuel : Nat} {R : Env → Prop}

-- The directory of a session is given by an absolute path.
def Env.Absolute (env : Env) : Prop :=
  PathName.Absolute env.cwd.text

section Absolute

theorem absolute_take (h : Absolute text) (hn : 0 < n) : Absolute (text.take n) := by
  rw [Absolute, head?_take, if_neg (Nat.ne_of_gt hn)]
  exact h

theorem absolute_strncpy (h : Absolute text) : Absolute (Buf.strncpy text : Buf pathMax).text := by
  refine absolute_take ?_ (by decide)
  cases text
  case nil         => exact h
  case cons c text =>
    obtain rfl : c = slash := Option.some.inj h
    rfl

theorem absolute_ftpAbspath (h : env.Absolute) : Absolute (ftpAbspath env arg) := by
  rw [ftpAbspath]
  split
  case isTrue =>
    refine absolute_take ?_ (by decide)
    rw [Absolute, head?_append, h]
    rfl
  case isFalse ha => exact absolute_take (not_not.mp ha) (by decide)

end Absolute

section Parent

-- The directory that CDUP changes to.
def parentCwd (env : Env) : Buf pathMax :=
  let pos := lastSlash (-1) 0 env.cwd.text
  if pos ≤ 0 then .strncpy [slash] else .strncpy (env.cwd.text.take pos.toNat)

theorem lastSlash_of_not_mem {pos : Int} {i : Nat} (h : slash ∉ text) : lastSlash pos i text = pos := by
  induction text generalizing i
  case nil            => rfl
  case cons c text hi =>
    rw [mem_cons, not_or] at h
    rw [lastSlash, if_neg (Ne.symm h.left), hi h.right]

theorem lastSlash_append {pos : Int} {i : Nat} (h : slash ∉ last) :
    lastSlash pos i (p ++ slash :: last) = i + p.length := by
  induction p generalizing pos i
  case nil         => simp [lastSlash, lastSlash_of_not_mem h]
  case cons c p hi =>
    rw [cons_append, lastSlash, hi, length_cons]
    omega

theorem exists_last_slash (h : slash ∈ text) : ∃ p last, text = p ++ slash :: last ∧ slash ∉ last := by
  have ⟨l, p, hr, hl⟩ := eq_append_cons_of_mem (mem_reverse.mpr h)
  refine ⟨p.reverse, l.reverse, ?_, by rwa [mem_reverse]⟩
  have ht := congrArg reverse hr
  rwa [reverse_reverse, reverse_append, reverse_cons, append_assoc, singleton_append] at ht

-- What is in front of the last slash is left.
theorem parentCwd_text (ht : env.cwd.text = p ++ slash :: last) (hl : slash ∉ last) :
    (parentCwd env).text = if p = [] then [slash] else p := by
  have hf := env.cwd.fits
  have hz := env.cwd.terminated
  rw [ht, length_append] at hf
  rw [ht, mem_append, not_or] at hz
  simp only [parentCwd, ht, lastSlash_append hl]
  cases p
  case nil        => rfl
  case cons c p =>
    have hp : ¬((0 : Nat) + ((c :: p).length : Int) ≤ 0) := by
      rw [length_cons]
      omega
    have hn : ((0 : Nat) + ((c :: p).length : Int)).toNat = (c :: p).length := by omega
    rw [if_neg hp, if_neg (cons_ne_nil c p), hn, take_left' rfl]
    exact Buf.strncpy_text (by omega) hz.left

theorem absolute_parentCwd (h : env.Absolute) : Absolute (parentCwd env).text := by
  have ⟨p, last, ht, hl⟩ := exists_last_slash (mem_of_mem_head? h)
  rw [parentCwd_text ht hl]
  split
  case isTrue     => rfl
  case isFalse hp =>
    rw [Env.Absolute, Absolute, ht, head?_append_of_ne_nil _ hp] at h
    exact h

-- A path that ends with a slash is only shortened by it.
theorem components_parentCwd (h : env.Absolute) (hd : env.cwd.text.getLast? ≠ some slash) :
    components (parentCwd env).text = (components env.cwd.text).dropLast := by
  have ⟨p, last, ht, hl⟩ := exists_last_slash (mem_of_mem_head? h)
  have hn : last ≠ [] := by
    rintro rfl
    simp [ht] at hd
  rw [parentCwd_text ht hl, ht, components_append_slash, components_of_not_mem hl hn, dropLast_concat]
  split
  case isTrue hp => rw [hp, components_slash]
  case isFalse   => rfl

theorem components_parentCwd_of_slash (h : env.Absolute) (hd : env.cwd.text.getLast? = some slash) :
    components (parentCwd env).text = components env.cwd.text := by
  have ⟨p, last, ht, hl⟩ := exists_last_slash (mem_of_mem_head? h)
  have hn : last = [] := by
    by_contra hn
    rw [ht, append_cons, getLast?_append, getLast?_eq_some_getLast hn, Option.some_or] at hd
    exact hl (Option.some.inj hd ▸ getLast_mem hn)
  rw [parentCwd_text ht hl, ht, hn, components_concat_slash]
  split
  case isTrue hp => rw [hp, components_slash]
  case isFalse   => rfl

end Parent

section Session

-- What holds of the state if it holds whatever a command that concerns no files sets.
structure Survives (env : Env) (arg : Bytes) (R : Env → Prop) : Prop where
  refl : R env
  cdup : R { env with cwd := parentCwd env }
  cwd  : R { env with cwd := .strncpy (ftpAbspath env arg) }
  type : ∀ type, R { env with type := type }

theorem endsIn_command (h : Survives env arg R) :
    ∀ c ∈ commands, c.fst ∉ sessionCommands → EndsIn R (c.snd fuel env arg) := by
  have hr {text : Bytes} : EndsIn R (reply env text) := endsIn_reply h.refl
  have hp {usage done : String} {c : Bytes → Proc Int} (hc : ∀ p, (c p).wp (within Plain) (fun _ _ => True) ()) :
      EndsIn R (pathCmd usage done c env arg) := endsIn_pathCmd hc h.refl
  have hs {name : String} {p : Proc (Int × Env)} (hm : bytes name ∈ sessionCommands) :
      bytes name ∉ sessionCommands → EndsIn R p := fun hn => absurd hm hn
  simp only [commands, forall_mem_cons, not_mem_nil, false_implies, implies_true, and_true]
  exact ⟨hs (by decide), fun _ => endsIn_reply h.cdup, fun _ => endsIn_ftpCmdCWD h.refl h.cwd,
    fun _ => hp fun _ => ⟨trivial, fun _ _ => trivial⟩, hs (by decide),
    fun _ => hp fun _ => ⟨trivial, fun _ _ => trivial⟩, fun _ => hr, hs (by decide), hs (by decide), fun _ => hr,
    fun _ => endsIn_ftpCmdQUIT h.refl, hs (by decide), hs (by decide),
    fun _ => hp fun _ => ⟨trivial, fun _ _ => trivial⟩, hs (by decide), hs (by decide),
    fun _ => endsIn_ftpCmdSIZE h.refl, hs (by decide), fun _ => hr, fun _ => endsIn_ftpCmdTYPE h.type, fun _ => hr,
    fun _ => endsIn_ftpCmdKILL, fun _ => hr, fun _ => endsIn_ftpCmdCHMOD h.refl,
    fun _ => endsIn_ftpCmdCWD h.refl h.cwd, fun _ => hp fun _ => ⟨trivial, fun _ _ => trivial⟩, fun _ => hr,
    fun _ => hp fun _ => ⟨trivial, fun _ _ => trivial⟩, fun _ => hr, fun _ => hr, fun _ => hr, fun _ => hr⟩

theorem endsIn_ftpExecute (h : Survives env (splitLine line).snd R) (hn : (splitLine line).fst ∉ sessionCommands) :
    EndsIn R (ftpExecute fuel env line) := by
  obtain ⟨c, hc, he, hx⟩ | ⟨_, hx⟩ := @ftpExecute_eq env fuel line
  case inl => exact hx ▸ endsIn_command h c hc (he ▸ hn)
  case inr => exact hx ▸ endsIn_reply h.refl

theorem Step.Observed.absolute (h : s.Observed) (ha : s.env.Absolute) : s.Ends Env.Absolute := by
  intro ret env' ho
  cases h.effect
  case keeps hn _ _ =>
    have ⟨fuel, h⟩ := h
    have hs : Survives s.env s.arg Env.Absolute :=
      ⟨ha, absolute_parentCwd ha, absolute_strncpy (absolute_ftpAbspath ha), fun _ => ha⟩
    exact (wp_sound (endsIn_ftpExecute hs hn) h (Monitor.allowed_of_forall fun _ _ => trivial)).right ret env' ho
  case appe he | list he | pasv he | port he | rest he | retr he | rnfr he | rnto he | stor he =>
    rw [he ret env' ho]
    exact ha

-- The directory stays absolute in every session.
theorem Session.absolute {activeFd : Int} (h : Session (initEnv activeFd) steps t o) :
    ∀ past s rest, steps = past ++ s :: rest → s.env.Absolute ∧ s.Observed :=
  h.invariant (I := fun _ env => env.Absolute) (A := fun _ _ => True) (P := fun _ s => s.env.Absolute ∧ s.Observed)
    (fun _ _ hi hs _ => ⟨⟨hi, hs⟩, hs.absolute hi⟩) rfl fun _ _ _ _ => trivial

end Session

section Parents

-- The new path is absolute and names the parent of the directory that the old one names. The root is its own parent.
def GoesToParent (s : Step) : Prop :=
  ∃ ret env', s.outcome = some (ret, env') ∧ env'.Absolute ∧
    lexical (components env'.cwd.text) = (lexical (components s.env.cwd.text)).dropLast

-- The argument is the path of a directory.
def Enters (s : Step) : Prop :=
  ∃ st, s.trace.head? = some ⟨.stat (ftpAbspath s.env s.arg), some st⟩ ∧ isDir st.mode

-- Where CWD leads to.
def target (s : Step) : List Bytes :=
  lexical (components (Buf.strncpy (ftpAbspath s.env s.arg) : Buf pathMax).text)

-- XCUP is CWD under another name.
structure Climbs (s : Step) : Prop where
  cdup : s.name = bytes "CDUP" → s.env.cwd.text.getLast? = some slash → components s.env.cwd.text = []
  xcup : s.name = bytes "XCUP" → Enters s → target s = (components s.env.cwd.text).dropLast
  root : s.name = bytes "XCUP" → ¬Enters s → components s.env.cwd.text = []

theorem observed_reply {o : Option (Int × Env)} (h : (reply env text).Observed t o) : ∃ ret, o = some (ret, env) := by
  obtain ⟨n, t', rfl, h'⟩ := observed_call h
  cases h'
  exact ⟨_, rfl⟩

theorem observed_perror {o : Option (Int × Env)} (h : (perror env).Observed t o) : ∃ ret, o = some (ret, env) := by
  obtain ⟨b, t', rfl, h'⟩ := observed_call h
  obtain ⟨n, t'', rfl, h''⟩ := observed_call h'
  cases h''
  exact ⟨_, rfl⟩

theorem Step.Observed.cdup (h : s.Observed) (hn : s.name = bytes "CDUP") :
    ∃ ret, s.outcome = some (ret, { s.env with cwd := parentCwd s.env }) := by
  have ⟨fuel, h⟩ := h
  rw [ftpExecute_of_find hn rfl] at h
  exact observed_reply h

theorem enters_iff {e : Event Result} (ht : s.trace = e :: t) :
    Enters s ↔ ∃ st, e = ⟨.stat (ftpAbspath s.env s.arg), some st⟩ ∧ isDir st.mode := by
  simp only [Enters, ht, head?_cons, Option.some.injEq]

theorem Step.Observed.xcup (h : s.Observed) (hn : s.name = bytes "XCUP") : ∃ ret env', s.outcome = some (ret, env') ∧
    (Enters s ∧ env'.cwd = .strncpy (ftpAbspath s.env s.arg) ∨ ¬Enters s ∧ env'.cwd = s.env.cwd) := by
  have ⟨fuel, h⟩ := h
  rw [ftpExecute_of_find hn rfl, ← Step.arg, ftpCmdCWD] at h
  split at h
  case isTrue ha =>
    have ⟨ret, ho⟩ := observed_reply h
    refine ⟨ret, s.env, ho, .inr ⟨?_, rfl⟩⟩
    obtain ⟨n, t', ht, _⟩ := observed_call h
    rw [enters_iff ht]
    rintro ⟨_, ⟨⟩, _⟩
  case isFalse ha =>
    obtain ⟨st, t', ht, h⟩ := observed_call h
    cases st
    case none =>
      have ⟨ret, ho⟩ := observed_perror h
      refine ⟨ret, s.env, ho, .inr ⟨?_, rfl⟩⟩
      rw [enters_iff ht]
      rintro ⟨_, ⟨⟩, _⟩
    case some st =>
      dsimp only at h
      split at h
      case isTrue hd =>
        have ⟨ret, ho⟩ := observed_reply h
        refine ⟨ret, s.env, ho, .inr ⟨?_, rfl⟩⟩
        rw [enters_iff ht]
        rintro ⟨_, ⟨⟩, hd'⟩
        exact hd hd'
      case isFalse hd =>
        have ⟨ret, ho⟩ := observed_reply h
        exact ⟨ret, _, ho, .inl ⟨(enters_iff ht).mpr ⟨st, rfl, not_not.mp hd⟩, rfl⟩⟩

theorem dropLast_eq_self_iff {α : Type} {l : List α} : l = l.dropLast ↔ l = [] := by
  refine ⟨fun h => ?_, fun h => h ▸ rfl⟩
  have hl := congrArg length h
  rw [length_dropLast] at hl
  exact length_eq_zero_iff.mp (by omega)

theorem goesToParent_iff_of_outcome {ret : Int} {env' : Env} (ho : s.outcome = some (ret, env'))
    (hp : PathName.Plain (components s.env.cwd.text)) : GoesToParent s ↔
      env'.Absolute ∧ lexical (components env'.cwd.text) = (components s.env.cwd.text).dropLast := by
  rw [GoesToParent, lexical_of_plain hp]
  constructor
  case mp =>
    rintro ⟨_, _, ho', ha, hg⟩
    obtain ⟨rfl, rfl⟩ := Prod.mk.inj (Option.some.inj (ho.symm.trans ho'))
    exact ⟨ha, hg⟩
  case mpr => exact fun ⟨ha, hg⟩ => ⟨ret, env', ho, ha, hg⟩

theorem Step.Observed.parent_iff_of_cdup (h : s.Observed) (ha : s.env.Absolute) (hn : s.name = bytes "CDUP")
    (hp : PathName.Plain (components s.env.cwd.text)) :
    GoesToParent s ↔ (s.env.cwd.text.getLast? = some slash → components s.env.cwd.text = []) := by
  have ⟨ret, ho⟩ := h.cdup hn
  rw [goesToParent_iff_of_outcome ho hp, Env.Absolute, and_iff_right (absolute_parentCwd ha)]
  by_cases hd : s.env.cwd.text.getLast? = some slash
  case pos => rw [components_parentCwd_of_slash ha hd, lexical_of_plain hp, dropLast_eq_self_iff, imp_iff_right hd]
  case neg =>
    rw [components_parentCwd ha hd, lexical_of_plain hp.dropLast]
    exact iff_of_true rfl fun hd' => absurd hd' hd

theorem Step.Observed.parent_iff_of_xcup (h : s.Observed) (ha : s.env.Absolute) (hn : s.name = bytes "XCUP")
    (hp : PathName.Plain (components s.env.cwd.text)) : GoesToParent s ↔
      (Enters s → target s = (components s.env.cwd.text).dropLast) ∧ (¬Enters s → components s.env.cwd.text = []) := by
  have ⟨ret, env', ho, hx⟩ := h.xcup hn
  rw [goesToParent_iff_of_outcome ho hp, Env.Absolute]
  obtain ⟨he, hc⟩ | ⟨he, hc⟩ := hx
  case inl =>
    rw [hc, and_iff_right (absolute_strncpy (absolute_ftpAbspath ha)), imp_iff_right he, ← target]
    exact (and_iff_left fun he' => absurd he he').symm
  case inr =>
    rw [hc, ← Env.Absolute, and_iff_right ha, lexical_of_plain hp, dropLast_eq_self_iff, imp_iff_right he]
    exact (and_iff_right fun he' => absurd he' he).symm

theorem Step.Observed.parent_iff (h : s.Observed) (ha : s.env.Absolute)
    (hn : s.name = bytes "CDUP" ∨ s.name = bytes "XCUP") (hp : PathName.Plain (components s.env.cwd.text)) :
    GoesToParent s ↔ Climbs s := by
  have hne : bytes "CDUP" ≠ bytes "XCUP" := by decide
  obtain hn | hn := hn
  case inl =>
    have hx : s.name ≠ bytes "XCUP" := fun hx => hne (hn.symm.trans hx)
    rw [h.parent_iff_of_cdup ha hn hp]
    exact ⟨fun hc => ⟨fun _ => hc, fun hn' => absurd hn' hx, fun hn' => absurd hn' hx⟩, fun hc => hc.cdup hn⟩
  case inr =>
    have hd : s.name ≠ bytes "CDUP" := fun hd => hne (hd.symm.trans hn)
    rw [h.parent_iff_of_xcup ha hn hp]
    exact ⟨fun hc => ⟨fun hn' => absurd hn' hd, fun _ => hc.left, fun _ => hc.right⟩,
      fun hc => ⟨hc.xcup hn, hc.root hn⟩⟩

end Parents

-- CDUP only drops the last slash of a path that ends with one, and XCUP goes wherever its argument says.
theorem goesToParent_iff {activeFd : Int} (h : Session (initEnv activeFd) steps t o) :
    ∀ past s rest, steps = past ++ s :: rest → s.name = bytes "CDUP" ∨ s.name = bytes "XCUP" →
      PathName.Plain (components s.env.cwd.text) → (GoesToParent s ↔ Climbs s) :=
  fun past s rest hs hn hp => (h.absolute past s rest hs).right.parent_iff (h.absolute past s rest hs).left hn hp

def inDir (path : Bytes) : Env :=
  { initEnv 4 with cwd := .strncpy path }

def cwdStep (path : Bytes) : Step where
  env     := initEnv 4
  line    := bytes "CWD " ++ path
  trace   := [⟨.stat path, some ⟨0o040755, 0, 0, 0⟩⟩, ⟨.activeWrite 4 (bytes "250 OK\r\n"), (8 : Int)⟩]
  outcome := some (0, inDir path)

def cdupStep (path parent : Bytes) : Step where
  env     := inDir path
  line    := bytes "CDUP"
  trace   := [⟨.activeWrite 4 (bytes "250 OK\r\n"), (8 : Int)⟩]
  outcome := some (0, inDir parent)

def xcupStep (path : Bytes) : Step where
  env     := inDir path
  line    := bytes "XCUP"
  trace   := [⟨.activeWrite 4 (bytes "501 Usage: CWD <PATH>\r\n"), (23 : Int)⟩]
  outcome := some (0, inDir path)

theorem goesToParent_sample : GoesToParent (cdupStep (bytes "/a//b") (bytes "/a/")) := by
  have ⟨_, _, h⟩ := @session_of_replays (initEnv 4) [cwdStep (bytes "/a//b"), cdupStep (bytes "/a//b") (bytes "/a/")] 10
    (by decide +kernel)
  have hc : Climbs (cdupStep (bytes "/a//b") (bytes "/a/")) := by
    have hn : (cdupStep (bytes "/a//b") (bytes "/a/")).name ≠ bytes "XCUP" := by decide
    exact ⟨fun _ hd => absurd hd (by decide), fun hx => absurd hx hn, fun hx => absurd hx hn⟩
  exact (goesToParent_iff h [cwdStep (bytes "/a//b")] _ [] rfl (.inl (by decide)) (by decide)).mpr hc

-- A directory that has been entered with a slash at the end of its path is left for itself, and XCUP does nothing
-- without an argument.
theorem goesToParent_fails :
    (¬∀ steps t o, Session (initEnv 4) steps t o → ∀ past s rest, steps = past ++ s :: rest → s.name = bytes "CDUP" →
      PathName.Plain (components s.env.cwd.text) → GoesToParent s) ∧
    ¬∀ steps t o, Session (initEnv 4) steps t o → ∀ past s rest, steps = past ++ s :: rest → s.name = bytes "XCUP" →
      PathName.Plain (components s.env.cwd.text) → GoesToParent s := by
  constructor
  case left =>
    intro ha
    have ⟨t, o, h⟩ := @session_of_replays (initEnv 4) [cwdStep (bytes "/a/"), cdupStep (bytes "/a/") (bytes "/a")] 10
      (by decide +kernel)
    have ⟨ret, env', ho, _, hg⟩ := ha _ t o h [cwdStep (bytes "/a/")] _ [] rfl (by decide) (by decide)
    cases ho
    exact absurd hg (by decide)
  case right =>
    intro ha
    have ⟨t, o, h⟩ := @session_of_replays (initEnv 4) [cwdStep (bytes "/a"), xcupStep (bytes "/a")] 10 (by decide +kernel)
    have ⟨ret, env', ho, _, hg⟩ := ha _ t o h [cwdStep (bytes "/a")] _ [] rfl (by decide) (by decide)
    cases ho
    exact absurd hg (by decide)

end Ftp

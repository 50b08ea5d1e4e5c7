import HenPlugins.Ftp.Theorems.Session

open List Prog Monitor CString

namespace Ftp

-- Whether the descriptor of the data connection has been used for one. There is none to be closed if it is absent.
inductive Use
  | absent
  | unused
  | used
deriving DecidableEq

-- What a session has opened and not closed, the use of the descriptor of its data connection, and whether a socket
-- that is created now is to listen: PASV asks for the address of the control connection before.
structure Held where
  fds       : List Int
  dirs      : List Nat := []
  data      : Use      := .absent
  listening : Bool     := false

namespace Held

def add (fd : Int) (fds : List Int) : List Int :=
  if fd < 0 then fds else fd :: fds

def next (activeFd : Int) (g : Held) : Event Result → Held
  | ⟨.getsockname fd, addr⟩  => { g with listening := fd = activeFd && addr.isSome }
  | ⟨.socket, fd⟩            =>
    { g with
      fds       := add fd g.fds
      data      := if g.listening then g.data else if fd < (0 : Int) then .absent else .unused
      listening := false }
  | ⟨.accept _, fd⟩          => { g with fds := add fd g.fds, data := if fd ≤ (0 : Int) then .absent else .used }
  | ⟨.connect .., r⟩         => if r = (0 : Int) then { g with data := .used } else g
  | ⟨.open .., fd⟩           => { g with fds := add fd g.fds }
  | ⟨.opendir _, some dir⟩   => { g with dirs := dir :: g.dirs }
  | ⟨.close fd, _⟩           => { g with fds := g.fds.erase fd }
  | ⟨.closedir dir, _⟩       => { g with dirs := g.dirs.erase dir }
  | _                        => g

-- What is opened is not open.
def Fresh (g : Held) : Event Result → Prop
  | ⟨.socket, fd⟩ | ⟨.accept _, fd⟩ | ⟨.open .., fd⟩ => fd ∉ g.fds
  | ⟨.opendir _, some dir⟩                           => dir ∉ g.dirs
  | _                                                => True

-- What is closed is open.
def Owns (g : Held) : Call → Prop
  | .close fd     => fd ∈ g.fds
  | .closedir dir => dir ∈ g.dirs
  | _             => True

-- The outcomes of calls under which nothing is lost or closed again.
def Careful (activeFd : Int) (g : Held) : Event Result → Prop
  | ⟨.getsockname fd, addr⟩ => fd = activeFd ∨ addr ≠ none
  | ⟨.bind .., r⟩           => r = (0 : Int)
  | ⟨.listen .., r⟩         => r = (0 : Int)
  | ⟨.socket, fd⟩           => fd ≠ (0 : Int) ∧ (g.listening ∨ g.data ≠ .unused)
  | ⟨.accept _, fd⟩         => g.data ≠ .unused ∧ (g.dirs = [] ∨ (0 : Int) ≤ fd)
  | ⟨.connect .., r⟩        => (r = (0 : Int) → g.data = .unused) ∧ (g.dirs = [] ∨ r = (0 : Int))
  | _                       => True

end Held

variable {activeFd : Int}

-- The system gives out new descriptors, and a session closes its own ones.
def ledger (activeFd : Int) : Monitor Result Held where
  next    := Held.next activeFd
  Allows  := Held.Fresh
  Demands := Held.Owns

def careful (activeFd : Int) : Monitor Result Held where
  next   := Held.next activeFd
  Allows := Held.Careful activeFd

instance {g : Held} {e : Event Result} : Decidable ((ledger activeFd).Allows g e) := by
  unfold ledger Held.Fresh
  dsimp only
  split <;> infer_instance

instance {g : Held} {c : Call} : Decidable ((ledger activeFd).Demands g c) := by
  unfold ledger Held.Owns
  dsimp only
  split <;> infer_instance

instance {g : Held} {e : Event Result} : Decidable ((careful activeFd).Allows g e) := by
  unfold careful Held.Careful
  dsimp only
  split <;> infer_instance

-- Both at once.
def carefully (activeFd : Int) : Monitor Result Held where
  next    := Held.next activeFd
  Allows  := fun g e => g.Fresh e ∧ g.Careful activeFd e
  Demands := Held.Owns

-- The descriptors of a client that are to be closed at the end of the session.
def Env.owned (env : Env) (data : Use) : List Int :=
  env.activeFd :: ((if 0 < env.passiveFd then [env.passiveFd] else []) ++ if data = .unused then [env.dataFd] else [])

-- A session holds what its state says and some more descriptors and directories.
structure Holding (activeFd : Int) (env : Env) (fds : List Int) (dirs : List Nat) (g : Held) : Prop where
  active    : env.activeFd = activeFd
  perm      : g.fds.Perm (fds ++ env.owned g.data)
  nodup     : g.fds.Nodup
  dirs      : g.dirs = dirs
  listening : g.listening = false
  absent    : g.data = .absent → env.dataFd ≤ 0
  unused    : g.data = .unused → 0 < env.dataFd

variable {α : Type} {fd : Int} {env env' : Env} {fds : List Int} {dirs : List Nat} {g : Held} {text arg : Bytes} {fuel : Nat}
variable {o : Option (Int × Env)}

-- What a command leaves behind.
def Leftover (activeFd : Int) (o : Option (Int × Env)) (g : Held) : Prop :=
  ∀ ret env, o = some (ret, env) → Holding activeFd env [] [] g

theorem carefully_reply (h : Holding activeFd env [] [] g) : (reply env text).wp (carefully activeFd) (Leftover activeFd) g := by
  refine ⟨trivial, fun n _ => ?_⟩
  rintro ret env' ⟨⟩
  exact h

theorem carefully_perror (h : Holding activeFd env [] [] g) : (perror env).wp (carefully activeFd) (Leftover activeFd) g := by
  refine ⟨trivial, fun buf _ => ⟨trivial, fun n _ => ?_⟩⟩
  rintro ret env' ⟨⟩
  exact h

-- A descriptor is closed.
theorem Holding.close {r : Int} (h : Holding activeFd env (fd :: fds) dirs g) :
    fd ∈ g.fds ∧ Holding activeFd env fds dirs ((carefully activeFd).next g ⟨.close fd, r⟩) := by
  refine ⟨h.perm.mem_iff.mpr mem_cons_self, { h with perm := ?_, nodup := h.nodup.erase fd }⟩
  have hp := h.perm.erase fd
  rwa [cons_append, erase_cons_head] at hp

theorem Holding.swap {fd' : Int} (h : Holding activeFd env (fd :: fd' :: fds) dirs g) :
    Holding activeFd env (fd' :: fd :: fds) dirs g :=
  { h with perm := h.perm.trans (.swap ..) }

-- The descriptor of the data connection is not among them if it has been used.
theorem owned_dataFd {data data' : Use} (h : data ≠ .unused) (h' : data' ≠ .unused) :
    { env with dataFd := fd }.owned data' = env.owned data := by
  rw [Env.owned, if_neg h', Env.owned, if_neg h]

theorem owned_of_pos {data : Use} (h : 0 < fd) :
    { env with passiveFd := fd }.owned data = env.activeFd :: fd :: if data = .unused then [env.dataFd] else [] := by
  rw [Env.owned, if_pos h]
  rfl

theorem owned_of_nonpos {data : Use} (h : ¬0 < fd) :
    { env with passiveFd := fd }.owned data = env.activeFd :: if data = .unused then [env.dataFd] else [] := by
  rw [Env.owned, if_neg h]
  rfl

theorem owned_unused : env.owned .unused = (env.owned .used) ++ [env.dataFd] := by
  simp [Env.owned]

theorem Held.add_of_neg (h : fd < 0) : Held.add fd fds = fds :=
  if_pos h

theorem Held.add_of_nonneg (h : 0 ≤ fd) : Held.add fd fds = fd :: fds :=
  if_neg (Int.not_lt.mpr h)

-- The socket of a PORT is connected.
theorem Holding.connect (h : Holding activeFd env fds dirs g) (hd : g.data = .unused) :
    Holding activeFd env (env.dataFd :: fds) dirs { g with data := .used } :=
  { h with
    perm   := by
      have hp := h.perm
      rw [hd, owned_unused, ← append_assoc] at hp
      exact hp.trans perm_append_comm
    absent := nofun
    unused := nofun }

-- A connection is accepted while there is no such socket.
theorem Holding.accept (h : Holding activeFd env fds dirs g) (hd : g.data ≠ .unused) (hf : fd ∉ g.fds) :
    Holding activeFd { env with dataFd := fd } (fd :: fds) dirs
      { g with fds := fd :: g.fds, data := if fd ≤ 0 then .absent else .used } :=
  have hn : (if fd ≤ 0 then Use.absent else .used) ≠ .unused := by split <;> nofun
  { h with
    perm   := owned_dataFd hd hn ▸ h.perm.cons fd
    nodup  := h.nodup.cons hf
    absent := fun ha => by
      by_contra hp
      simp [hp] at ha
    unused := fun hu => absurd hu hn }

theorem Holding.refuse (h : Holding activeFd env fds dirs g) (hd : g.data ≠ .unused) (hf : fd < 0) :
    Holding activeFd { env with dataFd := fd } fds dirs { g with data := .absent } :=
  have hn : Use.absent ≠ .unused := nofun
  { h with
    perm   := owned_dataFd hd hn ▸ h.perm
    absent := fun _ => Int.le_of_lt hf
    unused := nofun }

theorem carefully_ftpDataOpen {Q : Option α → Held → Prop} {k : Int × Env → Proc α} (h : Holding activeFd env fds dirs g)
    (hf : dirs = [] → ∀ env' g', Holding activeFd env' fds dirs g' → (k (-1, env')).wp (carefully activeFd) Q g')
    (ho : ∀ env' g', Holding activeFd env' (env'.dataFd :: fds) dirs g' → (k (0, env')).wp (carefully activeFd) Q g') :
    (ftpDataOpen env >>= k).wp (carefully activeFd) Q g := by
  refine wp_bind.mpr (wp_if (fun _ => ⟨trivial, fun r ⟨_, hu, hd⟩ => ?_⟩) fun _ => ⟨trivial, fun fd ⟨hn, hu, hd⟩ => ?_⟩)
  case refine_1 =>
    by_cases hr : r = 0
    case pos =>
      subst hr
      exact ho env _ (h.connect (hu rfl))
    case neg =>
      have hg : (carefully activeFd).next g ⟨.connect env.dataFd env.dataAddr, r⟩ = g := if_neg hr
      have hk : (if r ≠ 0 then (-1 : Int) else 0) = -1 := if_pos hr
      have h' : (k (if r ≠ 0 then -1 else 0, env)).wp (carefully activeFd) Q g := by
        rw [hk]
        exact hf (h.dirs ▸ hd.resolve_right hr) env g h
      rw [hg]
      exact h'
  case refine_2 =>
    by_cases hz : fd < 0
    case pos =>
      have hk : (if fd < 0 then (-1 : Int) else 0) = -1 := if_pos hz
      have hg : (carefully activeFd).next g ⟨.accept env.passiveFd, fd⟩ = { g with data := .absent } := by
        simp [carefully, Held.next, Held.add_of_neg hz, hz.le]
      have h' : (k (if fd < 0 then -1 else 0, { env with dataFd := fd })).wp (carefully activeFd) Q { g with data := .absent } := by
        rw [hk]
        exact hf (h.dirs ▸ hd.resolve_right (Int.not_le.mpr hz)) _ _ (h.refuse hu hz)
      rw [hg]
      exact h'
    case neg =>
      have hk : (if fd < 0 then (-1 : Int) else 0) = 0 := if_neg hz
      have hg : (carefully activeFd).next g ⟨.accept env.passiveFd, fd⟩ =
          { g with fds := fd :: g.fds, data := if fd ≤ 0 then .absent else .used } := by
        simp [carefully, Held.next, Held.add_of_nonneg (Int.not_lt.mp hz)]
      have h' : (k (if fd < 0 then -1 else 0, { env with dataFd := fd })).wp (carefully activeFd) Q
          { g with fds := fd :: g.fds, data := if fd ≤ 0 then .absent else .used } := by
        rw [hk]
        exact ho _ _ (h.accept hu hn)
      rw [hg]
      exact h'

theorem carefully_ftpActivePrintf {Q : Option α → Held → Prop} {k : Int → Proc α}
    (h : ∀ r, (k r).wp (carefully activeFd) Q g) : (ftpActivePrintf env text >>= k).wp (carefully activeFd) Q g :=
  ⟨trivial, fun _ _ => h _⟩

theorem carefully_ftpPerror {Q : Option α → Held → Prop} {k : Int → Proc α}
    (h : ∀ r, (k r).wp (carefully activeFd) Q g) : (ftpPerror env >>= k).wp (carefully activeFd) Q g :=
  ⟨trivial, fun _ _ => ⟨trivial, fun _ _ => h _⟩⟩

theorem carefully_close {Q : Option α → Held → Prop} {k : Int → Proc α} (h : Holding activeFd env (fd :: fds) dirs g)
    (hk : ∀ r g', Holding activeFd env fds dirs g' → (k r).wp (carefully activeFd) Q g') :
    (perform (.close fd) >>= k).wp (carefully activeFd) Q g :=
  ⟨(h.close (r := 0)).left, fun r _ => hk r _ h.close.right⟩

theorem carefully_ftpDataClose {Q : Option α → Held → Prop} {k : Int → Proc α}
    (h : Holding activeFd env (env.dataFd :: fds) dirs g)
    (hk : ∀ r g', Holding activeFd env fds dirs g' → (k r).wp (carefully activeFd) Q g') :
    (ftpDataClose env >>= k).wp (carefully activeFd) Q g :=
  wp_bind.mpr <| carefully_close h fun _ g' h' => hk _ g' h'

theorem carefully_perrorClose (h : Holding activeFd env [fd] [] g) :
    (perrorClose env fd).wp (carefully activeFd) (Leftover activeFd) g := by
  refine carefully_ftpPerror fun _ => carefully_close h fun _ g' h' => ?_
  rintro ret env' ⟨⟩
  exact h'

theorem carefully_perrorDataClose {Q : Option α → Held → Prop} {k : Int → Proc α}
    (h : Holding activeFd env [env.dataFd, fd] [] g)
    (hk : ∀ r g', Holding activeFd env [] [] g' → (k r).wp (carefully activeFd) Q g') :
    (perrorDataClose env fd >>= k).wp (carefully activeFd) Q g :=
  wp_bind.mpr <| carefully_ftpPerror fun _ => carefully_ftpDataClose h fun _ _ h => carefully_close h fun _ g' h' => hk _ g' h'

theorem carefully_open {Q : Option α → Held → Prop} {k : Int → Proc α} {path : Bytes} {flags : OpenFlags}
    (h : Holding activeFd env [] [] g) (hn : ∀ fd < 0, (k fd).wp (carefully activeFd) Q g)
    (hk : ∀ fd g', 0 ≤ fd → Holding activeFd env [fd] [] g' → (k fd).wp (carefully activeFd) Q g') :
    (perform (.open path flags) >>= k).wp (carefully activeFd) Q g := by
  refine wp_call.mpr ⟨trivial, fun fd ⟨hf, _⟩ => ?_⟩
  by_cases hz : fd < 0
  case pos =>
    have hg : (carefully activeFd).next g ⟨.open path flags, fd⟩ = g :=
      congrArg (fun fds => { g with fds := fds }) (Held.add_of_neg hz)
    rw [hg]
    exact hn fd hz
  case neg =>
    have hg : (carefully activeFd).next g ⟨.open path flags, fd⟩ = { g with fds := fd :: g.fds } :=
      congrArg (fun fds => { g with fds := fds }) (Held.add_of_nonneg (Int.not_lt.mp hz))
    rw [hg]
    exact hk fd _ (Int.not_lt.mp hz) { h with perm := h.perm.cons fd, nodup := h.nodup.cons hf }

theorem carefully_listLoop {p : Bytes} {dir : Nat} :
    (listLoop env p dir fuel).wp (carefully activeFd) (fun _ g' => g' = g) g := by
  refine wp_mono (wp_of_silent (fun c hc => ?_) listLoop_within) fun _ _ h => h.right
  cases c
  case readdir | stat | strftime | dataWrite => exact ⟨trivial, fun _ => rfl⟩
  all_goals contradiction

theorem carefully_ftpCmdLIST (h : Holding activeFd env [] [] g) :
    (ftpCmdLIST fuel env arg).wp (carefully activeFd) (Leftover activeFd) g := by
  refine wp_call.mpr ⟨trivial, fun dir _ => ?_⟩
  rcases dir with _ | dir
  case none => exact carefully_perror h
  case some =>
    have hd : Holding activeFd env [] [dir] { g with dirs := dir :: g.dirs } := { h with dirs := h.dirs ▸ rfl }
    refine carefully_ftpDataOpen hd nofun fun env' g' h' => wp_if (absurd rfl) fun _ => ?_
    refine carefully_ftpActivePrintf fun _ => wp_bind.mpr ?_
    apply wp_mono carefully_listLoop
    rintro o _ rfl
    rcases o with _ | _
    case none => exact nofun
    case some =>
      have hc {env : Env} {g : Held} (h : Holding activeFd env [] [dir] g) : dir ∈ g.dirs ∧
          ∀ r, Holding activeFd env [] [] ((carefully activeFd).next g ⟨.closedir dir, r⟩) :=
        ⟨h.dirs ▸ mem_cons_self, fun r => { h with dirs := by simp [carefully, Held.next, h.dirs] }⟩
      refine carefully_ftpDataClose h' fun r g h => wp_if (fun _ => ?_) fun _ => ?_
      case refine_1 =>
        refine carefully_ftpPerror fun _ => wp_call.mpr ⟨(hc h).left, fun r _ => ?_⟩
        rintro ret env' ⟨⟩
        exact (hc h).right r
      case refine_2 =>
        refine wp_call.mpr ⟨(hc h).left, fun r _ => ?_⟩
        exact wp_if (fun _ => carefully_perror ((hc h).right r)) fun _ => carefully_reply ((hc h).right r)

-- The loop of a transfer either closes the data connection and the file, or leaves both open.
def Concludes (activeFd : Int) (env : Env) (fd : Int) : Option (Except Int α) → Held → Prop
  | none, _            => True
  | some (.error _), g => Holding activeFd env [] [] g
  | some (.ok _), g    => Holding activeFd env [env.dataFd, fd] [] g

theorem carefully_retrLoop (h : Holding activeFd env [env.dataFd, fd] [] g) :
    (retrLoop env fd fuel).wp (carefully activeFd) (Concludes activeFd env fd) g := by
  induction fuel
  case zero => trivial
  case succ fuel hi =>
    refine wp_call.mpr ⟨trivial, fun buf _ => ?_⟩
    rcases buf with err | ⟨buf, hb⟩
    case error => exact carefully_perrorDataClose h fun _ _ h => h
    case ok    =>
      refine wp_if (fun _ => h) fun _ => wp_call.mpr ⟨trivial, fun n _ => ?_⟩
      exact wp_if (fun _ => carefully_perrorDataClose h fun _ _ h => h) fun _ => hi

theorem carefully_storLoop {off : Int} (h : Holding activeFd env [env.dataFd, fd] [] g) :
    (storLoop env fd fuel off).wp (carefully activeFd) (Concludes activeFd env fd) g := by
  induction fuel generalizing off
  case zero => trivial
  case succ fuel hi =>
    refine wp_call.mpr ⟨trivial, fun readbuf _ => wp_if (fun _ => h) fun _ => wp_call.mpr ⟨trivial, fun n _ => ?_⟩⟩
    exact wp_if (fun _ => carefully_perrorDataClose h fun _ _ h => h) fun _ => hi

theorem carefully_closeReturn {ret : Int} (h : Holding activeFd env [fd] [] g) :
    (perform (.close fd) >>= fun _ => Pure.pure (ret, env)).wp (carefully activeFd) (Leftover activeFd) g := by
  refine carefully_close h fun _ g' h => ?_
  rintro ret env' ⟨⟩
  exact h

-- A transfer ends with the closing of the file and of the data connection.
theorem carefully_end {done : Bytes} (h : Holding activeFd env [env.dataFd, fd] [] g) :
    (perform (.close fd) >>= fun _ => ftpDataClose env >>= fun r => if r ≠ 0 then perror env else reply env done).wp
      (carefully activeFd) (Leftover activeFd) g :=
  carefully_close h.swap fun _ _ h => carefully_ftpDataClose h fun _ _ h =>
    wp_if (fun _ => carefully_perror h) fun _ => carefully_reply h

theorem carefully_ftpCmdRETR (h : Holding activeFd env [] [] g) :
    (ftpCmdRETR fuel env arg).wp (carefully activeFd) (Leftover activeFd) g := by
  refine wp_if (fun _ => carefully_reply h) fun _ => wp_call.mpr ⟨trivial, fun st _ => ?_⟩
  rcases st with _ | st
  case none => exact carefully_perror h
  case some =>
    refine wp_if (fun _ => carefully_reply h) fun _ => carefully_open h (fun fd hf => ?_) fun fd g hf h => ?_
    case refine_1 => exact wp_if (fun _ => wp_call.mpr ⟨trivial, fun text _ => carefully_reply h⟩) fun hn => absurd hf hn
    case refine_2 =>
      refine wp_if (fun hn => absurd hf (Int.not_le.mpr hn)) fun _ => carefully_ftpActivePrintf fun r => ?_
      refine wp_if (fun _ => carefully_closeReturn h) fun _ => carefully_ftpDataOpen h (fun _ env g h => ?_) fun env g h => ?_
      case refine_1 => exact wp_if (fun _ => carefully_perrorClose h) fun hn => absurd (by decide) hn
      refine wp_if (absurd rfl) fun _ => wp_bind.mpr ?_
      apply wp_mono (carefully_retrLoop h)
      intro o g hg
      rcases o with _ | err | _
      case none => exact nofun
      case some.error =>
        rintro ret env' ⟨⟩
        exact hg
      case some.ok => exact carefully_end hg

theorem carefully_ftpCmdSTOR (h : Holding activeFd env [] [] g) :
    (ftpCmdSTOR fuel env arg).wp (carefully activeFd) (Leftover activeFd) g := by
  replace h : Holding activeFd { env with dataOffset := 0 } [] [] g := { h with }
  refine wp_if (fun _ => carefully_reply h) fun _ => carefully_open h (fun fd hf => ?_) fun fd g hf h => ?_
  case refine_1 => exact wp_if (fun _ => carefully_perror h) fun hn => absurd hf hn
  case refine_2 =>
    refine wp_if (fun hn => absurd hf (Int.not_le.mpr hn)) fun _ => wp_call.mpr ⟨trivial, fun r _ => ?_⟩
    refine wp_if (fun _ => carefully_perrorClose h) fun _ => carefully_ftpActivePrintf fun r => ?_
    refine wp_if (fun _ => carefully_closeReturn h) fun _ => carefully_ftpDataOpen h (fun _ env g h => ?_) fun env g h => ?_
    case refine_1 => exact wp_if (fun _ => carefully_perrorClose h) fun hn => absurd (by decide) hn
    refine wp_if (absurd rfl) fun _ => wp_bind.mpr ?_
    apply wp_mono (carefully_storLoop h)
    intro o g hg
    rcases o with _ | err | off
    case none => exact nofun
    case some.error =>
      rintro ret env' ⟨⟩
      exact hg
    case some.ok =>
      refine wp_call.mpr ⟨trivial, fun r _ => wp_if (fun _ => ?_) fun _ => carefully_end hg⟩
      refine carefully_perrorDataClose hg fun r g h => ?_
      rintro ret env' ⟨⟩
      exact h

theorem carefully_ftpCmdAPPE (h : Holding activeFd env [] [] g) :
    (ftpCmdAPPE fuel env arg).wp (carefully activeFd) (Leftover activeFd) g := by
  refine wp_if (fun _ => carefully_reply h) fun _ => wp_if (fun _ => ?_) fun _ => carefully_ftpCmdSTOR h
  refine wp_call.mpr ⟨trivial, fun st _ => ?_⟩
  rcases st with _ | st
  case none => exact carefully_perror h
  case some => exact carefully_ftpCmdSTOR { h with }

-- The listener is one of the descriptors.
theorem Holding.listener (h : Holding activeFd env fds dirs g) (hp : 0 < env.passiveFd) :
    Holding activeFd { env with passiveFd := -1 } (env.passiveFd :: fds) dirs g :=
  have hn : ¬0 < (-1 : Int) := by decide
  { h with
    perm := by
      have ho : (env.owned g.data).Perm (env.passiveFd :: { env with passiveFd := -1 }.owned g.data) := by
        have hp : env.owned g.data = env.activeFd :: env.passiveFd :: _ := owned_of_pos hp
        rw [owned_of_nonpos hn, hp]
        exact .swap ..
      exact h.perm.trans ((ho.append_left fds).trans perm_middle) }

theorem Holding.no_listener (h : Holding activeFd env fds dirs g) (hp : ¬0 < env.passiveFd) :
    Holding activeFd { env with passiveFd := -1 } fds dirs g :=
  have hn : ¬0 < (-1 : Int) := by decide
  { h with perm := (owned_of_nonpos hn).trans (owned_of_nonpos hp).symm ▸ h.perm }

-- A socket becomes the listener.
theorem Holding.listen (h : Holding activeFd { env with passiveFd := -1 } [] [] g) (hz : fd ≠ 0) (hf : fd ∉ g.fds) :
    Holding activeFd { env with passiveFd := fd } [] [] { g with fds := Held.add fd g.fds, listening := false } := by
  have hn : ¬0 < (-1 : Int) := by decide
  by_cases hd : fd < 0
  case pos =>
    have ho : { env with passiveFd := fd }.owned g.data = { env with passiveFd := -1 }.owned g.data := by
      rw [owned_of_nonpos hn, owned_of_nonpos (by omega)]
    rw [Held.add_of_neg hd]
    exact { h with listening := rfl, perm := ho ▸ h.perm }
  case neg =>
    have ho : (fd :: { env with passiveFd := -1 }.owned g.data).Perm ({ env with passiveFd := fd }.owned g.data) := by
      rw [owned_of_nonpos hn, owned_of_pos (by omega)]
      exact .swap ..
    rw [Held.add_of_nonneg (Int.not_lt.mp hd)]
    exact { h with listening := rfl, nodup := h.nodup.cons hf, perm := (h.perm.cons fd).trans ho }

-- The listener is closed if there is one.
theorem carefully_closeFd {Q : Option α → Held → Prop} {k : Unit → Proc α} (h : Holding activeFd env [] [] g)
    (hk : ∀ g', Holding activeFd { env with passiveFd := -1 } [] [] g' →
      (k ()).wp (carefully activeFd) Q { g' with listening := true }) :
    (closeFd env.passiveFd >>= k).wp (carefully activeFd) Q { g with listening := true } := by
  refine wp_bind.mpr (wp_if (fun hp => ?_) fun hp => hk g (h.no_listener hp))
  have hc := @Holding.close _ _ _ _ _ g 0 (h.listener hp)
  exact ⟨hc.left, fun r _ => hk _ hc.right⟩

theorem carefully_ftpCmdPASV (h : Holding activeFd env [] [] g) :
    (ftpCmdPASV env arg).wp (carefully activeFd) (Leftover activeFd) g := by
  refine wp_call.mpr ⟨trivial, fun sockaddr _ => ?_⟩
  rcases sockaddr with _ | sockaddr
  case none => exact carefully_perror { h with listening := Bool.and_false _ }
  case some =>
    have hg : (carefully activeFd).next g ⟨.getsockname env.activeFd, some sockaddr⟩ = { g with listening := true } := by
      simp [carefully, Held.next, h.active]
    rw [hg]
    refine carefully_closeFd h fun g h' => wp_call.mpr ⟨trivial, fun fd ⟨hf, hz, _⟩ => ?_⟩
    have h := h'.listen hz hf
    refine wp_if (fun _ => carefully_perror h) fun hn => wp_call.mpr ⟨trivial, fun r ⟨_, (hr : r = 0)⟩ => ?_⟩
    refine wp_if (fun hn => absurd hr hn) fun _ => wp_call.mpr ⟨trivial, fun r ⟨_, (hr : r = 0)⟩ => ?_⟩
    refine wp_if (fun hn => absurd hr hn) fun _ => wp_call.mpr ⟨trivial, fun bound ⟨_, hb⟩ => ?_⟩
    have ha : fd ≠ activeFd := by
      rintro rfl
      exact hf (h'.perm.mem_iff.mpr (h'.active ▸ mem_cons_self))
    rcases bound with _ | bound
    case none => exact absurd rfl (hb.resolve_left ha)
    case some => exact carefully_reply { h with listening := by simp [carefully, Held.next, ha] }

-- A socket is created for a PORT while there is none.
theorem carefully_ftpCmdPORT (h : Holding activeFd env [] [] g) :
    (ftpCmdPORT env arg).wp (carefully activeFd) (Leftover activeFd) g := by
  cases hs : Number.sscanfBytes 6 arg
  case none =>
    simp only [ftpCmdPORT, hs]
    exact carefully_reply h
  case some =>
    simp only [ftpCmdPORT, hs]
    refine wp_call.mpr ⟨trivial, fun fd ha => ?_⟩
    obtain ⟨hf, hz, hu⟩ := ha
    have hu : g.data ≠ .unused := hu.resolve_left (by simp [h.listening])
    refine wp_if (fun hn => carefully_perror ?_) fun hn => carefully_reply ?_
    case refine_1 =>
      have hg : (carefully activeFd).next g ⟨.socket, fd⟩ = { g with data := .absent } := by
        simp [carefully, Held.next, Held.add_of_neg hn, h.listening, hn]
      exact hg ▸ h.refuse hu hn
    case refine_2 =>
      have hg : (carefully activeFd).next g ⟨.socket, fd⟩ = { g with fds := fd :: g.fds, data := .unused } := by
        simp [carefully, Held.next, Held.add_of_nonneg (Int.not_lt.mp hn), h.listening, hn]
      have ho : (fd :: env.owned g.data).Perm ({ env with dataFd := fd }.owned .unused) := by
        rw [Env.owned, if_neg hu, append_nil, Env.owned, if_pos rfl, ← cons_append]
        exact @perm_append_comm _ [fd] _
      rw [hg]
      exact { h with
        perm   := (h.perm.cons fd).trans ho
        nodup  := h.nodup.cons hf
        absent := fun ha => by cases ha
        unused := fun _ => lt_of_le_of_ne (Int.not_lt.mp hn) hz.symm }

theorem carefully_ftpCmdRNFR (h : Holding activeFd env [] [] g) :
    (ftpCmdRNFR env arg).wp (carefully activeFd) (Leftover activeFd) g := by
  refine wp_if (fun _ => carefully_reply h) fun _ => wp_call.mpr ⟨trivial, fun st _ => ?_⟩
  rcases st with _ | st
  case none => exact carefully_perror { h with }
  case some => exact carefully_reply { h with }

theorem carefully_ftpCmdRNTO (h : Holding activeFd env [] [] g) :
    (ftpCmdRNTO env arg).wp (carefully activeFd) (Leftover activeFd) g := by
  refine wp_if (fun _ => carefully_reply h) fun _ => wp_call.mpr ⟨trivial, fun st _ => ?_⟩
  rcases st with _ | st
  case none => exact carefully_perror h
  case some => exact wp_call.mpr ⟨trivial, fun r _ => wp_if (fun _ => carefully_perror h) fun _ => carefully_reply h⟩

theorem Holding.agrees (h : Holding activeFd env fds dirs g) (he : env.Agrees env') : Holding activeFd env' fds dirs g :=
  have ho : env'.owned g.data = env.owned g.data := by
    rw [Env.owned, he.activeFd, he.passiveFd, he.dataFd, Env.owned]
  { h with
    active := he.activeFd.trans h.active
    perm   := ho ▸ h.perm
    absent := fun ha => he.dataFd ▸ h.absent ha
    unused := fun hu => he.dataFd ▸ h.unused hu }

theorem carefully_keeps {p : Proc (Int × Env)} (h : Holding activeFd env [] [] g) (hk : Keeps env p) :
    p.wp (carefully activeFd) (Leftover activeFd) g := by
  refine wp_mono (wp_of_silent (fun c hc => ?_) hk) fun o g' hg ret env' ho => hg.right ▸ h.agrees (hg.left ret env' ho)
  cases c
  case activeWrite | stat | chmod | remove | mkdir | rmdir | strerror | strerrorR | exit => exact ⟨trivial, fun _ => rfl⟩
  all_goals contradiction

-- No command loses a descriptor.
theorem carefully_ftpExecute {line : Bytes} (h : Holding activeFd env [] [] g) :
    (ftpExecute fuel env line).wp (carefully activeFd) (Leftover activeFd) g := by
  have hd := @dispatch env fuel line
  generalize (splitLine line).fst = name at hd
  generalize ftpExecute fuel env line = p at hd
  cases hd
  case appe        => exact carefully_ftpCmdAPPE h
  case list        => exact carefully_ftpCmdLIST h
  case pasv        => exact carefully_ftpCmdPASV h
  case port        => exact carefully_ftpCmdPORT h
  case rest        => exact wp_if (fun _ => carefully_reply h) fun _ => carefully_reply { h with }
  case retr        => exact carefully_ftpCmdRETR h
  case rnfr        => exact carefully_ftpCmdRNFR h
  case rnto        => exact carefully_ftpCmdRNTO h
  case stor        => exact carefully_ftpCmdSTOR h
  case keeps hn hk => exact carefully_keeps h hk

theorem carefully_ftpReadline : (ftpReadline fuel fd).wp (carefully activeFd) (fun _ g' => g' = g) g := by
  refine wp_mono (wp_of_silent (fun c hc => ?_) ftpReadline_within) fun _ _ h => h.right
  cases c
  case calloc | realloc | read => exact ⟨trivial, fun _ => rfl⟩
  all_goals contradiction

-- The invariant of the loop of a client.
theorem carefully_threadLoop (h : Holding activeFd env [] [] g) :
    (threadLoop fuel env).wp (carefully activeFd) (fun o g' => ∀ env', o = some env' → Holding activeFd env' [] [] g') g := by
  induction fuel generalizing env g
  case zero => exact nofun
  case succ fuel hi =>
    refine wp_bind.mpr (wp_mono carefully_ftpReadline ?_)
    rintro o _ rfl
    rcases o with _ | _ | line
    case none => exact nofun
    case some.none =>
      rintro env' ⟨⟩
      exact h
    case some.some =>
      refine wp_bind.mpr (wp_mono (carefully_ftpExecute h) fun o g' hl => ?_)
      rcases o with _ | ⟨ret, env'⟩
      case none => exact nofun
      case some =>
        refine wp_if (fun _ => ?_) fun _ => hi (hl ret env' rfl)
        rintro env'' ⟨⟩
        exact hl ret env' rfl

theorem carefully_closeOwned {rest : List Int} (h : g.fds.Perm ((if 0 < fd then [fd] else []) ++ rest)) :
    (closeFd fd).wp (carefully activeFd) (fun o g' => o = some () ∧ g'.fds.Perm rest ∧ g'.dirs = g.dirs) g := by
  refine wp_if (fun hp => ?_) fun hp => ?_
  case refine_1 =>
    rw [if_pos hp] at h
    have he := h.erase fd
    rw [singleton_append, erase_cons_head] at he
    exact ⟨h.mem_iff.mpr mem_cons_self, fun r _ => ⟨rfl, he, rfl⟩⟩
  case refine_2 =>
    rw [if_neg hp] at h
    exact ⟨rfl, h, rfl⟩

-- Everything is closed at the end, if the descriptor of the data connection has not been used.
theorem carefully_threadEnd (h : Holding activeFd env [] [] g) (hp : 0 < activeFd) (hu : g.data ≠ .used) :
    (threadEnd env).wp (carefully activeFd) (fun _ g' => g'.fds = [] ∧ g'.dirs = []) g := by
  have hd : (if g.data = .unused then [env.dataFd] else []) = (if 0 < env.dataFd then [env.dataFd] else []) ++ [] := by
    cases hd : g.data
    case absent => simp [h.absent hd]
    case unused => simp [h.unused hd]
    case used   => exact absurd hd hu
  have ha : 0 < env.activeFd := h.active ▸ hp
  have hl : g.fds.Perm ((if 0 < env.activeFd then [env.activeFd] else []) ++ ((if 0 < env.passiveFd then [env.passiveFd] else []) ++
      ((if 0 < env.dataFd then [env.dataFd] else []) ++ []))) := by
    rw [if_pos ha, ← hd]
    exact h.perm
  refine wp_bind.mpr (wp_mono (carefully_closeOwned hl) ?_)
  rintro _ g₁ ⟨rfl, h₁, hd₁⟩
  refine wp_bind.mpr (wp_mono (carefully_closeOwned h₁) ?_)
  rintro _ g₂ ⟨rfl, h₂, hd₂⟩
  refine wp_mono (carefully_closeOwned h₂) ?_
  rintro _ g₃ ⟨rfl, h₃, hd₃⟩
  exact ⟨h₃.eq_nil, hd₃.trans (hd₂.trans (hd₁.trans h.dirs))⟩

-- The use of the descriptor does not change at the end.
theorem careful_threadEnd : (threadEnd env).wp (careful activeFd) (fun o g' => o ≠ none ∧ g'.data = g.data) g := by
  have hc {Q : Option Unit → Held → Prop} {fd : Int} {k : Unit → Proc Unit} {g : Held}
      (h : ∀ g', g'.data = g.data → (k ()).wp (careful activeFd) Q g') : (closeFd fd >>= k).wp (careful activeFd) Q g :=
    wp_bind.mpr (wp_if (fun _ => ⟨trivial, fun _ _ => h _ rfl⟩) fun _ => h _ rfl)
  refine hc fun g₁ h₁ => hc fun g₂ h₂ => wp_if (fun _ => ⟨trivial, fun _ _ => ⟨nofun, ?_⟩⟩) fun _ => ⟨nofun, ?_⟩
  all_goals exact h₂.trans h₁

theorem holding_initEnv : Holding activeFd (initEnv activeFd) [] [] { fds := [activeFd] } where
  active    := rfl
  perm      := .refl _
  nodup     := nodup_singleton _
  dirs      := rfl
  listening := rfl
  absent    := fun _ => (by decide : (-1 : Int) ≤ 0)
  unused    := nofun

theorem carefully_allowed {t : Trace Result} (hf : (ledger activeFd).Allowed g t) (hc : (careful activeFd).Allowed g t) :
    (carefully activeFd).Allowed g t := by
  induction t generalizing g
  case nil         => trivial
  case cons e t hi => exact ⟨⟨hf.left, hc.left⟩, hi hf.right hc.right⟩

-- With outcomes under which nothing is lost, a session closes what it has opened, once.
theorem ftpThread_owns {compiled : Bytes} {t : Trace Result} {o : Option Unit} (ho : (ftpThread fuel compiled activeFd).Observed t o)
    (hp : 0 < activeFd) (hf : (ledger activeFd).Allowed { fds := [activeFd] } t)
    (hc : (careful activeFd).Allowed { fds := [activeFd] } t)
    (hu : o ≠ none → ((ledger activeFd).after { fds := [activeFd] } t).data ≠ .used) :
    (ledger activeFd).Met { fds := [activeFd] } t ∧ (o ≠ none →
      ((ledger activeFd).after { fds := [activeFd] } t).fds = [] ∧
      ((ledger activeFd).after { fds := [activeFd] } t).dirs = []) := by
  have hm {t : Trace Result} {g : Held} : (carefully activeFd).Met g t ↔ (ledger activeFd).Met g t := met_congr rfl rfl
  have hg {g : Held} : (ftpGreet compiled (initEnv activeFd)).wp (carefully activeFd) (fun o g' => o ≠ none ∧ g' = g) g :=
    ⟨trivial, fun _ _ => ⟨trivial, fun _ _ => ⟨nofun, rfl⟩⟩⟩
  have hl {r : Int} : (if r = 0 then threadLoop fuel (initEnv activeFd) else Pure.pure (initEnv activeFd)).wp (carefully activeFd)
      (fun o g' => ∀ env', o = some env' → Holding activeFd env' [] [] g') { fds := [activeFd] } := by
    refine wp_if (fun _ => carefully_threadLoop holding_initEnv) fun _ => ?_
    rintro env' ⟨⟩
    exact holding_initEnv
  have ha := carefully_allowed hf hc
  rw [← hm]
  obtain ⟨h₁, rfl⟩ | ⟨r, t₁, t₂, rfl, h₁, h₂⟩ := observed_bind ho
  case inl => exact absurd rfl (wp_sound hg h₁ ha).right.left
  case inr =>
    have ⟨ha₁, ha₂⟩ := allowed_append.mp ha
    have ⟨hm₁, _, hg₁⟩ := wp_sound hg h₁ ha₁
    rw [hg₁] at ha₂
    rw [met_append, hg₁]
    have hg₁' : (ledger activeFd).after { fds := [activeFd] } t₁ = { fds := [activeFd] } := hg₁
    rw [after_append, hg₁'] at hu ⊢
    have h₂ : ((if r = 0 then threadLoop fuel (initEnv activeFd) else Pure.pure (initEnv activeFd)) >>= threadEnd).Observed
        t₂ o := by
      split at h₂
      case isTrue hr  => exact if_pos hr ▸ h₂
      case isFalse hr => exact if_neg hr ▸ h₂
    obtain ⟨h₃, rfl⟩ | ⟨env, t₃, t₄, rfl, h₃, h₄⟩ := observed_bind h₂
    case inl => exact ⟨⟨hm₁, (wp_sound hl h₃ ha₂).left⟩, nofun⟩
    case inr =>
      have ⟨ha₃, ha₄⟩ := allowed_append.mp ha₂
      have ⟨hm₃, hh⟩ := wp_sound hl h₃ ha₃
      have hc₄ := (allowed_append.mp (allowed_append.mp hc).right).right
      rw [show (careful activeFd).after { fds := [activeFd] } t₁ = { fds := [activeFd] } from hg₁] at hc₄
      have ⟨_, hn, hd⟩ := wp_sound careful_threadEnd h₄ hc₄
      rw [after_append] at hu ⊢
      have hd : ((carefully activeFd).after { fds := [activeFd] } t₃).data ≠ .used := fun hd' => hu hn (hd.trans hd')
      have ⟨hm₄, he⟩ := wp_sound (carefully_threadEnd (hh env rfl) hp hd) h₄ ha₄
      exact ⟨⟨hm₁, met_append.mpr ⟨hm₃, hm₄⟩⟩, fun _ => he⟩

def greetTrace : Trace Result :=
  [⟨.getpid, (1 : Int)⟩,
    ⟨.activeWrite 4 (bytes "220-Welcome to ftpsrv.elf running on pid 1, compiled at now\r\n220 Service is ready\r\n"), (83 : Int)⟩]

def portTrace : Trace Result :=
  lineTrace 4 (bytes "PORT 10,0,0,1,4,1") ++
    [⟨.socket, (5 : Int)⟩, ⟨.activeWrite 4 (bytes "200 PORT command successful.\r\n"), (30 : Int)⟩]

def quitTrace : Trace Result :=
  lineTrace 4 (bytes "QUIT") ++ [⟨.activeWrite 4 (bytes "221 Goodbye\r\n"), (13 : Int)⟩]

-- A directory is listed in active mode, and the next PORT is not made use of.
def activeTrace : Trace Result :=
  greetTrace ++ portTrace ++ lineTrace 4 (bytes "LIST") ++
    [⟨.opendir [slash], some (1 : Nat)⟩, ⟨.connect 5 ⟨0x0100000a, 0x0104⟩, (0 : Int)⟩,
      ⟨.activeWrite 4 (bytes "150 Opening data transfer\r\n"), (27 : Int)⟩, ⟨.readdir 1, (none : Option Bytes)⟩,
      ⟨.close 5, (0 : Int)⟩, ⟨.closedir 1, (0 : Int)⟩,
      ⟨.activeWrite 4 (bytes "226 Transfer complete\r\n"), (23 : Int)⟩] ++
    portTrace ++ quitTrace ++ [⟨.close 4, (0 : Int)⟩, ⟨.close 5, (0 : Int)⟩]

theorem ftpThread_owns_sample :
    (ledger 4).Met { fds := [4] } activeTrace ∧ (some () ≠ none →
      ((ledger 4).after { fds := [4] } activeTrace).fds = [] ∧ ((ledger 4).after { fds := [4] } activeTrace).dirs = []) := by
  have ho : (ftpThread 30 (bytes "now") 4).Observed activeTrace (some ()) := observed_of_replay (by decide +kernel)
  exact ftpThread_owns ho (by decide) (by decide +kernel) (by decide +kernel) fun _ => by decide +kernel

-- A directory is listed in passive mode, and the data connection is closed again at the end.
def passiveTrace : Trace Result :=
  greetTrace ++ lineTrace 4 (bytes "PASV") ++ (pasvSample (initEnv 4)).trace ++ lineTrace 4 (bytes "LIST") ++
    [⟨.opendir [slash], some (1 : Nat)⟩, ⟨.accept 6, (8 : Int)⟩,
      ⟨.activeWrite 4 (bytes "150 Opening data transfer\r\n"), (27 : Int)⟩, ⟨.readdir 1, (none : Option Bytes)⟩,
      ⟨.close 8, (0 : Int)⟩, ⟨.closedir 1, (0 : Int)⟩,
      ⟨.activeWrite 4 (bytes "226 Transfer complete\r\n"), (23 : Int)⟩] ++
    quitTrace ++ [⟨.close 4, (0 : Int)⟩, ⟨.close 6, (0 : Int)⟩, ⟨.close 8, (-1 : Int)⟩]

theorem ftpThread_closes_again : ¬∀ fuel compiled activeFd t o, (ftpThread fuel compiled activeFd).Observed t o →
    (ledger activeFd).Allowed { fds := [activeFd] } t → (ledger activeFd).Met { fds := [activeFd] } t ∧ (o ≠ none →
      ((ledger activeFd).after { fds := [activeFd] } t).fds = [] ∧
      ((ledger activeFd).after { fds := [activeFd] } t).dirs = []) := by
  intro ha
  have ho : (ftpThread 30 (bytes "now") 4).Observed passiveTrace (some ()) := observed_of_replay (by decide +kernel)
  have hm := (ha _ _ _ _ _ ho (by decide +kernel)).left
  exact absurd hm (by decide +kernel)

end Ftp

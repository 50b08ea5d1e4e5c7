import HenPlugins.Ftp.Theorems.Frame

open List Prog CString

namespace Ftp

-- What a session has open, and the numbers that its state keeps for the listener and for the data connection, which
-- may have been closed. A socket that is created now is to listen if the address of the control connection has been
-- asked for before.
structure Hold where
  fds       : Finset Int
  dirs      : Finset Nat := ∅
  passive   : Int        := -1
  data      : Int        := -1
  listening : Bool       := false
deriving DecidableEq

namespace Hold

def gain (g : Hold) (fd : Int) : Hold :=
  if fd < 0 then g else { g with fds := insert fd g.fds }

def next (activeFd : Int) (g : Hold) : Event Result → Hold
  | ⟨.getsockname fd, addr⟩ => { g with listening := fd = activeFd && addr.isSome }
  | ⟨.socket, fd⟩           =>
    { g.gain fd with
      passive   := if g.listening then fd else g.passive
      data      := if g.listening then g.data else fd
      listening := false }
  | ⟨.accept _, fd⟩         => { g.gain fd with data := fd }
  | ⟨.open .., fd⟩          => g.gain fd
  | ⟨.opendir _, some dir⟩  => { g with dirs := insert dir g.dirs }
  | ⟨.close fd, _⟩          => { g with fds := g.fds.erase fd }
  | ⟨.closedir dir, _⟩      => { g with dirs := g.dirs.erase dir }
  | _                       => g

def Fresh (g : Hold) : Event Result → Prop
  | ⟨.socket, fd⟩ | ⟨.accept _, fd⟩ | ⟨.open .., fd⟩ => fd ∉ g.fds
  | ⟨.opendir _, some dir⟩                           => dir ∉ g.dirs
  | _                                                => True

def Names (g : Hold) (fd : Int) : Prop :=
  fd ∈ g.fds ∨ fd = g.passive ∨ fd = g.data

-- Descriptors are made use of if they are open, or if there is a number of them. Directories are open.
def Uses (g : Hold) : Call → Prop
  | .activeWrite fd _ | .dataWrite fd _ | .write fd .. | .read fd _ | .recv fd _ | .getsockname fd | .bind fd _
  | .listen fd _ | .accept fd | .connect fd _ | .close fd | .lseekCur fd _ | .ftruncate fd _ => g.Names fd
  | .readdir dir | .closedir dir => dir ∈ g.dirs
  | _ => True

end Hold

variable {activeFd : Int}

def holds (activeFd : Int) : Monitor Result Hold where
  next    := Hold.next activeFd
  Allows  := Hold.Fresh
  Demands := Hold.Uses

variable {α : Type} {l : Bool} {fd fd' : Int} {env env' : Env} {g : Hold} {text arg : Bytes} {fuel : Nat} {dir : Nat}

namespace Hold

@[simp]
theorem gain_dirs : (g.gain fd).dirs = g.dirs := by
  rw [gain]
  split <;> rfl

@[simp]
theorem gain_passive : (g.gain fd).passive = g.passive := by
  rw [gain]
  split <;> rfl

@[simp]
theorem gain_data : (g.gain fd).data = g.data := by
  rw [gain]
  split <;> rfl

@[simp]
theorem gain_listening : (g.gain fd).listening = g.listening := by
  rw [gain]
  split <;> rfl

theorem mem_gain (h : fd' ∈ g.fds) : fd' ∈ (g.gain fd).fds := by
  rw [gain]
  split
  case isTrue  => exact h
  case isFalse => exact Finset.mem_insert_of_mem h

end Hold

-- The numbers in the state of a client are the ones that are kept. The control connection is open, and none of them
-- is its own.
structure Knows (activeFd : Int) (l : Bool) (env : Env) (g : Hold) : Prop where
  active     : env.activeFd = activeFd
  mem        : activeFd ∈ g.fds
  passive    : env.passiveFd = g.passive
  data       : env.dataFd = g.data
  passive_ne : g.passive ≠ activeFd
  data_ne    : g.data ≠ activeFd
  listening  : g.listening = l

namespace Knows

theorem names_active (h : Knows activeFd l env g) : g.Names env.activeFd :=
  .inl (h.active ▸ h.mem)

theorem names_passive (h : Knows activeFd l env g) : g.Names env.passiveFd :=
  .inr (.inl h.passive)

theorem names_data (h : Knows activeFd l env g) : g.Names env.dataFd :=
  .inr (.inr h.data)

-- A descriptor other than the one of the control connection is closed.
theorem close (h : Knows activeFd l env g) (hf : fd ≠ activeFd) : Knows activeFd l env { g with fds := g.fds.erase fd } :=
  { h with mem := Finset.mem_erase.mpr ⟨hf.symm, h.mem⟩ }

theorem ne_active (h : Knows activeFd l env g) (hf : fd ∉ g.fds) : fd ≠ activeFd :=
  fun he => hf (he ▸ h.mem)

-- What is given to a session becomes its data connection, or its listener.

theorem connection (h : Knows activeFd l env g) (hf : fd ∉ g.fds) :
    Knows activeFd false { env with dataFd := fd } { g.gain fd with passive := g.passive, data := fd, listening := false } where
  active     := h.active
  mem        := Hold.mem_gain h.mem
  passive    := h.passive
  data       := rfl
  passive_ne := h.passive_ne
  data_ne    := h.ne_active hf
  listening  := rfl

theorem listener (h : Knows activeFd l env g) (hf : fd ∉ g.fds) :
    Knows activeFd false { env with passiveFd := fd } { g.gain fd with passive := fd, data := g.data, listening := false } where
  active     := h.active
  mem        := Hold.mem_gain h.mem
  passive    := rfl
  data       := h.data
  passive_ne := h.ne_active hf
  data_ne    := h.data_ne
  listening  := rfl

end Knows

-- A number of the state remains one when some descriptor is closed.
theorem Hold.Names.close_data (h : g.Names fd) : Hold.Names { g with fds := g.fds.erase g.data } fd := by
  obtain hm | hn := h
  · by_cases he : fd = g.data
    case pos => exact .inr (.inr he)
    case neg => exact .inl (Finset.mem_erase.mpr ⟨he, hm⟩)
  · exact .inr hn

-- What a command leaves behind
def Retains (activeFd : Int) (o : Option (Int × Env)) (g : Hold) : Prop :=
  ∀ ret env, o = some (ret, env) → Knows activeFd false env g

theorem retains_some {ret : Int} (h : Knows activeFd false env g) : Retains activeFd (some (ret, env)) g := by
  rintro ret env' ⟨⟩
  exact h

section Calls

variable {Q : Option α → Hold → Prop} {k : Int → Proc α}

theorem names_ftpActivePrintf (h : Knows activeFd l env g) (hk : ∀ r, (k r).wp (holds activeFd) Q g) :
    (ftpActivePrintf env text >>= k).wp (holds activeFd) Q g :=
  ⟨h.names_active, fun _ _ => hk _⟩

theorem names_ftpPerror (h : Knows activeFd l env g) (hk : ∀ r, (k r).wp (holds activeFd) Q g) :
    (ftpPerror env >>= k).wp (holds activeFd) Q g :=
  ⟨trivial, fun _ _ => ⟨h.names_active, fun _ _ => hk _⟩⟩

theorem names_close (h : Knows activeFd l env g) (hn : g.Names fd) (hf : fd ≠ activeFd)
    (hk : ∀ r g', Knows activeFd l env g' → (k r).wp (holds activeFd) Q g') :
    (perform (.close fd) >>= k).wp (holds activeFd) Q g :=
  ⟨hn, fun r _ => hk r _ (h.close hf)⟩

-- The data connection is closed. What else there is a number of can still be closed.
theorem names_ftpDataClose (h : Knows activeFd l env g)
    (hk : ∀ r g', Knows activeFd l env g' → (∀ fd, g.Names fd → g'.Names fd) → (k r).wp (holds activeFd) Q g') :
    (ftpDataClose env >>= k).wp (holds activeFd) Q g := by
  refine wp_bind.mpr (wp_call.mpr ⟨h.names_data, fun r _ => ?_⟩)
  have hd : env.dataFd ≠ activeFd := h.data ▸ h.data_ne
  exact hk _ _ (h.close hd) fun fd hn => h.data ▸ hn.close_data

theorem names_ftpDataOpen {k : Int × Env → Proc α} (h : Knows activeFd false env g)
    (hk : ∀ r env' g', Knows activeFd false env' g' → (∀ fd ∈ g.fds, fd ∈ g'.fds) → g'.dirs = g.dirs →
      (k (r, env')).wp (holds activeFd) Q g') :
    (ftpDataOpen env >>= k).wp (holds activeFd) Q g := by
  refine wp_bind.mpr (wp_if (fun _ => ⟨h.names_data, fun r _ => ?_⟩) fun _ => ⟨h.names_passive, fun (fd : Int) hf => ?_⟩)
  case refine_1 => exact hk _ env g h (fun _ hm => hm) rfl
  case refine_2 =>
    have hg : (holds activeFd).next g ⟨.accept env.passiveFd, fd⟩ =
        { g.gain fd with passive := g.passive, data := fd, listening := false } := by
      rw [← h.listening, ← @Hold.gain_passive fd g]
      exact congrArg (fun b => { g.gain fd with data := fd, listening := b }) (Hold.gain_listening)
    rw [hg]
    exact hk _ _ _ (h.connection hf) (fun _ hm => Hold.mem_gain hm) Hold.gain_dirs

theorem names_closeFd {k : Unit → Proc α} (h : Knows activeFd l env g)
    (hk : ∀ g', Knows activeFd l env g' → (k ()).wp (holds activeFd) Q g') :
    (closeFd env.passiveFd >>= k).wp (holds activeFd) Q g := by
  have hne : env.passiveFd ≠ activeFd := h.passive.trans_ne h.passive_ne
  exact wp_bind.mpr (wp_if (fun _ => ⟨h.names_passive, fun r _ => hk _ (h.close hne)⟩) fun _ => hk g h)

end Calls

theorem names_reply (h : Knows activeFd false env g) : (reply env text).wp (holds activeFd) (Retains activeFd) g :=
  names_ftpActivePrintf h fun _ => retains_some h

theorem names_perror (h : Knows activeFd false env g) : (perror env).wp (holds activeFd) (Retains activeFd) g :=
  names_ftpPerror h fun _ => retains_some h

theorem names_perrorClose (h : Knows activeFd false env g) (hn : g.Names fd) (hf : fd ≠ activeFd) :
    (perrorClose env fd).wp (holds activeFd) (Retains activeFd) g :=
  names_ftpPerror h fun _ => names_close h hn hf fun _ _ h => retains_some h

theorem names_perrorDataClose {Q : Option α → Hold → Prop} {k : Int → Proc α} (h : Knows activeFd false env g)
    (hn : g.Names fd) (hf : fd ≠ activeFd) (hk : ∀ r g', Knows activeFd false env g' → (k r).wp (holds activeFd) Q g') :
    (perrorDataClose env fd >>= k).wp (holds activeFd) Q g :=
  wp_bind.mpr <| names_ftpPerror h fun _ => names_ftpDataClose h fun _ _ h hn' => names_close h (hn' fd hn) hf fun _ g' h => hk _ g' h

-- A file is opened. Its descriptor is not the one of the control connection.
theorem names_open {Q : Option α → Hold → Prop} {k : Int → Proc α} {path : Bytes} {flags : OpenFlags}
    (h : Knows activeFd false env g) (hk : ∀ fd < 0, (k fd).wp (holds activeFd) Q g)
    (ho : ∀ fd g', ¬fd < 0 → Knows activeFd false env g' → fd ∈ g'.fds → fd ≠ activeFd → (k fd).wp (holds activeFd) Q g') :
    (perform (.open path flags) >>= k).wp (holds activeFd) Q g := by
  refine wp_call.mpr ⟨trivial, fun (fd : Int) hf => ?_⟩
  by_cases hz : fd < 0
  case pos =>
    have hg : (holds activeFd).next g ⟨.open path flags, fd⟩ = g := if_pos hz
    exact hg.symm ▸ hk fd hz
  case neg =>
    have hg : (holds activeFd).next g ⟨.open path flags, fd⟩ = { g with fds := insert fd g.fds } := if_neg hz
    have hne : fd ≠ activeFd := fun he => hf (he ▸ h.mem)
    rw [hg]
    exact ho fd _ hz { h with mem := Finset.mem_insert_of_mem h.mem } (Finset.mem_insert_self ..) hne

theorem names_pathCmd {usage done : String} {call : Bytes → Proc Int} (h : Knows activeFd false env g)
    (hc : ∀ p, (call p).wp (holds activeFd) (fun _ g' => g' = g) g) :
    (pathCmd usage done call env arg).wp (holds activeFd) (Retains activeFd) g := by
  refine wp_if (fun _ => names_reply h) fun _ => wp_bind.mpr (wp_mono (hc _) ?_)
  rintro o _ rfl
  rcases o with _ | r
  case none => exact nofun
  case some => exact wp_if (fun _ => names_perror h) fun _ => names_reply h

theorem names_ftpCmdCHMOD (h : Knows activeFd false env g) :
    (ftpCmdCHMOD env arg).wp (holds activeFd) (Retains activeFd) g := by
  rw [ftpCmdCHMOD]
  split
  · exact names_reply h
  · exact wp_call.mpr ⟨trivial, fun r _ => wp_if (fun _ => names_perror h) fun _ => names_reply h⟩

theorem names_ftpCmdCWD (h : Knows activeFd false env g) : (ftpCmdCWD env arg).wp (holds activeFd) (Retains activeFd) g := by
  refine wp_if (fun _ => names_reply h) fun _ => wp_call.mpr ⟨trivial, fun st _ => ?_⟩
  cases st
  case none    => exact names_perror h
  case some st => exact wp_if (fun _ => names_reply h) fun _ => names_reply { h with }

theorem names_ftpCmdSIZE (h : Knows activeFd false env g) :
    (ftpCmdSIZE env arg).wp (holds activeFd) (Retains activeFd) g := by
  refine wp_if (fun _ => names_reply h) fun _ => wp_call.mpr ⟨trivial, fun st _ => ?_⟩
  cases st
  case none    => exact names_perror h
  case some st => exact names_reply h

theorem names_ftpCmdTYPE (h : Knows activeFd false env g) :
    (ftpCmdTYPE env arg).wp (holds activeFd) (Retains activeFd) g := by
  rw [ftpCmdTYPE]
  split
  · exact names_reply { h with }
  · exact names_reply { h with }
  · exact names_reply h

theorem names_ftpCmdRNFR (h : Knows activeFd false env g) :
    (ftpCmdRNFR env arg).wp (holds activeFd) (Retains activeFd) g := by
  refine wp_if (fun _ => names_reply h) fun _ => wp_call.mpr ⟨trivial, fun st _ => ?_⟩
  cases st
  case none    => exact names_perror { h with }
  case some st => exact names_reply { h with }

theorem names_ftpCmdRNTO (h : Knows activeFd false env g) :
    (ftpCmdRNTO env arg).wp (holds activeFd) (Retains activeFd) g := by
  refine wp_if (fun _ => names_reply h) fun _ => wp_call.mpr ⟨trivial, fun st _ => ?_⟩
  cases st
  case none    => exact names_perror h
  case some st => exact wp_call.mpr ⟨trivial, fun r _ => wp_if (fun _ => names_perror h) fun _ => names_reply h⟩

-- A socket is created for a PORT, whatever has become of the last one.
theorem names_ftpCmdPORT (h : Knows activeFd false env g) :
    (ftpCmdPORT env arg).wp (holds activeFd) (Retains activeFd) g := by
  rw [ftpCmdPORT]
  split
  · exact names_reply h
  · refine wp_call.mpr ⟨trivial, fun (fd : Int) hf => ?_⟩
    have hg : (holds activeFd).next g ⟨.socket, fd⟩ =
        { g.gain fd with passive := g.passive, data := fd, listening := false } := by
      simp [holds, Hold.next, h.listening]
    rw [hg]
    exact wp_if (fun _ => names_perror (h.connection hf)) fun _ => names_reply { h.connection hf with }

theorem names_ftpCmdPASV (h : Knows activeFd false env g) :
    (ftpCmdPASV env arg).wp (holds activeFd) (Retains activeFd) g := by
  refine wp_call.mpr ⟨h.names_active, fun sockaddr _ => ?_⟩
  rcases sockaddr with _ | sockaddr
  case none => exact names_perror { h with listening := Bool.and_false _ }
  case some =>
    have hl : Knows activeFd true env ((holds activeFd).next g ⟨.getsockname env.activeFd, some sockaddr⟩) :=
      { h with listening := by simp [holds, Hold.next, h.active] }
    refine names_closeFd hl fun g h => wp_call.mpr ⟨trivial, fun (fd : Int) hf => ?_⟩
    have hg : (holds activeFd).next g ⟨.socket, fd⟩ =
        { g.gain fd with passive := fd, data := g.data, listening := false } := by
      simp [holds, Hold.next, h.listening]
    have hne := h.ne_active hf
    have h := h.listener hf
    have hn := h.names_passive
    rw [hg]
    refine wp_if (fun _ => names_perror h) fun _ => wp_call.mpr ⟨hn, fun r _ => ?_⟩
    refine wp_if (fun _ => names_perrorClose h hn hne) fun _ => wp_call.mpr ⟨hn, fun r _ => ?_⟩
    refine wp_if (fun _ => names_perrorClose h hn hne) fun _ => wp_call.mpr ⟨hn, fun bound _ => ?_⟩
    rcases bound with _ | bound
    case none => exact names_perrorClose { h with listening := by simp [holds, Hold.next] } hn hne
    case some => exact names_reply { h with listening := by simp [holds, Hold.next, hne] }

theorem names_listLoop {p : Bytes} (h : Knows activeFd false env g) (hd : dir ∈ g.dirs) :
    (listLoop env p dir fuel).wp (holds activeFd) (fun _ g' => g' = g) g := by
  induction fuel
  case zero         => rfl
  case succ fuel hi =>
    refine wp_call.mpr ⟨hd, fun name _ => ?_⟩
    cases name
    case none      => rfl
    case some name =>
      refine wp_call.mpr ⟨trivial, fun st _ => ?_⟩
      cases st
      case none    => exact hi
      case some st => exact wp_call.mpr ⟨trivial, fun _ _ => ⟨h.names_data, fun _ _ => hi⟩⟩

theorem names_ftpCmdLIST (h : Knows activeFd false env g) :
    (ftpCmdLIST fuel env arg).wp (holds activeFd) (Retains activeFd) g := by
  refine wp_call.mpr ⟨trivial, fun dir _ => ?_⟩
  rcases dir with _ | dir
  case none => exact names_perror h
  case some =>
    have hd : Knows activeFd false env { g with dirs := insert dir g.dirs } := { h with }
    refine names_ftpDataOpen hd fun r env g h _ hdirs => wp_if (fun _ => names_perror h) fun _ => ?_
    have hm : dir ∈ g.dirs := hdirs ▸ Finset.mem_insert_self ..
    refine names_ftpActivePrintf h fun _ => wp_bind.mpr (wp_mono (names_listLoop h hm) ?_)
    rintro o _ rfl
    rcases o with _ | _
    case none => exact nofun
    case some =>
      have hne : env.dataFd ≠ activeFd := h.data.trans_ne h.data_ne
      refine wp_bind.mpr (wp_call.mpr ⟨h.names_data, fun r _ => wp_if (fun _ => ?_) fun _ => ?_⟩)
      case refine_1 =>
        refine names_ftpPerror (h.close hne) fun _ => wp_call.mpr ⟨hm, fun _ _ => ?_⟩
        exact retains_some { h.close hne with }
      case refine_2 =>
        refine wp_call.mpr ⟨hm, fun _ _ => wp_if (fun _ => ?_) fun _ => ?_⟩
        · exact names_perror { h.close hne with }
        · exact names_reply { h.close hne with }

-- The loop of a transfer leaves the file open, unless it returns from the command.
def Transfers (activeFd : Int) (env : Env) (fd : Int) : Option (Except Int α) → Hold → Prop
  | none, _            => True
  | some (.error _), g => Knows activeFd false env g
  | some (.ok _), g    => Knows activeFd false env g ∧ g.Names fd

theorem names_retrLoop (h : Knows activeFd false env g) (hn : g.Names fd) (hf : fd ≠ activeFd) :
    (retrLoop env fd fuel).wp (holds activeFd) (Transfers activeFd env fd) g := by
  induction fuel
  case zero         => trivial
  case succ fuel hi =>
    refine wp_call.mpr ⟨hn, fun buf _ => ?_⟩
    rcases buf with err | ⟨buf, hb⟩
    case error => exact names_perrorDataClose h hn hf fun _ _ h => h
    case ok    =>
      refine wp_if (fun _ => ⟨h, hn⟩) fun _ => wp_call.mpr ⟨h.names_data, fun n _ => ?_⟩
      exact wp_if (fun _ => names_perrorDataClose h hn hf fun _ _ h => h) fun _ => hi

theorem names_storLoop {off : Int} (h : Knows activeFd false env g) (hn : g.Names fd) (hf : fd ≠ activeFd) :
    (storLoop env fd fuel off).wp (holds activeFd) (Transfers activeFd env fd) g := by
  induction fuel generalizing off
  case zero         => trivial
  case succ fuel hi =>
    refine wp_call.mpr ⟨h.names_data, fun readbuf _ => wp_if (fun _ => ⟨h, hn⟩) fun _ => wp_call.mpr ⟨hn, fun n _ => ?_⟩⟩
    exact wp_if (fun _ => names_perrorDataClose h hn hf fun _ _ h => h) fun _ => hi

theorem names_closeReturn {ret : Int} (h : Knows activeFd false env g) (hn : g.Names fd) (hf : fd ≠ activeFd) :
    (perform (.close fd) >>= fun _ => Pure.pure (ret, env)).wp (holds activeFd) (Retains activeFd) g :=
  names_close h hn hf fun _ _ h => retains_some h

-- A transfer ends with the closing of the file and of the data connection.
theorem names_end {done : Bytes} (h : Knows activeFd false env g) (hn : g.Names fd) (hf : fd ≠ activeFd) :
    (perform (.close fd) >>= fun _ => ftpDataClose env >>= fun r => if r ≠ 0 then perror env else reply env done).wp
      (holds activeFd) (Retains activeFd) g :=
  names_close h hn hf fun _ _ h => names_ftpDataClose h fun _ _ h _ => wp_if (fun _ => names_perror h) fun _ => names_reply h

theorem names_ftpCmdRETR (h : Knows activeFd false env g) :
    (ftpCmdRETR fuel env arg).wp (holds activeFd) (Retains activeFd) g := by
  refine wp_if (fun _ => names_reply h) fun _ => wp_call.mpr ⟨trivial, fun st _ => ?_⟩
  rcases st with _ | st
  case none => exact names_perror h
  case some =>
    refine wp_if (fun _ => names_reply h) fun _ => names_open h (fun fd hz => ?_) fun fd g hz h hm hf => ?_
    case refine_1 => exact wp_if (fun _ => wp_call.mpr ⟨trivial, fun text _ => names_reply h⟩) fun hn => absurd hz hn
    refine wp_if (fun hn => absurd hn hz) fun _ => names_ftpActivePrintf h fun r => ?_
    refine wp_if (fun _ => names_closeReturn h (.inl hm) hf) fun _ => names_ftpDataOpen h fun r env g h hsub _ => ?_
    have hm := hsub fd hm
    refine wp_if (fun _ => names_perrorClose h (.inl hm) hf) fun _ => wp_bind.mpr ?_
    apply wp_mono (names_retrLoop h (.inl hm) hf)
    intro o g ht
    rcases o with _ | err | _
    case none       => exact nofun
    case some.error => exact retains_some ht
    case some.ok    => exact names_end ht.left ht.right hf

theorem names_ftpCmdSTOR (h : Knows activeFd false env g) :
    (ftpCmdSTOR fuel env arg).wp (holds activeFd) (Retains activeFd) g := by
  replace h : Knows activeFd false { env with dataOffset := 0 } g := { h with }
  refine wp_if (fun _ => names_reply h) fun _ => names_open h (fun fd hz => ?_) fun fd g hz h hm hf => ?_
  case refine_1 => exact wp_if (fun _ => names_perror h) fun hn => absurd hz hn
  refine wp_if (fun hn => absurd hn hz) fun _ => wp_call.mpr ⟨.inl hm, fun r _ => ?_⟩
  refine wp_if (fun _ => names_perrorClose h (.inl hm) hf) fun _ => names_ftpActivePrintf h fun r => ?_
  refine wp_if (fun _ => names_closeReturn h (.inl hm) hf) fun _ => names_ftpDataOpen h fun r env g h hsub _ => ?_
  have hm := hsub fd hm
  refine wp_if (fun _ => names_perrorClose h (.inl hm) hf) fun _ => wp_bind.mpr ?_
  apply wp_mono (names_storLoop h (.inl hm) hf)
  intro o g ht
  rcases o with _ | err | off
  case none       => exact nofun
  case some.error => exact retains_some ht
  case some.ok    =>
    refine wp_call.mpr ⟨ht.right, fun r _ => wp_if (fun _ => ?_) fun _ => names_end ht.left ht.right hf⟩
    exact names_perrorDataClose ht.left ht.right hf fun _ _ h => retains_some h

theorem names_ftpCmdAPPE (h : Knows activeFd false env g) :
    (ftpCmdAPPE fuel env arg).wp (holds activeFd) (Retains activeFd) g := by
  refine wp_if (fun _ => names_reply h) fun _ => wp_if (fun _ => ?_) fun _ => names_ftpCmdSTOR h
  refine wp_call.mpr ⟨trivial, fun st _ => ?_⟩
  rcases st with _ | st
  case none => exact names_perror h
  case some => exact names_ftpCmdSTOR { h with }

theorem names_ftpCmdREST (h : Knows activeFd false env g) :
    (ftpCmdREST env arg).wp (holds activeFd) (Retains activeFd) g :=
  wp_if (fun _ => names_reply h) fun _ => names_reply { h with }

theorem names_ftpCmdQUIT (h : Knows activeFd false env g) :
    (ftpCmdQUIT env arg).wp (holds activeFd) (Retains activeFd) g :=
  names_ftpActivePrintf h fun _ => retains_some h

theorem names_command (h : Knows activeFd false env g) :
    ∀ c ∈ commands, (c.snd fuel env arg).wp (holds activeFd) (Retains activeFd) g := by
  have hr {text : Bytes} : (reply env text).wp (holds activeFd) (Retains activeFd) g := names_reply h
  have hu : (ftpCmdCDUP env arg).wp (holds activeFd) (Retains activeFd) g := names_reply { h with }
  have hk : (ftpCmdKILL env arg).wp (holds activeFd) (Retains activeFd) g := ⟨trivial, fun _ _ => nofun⟩
  have hc (c : Call) (hd : g.Uses c) (hn : ∀ r, (holds activeFd).next g ⟨c, r⟩ = g) :
      (perform c).wp (holds activeFd) (fun _ g' => g' = g) g := ⟨hd, fun r _ => hn r⟩
  simp only [commands, forall_mem_cons, not_mem_nil, false_implies, implies_true, and_true]
  exact ⟨names_ftpCmdAPPE h, hu, names_ftpCmdCWD h, names_pathCmd h fun _ => hc (.remove _) trivial fun _ => rfl,
    names_ftpCmdLIST h, names_pathCmd h fun _ => hc (.mkdir _ _) trivial fun _ => rfl, hr, names_ftpCmdPASV h,
    names_ftpCmdPORT h, hr, names_ftpCmdQUIT h, names_ftpCmdREST h, names_ftpCmdRETR h,
    names_pathCmd h fun _ => hc (.rmdir _) trivial fun _ => rfl, names_ftpCmdRNFR h, names_ftpCmdRNTO h,
    names_ftpCmdSIZE h, names_ftpCmdSTOR h, hr, names_ftpCmdTYPE h, hr, hk, hr, names_ftpCmdCHMOD h, names_ftpCmdCWD h,
    names_pathCmd h fun _ => hc (.mkdir _ _) trivial fun _ => rfl, hr,
    names_pathCmd h fun _ => hc (.rmdir _) trivial fun _ => rfl, hr, hr, hr, hr⟩

theorem names_ftpExecute {line : Bytes} (h : Knows activeFd false env g) :
    (ftpExecute fuel env line).wp (holds activeFd) (Retains activeFd) g := by
  cases @ftpExecute_eq env fuel line
  case inl hc =>
    have ⟨c, hm, _, he⟩ := hc
    exact he ▸ names_command h c hm
  case inr hc => exact hc.right ▸ names_reply h

theorem names_readlineLoop {b : LineBuffer} (hn : g.Names fd) :
    (readlineLoop fd fuel b).wp (holds activeFd) (fun _ g' => g' = g) g := by
  induction fuel generalizing b
  case zero         => rfl
  case succ fuel hi =>
    refine wp_call.mpr ⟨hn, fun r _ => ?_⟩
    rcases r with (_ | _) | ⟨bs, _⟩
    case error.eintr => exact hi
    case error.other => rfl
    case ok =>
      dsimp only
      split
      · rfl
      · refine wp_if (fun _ => hi) fun _ => wp_if (fun _ => rfl) fun _ => wp_if (fun _ => ?_) fun _ => hi
        refine wp_call.mpr ⟨trivial, fun bs _ => ?_⟩
        cases bs
        case none => rfl
        case some => exact hi

theorem names_ftpReadline (hn : g.Names fd) : (ftpReadline fuel fd).wp (holds activeFd) (fun _ g' => g' = g) g :=
  wp_call.mpr ⟨trivial, fun _ _ => wp_if (fun _ => names_readlineLoop hn) fun _ => rfl⟩

-- The invariant of the loop of a client
theorem names_threadLoop (h : Knows activeFd false env g) :
    (threadLoop fuel env).wp (holds activeFd) (fun o g' => ∀ env', o = some env' → Knows activeFd false env' g') g := by
  induction fuel generalizing env g
  case zero         => exact nofun
  case succ fuel hi =>
    refine wp_bind.mpr (wp_mono (names_ftpReadline h.names_active) ?_)
    rintro o _ rfl
    rcases o with _ | _ | line
    case none => exact nofun
    case some.none =>
      rintro env' ⟨⟩
      exact h
    case some.some =>
      refine wp_bind.mpr (wp_mono (names_ftpExecute h) fun o g' hl => ?_)
      rcases o with _ | ⟨ret, env'⟩
      case none => exact nofun
      case some =>
        refine wp_if (fun _ => ?_) fun _ => hi (hl ret env' rfl)
        rintro env'' ⟨⟩
        exact hl ret env' rfl

-- At the end, the control connection is open, and there are numbers of the others.
theorem names_threadEnd (h : Knows activeFd false env g) :
    (threadEnd env).wp (holds activeFd) (fun _ _ => True) g := by
  have hc {Q : Option Unit → Hold → Prop} {fd : Int} {k : Unit → Proc Unit} {g : Hold} (hn : g.Names fd)
      (hk : ∀ g' : Hold, g'.passive = g.passive → g'.data = g.data → (k ()).wp (holds activeFd) Q g') :
      (closeFd fd >>= k).wp (holds activeFd) Q g :=
    wp_bind.mpr (wp_if (fun _ => ⟨hn, fun _ _ => hk _ rfl rfl⟩) fun _ => hk _ rfl rfl)
  refine hc h.names_active fun g₁ hp₁ hd₁ => hc (.inr (.inl (h.passive.trans hp₁.symm))) fun g₂ _ hd₂ => ?_
  have hn : g₂.Names env.dataFd := .inr (.inr (h.data.trans (hd₂.trans hd₁).symm))
  exact wp_if (fun _ => ⟨hn, fun _ _ => trivial⟩) fun _ => trivial

theorem knows_initEnv (hp : 0 ≤ activeFd) : Knows activeFd false (initEnv activeFd) { fds := {activeFd} } where
  active     := rfl
  mem        := Finset.mem_singleton_self _
  passive    := rfl
  data       := rfl
  passive_ne := (Int.negSucc_lt_zero 0 |>.trans_le hp).ne
  data_ne    := (Int.negSucc_lt_zero 0 |>.trans_le hp).ne
  listening  := rfl

-- Whatever the outcome of its calls, a session makes use of what it has open, and of numbers that its state keeps.
theorem names_ftpThread {compiled : Bytes} (hp : 0 ≤ activeFd) :
    (ftpThread fuel compiled activeFd).wp (holds activeFd) (fun _ _ => True) { fds := {activeFd} } := by
  have h := knows_initEnv hp
  have ht {r : Int} : (if r = 0 then threadLoop fuel (initEnv activeFd) >>= threadEnd
      else Pure.pure (initEnv activeFd) >>= threadEnd).wp (holds activeFd) (fun _ _ => True) { fds := {activeFd} } := by
    refine wp_if (fun _ => wp_bind.mpr (wp_mono (names_threadLoop h) fun o g hl => ?_)) fun _ => names_threadEnd h
    rcases o with _ | env
    case none => trivial
    case some => exact names_threadEnd (hl env rfl)
  exact wp_bind.mpr (wp_call.mpr ⟨trivial, fun pid _ => wp_call.mpr ⟨h.names_active, fun n _ => ht⟩⟩)

end Ftp

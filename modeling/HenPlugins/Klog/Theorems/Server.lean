import HenPlugins.Klog.Server
import HenPlugins.PluginServer.Inventory

open List Prog PluginServer

namespace Klog

-- The clients that are connected are lost if `select` fails. They are the only ones that are written to.
def served : Monitor Result Inventory where
  next g
    | ⟨.open _, fd⟩         => g.gain fd
    | ⟨.accept _, fd⟩       => if fd < (0 : Int) then g else { g.gain fd with clients := insert fd g.clients }
    | ⟨.select .., result⟩  => if result.code = -1 then g.lose g.clients else g
    | ⟨.close fd, _⟩        => g.release fd
    | _                     => g
  Allows g
    | ⟨.open _, fd⟩   => fd ∉ g.opened
    | ⟨.accept _, fd⟩ => fd < (fdSetSize : Int) ∧ fd ∉ g.opened
    | _               => True
  Demands g
    | .open _                   => True
    | .select serverFd fileFd   => serverFd ∈ g.live ∧ fileFd ∈ g.live
    | .accept fd | .read fd | .close fd => fd ∈ g.live
    | .write fd _               => fd ∈ g.clients

-- The inventory of the whole server
def account : Monitor ServerResult Inventory :=
  inventory.sum served

variable {g : Inventory} {s : Clients} {serverFd fileFd fd sockfd : Int} {fuel rounds : Nat} {fds : List Int} {path : Bytes}
  {port : UInt16} {notifyUser : Bool} {ch : UInt8}

-- While clients are served, they, the file and the socket are open.
structure Serves (serverFd fileFd : Int) (s : Clients) (g : Inventory) : Prop where
  live    : g.live = insert serverFd (insert fileFd s.outputSet)
  clients : g.clients = s.outputSet
  range   : ∀ fd ∈ s.outputSet, fd ∈ fdSet
  ne      : serverFd ≠ fileFd
  server  : serverFd ∉ s.outputSet
  file    : fileFd ∉ s.outputSet

namespace Serves

theorem server_mem (h : Serves serverFd fileFd s g) : serverFd ∈ g.live :=
  h.live ▸ Finset.mem_insert_self ..

theorem file_mem (h : Serves serverFd fileFd s g) : fileFd ∈ g.live :=
  h.live ▸ Finset.mem_insert_of_mem (Finset.mem_insert_self ..)

theorem client_mem (h : Serves serverFd fileFd s g) (hf : fd ∈ s.outputSet) : fd ∈ g.live :=
  h.live ▸ Finset.mem_insert_of_mem (Finset.mem_insert_of_mem hf)

theorem start (h : g.Waits serverFd) (hf : ¬fileFd < 0) (hn : fileFd ∉ g.opened) :
    Serves serverFd fileFd .none (g.gain fileFd) where
  live    := by
    rw [Inventory.gain_of_nonneg hf, h.live]
    exact Finset.pair_comm ..
  clients := by
    rw [Inventory.gain_of_nonneg hf]
    exact h.clients
  range   := nofun
  ne      := by
    rintro rfl
    exact Inventory.not_mem_live hn h.mem
  server  := Finset.notMem_empty _
  file    := Finset.notMem_empty _

theorem drop (h : Serves serverFd fileFd s g) (hf : fd ∈ s.outputSet) : Serves serverFd fileFd (s.drop fd) (g.release fd) where
  live    := by
    have hs : fd ≠ serverFd := fun he => h.server (he ▸ hf)
    have hd : fd ≠ fileFd := fun he => h.file (he ▸ hf)
    rw [Inventory.release_live, h.live, Finset.erase_insert_of_ne hs.symm, Finset.erase_insert_of_ne hd.symm]
    rfl
  clients := by
    rw [Inventory.release_clients, h.clients]
    rfl
  range   := fun fd' hm => h.range fd' (Finset.mem_of_mem_erase hm)
  ne      := h.ne
  server  := fun hm => h.server (Finset.mem_of_mem_erase hm)
  file    := fun hm => h.file (Finset.mem_of_mem_erase hm)

theorem add (h : Serves serverFd fileFd s g) (hf : ¬fd < 0) (hr : fd < fdSetSize) (hn : fd ∉ g.opened) :
    Serves serverFd fileFd (s.add fd) { g.gain fd with clients := insert fd g.clients } := by
  have hl := Inventory.not_mem_live hn
  constructor
  case live    =>
    rw [Inventory.gain_of_nonneg hf, h.live, Finset.insert_comm fd, Finset.insert_comm fd]
    rfl
  case clients =>
    rw [h.clients]
    rfl
  case range   => exact Finset.forall_mem_insert _ _ _ |>.mpr ⟨mem_fdSet.mpr ⟨not_lt.mp hf, hr⟩, h.range⟩
  case ne      => exact h.ne
  case server  => exact fun hm => (Finset.mem_insert.mp hm).elim (fun he => hl (he ▸ h.server_mem)) h.server
  case file    => exact fun hm => (Finset.mem_insert.mp hm).elim (fun he => hl (he ▸ h.file_mem)) h.file

-- The file is closed when no client is connected any more.
theorem finish (h : Serves serverFd fileFd s g) (he : s.outputSet = ∅) : (g.release fileFd).Waits serverFd where
  live    := by
    rw [Inventory.release_live, h.live, he, Finset.erase_insert_of_ne h.ne.symm.symm]
    simp
  clients := by simp [h.clients, he]

-- The clients are lost, and the file is closed.
theorem abandon (h : Serves serverFd fileFd s g) : ((g.lose g.clients).release fileFd).Waits serverFd where
  live    := by
    have hs := h.server
    have hf := h.file
    have hne := h.ne
    ext fd
    simp only [Inventory.release_live, Inventory.lose_live, h.live, h.clients, Finset.mem_erase, Finset.mem_sdiff,
      Finset.mem_insert, Finset.mem_singleton]
    constructor
    case mp  => exact fun ⟨hd, hm, hc⟩ => (hm.resolve_right fun hm => (hm.resolve_right hc |> hd))
    case mpr =>
      rintro rfl
      exact ⟨hne, .inl rfl, hs⟩
  clients := by simp

end Serves

theorem serves_broadcast (h : Serves serverFd fileFd s g) :
    (broadcast ch fds s).wp served (fun o g => ∃ s, o = some s ∧ Serves serverFd fileFd s g) g := by
  induction fds generalizing s g
  case nil            => exact ⟨s, rfl, h⟩
  case cons fd fds hi =>
    rw [broadcast]
    refine wp_if (fun hf => wp_call.mpr ⟨(h.clients.symm ▸ hf : fd ∈ g.clients), fun n _ => ?_⟩) fun _ => hi h
    exact wp_if (fun _ => wp_call.mpr ⟨h.client_mem hf, fun r _ => hi (h.drop hf)⟩) fun _ => hi h

theorem serves_acceptClient {selected : Selected} (h : Serves serverFd fileFd s g) :
    (acceptClient serverFd selected s).wp served (fun o g => ∃ r, o = some r ∧ Serves serverFd fileFd (r.getD s) g) g := by
  rw [acceptClient]
  refine wp_if (fun _ => wp_call.mpr ⟨h.server_mem, fun clientFd ha => ?_⟩) fun _ => ⟨some s, rfl, h⟩
  refine wp_if (fun hf => ⟨none, rfl, ?_⟩) fun hf => ⟨some (s.add clientFd), rfl, ?_⟩
  all_goals simp only [served, hf, if_true, if_false]
  · exact h
  · exact h.add hf ha.left ha.right

-- How a round leaves the loop
def Round.Serves (serverFd fileFd : Int) (g : Inventory) : Round → Prop
  | next s | left s _ => Klog.Serves serverFd fileFd s g
  | returned          => g.Waits serverFd

theorem serves_serveRound (h : Serves serverFd fileFd s g) :
    (serveRound serverFd fileFd s).wp served (fun o g => ∃ r, o = some r ∧ r.Serves serverFd fileFd g) g := by
  refine wp_call.mpr ⟨⟨h.server_mem, h.file_mem⟩, fun selected _ => ?_⟩
  by_cases hc : selected.code = -1
  case pos =>
    have hz : selected.code ≠ 0 := by omega
    simp only [served, if_pos hc, if_neg hz]
    have hm : fileFd ∈ (g.lose g.clients).live := by
      rw [Inventory.lose_live, h.clients]
      exact Finset.mem_sdiff.mpr ⟨h.file_mem, h.file⟩
    exact wp_call.mpr ⟨hm, fun r _ => ⟨.returned, rfl, h.abandon⟩⟩
  case neg =>
    simp only [served, if_neg hc]
    refine wp_if (fun _ => ⟨.next s, rfl, h⟩) fun _ => wp_bind.mpr (wp_mono (serves_acceptClient h) ?_)
    rintro _ g ⟨r, rfl, hs⟩
    cases r
    case none   => exact ⟨.left s (-1), rfl, hs⟩
    case some s =>
      refine wp_if (fun _ => wp_call.mpr ⟨hs.file_mem, fun r _ => ?_⟩) fun _ => ⟨.next s, rfl, hs⟩
      cases r
      case none    => exact ⟨.left s (-1), rfl, hs⟩
      case some ch =>
        refine wp_bind.mpr (wp_mono (serves_broadcast hs) ?_)
        rintro _ g ⟨s, rfl, hs⟩
        exact ⟨.next s, rfl, hs⟩

theorem serves_serveLoop (h : Serves serverFd fileFd s g) :
    (serveLoop serverFd fileFd fuel s).wp served
      (fun o g => ∀ e ∈ o, e.elim (g.Waits serverFd) fun e => Serves serverFd fileFd e.1 g) g := by
  induction fuel generalizing s g
  case zero         => exact nofun
  case succ fuel hi =>
    rw [serveLoop, wp_bind]
    refine wp_mono (serves_serveRound h) ?_
    rintro _ g ⟨r, rfl, hr⟩
    cases r
    case left s err =>
      rintro _ ⟨⟩
      exact hr
    case returned   =>
      rintro _ ⟨⟩
      exact hr
    case next s =>
      refine wp_if (fun _ => hi hr) fun _ => ?_
      rintro _ ⟨⟩
      exact hr

theorem serves_closeClients (h : Serves serverFd fileFd s g) (hr : ∀ fd ∈ s.outputSet, fd ∈ fds) :
    (closeClients fds s).wp served
      (fun o g => o = some () ∧ ∃ s : Clients, s.outputSet = ∅ ∧ Serves serverFd fileFd s g) g := by
  induction fds generalizing s g
  case nil =>
    have he : s.outputSet = ∅ := Finset.eq_empty_iff_forall_notMem.mpr fun fd hf => absurd (hr fd hf) not_mem_nil
    exact ⟨rfl, s, he, h⟩
  case cons fd fds hi =>
    rw [closeClients]
    refine wp_if (fun hf => wp_call.mpr ⟨h.client_mem hf, fun r _ => ?_⟩) fun hf => ?_
    case refine_1 =>
      have hd : Serves serverFd fileFd { s with outputSet := s.outputSet.erase fd } (g.release fd) := { h.drop hf with }
      refine hi hd fun fd' hf' => ?_
      have ⟨hne, hm⟩ := Finset.mem_erase.mp hf'
      exact mem_of_ne_of_mem hne (hr fd' hm)
    case refine_2 => exact hi h fun fd' hm => mem_of_ne_of_mem (fun he : fd' = fd => hf (he ▸ hm)) (hr fd' hm)

-- Afterwards there is only the socket again.
theorem serves_serveFileWhileConnected (h : g.Waits serverFd) :
    (serveFileWhileConnected fuel path serverFd).wp served (fun o g => o ≠ none → g.Waits serverFd) g := by
  refine wp_call.mpr ⟨trivial, fun fileFd hn => wp_if (fun hf _ => ?_) fun hf => ?_⟩
  case refine_1 =>
    simp only [served, Inventory.gain_of_neg hf]
    exact h
  case refine_2 =>
    refine wp_bind.mpr (wp_mono (serves_serveLoop (.start h hf hn)) ?_)
    intro o g hl
    rcases o with _ | _ | ⟨s, err⟩
    case none      => exact absurd rfl
    case some.none => exact fun _ => hl _ rfl
    case some.some =>
      have hs : Serves serverFd fileFd s g := hl _ rfl
      refine wp_bind.mpr (wp_mono (serves_closeClients hs hs.range) ?_)
      rintro _ g ⟨rfl, s, he, hs⟩
      exact wp_call.mpr ⟨hs.file_mem, fun r _ _ => hs.finish he⟩

theorem account_waitLoop (h : g.Waits sockfd) :
    (waitLoop path sockfd fuel).wp account (fun o g => o ≠ none → g.Idle) g := by
  induction fuel generalizing g
  case zero         => exact absurd rfl
  case succ fuel hi =>
    refine wp_call.mpr ⟨h.mem, fun selected _ => wp_if (fun hc _ => ?_) fun hc => ?_⟩
    case refine_1 =>
      have hg : account.next g ⟨.inl (.select sockfd), selected⟩ = g.lose {sockfd} := if_pos hc
      exact hg ▸ h.lose
    case refine_2 =>
      have hg : account.next g ⟨.inl (.select sockfd), selected⟩ = g := if_neg hc
      rw [hg]
      refine wp_if (fun _ => wp_bind.mpr (wp_inr.mpr (wp_mono (serves_serveFileWhileConnected h) ?_))) fun _ => hi h
      intro o g hw
      rcases o with _ | r
      case none => exact absurd rfl
      case some =>
        have hw := hw (Option.some_ne_none r)
        exact wp_if (fun _ => wp_call.mpr ⟨hw.mem, fun _ _ _ => hw.release⟩) fun _ => hi hw

theorem serveNotify_within {ip name : Bytes} :
    (serveNotify path port notifyUser ip name).wp (within IsNotify) (fun o _ => o ≠ none) () :=
  wp_if (fun _ => ⟨trivial, fun _ _ => nofun⟩) fun _ => nofun

theorem account_serveFile (h : g.Idle) :
    (serveFile fuel path port notifyUser).wp account (fun o g => o ≠ none → g.Idle) g := by
  refine wp_call.mpr ⟨trivial, fun ifaddr _ => ?_⟩
  rcases ifaddr with _ | ifaddr
  case none => exact fun _ => h
  case some =>
    refine wp_bind.mpr (wp_inl.mpr (wp_mono (enumerate_inventory fun _ _ => serveNotify_within) ?_))
    rintro o _ ⟨ho, rfl⟩
    rcases o with _ | ifaddrWait
    case none => exact absurd rfl ho
    case some =>
      refine wp_call.mpr ⟨trivial, fun _ _ => wp_if (fun _ _ => h) fun _ => wp_call.mpr ⟨trivial, fun (sockfd : Int) _ => ?_⟩⟩
      refine wp_if (fun hf _ => h.gain_of_neg hf) fun hf => ?_
      have hs := h.gain hf
      refine wp_call.mpr ⟨hs.mem, fun (r : Int) hr => wp_if (fun hn _ => hs.failed hn.ne) fun hn => ?_⟩
      have hs := hs.done (eq_zero_of_nonneg hr hn)
      refine wp_call.mpr ⟨hs.mem, fun (r : Int) hr => wp_if (fun hn _ => hs.failed hn.ne) fun hn => ?_⟩
      have hs := hs.done (eq_zero_of_nonneg hr hn)
      refine wp_call.mpr ⟨hs.mem, fun (r : Int) hr => wp_if (fun hn _ => hs.failed hn.ne) fun hn => ?_⟩
      exact account_waitLoop (hs.done (eq_zero_of_nonneg hr hn))

theorem account_kserverLoop (h : g.Idle) :
    (kserverLoop fuel rounds notifyUser).wp account (fun o _ => o = none) g := by
  induction rounds generalizing g notifyUser
  case zero           => rfl
  case succ rounds hi =>
    refine wp_bind.mpr (wp_mono (account_serveFile h) fun o g hg => ?_)
    rcases o with _ | r
    case none => rfl
    case some => exact wp_call.mpr ⟨(hg nofun).live, fun _ _ => hi (hg nofun)⟩

theorem account_pthreadKserver : (pthreadKserver fuel).wp account (fun o _ => o = none) .init :=
  account_kserverLoop ⟨rfl, rfl⟩

-- In every run, the server only makes use of descriptors that it has open, and closes each of them at most once. When
-- it goes to sleep, what is open has been lost to failures.
theorem pthreadKserver_accounts {t : Trace ServerResult} {o : Option Unit} (ho : (pthreadKserver fuel).Observed t o)
    (ha : account.Allowed .init t) : account.Met .init t :=
  (wp_sound account_pthreadKserver ho ha).left

-- A client is connected when `select` fails. The socket is closed, and the client is lost.
def lostSample : Trace ServerResult :=
  [⟨.inl .getifaddrs, some [⟨bytes "lo0", some ⟨afInet, 0x0100007f⟩⟩, ⟨bytes "eth0", some ⟨afInet, 0x0100000a⟩⟩]⟩,
    ⟨.inl (.notify (bytes "Serving %s\non %s:%d (%s)") [bytes "/dev/klog", bytes "10.0.0.1", bytes "3232", bytes "eth0"]), ()⟩,
    ⟨.inl .freeifaddrs, ()⟩, ⟨.inl .socket, (5 : Int)⟩, ⟨.inl (.setsockopt 5), (0 : Int)⟩,
    ⟨.inl (.bind 5 3232), (0 : Int)⟩, ⟨.inl (.listen 5 5), (0 : Int)⟩, ⟨.inl (.select 5), (⟨1, true⟩ : PluginServer.Selected)⟩,
    ⟨.inr (.open (bytes "/dev/klog")), (6 : Int)⟩, ⟨.inr (.select 5 6), (⟨1, true, false⟩ : Selected)⟩,
    ⟨.inr (.accept 5), (7 : Int)⟩, ⟨.inr (.select 5 6), (⟨-1, false, false⟩ : Selected)⟩, ⟨.inr (.close 6), (0 : Int)⟩,
    ⟨.inl (.close 5), (0 : Int)⟩, ⟨.inl (.sleep 3), ()⟩,
    ⟨.inl .getifaddrs, (none : Option (List Ifaddr))⟩, ⟨.inl (.sleep 3), ()⟩,
    ⟨.inl .getifaddrs, (none : Option (List Ifaddr))⟩, ⟨.inl (.sleep 3), ()⟩]

example : (account.after .init lostSample).lost = {7} := by decide +kernel

theorem pthreadKserver_accounts_sample : account.Met .init lostSample := by
  have ho : (pthreadKserver 3).Observed lostSample none := observed_of_replay (by decide +kernel)
  refine pthreadKserver_accounts ho ?_
  simp [lostSample, account, Monitor.sum, inventory, served, Inventory.init, Inventory.gain, Inventory.opened, Inventory.release]

end Klog

import HenPlugins.Klog.Basic

open List Prog

namespace Klog

-- What is observed of a client: the bytes that are read from the file while it is connected, the ones that
-- are successfully written to it, and the one that could not be written.
structure Connection where
  fd     : Int
  due    : Bytes
  sent   : Bytes
  failed : Option UInt8
  closed : Bool

namespace Connection

def new (fd : Int) : Connection where
  fd     := fd
  due    := []
  sent   := []
  failed := none
  closed := false

def update (e : Event Result) (c : Connection) : Connection :=
  match e with
  | ⟨.read _, some ch⟩ => if c.closed then c else { c with due := c.due ++ [ch] }
  | ⟨.write fd ch, n⟩  =>
    if c.closed ∨ c.fd ≠ fd then c
    else if n = (1 : Int) then { c with sent := c.sent ++ [ch] }
    else { c with failed := some ch }
  | ⟨.close fd, _⟩ => if c.fd = fd then { c with closed := true } else c
  | _              => c

def Delivered (c : Connection) : Prop :=
  c.sent ++ c.failed.toList = c.due

section

variable {c : Connection} {e : Event Result} {r : Int}

@[simp]
theorem update_fd : (c.update e).fd = c.fd := by
  fun_cases update e c
  all_goals rfl

theorem update_of_closed (h : c.closed) : c.update e = c := by
  fun_cases update e c
  case case6 => simp [← h]
  all_goals simp_all

-- Only a call of `close` closes a connection.
theorem closed_update (h : ∀ fd, e.call ≠ .close fd) : (c.update e).closed = c.closed := by
  fun_cases update e c
  case case6 => exact absurd rfl (h _)
  all_goals rfl

@[simp]
theorem closed_update_close {fd : Int} : (c.update ⟨.close fd, r⟩).closed = (c.closed || c.fd = fd) := by
  by_cases h : c.fd = fd
  case pos => simp [update, h]
  case neg => simp [update, h]

end

end Connection

abbrev Ledger := List Connection

-- A descriptor is not given to two clients at the same time, and it fits into the set.
def ledger : Monitor Result Ledger where
  next g e :=
    match e with
    | ⟨.accept _, fd⟩ => if fd < (0 : Int) then g else Connection.new fd :: g
    | e               => g.map (Connection.update e)
  Allows g e :=
    match e with
    | ⟨.accept _, fd⟩ => fd < (fdSetSize : Int) ∧ ∀ c ∈ g, ¬c.closed → c.fd ≠ fd
    | _               => True

variable {fds : List Int} {s s' : Clients} {g : Ledger} {c : Connection} {t t' : Trace Result}
variable {ch b : UInt8} {fd serverFd fileFd n : Int} {pending path : Bytes} {fuel : Nat} {o : Option Int}

-- The descriptors in `fds` are still to be sent what is pending.
structure Connection.Waiting (pending : Bytes) (fds : List Int) (c : Connection) : Prop where
  failed : c.failed = none
  due    : c.due = c.sent ++ if c.fd ∈ fds then pending else []

-- The clients of the loop are the ones that are connected.
structure Serving (pending : Bytes) (fds : List Int) (s : Clients) (g : Ledger) : Prop where
  count   : s.nbConnections.toNat = s.outputSet.card
  range   : ∀ fd ∈ s.outputSet, fd ∈ fdSet
  clients : ∀ fd, fd ∈ s.outputSet ↔ ∃ c ∈ g, ¬c.closed ∧ c.fd = fd
  closed  : ∀ c ∈ g, c.closed → c.Delivered
  waiting : ∀ c ∈ g, ¬c.closed → c.Waiting pending fds

theorem Connection.Waiting.tail (h : c.Waiting pending (fd :: fds)) (hf : c.fd ≠ fd) : c.Waiting pending fds where
  failed := h.failed
  due    := by simpa [hf] using h.due

namespace Serving

theorem delivered (h : Serving pending [] s g) : ∀ c ∈ g, c.Delivered := by
  intro c hc
  by_cases hn : c.closed
  case pos => exact h.closed c hc hn
  case neg =>
    have hw := h.waiting c hc hn
    simp [Connection.Delivered, hw.failed, hw.due]

theorem card_le (h : Serving pending fds s g) : s.outputSet.card ≤ fdSetSize := by
  have hs : s.outputSet ⊆ fdSet.toFinset := fun fd hf => mem_toFinset.mpr (h.range fd hf)
  exact length_fdSet ▸ (Finset.card_le_card hs).trans (toFinset_card_le _)

-- Nothing is pending if it is not pending at any descriptor.
theorem nil (h : Serving pending [] s g) : Serving [] [] s g :=
  { h with waiting := fun c hc hn =>
      have hw := h.waiting c hc hn
      { hw with due := by simpa using hw.due } }

theorem init : Serving [] [] .none [] where
  count   := rfl
  range   := by simp [Clients.none]
  clients := by simp [Clients.none]
  closed  := by simp
  waiting := by simp

-- Nobody waits at a descriptor that is not in the set.
theorem skip (h : Serving pending (fd :: fds) s g) (hf : fd ∉ s.outputSet) : Serving pending fds s g :=
  { h with waiting := fun c hc hn =>
      (h.waiting c hc hn).tail fun he => hf <| (h.clients fd).mpr ⟨c, hc, hn, he⟩ }

theorem update {e : Event Result} {pending' : Bytes} {fds' : List Int} (h : Serving pending fds s g)
    (he : ∀ fd, e.call ≠ .close fd) (hw : ∀ c ∈ g, ¬c.closed → c.Waiting pending fds → (c.update e).Waiting pending' fds') :
    Serving pending' fds' s (g.map (Connection.update e)) where
  count   := h.count
  range   := h.range
  clients := by simpa [Connection.closed_update he] using h.clients
  closed  := by
    rw [forall_mem_map]
    intro c hc hn
    rw [Connection.closed_update he] at hn
    rw [Connection.update_of_closed hn]
    exact h.closed c hc hn
  waiting := by
    rw [forall_mem_map]
    intro c hc hn
    rw [Connection.closed_update he] at hn
    exact hw c hc hn (h.waiting c hc hn)

-- What has been read is pending at all clients.
theorem read (h : Serving [] [] s g) : Serving [ch] fdSet s (ledger.next g ⟨.read fileFd, some ch⟩) := by
  refine h.update (e := ⟨.read fileFd, some ch⟩) (by simp) fun c hc hn hw => ?_
  have hm : c.fd ∈ fdSet := h.range _ <| (h.clients _).mpr ⟨c, hc, hn, rfl⟩
  constructor
  case failed => simp [Connection.update, hn, hw.failed]
  case due    => simp [Connection.update, hn, hw.due, hm]

theorem sent (h : Serving [ch] (fd :: fds) s g) (hf : fd ∉ fds) :
    Serving [ch] fds s (ledger.next g ⟨.write fd ch, (1 : Int)⟩) := by
  refine h.update (e := ⟨.write fd ch, (1 : Int)⟩) (by simp) fun c hc hn hw => ?_
  by_cases he : c.fd = fd
  case neg =>
    have hu : c.update ⟨.write fd ch, (1 : Int)⟩ = c := if_pos (.inr he)
    exact hu.symm ▸ hw.tail he
  case pos =>
    constructor
    case failed => simp [Connection.update, hn, he, hw.failed]
    case due    => simp [Connection.update, hn, he, hw.due, hf]

theorem add (h : Serving [] [] s g) (hf : ¬fd < 0) (ha : ledger.Allows g ⟨.accept serverFd, fd⟩) :
    Serving [] [] (s.add fd) (ledger.next g ⟨.accept serverFd, fd⟩) := by
  have ⟨hl, hn⟩ := ha
  have hg : ledger.next g ⟨.accept serverFd, fd⟩ = Connection.new fd :: g := if_neg hf
  have hs : fd ∉ s.outputSet := fun hs =>
    have ⟨c, hc, hnc, he⟩ := (h.clients fd).mp hs
    hn c hc hnc he
  rw [hg]
  constructor
  case count =>
    have hc := h.count
    have hl := h.card_le
    simp only [Clients.add, Finset.card_insert_of_notMem hs, fdSetSize] at *
    bv_omega
  case range =>
    simp only [Clients.add, Finset.mem_insert, forall_eq_or_imp]
    exact ⟨mem_fdSet.mpr ⟨not_lt.mp hf, hl⟩, h.range⟩
  case clients =>
    intro fd'
    rw [Clients.add, Finset.mem_insert, h.clients, exists_mem_cons_iff]
    simp [Connection.new, eq_comm (a := fd')]
  case closed  => simpa [Connection.new] using h.closed
  case waiting =>
    rw [forall_mem_cons]
    exact ⟨fun _ => ⟨rfl, rfl⟩, h.waiting⟩

-- A client to which a byte could not be written is dropped.
theorem drop (h : Serving [ch] (fd :: fds) s g) (hs : fd ∈ s.outputSet) (hn : n ≠ 1) {r : Int} :
    Serving [ch] fds (s.drop fd) (ledger.next (ledger.next g ⟨.write fd ch, n⟩) ⟨.close fd, r⟩) := by
  have hg : ledger.next (ledger.next g ⟨.write fd ch, n⟩) ⟨.close fd, r⟩ =
      g.map fun c => (c.update ⟨.write fd ch, n⟩).update ⟨.close fd, r⟩ := map_map
  have hcl (c : Connection) : ((c.update ⟨.write fd ch, n⟩).update ⟨.close fd, r⟩).closed = (c.closed || c.fd = fd) := by
    rw [Connection.closed_update_close, Connection.closed_update (by simp), Connection.update_fd]
  rw [hg]
  constructor
  case count =>
    have hc := h.count
    have hp := Finset.card_pos.mpr ⟨fd, hs⟩
    simp only [Clients.drop, Finset.card_erase_of_mem hs]
    bv_omega
  case range   => exact fun fd' hm => h.range fd' (Finset.mem_of_mem_erase hm)
  case clients =>
    intro fd'
    simp only [Clients.drop, Finset.mem_erase, h.clients, mem_map, exists_exists_and_eq_and, hcl, Connection.update_fd]
    grind
  case closed =>
    rw [forall_mem_map]
    intro c hc hn'
    by_cases hcc : c.closed
    case pos =>
      rw [Connection.update_of_closed hcc, Connection.update_of_closed hcc]
      exact h.closed c hc hcc
    case neg =>
      have he : c.fd = fd := by simpa [hcl, hcc] using hn'
      have hw := h.waiting c hc hcc
      simp [Connection.Delivered, Connection.update, hcc, he, hn, hw.due]
  case waiting =>
    rw [forall_mem_map]
    intro c hc hn'
    simp only [hcl, Bool.or_eq_true, decide_eq_true_eq, not_or] at hn'
    have ⟨hcc, he⟩ := hn'
    have hw := (h.waiting c hc hcc).tail he
    have hu : (c.update ⟨.write fd ch, n⟩).update ⟨.close fd, r⟩ = c := by simp [Connection.update, he]
    rwa [hu]

end Serving

theorem wp_broadcast (hf : fds.Nodup) (h : Serving [ch] fds s g) :
    (broadcast ch fds s).wp ledger (fun o g => ∃ s, o = some s ∧ Serving [ch] [] s g) g := by
  induction fds generalizing s g
  case nil => exact ⟨s, rfl, h⟩
  case cons fd fds hi =>
    have ⟨hn, hf⟩ := nodup_cons.mp hf
    rw [broadcast, wp_ite]
    split
    case isFalse hs => exact hi hf (h.skip hs)
    case isTrue hs =>
      simp only [perform, wp_bind, wp_perform, wp_ite, Option.elim_some]
      refine ⟨trivial, fun n _ => ?_⟩
      split
      case isTrue hn  => exact ⟨trivial, fun r _ => hi hf (h.drop hs hn)⟩
      case isFalse hn =>
        rw [not_not] at hn
        exact hi hf (hn ▸ h.sent ‹_›)

-- The state in which a round ends.
def Round.Served (g : Ledger) : Round → Prop
  | next s | left s _ => Serving [] [] s g
  | returned          => ∀ c ∈ g, c.Delivered

theorem Connection.Delivered.close {r : Int} (h : c.Delivered) : (c.update ⟨.close fd, r⟩).Delivered := by
  by_cases he : c.fd = fd
  case pos => simpa [Connection.update, Connection.Delivered, he] using h
  case neg => simpa [Connection.update, he] using h

theorem delivered_close {r : Int} (h : ∀ c ∈ g, c.Delivered) : ∀ c ∈ ledger.next g ⟨.close fd, r⟩, c.Delivered :=
  forall_mem_map.mpr fun c hc => (h c hc).close

theorem wp_acceptClient {selected : Selected} (h : Serving [] [] s g) :
    (acceptClient serverFd selected s).wp ledger (fun o g => ∃ r, o = some r ∧ Serving [] [] (r.getD s) g) g := by
  rw [acceptClient, wp_ite]
  split
  case isFalse => exact ⟨some s, rfl, h⟩
  case isTrue =>
    simp only [perform, wp_bind, wp_perform, wp_ite, Option.elim_some]
    refine ⟨trivial, fun clientFd ha => ?_⟩
    split
    case isFalse hf => exact ⟨_, rfl, h.add hf ha⟩
    case isTrue hf =>
      have hg : ledger.next g ⟨.accept serverFd, clientFd⟩ = g := if_pos hf
      exact ⟨_, rfl, hg.symm ▸ h⟩

theorem wp_serveData (h : Serving [] [] s g) :
    (serveData fileFd s).wp ledger (fun o g => ∃ r, o = some r ∧ r.Served g) g := by
  simp only [serveData, perform, wp_bind, wp_perform, Option.elim_some]
  refine ⟨trivial, fun r _ => ?_⟩
  cases hr : r
  case none =>
    have hg : ledger.next g ⟨.read fileFd, none⟩ = g := map_id g
    exact ⟨_, rfl, hg.symm ▸ h⟩
  case some ch =>
    have hs : Serving [ch] fdSet s (ledger.next g ⟨.read fileFd, some ch⟩) := h.read
    rw [wp_bind]
    apply wp_mono (wp_broadcast nodup_fdSet hs)
    rintro _ g ⟨s, rfl, hs⟩
    exact ⟨_, rfl, hs.nil⟩

theorem wp_serveRound (h : Serving [] [] s g) :
    (serveRound serverFd fileFd s).wp ledger (fun o g => ∃ r, o = some r ∧ r.Served g) g := by
  simp only [serveRound, perform, wp_bind, wp_perform, wp_ite, Option.elim_some]
  refine ⟨trivial, fun selected _ => ?_⟩
  have hg : ledger.next g ⟨.select serverFd fileFd, selected⟩ = g := map_id g
  rw [hg]
  split
  case isTrue => exact ⟨_, rfl, h⟩
  case isFalse =>
    split
    case isTrue => exact ⟨trivial, fun r _ => ⟨_, rfl, delivered_close h.delivered⟩⟩
    case isFalse =>
      apply wp_mono (wp_acceptClient h)
      rintro _ g ⟨r, rfl, hs⟩
      cases r
      case none => exact ⟨_, rfl, hs⟩
      case some s =>
        simp only [Option.elim_some, wp_ite]
        split
        case isTrue  => exact wp_serveData hs
        case isFalse => exact ⟨_, rfl, hs⟩

theorem wp_serveLoop (h : Serving [] [] s g) :
    (serveLoop serverFd fileFd fuel s).wp ledger (fun _ g => ∀ c ∈ g, c.Delivered) g := by
  induction fuel generalizing s g
  case zero => exact h.delivered
  case succ fuel hi =>
    rw [serveLoop, wp_bind]
    apply wp_mono (wp_serveRound h)
    rintro _ g ⟨r, rfl, hr⟩
    cases r
    case left s err => exact hr.delivered
    case returned   => exact hr
    case next s =>
      simp only [Option.elim_some, wp_ite]
      split
      case isTrue  => exact hi hr
      case isFalse => exact hr.delivered

theorem wp_closeClients (h : ∀ c ∈ g, c.Delivered) :
    (closeClients fds s).wp ledger (fun _ g => ∀ c ∈ g, c.Delivered) g := by
  induction fds generalizing s g
  case nil => exact h
  case cons fd fds hi =>
    rw [closeClients, wp_ite]
    split
    case isTrue  => exact ⟨trivial, fun r _ => hi (delivered_close h)⟩
    case isFalse => exact hi h

theorem wp_serveFileWhileConnected :
    (serveFileWhileConnected fuel path serverFd).wp ledger (fun _ g => ∀ c ∈ g, c.Delivered) [] := by
  simp only [serveFileWhileConnected, perform, wp_bind, wp_perform, wp_ite, Option.elim_some]
  refine ⟨trivial, fun fileFd _ => ?_⟩
  split
  case isTrue => simp [ledger]
  case isFalse =>
    apply wp_mono (wp_serveLoop Serving.init)
    intro o g h
    rcases o with _ | _ | r
    case none      => exact h
    case some.none => exact h
    case some.some =>
      obtain ⟨s, err⟩ := r
      have hc : (closeClients fdSet s).wp ledger (fun _ g => ∀ c ∈ g, c.Delivered) g := wp_closeClients h
      simp only [Option.elim_some, wp_bind]
      apply wp_mono hc
      intro o g h
      cases o
      case none => exact h
      case some => exact ⟨trivial, fun r _ => delivered_close h⟩

-- The rounds of the loop that lead from one state to another one.
inductive Rounds (serverFd fileFd : Int) : Clients → Trace Result → Clients → Prop
  | refl {s : Clients} : Rounds serverFd fileFd s [] s
  | head {s₁ s₂ s₃ : Clients} {t t' : Trace Result}
    (hr : (serveRound serverFd fileFd s₁).Observed t (some (.next s₂))) (h : Rounds serverFd fileFd s₂ t' s₃) :
    Rounds serverFd fileFd s₁ (t ++ t') s₃

theorem Rounds.serving (h : Rounds serverFd fileFd s t s') (ha : ledger.Allowed g t) (hs : Serving [] [] s g) :
    Serving [] [] s' (ledger.after g t) := by
  induction h generalizing g
  case refl => exact hs
  case head hr _ hi =>
    rw [Monitor.allowed_append] at ha
    have ⟨_, r, he, hs⟩ := wp_sound (wp_serveRound hs) hr ha.left
    obtain rfl : Round.next _ = r := Option.some.inj he
    rw [Monitor.after_append]
    exact hi ha.right hs

-- What a round leaves to the rest of the function if the loop ends with it.
def Round.exit : Round → Option (Clients × Int)
  | next s     => some (s, 0)
  | left s err => some (s, err)
  | returned   => none

-- What is observed of the loop is a number of rounds, with a last one unless the loop is stopped in between.
theorem rounds_of_observed {o : Option (Option (Clients × Int))} (h : (serveLoop serverFd fileFd fuel s).Observed t o) :
    ∃ t₁ t₂ s', t = t₁ ++ t₂ ∧ Rounds serverFd fileFd s t₁ s' ∧
      (t₂ = [] ∧ o = none ∨ ∃ r, (serveRound serverFd fileFd s').Observed t₂ r ∧ o = r.map Round.exit) := by
  induction fuel generalizing s t
  case zero =>
    cases h
    exact ⟨[], [], s, rfl, .refl, .inl ⟨rfl, rfl⟩⟩
  case succ fuel hi =>
    cases observed_bind h
    case inl h => exact ⟨[], t, s, rfl, .refl, .inr ⟨none, h.left, h.right⟩⟩
    case inr h =>
      have ⟨r, t₁, t₂, ht, hr, h⟩ := h
      -- The loop ends with this round.
      have hl (ht₂ : t₂ = []) (ho : o = some r.exit) :
          ∃ t₁ t₂ s', t = t₁ ++ t₂ ∧ Rounds serverFd fileFd s t₁ s' ∧
            (t₂ = [] ∧ o = none ∨ ∃ r, (serveRound serverFd fileFd s').Observed t₂ r ∧ o = r.map Round.exit) := by
        rw [ht₂, append_nil] at ht
        exact ⟨[], t₁, s, ht, .refl, .inr ⟨some r, hr, ho⟩⟩
      cases r
      case left s err =>
        cases h
        exact hl rfl rfl
      case returned =>
        cases h
        exact hl rfl rfl
      case next s' =>
        dsimp only at h
        split at h
        case isFalse =>
          cases h
          exact hl rfl rfl
        case isTrue =>
          have ⟨t₃, t₄, s'', ht', hs, h⟩ := hi h
          exact ⟨t₁ ++ t₃, t₄, s'', by rw [ht, ht', append_assoc], .head hr hs, h⟩

-- At the end of the function and after each round, every client has been sent what has been read since it was
-- accepted. Only the last byte is missing if the client was dropped because of it.
theorem serveFileWhileConnected_delivers (ho : (serveFileWhileConnected fuel path serverFd).Observed t o)
    (ha : ledger.Allowed [] t) :
    (∀ c ∈ ledger.after [] t, c.Delivered) ∧
      ∀ fileFd t₁ t₂ s, t = ⟨.open path, fileFd⟩ :: (t₁ ++ t₂) → Rounds serverFd fileFd .none t₁ s →
        s.nbConnections.toNat = s.outputSet.card ∧
          (∀ fd, fd ∈ s.outputSet ↔ ∃ c ∈ ledger.after [] t₁, ¬c.closed ∧ c.fd = fd) ∧
            ∀ c ∈ ledger.after [] t₁, c.Delivered := by
  constructor
  case left => exact (wp_sound wp_serveFileWhileConnected ho ha).right
  case right =>
    rintro fileFd t₁ t₂ s rfl hr
    have hs := hr.serving (Monitor.allowed_append.mp ha.right).left .init
    exact ⟨hs.count, hs.clients, hs.delivered⟩

-- A client is accepted, sent a byte and dropped at the second one.
def dropSample : Trace Result :=
  [⟨.open [], (3 : Int)⟩, ⟨.select 4 3, (⟨2, true, true⟩ : Selected)⟩, ⟨.accept 4, (5 : Int)⟩,
    ⟨.read 3, some (97 : UInt8)⟩, ⟨.write 5 97, (1 : Int)⟩, ⟨.select 4 3, (⟨1, false, true⟩ : Selected)⟩,
    ⟨.read 3, some (98 : UInt8)⟩, ⟨.write 5 98, (-1 : Int)⟩, ⟨.close 5, (0 : Int)⟩, ⟨.close 3, (0 : Int)⟩]

theorem serveFileWhileConnected_sample : (⟨5, [97, 98], [97], some 98, true⟩ : Connection).Delivered := by
  have ho : (serveFileWhileConnected 2 [] 4).Observed dropSample (some 0) := observed_of_replay (by decide +kernel)
  have ha : ledger.Allowed [] dropSample := by simp [dropSample, ledger]
  exact (serveFileWhileConnected_delivers ho ha).left _ (.head _)

end Klog

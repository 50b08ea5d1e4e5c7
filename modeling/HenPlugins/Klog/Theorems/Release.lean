import HenPlugins.Klog.Basic

open List Prog

namespace Klog

-- A descriptor that has been opened, and how often it has been closed since then.
structure Descriptor where
  fd     : Int
  client : Bool
  closes : Nat
deriving DecidableEq

abbrev Descriptor.Connected (d : Descriptor) : Prop :=
  d.client ∧ d.closes = 0

-- The last descriptor of this number is the one that is closed.
def closeLast (fd : Int) : List Descriptor → List Descriptor
  | []      => []
  | d :: ds => if d.fd = fd then { d with closes := d.closes + 1 } :: ds else d :: closeLast fd ds

-- All descriptors that have been opened, the last one first, and whether `select` has failed while a client was
-- connected.
structure Custody where
  descriptors : List Descriptor
  abandoned   : Bool

def Custody.init : Custody where
  descriptors := []
  abandoned   := false

def Custody.open (g : Custody) (fd : Int) (client : Bool) : Custody :=
  if fd < 0 then g else { g with descriptors := ⟨fd, client, 0⟩ :: g.descriptors }

-- A client is not given a number that is in use, and it fits into the set.
def custody : Monitor Result Custody where
  next g e :=
    match e with
    | ⟨.open _, fd⟩         => g.open fd false
    | ⟨.accept _, fd⟩       => g.open fd true
    | ⟨.close fd, _⟩        => { g with descriptors := closeLast fd g.descriptors }
    | ⟨.select _ _, result⟩ =>
      { g with abandoned := g.abandoned || (result.code = -1 ∧ ∃ d ∈ g.descriptors, d.Connected) }
    | _                     => g
  Allows g e :=
    match e with
    | ⟨.accept _, fd⟩ => fd < (fdSetSize : Int) ∧ ∀ d ∈ g.descriptors, d.fd = fd → d.closes ≠ 0
    | _               => True

def Released (g : Custody) : Prop :=
  ∀ d ∈ g.descriptors, d.closes = 1

-- `select` fails while a client is connected.

def SelectFails (g : Custody) : Event Result → Prop
  | ⟨.select _ _, result⟩ => result.code = -1 ∧ ∃ d ∈ g.descriptors, d.Connected
  | _                     => False

def Abandons (t : Trace Result) : Prop :=
  ∃ t₁ e t₂, t = t₁ ++ e :: t₂ ∧ SelectFails (custody.after .init t₁) e

variable {d : Descriptor} {ds fds' : List Descriptor} {fd fileFd serverFd r : Int} {clients : Finset Int} {s : Clients}
  {g : Custody} {t : Trace Result} {fds : List Int} {fuel : Nat} {path : Bytes} {ch : UInt8}

section Ledger

-- An older descriptor of the same number has been closed.
def Ordered (ds : List Descriptor) : Prop :=
  ds.Pairwise fun d d' => d.fd = d'.fd → d'.closes ≠ 0

-- If a descriptor of the number is open, then it is the last one.
theorem closeLast_eq (ho : Ordered ds) (h : ∃ d ∈ ds, d.fd = fd ∧ d.closes = 0) :
    closeLast fd ds = ds.map fun d => if d.fd = fd ∧ d.closes = 0 then { d with closes := 1 } else d := by
  induction ds
  case nil          => rfl
  case cons d ds hi =>
    have ⟨hd, ho⟩ := pairwise_cons.mp ho
    rw [closeLast, map_cons]
    split
    case isTrue hf =>
      have hc : d.closes = 0 := by
        obtain ⟨d', hm, hf', hc⟩ := h
        obtain rfl | hm := mem_cons.mp hm
        · exact hc
        · exact absurd hc (hd d' hm (hf.trans hf'.symm))
      rw [if_pos ⟨hf, hc⟩, hc, map_congr_left (g := id), map_id]
      intro d' hm
      exact if_neg fun hc' => hd d' hm (hf.trans hc'.left.symm) hc'.right
    case isFalse hf =>
      rw [if_neg fun hc => hf hc.left, hi ho]
      obtain ⟨d', hm, hf', hc⟩ := h
      obtain rfl | hm := mem_cons.mp hm
      · exact absurd hf' hf
      · exact ⟨d', hm, hf', hc⟩

theorem Ordered.eq_of_open {d' : Descriptor} (ho : Ordered ds) (h : d ∈ ds) (hc : d.closes = 0) (h' : d' ∈ ds)
    (hc' : d'.closes = 0) (hf : d.fd = d'.fd) : d = d' := by
  induction ds
  case nil           => contradiction
  case cons d₀ ds hi =>
    have ⟨hd, ho⟩ := pairwise_cons.mp ho
    obtain rfl | hm := mem_cons.mp h
    all_goals obtain rfl | hm' := mem_cons.mp h'
    · rfl
    · exact absurd hc' (hd d' hm' hf)
    · exact absurd hc (hd d hm hf.symm)
    · exact hi ho hm hm'

end Ledger

-- What the function has opened: the file, and the clients, of which the ones in the set are connected.
structure Keeps (fileFd : Int) (clients : Finset Int) (ds : List Descriptor) : Prop where
  ordered : Ordered ds
  once    : ∀ d ∈ ds, d.closes ≤ 1
  clients : ∀ fd, fd ∈ clients ↔ ∃ d ∈ ds, d.Connected ∧ d.fd = fd
  file    : ∀ d ∈ ds, d.client = false → d.fd = fileFd ∧ d.closes = 0
  opened  : ∃ d ∈ ds, d.client = false

namespace Keeps

theorem start : Keeps fileFd ∅ [⟨fileFd, false, 0⟩] where
  ordered := pairwise_singleton ..
  once    := by simp
  clients := by simp
  file    := by simp
  opened  := by simp

theorem add (h : Keeps fileFd clients ds) (hn : ∀ d ∈ ds, d.fd = fd → d.closes ≠ 0) :
    Keeps fileFd (insert fd clients) (⟨fd, true, 0⟩ :: ds) where
  ordered := pairwise_cons.mpr ⟨fun d hd he => hn d hd he.symm, h.ordered⟩
  once    := forall_mem_cons.mpr ⟨Nat.zero_le 1, h.once⟩
  clients := by
    intro fd'
    rw [Finset.mem_insert, h.clients, exists_mem_cons_iff]
    simp [Descriptor.Connected, eq_comm (a := fd')]
  file    := forall_mem_cons.mpr ⟨nofun, h.file⟩
  opened  := by
    have ⟨d, hd, hc⟩ := h.opened
    exact ⟨d, mem_cons_of_mem _ hd, hc⟩

theorem eq_empty_iff (h : Keeps fileFd clients ds) : clients = ∅ ↔ ¬∃ d ∈ ds, d.Connected := by
  constructor
  case mp =>
    rintro rfl ⟨d, hd, hc⟩
    exact absurd ((h.clients d.fd).mpr ⟨d, hd, hc, rfl⟩) (Finset.notMem_empty _)
  case mpr =>
    refine fun hn => Finset.eq_empty_iff_forall_notMem.mpr fun fd hf => ?_
    have ⟨d, hd, hc, _⟩ := (h.clients fd).mp hf
    exact hn ⟨d, hd, hc⟩

theorem ne_fileFd (h : Keeps fileFd clients ds) (hf : fd ∈ clients) : fd ≠ fileFd := by
  rintro rfl
  have ⟨d, hd, hc, he⟩ := (h.clients _).mp hf
  have ⟨d', hd', hc'⟩ := h.opened
  have ⟨he', hz⟩ := h.file d' hd' hc'
  obtain rfl := h.ordered.eq_of_open hd hc.right hd' hz (he.trans he'.symm)
  exact Bool.false_ne_true (hc'.symm.trans hc.left)

theorem close (h : Keeps fileFd clients ds) (hf : fd ∈ clients) :
    Keeps fileFd (clients.erase fd) (closeLast fd ds) := by
  have hne := h.ne_fileFd hf
  have ⟨d, hd, hc, he⟩ := (h.clients _).mp hf
  rw [closeLast_eq h.ordered ⟨d, hd, he, hc.right⟩]
  constructor
  case ordered =>
    refine pairwise_map.mpr (h.ordered.imp fun {d d'} hp => ?_)
    grind
  case once =>
    rw [forall_mem_map]
    intro d hd
    split
    case isTrue  => exact le_rfl
    case isFalse => exact h.once d hd
  case clients =>
    intro fd'
    rw [Finset.mem_erase, h.clients]
    grind
  case file =>
    rw [forall_mem_map]
    intro d hd hcl
    have hn : ¬(d.fd = fd ∧ d.closes = 0) := by
      rintro ⟨rfl, hz⟩
      rw [if_pos ⟨rfl, hz⟩] at hcl
      exact hne (h.file d hd hcl).left
    rw [if_neg hn] at hcl ⊢
    exact h.file d hd hcl
  case opened =>
    obtain ⟨d, hd, hcl⟩ := h.opened
    refine ⟨_, mem_map_of_mem hd, ?_⟩
    split
    all_goals exact hcl

-- At the end, only the file is still open.
theorem released_iff (h : Keeps fileFd clients ds) : (∀ d ∈ closeLast fileFd ds, d.closes = 1) ↔ clients = ∅ := by
  have ⟨d, hd, hc⟩ := h.opened
  have ⟨he, hz⟩ := h.file d hd hc
  rw [closeLast_eq h.ordered ⟨d, hd, he, hz⟩, forall_mem_map, Finset.eq_empty_iff_forall_notMem]
  constructor
  case mp =>
    intro ha fd hf
    have ⟨d, hd, hc, he⟩ := (h.clients _).mp hf
    have hn : ¬(d.fd = fileFd ∧ d.closes = 0) := fun hf' => h.ne_fileFd hf (he.symm.trans hf'.left)
    have hc' := ha d hd
    rw [if_neg hn, hc.right] at hc'
    contradiction
  case mpr =>
    intro ha d hd
    split
    case isTrue     => rfl
    case isFalse hn =>
      have ho := h.once d hd
      by_contra hc
      have hz : d.closes = 0 := by omega
      cases hcl : d.client
      case false => exact hn (h.file d hd hcl)
      case true  => exact ha d.fd ((h.clients _).mpr ⟨d, hd, ⟨hcl, hz⟩, rfl⟩)

end Keeps

-- Nothing has been lost yet.
structure Keeping (fileFd : Int) (s : Clients) (g : Custody) : Prop where
  keeps : Keeps fileFd s.outputSet g.descriptors
  range : ∀ fd ∈ s.outputSet, fd ∈ fdSet
  calm  : g.abandoned = false

-- All descriptors have been closed once, unless `select` has failed.
def Settled (g : Custody) : Prop :=
  Released g ↔ g.abandoned = false

def Round.Kept (fileFd : Int) (g : Custody) : Round → Prop
  | next s | left s _ => Keeping fileFd s g
  | returned          => Settled g

theorem Keeping.drop (h : Keeping fileFd s g) (hf : fd ∈ s.outputSet) :
    Keeping fileFd (s.drop fd) (custody.next g ⟨.close fd, r⟩) where
  keeps := h.keeps.close hf
  range := fun fd' hm => h.range fd' (Finset.mem_of_mem_erase hm)
  calm  := h.calm

theorem Keeping.add (h : Keeping fileFd s g) (hf : ¬fd < 0) (ha : custody.Allows g ⟨.accept serverFd, fd⟩) :
    Keeping fileFd (s.add fd) (custody.next g ⟨.accept serverFd, fd⟩) := by
  have hg : custody.next g ⟨.accept serverFd, fd⟩ = { g with descriptors := ⟨fd, true, 0⟩ :: g.descriptors } :=
    if_neg hf
  rw [hg]
  constructor
  case keeps => exact h.keeps.add ha.right
  case calm  => exact h.calm
  case range =>
    rw [Clients.add]
    exact Finset.forall_mem_insert _ _ _ |>.mpr ⟨mem_fdSet.mpr ⟨not_lt.mp hf, ha.left⟩, h.range⟩

theorem releases_broadcast (h : Keeping fileFd s g) :
    (broadcast ch fds s).wp custody (fun o g => ∃ s, o = some s ∧ Keeping fileFd s g) g := by
  induction fds generalizing s g
  case nil            => exact ⟨s, rfl, h⟩
  case cons fd fds hi =>
    rw [broadcast]
    refine wp_if (fun hf => wp_call.mpr ⟨trivial, fun n _ => ?_⟩) fun _ => hi h
    refine wp_if (fun _ => wp_call.mpr ⟨trivial, fun r _ => ?_⟩) fun _ => hi h
    exact hi (h.drop hf)

theorem releases_acceptClient {selected : Selected} (h : Keeping fileFd s g) :
    (acceptClient serverFd selected s).wp custody (fun o g => ∃ r, o = some r ∧ Keeping fileFd (r.getD s) g) g := by
  rw [acceptClient]
  refine wp_if (fun _ => wp_call.mpr ⟨trivial, fun clientFd ha => ?_⟩) fun _ => ⟨some s, rfl, h⟩
  refine wp_if (fun hf => ⟨none, rfl, ?_⟩) fun hf => ⟨some (s.add clientFd), rfl, h.add hf ha⟩
  have hg : custody.next g ⟨.accept serverFd, clientFd⟩ = g := if_pos hf
  exact hg.symm ▸ h

theorem releases_serveData (h : Keeping fileFd s g) :
    (serveData fileFd s).wp custody (fun o g => ∃ r, o = some r ∧ r.Kept fileFd g) g := by
  refine wp_call.mpr ⟨trivial, fun r _ => ?_⟩
  cases r
  case none    => exact ⟨.left s (-1), rfl, h⟩
  case some ch =>
    rw [wp_bind]
    refine wp_mono (releases_broadcast h) ?_
    rintro _ g ⟨s, rfl, hs⟩
    exact ⟨.next s, rfl, hs⟩

theorem releases_serveRound (h : Keeping fileFd s g) :
    (serveRound serverFd fileFd s).wp custody (fun o g => ∃ r, o = some r ∧ r.Kept fileFd g) g := by
  refine wp_call.mpr ⟨trivial, fun selected _ => ?_⟩
  have hg (hc : selected.code ≠ -1) : custody.next g ⟨.select serverFd fileFd, selected⟩ = g := by
    simp [custody, hc]
  refine wp_if (fun hc => ⟨.next s, rfl, ?_⟩) fun _ => ?_
  case refine_1 =>
    rw [hg (by rw [hc]; decide)]
    exact h
  refine wp_if (fun hc => wp_call.mpr ⟨trivial, fun r _ => ⟨.returned, rfl, ?_⟩⟩) fun hc => ?_
  case refine_1 =>
    -- Only the file is closed.
    refine h.keeps.released_iff.trans ?_
    simp [custody, hc, h.calm, h.keeps.eq_empty_iff]
  case refine_2 =>
    rw [hg hc, wp_bind]
    refine wp_mono (releases_acceptClient h) ?_
    rintro _ g ⟨r, rfl, hs⟩
    cases r
    case none   => exact ⟨.left s (-1), rfl, hs⟩
    case some s => exact wp_if (fun _ => releases_serveData hs) fun _ => ⟨.next s, rfl, hs⟩

-- What the loop leaves to the rest of the function.
def Left (fileFd : Int) (g : Custody) : Option (Clients × Int) → Prop
  | some (s, _) => Keeping fileFd s g
  | none        => Settled g

theorem releases_serveLoop (h : Keeping fileFd s g) :
    (serveLoop serverFd fileFd fuel s).wp custody (fun o g => ∀ e ∈ o, Left fileFd g e) g := by
  induction fuel generalizing s g
  case zero         => exact nofun
  case succ fuel hi =>
    rw [serveLoop, wp_bind]
    refine wp_mono (releases_serveRound h) ?_
    rintro _ g ⟨r, rfl, hr⟩
    cases r
    case left s err =>
      rintro _ ⟨⟩
      exact hr
    case returned   =>
      rintro _ ⟨⟩
      exact hr
    case next s =>
      refine wp_if (fun _ => hi hr) fun _ => ?_
      rintro _ ⟨⟩
      exact hr

-- Everything in the set is closed.
theorem releases_closeClients (h : Keeps fileFd s.outputSet g.descriptors) (hc : g.abandoned = false)
    (hr : ∀ fd ∈ s.outputSet, fd ∈ fds) :
    (closeClients fds s).wp custody
      (fun o g => o = some () ∧ Keeps fileFd ∅ g.descriptors ∧ g.abandoned = false) g := by
  induction fds generalizing s g
  case nil =>
    have he : s.outputSet = ∅ := Finset.eq_empty_iff_forall_notMem.mpr fun fd hf => absurd (hr fd hf) not_mem_nil
    exact ⟨rfl, he ▸ h, hc⟩
  case cons fd fds hi =>
    rw [closeClients]
    refine wp_if (fun hf => wp_call.mpr ⟨trivial, fun r _ => ?_⟩) fun hf => ?_
    case refine_1 =>
      refine hi (h.close hf) hc fun fd' hf' => ?_
      have ⟨hne, hm⟩ := Finset.mem_erase.mp hf'
      exact mem_of_ne_of_mem hne (hr fd' hm)
    case refine_2 => exact hi h hc fun fd' hm => mem_of_ne_of_mem (fun he : fd' = fd => hf (he ▸ hm)) (hr fd' hm)

theorem releases_serveFileWhileConnected :
    (serveFileWhileConnected fuel path serverFd).wp custody (fun o g => o ≠ none → Settled g) .init := by
  refine wp_call.mpr ⟨trivial, fun fileFd _ => wp_if (fun hf _ => ?_) fun hf => ?_⟩
  case refine_1 =>
    have hg : custody.next .init ⟨.open path, fileFd⟩ = .init := if_pos hf
    rw [hg]
    exact iff_of_true nofun rfl
  case refine_2 =>
    have hg : custody.next .init ⟨.open path, fileFd⟩ = ⟨[⟨fileFd, false, 0⟩], false⟩ := if_neg hf
    rw [hg, wp_bind]
    refine wp_mono (releases_serveLoop (s := .none) ⟨.start, nofun, rfl⟩) ?_
    intro o g h
    rcases o with _ | _ | ⟨s, err⟩
    case none      => exact absurd rfl
    case some.none => exact fun _ => h _ rfl
    case some.some =>
      have hs : Keeping fileFd s g := h _ rfl
      refine wp_bind.mpr <| wp_mono (releases_closeClients hs.keeps hs.calm hs.range) ?_
      rintro _ g ⟨rfl, hk, hc⟩
      exact wp_call.mpr ⟨trivial, fun r _ _ => iff_of_true (hk.released_iff.mpr rfl) hc⟩

theorem abandoned_next {e : Event Result} : (custody.next g e).abandoned ↔ g.abandoned ∨ SelectFails g e := by
  obtain ⟨c, r⟩ := e
  have hg {fd : Int} {client : Bool} : (g.open fd client).abandoned = g.abandoned := by
    rw [Custody.open]
    split
    all_goals rfl
  cases c
  all_goals simp [custody, SelectFails, hg]

theorem abandoned_after : (custody.after .init t).abandoned ↔ Abandons t := by
  induction t using List.reverseRecOn
  case nil                      =>
    refine iff_of_false Bool.false_ne_true ?_
    rintro ⟨t₁, e, t₂, ht, _⟩
    simp at ht
  case append_singleton t e hi =>
    rw [Monitor.after_append, Monitor.after_cons, Monitor.after_nil, abandoned_next, hi]
    constructor
    case mp =>
      rintro (⟨t₁, e', t₂, rfl, he⟩ | he)
      · exact ⟨t₁, e', t₂ ++ [e], by simp, he⟩
      · exact ⟨t, e, [], rfl, he⟩
    case mpr =>
      rintro ⟨t₁, e', t₂, ht, he⟩
      obtain rfl | ⟨t₂, e₂, rfl⟩ := eq_nil_or_concat t₂
      · obtain ⟨rfl, he'⟩ := append_inj' ht rfl
        exact .inr ((cons.inj he').left ▸ he)
      · rw [concat_eq_append, ← cons_append, ← append_assoc] at ht
        obtain ⟨rfl, _⟩ := append_inj' ht rfl
        exact .inl ⟨t₁, e', t₂, rfl, he⟩

-- The clients that are connected are left open if `select` fails, and by none of the other ways out.
theorem serveFileWhileConnected_releases_iff {err : Int}
    (ho : (serveFileWhileConnected fuel path serverFd).Observed t (some err)) (ha : custody.Allowed .init t) :
    Released (custody.after .init t) ↔ ¬Abandons t := by
  have hs := (wp_sound releases_serveFileWhileConnected ho ha).right (Option.some_ne_none err)
  rw [← abandoned_after, Bool.not_eq_true]
  exact hs

-- The second client is given the number of the first one.
def reuseSample : Trace Result :=
  [⟨.open [], (3 : Int)⟩, ⟨.select 4 3, (⟨1, true, false⟩ : Selected)⟩, ⟨.accept 4, (5 : Int)⟩,
    ⟨.select 4 3, (⟨1, true, false⟩ : Selected)⟩, ⟨.accept 4, (6 : Int)⟩,
    ⟨.select 4 3, (⟨1, false, true⟩ : Selected)⟩, ⟨.read 3, some (97 : UInt8)⟩, ⟨.write 5 97, (-1 : Int)⟩,
    ⟨.close 5, (0 : Int)⟩, ⟨.write 6 97, (1 : Int)⟩, ⟨.select 4 3, (⟨1, true, false⟩ : Selected)⟩,
    ⟨.accept 4, (5 : Int)⟩, ⟨.select 4 3, (⟨1, true, false⟩ : Selected)⟩, ⟨.accept 4, (-1 : Int)⟩,
    ⟨.close 5, (0 : Int)⟩, ⟨.close 6, (0 : Int)⟩, ⟨.close 3, (0 : Int)⟩]

theorem serveFileWhileConnected_releases_sample : Released (custody.after .init reuseSample) := by
  have ho : (serveFileWhileConnected 5 [] 4).Observed reuseSample (some (-1)) := observed_of_replay (by decide +kernel)
  have ha : custody.Allowed .init reuseSample := by simp [reuseSample, custody, Custody.init, Custody.open, closeLast]
  refine serveFileWhileConnected_releases_iff ho ha |>.mpr ?_
  rw [← abandoned_after]
  decide

def selectSample : Trace Result :=
  [⟨.open [], (3 : Int)⟩, ⟨.select 4 3, (⟨1, true, false⟩ : Selected)⟩, ⟨.accept 4, (5 : Int)⟩,
    ⟨.select 4 3, (⟨-1, false, false⟩ : Selected)⟩, ⟨.close 3, (0 : Int)⟩]

theorem serveFileWhileConnected_abandons : ¬∀ fuel path serverFd t err,
    (serveFileWhileConnected fuel path serverFd).Observed t (some err) → custody.Allowed .init t →
      Released (custody.after .init t) := by
  intro h
  have ho : (serveFileWhileConnected 2 [] 4).Observed selectSample (some (-1)) := observed_of_replay (by decide +kernel)
  have ha : custody.Allowed .init selectSample := by simp [selectSample, custody, Custody.init, Custody.open]
  exact absurd (h 2 [] 4 selectSample (-1) ho ha ⟨5, true, 0⟩ (by decide)) (by decide)

end Klog

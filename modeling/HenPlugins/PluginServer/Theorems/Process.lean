import HenPlugins.PluginServer.Process

open List hiding Disjoint
open Prog Relation

namespace PluginServer

variable {g : Inventory} {fd fd' : Int} {fds : Finset Int} {fuel : Nat} {compiled : Bytes}

section Inventory

theorem mem_opened_gain (h : fd' ∈ (g.gain fd).opened) : fd' ∈ g.opened ∨ Handle.fd fd' ∈ given fd := by
  by_cases hf : fd < 0
  case pos =>
    rw [Inventory.gain_of_neg hf] at h
    exact .inl h
  case neg =>
    rw [Inventory.gain_of_nonneg hf, Inventory.opened, Finset.insert_union] at h
    obtain rfl | h := Finset.mem_insert.mp h
    · exact .inr ⟨not_lt.mp hf, rfl⟩
    · exact .inl h

theorem opened_lose (h : fds ⊆ g.live) : (g.lose fds).opened ⊆ g.opened := by
  refine Finset.union_subset (Finset.sdiff_subset.trans Finset.subset_union_left) ?_
  exact Finset.union_subset Finset.subset_union_right (h.trans Finset.subset_union_left)

theorem opened_release : (g.release fd).opened ⊆ g.opened :=
  Finset.union_subset_union_left (Finset.erase_subset ..)

theorem mem_opened (h : fd ∈ g.live) : fd ∈ g.opened :=
  Finset.mem_union_left _ h

-- What a call does to an inventory
inductive Change (g : Inventory) (gives : Set Handle) : Inventory → Prop
  | same : Change g gives g
  | gain {fd : Int} (hg : given fd ⊆ gives) (hn : fd ∉ g.opened) : Change g gives (g.gain fd)
  | client {fd : Int} (hg : given fd ⊆ gives) (hn : fd ∉ g.opened) (hf : ¬fd < 0) :
    Change g gives { g.gain fd with clients := insert fd g.clients }
  | lose {fds : Finset Int} (hs : fds ⊆ g.live) : Change g gives (g.lose fds)
  | release {fd : Int} : Change g gives (g.release fd)

namespace Change

variable {g' : Inventory} {gives : Set Handle}

theorem proper (h : Change g gives g') (hp : g.Proper) : g'.Proper := by
  cases h
  case same             => exact hp
  case gain hg hn       => exact hp.gain hn
  case client fd hg hn hf =>
    refine { hp.gain hn with clients := ?_ }
    rw [Inventory.gain_of_nonneg hf]
    exact Finset.insert_subset_insert _ hp.clients
  case lose             => exact hp.lose
  case release          => exact hp.release

theorem held_subset (h : Change g gives g') : held .ftp g' ⊆ held .ftp g ∪ gives := by
  rintro _ ⟨fd, hm, rfl⟩
  cases h
  case same                => exact .inl ⟨fd, hm, rfl⟩
  case gain hg hn          => exact (mem_opened_gain hm).imp (fun hm => ⟨fd, hm, rfl⟩) fun hm => hg hm
  case client fd' hg hn hf =>
    have hm : fd ∈ (g.gain fd').opened := hm
    exact (mem_opened_gain hm).imp (fun hm => ⟨fd, hm, rfl⟩) fun hm => hg hm
  case lose hs             => exact .inl ⟨fd, opened_lose hs hm, rfl⟩
  case release             => exact .inl ⟨fd, opened_release hm, rfl⟩

end Change

theorem change_inventory {e : Event Result} (hd : inventory.Demands g e.call) (ha : inventory.Allows g e) :
    Change g (Call.gives e) (inventory.next g e) := by
  obtain ⟨c, r⟩ := e
  have hl {fd : Int} {b : Prop} [Decidable b] (hm : fd ∈ g.live) : Change g ∅ (if b then g else g.lose {fd}) := by
    split
    · exact .same
    · exact .lose (Finset.singleton_subset_iff.mpr hm)
  cases c
  case socket | accept              => exact .gain subset_rfl ha
  case setsockopt | bind | listen   => exact hl hd
  case close                        => exact .release
  case select fd =>
    simp only [inventory]
    split
    · exact .lose (Finset.singleton_subset_iff.mpr hd)
    · exact .same
  case pthreadCreate fd =>
    simp only [inventory]
    split
    · exact .release
    · exact .lose (Finset.singleton_subset_iff.mpr hd)
  all_goals exact .same

theorem change_served {e : Event Klog.Result} (hp : g.Proper) (ha : Klog.served.Allows g e) :
    Change g (klogGives e) (Klog.served.next g e) := by
  obtain ⟨c, r⟩ := e
  cases c
  case «open»  => exact .gain subset_rfl ha
  case close   => exact .release
  case accept  =>
    simp only [Klog.served]
    split
    · exact .same
    · exact .client subset_rfl ha.right ‹_›
  case select =>
    simp only [Klog.served]
    split
    · exact .lose hp.clients
    · exact .same
  all_goals exact .same

theorem uses_inventory {c : Call} (hd : inventory.Demands g c) : c.uses ⊆ held .ftp g := by
  cases c
  case setsockopt | bind | listen | select | accept | pthreadCreate | close =>
    rintro _ rfl
    exact ⟨_, mem_opened hd, rfl⟩
  all_goals exact Set.empty_subset _

theorem uses_served {c : Klog.Call} (hp : g.Proper) (hd : Klog.served.Demands g c) : klogUses c ⊆ held .ftp g := by
  cases c
  case «open»                => exact Set.empty_subset _
  case select                =>
    rintro _ (rfl | rfl)
    · exact ⟨_, mem_opened hd.left, rfl⟩
    · exact ⟨_, mem_opened hd.right, rfl⟩
  case accept | read | close =>
    rintro _ rfl
    exact ⟨_, mem_opened hd, rfl⟩
  case write                 =>
    rintro _ rfl
    exact ⟨_, mem_opened (hp.clients hd), rfl⟩

end Inventory

section Session

variable {activeFd : Int} {h : Ftp.Hold} {hd : Handle}

theorem uses_session {c : Ftp.Call} (hd : h.Uses c) : sessionUses c ⊆ held (.session activeFd) h := by
  cases c
  case readdir | closedir =>
    rintro _ rfl
    exact .inr ⟨_, hd, rfl⟩
  case activeWrite | dataWrite | write | read | recv | getsockname | bind | listen | accept | connect | close | lseekCur
      | ftruncate =>
    rintro _ ⟨hn, rfl⟩
    exact .inl ⟨_, hn, hd, rfl⟩
  all_goals exact Set.empty_subset _

theorem mem_fds_gain (hm : fd ∈ (h.gain fd').fds) : fd ∈ h.fds ∨ Handle.fd fd ∈ given fd' := by
  rw [Ftp.Hold.gain] at hm
  split at hm
  case isTrue     => exact .inl hm
  case isFalse hf =>
    obtain rfl | hm := Finset.mem_insert.mp hm
    · exact .inr ⟨not_lt.mp hf, rfl⟩
    · exact .inl hm

-- A session comes to keep a number when it is given it.
theorem names_next {e : Event Ftp.Result} (hn : (Ftp.Hold.next activeFd h e).Names fd) (hp : 0 ≤ fd) :
    h.Names fd ∨ Handle.fd fd ∈ sessionGives e := by
  have hgain {fd' : Int} (hm : fd ∈ (h.gain fd').fds) : h.Names fd ∨ Handle.fd fd ∈ given fd' :=
    (mem_fds_gain hm).imp_left .inl
  have hnum {fd' : Int} (he : fd = fd') : Handle.fd fd ∈ given fd' := he ▸ ⟨hp, rfl⟩
  obtain ⟨c, r⟩ := e
  cases c
  case socket =>
    obtain hm | he | he := hn
    · exact hgain hm
    · simp only [Ftp.Hold.next] at he
      split at he
      · exact .inr (hnum he)
      · exact .inl (.inr (.inl he))
    · simp only [Ftp.Hold.next] at he
      split at he
      · exact .inl (.inr (.inr he))
      · exact .inr (hnum he)
  case accept =>
    obtain hm | he | he := hn
    · exact hgain hm
    · exact .inl (.inr (.inl (he.trans Ftp.Hold.gain_passive)))
    · exact .inr (hnum he)
  case «open» =>
    obtain hm | he | he := hn
    · exact hgain hm
    · exact .inl (.inr (.inl (he.trans Ftp.Hold.gain_passive)))
    · exact .inl (.inr (.inr (he.trans Ftp.Hold.gain_data)))
  case close =>
    obtain hm | he := hn
    · exact .inl (.inl (Finset.mem_of_mem_erase hm))
    · exact .inl (.inr he)
  case opendir =>
    cases r
    all_goals exact .inl hn
  all_goals exact .inl hn

theorem dirs_next {e : Event Ftp.Result} {dir : Nat} (hm : dir ∈ (Ftp.Hold.next activeFd h e).dirs) :
    dir ∈ h.dirs ∨ Handle.dir dir ∈ sessionGives e := by
  obtain ⟨c, r⟩ := e
  cases c
  case socket | accept | «open» => exact .inl (Ftp.Hold.gain_dirs ▸ hm)
  case closedir                 => exact .inl (Finset.mem_of_mem_erase hm)
  case opendir                  =>
    cases r
    case none => exact .inl hm
    case some =>
      obtain rfl | hm := Finset.mem_insert.mp hm
      · exact .inr rfl
      · exact .inl hm
  all_goals exact .inl hm

theorem held_session {e : Event Ftp.Result} :
    held (.session activeFd) (Ftp.Hold.next activeFd h e) ⊆ held (.session activeFd) h ∪ sessionGives e := by
  rintro _ (⟨fd, hp, hn, rfl⟩ | ⟨dir, hm, rfl⟩)
  · exact (names_next hn hp).imp_left fun hn => .inl ⟨fd, hp, hn, rfl⟩
  · exact (dirs_next hm).imp_left fun hm => .inr ⟨dir, hm, rfl⟩

-- A session starts with its control connection.
theorem held_start {activeFd : Int} : (sharing fuel compiled).heldBy (session fuel compiled activeFd) ⊆ {.fd activeFd} := by
  rintro _ (⟨fd, hp, hn, rfl⟩ | ⟨dir, hm, rfl⟩)
  · have hp' : ¬fd = -1 := by omega
    obtain hm | he | he := hn
    · exact congrArg Handle.fd (Finset.mem_singleton.mp hm)
    · exact absurd he hp'
    · exact absurd he hp'
  · exact absurd hm (Finset.notMem_empty _)

end Session

-- The connection for which a thread is started
theorem starts_session {k : Kind} {e : Event (KindResult k)} {t : ServerThread} (ht : t ∈ (sharing fuel compiled).starts k e) :
    ∃ connfd, t = session fuel compiled connfd ∧ k = .ftp ∧ HEq e (⟨.pthreadCreate connfd, (0 : Int)⟩ : Event Result) := by
  obtain ⟨c, r⟩ := e
  cases k
  case klog | session => cases ht
  case ftp =>
    cases c
    case pthreadCreate connfd =>
      simp only [sharing] at ht
      split at ht
      case isTrue hr =>
        obtain rfl := Option.some.inj ht
        obtain rfl : r = (0 : Int) := hr
        exact ⟨connfd, rfl, rfl, .rfl⟩
      case isFalse => contradiction
    all_goals cases ht

theorem lawful : (sharing fuel compiled).Lawful where
  uses k g c hi hd := by
    cases k
    case klog =>
      cases c
      case inl c => exact uses_inventory hd
      case inr c => exact uses_served hi hd
    case ftp     => exact uses_inventory hd
    case session activeFd => exact @uses_session activeFd g c hd
  inv k g e hi hd ha := by
    obtain ⟨c, r⟩ := e
    cases k
    case klog =>
      cases c
      case inl c => exact (@change_inventory g ⟨c, r⟩ hd ha).proper hi
      case inr c => exact (@change_served g ⟨c, r⟩ hi ha).proper hi
    case ftp     => exact (change_inventory hd ha).proper hi
    case session => trivial
  held k g e hi hd ha := by
    obtain ⟨c, r⟩ := e
    cases k
    case klog =>
      cases c
      case inl c => exact (@change_inventory g ⟨c, r⟩ hd ha).held_subset
      case inr c => exact (@change_served g ⟨c, r⟩ hi ha).held_subset
    case ftp     => exact (change_inventory hd ha).held_subset
    case session => exact held_session
  safe k g e t hi hd ht := by
    obtain ⟨connfd, rfl, rfl, he⟩ := starts_session ht
    obtain rfl := eq_of_heq he
    exact ⟨wp_mono (Ftp.names_ftpThread (hi.nonneg connfd hd)) fun _ _ _ => trivial, trivial⟩
  passes k g e t hi hd ht := by
    obtain ⟨connfd, rfl, rfl, he⟩ := starts_session ht
    obtain rfl := eq_of_heq he
    refine ⟨held_start.trans ?_, Set.disjoint_of_subset_left held_start ?_⟩
    · rintro _ rfl
      exact ⟨connfd, mem_opened hd, rfl⟩
    · -- The connection is not one of the descriptors of the server any more.
      refine Set.disjoint_singleton_left.mpr ?_
      rintro ⟨fd, hm, ⟨⟩⟩
      obtain hm | hm := Finset.mem_union.mp hm
      · exact Finset.notMem_erase _ _ hm
      · exact Finset.disjoint_left.mp hi.apart hd hm

theorem sound_start : (sharing fuel compiled).Sound (start fuel compiled) where
  safe  := forall_mem_cons.mpr ⟨⟨wp_mono Klog.account_pthreadKserver fun _ _ _ => trivial, .init⟩,
    forall_mem_singleton.mpr ⟨wp_mono Ftp.accounts_ftpMain fun _ _ _ => trivial, .init⟩⟩
  apart := by
    refine pairwise_pair.mpr (Set.disjoint_left.mpr ?_)
    rintro _ ⟨fd, hm, _⟩
    exact absurd hm (Finset.notMem_empty _)

-- In every run of the process in which no thread is given a number that another one holds, whatever the order of the
-- calls: the calls of a thread are ones that its monitor demands, they make use of what the thread holds, and no other
-- thread holds any of it.
theorem process_apart {p₁ p₂ : List ServerThread} {k : Kind} {c : KindCall k} {f : KindResult k c → Prog (KindResult k) Unit}
    {s : KindState k} (h : ReflTransGen (sharing fuel compiled).Step (start fuel compiled) (p₁ ++ ⟨k, .call c f, s⟩ :: p₂)) :
    (monitor k).Demands s c ∧ (sharing fuel compiled).uses k c ⊆ held k s ∧
      ∀ t ∈ p₁ ++ p₂, Disjoint ((sharing fuel compiled).uses k c) (held t.kind t.state) :=
  (sound_start.run lawful h).uses lawful

-- A client connects, and closes the connection.

def listenerSample : Trace Result :=
  [⟨.getifaddrs, some [⟨bytes "eth0", some ⟨afInet, 0x0100000a⟩⟩]⟩, ⟨.signal, ()⟩,
    ⟨.notify (bytes "Serving FTP\non 10.0.0.1:2121 (eth0)\nCompiled on now\n") [], ()⟩, ⟨.freeifaddrs, ()⟩,
    ⟨.socket, (5 : Int)⟩, ⟨.setsockopt 5, (0 : Int)⟩, ⟨.bind 5 2121, (0 : Int)⟩, ⟨.listen 5 5, (0 : Int)⟩,
    ⟨.accept 5, (7 : Int)⟩]

def sessionSample : Trace Ftp.Result :=
  [⟨.getpid, (1 : Int)⟩,
    ⟨.activeWrite 7 (bytes "220-Welcome to ftpsrv.elf running on pid 1, compiled at now\r\n220 Service is ready\r\n"), (83 : Int)⟩,
    ⟨.calloc 1024, true⟩, ⟨.read 7 1, .ok ⟨[], Nat.zero_le 1⟩⟩]

theorem reaches_sample : ∃ p₁ p₂ f, ReflTransGen (sharing 5 (bytes "now")).Step (start 5 (bytes "now"))
    (p₁ ++ ⟨.session 7, .call (.close 7) f, { fds := {7} }⟩ :: p₂) := by
  have hidle {s : Set Handle} : Disjoint s (held .klog .init) := by
    refine Set.disjoint_left.mpr ?_
    rintro _ _ ⟨fd, hm, _⟩
    exact Finset.notMem_empty _ hm
  have hl : ((Ftp.ftpMain 5 (bytes "now")).advance listenerSample).bind asks = some (.pthreadCreate 7) := by decide +kernel
  have hs : ((Ftp.ftpThread 5 (bytes "now") 7).advance sessionSample).bind asks = some (.close 7) := by decide +kernel
  obtain ⟨q, hq, hql⟩ := Option.bind_eq_some_iff.mp hl
  obtain ⟨u, hu, hus⟩ := Option.bind_eq_some_iff.mp hs
  obtain ⟨f, rfl⟩ := eq_call_of_asks hql
  obtain ⟨f', rfl⟩ := eq_call_of_asks hus
  let klog : ServerThread := ⟨.klog, Klog.pthreadKserver 5, .init⟩
  let g := inventory.after .init listenerSample
  let ftp : ServerThread := ⟨.ftp, f (0 : Int), g.release 7⟩
  -- The server accepts a connection, the thread is started, and it reads the end of its input.
  have h₁ : ReflTransGen (sharing 5 (bytes "now")).Step ([klog] ++ ⟨.ftp, Ftp.ftpMain 5 (bytes "now"), .init⟩ :: [])
      ([klog] ++ ⟨.ftp, .call (.pthreadCreate 7) f, g⟩ :: []) := by
    refine Sharing.reaches_of_advance hq ?_ (fun e _ u hm => ?_) ?_
    case refine_1 =>
      have ha : inventory.Allowed .init listenerSample := by
        simp [listenerSample, inventory, Inventory.init, Inventory.gain, Inventory.opened]
      exact ha
    case refine_2 =>
      obtain rfl := mem_singleton.mp hm
      exact hidle
    case refine_3 => simp [listenerSample, sharing]
  have h₂ : (sharing 5 (bytes "now")).Step ([klog] ++ ⟨.ftp, .call (.pthreadCreate 7) f, g⟩ :: [])
      ([klog] ++ ftp :: ([session 5 (bytes "now") 7] ++ [])) :=
    .call trivial fun _ _ => Set.empty_disjoint _
  have h₃ : ReflTransGen (sharing 5 (bytes "now")).Step
      ([klog, ftp] ++ ⟨.session 7, Ftp.ftpThread 5 (bytes "now") 7, { fds := {7} }⟩ :: [])
      ([klog, ftp] ++ ⟨.session 7, .call (.close 7) f', (Ftp.holds 7).after { fds := {7} } sessionSample⟩ :: []) := by
    refine Sharing.reaches_of_advance hu ?_ (fun e he u _ => ?_) ?_
    case refine_1 =>
      have ha : (Ftp.holds 7).Allowed { fds := {7} } sessionSample := by
        simp [sessionSample, Ftp.holds, Ftp.Hold.Fresh]
      exact ha
    case refine_2 =>
      have hg : ∀ e ∈ sessionSample, sessionGives e = ∅ := by simp [sessionSample, sessionGives]
      have hd : Disjoint (sessionGives e) ((sharing 5 (bytes "now")).heldBy u) := hg e he ▸ Set.empty_disjoint _
      exact hd
    case refine_3 => exact fun _ _ => rfl
  exact ⟨[klog, ftp], [], f', (h₁.tail h₂).trans h₃⟩

theorem process_apart_sample : ∃ p₁ p₂ : List ServerThread, (monitor (.session 7)).Demands { fds := {7} } (.close 7) ∧
    ∀ t ∈ p₁ ++ p₂, Disjoint ((sharing 5 (bytes "now")).uses (.session 7) (.close 7)) (held t.kind t.state) := by
  have ⟨p₁, p₂, f, h⟩ := reaches_sample
  have ⟨hd, _, ha⟩ := process_apart h
  exact ⟨p₁, p₂, hd, ha⟩

end PluginServer

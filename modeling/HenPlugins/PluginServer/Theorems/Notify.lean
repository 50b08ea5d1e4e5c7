import HenPlugins.Ftp.Listener
import HenPlugins.Klog.Theorems.Server

open List Prog CString Number

namespace PluginServer

-- The address and the name of an interface that is served on: an IPv4 address that does not begin with 0, of an
-- interface that is not the loopback.
def Ifaddr.shown (ifa : Ifaddr) : Option (Bytes × Bytes) :=
  ifa.addr.bind fun addr =>
    if addr.family = afInet ∧ ¬startsWith ifa.name (bytes "lo") ∧ addr.sinAddr.toNat % 256 ≠ 0 then
      some (inetNtop addr.sinAddr, ifa.name)
    else none

variable {ifas : List Ifaddr} {ifaddrWait : Bool} {a : BitVec 32}

theorem prefix_decimal : ∀ n : Fin 256, (bytes "0.").length ≤ (decimal n ++ bytes ".").length ∧
    (bytes "0." <+: decimal n ++ bytes "." ↔ (n : Nat) = 0) := by
  decide +kernel

theorem inetNtop_eq : ∃ rest, inetNtop a = decimal (a.toNat % 256) ++ bytes "." ++ rest := by
  rw [inetNtop, LittleEndian.encode_succ, LittleEndian.encode_succ]
  exact ⟨_, (append_assoc ..).symm⟩

-- The text begins with the number 0 if the address does.
theorem startsWith_inetNtop : startsWith (inetNtop a) (bytes "0.") ↔ a.toNat % 256 = 0 := by
  have ⟨rest, he⟩ := @inetNtop_eq a
  have ⟨hl, hp⟩ := prefix_decimal ⟨a.toNat % 256, Nat.mod_lt _ (by decide)⟩
  rw [startsWith, isPrefixOf_iff_prefix, he, ← hp]
  constructor
  case mp  => exact fun h => prefix_of_prefix_length_le h (prefix_append ..) hl
  case mpr => exact fun h => prefix_append_of_prefix h

-- What is still to be notified of, if this is the first attempt, and whether there is an interface for which no socket
-- has been asked for.
structure Told where
  first   : Bool
  pending : List (Bytes × List Bytes)
  wanted  : Bool
deriving DecidableEq

def Told.init : Told where
  first   := true
  pending := []
  wanted  := false

def told (message : Bytes × Bytes → Bytes × List Bytes) : Monitor Result Told where
  next g
    | ⟨.getifaddrs, ifas⟩ =>
      let shown := (Option.getD ifas []).filterMap Ifaddr.shown
      { g with pending := if g.first then shown.map message else [], wanted := shown ≠ [] }
    | ⟨.notify .., _⟩     => { g with pending := g.pending.tail }
    | ⟨.socket, _⟩        => { g with wanted := false }
    | ⟨.sleep _, _⟩       => { g with first := false }
    | _                   => g
  Demands g
    | .notify fmt args => g.pending.head? = some (fmt, args)
    | .socket          => g.wanted = true ∧ g.pending = []
    | .sleep _         => g.wanted = false ∧ g.pending = []
    | _                => True

variable {message : Bytes × Bytes → Bytes × List Bytes} {notify : Bytes → Bytes → Proc Unit} {g : Told}

theorem shown_eq {name : Bytes} {addr : Sockaddr} : Ifaddr.shown ⟨name, some addr⟩ =
    if addr.family ≠ afInet then none
    else if startsWith name (bytes "lo") then none
    else if startsWith (inetNtop addr.sinAddr) (bytes "0.") then none
    else some (inetNtop addr.sinAddr, name) := by
  simp only [Ifaddr.shown, Option.bind_some, startsWith_inetNtop]
  split_ifs
  all_goals first | rfl | tauto

-- The loop notifies of the interfaces that are served on, in their order.
theorem told_enumerate (hn : ∀ ip name, notify ip name =
      if g.first then perform (.notify (message (ip, name)).1 (message (ip, name)).2) else return ())
    (hp : g.pending = if g.first then (ifas.filterMap Ifaddr.shown).map message else []) :
    (enumerate notify ifas ifaddrWait).wp (told message)
      (fun o g' => o = some (ifaddrWait && (ifas.filterMap Ifaddr.shown).isEmpty) ∧ g' = { g with pending := [] }) g := by
  induction ifas generalizing g ifaddrWait
  case nil =>
    have hp' : g.pending = [] := by
      rw [hp]
      exact ite_self _
    exact ⟨by simp [Bool.and_true], by rw [← hp']⟩
  case cons ifa ifas hi =>
    have hskip (hs : ifa.shown = none) : (enumerate notify ifas ifaddrWait).wp (told message)
        (fun o g' => o = some (ifaddrWait && ((ifa :: ifas).filterMap Ifaddr.shown).isEmpty) ∧
          g' = { g with pending := [] }) g := by
      rw [filterMap_cons_none hs] at hp ⊢
      exact hi hn hp
    obtain ⟨name, _ | addr⟩ := ifa
    case none => exact hskip rfl
    case some =>
      have hs := @shown_eq name addr
      refine wp_if (fun h₁ => hskip (hs.trans (if_pos h₁))) fun h₁ => ?_
      rw [if_neg h₁] at hs
      refine wp_if (fun h₂ => hskip (hs.trans (if_pos h₂))) fun h₂ => ?_
      rw [if_neg h₂] at hs
      refine wp_if (fun h₃ => hskip (hs.trans (if_pos h₃))) fun h₃ => ?_
      rw [if_neg h₃] at hs
      rw [filterMap_cons_some hs] at hp ⊢
      rw [hn, isEmpty_cons, Bool.and_false]
      refine wp_bind.mpr (wp_if (fun hf => ?_) fun hf => ?_)
      case refine_1 =>
        rw [if_pos hf, map_cons] at hp
        have hd : g.pending.head? = some (message (inetNtop addr.sinAddr, name)) := by rw [hp, head?_cons]
        refine ⟨hd, fun _ _ => ?_⟩
        exact @hi false { g with pending := g.pending.tail } hn (by rw [hp, if_pos hf, tail_cons])
      case refine_2 =>
        rw [if_neg hf] at hp
        exact @hi false g hn (by rw [hp, if_neg hf])

-- Between the attempts, nothing is left to be notified of or to be waited for.
structure Told.Rests (notifyUser : Bool) (g : Told) : Prop where
  first   : g.first = notifyUser
  pending : g.pending = []
  wanted  : g.wanted = false

def klogMessage (shown : Bytes × Bytes) : Bytes × List Bytes :=
  (bytes "Serving %s\non %s:%d (%s)", [bytes "/dev/klog", shown.fst, decimal 3232, shown.snd])

def ftpMessage (compiled : Bytes) (shown : Bytes × Bytes) : Bytes × List Bytes :=
  ((bytes "Serving FTP\non " ++ shown.fst ++ bytes ":" ++ decimal 2121 ++ bytes " (" ++ shown.snd ++
    bytes ")\nCompiled on " ++ compiled ++ bytes "\n").take 255, [])

def klogTold : Monitor Klog.ServerResult Told :=
  (told klogMessage).sum { next := fun g _ => g }

variable {fuel fuel' rounds : Nat} {path compiled : Bytes} {sockfd srvfd : Int} {notifyUser : Bool}

theorem told_waitLoop : (Klog.waitLoop path sockfd fuel).wp klogTold (fun _ g' => g' = g) g := by
  induction fuel
  case zero         => rfl
  case succ fuel hi =>
    refine wp_call.mpr ⟨trivial, fun selected _ => wp_if (fun _ => rfl) fun _ => wp_if (fun _ => ?_) fun _ => hi⟩
    refine wp_bind.mpr (wp_inr.mpr (wp_mono (wp_of_unfollowed (fun _ _ => rfl) fun _ _ => trivial) ?_))
    rintro o _ rfl
    rcases o with _ | r
    case none => rfl
    case some => exact wp_if (fun _ => wp_call.mpr ⟨trivial, fun _ _ => rfl⟩) fun _ => hi

theorem told_serveFile (h : g.Rests notifyUser) :
    (Klog.serveFile fuel (bytes "/dev/klog") 3232 notifyUser).wp klogTold (fun _ g' => g'.Rests notifyUser) g := by
  refine wp_call.mpr ⟨trivial, fun ifaddr _ => ?_⟩
  rcases ifaddr with _ | ifas
  case none => exact ⟨h.first, ite_self _, rfl⟩
  case some =>
    have hn : ∀ ip name, Klog.serveNotify (bytes "/dev/klog") 3232 notifyUser ip name =
        if g.first then perform (.notify (klogMessage (ip, name)).1 (klogMessage (ip, name)).2) else return () := by
      intro ip name
      rw [h.first]
      rfl
    refine wp_bind.mpr (wp_inl.mpr (wp_mono (told_enumerate hn rfl) ?_))
    rintro _ _ ⟨rfl, rfl⟩
    refine wp_call.mpr ⟨trivial, fun _ _ => wp_if (fun hw => ⟨h.first, rfl, ?_⟩) fun hw =>
      wp_call.mpr ⟨⟨?_, rfl⟩, fun (sockfd : Int) _ => ?_⟩⟩
    case refine_1 => simpa [klogTold, Monitor.sum, told] using hw
    case refine_2 => simpa [klogTold, Monitor.sum, told] using hw
    case refine_3 =>
      have hr : Told.Rests notifyUser { g with pending := [], wanted := false } := ⟨h.first, rfl, rfl⟩
      refine wp_if (fun _ => hr) fun _ => wp_call.mpr ⟨trivial, fun (r : Int) _ => wp_if (fun _ => hr) fun _ => ?_⟩
      refine wp_call.mpr ⟨trivial, fun (r : Int) _ => wp_if (fun _ => hr) fun _ => ?_⟩
      refine wp_call.mpr ⟨trivial, fun (r : Int) _ => wp_if (fun _ => hr) fun _ => wp_mono told_waitLoop ?_⟩
      rintro _ _ rfl
      exact hr

theorem told_kserverLoop (h : g.Rests notifyUser) :
    (Klog.kserverLoop fuel rounds notifyUser).wp klogTold (fun _ _ => True) g := by
  induction rounds generalizing g notifyUser
  case zero           => trivial
  case succ rounds hi =>
    refine wp_bind.mpr (wp_mono (told_serveFile h) fun o g h => ?_)
    rcases o with _ | r
    case none => trivial
    case some => exact wp_call.mpr ⟨⟨h.wanted, h.pending⟩, fun _ _ => hi ⟨rfl, h.pending, h.wanted⟩⟩

theorem told_acceptLoop : (Ftp.acceptLoop srvfd fuel).wp (told message) (fun _ g' => g' = g) g := by
  induction fuel
  case zero         => rfl
  case succ fuel hi =>
    exact wp_call.mpr ⟨trivial, fun (_ : Int) _ => wp_if (fun _ => rfl) fun _ => wp_call.mpr ⟨trivial, fun _ _ => hi⟩⟩

theorem told_ftpServe (h : g.Rests notifyUser) :
    (Ftp.ftpServe fuel compiled 2121 notifyUser).wp (told (ftpMessage compiled))
      (fun o g' => o ≠ none → g'.Rests notifyUser) g := by
  refine wp_call.mpr ⟨trivial, fun ifaddr _ => ?_⟩
  rcases ifaddr with _ | ifas
  case none => exact ⟨trivial, fun _ _ => absurd rfl⟩
  case some =>
    have hn : ∀ ip name, Ftp.serveNotify compiled 2121 notifyUser ip name =
        if g.first then perform (.notify (ftpMessage compiled (ip, name)).1 (ftpMessage compiled (ip, name)).2)
        else return () := by
      intro ip name
      rw [h.first]
      rfl
    refine wp_call.mpr ⟨trivial, fun _ _ => wp_bind.mpr (wp_mono (told_enumerate hn rfl) ?_)⟩
    rintro _ _ ⟨rfl, rfl⟩
    refine wp_call.mpr ⟨trivial, fun _ _ => wp_if (fun hw _ => ⟨h.first, rfl, ?_⟩) fun hw =>
      wp_call.mpr ⟨⟨?_, rfl⟩, fun (srvfd : Int) _ => ?_⟩⟩
    case refine_1 => simpa [told] using hw
    case refine_2 => simpa [told] using hw
    case refine_3 =>
      have hr : Told.Rests notifyUser { g with pending := [], wanted := false } := ⟨h.first, rfl, rfl⟩
      refine wp_if (fun _ _ => hr) fun _ => wp_call.mpr ⟨trivial, fun (r : Int) _ => wp_if (fun _ _ => hr) fun _ => ?_⟩
      refine wp_call.mpr ⟨trivial, fun (r : Int) _ => wp_if (fun _ _ => hr) fun _ => ?_⟩
      refine wp_call.mpr ⟨trivial, fun (r : Int) _ => wp_if (fun _ _ => hr) fun _ => ?_⟩
      refine wp_bind.mpr (wp_mono told_acceptLoop ?_)
      rintro o _ rfl
      rcases o with _ | _
      case none => exact absurd rfl
      case some => exact ⟨trivial, fun _ _ _ => hr⟩

theorem told_mainLoop (h : g.Rests notifyUser) :
    (Ftp.mainLoop fuel compiled rounds notifyUser).wp (told (ftpMessage compiled)) (fun _ _ => True) g := by
  induction rounds generalizing g notifyUser
  case zero           => trivial
  case succ rounds hi =>
    refine wp_bind.mpr (wp_mono (told_ftpServe h) fun o g h => ?_)
    rcases o with _ | r
    case none => trivial
    case some =>
      have h := h (Option.some_ne_none r)
      exact wp_call.mpr ⟨⟨h.wanted, h.pending⟩, fun _ _ => hi ⟨rfl, h.pending, h.wanted⟩⟩

-- In every run, both servers notify once of each interface that the first listing shows, in this order and before they
-- ask for a socket, and never again. They ask for a socket whenever a listing shows an interface.
theorem servers_notify {t : Trace Klog.ServerResult} {t' : Trace Result} {o o' : Option Unit}
    (hk : (Klog.pthreadKserver fuel).Observed t o) (hf : (Ftp.ftpMain fuel' compiled).Observed t' o') :
    klogTold.Met .init t ∧ (told (ftpMessage compiled)).Met .init t' := by
  have hr : Told.init.Rests true := ⟨rfl, rfl, rfl⟩
  have hs {g : Told} {e : Event Klog.ServerResult} : klogTold.Allows g e := by
    obtain ⟨_ | _, _⟩ := e
    all_goals trivial
  exact ⟨(wp_sound (told_kserverLoop hr) hk (Monitor.allowed_of_forall fun _ _ => hs)).left,
    (wp_sound (told_mainLoop hr) hf (Monitor.allowed_of_forall fun _ _ => trivial)).left⟩

-- The listener is closed because it does not accept.
def refusedSample : Trace Result :=
  [⟨.getifaddrs, some [⟨bytes "eth0", some ⟨afInet, 0x0100000a⟩⟩]⟩, ⟨.signal, ()⟩,
    ⟨.notify (bytes "Serving FTP\non 10.0.0.1:2121 (eth0)\nCompiled on now\n") [], ()⟩, ⟨.freeifaddrs, ()⟩,
    ⟨.socket, (5 : Int)⟩, ⟨.setsockopt 5, (0 : Int)⟩, ⟨.bind 5 2121, (0 : Int)⟩, ⟨.listen 5 5, (0 : Int)⟩,
    ⟨.accept 5, (-1 : Int)⟩, ⟨.close 5, (0 : Int)⟩, ⟨.sleep 3, ()⟩]

theorem servers_notify_sample :
    klogTold.Met .init Klog.lostSample ∧ (told (ftpMessage (bytes "now"))).Met .init refusedSample := by
  have hk : (Klog.pthreadKserver 3).Observed Klog.lostSample none := observed_of_replay (by decide +kernel)
  have hf : (Ftp.ftpMain 1 (bytes "now")).Observed refusedSample none := observed_of_replay (by decide +kernel)
  exact servers_notify hk hf

end PluginServer

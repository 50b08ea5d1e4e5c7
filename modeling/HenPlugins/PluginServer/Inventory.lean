import HenPlugins.PluginServer.Basic

open List hiding Disjoint
open Prog

namespace PluginServer

-- What a thread has open: descriptors that it will close or pass on, among them the ones of connected clients, and
-- descriptors that it has lost.
structure Inventory where
  live    : Finset Int
  clients : Finset Int
  lost    : Finset Int
deriving DecidableEq

namespace Inventory

def init : Inventory where
  live    := ∅
  clients := ∅
  lost    := ∅

def opened (g : Inventory) : Finset Int :=
  g.live ∪ g.lost

def gain (g : Inventory) (fd : Int) : Inventory :=
  if fd < 0 then g else { g with live := insert fd g.live }

def lose (g : Inventory) (fds : Finset Int) : Inventory where
  live    := g.live \ fds
  clients := g.clients \ fds
  lost    := g.lost ∪ fds

def release (g : Inventory) (fd : Int) : Inventory :=
  { g with live := g.live.erase fd, clients := g.clients.erase fd }

end Inventory

-- The system gives out numbers that are not in use. A thread makes use of what it has open, and has lost all that is
-- still open when it goes to sleep. A socket is lost if it cannot be made to listen, or waited on, and a connection if
-- there is no thread for it.
def inventory : Monitor Result Inventory where
  next g
    | ⟨.socket, fd⟩ | ⟨.accept _, fd⟩                                => g.gain fd
    | ⟨.setsockopt fd, r⟩ | ⟨.bind fd _, r⟩ | ⟨.listen fd _, r⟩ => if r = (0 : Int) then g else g.lose {fd}
    | ⟨.select fd, selected⟩                                         => if selected.code < 0 then g.lose {fd} else g
    | ⟨.pthreadCreate fd, r⟩                                         =>
      if r = (0 : Int) then g.release fd else g.lose {fd}
    | ⟨.close fd, _⟩                                                 => g.release fd
    | _                                                              => g
  Allows g
    | ⟨.socket, fd⟩ | ⟨.accept _, fd⟩                           => fd ∉ g.opened
    | ⟨.setsockopt _, r⟩ | ⟨.bind .., r⟩ | ⟨.listen .., r⟩ => r = (0 : Int) ∨ r = (-1 : Int)
    | _                                                         => True
  Demands g
    | .setsockopt fd | .bind fd _ | .listen fd _ | .select fd | .accept fd | .pthreadCreate fd | .close fd => fd ∈ g.live
    | .sleep _                                                                                              => g.live = ∅
    | _                                                                                                     => True

variable {g : Inventory} {fd : Int} {fds : Finset Int}

@[simp]
theorem Inventory.lose_live : (g.lose fds).live = g.live \ fds := rfl

@[simp]
theorem Inventory.lose_clients : (g.lose fds).clients = g.clients \ fds := rfl

@[simp]
theorem Inventory.lose_lost : (g.lose fds).lost = g.lost ∪ fds := rfl

@[simp]
theorem Inventory.release_live : (g.release fd).live = g.live.erase fd := rfl

@[simp]
theorem Inventory.release_clients : (g.release fd).clients = g.clients.erase fd := rfl

@[simp]
theorem Inventory.release_lost : (g.release fd).lost = g.lost := rfl

theorem Inventory.gain_of_neg (h : fd < 0) : g.gain fd = g :=
  if_pos h

theorem Inventory.gain_of_nonneg (h : ¬fd < 0) : g.gain fd = { g with live := insert fd g.live } :=
  if_neg h

theorem Inventory.not_mem_live (h : fd ∉ g.opened) : fd ∉ g.live :=
  fun hm => h (Finset.mem_union_left _ hm)

-- Nothing that is lost is live, and clients are.
structure Inventory.Proper (g : Inventory) : Prop where
  apart   : Disjoint g.live g.lost
  clients : g.clients ⊆ g.live
  nonneg  : ∀ fd ∈ g.live, 0 ≤ fd

namespace Inventory.Proper

theorem init : Inventory.init.Proper where
  apart   := Finset.disjoint_empty_left _
  clients := Finset.empty_subset _
  nonneg  := nofun

theorem gain (h : g.Proper) (hn : fd ∉ g.opened) : (g.gain fd).Proper := by
  by_cases hf : fd < 0
  case pos => exact (gain_of_neg hf).symm ▸ h
  case neg =>
    rw [gain_of_nonneg hf]
    constructor
    case apart   => exact Finset.disjoint_insert_left.mpr ⟨fun hm => hn (Finset.mem_union_right _ hm), h.apart⟩
    case clients => exact h.clients.trans (Finset.subset_insert ..)
    case nonneg  => exact Finset.forall_mem_insert _ _ _ |>.mpr ⟨not_lt.mp hf, h.nonneg⟩

theorem lose (h : g.Proper) : (g.lose fds).Proper where
  apart   := Finset.disjoint_union_right.mpr ⟨h.apart.mono_left Finset.sdiff_subset, Finset.sdiff_disjoint⟩
  clients := Finset.sdiff_subset_sdiff h.clients subset_rfl
  nonneg  := fun fd hm => h.nonneg fd (Finset.sdiff_subset hm)

theorem release (h : g.Proper) : (g.release fd).Proper where
  apart   := h.apart.mono_left (Finset.erase_subset ..)
  clients := Finset.erase_subset_erase _ h.clients
  nonneg  := fun fd hm => h.nonneg fd (Finset.mem_of_mem_erase hm)

end Inventory.Proper

-- Nothing is open that could be closed.
structure Inventory.Idle (g : Inventory) : Prop where
  live    : g.live = ∅
  clients : g.clients = ∅

-- All that could be closed is one socket.
structure Inventory.Waits (fd : Int) (g : Inventory) : Prop where
  live    : g.live = {fd}
  clients : g.clients = ∅

namespace Inventory.Waits

theorem mem (h : g.Waits fd) : fd ∈ g.live :=
  h.live ▸ Finset.mem_singleton_self fd

theorem lose (h : g.Waits fd) : (g.lose {fd}).Idle where
  live    := by simp [h.live]
  clients := by simp [h.clients]

theorem release (h : g.Waits fd) : (g.release fd).Idle where
  live    := by simp [h.live]
  clients := by simp [h.clients]

-- A call that prepares the socket

theorem failed {r : Int} (h : g.Waits fd) (hr : r ≠ 0) : (if r = 0 then g else g.lose {fd}).Idle := by
  rw [if_neg hr]
  exact h.lose

theorem done {r : Int} (h : g.Waits fd) (hr : r = 0) : (if r = 0 then g else g.lose {fd}).Waits fd := by
  rw [if_pos hr]
  exact h

end Inventory.Waits

theorem eq_zero_of_nonneg {r : Int} (hr : r = 0 ∨ r = -1) (hn : ¬r < 0) : r = 0 := by
  omega

theorem Inventory.Idle.gain_of_neg (h : g.Idle) (hf : fd < 0) : (g.gain fd).Idle := by
  rw [Inventory.gain_of_neg hf]
  exact h

theorem Inventory.Idle.gain (h : g.Idle) (hf : ¬fd < 0) : (g.gain fd).Waits fd := by
  rw [gain_of_nonneg hf]
  exact ⟨by simp [h.live], h.clients⟩

abbrev IsNotify : Call → Prop
  | .notify .. => True
  | _          => False

-- The loop over the interfaces only notifies.
theorem enumerate_within {notify : Bytes → Bytes → Proc Unit} {ifas : List Ifaddr} {ifaddrWait : Bool}
    (hn : ∀ ip name, (notify ip name).wp (within IsNotify) (fun o _ => o ≠ none) ()) :
    (enumerate notify ifas ifaddrWait).wp (within IsNotify) (fun o _ => o ≠ none) () := by
  induction ifas generalizing ifaddrWait
  case nil            => exact nofun
  case cons ifa ifas hi =>
    obtain ⟨name, _ | addr⟩ := ifa
    case none => exact hi
    case some =>
      refine wp_if (fun _ => hi) fun _ => wp_if (fun _ => hi) fun _ => wp_if (fun _ => hi) fun _ => ?_
      refine wp_bind.mpr <| wp_mono (hn _ _) fun o _ ho => ?_
      cases o
      case none => exact absurd rfl ho
      case some => exact hi

theorem enumerate_inventory {notify : Bytes → Bytes → Proc Unit} {ifas : List Ifaddr} {ifaddrWait : Bool}
    (hn : ∀ ip name, (notify ip name).wp (within IsNotify) (fun o _ => o ≠ none) ()) :
    (enumerate notify ifas ifaddrWait).wp inventory (fun o g' => o ≠ none ∧ g' = g) g := by
  refine wp_of_silent (fun c hc => ?_) (enumerate_within hn)
  cases c
  case notify => exact ⟨trivial, fun _ => rfl⟩
  all_goals contradiction

end PluginServer

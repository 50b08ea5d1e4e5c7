import HenPlugins.Ftp.Listener
import HenPlugins.PluginServer.Inventory

open List Prog PluginServer

namespace Ftp

variable {g : Inventory} {srvfd connfd fd : Int} {fuel rounds : Nat} {compiled : Bytes} {port : UInt16} {notifyUser : Bool}

theorem serveNotify_within {ip name : Bytes} :
    (serveNotify compiled port notifyUser ip name).wp (within IsNotify) (fun o _ => o ≠ none) () :=
  wp_if (fun _ => ⟨trivial, fun _ _ => nofun⟩) fun _ => nofun

-- A connection is passed on to its thread, or lost if there is none.
theorem waits_pthreadCreate {r : Int} (h : g.Waits srvfd) (hf : ¬connfd < 0) (hn : connfd ∉ g.opened) :
    (inventory.next (g.gain connfd) ⟨.pthreadCreate connfd, r⟩).Waits srvfd := by
  have hl := Inventory.not_mem_live hn
  rw [Inventory.gain_of_nonneg hf]
  by_cases hr : r = 0
  case pos =>
    have hg : inventory.next { g with live := insert connfd g.live } ⟨.pthreadCreate connfd, r⟩ = _ := if_pos hr
    rw [hg]
    refine ⟨(Finset.erase_insert hl).trans h.live, ?_⟩
    simp [h.clients]
  case neg =>
    have hg : inventory.next { g with live := insert connfd g.live } ⟨.pthreadCreate connfd, r⟩ = _ := if_neg hr
    rw [hg]
    refine ⟨?_, by simp [h.clients]⟩
    rw [Inventory.lose_live, Finset.sdiff_singleton_eq_erase]
    exact (Finset.erase_insert hl).trans h.live

theorem accounts_acceptLoop (h : g.Waits srvfd) :
    (acceptLoop srvfd fuel).wp inventory (fun o g => o ≠ none → g.Waits srvfd) g := by
  induction fuel generalizing g
  case zero         => exact absurd rfl
  case succ fuel hi =>
    refine wp_call.mpr ⟨h.mem, fun (connfd : Int) ha => wp_if (fun hf _ => ?_) fun hf => ?_⟩
    case refine_1 =>
      have hg : inventory.next g ⟨.accept srvfd, connfd⟩ = g := Inventory.gain_of_neg hf
      exact hg.symm ▸ h
    case refine_2 =>
      have hm : connfd ∈ (g.gain connfd).live := by
        rw [Inventory.gain_of_nonneg hf]
        exact Finset.mem_insert_self ..
      exact wp_call.mpr ⟨hm, fun r _ => hi (waits_pthreadCreate h hf ha)⟩

theorem accounts_ftpServe (h : g.Idle) :
    (ftpServe fuel compiled port notifyUser).wp inventory (fun o g => o ≠ none → g.Idle) g := by
  refine wp_call.mpr ⟨trivial, fun ifaddr _ => ?_⟩
  rcases ifaddr with _ | ifaddr
  case none => exact ⟨trivial, fun _ _ => absurd rfl⟩
  case some =>
    refine wp_call.mpr ⟨trivial, fun _ _ => wp_bind.mpr (wp_mono (enumerate_inventory fun _ _ => serveNotify_within) ?_)⟩
    rintro o _ ⟨ho, rfl⟩
    rcases o with _ | ifaddrWait
    case none => exact absurd rfl ho
    case some =>
      refine wp_call.mpr ⟨trivial, fun _ _ => wp_if (fun _ _ => h) fun _ => wp_call.mpr ⟨trivial, fun (srvfd : Int) _ => ?_⟩⟩
      refine wp_if (fun hf _ => h.gain_of_neg hf) fun hf => ?_
      have hs := h.gain hf
      refine wp_call.mpr ⟨hs.mem, fun (r : Int) hr => wp_if (fun hn _ => hs.failed hn.ne) fun hn => ?_⟩
      have hs := hs.done (eq_zero_of_nonneg hr hn)
      refine wp_call.mpr ⟨hs.mem, fun (r : Int) _ => wp_if (fun hn _ => hs.failed hn) fun hn => ?_⟩
      have hs := hs.done (not_not.mp hn)
      refine wp_call.mpr ⟨hs.mem, fun (r : Int) _ => wp_if (fun hn _ => hs.failed hn) fun hn => ?_⟩
      refine wp_bind.mpr (wp_mono (accounts_acceptLoop (hs.done (not_not.mp hn))) fun o g hg => ?_)
      rcases o with _ | _
      case none => exact absurd rfl
      case some => exact ⟨(hg nofun).mem, fun _ _ _ => (hg nofun).release⟩

theorem accounts_mainLoop (h : g.Idle) :
    (mainLoop fuel compiled rounds notifyUser).wp inventory (fun o _ => o = none) g := by
  induction rounds generalizing g notifyUser
  case zero           => rfl
  case succ rounds hi =>
    refine wp_bind.mpr (wp_mono (accounts_ftpServe h) fun o g hg => ?_)
    rcases o with _ | r
    case none => rfl
    case some => exact wp_call.mpr ⟨(hg nofun).live, fun _ _ => hi (hg nofun)⟩

theorem accounts_ftpMain : (ftpMain fuel compiled).wp inventory (fun o _ => o = none) .init :=
  accounts_mainLoop ⟨rfl, rfl⟩

end Ftp

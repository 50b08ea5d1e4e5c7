import HenPlugins.Klog.Basic
import HenPlugins.Library.ProgSum
import HenPlugins.PluginServer.Basic

open CString Number PluginServer

namespace Klog

abbrev ServerResult := Sum.elim PluginServer.Result Result

abbrev ServerProc := Prog ServerResult

abbrev net (c : PluginServer.Call) : ServerProc (PluginServer.Result c) :=
  @Prog.perform _ ServerResult (.inl c)

def serveNotify (path : Bytes) (port : UInt16) (notifyUser : Bool) (ip name : Bytes) : PluginServer.Proc Unit :=
  if notifyUser then
    PluginServer.perform (.notify (bytes "Serving %s\non %s:%d (%s)") [path, ip, decimal port.toNat, name])
  else return ()

-- The loop that waits for a connection.
def waitLoop (path : Bytes) (sockfd : Int) : (fuel : Nat) → ServerProc Int
  | 0        => .stop
  | fuel + 1 => do
    let selected ← net (.select sockfd)
    if selected.code < 0 then return -1
    else if selected.ready then do
      let r ← (serveFileWhileConnected fuel path sockfd).inr
      if r < 0 then do
        let _ ← net (.close sockfd)
        return -1
      else waitLoop path sockfd fuel
    else waitLoop path sockfd fuel

def serveFile (fuel : Nat) (path : Bytes) (port : UInt16) (notifyUser : Bool) : ServerProc Int := do
  match ← net .getifaddrs with
  | none        => return -1
  | some ifaddr => do
    let ifaddrWait ← (enumerate (serveNotify path port notifyUser) ifaddr true).inl
    let _ ← net .freeifaddrs
    if ifaddrWait then return 0
    else do
      let sockfd ← net .socket
      if sockfd < 0 then return -1
      else do
        let r ← net (.setsockopt sockfd)
        if r < 0 then return -1
        else do
          let r ← net (.bind sockfd port)
          if r < 0 then return -1
          else do
            let r ← net (.listen sockfd 5)
            if r < 0 then return -1 else waitLoop path sockfd fuel

-- Nothing is logged to the disk, as `log_to_disk` is 0.
def kserverLoop (fuel : Nat) : (rounds : Nat) → (notifyUser : Bool) → ServerProc Unit
  | 0, _                   => .stop
  | rounds + 1, notifyUser => do
    let _ ← serveFile fuel (bytes "/dev/klog") 3232 notifyUser
    net (.sleep 3)
    kserverLoop fuel rounds false

def pthreadKserver (fuel : Nat) : ServerProc Unit :=
  kserverLoop fuel fuel true

end Klog

import HenPlugins.PluginServer.Basic

open CString Number PluginServer

namespace Ftp

-- The text of the notification is used as a format without arguments. The date and the time of the compilation are
-- given.
def serveNotify (compiled : Bytes) (port : UInt16) (notifyUser : Bool) (ip name : Bytes) : PluginServer.Proc Unit :=
  let msg := bytes "Serving FTP\non " ++ ip ++ bytes ":" ++ decimal port.toNat ++ bytes " (" ++ name ++
    bytes ")\nCompiled on " ++ compiled ++ bytes "\n"
  if notifyUser then PluginServer.perform (.notify (msg.take 255) []) else return ()

def acceptLoop (srvfd : Int) : (fuel : Nat) → PluginServer.Proc Unit
  | 0        => .stop
  | fuel + 1 => do
    let connfd ← PluginServer.perform (.accept srvfd)
    if connfd < 0 then return ()
    else do
      let _ ← PluginServer.perform (.pthreadCreate connfd)
      acceptLoop srvfd fuel

def ftpServe (fuel : Nat) (compiled : Bytes) (port : UInt16) (notifyUser : Bool) : PluginServer.Proc Int := do
  match ← PluginServer.perform .getifaddrs with
  | none        => do
    PluginServer.perform .exit
    .stop
  | some ifaddr => do
    PluginServer.perform .signal
    let ifaddrWait ← enumerate (serveNotify compiled port notifyUser) ifaddr true
    PluginServer.perform .freeifaddrs
    if ifaddrWait then return 0
    else do
      let srvfd ← PluginServer.perform .socket
      if srvfd < 0 then return -1
      else do
        let r ← PluginServer.perform (.setsockopt srvfd)
        if r < 0 then return -1
        else do
          let r ← PluginServer.perform (.bind srvfd port)
          if r ≠ 0 then return -1
          else do
            let r ← PluginServer.perform (.listen srvfd 5)
            if r ≠ 0 then return -1
            else do
              acceptLoop srvfd fuel
              PluginServer.perform (.close srvfd)

def mainLoop (fuel : Nat) (compiled : Bytes) : (rounds : Nat) → (notifyUser : Bool) → PluginServer.Proc Unit
  | 0, _                   => .stop
  | rounds + 1, notifyUser => do
    let _ ← ftpServe fuel compiled 2121 notifyUser
    PluginServer.perform (.sleep 3)
    mainLoop fuel compiled rounds false

def ftpMain (fuel : Nat) (compiled : Bytes) : PluginServer.Proc Unit :=
  mainLoop fuel compiled fuel true

end Ftp

import HenPlugins.Library.LittleEndian
import HenPlugins.Library.Number
import HenPlugins.Library.Prog

open CString Number

-- What the threads of the plugin that wait for connections have in common.
namespace PluginServer

abbrev afInet : UInt8 := 2

-- The fields that are read of a `sockaddr_in`. The address is in network byte order.
structure Sockaddr where
  family  : UInt8
  sinAddr : BitVec 32
deriving DecidableEq

structure Ifaddr where
  name : Bytes
  addr : Option Sockaddr
deriving DecidableEq

-- What `select` returns, and whether the descriptor is left in the set.
structure Selected where
  code  : Int
  ready : Bool
deriving DecidableEq

-- The arguments of a notification are given as text.
inductive Call
  | getifaddrs
  | freeifaddrs
  | signal
  | notify        (fmt : Bytes) (args : List Bytes)
  | socket
  | setsockopt    (fd : Int)
  | bind          (fd : Int) (port : UInt16)
  | listen        (fd : Int) (backlog : Int)
  | select        (fd : Int)
  | accept        (fd : Int)
  | pthreadCreate (connfd : Int)
  | close         (fd : Int)
  | sleep         (seconds : Nat)
  | exit
deriving DecidableEq

abbrev Result : Call → Type
  | .getifaddrs => Option (List Ifaddr)
  | .select _   => Selected
  | .freeifaddrs | .signal | .notify .. | .sleep _ | .exit => Unit
  | .socket | .setsockopt _ | .bind .. | .listen .. | .accept _ | .pthreadCreate _ | .close _ => Int

abbrev Proc := Prog Result

abbrev perform (c : Call) : Proc (Result c) :=
  Prog.perform c

def inetNtop (sinAddr : BitVec 32) : Bytes :=
  (bytes ".").intercalate ((LittleEndian.encode 4 sinAddr.toNat).map fun b => decimal b.toNat)

-- The loop over the interfaces. It is still waited for one if all of them are skipped.
def enumerate (notify : (ip name : Bytes) → Proc Unit) : List Ifaddr → (ifaddrWait : Bool) → Proc Bool
  | [], ifaddrWait           => return ifaddrWait
  | ⟨name, addr⟩ :: ifas, ifaddrWait =>
    match addr with
    | none      => enumerate notify ifas ifaddrWait
    | some addr =>
      if addr.family ≠ afInet then enumerate notify ifas ifaddrWait
      else if startsWith name (bytes "lo") then enumerate notify ifas ifaddrWait
      else if startsWith (inetNtop addr.sinAddr) (bytes "0.") then enumerate notify ifas ifaddrWait
      else do
        notify (inetNtop addr.sinAddr) name
        enumerate notify ifas false

end PluginServer

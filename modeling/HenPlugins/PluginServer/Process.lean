import HenPlugins.Ftp.Theorems.Listener
import HenPlugins.Ftp.Theorems.Names
import HenPlugins.Klog.Theorems.Server
import HenPlugins.Library.Pool

-- The threads of the process: the log server, the file server, and the sessions that it starts. They have one table of
-- descriptors.
namespace PluginServer

inductive Kind
  | klog
  | ftp
  | session (activeFd : Int)

inductive Handle
  | fd  (n : Int)
  | dir (n : Nat)

abbrev KindCall : Kind → Type
  | .klog      => Call ⊕ Klog.Call
  | .ftp       => Call
  | .session _ => Ftp.Call

abbrev KindResult : (k : Kind) → KindCall k → Type
  | .klog      => Klog.ServerResult
  | .ftp       => Result
  | .session _ => Ftp.Result

abbrev KindState : Kind → Type
  | .klog | .ftp => Inventory
  | .session _   => Ftp.Hold

abbrev ServerThread := Thread KindResult (fun _ => Unit) KindState

def monitor : (k : Kind) → Monitor (KindResult k) (KindState k)
  | .klog             => Klog.account
  | .ftp              => inventory
  | .session activeFd => Ftp.holds activeFd

-- The numbers that the state of a session keeps count as held, be they open or not.
def held : (k : Kind) → KindState k → Set Handle
  | .klog, g | .ftp, g => { h | ∃ fd ∈ g.opened, h = .fd fd }
  | .session _, g      => { h | (∃ fd, 0 ≤ fd ∧ g.Names fd ∧ h = .fd fd) ∨ ∃ dir ∈ g.dirs, h = .dir dir }

def given (fd : Int) : Set Handle :=
  { h | 0 ≤ fd ∧ h = .fd fd }

def Call.uses : Call → Set Handle
  | .setsockopt fd | .bind fd _ | .listen fd _ | .select fd | .accept fd | .pthreadCreate fd | .close fd => {.fd fd}
  | _ => ∅

def Call.gives : Event Result → Set Handle
  | ⟨.socket, fd⟩ | ⟨.accept _, fd⟩ => given fd
  | _                               => ∅

def klogUses : Klog.Call → Set Handle
  | .open _                 => ∅
  | .select serverFd fileFd => {.fd serverFd, .fd fileFd}
  | .accept fd | .read fd | .write fd _ | .close fd => {.fd fd}

def klogGives : Event Klog.Result → Set Handle
  | ⟨.open _, fd⟩ | ⟨.accept _, fd⟩ => given fd
  | _                               => ∅

-- A call on a negative number is one on no descriptor.
def sessionUses : Ftp.Call → Set Handle
  | .activeWrite fd _ | .dataWrite fd _ | .write fd .. | .read fd _ | .recv fd _ | .getsockname fd | .bind fd _
  | .listen fd _ | .accept fd | .connect fd _ | .close fd | .lseekCur fd _ | .ftruncate fd _ => given fd
  | .readdir dir | .closedir dir => {.dir dir}
  | _ => ∅

def sessionGives : Event Ftp.Result → Set Handle
  | ⟨.socket, fd⟩ | ⟨.accept _, fd⟩ | ⟨.open .., fd⟩ => given fd
  | ⟨.opendir _, some dir⟩                           => {.dir dir}
  | _                                                => ∅

def session (fuel : Nat) (compiled : Bytes) (connfd : Int) : ServerThread where
  kind  := .session connfd
  prog  := Ftp.ftpThread fuel compiled connfd
  state := { fds := {connfd} }

def sharing (fuel : Nat) (compiled : Bytes) : Sharing Handle KindResult (fun _ => Unit) KindState where
  monitor := monitor
  inv
    | .klog, g | .ftp, g => g.Proper
    | .session _, _      => True
  held    := held
  uses
    | .klog, .inl c   => c.uses
    | .klog, .inr c   => klogUses c
    | .ftp, c         => c.uses
    | .session _, c   => sessionUses c
  gives
    | .klog, ⟨.inl c, r⟩ => Call.gives ⟨c, r⟩
    | .klog, ⟨.inr c, r⟩ => klogGives ⟨c, r⟩
    | .ftp, e            => Call.gives e
    | .session _, e      => sessionGives e
  starts
    | .ftp, ⟨.pthreadCreate connfd, r⟩ => if r = (0 : Int) then some (session fuel compiled connfd) else none
    | _, _                             => none

-- The threads that `plugin_load` creates
def start (fuel : Nat) (compiled : Bytes) : List ServerThread :=
  [⟨.klog, Klog.pthreadKserver fuel, .init⟩, ⟨.ftp, Ftp.ftpMain fuel compiled, .init⟩]

end PluginServer

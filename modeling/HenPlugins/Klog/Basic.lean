import HenPlugins.Library.Prog
import HenPlugins.Library.CString

namespace Klog

-- What `select` leaves in the set that it is given.
structure Selected where
  code   : Int
  server : Bool
  file   : Bool
deriving DecidableEq

-- One byte is read and written at a time. A read that returns anything other than 1 has no byte.
inductive Call
  | open   (path : Bytes)
  | select (serverFd fileFd : Int)
  | accept (serverFd : Int)
  | read   (fileFd : Int)
  | write  (clientFd : Int) (ch : UInt8)
  | close  (fd : Int)
deriving DecidableEq

abbrev Result : Call → Type
  | .select .. => Selected
  | .read _    => Option UInt8
  | .open _ | .accept _ | .write .. | .close _ => Int

abbrev Proc := Prog Result

abbrev perform (c : Call) : Proc (Result c) :=
  Prog.perform c

abbrev fdSetSize := 1024

-- The descriptors that a set may contain, in the order in which they are gone through.
def fdSet : List Int :=
  (List.range fdSetSize).map Int.ofNat

theorem mem_fdSet {fd : Int} : fd ∈ fdSet ↔ 0 ≤ fd ∧ fd < fdSetSize := by
  simp only [fdSet, List.mem_map, List.mem_range]
  constructor
  case mp =>
    rintro ⟨n, hn, rfl⟩
    simp only [fdSetSize, Int.ofNat_eq_natCast] at *
    omega
  case mpr =>
    intro ⟨h₁, h₂⟩
    exact ⟨fd.toNat, by omega, Int.toNat_of_nonneg h₁⟩

theorem nodup_fdSet : fdSet.Nodup :=
  List.nodup_range.map Int.ofNat_injective

theorem length_fdSet : fdSet.length = fdSetSize := by
  simp [fdSet]

-- The list is too long to be unfolded by accident.
attribute [irreducible] fdSet

structure Clients where
  outputSet     : Finset Int
  nbConnections : BitVec 64

namespace Clients

def none : Clients where
  outputSet     := ∅
  nbConnections := 0

def add (s : Clients) (clientFd : Int) : Clients where
  outputSet     := insert clientFd s.outputSet
  nbConnections := s.nbConnections + 1

def drop (s : Clients) (clientFd : Int) : Clients where
  outputSet     := s.outputSet.erase clientFd
  nbConnections := s.nbConnections - 1

end Clients

-- How a round of the loop ends: at the condition of the loop, at a `break`, or at the `return` behind `select`.
inductive Round
  | next (s : Clients)
  | left (s : Clients) (err : Int)
  | returned

def acceptClient (serverFd : Int) (selected : Selected) (s : Clients) : Proc (Option Clients) :=
  if selected.server then do
    let clientFd ← perform (.accept serverFd)
    if clientFd < 0 then return none else return some (s.add clientFd)
  else return some s

def broadcast (ch : UInt8) : List Int → Clients → Proc Clients
  | [], s => return s
  | clientFd :: fds, s =>
    if clientFd ∈ s.outputSet then do
      let n ← perform (.write clientFd ch)
      if n ≠ 1 then do
        let _ ← perform (.close clientFd)
        broadcast ch fds (s.drop clientFd)
      else broadcast ch fds s
    else broadcast ch fds s

def serveData (fileFd : Int) (s : Clients) : Proc Round := do
  match ← perform (.read fileFd) with
  | none    => return .left s (-1)
  | some ch => return .next (← broadcast ch fdSet s)

def serveRound (serverFd fileFd : Int) (s : Clients) : Proc Round := do
  let selected ← perform (.select serverFd fileFd)
  -- `continue` goes on with the condition of the loop.
  if selected.code = 0 then return .next s
  else if selected.code = -1 then do
    let _ ← perform (.close fileFd)
    return .returned
  else do
    match ← acceptClient serverFd selected s with
    | none   => return .left s (-1)
    | some s => if selected.file then serveData fileFd s else return .next s

-- The clients that are left at the end of the loop, unless the function has returned.
def serveLoop (serverFd fileFd : Int) : (fuel : Nat) → Clients → Proc (Option (Clients × Int))
  | 0, _        => .stop
  | fuel + 1, s => do
    match ← serveRound serverFd fileFd s with
    | .next s     => if s.nbConnections > 0 then serveLoop serverFd fileFd fuel s else return some (s, 0)
    | .left s err => return some (s, err)
    | .returned   => return none

def closeClients : List Int → Clients → Proc Unit
  | [], _ => return ()
  | clientFd :: fds, s =>
    if clientFd ∈ s.outputSet then do
      let _ ← perform (.close clientFd)
      closeClients fds { s with outputSet := s.outputSet.erase clientFd }
    else closeClients fds s

def serveFileWhileConnected (fuel : Nat) (path : Bytes) (serverFd : Int) : Proc Int := do
  let fileFd ← perform (.open path)
  if fileFd < 0 then return -1
  else do
    match ← serveLoop serverFd fileFd fuel .none with
    | none          => return -1
    | some (s, err) => do
      closeClients fdSet s
      let _ ← perform (.close fileFd)
      return err

end Klog

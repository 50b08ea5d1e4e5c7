import HenPlugins.Library.LittleEndian
import HenPlugins.Library.Number
import HenPlugins.Library.Prog

open CString

namespace Ftp

-- `PATH_MAX` and `PAGE_SIZE` of the system
abbrev pathMax  := 1024
abbrev pageSize := 0x4000

abbrev slash : UInt8 := 47

instance : NeZero pathMax :=
  ⟨by decide⟩

-- The fields of `sockaddr_in` that are set to more than constants, in network byte order.
structure SockAddr where
  addr : BitVec 32
  port : BitVec 16
deriving DecidableEq

-- `ctime` and `rawSize` are what is found at the offsets 0x38 and 0x48 of the structure.
structure Stat where
  mode    : BitVec 32
  size    : Int
  ctime   : BitVec 64
  rawSize : BitVec 64
deriving DecidableEq

inductive Errno
  | eintr
  | other
deriving DecidableEq

-- What `read` and `recv` return: an error, or at most as many bytes as asked for.
abbrev Input (count : Nat) :=
  Except Errno { bs : Bytes // bs.length ≤ count }

-- What `write` returns. More than `SSIZE_MAX` bytes are an invalid argument.
abbrev Written (count : BitVec 64) :=
  { n : Int // n = -1 ∨ 0 ≤ n ∧ n ≤ count.toNat ∧ count.toNat < 2 ^ 63 }

inductive OpenFlags
  | rdonly
  | creatWronly
deriving DecidableEq

-- The calls that leave the program. The places at which `write` is called are told apart: `activeWrite` writes to
-- the control connection and `dataWrite` to the data connection. A path is given as the string that the buffer
-- holds, or as the whole buffer if it is not terminated.
inductive Call
  | activeWrite (fd : Int) (buf : Bytes)
  | dataWrite   (fd : Int) (buf : Bytes)
  | write       (fd : Int) (buf : Bytes) (count : BitVec 64)
  | read        (fd : Int) (count : Nat)
  | recv        (fd : Int) (count : Nat)
  | getsockname (fd : Int)
  | socket
  | bind        (fd : Int) (addr : SockAddr)
  | listen      (fd : Int) (backlog : Int)
  | accept      (fd : Int)
  | connect     (fd : Int) (addr : SockAddr)
  | close       (fd : Int)
  | open        (path : Bytes) (flags : OpenFlags)
  | lseekCur    (fd : Int) (off : Int)
  | ftruncate   (fd : Int) (off : Int)
  | stat        (path : Bytes)
  | opendir     (path : Bytes)
  | readdir     (dir : Nat)
  | closedir    (dir : Nat)
  | chmod       (path : Bytes) (mode : BitVec 32)
  | remove      (path : Bytes)
  | mkdir       (path : Bytes) (mode : BitVec 32)
  | rmdir       (path : Bytes)
  | rename      (path newPath : Bytes)
  | strerror
  | strerrorR
  | strftime    (time : BitVec 64)
  | calloc      (count : Nat)
  | realloc     (count : Nat)
  | getpid
  | exit
deriving DecidableEq

-- A call that may fail without a number for it returns nothing then. What `realloc` adds to a buffer is arbitrary.
abbrev Result : Call → Type
  | .write _ _ count => Written count
  | .read _ count | .recv _ count => Input count
  | .getsockname _   => Option SockAddr
  | .stat _          => Option Stat
  | .opendir _       => Option Nat
  | .readdir _       => Option Bytes
  | .strerrorR       => Option Bytes
  | .strerror | .strftime _ => Bytes
  | .calloc _        => Bool
  | .realloc count   => Option { bs : Bytes // bs.length = count }
  | .exit            => Unit
  | .activeWrite .. | .dataWrite .. | .socket | .bind .. | .listen .. | .accept _ | .connect .. | .close _ | .open ..
  | .lseekCur .. | .ftruncate .. | .closedir _ | .chmod .. | .remove _ | .mkdir .. | .rmdir _ | .rename .. | .getpid => Int

abbrev Proc := Prog Result

abbrev perform (c : Call) : Proc (Result c) :=
  Prog.perform c

-- The state of a client.
structure Env where
  dataFd     : Int
  activeFd   : Int
  passiveFd  : Int
  cwd        : Buf pathMax
  type       : UInt8
  dataOffset : Int
  renamePath : Bytes
  dataAddr   : SockAddr
deriving DecidableEq

abbrev printfSize := 0x1000

-- Whether the text has been written in full.
def ftpActivePrintf (env : Env) (text : Bytes) : Proc Int := do
  let buf := text.take (printfSize - 1)
  let n ← perform (.activeWrite env.activeFd buf)
  return if n = buf.length then 0 else -1

def ftpDataPrintf (env : Env) (text : Bytes) : Proc Int := do
  let buf := text.take (printfSize - 1)
  let n ← perform (.dataWrite env.dataFd buf)
  return if n = buf.length then 0 else -1

def ftpPerror (env : Env) : Proc Int := do
  let buf := (← perform .strerrorR).getD (bytes "Unknown error")
  ftpActivePrintf env (bytes "550 " ++ buf ++ bytes "\r\n")

-- What `return ftp_active_printf(...)` and `return ftp_perror(env)` come to in a command.

def reply (env : Env) (text : Bytes) : Proc (Int × Env) := do
  return (← ftpActivePrintf env text, env)

def perror (env : Env) : Proc (Int × Env) := do
  return (← ftpPerror env, env)

def ftpDataOpen (env : Env) : Proc (Int × Env) :=
  if env.dataAddr.port ≠ 0 then do
    let r ← perform (.connect env.dataFd env.dataAddr)
    return (if r ≠ 0 then -1 else 0, env)
  else do
    let dataFd ← perform (.accept env.passiveFd)
    return (if dataFd < 0 then -1 else 0, { env with dataFd := dataFd })

def ftpDataRead (env : Env) (count : Nat) : Proc (Input count) :=
  perform (.recv env.dataFd count)

def ftpDataClose (env : Env) : Proc Int := do
  let r ← perform (.close env.dataFd)
  return if r = 0 then 0 else -1

-- The string that the destination of `PATH_MAX` bytes holds, or all of it if there is no terminator in it.
def ftpAbspath (env : Env) (path : Bytes) : Bytes :=
  if path.head? ≠ some slash then (env.cwd.text ++ slash :: path).take pathMax else path.take pathMax

end Ftp

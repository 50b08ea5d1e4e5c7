import HenPlugins.Ftp.Cmd

open CString Number

namespace Ftp

-- Loops of a command are observed for the given number of rounds.
abbrev Command := Nat → Env → Bytes → Proc (Int × Env)

def commands : List (Bytes × Command) := [
  (bytes "APPE",  ftpCmdAPPE),
  (bytes "CDUP",  fun _ => ftpCmdCDUP),
  (bytes "CWD",   fun _ => ftpCmdCWD),
  (bytes "DELE",  fun _ => ftpCmdDELE),
  (bytes "LIST",  ftpCmdLIST),
  (bytes "MKD",   fun _ => ftpCmdMKD),
  (bytes "NOOP",  fun _ => ftpCmdNOOP),
  (bytes "PASV",  fun _ => ftpCmdPASV),
  (bytes "PORT",  fun _ => ftpCmdPORT),
  (bytes "PWD",   fun _ => ftpCmdPWD),
  (bytes "QUIT",  fun _ => ftpCmdQUIT),
  (bytes "REST",  fun _ => ftpCmdREST),
  (bytes "RETR",  ftpCmdRETR),
  (bytes "RMD",   fun _ => ftpCmdRMD),
  (bytes "RNFR",  fun _ => ftpCmdRNFR),
  (bytes "RNTO",  fun _ => ftpCmdRNTO),
  (bytes "SIZE",  fun _ => ftpCmdSIZE),
  (bytes "STOR",  ftpCmdSTOR),
  (bytes "SYST",  fun _ => ftpCmdSYST),
  (bytes "TYPE",  fun _ => ftpCmdTYPE),
  (bytes "USER",  fun _ => ftpCmdUSER),
  (bytes "KILL",  fun _ => ftpCmdKILL),
  (bytes "MTRW",  fun _ => ftpCmdMTRW),
  (bytes "CHMOD", fun _ => ftpCmdCHMOD),
  (bytes "XCUP",  fun _ => ftpCmdCWD),
  (bytes "XMKD",  fun _ => ftpCmdMKD),
  (bytes "XPWD",  fun _ => ftpCmdPWD),
  (bytes "XRMD",  fun _ => ftpCmdRMD),
  (bytes "XRCP",  fun _ => ftpCmdUnavailable),
  (bytes "XRSQ",  fun _ => ftpCmdUnavailable),
  (bytes "XSEM",  fun _ => ftpCmdUnavailable),
  (bytes "XSEN",  fun _ => ftpCmdUnavailable)]

-- The name of the command and its argument, which is empty if there is no separator.
def splitLine (line : Bytes) : Bytes × Bytes :=
  (strchr line space).getD (line, [])

def ftpExecute (fuel : Nat) (env : Env) (line : Bytes) : Proc (Int × Env) :=
  let (name, arg) := splitLine line
  match commands.find? (·.fst = name) with
  | some (_, func) => func fuel env arg
  | none           => ftpCmdUnknown env arg

-- The buffer of a line and the position in it.
structure LineBuffer where
  buffer   : Bytes
  position : Nat

abbrev bufsize := 1024

-- The line is what stands in the buffer in front of the first terminator.
def readlineLoop (fd : Int) : (fuel : Nat) → LineBuffer → Proc (Option Bytes)
  | 0, _ => .stop
  | fuel + 1, ⟨buffer, position⟩ => do
    match ← perform (.read fd 1) with
    | .error .eintr => readlineLoop fd fuel ⟨buffer, position⟩
    | .error .other => return none
    | .ok ⟨bs, _⟩ =>
      match bs.head? with
      | none   => return none
      | some c =>
        if c = cr then readlineLoop fd fuel ⟨buffer.set position 0, 0⟩
        else if c = lf then return some (cstr buffer)
        else
          let buffer := buffer.set position c
          if position + 1 ≥ buffer.length then do
            match ← perform (.realloc bufsize) with
            | none    => return none
            | some bs => readlineLoop fd fuel ⟨buffer ++ bs.val, position + 1⟩
          else readlineLoop fd fuel ⟨buffer, position + 1⟩

def ftpReadline (fuel : Nat) (fd : Int) : Proc (Option Bytes) := do
  if ← perform (.calloc bufsize) then readlineLoop fd fuel ⟨List.replicate bufsize 0, 0⟩ else return none

abbrev msgSize := 0x100

-- The date and the time of the compilation are given.
def ftpGreet (compiled : Bytes) (env : Env) : Proc Int := do
  let pid ← perform .getpid
  let msg := bytes "220-Welcome to ftpsrv.elf running on pid " ++ bytes (toString pid) ++ bytes ", compiled at " ++
    compiled ++ bytes "\r\n"
  let msg := msg.take (msgSize - 1) ++ bytes "220 Service is ready\r\n"
  let n ← perform (.activeWrite env.activeFd msg)
  return if n = msg.length then 0 else -1

-- The command in a line.
def siteCmd (line : Bytes) : Bytes :=
  if startsWith line (bytes "SITE ") then line.drop 5 else line

def threadLoop : (fuel : Nat) → Env → Proc Env
  | 0, _          => .stop
  | fuel + 1, env => do
    match ← ftpReadline fuel env.activeFd with
    | none      => return env
    | some line => do
      let (r, env) ← ftpExecute fuel env (siteCmd line)
      if r ≠ 0 then return env else threadLoop fuel env

def initEnv (activeFd : Int) : Env where
  dataFd     := -1
  activeFd   := activeFd
  passiveFd  := -1
  cwd        := .strncpy [slash]
  type       := 65
  dataOffset := 0
  renamePath := []
  dataAddr   := ⟨0, 0⟩

def threadEnd (env : Env) : Proc Unit := do
  closeFd env.activeFd
  closeFd env.passiveFd
  closeFd env.dataFd

def ftpThread (fuel : Nat) (compiled : Bytes) (activeFd : Int) : Proc Unit := do
  let r ← ftpGreet compiled (initEnv activeFd)
  let env ← if r = 0 then threadLoop fuel (initEnv activeFd) else pure (initEnv activeFd)
  threadEnd env

end Ftp

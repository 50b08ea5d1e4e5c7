import HenPlugins.Ftp.Basic

open CString Number

-- Every command returns what the function returns, and the state of the client after it. A result other than 0
-- ends the session.
namespace Ftp

-- `if (fd > 0) { close(fd); }`
def closeFd (fd : Int) : Proc Unit :=
  if fd > 0 then do
    let _ ← perform (.close fd)
    return ()
  else return ()

-- `int ret = ftp_perror(env); close(fd); return ret;`
def perrorClose (env : Env) (fd : Int) : Proc (Int × Env) := do
  let ret ← ftpPerror env
  let _ ← perform (.close fd)
  return (ret, env)

-- `err = ftp_perror(env); ftp_data_close(env); close(fd); return err;`
def perrorDataClose (env : Env) (fd : Int) : Proc Int := do
  let err ← ftpPerror env
  let _ ← ftpDataClose env
  let _ ← perform (.close fd)
  return err

def passiveReply (addr : BitVec 32) (port : BitVec 16) : Bytes :=
  let a := LittleEndian.encode 4 addr.toNat
  let p := LittleEndian.encode 2 port.toNat
  bytes "227 Entering Passive Mode (" ++ (bytes ",").intercalate ((a ++ p).map fun b => decimal b.toNat) ++ bytes ").\r\n"

def ftpCmdPASV (env : Env) (_ : Bytes) : Proc (Int × Env) := do
  match ← perform (.getsockname env.activeFd) with
  | none          => perror env
  | some sockaddr => do
    closeFd env.passiveFd
    let passiveFd ← perform .socket
    let env := { env with passiveFd := passiveFd }
    if passiveFd < 0 then perror env
    else do
      let r ← perform (.bind passiveFd ⟨0, 0⟩)
      if r ≠ 0 then perrorClose env passiveFd
      else do
        let r ← perform (.listen passiveFd 5)
        if r ≠ 0 then perrorClose env passiveFd
        else do
          match ← perform (.getsockname passiveFd) with
          | none       => perrorClose env passiveFd
          | some bound => reply env (passiveReply sockaddr.addr bound.port)

-- The loop that looks for the last slash. The position is -1 if there is none.
def lastSlash (pos : Int) (i : Nat) : Bytes → Int
  | []     => pos
  | c :: s => lastSlash (if c = slash then i else pos) (i + 1) s

def ftpCmdCDUP (env : Env) (_ : Bytes) : Proc (Int × Env) :=
  let pos := lastSlash (-1) 0 env.cwd.text
  let cwd := if pos ≤ 0 then .strncpy [slash] else .strncpy (env.cwd.text.take pos.toNat)
  reply { env with cwd := cwd } (bytes "250 OK\r\n")

def ftpCmdCHMOD (env : Env) (arg : Bytes) : Proc (Int × Env) :=
  match strchr arg space with
  | none           => reply env (bytes "501 Usage: CHMOD <MODE> <PATH>\r\n")
  | some (_, path) => do
    let mode := strtol 8 arg
    let r ← perform (.chmod (ftpAbspath env path) (.ofInt 32 mode))
    if r ≠ 0 then perror env else reply env (bytes "200 OK\r\n")

def sIfmt : BitVec 32 := 0o170000

abbrev isDir (mode : BitVec 32) : Bool :=
  mode &&& sIfmt = 0o040000

def ftpCmdCWD (env : Env) (arg : Bytes) : Proc (Int × Env) :=
  if arg = [] then reply env (bytes "501 Usage: CWD <PATH>\r\n")
  else do
    let path := ftpAbspath env arg
    match ← perform (.stat path) with
    | none    => perror env
    | some st =>
      if ¬isDir st.mode then reply env (bytes "550 No such directory\r\n")
      else reply { env with cwd := .strncpy path } (bytes "250 OK\r\n")

-- The commands that make a single call for a path.
def pathCmd (usage done : String) (call : Bytes → Proc Int) (env : Env) (arg : Bytes) : Proc (Int × Env) :=
  if arg = [] then reply env (bytes usage)
  else do
    let r ← call (ftpAbspath env arg)
    if r ≠ 0 then perror env else reply env (bytes done)

def ftpCmdDELE : Env → Bytes → Proc (Int × Env) :=
  pathCmd "501 Usage: DELE <FILENAME>\r\n" "226 File deleted\r\n" fun path => perform (.remove path)

def ftpCmdMKD : Env → Bytes → Proc (Int × Env) :=
  pathCmd "501 Usage: MKD <DIRNAME>\r\n" "226 Directory created\r\n" fun path => perform (.mkdir path 0o777)

def ftpCmdRMD : Env → Bytes → Proc (Int × Env) :=
  pathCmd "501 Usage: RMD <DIRNAME>\r\n" "226 Directory deleted\r\n" fun path => perform (.rmdir path)

def modeChar (mode : BitVec 32) (i : Nat) : UInt8 :=
  let bit := mode.getLsbD i
  if i % 3 = 0 ∧ mode.getLsbD (i / 3 + 9) then
    let c := (bytes "tss").getD (i / 3) 0
    if bit then c else c &&& ~~~0x20
  else if bit then (bytes "xwr").getD (i % 3) 0
  else 45

def typeChar (mode : BitVec 32) : UInt8 :=
  if isDir mode then 100
  else if mode &&& sIfmt = 0o060000 then 98
  else if mode &&& sIfmt = 0o020000 then 99
  else if mode &&& sIfmt = 0o120000 then 108
  else if mode &&& sIfmt = 0o010000 then 112
  else if mode &&& sIfmt = 0o140000 then 115
  else 45

def ftpModeString (mode : BitVec 32) : Bytes :=
  typeChar mode :: (List.range 9).reverse.map (modeChar mode)

def listPath (env : Env) (p name : Bytes) : Bytes :=
  let path :=
    if p.head? = some slash then p ++ slash :: name else slash :: env.cwd.text ++ slash :: p ++ slash :: name
  path.take (pathMax + 256 + 1)

def listLine (st : Stat) (time name : Bytes) : Bytes :=
  ftpModeString st.mode ++ bytes " 0 0 0 " ++ decimal st.rawSize.toNat ++ bytes " " ++ time ++ bytes " " ++ name ++
    bytes "\r\n"

def listLoop (env : Env) (p : Bytes) (dir : Nat) : (fuel : Nat) → Proc Unit
  | 0        => .stop
  | fuel + 1 => do
    match ← perform (.readdir dir) with
    | none      => return ()
    | some name => do
      match ← perform (.stat (listPath env p name)) with
      | none    => listLoop env p dir fuel
      | some st => do
        let time ← perform (.strftime st.ctime)
        let _ ← ftpDataPrintf env (listLine st time name)
        listLoop env p dir fuel

def ftpCmdLIST (fuel : Nat) (env : Env) (arg : Bytes) : Proc (Int × Env) := do
  let p := if arg ≠ [] ∧ arg.head? ≠ some 45 then arg else env.cwd.text
  match ← perform (.opendir p) with
  | none     => perror env
  | some dir => do
    let (r, env) ← ftpDataOpen env
    if r ≠ 0 then perror env
    else do
      let _ ← ftpActivePrintf env (bytes "150 Opening data transfer\r\n")
      listLoop env p dir fuel
      let r ← ftpDataClose env
      if r ≠ 0 then do
        let ret ← ftpPerror env
        let _ ← perform (.closedir dir)
        return (ret, env)
      else do
        let r ← perform (.closedir dir)
        if r ≠ 0 then perror env else reply env (bytes "226 Transfer complete\r\n")

def ftpCmdNOOP (env : Env) (_ : Bytes) : Proc (Int × Env) :=
  reply env (bytes "200 NOOP OK\r\n")

def ftpCmdPORT (env : Env) (arg : Bytes) : Proc (Int × Env) :=
  match sscanfBytes 6 arg with
  | none      => reply env (bytes "501 Usage: PORT <addr>\r\n")
  | some addr => do
    let dataFd ← perform .socket
    let env := { env with dataFd := dataFd }
    if dataFd < 0 then perror env
    else do
      let dataAddr : SockAddr := {
        addr := .ofNat 32 (LittleEndian.decode (addr.take 4))
        port := .ofNat 16 (LittleEndian.decode (addr.drop 4)) }
      reply { env with dataAddr := dataAddr } (bytes "200 PORT command successful.\r\n")

def ftpCmdPWD (env : Env) (_ : Bytes) : Proc (Int × Env) :=
  reply env (bytes "257 \"" ++ env.cwd.text ++ bytes "\"\r\n")

def ftpCmdQUIT (env : Env) (_ : Bytes) : Proc (Int × Env) := do
  let _ ← ftpActivePrintf env (bytes "221 Goodbye\r\n")
  return (-1, env)

def ftpCmdREST (env : Env) (arg : Bytes) : Proc (Int × Env) :=
  if arg = [] then reply env (bytes "501 Usage: REST <OFFSET>\r\n")
  else reply { env with dataOffset := atol arg } (bytes "350 REST OK\r\n")

-- The loops of the transfers either come to their end or return from the command with an error.

def retrLoop (env : Env) (fd : Int) : (fuel : Nat) → Proc (Except Int Unit)
  | 0        => .stop
  | fuel + 1 => do
    match ← perform (.read fd pageSize) with
    | .error _ => return .error (← perrorDataClose env fd)
    | .ok ⟨buf, _⟩ =>
      if buf = [] then return .ok ()
      else do
        let n ← perform (.dataWrite env.dataFd buf)
        if buf.length ≠ n then return .error (← perrorDataClose env fd) else retrLoop env fd fuel

def ftpCmdRETR (fuel : Nat) (env : Env) (arg : Bytes) : Proc (Int × Env) :=
  if arg = [] then reply env (bytes "501 Usage: RETR <PATH>\r\n")
  else do
    let path := ftpAbspath env arg
    match ← perform (.stat path) with
    | none    => perror env
    | some st =>
      if isDir st.mode then reply env (bytes "550 Not a file\r\n")
      else do
        let fd ← perform (.open path .rdonly)
        if fd < 0 then reply env (bytes "550 " ++ (← perform .strerror) ++ bytes "\r\n")
        else do
          let r ← ftpActivePrintf env (bytes "150 Opening data transfer\r\n")
          if r ≠ 0 then do
            let _ ← perform (.close fd)
            return (-1, env)
          else do
            let (r, env) ← ftpDataOpen env
            if r ≠ 0 then perrorClose env fd
            else do
              match ← retrLoop env fd fuel with
              | .error err => return (err, env)
              | .ok ()     => do
                let _ ← perform (.close fd)
                let r ← ftpDataClose env
                if r ≠ 0 then perror env else reply env (bytes "226 Transfer completed\r\n")

-- The path is overwritten before it is known whether it exists.
def ftpCmdRNFR (env : Env) (arg : Bytes) : Proc (Int × Env) :=
  if arg = [] then reply env (bytes "501 Usage: RNFR <PATH>\r\n")
  else do
    let env := { env with renamePath := ftpAbspath env arg }
    match ← perform (.stat env.renamePath) with
    | none   => perror env
    | some _ => reply env (bytes "350 Awaiting new name\r\n")

def ftpCmdRNTO (env : Env) (arg : Bytes) : Proc (Int × Env) :=
  if arg = [] then reply env (bytes "501 Usage: RNTO <PATH>\r\n")
  else do
    match ← perform (.stat env.renamePath) with
    | none   => perror env
    | some _ => do
      let r ← perform (.rename env.renamePath (ftpAbspath env arg))
      if r ≠ 0 then perror env else reply env (bytes "226 Path renamed\r\n")

def ftpCmdSIZE (env : Env) (arg : Bytes) : Proc (Int × Env) :=
  if arg = [] then reply env (bytes "501 Usage: SIZE <FILENAME>\r\n")
  else do
    match ← perform (.stat (ftpAbspath env arg)) with
    | none    => perror env
    | some st => reply env (bytes "213 " ++ decimal (BitVec.ofInt 64 st.size).toNat ++ bytes "\r\n")

-- `(size_t) recv(...)`
def recvLen {count : Nat} : Input count → BitVec 64
  | .error _ => -1
  | .ok bs   => .ofNat 64 bs.val.length

def recvBytes {count : Nat} : Input count → Bytes
  | .error _ => []
  | .ok bs   => bs

-- `off += len`, where the offset is signed and the length is not
def addOff (off : Int) (len : BitVec 64) : Int :=
  (BitVec.ofInt 64 off + len).toInt

abbrev readbufSize := 0x4000

-- The offset behind what has been received. The length of an error is not 0.
def storLoop (env : Env) (fd : Int) : (fuel : Nat) → (off : Int) → Proc (Except Int Int)
  | 0, _          => .stop
  | fuel + 1, off => do
    let readbuf ← ftpDataRead env readbufSize
    let len := recvLen readbuf
    if len = 0 then return .ok off
    else do
      let n ← perform (.write fd (recvBytes readbuf) len)
      if BitVec.ofInt 64 n ≠ len then return .error (← perrorDataClose env fd)
      else storLoop env fd fuel (addOff off len)

def ftpCmdSTOR (fuel : Nat) (env : Env) (arg : Bytes) : Proc (Int × Env) :=
  let off := env.dataOffset
  let env := { env with dataOffset := 0 }
  if arg = [] then reply env (bytes "501 Usage: STOR <FILENAME>\r\n")
  else do
    let fd ← perform (.open (ftpAbspath env arg) .creatWronly)
    if fd < 0 then perror env
    else do
      let r ← perform (.lseekCur fd off)
      if r < 0 then perrorClose env fd
      else do
        let r ← ftpActivePrintf env (bytes "150 Opening data transfer\r\n")
        if r ≠ 0 then do
          let _ ← perform (.close fd)
          return (-1, env)
        else do
          let (r, env) ← ftpDataOpen env
          if r ≠ 0 then perrorClose env fd
          else do
            match ← storLoop env fd fuel off with
            | .error err => return (err, env)
            | .ok off    => do
              let r ← perform (.ftruncate fd off)
              if r ≠ 0 then return (← perrorDataClose env fd, env)
              else do
                let _ ← perform (.close fd)
                let r ← ftpDataClose env
                if r ≠ 0 then perror env else reply env (bytes "226 Data transfer complete\r\n")

def ftpCmdAPPE (fuel : Nat) (env : Env) (arg : Bytes) : Proc (Int × Env) :=
  if arg = [] then reply env (bytes "501 Usage: APPE <FILENAME>\r\n")
  else if env.dataOffset = 0 then do
    match ← perform (.stat (ftpAbspath env arg)) with
    | none    => perror env
    | some st => ftpCmdSTOR fuel { env with dataOffset := st.size } arg
  else ftpCmdSTOR fuel env arg

def ftpCmdSYST (env : Env) (_ : Bytes) : Proc (Int × Env) :=
  reply env (bytes "215 UNIX Type: L8\r\n")

def ftpCmdTYPE (env : Env) (arg : Bytes) : Proc (Int × Env) :=
  match arg.head? with
  | some 65 => reply { env with type := 65 } (bytes "200 Type set to A\r\n")
  | some 73 => reply { env with type := 73 } (bytes "200 Type set to I\r\n")
  | _       => reply env (bytes "501 Invalid argument to TYPE\r\n")

def ftpCmdUSER (env : Env) (_ : Bytes) : Proc (Int × Env) :=
  reply env (bytes "230 User logged in\r\n")

-- The process ends.
def ftpCmdKILL (_ : Env) (_ : Bytes) : Proc (Int × Env) := do
  perform .exit
  .stop

def ftpCmdUnavailable (env : Env) (_ : Bytes) : Proc (Int × Env) :=
  reply env (bytes "502 Command not implemented\r\n")

def ftpCmdUnknown (env : Env) (_ : Bytes) : Proc (Int × Env) :=
  reply env (bytes "502 Command not recognized\r\n")

def ftpCmdMTRW (env : Env) (_ : Bytes) : Proc (Int × Env) :=
  reply env (bytes "226 command not supported\r\n")

end Ftp

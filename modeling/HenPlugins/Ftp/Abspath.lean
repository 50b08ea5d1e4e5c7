import HenPlugins.Library.CharArray
import HenPlugins.Ftp.Basic

open CString CharArray

-- `ftp_abspath` on the arrays that it writes to.
namespace Ftp

-- The destination afterwards. What `buf` and `abspath` hold before is given.
def ftpAbspathArray (env : Env) (buf abspath path : Bytes) : Option Bytes :=
  if path.head? ≠ some slash then do
    let buf ← snprintf buf (pathMax + 1) (env.cwd.text ++ slash :: path)
    strncpy abspath (← string buf) pathMax
  else strncpy abspath path pathMax

-- The arrays that are handed over by a call. The argument of `opendir` is not one of them, but the argument of the
-- command or the working directory.
def Call.buffers : Call → List Bytes
  | .stat path | .open path _ | .chmod path _ | .remove path | .mkdir path _ | .rmdir path => [path]
  | .rename path newPath => [path, newPath]
  | _ => []

end Ftp

import HenPlugins.Memory.Basic
import HenPlugins.Memory.Scan

open List

namespace Memory

def readU64 (m : Mem) (x : Addr) : BitVec 64 :=
  (loadU64 x).result m

-- What `get_code_info` stores is given, if it succeeds. The first component is what is stored at `target_call`.
def patchInternalCallList (m : Mem) (textbase : Addr) (textsz : BitVec 64) (targetSymbol : Bytes)
    (codeInfo : Option (Addr × BitVec 64)) (destCall : Addr) : Option Addr × Mem :=
  match charScan m textbase textsz targetSymbol with
  | none         => (none, m)
  | some monoSym =>
    match codeInfo with
    | none                => (none, m)
    | some (pPage, pSize) =>
      match u64Scan m pPage pSize monoSym with
      | none   => (none, m)
      | some p => (some (readU64 m (p + 8)), sysProcRw m (p + 8) (LittleEndian.encode 8 destCall.toNat))

end Memory

import HenPlugins.Memory.Cave

namespace Memory

-- The ways in which a function is patched once its prologue has been copied.
inductive Patch
  | jump64 (dst : Addr)
  | jump32 (dst : Addr) (call : Bool)

structure Hook extends HookCall where
  patch : Patch

-- A jump with a 32-bit displacement is as long as the minimum size.
def Hook.apply (h : Hook) (m : Mem) : Mem :=
  match h.patch with
  | .jump64 dst      => writeJump64 m h.address dst
  | .jump32 dst call => writeJump32 m h.address dst h.minInstructionSize.toNat call

-- A hook whose function has been patched, the address of its block in the cave, and the number of bytes
-- that have been copied to it.
structure Installed where
  hook  : Hook
  block : Addr
  size  : Nat

section

variable (disasm : Disasm) (cavePadFunc : Addr)

-- The installation of a hook, as in `UploadOnBranch`.
def install (s : CaveState) (h : Hook) : Option Installed × CaveState :=
  let n := getInstructionSize disasm (caveBlockInit cavePadFunc s).mem h.address h.minInstructionSize.toNat
  let (pHook, s) := createPrologueHook disasm cavePadFunc s h.address h.minInstructionSize
  if pHook ≠ 0 then (some ⟨h, pHook, n⟩, { s with mem := h.apply s.mem }) else (none, s)

-- The hooks that are installed by a sequence of installations, the last one first.
def installAll (s : CaveState) : List Hook → List Installed × CaveState :=
  List.foldl (fun (is, s) h => ((install disasm cavePadFunc s h).1.toList ++ is, (install disasm cavePadFunc s h).2))
    ([], s)

end

end Memory

import HenPlugins.Hde.Basic

open List Decoder

namespace Hde

variable {l : Locals} {hs : Hde64s} {cflags pref op64 : UInt8}

theorem local_prefixes {x : Nat} : Local (prefixes x l) := by
  induction x generalizing l
  case zero => exact local_pure
  case succ x hi =>
    refine local_next.bind fun c => ?_
    split
    · exact hi
    · exact local_pure

theorem local_rex : Local (rex l) :=
  local_peek_bind_next fun _ => local_pure

theorem local_opcode : Local (opcode l) := by
  refine .bind ?_ fun _ => local_lift.bind fun _ => local_pure
  exact local_ite (fun _ => local_next.bind fun _ => local_pure) fun _ => local_ite (fun _ => local_pure) fun _ => local_pure

theorem local_rexOpcode : Local (rexOpcode l) :=
  local_rex.bind fun _ => local_ite (fun _ => local_pure) fun _ => local_opcode

theorem local_sib {mod rm : UInt8} {n : Nat} : Local (sib hs mod rm n) :=
  local_peek_bind_ite (fun _ => local_pure) local_pure

theorem local_modrm : Local (modrm l) :=
  local_next.bind fun _ => local_lift.bind fun _ =>
    (local_sib.bind fun _ => local_take.bind fun _ => local_pure).bind fun _ => local_pure

theorem local_immediate {flags : UInt32} {n : Nat} : Local (immediate flags n hs) :=
  local_take.bind fun _ => local_pure

theorem local_imm8 : Local (imm8 cflags hs) := by
  refine .bind (local_ite (fun _ => local_immediate) fun _ => local_pure) fun _ => ?_
  exact local_ite (fun _ => local_immediate) fun _ => local_ite (fun _ => local_immediate) fun _ => local_pure

theorem local_imm16 : Local (imm16 cflags hs) :=
  .bind (local_ite (fun _ => local_immediate) fun _ => local_pure) fun _ => local_imm8

theorem local_imm : Local (imm pref op64 cflags hs) := by
  refine local_ite (fun _ => ?_) fun _ => local_imm16
  refine local_ite (fun _ => local_ite (fun _ => local_immediate) fun _ => local_immediate) fun _ => ?_
  refine local_ite (fun _ => local_immediate.bind fun _ => local_imm16) fun _ => ?_
  exact local_ite (fun _ => local_immediate.bind fun _ => local_imm16) fun _ => local_immediate.bind fun _ => local_imm8

theorem local_decode : Local decode := by
  refine local_prefixes.bind fun l => ?_
  refine .bind (local_ite (fun _ => local_rexOpcode) fun _ => local_opcode) fun l => ?_
  refine local_lift.bind fun l => local_lift.bind fun b => ?_
  exact .bind (local_ite (fun _ => local_modrm) fun _ => local_pure) fun l => local_imm

end Hde

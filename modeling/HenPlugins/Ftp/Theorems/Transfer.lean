import HenPlugins.Library.File
import HenPlugins.Ftp.Theorems.Stor
import HenPlugins.Ftp.Theorems.Log

open List Prog Monitor CString Number

namespace Ftp

-- The file with a given path, as its descriptor sees it, and the data connection: what the client is still to send
-- and what has been sent to it. The numbers of the replies are kept.
structure Disk where
  path   : Bytes
  file   : Option Bytes
  fd     : Option Int := none
  pos    : Nat        := 0
  conn   : Option Int := none
  stream : Bytes      := []
  sent   : Bytes      := []
  codes  : List Nat   := []

namespace Disk

def next (g : Disk) : Event Result → Disk
  | ⟨.open _ .creatWronly, fd⟩ => { g with file := some (g.file.getD []), fd := some fd, pos := 0 }
  | ⟨.open _ .rdonly, fd⟩      => { g with fd := some fd, pos := 0 }
  | ⟨.lseekCur _ _, r⟩         => if r < (0 : Int) then g else { g with pos := r.toNat }
  | ⟨.write _ buf _, _⟩        => { g with file := g.file.map (File.write g.pos buf), pos := g.pos + buf.length }
  | ⟨.read _ _, .ok bs⟩        => { g with pos := g.pos + bs.val.length }
  | ⟨.ftruncate _ off, _⟩      => { g with file := g.file.map (File.truncate off.toNat) }
  | ⟨.connect fd _, _⟩         => { g with conn := some fd }
  | ⟨.accept _, fd⟩            => { g with conn := some fd }
  | ⟨.recv _ _, .ok bs⟩        => { g with stream := g.stream.drop bs.val.length }
  | ⟨.dataWrite _ buf, _⟩      => { g with sent := g.sent ++ buf }
  | ⟨.activeWrite _ buf, _⟩    => { g with codes := g.codes ++ (replyCode buf).toList }
  | _                          => g

-- Some of what is left is read, or nothing at its end.
def Reads (bs rest : Bytes) : Prop :=
  bs <+: rest ∧ (bs = [] → rest = [])

-- What is answered if there are no errors. A file is a regular one and ends at an `off_t`.
def Allows (g : Disk) : Event Result → Prop
  | ⟨.stat _, st⟩              => st.map Stat.size = g.file.map (fun c => (c.length : Int)) ∧ ∀ s ∈ st, isDir s.mode = false
  | ⟨.open _ .creatWronly, fd⟩ => (0 : Int) ≤ fd
  | ⟨.open _ .rdonly, fd⟩      => (0 : Int) ≤ fd ↔ g.file.isSome
  | ⟨.lseekCur _ off, r⟩       => if 0 ≤ g.pos + off then r = g.pos + off else r < (0 : Int)
  | ⟨.write _ buf _, n⟩        => n.val = buf.length ∧ g.pos + buf.length < 2 ^ 63
  | ⟨.read _ _, r⟩             => ∃ bs, r = .ok bs ∧ Reads bs.val ((g.file.getD []).drop g.pos)
  | ⟨.recv _ _, r⟩             => ∃ bs, r = .ok bs ∧ Reads bs.val g.stream
  | ⟨.ftruncate .., r⟩         => r = (0 : Int)
  | ⟨.connect .., r⟩           => r = (0 : Int)
  | ⟨.close _, r⟩              => r = (0 : Int)
  | ⟨.accept _, fd⟩            => (0 : Int) ≤ fd
  | ⟨.dataWrite _ buf, n⟩      => n = (buf.length : Int)
  | ⟨.activeWrite _ buf, n⟩    => n = (buf.length : Int)
  | _                          => True

-- The calls concern the file and the data connection.
def Demands (g : Disk) : Call → Prop
  | .stat path | .open path _                                       => path = g.path
  | .lseekCur fd _ | .write fd .. | .read fd _ | .ftruncate fd _    => g.fd = some fd
  | .recv fd _ | .dataWrite fd _                                    => g.conn = some fd
  | _                                                               => True

end Disk

def disk : Monitor Result Disk where
  next    := Disk.next
  Allows  := Disk.Allows
  Demands := Disk.Demands

variable {α : Type} {env : Env} {text arg bs c d : Bytes} {g : Disk} {fd off k : Int} {fuel : Nat} {o : Option (Int × Env)}

theorem disk_ftpActivePrintf {Q : Option α → Disk → Prop} {f : Int → Proc α} {n : Nat} (hc : replyCode text = some n)
    (h : (f 0).wp disk Q { g with codes := g.codes ++ [n] }) : (ftpActivePrintf env text >>= f).wp disk Q g := by
  refine ⟨trivial, fun r ha => ?_⟩
  have hr : (if r = ((text.take (printfSize - 1)).length : Int) then (0 : Int) else -1) = 0 := if_pos ha
  have hg : disk.next g ⟨.activeWrite env.activeFd (text.take (printfSize - 1)), r⟩ = { g with codes := g.codes ++ [n] } :=
    congrArg (fun code => { g with codes := g.codes ++ code.toList }) (@replyCode_take _ (printfSize - 5) n hc)
  have h' : (f (if r = ((text.take (printfSize - 1)).length : Int) then 0 else -1)).wp disk Q
      { g with codes := g.codes ++ [n] } := by
    rw [hr]
    exact h
  rw [hg]
  exact h'

theorem disk_reply {Q : Option (Int × Env) → Disk → Prop} {n : Nat} (hc : replyCode text = some n)
    (h : Q (some (0, env)) { g with codes := g.codes ++ [n] }) : (reply env text).wp disk Q g :=
  disk_ftpActivePrintf hc h

theorem disk_perrorClose {Q : Option (Int × Env) → Disk → Prop}
    (h : Q (some (0, env)) { g with codes := g.codes ++ [550] }) : (perrorClose env fd).wp disk Q g := by
  refine ⟨trivial, fun buf _ => ?_⟩
  refine disk_ftpActivePrintf (n := 550) ?_ ⟨trivial, fun _ _ => h⟩
  rw [append_assoc]
  exact replyCode_append (by decide)

theorem disk_ftpDataClose {Q : Option α → Disk → Prop} {f : Int → Proc α} (h : (f 0).wp disk Q g) :
    (ftpDataClose env >>= f).wp disk Q g := by
  refine ⟨trivial, fun r (hr : r = 0) => ?_⟩
  subst hr
  exact h

-- The data connection is opened.
theorem disk_ftpDataOpen {Q : Option α → Disk → Prop} {f : Int × Env → Proc α}
    (h : ∀ dataFd, (f (0, { env with dataFd := dataFd })).wp disk Q { g with conn := some dataFd }) :
    (ftpDataOpen env >>= f).wp disk Q g := by
  refine wp_bind.mpr (wp_if (fun _ => ⟨trivial, fun r (hr : r = 0) => ?_⟩) fun _ => ⟨trivial, fun dataFd ha => ?_⟩)
  case refine_1 =>
    subst hr
    exact h env.dataFd
  case refine_2 =>
    have hr : (if dataFd < 0 then (-1 : Int) else 0) = 0 := if_neg (Int.not_lt.mpr ha)
    have h' : (f (if dataFd < 0 then -1 else 0, { env with dataFd := dataFd })).wp disk Q { g with conn := some dataFd } := by
      rw [hr]
      exact h dataFd
    exact h'

-- Chunks have been written, and together with what is left they make up `d`.
structure Storing (env : Env) (fd off : Int) (d : Bytes) (g : Disk) : Prop where
  file  : ∃ c, g.file = some c ∧ File.upto g.pos c ++ g.stream = d
  pos   : off = g.pos
  fd    : g.fd = some fd
  conn  : g.conn = some env.dataFd
  codes : g.codes = [150]

-- What is left behind by the loop of an upload, which is stopped before the end of the stream or comes to it.
def Stores (env : Env) (fd : Int) (d : Bytes) (rounds : Nat) : Option (Except Int Int) → Disk → Prop
  | none, g            => rounds = 0 ∧ g.codes = [150]
  | some (.error _), _ => False
  | some (.ok off), g  => Storing env fd off d g ∧ g.stream = []

theorem addOff_eq {pos n : Nat} (h : pos + n < 2 ^ 63) : addOff pos (.ofNat 64 n) = (pos + n : Nat) := by
  have hn : (BitVec.ofNat 64 (pos + n)).toNat = pos + n := by
    rw [BitVec.toNat_ofNat]
    omega
  rw [addOff, BitVec.ofInt_natCast, ← BitVec.ofNat_add, BitVec.toInt_eq_toNat_of_lt (by omega), hn]

theorem Disk.Reads.drop {rest : Bytes} (h : Reads bs rest) : rest = bs ++ rest.drop bs.length := by
  have ⟨s, hs⟩ := h.left
  rw [← hs, drop_left]

theorem Storing.append (h : Storing env fd off d g) (hr : Disk.Reads bs g.stream) (hs : g.pos + bs.length < 2 ^ 63) :
    Storing env fd (addOff off (.ofNat 64 bs.length)) d { g with
      file := g.file.map (File.write g.pos bs), pos := g.pos + bs.length, stream := g.stream.drop bs.length } where
  file := by
    have ⟨c, hc, hd⟩ := h.file
    refine ⟨File.write g.pos bs c, by rw [hc, Option.map_some], ?_⟩
    rw [File.upto_write, append_assoc, ← hr.drop, hd]
  pos   := by rw [h.pos, addOff_eq hs]
  fd    := h.fd
  conn  := h.conn
  codes := h.codes

theorem Disk.Reads.length_drop {rest : Bytes} (h : Reads bs rest) (hz : bs ≠ []) : (rest.drop bs.length).length < rest.length := by
  have hl := h.left.length_le
  have hp := length_pos_iff.mpr hz
  rw [List.length_drop]
  omega

theorem disk_storLoop (h : Storing env fd off d g) :
    (storLoop env fd fuel off).wp disk (Stores env fd d (fuel - g.stream.length)) g := by
  induction fuel generalizing off g
  case zero => exact ⟨Nat.zero_sub _, h.codes⟩
  case succ fuel hi =>
    refine wp_call.mpr ⟨h.conn, ?_⟩
    rintro readbuf ⟨⟨bs, hb⟩, rfl, hr⟩
    refine wp_if (fun hl => ?_) fun hl => wp_call.mpr ⟨h.fd, fun n ⟨hn, hs⟩ => wp_if (fun hw => ?_) fun _ => ?_⟩
    case refine_1 =>
      obtain rfl := (recvLen_eq_zero hb).mp hl
      exact ⟨h, hr.right rfl⟩
    case refine_2 => exact absurd (hn ▸ BitVec.ofInt_natCast ..) hw
    case refine_3 =>
      have hz : bs ≠ [] := fun hz => hl ((recvLen_eq_zero hb).mpr hz)
      have hd : (g.stream.drop bs.length).length < g.stream.length := hr.length_drop hz
      apply wp_mono (hi (h.append hr hs))
      intro o g' hg
      rcases o with _ | err | off
      case none =>
        have hf : fuel - (g.stream.drop bs.length).length = 0 := hg.left
        exact ⟨by omega, hg.right⟩
      case some.error => exact hg
      case some.ok    => exact hg

-- The descriptor is moved, or cannot be moved in front of the beginning of the file.
theorem disk_lseek {Q : Option α → Disk → Prop} {f : Int → Proc α} (hf : g.fd = some fd)
    (h : 0 ≤ g.pos + off → (f (g.pos + off)).wp disk Q { g with pos := (g.pos + off).toNat })
    (hn : ∀ r < 0, g.pos + off < 0 → (f r).wp disk Q g) : (perform (.lseekCur fd off) >>= f).wp disk Q g := by
  refine wp_call.mpr ⟨hf, fun r (hr : if 0 ≤ g.pos + off then r = g.pos + off else r < (0 : Int)) => ?_⟩
  split at hr
  case isTrue ho =>
    have hg : disk.next g ⟨.lseekCur fd off, r⟩ = { g with pos := r.toNat } := if_neg (hr ▸ Int.not_lt.mpr ho)
    rw [hg, hr]
    exact h ho
  case isFalse ho =>
    have hg : disk.next g ⟨.lseekCur fd off, r⟩ = g := if_pos hr
    rw [hg]
    exact hn r hr (Int.not_le.mp ho)

-- If success is reported, `P` holds. This is the case as soon as the command is observed for long enough.
structure Transferred (P : Prop) (len rounds : Nat) (o : Option (Int × Env)) (codes : List Nat) : Prop where
  content : 226 ∈ codes → P
  success : len < rounds → (∃ env, o = some (0, env)) ∧ 226 ∈ codes

-- The file is what it was in front of the offset, followed by what has been received.
def Stored (k : Int) (c d : Bytes) (rounds : Nat) (o : Option (Int × Env)) (g : Disk) : Prop :=
  (k < 0 → 226 ∉ g.codes) ∧
  (0 ≤ k → Transferred (g.file = some (File.upto k.toNat c ++ d)) d.length rounds o g.codes)

theorem disk_ftpCmdSTOR (ha : arg ≠ []) (hp : g.path = ftpAbspath env arg) (hc : g.codes = []) :
    (ftpCmdSTOR fuel env arg).wp disk (Stored env.dataOffset (g.file.getD []) g.stream fuel) g := by
  have h550 : 226 ∉ [550] := by decide
  refine wp_if (fun hn => absurd hn ha) fun _ => wp_call.mpr ⟨hp.symm, fun fd hf => ?_⟩
  refine wp_if (fun hn => absurd hf (Int.not_le.mpr hn)) fun _ => disk_lseek rfl (fun hk => ?_) fun r hr hk => ?_
  case refine_2 =>
    have hk : ((0 : Nat) : Int) + env.dataOffset < 0 := hk
    have hn : 226 ∉ g.codes ++ [550] := by simp [hc]
    exact wp_if (fun _ => disk_perrorClose ⟨fun _ => hn, fun ho => by omega⟩) fun hn => absurd hr hn
  case refine_1 =>
    have hk : 0 ≤ ((0 : Nat) : Int) + env.dataOffset := hk
    refine wp_if (fun hn => absurd hk (Int.not_le.mpr hn)) fun _ => disk_ftpActivePrintf replyCode_opening (wp_if (absurd rfl) fun _ => ?_)
    refine disk_ftpDataOpen fun dataFd => wp_if (absurd rfl) fun _ => wp_bind.mpr ?_
    have hb : Storing { env with dataOffset := 0, dataFd := dataFd } fd env.dataOffset
        (File.upto env.dataOffset.toNat (g.file.getD []) ++ g.stream)
        { g with file := some (g.file.getD []), fd := some fd, pos := (((0 : Nat) : Int) + env.dataOffset).toNat,
                 conn := some dataFd, codes := g.codes ++ [150] } := {
      file  := ⟨_, rfl, by rw [Nat.cast_zero, zero_add]⟩
      pos   := by
        show env.dataOffset = ((((0 : Nat) : Int) + env.dataOffset).toNat : Int)
        omega
      fd    := rfl
      conn  := rfl
      codes := by rw [hc, nil_append] }
    apply wp_mono (disk_storLoop hb)
    intro o g' hg
    rcases o with _ | err | off
    case none =>
      have hf : fuel - g.stream.length = 0 := hg.left
      have hn : 226 ∉ g'.codes := by simp [hg.right]
      exact ⟨fun _ => hn, fun _ => ⟨fun hm => absurd hm hn, fun hl => by omega⟩⟩
    case some.error => exact absurd hg id
    case some.ok =>
      have ⟨hs, he⟩ := hg
      have ⟨c, hf, hd⟩ := hs.file
      refine wp_call.mpr ⟨hs.fd, fun r (hr : r = 0) => ?_⟩
      subst hr
      refine wp_if (absurd rfl) fun _ => ⟨trivial, fun _ _ => disk_ftpDataClose (wp_if (absurd rfl) fun _ => ?_)⟩
      have hm : 226 ∈ g'.codes ++ [226] := mem_append_right _ (mem_singleton_self _)
      refine disk_reply (n := 226) (by decide) ⟨fun hn => by omega, fun _ => ⟨fun _ => ?_, fun _ => ⟨⟨_, rfl⟩, hm⟩⟩⟩
      show g'.file.map (File.truncate off.toNat) = _
      rw [hf, hs.pos, ← hd, he, append_nil]
      rfl

-- What is known of a file that exists.
theorem disk_stat {Q : Option α → Disk → Prop} {f : Option Stat → Proc α} {path : Bytes} (hp : path = g.path)
    (hf : g.file = some c) (h : ∀ st : Stat, st.size = c.length → isDir st.mode = false → (f (some st)).wp disk Q g) :
    (perform (.stat path) >>= f).wp disk Q g := by
  refine wp_call.mpr ⟨hp, fun st ⟨hs, hd⟩ => ?_⟩
  rw [hf, Option.map_some] at hs
  rcases st with _ | st
  case none => exact absurd hs nofun
  case some => exact h st (Option.some.inj hs) (hd st rfl)

theorem disk_ftpCmdAPPE (ha : arg ≠ []) (hp : g.path = ftpAbspath env arg) (hc : g.codes = []) (ho : env.dataOffset = 0)
    (hf : g.file = some c) : (ftpCmdAPPE fuel env arg).wp disk (Stored c.length c g.stream fuel) g := by
  refine wp_if (fun hn => absurd hn ha) fun _ => wp_if (fun _ => ?_) fun hn => absurd ho hn
  refine disk_stat hp.symm hf fun st hs _ => ?_
  have h := @disk_ftpCmdSTOR { env with dataOffset := st.size } arg g fuel ha hp hc
  rw [hf, Option.getD_some] at h
  exact (congrArg (Stored · c g.stream fuel) hs) ▸ h

-- What has been sent and what is left make up the file.
structure Sending (env : Env) (fd : Int) (c : Bytes) (g : Disk) : Prop where
  file  : g.file = some c
  sent  : g.sent ++ c.drop g.pos = c
  fd    : g.fd = some fd
  conn  : g.conn = some env.dataFd
  codes : g.codes = [150]

-- What is left behind by the loop of a download, which is stopped before the end of the file or comes to it.
def Sends (c : Bytes) (rounds : Nat) : Option (Except Int Unit) → Disk → Prop
  | none, g            => rounds = 0 ∧ g.codes = [150]
  | some (.error _), _ => False
  | some (.ok ()), g   => g.sent = c ∧ g.codes = [150]

theorem disk_retrLoop (h : Sending env fd c g) :
    (retrLoop env fd fuel).wp disk (Sends c (fuel - (c.drop g.pos).length)) g := by
  induction fuel generalizing g
  case zero => exact ⟨Nat.zero_sub _, h.codes⟩
  case succ fuel hi =>
    refine wp_call.mpr ⟨h.fd, ?_⟩
    rintro buf ⟨⟨bs, hb⟩, rfl, hr⟩
    replace hr : Disk.Reads bs (c.drop g.pos) := by rwa [h.file] at hr
    refine wp_if (fun hz => ?_) fun hz => wp_call.mpr ⟨h.conn, fun n (hn : n = (bs.length : Int)) => ?_⟩
    case refine_1 =>
      have hs := h.sent
      rw [hr.right hz, append_nil] at hs
      exact ⟨hs, h.codes⟩
    case refine_2 =>
      refine wp_if (fun hw => absurd hn.symm hw) fun _ => ?_
      have hd : (c.drop (g.pos + bs.length)).length < (c.drop g.pos).length := by
        rw [← drop_drop]
        exact hr.length_drop hz
      have hs : Sending env fd c { g with pos := g.pos + bs.length, sent := g.sent ++ bs } := {
        file  := h.file
        sent  := by rw [append_assoc, ← drop_drop, ← hr.drop, h.sent]
        fd    := h.fd
        conn  := h.conn
        codes := h.codes }
      apply wp_mono (hi hs)
      intro o g' hg
      rcases o with _ | err | _
      case none =>
        have hf : fuel - (c.drop (g.pos + bs.length)).length = 0 := hg.left
        exact ⟨by omega, hg.right⟩
      case some.error => exact hg
      case some.ok    => exact hg

theorem disk_ftpCmdRETR (ha : arg ≠ []) (hp : g.path = ftpAbspath env arg) (hc : g.codes = []) (hs : g.sent = [])
    (hf : g.file = some c) : (ftpCmdRETR fuel env arg).wp disk (fun o g => Transferred (g.sent = c) c.length fuel o g.codes) g := by
  refine wp_if (fun hn => absurd hn ha) fun _ => disk_stat hp.symm hf fun st _ hd => ?_
  refine wp_if (fun hn => absurd hn (by simp [hd])) fun _ => wp_call.mpr ⟨hp.symm, fun fd (ho : 0 ≤ fd ↔ g.file.isSome) => ?_⟩
  refine wp_if (fun hn => absurd (ho.mpr (by simp [hf])) (Int.not_le.mpr hn)) fun _ => ?_
  refine disk_ftpActivePrintf replyCode_opening (wp_if (absurd rfl) fun _ => disk_ftpDataOpen fun dataFd => ?_)
  refine wp_if (absurd rfl) fun _ => wp_bind.mpr ?_
  have hb : Sending { env with dataFd := dataFd } fd c
      { g with fd := some fd, pos := 0, conn := some dataFd, codes := g.codes ++ [150] } :=
    ⟨hf, by rw [hs, drop_zero, nil_append], rfl, rfl, by rw [hc, nil_append]⟩
  apply wp_mono (disk_retrLoop hb)
  intro o g' hg
  rcases o with _ | err | _
  case none =>
    have hl : fuel - c.length = 0 := hg.left
    have hn : 226 ∉ g'.codes := by simp [hg.right]
    exact ⟨fun hm => absurd hm hn, fun hl => by omega⟩
  case some.error => exact absurd hg id
  case some.ok =>
    refine ⟨trivial, fun _ _ => disk_ftpDataClose (wp_if (absurd rfl) fun _ => ?_)⟩
    have hm : 226 ∈ g'.codes ++ [226] := mem_append_right _ (mem_singleton_self _)
    exact disk_reply (n := 226) (by decide) ⟨fun _ => hg.left, fun _ => ⟨⟨_, rfl⟩, hm⟩⟩

-- The offset at which an upload is restarted: that of a REST that has just been accepted, or 0 if none is pending.
inductive Restarts (env : Env) : Int → Prop
  | rest {env' : Env} {arg : Bytes} {t : Trace Result} (ha : arg ≠ [])
    (h : (ftpCmdREST env' arg).Observed t (some (0, env))) : Restarts env (atol arg)
  | none (h : env.dataOffset = 0) : Restarts env 0

theorem Restarts.dataOffset (h : Restarts env k) : env.dataOffset = k := by
  cases h
  case none h => exact h
  case rest env' arg' t ha h =>
    have he := (wp_sound log_ftpCmdREST h log_allowed).right.right 0 env rfl
    rw [he]
    exact if_neg ha

-- What the client is still to send, and the file that it names.
def Disk.start (env : Env) (arg : Bytes) (c : Option Bytes) (d : Bytes) : Disk where
  path   := ftpAbspath env arg
  file   := c
  stream := d

-- Without errors, an upload replaces what is behind the offset, an appending one adds to the file, and a download
-- sends it.
theorem transfer_contents (ha : arg ≠ []) (hk : Restarts env k) :
    (∀ fuel c d t o, (ftpCmdSTOR fuel env arg).Observed t o → disk.Allowed (.start env arg c d) t →
      disk.Met (.start env arg c d) t ∧ Stored k (c.getD []) d fuel o (disk.after (.start env arg c d) t)) ∧
    (k = 0 → ∀ fuel c d t o, (ftpCmdAPPE fuel env arg).Observed t o → disk.Allowed (.start env arg (some c) d) t →
      disk.Met (.start env arg (some c) d) t ∧
        Transferred ((disk.after (.start env arg (some c) d) t).file = some (c ++ d)) d.length fuel o
          (disk.after (.start env arg (some c) d) t).codes) ∧
    ∀ fuel c d t o, (ftpCmdRETR fuel env arg).Observed t o → disk.Allowed (.start env arg (some c) d) t →
      disk.Met (.start env arg (some c) d) t ∧
        Transferred ((disk.after (.start env arg (some c) d) t).sent = c) c.length fuel o
          (disk.after (.start env arg (some c) d) t).codes := by
  refine ⟨fun fuel c d t o ho hd => ?_, fun hz fuel c d t o ho hd => ?_, fun fuel c d t o ho hd => ?_⟩
  case refine_1 =>
    have hw := @disk_ftpCmdSTOR env arg (.start env arg c d) fuel ha rfl rfl
    rw [hk.dataOffset] at hw
    exact wp_sound hw ho hd
  case refine_2 =>
    have ⟨hm, _, ht⟩ := wp_sound (disk_ftpCmdAPPE ha rfl rfl (hk.dataOffset.trans hz) rfl) ho hd
    have ht := ht (Int.natCast_nonneg _)
    rw [Int.toNat_natCast, File.upto_length] at ht
    exact ⟨hm, ht⟩
  case refine_3 => exact wp_sound (disk_ftpCmdRETR ha rfl rfl rfl rfl) ho hd

-- Two bytes are stored behind the second byte of a file, a third one is appended, and the file is retrieved.

def storeTrace : Trace Result :=
  [⟨.open (bytes "/f") .creatWronly, (7 : Int)⟩, ⟨.lseekCur 7 2, (2 : Int)⟩,
    ⟨.activeWrite 4 (bytes "150 Opening data transfer\r\n"), (27 : Int)⟩, ⟨.accept 6, (8 : Int)⟩,
    ⟨.recv 8 readbufSize, chunk [65]⟩, ⟨.write 7 [65] 1, written 1⟩,
    ⟨.recv 8 readbufSize, chunk [66]⟩, ⟨.write 7 [66] 1, written 1⟩,
    ⟨.recv 8 readbufSize, chunk []⟩, ⟨.ftruncate 7 4, (0 : Int)⟩, ⟨.close 7, (0 : Int)⟩,
    ⟨.close 8, (0 : Int)⟩, ⟨.activeWrite 4 (bytes "226 Data transfer complete\r\n"), (28 : Int)⟩]

def appendTrace : Trace Result :=
  [⟨.stat (bytes "/f"), some ⟨0o100644, 4, 0, 4⟩⟩, ⟨.open (bytes "/f") .creatWronly, (7 : Int)⟩,
    ⟨.lseekCur 7 4, (4 : Int)⟩, ⟨.activeWrite 4 (bytes "150 Opening data transfer\r\n"), (27 : Int)⟩,
    ⟨.accept 6, (8 : Int)⟩, ⟨.recv 8 readbufSize, chunk [67]⟩, ⟨.write 7 [67] 1, written 1⟩,
    ⟨.recv 8 readbufSize, chunk []⟩, ⟨.ftruncate 7 5, (0 : Int)⟩, ⟨.close 7, (0 : Int)⟩,
    ⟨.close 8, (0 : Int)⟩, ⟨.activeWrite 4 (bytes "226 Data transfer complete\r\n"), (28 : Int)⟩]

def retrieveTrace : Trace Result :=
  [⟨.stat (bytes "/f"), some ⟨0o100644, 5, 0, 5⟩⟩, ⟨.open (bytes "/f") .rdonly, (7 : Int)⟩,
    ⟨.activeWrite 4 (bytes "150 Opening data transfer\r\n"), (27 : Int)⟩, ⟨.accept 6, (8 : Int)⟩,
    ⟨.read 7 pageSize, chunk [1, 2, 65]⟩, ⟨.dataWrite 8 [1, 2, 65], (3 : Int)⟩,
    ⟨.read 7 pageSize, chunk [66, 67]⟩, ⟨.dataWrite 8 [66, 67], (2 : Int)⟩,
    ⟨.read 7 pageSize, chunk []⟩, ⟨.close 7, (0 : Int)⟩, ⟨.close 8, (0 : Int)⟩,
    ⟨.activeWrite 4 (bytes "226 Transfer completed\r\n"), (24 : Int)⟩]

theorem transfer_contents_sample :
    (disk.after (.start (initEnv 4) (bytes "/f") (some [1, 2, 3, 4, 5]) [65, 66]) storeTrace).file = some [1, 2, 65, 66] ∧
    (disk.after (.start (initEnv 4) (bytes "/f") (some [1, 2, 65, 66]) [67]) appendTrace).file = some [1, 2, 65, 66, 67] ∧
    (disk.after (.start (initEnv 4) (bytes "/f") (some [1, 2, 65, 66, 67]) []) retrieveTrace).sent = [1, 2, 65, 66, 67] := by
  let env := { initEnv 4 with passiveFd := 6 }
  have hr : (ftpCmdREST env (bytes "2")).Observed [⟨.activeWrite 4 (bytes "350 REST OK\r\n"), (13 : Int)⟩]
      (some (0, { env with dataOffset := 2 })) := observed_of_replay (by decide +kernel)
  have hs : (ftpCmdSTOR 4 { env with dataOffset := 2 } (bytes "/f")).Observed storeTrace
      (some (0, { env with dataFd := 8 })) := observed_of_replay (by decide +kernel)
  have ha : (ftpCmdAPPE 4 env (bytes "/f")).Observed appendTrace (some (0, { env with dataFd := 8 })) :=
    observed_of_replay (by decide +kernel)
  have ht : (ftpCmdRETR 4 env (bytes "/f")).Observed retrieveTrace (some (0, { env with dataFd := 8 })) :=
    observed_of_replay (by decide +kernel)
  have h150 : (bytes "150 Opening data transfer\r\n").length = 27 := by decide
  have hstore : (bytes "226 Data transfer complete\r\n").length = 28 := by decide
  have hretrieve : (bytes "226 Transfer completed\r\n").length = 24 := by decide
  have hr2 : Restarts { env with dataOffset := 2 } 2 := .rest (by decide) hr
  have hr0 : Restarts env 0 := .none rfl
  have hs' := (transfer_contents (by decide) hr2).left _ (some [1, 2, 3, 4, 5]) [65, 66] _ _ hs (by
    simp [storeTrace, disk, Disk.Allows, Disk.next, Disk.start, Disk.Reads, chunk, written, h150, hstore])
  have ha' := (transfer_contents (by decide) hr0).right.left rfl _ [1, 2, 65, 66] [67] _ _ ha (by
    simp [appendTrace, disk, Disk.Allows, Disk.next, Disk.start, Disk.Reads, chunk, written, isDir, sIfmt, h150, hstore])
  have ht' := (transfer_contents (by decide) hr0).right.right _ [1, 2, 65, 66, 67] [] _ _ ht (by
    simp [retrieveTrace, disk, Disk.Allows, Disk.next, Disk.start, Disk.Reads, chunk, pageSize, isDir, sIfmt, h150, hretrieve])
  exact ⟨(hs'.right.right (by decide)).content (by decide), ha'.right.content (by decide), ht'.right.content (by decide)⟩

end Ftp

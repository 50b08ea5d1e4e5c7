import HenPlugins.Ftp.Theorems.Session

open List Prog Monitor CString

namespace Ftp

-- What `recv` reports: the bytes that it has received, which are none at the end of the stream, or an error.
abbrev Recv := Except Errno Bytes

-- What is kept of an upload: what `recv` has reported, what has been written to the file, the length to which the
-- file has been cut, the numbers of the replies, and whether the control connection is lost.
structure Upload where
  recvs   : List Recv  := []
  written : Bytes      := []
  size    : Option Int := none
  codes   : List Nat   := []
  lost    : Bool       := false

def Upload.update (g : Upload) : Event Result → Upload
  | ⟨.recv .., r⟩           => { g with recvs := g.recvs ++ [r.map Subtype.val] }
  | ⟨.write _ buf _, n⟩     => { g with written := g.written ++ buf.take n.val.toNat }
  | ⟨.ftruncate _ off, r⟩   => if r = (0 : Int) then { g with size := some off } else g
  | ⟨.activeWrite _ buf, n⟩ =>
    { g with codes := g.codes ++ (replyCode buf).toList, lost := g.lost || n ≠ (buf.length : Int) }
  | _                       => g

def upload : Monitor Result Upload where
  next := Upload.update

def Recv.Chunk (r : Recv) : Prop :=
  ∃ bs, r = .ok bs ∧ bs ≠ []

def received (rs : List Recv) : Bytes :=
  rs.flatMap fun r => r.toOption.getD []

-- Nothing is received behind the end of the stream or an error, and the command ends there. A success is reported if
-- the stream has ended in order and the file ends where the offset behind the last byte is, which is an `off_t`. An
-- error is reported otherwise.
structure Reported (off : Int) (o : Option (Int × Env)) (g : Upload) : Prop where
  last    : ∀ r ∈ g.recvs.dropLast, r.Chunk
  stopped : o = none → ∀ r ∈ g.recvs, r.Chunk
  success : 226 ∈ g.codes → g.recvs.getLast? = some (.ok []) ∧ g.written = received g.recvs ∧
    ∃ size ∈ g.size, BitVec.ofInt 64 size = .ofInt 64 (off + g.written.length)
  failure : o ≠ none → 226 ∉ g.codes → (∃ code ∈ g.codes, 400 ≤ code) ∨ g.lost

-- No error is reported.
def Clean (r : Recv) : Prop :=
  r.isOk

-- The monitor of an upload without errors.
def clean : Monitor Result Upload where
  next := Upload.update
  Allows _ e :=
    match e with
    | ⟨.recv .., r⟩ => Clean (r.map Subtype.val)
    | _             => True

variable {α : Type} {env : Env} {text arg bs : Bytes} {g : Upload} {fd off : Int} {fuel : Nat} {o : Option (Int × Env)} {rs : List Recv}
variable {r : Recv}

theorem wp_ftpDataOpen_upload {Q : Option α → Upload → Prop} {k : Int × Env → Proc α}
    {A : Upload → Event Result → Prop} (h : ∀ r env, (k (r, env)).wp { next := Upload.update, Allows := A } Q g) :
    (ftpDataOpen env >>= k).wp { next := Upload.update, Allows := A } Q g :=
  wp_bind.mpr <| wp_if (fun _ => ⟨trivial, fun _ _ => h _ _⟩) fun _ => ⟨trivial, fun _ _ => h _ _⟩

theorem wp_ftruncate {Q : Option α → Upload → Prop} {k : Int → Proc α} {A : Upload → Event Result → Prop}
    (hn : ∀ r ≠ 0, (k r).wp { next := Upload.update, Allows := A } Q g)
    (h : (k 0).wp { next := Upload.update, Allows := A } Q { g with size := some off }) :
    (perform (.ftruncate fd off) >>= k).wp { next := Upload.update, Allows := A } Q g := by
  refine wp_call.mpr ⟨trivial, fun r _ => ?_⟩
  by_cases hr : r = 0
  case pos =>
    subst hr
    exact h
  case neg =>
    have hg : ({ next := Upload.update, Allows := A } : Monitor Result Upload).next g ⟨.ftruncate fd off, r⟩ = g := if_neg hr
    rw [hg]
    exact hn r hr

theorem toNat_recvLen (hb : bs.length ≤ readbufSize) : (BitVec.ofNat 64 bs.length).toNat = bs.length := by
  have hb : bs.length ≤ 0x4000 := hb
  rw [BitVec.toNat_ofNat]
  omega

theorem recvLen_eq_zero (hb : bs.length ≤ readbufSize) : BitVec.ofNat 64 bs.length = 0 ↔ bs = [] := by
  rw [← BitVec.toNat_inj, toNat_recvLen hb, ← length_eq_zero_iff]
  rfl

-- The bytes of a buffer are written if what `write` returns is the length that is asked for.
theorem written_eq {n : Written (.ofNat 64 bs.length)} (hb : bs.length ≤ readbufSize)
    (h : BitVec.ofInt 64 n.val = .ofNat 64 bs.length) : n.val = bs.length := by
  have hl := toNat_recvLen hb
  have ht := congrArg BitVec.toNat h
  rw [BitVec.toNat_ofInt] at ht
  have hn := n.property
  have hb : bs.length ≤ 0x4000 := hb
  omega

-- An error is not told from a successful write of as many bytes as a `size_t` can count.
theorem write_error (n : Written (-1)) : BitVec.ofInt 64 n.val = -1 := by
  have hn := n.property
  have hc : (-1 : BitVec 64).toNat = 2 ^ 64 - 1 := by decide
  have hv : n.val = -1 := by omega
  rw [hv]
  rfl

-- What has been received last is no error.
def Settled (g : Upload) : Prop :=
  ∀ r ∈ g.recvs.getLast?, Clean r

theorem settled_append (hr : Clean r) : Settled { g with recvs := g.recvs ++ [r] } := by
  intro r' hl
  rw [getLast?_concat, Option.mem_some] at hl
  exact hl ▸ hr

theorem settled_nil (h : g.recvs = []) : Settled g := by
  simp [Settled, h]

-- A command that comes to its end does not do so after an error.
abbrev Settles (o : Option α) (g : Upload) : Prop :=
  o = none ∨ Settled g

theorem settled_storLoop : (storLoop env fd fuel off).wp upload Settles g := by
  induction fuel generalizing off g
  case zero => exact .inl rfl
  case succ fuel hi =>
    refine wp_call.mpr ⟨trivial, fun readbuf _ => ?_⟩
    rcases readbuf with err | ⟨bs, hb⟩
    case error =>
      have hz : (-1 : BitVec 64) ≠ 0 := by decide
      refine wp_if (fun hl => absurd hl hz) fun _ => wp_call.mpr ⟨trivial, fun n _ => ?_⟩
      exact wp_if (fun hn => absurd (write_error n) hn) fun _ => hi
    case ok =>
      have hs : Settled { g with recvs := g.recvs ++ [.ok bs] } := settled_append rfl
      refine wp_if (fun _ => .inr hs) fun _ => wp_call.mpr ⟨trivial, fun n _ => wp_if (fun _ => ?_) fun _ => hi⟩
      exact ⟨trivial, fun _ _ => ⟨trivial, fun _ _ => ⟨trivial, fun _ _ => ⟨trivial, fun _ _ => .inr hs⟩⟩⟩⟩

theorem settled_reply (h : Settled g) : (reply env text).wp upload Settles g :=
  ⟨trivial, fun _ _ => .inr h⟩

theorem settled_perror (h : Settled g) : (perror env).wp upload Settles g :=
  ⟨trivial, fun _ _ => ⟨trivial, fun _ _ => .inr h⟩⟩

theorem settled_perrorClose (h : Settled g) : (perrorClose env fd).wp upload Settles g :=
  ⟨trivial, fun _ _ => ⟨trivial, fun _ _ => ⟨trivial, fun _ _ => .inr h⟩⟩⟩

theorem settled_ftpCmdSTOR : (ftpCmdSTOR fuel env arg).wp upload Settles {} := by
  refine wp_if (fun _ => settled_reply (settled_nil rfl)) fun _ => wp_call.mpr ⟨trivial, fun fd _ => ?_⟩
  refine wp_if (fun _ => settled_perror (settled_nil rfl)) fun _ => wp_call.mpr ⟨trivial, fun r _ => ?_⟩
  refine wp_if (fun _ => settled_perrorClose (settled_nil rfl)) fun _ => wp_bind.mpr ⟨trivial, fun n _ => ?_⟩
  refine wp_if (fun _ => ⟨trivial, fun _ _ => .inr (settled_nil rfl)⟩) fun _ => wp_ftpDataOpen_upload fun r env => ?_
  refine wp_if (fun _ => settled_perrorClose (settled_nil rfl)) fun _ => wp_bind.mpr ?_
  apply wp_mono settled_storLoop
  intro o g hs
  rcases o with _ | err | off
  case none       => exact .inl rfl
  case some.error => exact .inr (hs.resolve_left nofun)
  case some.ok    =>
    have hs := hs.resolve_left nofun
    refine wp_ftruncate (fun r hr => wp_if (fun _ => ?_) fun hn => absurd hr hn) (wp_if (absurd rfl) fun _ => ?_)
    case refine_1 =>
      exact ⟨trivial, fun _ _ => ⟨trivial, fun _ _ => ⟨trivial, fun _ _ => ⟨trivial, fun _ _ => .inr hs⟩⟩⟩⟩
    case refine_2 =>
      refine ⟨trivial, fun _ _ => ⟨trivial, fun r _ => ?_⟩⟩
      exact wp_if (fun _ => settled_perror hs) fun _ => settled_reply hs

theorem received_append {r : Recv} : received (rs ++ [r]) = received rs ++ r.toOption.getD [] := by
  simp [received]

-- The replies of `ftp_perror`.
theorem clean_ftpPerror {Q : Option α → Upload → Prop} {k : Int → Proc α}
    (h : ∀ r lost, (k r).wp clean Q { g with codes := g.codes ++ [550], lost := lost }) :
    (ftpPerror env >>= k).wp clean Q g := by
  refine ⟨trivial, fun buf _ => ⟨trivial, fun n _ => ?_⟩⟩
  have hc (text : Bytes) : replyCode ((bytes "550 " ++ text).take (printfSize - 1)) = some 550 :=
    @replyCode_take _ (printfSize - 5) 550 (replyCode_append (by decide))
  simp only [clean, Upload.update]
  rw [append_assoc, hc]
  exact h _ _

theorem clean_perrorDataClose {Q : Option α → Upload → Prop} {k : Int → Proc α}
    (h : ∀ r lost, (k r).wp clean Q { g with codes := g.codes ++ [550], lost := lost }) :
    (perrorDataClose env fd >>= k).wp clean Q g :=
  @clean_ftpPerror _ env _ _ (fun err => ftpDataClose env >>= fun _ => perform (.close fd) >>= fun _ => k err)
    fun r lost => ⟨trivial, fun _ _ => ⟨trivial, fun _ _ => h r lost⟩⟩

theorem clean_ftpActivePrintf {Q : Option α → Upload → Prop} {k : Int → Proc α} {code : Nat} (hc : replyCode text = some code)
    (h : ∀ r lost, (r ≠ 0 → lost = true) → (k r).wp clean Q { g with codes := g.codes ++ [code], lost := lost }) :
    (ftpActivePrintf env text >>= k).wp clean Q g := by
  refine ⟨trivial, fun n _ => ?_⟩
  have hc' : replyCode (text.take (printfSize - 1)) = some code := @replyCode_take _ (printfSize - 5) code hc
  simp only [clean, Upload.update]
  rw [hc']
  refine h _ _ fun hr => ?_
  rw [Bool.or_eq_true, decide_eq_true_eq]
  exact .inr fun hn => hr (if_pos hn)

-- An error has been reported, and nothing has been received since the end of the stream.
structure Failed (g : Upload) : Prop where
  last  : ∀ r ∈ g.recvs.dropLast, r.Chunk
  codes : 226 ∉ g.codes
  told  : (∃ code ∈ g.codes, 400 ≤ code) ∨ g.lost

theorem Failed.reported {ret : Int × Env} (h : Failed g) : Reported off (some ret) g where
  last    := h.last
  stopped := nofun
  success := fun hc => absurd hc h.codes
  failure := fun _ _ => h.told

theorem failed_perror {lost : Bool} (hl : ∀ r ∈ g.recvs.dropLast, r.Chunk) (hc : 226 ∉ g.codes) :
    Failed { g with codes := g.codes ++ [550], lost := lost } :=
  ⟨hl, by simp [hc], .inl ⟨550, by simp⟩⟩

theorem reported_perror (hl : ∀ r ∈ g.recvs.dropLast, r.Chunk) (hc : 226 ∉ g.codes) :
    (perror env).wp clean (Reported off) g :=
  clean_ftpPerror fun _ _ => (failed_perror hl hc).reported

theorem reported_perrorClose (hl : ∀ r ∈ g.recvs.dropLast, r.Chunk) (hc : 226 ∉ g.codes) :
    (perrorClose env fd).wp clean (Reported off) g :=
  clean_ftpPerror fun _ _ => ⟨trivial, fun _ _ => (failed_perror hl hc).reported⟩

-- Chunks have been received and written, up to the given offset.
structure Receiving (start off : Int) (g : Upload) : Prop where
  recvs   : ∀ r ∈ g.recvs, r.Chunk
  written : g.written = received g.recvs
  codes   : g.codes = [150]
  offset  : BitVec.ofInt 64 off = .ofInt 64 (start + g.written.length)

-- What is left behind by the loop of an upload.
def Looped (start : Int) : Option (Except Int Int) → Upload → Prop
  | none, g              => (∀ r ∈ g.recvs, r.Chunk) ∧ 226 ∉ g.codes
  | some (.error _), g   => Failed g
  | some (.ok off), g    => ∃ g', Receiving start off g' ∧ g = { g' with recvs := g'.recvs ++ [.ok []] }

theorem Receiving.append {start : Int} {n : Written (.ofNat 64 bs.length)} (h : Receiving start off g)
    (hz : bs ≠ []) (hn : n.val = bs.length) :
    Receiving start (addOff off (.ofNat 64 bs.length))
      { g with recvs := g.recvs ++ [.ok bs], written := g.written ++ bs.take n.val.toNat } where
  recvs r hr := by
    cases mem_append.mp hr
    case inl hr => exact h.recvs r hr
    case inr hr => exact ⟨bs, mem_singleton.mp hr, hz⟩
  written := by
    rw [received_append, h.written, hn]
    simp [Except.toOption]
  codes := h.codes
  offset := by
    rw [addOff, BitVec.ofInt_toInt, h.offset, hn, Int.toNat_natCast, take_length, length_append, Nat.cast_add, ← add_assoc,
      BitVec.ofInt_add _ (bs.length : Int), BitVec.ofInt_natCast]

theorem clean_storLoop {start : Int} (h : Receiving start off g) : (storLoop env fd fuel off).wp clean (Looped start) g := by
  induction fuel generalizing off g
  case zero => exact ⟨h.recvs, by simp [h.codes]⟩
  case succ fuel hi =>
    refine wp_call.mpr ⟨trivial, fun readbuf ha => ?_⟩
    rcases readbuf with err | ⟨bs, hb⟩
    case error => exact absurd ha nofun
    case ok =>
      refine wp_if (fun hl => ⟨g, h, ?_⟩) fun hl => wp_call.mpr ⟨trivial, fun n _ => wp_if (fun _ => ?_) fun hn => ?_⟩
      case refine_1 =>
        obtain rfl := (recvLen_eq_zero hb).mp hl
        rfl
      case refine_2 =>
        have hr : ∀ r ∈ (g.recvs ++ [Except.ok bs]).dropLast, r.Chunk := by
          rw [dropLast_concat]
          exact h.recvs
        have hc : 226 ∉ g.codes := h.codes ▸ by decide
        exact clean_perrorDataClose fun _ _ => failed_perror hr hc
      case refine_3 =>
        have hz : bs ≠ [] := fun hz => hl ((recvLen_eq_zero hb).mpr hz)
        exact hi (h.append hz (written_eq hb (not_not.mp hn)))

theorem Receiving.reported {start : Int} {lost : Bool} {ret : Int × Env} (h : Receiving start off g) :
    Reported start (some ret)
      { g with recvs := g.recvs ++ [.ok []], size := some off, codes := g.codes ++ [226], lost := lost } where
  last    := by
    rw [dropLast_concat]
    exact h.recvs
  stopped := nofun
  success := fun _ => by
    refine ⟨getLast?_concat, ?_, off, rfl, h.offset⟩
    rw [received_append, h.written]
    exact (append_nil _).symm
  failure := fun _ hc => by simp at hc

theorem clean_ftpCmdSTOR : (ftpCmdSTOR fuel env arg).wp clean (Reported env.dataOffset) {} := by
  have h501 : 226 ∉ [501] := by decide
  have h150 : 226 ∉ [150] := by decide
  refine wp_if (fun _ => ?_) fun _ => wp_call.mpr ⟨trivial, fun fd _ => ?_⟩
  case refine_1 =>
    exact clean_ftpActivePrintf (by decide) fun r lost _ => Failed.reported ⟨nofun, h501, .inl ⟨501, by simp⟩⟩
  refine wp_if (fun _ => reported_perror nofun nofun) fun _ => wp_call.mpr ⟨trivial, fun r _ => ?_⟩
  refine wp_if (fun _ => reported_perrorClose nofun nofun) fun _ => ?_
  refine clean_ftpActivePrintf replyCode_opening fun r lost hl => ?_
  refine wp_if (fun hr => ⟨trivial, fun _ _ => Failed.reported ⟨nofun, h150, .inr (hl hr)⟩⟩) fun _ => ?_
  refine wp_ftpDataOpen_upload fun r env' => ?_
  refine wp_if (fun _ => reported_perrorClose nofun h150) fun _ => wp_bind.mpr ?_
  have hb : Receiving env.dataOffset env.dataOffset { codes := [150], lost := lost } := ⟨nofun, rfl, rfl, by simp⟩
  apply wp_mono (clean_storLoop hb)
  intro o g hg
  rcases o with _ | err | off
  case none       => exact ⟨fun r hr => hg.left r (mem_of_mem_dropLast hr), fun _ => hg.left, fun hc => absurd hc hg.right, nofun⟩
  case some.error => exact hg.reported
  case some.ok    =>
    obtain ⟨g, hr, rfl⟩ := hg
    have hl : ∀ r ∈ (g.recvs ++ [Except.ok []]).dropLast, r.Chunk := by
      rw [dropLast_concat]
      exact hr.recvs
    have hc : 226 ∉ g.codes := hr.codes ▸ h150
    refine wp_ftruncate (fun r ht => wp_if (fun _ => ?_) fun hn => absurd ht hn) (wp_if (absurd rfl) fun _ => ?_)
    case refine_1 =>
      exact clean_perrorDataClose fun _ _ => (failed_perror (g := { g with recvs := g.recvs ++ [.ok []] }) hl hc).reported
    case refine_2 =>
      refine ⟨trivial, fun _ _ => ⟨trivial, fun r _ => wp_if (fun _ => reported_perror hl hc) fun _ => ?_⟩⟩
      exact clean_ftpActivePrintf (by decide) fun _ _ _ => hr.reported

theorem Recv.Chunk.clean (h : r.Chunk) : Clean r := by
  have ⟨_, hb, _⟩ := h
  exact hb ▸ rfl

theorem recvs_next {e : Event Result} : g.recvs ⊆ (upload.next g e).recvs := by
  simp only [upload, Upload.update]
  split
  case h_1 => exact subset_append_left ..
  case h_3 => split <;> exact Subset.refl _
  all_goals exact Subset.refl _

theorem recvs_after {t : Trace Result} : g.recvs ⊆ (upload.after g t).recvs := by
  induction t generalizing g
  case nil         => exact Subset.refl _
  case cons e t hi => exact Subset.trans recvs_next hi

theorem clean_allowed {t : Trace Result} (h : ∀ r ∈ (upload.after g t).recvs, Clean r) : clean.Allowed g t := by
  induction t generalizing g
  case nil         => trivial
  case cons e t hi =>
    refine ⟨?_, hi h⟩
    obtain ⟨c, r⟩ := e
    cases c
    case recv fd count =>
      have hr : r.map Subtype.val ∈ (upload.next g ⟨.recv fd count, r⟩).recvs := mem_append_right _ mem_cons_self
      exact h _ (@recvs_after (upload.next g ⟨.recv fd count, r⟩) t _ hr)
    all_goals trivial

-- What is reported of an upload is right if and only if no error is reported while it is received.
theorem ftpCmdSTOR_reported_iff {t : Trace Result} (ho : (ftpCmdSTOR fuel env arg).Observed t o) :
    Reported env.dataOffset o (upload.after {} t) ↔ ∀ r ∈ (upload.after {} t).recvs, Clean r := by
  constructor
  case mp =>
    intro h r hr
    cases (wp_sound settled_ftpCmdSTOR ho (allowed_of_forall fun _ _ => trivial)).right
    case inl hn => exact (h.stopped hn r hr).clean
    case inr hs =>
      rw [← dropLast_concat_getLast (ne_nil_of_mem hr), mem_append, mem_singleton] at hr
      cases hr
      case inl hr => exact (h.last r hr).clean
      case inr hr => exact hs r (hr ▸ getLast?_eq_some_getLast _)
  case mpr =>
    intro h
    exact (wp_sound clean_ftpCmdSTOR ho (clean_allowed h)).right

-- Three bytes arrive in two pieces.
def uploadSample : Trace Result :=
  [⟨.open (bytes "/f") .creatWronly, (7 : Int)⟩, ⟨.lseekCur 7 0, (0 : Int)⟩,
    ⟨.activeWrite 4 (bytes "150 Opening data transfer\r\n"), (27 : Int)⟩, ⟨.accept 6, (8 : Int)⟩,
    ⟨.recv 8 readbufSize, chunk [65]⟩, ⟨.write 7 [65] 1, written 1⟩,
    ⟨.recv 8 readbufSize, chunk [66, 67]⟩, ⟨.write 7 [66, 67] 2, written 2⟩,
    ⟨.recv 8 readbufSize, chunk []⟩, ⟨.ftruncate 7 3, (0 : Int)⟩, ⟨.close 7, (0 : Int)⟩,
    ⟨.close 8, (0 : Int)⟩, ⟨.activeWrite 4 (bytes "226 Data transfer complete\r\n"), (28 : Int)⟩]

theorem ftpCmdSTOR_reported_sample :
    Reported 0 (some (0, { initEnv 4 with passiveFd := 6, dataFd := 8 })) (upload.after {} uploadSample) := by
  have ho : (ftpCmdSTOR 5 { initEnv 4 with passiveFd := 6 } (bytes "/f")).Observed uploadSample
      (some (0, { initEnv 4 with passiveFd := 6, dataFd := 8 })) := observed_of_replay (by decide +kernel)
  have hr : (upload.after {} uploadSample).recvs = [.ok [65], .ok [66, 67], .ok []] := by decide
  refine (ftpCmdSTOR_reported_iff ho).mpr ?_
  simp only [hr, Clean]
  decide

-- A byte has arrived before the connection is reset, and the stream has ended afterwards.
def resetSample : Trace Result :=
  [⟨.open (bytes "/f") .creatWronly, (7 : Int)⟩, ⟨.lseekCur 7 0, (0 : Int)⟩,
    ⟨.activeWrite 4 (bytes "150 Opening data transfer\r\n"), (27 : Int)⟩, ⟨.accept 6, (8 : Int)⟩,
    ⟨.recv 8 readbufSize, chunk [65]⟩, ⟨.write 7 [65] 1, written 1⟩,
    ⟨.recv 8 readbufSize, .error .other⟩, ⟨.write 7 [] (-1), written (-1)⟩,
    ⟨.recv 8 readbufSize, chunk []⟩, ⟨.ftruncate 7 0, (0 : Int)⟩, ⟨.close 7, (0 : Int)⟩,
    ⟨.close 8, (0 : Int)⟩, ⟨.activeWrite 4 (bytes "226 Data transfer complete\r\n"), (28 : Int)⟩]

-- The success of an upload is reported although an error has been, and the byte that has arrived is cut off.
theorem ftpCmdSTOR_not_reported : ¬∀ fuel env arg t o, (ftpCmdSTOR fuel env arg).Observed t o →
    Reported env.dataOffset o (upload.after {} t) := by
  intro ha
  have ho : (ftpCmdSTOR 5 { initEnv 4 with passiveFd := 6 } (bytes "/f")).Observed resetSample
      (some (0, { initEnv 4 with passiveFd := 6, dataFd := 8 })) := observed_of_replay (by decide +kernel)
  have hr := ha _ _ _ _ _ ho
  exact absurd (hr.last (.error .other) (by decide)) (by simp [Recv.Chunk])

end Ftp

import HenPlugins.Ftp.Theorems.Frame

open List Prog CString

namespace Ftp

-- The number in front of the text of a reply.
def replyCode (text : Bytes) : Option Nat :=
  match text with
  | a :: b :: c :: 32 :: _ => do
    return 100 * (← Number.digit 10 a) + 10 * (← Number.digit 10 b) + (← Number.digit 10 c)
  | _ => none

def Final (text : Bytes) : Prop :=
  ∃ code ∈ replyCode text, 200 ≤ code ∧ code < 600

def Preliminary (text : Bytes) : Prop :=
  ∃ code ∈ replyCode text, 100 ≤ code ∧ code < 200

instance {text : Bytes} : Decidable (Final text) :=
  inferInstanceAs (Decidable (∃ _, _ ∧ _))

instance {text : Bytes} : Decidable (Preliminary text) :=
  inferInstanceAs (Decidable (∃ _, _ ∧ _))

-- The replies on the control connection, whose writes succeed.
def replies : Monitor Result (List Bytes) where
  next g e :=
    match e.call with
    | .activeWrite _ buf => g ++ [buf]
    | _                  => g
  Allows _ e :=
    match e with
    | ⟨.activeWrite _ buf, n⟩ => n = (buf.length : Int)
    | _                       => True

-- Before the final reply, there may be a preliminary one if the command is one of those that transfer data.
def Begun (transfer : Prop) (g : List Bytes) : Prop :=
  g = [] ∨ transfer ∧ ∃ text, Preliminary text ∧ g = [text]

def Answered (transfer : Prop) (g : List Bytes) : Prop :=
  ∃ g' text, Begun transfer g' ∧ Final text ∧ g = g' ++ [text]

variable {α : Type} {env : Env} {text s arg p : Bytes} {g : List Bytes} {transfer : Prop} {fd : Int} {fuel dir : Nat}

theorem replyCode_append {code : Nat} (h : code ∈ replyCode text) : code ∈ replyCode (text ++ s) := by
  revert h
  fun_cases replyCode text
  case case1 => exact id
  case case2 => simp

theorem replyCode_take {n code : Nat} (h : code ∈ replyCode text) : code ∈ replyCode (text.take (n + 4)) := by
  revert h
  fun_cases replyCode text
  case case1 => exact id
  case case2 => simp

-- The reply in front of a transfer.
theorem replyCode_opening : replyCode (bytes "150 Opening data transfer\r\n") = some 150 := by
  decide

theorem Final.append (h : Final text) : Final (text ++ s) :=
  have ⟨code, hc, hr⟩ := h
  ⟨code, replyCode_append hc, hr⟩

theorem Final.printf (h : Final text) : Final (text.take (printfSize - 1)) :=
  have ⟨code, hc, hr⟩ := h
  ⟨code, @replyCode_take text (printfSize - 5) code hc, hr⟩

theorem Preliminary.printf (h : Preliminary text) : Preliminary (text.take (printfSize - 1)) :=
  have ⟨code, hc, hr⟩ := h
  ⟨code, @replyCode_take text (printfSize - 5) code hc, hr⟩

theorem wp_ftpActivePrintf {Q : Option Int → List Bytes → Prop} :
    (ftpActivePrintf env text).wp replies Q g ↔ Q (some 0) (g ++ [text.take (printfSize - 1)]) := by
  simp [ftpActivePrintf, perform, replies]

-- The result of a command after which the session goes on.
def Replied (transfer : Prop) (o : Option (Int × Env)) (g : List Bytes) : Prop :=
  ∀ ret env, o = some (ret, env) → ret = 0 ∧ Answered transfer g

theorem wp_ftpPerror {Q : Option Int → List Bytes → Prop} (h : ∀ text, Final text → Q (some 0) (g ++ [text])) :
    (ftpPerror env).wp replies Q g := by
  simp only [ftpPerror, perform, wp_bind, wp_perform, Option.elim_some, wp_ftpActivePrintf]
  refine ⟨trivial, fun buf _ => h _ (Final.printf ?_)⟩
  rw [append_assoc]
  exact Final.append (by decide)

theorem wp_reply (hb : Begun transfer g) (h : Final text) : (reply env text).wp replies (Replied transfer) g := by
  simp only [reply, wp_bind, wp_ftpActivePrintf, Option.elim_some]
  rintro ret env' ⟨⟩
  exact ⟨rfl, _, _, hb, h.printf, rfl⟩

theorem wp_perror (hb : Begun transfer g) : (perror env).wp replies (Replied transfer) g := by
  rw [perror, wp_bind]
  apply wp_ftpPerror
  rintro text h ret env' ⟨⟩
  exact ⟨rfl, _, _, hb, h, rfl⟩

theorem wp_perrorClose (hb : Begun transfer g) : (perrorClose env fd).wp replies (Replied transfer) g := by
  rw [perrorClose, wp_bind]
  apply wp_ftpPerror
  refine fun text h => ⟨trivial, fun r _ => ?_⟩
  rintro ret env' ⟨⟩
  exact ⟨rfl, _, _, hb, h, rfl⟩

theorem wp_perrorDataClose (hb : Begun transfer g) :
    (perrorDataClose env fd).wp replies (fun o g => ∀ ret, o = some ret → ret = 0 ∧ Answered transfer g) g := by
  rw [perrorDataClose, wp_bind]
  apply wp_ftpPerror
  refine fun text h => ⟨trivial, fun r _ => ⟨trivial, fun r' _ => ?_⟩⟩
  rintro ret ⟨⟩
  exact ⟨rfl, _, _, hb, h, rfl⟩

theorem wp_closeFd {Q : Option α → List Bytes → Prop} {k : Unit → Proc α} (h : (k ()).wp replies Q g) :
    (closeFd fd >>= k).wp replies Q g :=
  wp_bind.mpr <| wp_if (fun _ => ⟨trivial, fun _ _ => h⟩) fun _ => h

theorem wp_ftpDataOpen {Q : Option α → List Bytes → Prop} {k : Int × Env → Proc α}
    (h : ∀ r env, (k (r, env)).wp replies Q g) : (ftpDataOpen env >>= k).wp replies Q g :=
  wp_bind.mpr <| wp_if (fun _ => ⟨trivial, fun _ _ => h _ _⟩) fun _ => ⟨trivial, fun _ _ => h _ _⟩

theorem wp_ftpDataClose {Q : Option α → List Bytes → Prop} {k : Int → Proc α} (h : ∀ r, (k r).wp replies Q g) :
    (ftpDataClose env >>= k).wp replies Q g :=
  ⟨trivial, fun _ _ => h _⟩

-- A listing is written to the data connection only.
theorem wp_listLoop {Q : Option α → List Bytes → Prop} {k : Unit → Proc α} (hn : Q none g) (h : (k ()).wp replies Q g) :
    (listLoop env p dir fuel >>= k).wp replies Q g := by
  have hs : ∀ c, Listing c → replies.Demands g c ∧ ∀ r, replies.next g ⟨c, r⟩ = g := by
    intro c hc
    cases c
    case readdir | stat | strftime | dataWrite => exact ⟨trivial, fun _ => rfl⟩
    all_goals contradiction
  refine wp_bind.mpr (wp_mono (wp_of_silent hs listLoop_within) ?_)
  rintro o _ ⟨_, rfl⟩
  cases o
  case none => exact hn
  case some => exact h

theorem begun : Begun transfer [] :=
  .inl rfl

-- The reply at the start of a transfer.
theorem wp_preliminary {Q : Option α → List Bytes → Prop} {k : Int → Proc α} (hp : Preliminary text)
    (h : ∀ g, Begun True g → (k 0).wp replies Q g) : (ftpActivePrintf env text >>= k).wp replies Q [] :=
  wp_bind.mpr <| wp_ftpActivePrintf.mpr <| h _ (.inr ⟨trivial, _, hp.printf, rfl⟩)

theorem wp_ftpCmdPASV : (ftpCmdPASV env arg).wp replies (Replied transfer) [] := by
  refine wp_call.mpr ⟨trivial, fun sockaddr _ => ?_⟩
  cases sockaddr
  case none => exact wp_perror begun
  case some =>
    apply wp_closeFd
    refine wp_call.mpr ⟨trivial, fun passiveFd _ => wp_if (fun _ => wp_perror begun) fun _ => ?_⟩
    refine wp_call.mpr ⟨trivial, fun r _ => wp_if (fun _ => wp_perrorClose begun) fun _ => ?_⟩
    refine wp_call.mpr ⟨trivial, fun r _ => wp_if (fun _ => wp_perrorClose begun) fun _ => ?_⟩
    refine wp_call.mpr ⟨trivial, fun bound _ => ?_⟩
    cases bound
    case none => exact wp_perrorClose begun
    case some =>
      apply wp_reply begun
      rw [passiveReply, append_assoc]
      exact Final.append (by decide)

theorem wp_ftpCmdCHMOD : (ftpCmdCHMOD env arg).wp replies (Replied transfer) [] := by
  rw [ftpCmdCHMOD]
  split
  · exact wp_reply begun (by decide)
  · exact wp_call.mpr ⟨trivial, fun r _ => wp_if (fun _ => wp_perror begun) fun _ => wp_reply begun (by decide)⟩

theorem wp_ftpCmdCWD : (ftpCmdCWD env arg).wp replies (Replied transfer) [] := by
  refine wp_if (fun _ => wp_reply begun (by decide)) fun _ => wp_call.mpr ⟨trivial, fun st _ => ?_⟩
  cases st
  case none    => exact wp_perror begun
  case some st => exact wp_if (fun _ => wp_reply begun (by decide)) fun _ => wp_reply begun (by decide)

theorem wp_ftpCmdLIST : (ftpCmdLIST fuel env arg).wp replies (Replied True) [] := by
  refine wp_call.mpr ⟨trivial, fun dir _ => ?_⟩
  cases dir
  case none     => exact wp_perror begun
  case some dir =>
    apply wp_ftpDataOpen
    refine fun r env => wp_if (fun _ => wp_perror begun) fun _ => ?_
    refine wp_preliminary (by decide) fun g hb => wp_listLoop ?_ ?_
    case refine_1 => rintro ret env' ⟨⟩
    case refine_2 =>
      apply wp_ftpDataClose
      refine fun r => wp_if (fun _ => ?_) fun _ => ?_
      case refine_1 =>
        rw [wp_bind]
        apply wp_ftpPerror
        refine fun text h => ⟨trivial, fun r _ => ?_⟩
        rintro ret env' ⟨⟩
        exact ⟨rfl, _, _, hb, h, rfl⟩
      case refine_2 =>
        exact wp_call.mpr ⟨trivial, fun r _ => wp_if (fun _ => wp_perror hb) fun _ => wp_reply hb (by decide)⟩

theorem wp_ftpCmdPORT : (ftpCmdPORT env arg).wp replies (Replied transfer) [] := by
  rw [ftpCmdPORT]
  split
  · exact wp_reply begun (by decide)
  · refine wp_call.mpr ⟨trivial, fun dataFd _ => wp_if (fun _ => wp_perror begun) fun _ => ?_⟩
    exact wp_reply begun (by decide)

theorem wp_ftpCmdPWD : (ftpCmdPWD env arg).wp replies (Replied transfer) [] := by
  apply wp_reply begun
  rw [append_assoc]
  exact Final.append (by decide)

theorem wp_ftpCmdREST : (ftpCmdREST env arg).wp replies (Replied transfer) [] :=
  wp_if (fun _ => wp_reply begun (by decide)) fun _ => wp_reply begun (by decide)

-- A loop has not replied yet if it comes to its end, and it has if it returns from the command.
def LoopReplied {β : Type} (transfer : Prop) (o : Option (Except Int β)) (g : List Bytes) : Prop :=
  match o with
  | none              => True
  | some (.ok _)      => Begun transfer g
  | some (.error ret) => ret = 0 ∧ Answered transfer g

theorem wp_loopReturn {β : Type} (hb : Begun transfer g) :
    (perrorDataClose env fd >>= fun err => (return .error err : Proc (Except Int β))).wp replies (LoopReplied transfer) g := by
  rw [wp_bind]
  apply wp_mono (wp_perrorDataClose hb)
  intro o g h
  cases o
  case none     => trivial
  case some ret => exact h ret rfl

theorem wp_retrLoop (hb : Begun transfer g) : (retrLoop env fd fuel).wp replies (LoopReplied transfer) g := by
  induction fuel
  case zero => trivial
  case succ fuel hi =>
    refine wp_call.mpr ⟨trivial, fun buf _ => ?_⟩
    cases buf
    case error => exact wp_loopReturn hb
    case ok    =>
      refine wp_if (fun _ => hb) fun _ => wp_call.mpr ⟨trivial, fun n _ => ?_⟩
      exact wp_if (fun _ => wp_loopReturn hb) fun _ => hi

theorem wp_storLoop {off : Int} (hb : Begun transfer g) :
    (storLoop env fd fuel off).wp replies (LoopReplied transfer) g := by
  induction fuel generalizing off
  case zero => trivial
  case succ fuel hi =>
    refine wp_call.mpr ⟨trivial, fun readbuf _ => wp_if (fun _ => hb) fun _ => wp_call.mpr ⟨trivial, fun n _ => ?_⟩⟩
    exact wp_if (fun _ => wp_loopReturn hb) fun _ => hi

theorem wp_ftpCmdRETR : (ftpCmdRETR fuel env arg).wp replies (Replied True) [] := by
  refine wp_if (fun _ => wp_reply begun (by decide)) fun _ => wp_call.mpr ⟨trivial, fun st _ => ?_⟩
  cases st
  case none    => exact wp_perror begun
  case some st =>
    refine wp_if (fun _ => wp_reply begun (by decide)) fun _ => wp_call.mpr ⟨trivial, fun fd _ => ?_⟩
    refine wp_if (fun _ => wp_call.mpr ⟨trivial, fun text _ => ?_⟩) fun _ => ?_
    case refine_1 =>
      apply wp_reply begun
      rw [append_assoc]
      exact Final.append (by decide)
    case refine_2 =>
      refine wp_preliminary (by decide) fun g hb => wp_if (fun hr => absurd rfl hr) fun _ => ?_
      apply wp_ftpDataOpen
      refine fun r env => wp_if (fun _ => wp_perrorClose hb) fun _ => wp_bind.mpr ?_
      apply wp_mono (wp_retrLoop hb)
      intro o g h
      rcases o with _ | err | _
      case none       => simp [Replied]
      case some.error =>
        rintro ret env' ⟨⟩
        exact h
      case some.ok =>
        refine wp_call.mpr ⟨trivial, fun r _ => ?_⟩
        apply wp_ftpDataClose
        exact fun r => wp_if (fun _ => wp_perror h) fun _ => wp_reply h (by decide)

theorem wp_ftpCmdSTOR : (ftpCmdSTOR fuel env arg).wp replies (Replied True) [] := by
  refine wp_if (fun _ => wp_reply begun (by decide)) fun _ => wp_call.mpr ⟨trivial, fun fd _ => ?_⟩
  refine wp_if (fun _ => wp_perror begun) fun _ => wp_call.mpr ⟨trivial, fun r _ => ?_⟩
  refine wp_if (fun _ => wp_perrorClose begun) fun _ => ?_
  refine wp_preliminary (by decide) fun g hb => wp_if (fun hr => absurd rfl hr) fun _ => ?_
  apply wp_ftpDataOpen
  refine fun r env => wp_if (fun _ => wp_perrorClose hb) fun _ => wp_bind.mpr ?_
  apply wp_mono (wp_storLoop hb)
  intro o g h
  rcases o with _ | err | off
  case none       => simp [Replied]
  case some.error =>
    rintro ret env' ⟨⟩
    exact h
  case some.ok =>
    refine wp_call.mpr ⟨trivial, fun r _ => wp_if (fun _ => wp_bind.mpr ?_) fun _ => ?_⟩
    case refine_1 =>
      apply wp_mono (wp_perrorDataClose h)
      intro o g h
      cases o
      case none     => simp [Replied]
      case some ret =>
        rintro ret env' ⟨⟩
        exact h _ rfl
    case refine_2 =>
      refine wp_call.mpr ⟨trivial, fun r _ => ?_⟩
      apply wp_ftpDataClose
      exact fun r => wp_if (fun _ => wp_perror h) fun _ => wp_reply h (by decide)

theorem wp_ftpCmdAPPE : (ftpCmdAPPE fuel env arg).wp replies (Replied True) [] := by
  refine wp_if (fun _ => wp_reply begun (by decide)) fun _ => wp_if (fun _ => ?_) fun _ => wp_ftpCmdSTOR
  refine wp_call.mpr ⟨trivial, fun st _ => ?_⟩
  cases st
  case none => exact wp_perror begun
  case some => exact wp_ftpCmdSTOR

theorem wp_pathCmd {usage done : String} {call : Bytes → Proc Int} (hu : Final (bytes usage)) (hd : Final (bytes done))
    (hc : ∀ {p Q}, (∀ r, Q (some r) []) → (call p).wp replies Q []) :
    (pathCmd usage done call env arg).wp replies (Replied transfer) [] :=
  wp_if (fun _ => wp_reply begun hu) fun _ => wp_bind.mpr <| hc fun _ =>
    wp_if (fun _ => wp_perror begun) fun _ => wp_reply begun hd

theorem wp_ftpCmdRNFR : (ftpCmdRNFR env arg).wp replies (Replied transfer) [] := by
  refine wp_if (fun _ => wp_reply begun (by decide)) fun _ => wp_call.mpr ⟨trivial, fun st _ => ?_⟩
  cases st
  case none => exact wp_perror begun
  case some => exact wp_reply begun (by decide)

theorem wp_ftpCmdRNTO : (ftpCmdRNTO env arg).wp replies (Replied transfer) [] := by
  refine wp_if (fun _ => wp_reply begun (by decide)) fun _ => wp_call.mpr ⟨trivial, fun st _ => ?_⟩
  cases st
  case none => exact wp_perror begun
  case some =>
    exact wp_call.mpr ⟨trivial, fun r _ => wp_if (fun _ => wp_perror begun) fun _ => wp_reply begun (by decide)⟩

theorem wp_ftpCmdSIZE : (ftpCmdSIZE env arg).wp replies (Replied transfer) [] := by
  refine wp_if (fun _ => wp_reply begun (by decide)) fun _ => wp_call.mpr ⟨trivial, fun st _ => ?_⟩
  cases st
  case none => exact wp_perror begun
  case some =>
    apply wp_reply begun
    rw [append_assoc]
    exact Final.append (by decide)

theorem wp_ftpCmdTYPE : (ftpCmdTYPE env arg).wp replies (Replied transfer) [] := by
  rw [ftpCmdTYPE]
  split
  all_goals exact wp_reply begun (by decide)

-- The commands that announce a transfer.
def transferCommands : List Bytes :=
  ["LIST", "RETR", "STOR", "APPE"].map bytes

-- What a command with a given name has replied, and whether it may end the session.
def Ends (name : Bytes) (o : Option (Int × Env)) (g : List Bytes) : Prop :=
  ∀ ret env, o = some (ret, env) → Answered (name ∈ transferCommands) g ∧ (ret ≠ 0 → name = bytes "QUIT")

variable {name : Bytes} {p : Proc (Int × Env)}

theorem ends_of_replied (h : p.wp replies (Replied (name ∈ transferCommands)) []) : p.wp replies (Ends name) [] := by
  apply wp_mono h
  intro o g h ret env ho
  have ⟨hr, ha⟩ := h ret env ho
  exact ⟨ha, fun hn => absurd hr hn⟩

theorem ends_of_transfer (h : p.wp replies (Replied True) []) (hn : name ∈ transferCommands) :
    p.wp replies (Ends name) [] := by
  apply ends_of_replied
  rwa [eq_true hn]

theorem ends_ftpCmdQUIT : (ftpCmdQUIT env arg).wp replies (Ends (bytes "QUIT")) [] := by
  refine wp_bind.mpr (wp_ftpActivePrintf.mpr ?_)
  rintro ret env' ⟨⟩
  exact ⟨⟨[], _, begun, Final.printf (by decide), rfl⟩, fun _ => rfl⟩

theorem ends_command : ∀ c ∈ commands, (c.snd fuel env arg).wp replies (Ends c.fst) [] := by
  have hr {env : Env} {name text : Bytes} (h : Final text) : (reply env text).wp replies (Ends name) [] :=
    ends_of_replied (wp_reply begun h)
  have hp {name : Bytes} {usage done : String} {call : Bytes → Proc Int} (hu : Final (bytes usage))
      (hd : Final (bytes done)) (hc : ∀ {p Q}, (∀ r, Q (some r) []) → (call p).wp replies Q []) :
      (pathCmd usage done call env arg).wp replies (Ends name) [] :=
    ends_of_replied (wp_pathCmd hu hd hc)
  simp only [commands, forall_mem_cons, not_mem_nil, false_implies, implies_true, and_true]
  exact ⟨ends_of_transfer wp_ftpCmdAPPE (by decide), hr (by decide), ends_of_replied wp_ftpCmdCWD,
    hp (by decide) (by decide) fun h => ⟨trivial, fun r _ => h r⟩, ends_of_transfer wp_ftpCmdLIST (by decide),
    hp (by decide) (by decide) fun h => ⟨trivial, fun r _ => h r⟩, hr (by decide), ends_of_replied wp_ftpCmdPASV,
    ends_of_replied wp_ftpCmdPORT, ends_of_replied wp_ftpCmdPWD, ends_ftpCmdQUIT, ends_of_replied wp_ftpCmdREST,
    ends_of_transfer wp_ftpCmdRETR (by decide), hp (by decide) (by decide) fun h => ⟨trivial, fun r _ => h r⟩,
    ends_of_replied wp_ftpCmdRNFR, ends_of_replied wp_ftpCmdRNTO, ends_of_replied wp_ftpCmdSIZE,
    ends_of_transfer wp_ftpCmdSTOR (by decide), hr (by decide), ends_of_replied wp_ftpCmdTYPE, hr (by decide),
    ⟨trivial, fun _ _ => by rintro ret env' ⟨⟩⟩, hr (by decide), ends_of_replied wp_ftpCmdCHMOD,
    ends_of_replied wp_ftpCmdCWD, hp (by decide) (by decide) fun h => ⟨trivial, fun r _ => h r⟩,
    ends_of_replied wp_ftpCmdPWD, hp (by decide) (by decide) fun h => ⟨trivial, fun r _ => h r⟩, hr (by decide),
    hr (by decide), hr (by decide), hr (by decide)⟩

theorem wp_ftpExecute {line : Bytes} : (ftpExecute fuel env line).wp replies (Ends (splitLine line).fst) [] := by
  cases @ftpExecute_eq env fuel line
  case inl h =>
    have ⟨c, hc, hn, he⟩ := h
    rw [he, ← hn]
    exact ends_command c hc
  case inr h =>
    rw [h.right]
    exact ends_of_replied (wp_reply begun (by decide))

-- Whatever the system answers, a command that comes to its end has written one final reply.
theorem ftpExecute_replies {line : Bytes} {t : Trace Result} {ret : Int} {env' : Env}
    (ho : (ftpExecute fuel env line).Observed t (some (ret, env'))) (ha : replies.Allowed [] t) :
    Answered ((splitLine line).fst ∈ transferCommands) (replies.after [] t) ∧
      (ret ≠ 0 → (splitLine line).fst = bytes "QUIT") :=
  (wp_sound wp_ftpExecute ho ha).right ret env' rfl

-- An empty directory is listed.
def listSample : Trace Result :=
  [⟨.opendir [slash], some (1 : Nat)⟩, ⟨.accept 5, (6 : Int)⟩,
    ⟨.activeWrite 4 (bytes "150 Opening data transfer\r\n"), (27 : Int)⟩, ⟨.readdir 1, (none : Option Bytes)⟩,
    ⟨.close 6, (0 : Int)⟩, ⟨.closedir 1, (0 : Int)⟩,
    ⟨.activeWrite 4 (bytes "226 Transfer complete\r\n"), (23 : Int)⟩]

theorem ftpExecute_replies_sample :
    Answered (bytes "LIST" ∈ transferCommands) [bytes "150 Opening data transfer\r\n", bytes "226 Transfer complete\r\n"] := by
  have ho : (ftpExecute 1 { initEnv 4 with passiveFd := 5 } (bytes "LIST")).Observed listSample
      (some (0, { initEnv 4 with passiveFd := 5, dataFd := 6 })) := observed_of_replay (by decide +kernel)
  have h150 : (27 : Int) = (bytes "150 Opening data transfer\r\n").length := by decide
  have h226 : (23 : Int) = (bytes "226 Transfer complete\r\n").length := by decide
  have ha : replies.Allowed [] listSample := ⟨trivial, trivial, h150, trivial, trivial, trivial, h226, trivial⟩
  exact (ftpExecute_replies ho ha).left

end Ftp

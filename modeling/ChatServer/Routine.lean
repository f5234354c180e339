import ChatServer.Broadcast
import ChatServer.Threads

/-!
# Routine actions

What most commands are made of: reads, replies, messages. A routine line begins
with none of the words that change the session of who reads it, `KICKED`,
`ROOM_JOINED` and `WELCOME`.
-/

namespace ChatServer

open CStr Prog

def Routine.Line (buf : Bytes) : Prop := ∀ c ∈ buf.head?, c ≠ 75 ∧ c ≠ 82 ∧ c ≠ 87

def IsKicked (buf : Bytes) : Prop := buf.take 7 = lit "KICKED "

instance (buf : Bytes) : Decidable (IsKicked buf) := inferInstanceAs (Decidable (_ = _))

def Routine : Act → Prop
  | .start | .close _ | .authVerify .. | .registryAdd .. | .registryRemove _ | .registrySetRoom .. | .shutdown _ => False
  | .connTrackDecrement => False
  | .mqPush msg => msg.type = .chat
  | .send _ buf _ => Routine.Line buf
  | _ => True

/-- A routine action of a session's handler: what only the accept loop does, and the
question for admin rights in `AUTH`, are none. -/
def Everyday : Act → Prop
  | .accept | .spawn .. | .authIsAdmin _ => False
  | a => Routine a

theorem Everyday.routine {a : Act} (h : Everyday a) : Routine a := by
  cases a with
  | accept | spawn | authIsAdmin => trivial
  | _ => exact h

/-- The two actions of `KICK` that are no routine. -/
def Kicks : Act → Prop
  | .shutdown _ => True
  | .send _ buf _ => IsKicked buf
  | _ => False

theorem Routine.Line.notKicked {buf : Bytes} (h : Routine.Line buf) : ¬ IsKicked buf := by
  intro hk
  cases buf with
  | nil => cases hk
  | cons c rest =>
    have hhead : c :: rest.take 6 = 75 :: lit "ICKED " := hk
    exact (h c rfl).1 (List.cons.inj hhead).1

theorem routine_line {c : UInt8} (word : Bytes) {rest : Bytes} (hc : c ≠ 75 ∧ c ≠ 82 ∧ c ≠ 87) :
    Routine.Line (buildLine maxLineLen (c :: word ++ rest)).2 := by
  intro d hd
  cases hd
  exact hc

theorem err_routine (msg : Bytes) : Routine.Line (protocolBuildServerErr maxLineLen msg).2 := by
  simp only [protocolBuildServerErr, List.append_assoc]
  exact routine_line (c := 69) (lit "RR ") (by decide)

theorem ok_routine (msg : Bytes) : Routine.Line (protocolBuildServerOk maxLineLen msg).2 := by
  simp only [protocolBuildServerOk, List.append_assoc]
  exact routine_line (c := 79) (lit "K ") (by decide)

theorem history_routine (payload : Bytes) : Routine.Line (protocolBuildServerHistory maxLineLen payload).2 := by
  simp only [protocolBuildServerHistory, List.append_assoc]
  exact routine_line (c := 72) (lit "ISTORY ") (by decide)

theorem list_routine (users : Bytes) : Routine.Line (protocolBuildServerList maxLineLen users).2 := by
  simp only [protocolBuildServerList, List.append_assoc]
  exact routine_line (c := 76) (lit "IST ") (by decide)

theorem pm_routine (sender ts content : Bytes) : Routine.Line (protocolBuildServerPm maxLineLen sender ts content).2 := by
  simp only [protocolBuildServerPm, List.append_assoc]
  exact routine_line (c := 80) (lit "M ") (by decide)

theorem broadcast_routine (username ts room message : Bytes) :
    Routine.Line (protocolBuildServerBroadcast maxLineLen username ts room message).2 := by
  simp only [protocolBuildServerBroadcast, List.append_assoc]
  exact routine_line (c := 66) (lit "ROADCAST ") (by decide)

theorem userJoin_routine (username room : Bytes) : Routine.Line (protocolBuildServerUserJoin maxLineLen username room).2 := by
  simp only [protocolBuildServerUserJoin, List.append_assoc]
  exact routine_line (c := 85) (lit "SER_JOIN ") (by decide)

theorem userLeft_routine (username room : Bytes) : Routine.Line (protocolBuildServerUserLeft maxLineLen username room).2 := by
  simp only [protocolBuildServerUserLeft, List.append_assoc]
  exact routine_line (c := 85) (lit "SER_LEFT ") (by decide)

theorem eventLine_routine {P : Platform} {msg : MqMessage} {line : Bytes} (h : eventLine P msg = some line) :
    Routine.Line line := by
  unfold eventLine at h
  cases htype : msg.type with
  | chat =>
    rw [htype] at h
    simp only [Option.ite_none_right_eq_some, Option.some.injEq] at h
    rw [← h.2]
    exact broadcast_routine _ _ _ _
  | join | roomJoin =>
    rw [htype] at h
    simp only [Option.ite_none_right_eq_some, Option.some.injEq] at h
    rw [← h.2]
    exact userJoin_routine _ _
  | leave | roomLeave =>
    rw [htype] at h
    simp only [Option.ite_none_right_eq_some, Option.some.injEq] at h
    rw [← h.2]
    exact userLeft_routine _ _
  | shutdown =>
    rw [htype] at h
    cases h

/-! ## Sending -/

section
variable {φ : Act → Prop} {fd : Int}

theorem sendLoop_only {buf : Bytes} (hsend : ∀ sent, φ (.send fd buf sent)) : ∀ fuel sent, Only φ (sendLoop fd buf fuel sent)
  | 0, _ => trivial
  | fuel + 1, sent => by
    unfold sendLoop
    split
    · trivial
    refine only_act (hsend sent) fun (r : Option Nat) => ?_
    cases r with
    | none => trivial
    | some n =>
      cases n with
      | zero => trivial
      | succ n => exact sendLoop_only hsend fuel (sent + (n + 1))

theorem sendAll_only {buf : Bytes} (hsend : ∀ sent, φ (.send fd buf sent)) : Only φ (sendAll fd buf) :=
  sendLoop_only hsend buf.length 0

theorem roomHistorySend_only {room : Bytes} (hformat : ∀ buflen, φ (.roomHistoryFormat room buflen))
    (hsend : ∀ payload sent, φ (.send fd (protocolBuildServerHistory maxLineLen payload).2 sent)) :
    Only φ (roomHistorySendToClient room fd cmdSendResponse) := by
  unfold roomHistorySendToClient
  refine only_act (hformat maxLineLen) ?_
  rintro ⟨rc, payload⟩
  show Only φ (if rc ≠ .ok then pure ChatStatus.err else if (protocolBuildServerHistory maxLineLen payload).1 ≠ .ok then
    pure ChatStatus.err else cmdSendResponse fd (protocolBuildServerHistory maxLineLen payload).2)
  split
  · trivial
  split
  · trivial
  · exact sendAll_only (hsend payload)

theorem enqueueRoomEvent_only {type : MqEventType} {username room : Bytes} (hevt : φ .stackEvent) (htime : φ .time)
    (hpush : ∀ evt now, φ (.mqPush (roomEvent evt type username room now))) :
    Only φ (enqueueRoomEvent type username room) :=
  only_act hevt fun evt => only_act htime fun now => ⟨hpush evt now, fun _ => trivial⟩

end

/-! ## Commands -/

section
variable (fd : Int)

theorem reply_only {line : Bytes} (hl : Routine.Line line) : Only Everyday (cmdSendResponse fd line) :=
  sendAll_only fun _ => hl

theorem respondErr_only (msg : String) : Only Everyday (respondErr fd msg) := reply_only fd (err_routine _)

theorem respondOk_only (msg : String) : Only Everyday (respondOk fd msg) := reply_only fd (ok_routine _)

theorem history_only (room : Bytes) : Only Everyday (roomHistorySendToClient room fd cmdSendResponse) :=
  roomHistorySend_only (fun _ => trivial) fun payload _ => history_routine payload

theorem cmdHandleMsg_only (content : Bytes) : Only Everyday (cmdHandleMsg fd content) := by
  unfold cmdHandleMsg
  refine only_act trivial fun ⟨rc, username⟩ => ?_
  show Only Everyday (if rc ≠ .ok then _ else _)
  split
  · exact respondErr_only fd _
  refine only_act trivial fun ⟨rc, room⟩ => ?_
  show Only Everyday (if rc ≠ .ok then _ else _)
  split
  · trivial
  split
  · exact respondErr_only fd _
  refine only_act trivial fun now => only_act trivial fun _ => only_act trivial fun evt => ?_
  refine only_act rfl fun rc => ?_
  split
  · exact respondErr_only fd _
  · exact respondOk_only fd _

theorem cmdHandlePm_only (P : Platform) (target content : Bytes) : Only Everyday (cmdHandlePm P fd target content) := by
  unfold cmdHandlePm
  refine only_act trivial fun ⟨rc, sender⟩ => ?_
  show Only Everyday (if rc ≠ .ok then _ else _)
  split
  · exact respondErr_only fd _
  split
  · exact respondErr_only fd _
  split
  · exact respondErr_only fd _
  refine only_act trivial fun targetFd => ?_
  split
  · exact respondErr_only fd _
  refine only_act trivial fun now => Only.bind (fun rc => ?_) (reply_only targetFd (pm_routine _ _ _))
  split
  · exact respondErr_only fd _
  · exact respondOk_only fd _

theorem cmdHandleList_only : Only Everyday (cmdHandleList fd) := by
  unfold cmdHandleList
  refine only_act trivial fun ⟨rc, username⟩ => ?_
  show Only Everyday (if rc ≠ .ok then _ else _)
  split
  · exact respondErr_only fd _
  refine only_act trivial fun ⟨rc, users⟩ => ?_
  show Only Everyday (if rc ≠ .ok then _ else _)
  split
  · exact respondErr_only fd _
  · exact reply_only fd (list_routine users)

theorem cmdHandleHistory_only : Only Everyday (cmdHandleHistory fd) := by
  unfold cmdHandleHistory
  refine only_act trivial fun ⟨rc, username⟩ => ?_
  show Only Everyday (if rc ≠ .ok then _ else _)
  split
  · exact respondErr_only fd _
  refine only_act trivial fun ⟨rc, room⟩ => ?_
  show Only Everyday (if rc ≠ .ok then _ else _)
  split
  · trivial
  refine Only.bind (fun rc => ?_) (history_only fd room)
  split
  · exact respondErr_only fd _
  · exact respondOk_only fd _

/-! What the other commands issue besides. -/

variable {fd} {φ : Act → Prop} (hφ : ∀ a, Everyday a → φ a) (hpush : ∀ msg, φ (.mqPush msg))
include hφ

theorem cmdHandleKick_only (hkicked : ∀ fd' sent, φ (.send fd' (protocolBuildServerKicked maxLineLen (lit "kicked by admin")).2 sent))
    (hshutdown : ∀ fd', φ (.shutdown fd')) (target : Bytes) : Only φ (cmdHandleKick fd target) := by
  have hrefuse : ∀ msg, Only φ (respondErr fd msg) := fun msg => (respondErr_only fd msg).mono hφ
  unfold cmdHandleKick
  refine only_act (hφ _ trivial) fun isAdmin => ?_
  split
  · exact hrefuse _
  split
  · exact hrefuse _
  refine only_act (hφ _ trivial) fun ⟨rc, admin⟩ => ?_
  show Only φ (if rc = .ok ∧ admin = target then _ else _)
  split
  · exact hrefuse _
  refine only_act (hφ _ trivial) fun (targetFd : Int) => ?_
  split
  · exact hrefuse _
  refine Only.bind (fun _ => only_act (hshutdown targetFd) fun _ => ?_) (sendAll_only (hkicked targetFd))
  exact (respondOk_only fd _).mono hφ

include hpush

theorem event_only (type : MqEventType) (username room : Bytes) : Only φ (enqueueRoomEvent type username room) :=
  enqueueRoomEvent_only (hφ _ trivial) (hφ _ trivial) fun _ _ => hpush _

theorem cmdHandleJoinRoom_only {room : Bytes} (hset : φ (.registrySetRoom fd room))
    (hjoined : ∀ sent, φ (.send fd (protocolBuildServerRoomJoined maxLineLen room).2 sent)) :
    Only φ (cmdHandleJoinRoom fd room) := by
  have hrefuse : ∀ msg, Only φ (respondErr fd msg) := fun msg => (respondErr_only fd msg).mono hφ
  unfold cmdHandleJoinRoom
  split
  · exact hrefuse _
  refine only_act (hφ _ trivial) fun ⟨rc, username⟩ => ?_
  show Only φ (if rc ≠ .ok then _ else _)
  split
  · exact hrefuse _
  refine only_act (hφ _ trivial) fun ⟨rc, oldRoom⟩ => ?_
  show Only φ (if rc ≠ .ok then _ else _)
  split
  · trivial
  split
  · exact hrefuse _
  refine Only.bind (fun _ => only_act hset fun _ => ?_) (event_only hφ hpush ..)
  refine Only.bind (fun _ => ?_) (sendAll_only hjoined)
  refine Only.bind (fun _ => ?_) ((history_only fd room).mono hφ)
  exact Only.bind (fun _ => (respondOk_only fd _).mono hφ) (event_only hφ hpush ..)

theorem cmdHandleAuth_only {username password : Bytes} (hverify : φ (.authVerify username password))
    (hadmin : φ (.authIsAdmin username)) (hadd : ∀ isAdmin, φ (.registryAdd fd username defaultRoom isAdmin)) (hremove : φ (.registryRemove fd))
    (hwelcome : ∀ sent, φ (.send fd (protocolBuildServerWelcome maxLineLen username).2 sent))
    (hjoined : ∀ sent, φ (.send fd (protocolBuildServerRoomJoined maxLineLen defaultRoom).2 sent)) :
    Only φ (cmdHandleAuth fd username password) := by
  have hrefuse : ∀ msg {rc : ChatStatus}, Only φ (respondErr fd msg >>= fun _ => pure rc) := fun msg rc =>
    Only.bind (fun _ => only_ret _) ((respondErr_only fd msg).mono hφ)
  unfold cmdHandleAuth
  split
  · exact hrefuse _
  refine only_act hverify fun rc => ?_
  split
  · exact hrefuse _
  refine only_act (hφ _ trivial) fun online => ?_
  split
  · exact hrefuse _
  refine only_act hadmin fun (admin : Bool) => only_act (hadd admin) fun rc => ?_
  split
  · exact hrefuse _
  refine Only.bind (fun rc => ?_) (sendAll_only hwelcome)
  split
  · exact only_act hremove fun _ => trivial
  refine Only.bind (fun _ => ?_) (sendAll_only hjoined)
  refine Only.bind (fun _ => ?_) ((history_only fd _).mono hφ)
  refine Only.bind (fun _ => ?_) ((respondOk_only fd _).mono hφ)
  exact Only.bind (fun _ => only_ret _) (event_only hφ hpush ..)

theorem cmdDisconnectClient_only (hremove : φ (.registryRemove fd)) (hclose : φ (.close fd)) (username : Bytes) (authenticated : Bool) :
    Only φ (cmdDisconnectClient fd username authenticated) := by
  have hend : Only φ (Sys.close fd) := ⟨hclose, fun _ => trivial⟩
  have hrest : Only φ (do let _ ← Sys.registryRemove fd; let _ ← Sys.registryCount; Sys.close fd) :=
    only_act hremove fun _ => only_act (hφ _ trivial) fun _ => hend
  unfold cmdDisconnectClient
  split
  · refine only_act (hφ _ trivial) fun ⟨rc, room⟩ => ?_
    show Only φ (if rc = .ok then _ else _)
    split
    · exact Only.bind (fun _ => hrest) (event_only hφ hpush ..)
    · exact hrest
  · exact hend

end

end ChatServer

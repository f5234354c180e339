import ChatServer.StagesSound
import ChatServer.Threads

/-!
# The commands, stage by stage

Each command, started where the session stands, issues only what its stage
permits, whatever the answers are. A reply line is sent to its end or up to a
failure, a message is pushed right after it is stored, and a room change
passes through its two events.
-/

namespace ChatServer

open CStr Prog

/-! ## Lines -/

/-- A line that a handler sends: no private message and no broadcast. -/
structure Reply (line : Bytes) : Prop where
  notPm : ¬ IsPm line
  notBroadcast : ¬ Phase.IsBroadcast line
  nonempty : 0 < line.length

theorem not_isBroadcast {c : UInt8} {rest : Bytes} (hc : c ≠ 66) : ¬ Phase.IsBroadcast (c :: rest) := by
  intro h
  have h' : c :: rest.take 9 = lit "BROADCAST " := h
  exact hc (List.cons.inj (h'.trans (by decide : lit "BROADCAST " = 66 :: lit "ROADCAST "))).1

theorem reply_of_word {c : UInt8} (word : Bytes) {rest : Bytes} (hc : c ≠ 66) (hpm : ¬ IsPm (buildLine maxLineLen (c :: word ++ rest)).2) :
    Reply (buildLine maxLineLen (c :: word ++ rest)).2 :=
  ⟨hpm, not_isBroadcast hc, Nat.succ_pos _⟩

theorem err_reply (msg : Bytes) : Reply (protocolBuildServerErr maxLineLen msg).2 := by
  have h := err_isPm msg
  simp only [protocolBuildServerErr, List.append_assoc] at h ⊢
  exact reply_of_word (c := 69) (lit "RR ") (by decide) h

theorem ok_reply (msg : Bytes) : Reply (protocolBuildServerOk maxLineLen msg).2 := by
  have h := ok_isPm msg
  simp only [protocolBuildServerOk, List.append_assoc] at h ⊢
  exact reply_of_word (c := 79) (lit "K ") (by decide) h

theorem welcome_reply (username : Bytes) : Reply (protocolBuildServerWelcome maxLineLen username).2 := by
  have h := welcome_isPm username
  simp only [protocolBuildServerWelcome, List.append_assoc] at h ⊢
  exact reply_of_word (c := 87) (lit "ELCOME ") (by decide) h

theorem roomJoined_reply (room : Bytes) : Reply (protocolBuildServerRoomJoined maxLineLen room).2 := by
  have h := roomJoined_isPm room
  simp only [protocolBuildServerRoomJoined, List.append_assoc] at h ⊢
  exact reply_of_word (c := 82) (lit "OOM_JOINED ") (by decide) h

theorem history_reply (payload : Bytes) : Reply (protocolBuildServerHistory maxLineLen payload).2 := by
  have h := history_isPm payload
  simp only [protocolBuildServerHistory, List.append_assoc] at h ⊢
  exact reply_of_word (c := 72) (lit "ISTORY ") (by decide) h

theorem kicked_reply (reason : Bytes) : Reply (protocolBuildServerKicked maxLineLen reason).2 := by
  have h := kicked_isPm reason
  simp only [protocolBuildServerKicked, List.append_assoc] at h ⊢
  exact reply_of_word (c := 75) (lit "ICKED ") (by decide) h

theorem list_reply (users : Bytes) : Reply (protocolBuildServerList maxLineLen users).2 := by
  have h := list_isPm users
  simp only [protocolBuildServerList, List.append_assoc] at h ⊢
  exact reply_of_word (c := 76) (lit "IST ") (by decide) h

theorem PmFrom.notBroadcast {u line : Bytes} (h : PmFrom u line) : ¬ Phase.IsBroadcast line ∧ 0 < line.length := by
  obtain ⟨ts, text, rfl⟩ := h
  simp only [List.append_assoc]
  exact ⟨not_isBroadcast (c := 80) (by decide), Nat.succ_pos _⟩

/-! ## Steps of a program -/

namespace Act

/-- Actions that leave the stage as it is. -/
def still : Act → Bool
  | .stop | .shutdown _ | .time | .stackEvent | .authIsAdmin _ | .registryUsernameExists _ | .registryGetUsername _ => true
  | .registryGetRoom _ | .registryIsAdmin _ | .registryGetSockfdByUsername _ | .registryCount => true
  | .registryBuildUserList _ | .foreachFirst | .foreachNext _ | .mqPop | .mqSignalShutdown => true
  | .closeListen | .mallocArg => true
  | _ => false

end Act

/-- The phase is `p`, and nothing is left to finish. -/
def Settled {α : Type} (p : Phase) (_ : α) (σ : Stage) : Prop := σ.phase = p ∧ σ.errand.Open

section
variable {T : Prop} {p : Phase} {q : Errand} {α β : Type} {Q : β → Stage → Prop}

theorem Errand.found_open (hq : q.Open) (evt : MqMessage) : q.found evt = q := by
  cases q with
  | stored => cases hq
  | _ => rfl

theorem Errand.pushed_open (hq : q.Open) : q.pushed = q := by
  cases q with
  | ready => cases hq
  | _ => rfl

theorem permits_still {a : Act} (hstill : a.still = true) (ha : allowed T a p.view) (hq : q.Open) :
    Stage.permits T ⟨p, q⟩ a := by
  cases a with
  | start | running | recvLine | send | close | authVerify | registryAdd | registryRemove | registrySetRoom => cases hstill
  | roomHistoryAdd | roomHistoryFormat | mqPush | accept | connAtCapacity | connTrackIncrement => cases hstill
  | connTrackDecrement | spawn => cases hstill
  | stackEvent => exact ⟨ha, trivial, Or.inl hq⟩
  | _ => exact ⟨ha, trivial, hq⟩

theorem next_still {a : Act} (hstill : a.still = true) (hq : q.Open) (r : a.Ret) : Stage.next ⟨p, q⟩ a r = ⟨p, q⟩ := by
  cases a with
  | start | running | recvLine | send | close | authVerify | registryAdd | registryRemove | registrySetRoom => cases hstill
  | roomHistoryAdd | roomHistoryFormat | mqPush | accept | connAtCapacity | connTrackIncrement => cases hstill
  | connTrackDecrement | spawn => cases hstill
  | stackEvent => exact congrArg (Stage.mk p) (Errand.found_open hq r)
  | _ => rfl

theorem meets_still {a : Act} {k : a.Ret → Cmd β} (hstill : a.still = true) (ha : allowed T a p.view) (hq : q.Open)
    (h : ∀ r, Stage.tells T ⟨p, q⟩ a r → Meets (stageContract T) Q (k r) ⟨p, q⟩) :
    Meets (stageContract T) Q (Prog.op a >>= k) ⟨p, q⟩ := by
  refine meets_op (permits_still hstill ha hq) ?_
  rintro r σ' ⟨rfl, ht⟩
  rw [next_still hstill hq]
  exact h r ht

theorem Settled.bind {x : Cmd α} {f : α → Cmd β} {σ : Stage} (hx : Meets (stageContract T) (Settled p) x σ)
    (hf : ∀ y q, q.Open → Meets (stageContract T) Q (f y) ⟨p, q⟩) : Meets (stageContract T) Q (x >>= f) σ := by
  apply Meets.bind
  refine Meets.mono ?_ hx
  rintro y ⟨p', q'⟩ ⟨rfl, hq'⟩
  exact hf y q' hq'

/-! ## Sending -/

theorem sendLoop_done {fd : Int} {buf : Bytes} {sent : Nat} (h : buf.length ≤ sent) :
    ∀ fuel, sendLoop fd buf fuel sent = .ret .ok
  | 0 => rfl
  | fuel + 1 => by
    unfold sendLoop
    rw [if_pos h]
    rfl

variable {fd : Int} {buf : Bytes}

/-- From the first byte on, the loop goes on with the line until it is through or fails. -/
theorem sendLoop_meets (ha : ∀ sent, allowed T (.send fd buf sent) p.view) (hb : p = .casting ∨ ¬ Phase.IsBroadcast buf) :
    ∀ (fuel sent : Nat) (q : Errand), sent < buf.length → buf.length ≤ sent + fuel →
      (q = .sending fd buf sent ∨ sent = 0 ∧ (q.Open ∨ q = .quoting fd buf)) →
      Meets (stageContract T) (Settled p) (sendLoop fd buf fuel sent) ⟨p, q⟩
  | 0, sent, q, hs, hf, _ => by omega
  | fuel + 1, sent, q, hs, hf, hq => by
    unfold sendLoop
    rw [if_neg (Nat.not_le.mpr hs)]
    refine meets_op ⟨ha sent, hb, hs, hq⟩ ?_
    rintro r σ' ⟨rfl, -⟩
    change Option Nat at r
    cases r with
    | none => exact ⟨rfl, trivial⟩
    | some n =>
      cases n with
      | zero => exact ⟨rfl, trivial⟩
      | succ n =>
        show Meets _ _ (sendLoop fd buf fuel (sent + (n + 1))) (Stage.mk p (Errand.sent fd buf sent (some (n + 1))))
        by_cases hlt : sent + (n + 1) < buf.length
        · rw [Errand.sent, if_pos ⟨Nat.succ_ne_zero n, hlt⟩]
          exact sendLoop_meets ha hb fuel _ _ hlt (by omega) (Or.inl rfl)
        · rw [Errand.sent, if_neg (fun h => hlt h.2), sendLoop_done (Nat.not_lt.mp hlt)]
          exact ⟨rfl, trivial⟩

theorem sendAll_meets (ha : ∀ sent, allowed T (.send fd buf sent) p.view) (hb : p = .casting ∨ ¬ Phase.IsBroadcast buf)
    (hl : 0 < buf.length) (hq : q.Open ∨ q = .quoting fd buf) : Meets (stageContract T) (Settled p) (sendAll fd buf) ⟨p, q⟩ :=
  sendLoop_meets ha hb buf.length 0 q hl (by omega) (Or.inr ⟨rfl, hq⟩)

variable (hon : p.view.On fd)
include hon

theorem cmdSendResponse_meets {line : Bytes} (hl : Reply line) (hq : q.Open ∨ q = .quoting fd line) :
    Meets (stageContract T) (Settled p) (cmdSendResponse fd line) ⟨p, q⟩ :=
  sendAll_meets (allowed_send hon hl.notPm) (Or.inr hl.notBroadcast) hl.nonempty hq

variable (hq : q.Open)
include hq

theorem respondErr_meets (msg : String) : Meets (stageContract T) (Settled p) (respondErr fd msg) ⟨p, q⟩ :=
  cmdSendResponse_meets hon (err_reply _) (Or.inl hq)

theorem respondOk_meets (msg : String) : Meets (stageContract T) (Settled p) (respondOk fd msg) ⟨p, q⟩ :=
  cmdSendResponse_meets hon (ok_reply _) (Or.inl hq)

/-- The history of the own room is read, and a line that could be built is sent. -/
theorem roomHistorySend_meets {room : Bytes} (hseat : p.seat = some (fd, room)) :
    Meets (stageContract T) (Settled p) (roomHistorySendToClient room fd cmdSendResponse) ⟨p, q⟩ := by
  have hfd : p.fd = fd := by
    cases p <;> cases hseat <;> rfl
  unfold roomHistorySendToClient
  refine meets_op ⟨by cases p.view <;> trivial, ⟨fd, hseat⟩, hq⟩ ?_
  rintro ⟨rc, payload⟩ σ' ⟨rfl, -⟩
  show Meets _ _ (if rc ≠ .ok then pure ChatStatus.err else _) (Stage.mk p (q.quoted p.fd (rc, payload)))
  rw [hfd]
  by_cases hrc : rc = .ok
  · subst hrc
    rw [if_neg (not_not_intro rfl)]
    show Meets _ _ (if (protocolBuildServerHistory maxLineLen payload).1 ≠ .ok then pure ChatStatus.err else
      cmdSendResponse fd (protocolBuildServerHistory maxLineLen payload).2) _
    by_cases hline : (protocolBuildServerHistory maxLineLen payload).1 = .ok
    · rw [if_neg (not_not_intro hline), Errand.quoted, if_pos ⟨rfl, hline⟩]
      exact cmdSendResponse_meets hon (history_reply _) (Or.inr rfl)
    · rw [if_pos hline, Errand.quoted, if_neg fun h => hline h.2]
      exact ⟨rfl, hq⟩
  · rw [if_pos hrc, Errand.quoted, if_neg fun h => hrc h.1]
    exact ⟨rfl, hq⟩

end

/-! ## The commands of a session that is logged in -/

/-- Logged in, in some room. -/
def AtHome {α : Type} (fd : Int) (u : Bytes) (_ : α) (σ : Stage) : Prop :=
  (∃ room, σ.phase = .present fd u room) ∧ σ.errand.Open

theorem present_on {fd : Int} {u room : Bytes} : (Phase.present fd u room).view.On fd := rfl

theorem cstr_field {n : Nat} {field s : Bytes} (hf : field.length = n + 1) (h0 : 0 ∉ s) (hl : s.length < n + 1)
    (hend : field[n]? = some 0) : cstr (strncpy field s n) = s := by
  have hc := cstr_of_nulFree h0
  have h : cstr (strncpy field s n) = cstr s :=
    cstr_strncpy_of_le (by rw [hc]; omega) (Or.inr ((cstr_drop_nil_iff hf).mpr hend))
  rwa [hc] at h

theorem roomEvent_room {evt : MqMessage} {room : Bytes} (hr : RoomLike room) (hevt : Stage.Ending evt) (type : MqEventType)
    (u : Bytes) (now : Int) : cstr (roomEvent evt type u room now).room = room :=
  cstr_field evt.room_length hr.1 hr.2 hevt.room

section
variable {T : Prop} {p : Phase} {q : Errand} {fd : Int} {u room : Bytes} (hu : NameLike u) (hq : q.Open)
include hu hq

theorem enqueueRoomEvent_meets {type : MqEventType} (hv : p.view = .online fd u) (hr : RoomLike room) (hne : type ≠ .chat)
    (hp : ∀ msg : MqMessage, msg.type = type → (T → cstr msg.room = room) → p.pushes T msg) :
    Meets (stageContract T) (Settled (p.onPush type)) (enqueueRoomEvent type u room) ⟨p, q⟩ := by
  unfold enqueueRoomEvent
  refine meets_still rfl (by cases p.view <;> trivial) hq fun evt hevt => ?_
  refine meets_still rfl (by cases p.view <;> trivial) hq fun now _ => ?_
  have hallow : allowed T (.mqPush (roomEvent evt type u room now)) p.view := by
    rw [hv]
    exact fun hT => roomEvent_sender hu (hevt hT).username type room now
  have herr : q.permits (.mqPush (roomEvent evt type u room now)) := by
    show if type = .chat then _ else _
    rw [if_neg hne]
    exact hq
  refine ⟨⟨hallow, hp _ rfl fun hT => roomEvent_room hr (hevt hT) type u now, herr⟩, ?_⟩
  rintro rc σ' ⟨rfl, -⟩
  refine ⟨rfl, ?_⟩
  show (q.pushed).Open
  rwa [Errand.pushed_open hq]

theorem cmdHandleJoinRoom_meets {old : Bytes} (hr : room ≠ [] → RoomLike room) :
    Meets (stageContract T) (AtHome fd u) (cmdHandleJoinRoom fd room) ⟨.present fd u old, q⟩ := by
  have home : ∀ {α : Type} {room : Bytes} {x : Cmd α} {q : Errand},
      Meets (stageContract T) (Settled (.present fd u room)) x ⟨.present fd u room, q⟩ →
        Meets (stageContract T) (AtHome fd u) x ⟨.present fd u room, q⟩ :=
    fun h => h.mono fun _ _ h => ⟨⟨_, h.1⟩, h.2⟩
  unfold cmdHandleJoinRoom
  split
  · exact home (respondErr_meets present_on hq _)
  rename_i hne
  refine meets_still rfl trivial hq ?_
  rintro ⟨rc, username⟩ hname
  obtain ⟨rfl, rfl⟩ := Prod.mk.inj (hname u rfl)
  refine meets_still rfl trivial hq ?_
  rintro ⟨rc, oldRoom⟩ hroom
  obtain ⟨hroom, hold⟩ := hroom old rfl
  obtain ⟨rfl, rfl⟩ := Prod.mk.inj hroom
  show Meets _ _ (if oldRoom = room then _ else _) _
  split
  · exact home (respondErr_meets present_on hq _)
  refine Settled.bind (enqueueRoomEvent_meets hu hq rfl hold nofun fun msg ht hmsg => Or.inr ⟨ht, hmsg⟩) fun _ q₁ hq₁ => ?_
  refine meets_op ⟨⟨username, rfl⟩, ⟨hr hne, fd, username, oldRoom, rfl⟩, hq₁⟩ ?_
  rintro _ σ' ⟨rfl, -⟩
  refine Settled.bind (cmdSendResponse_meets (p := .moved fd username room) rfl (roomJoined_reply room) (Or.inl hq₁)) fun _ q₂ hq₂ => ?_
  refine Settled.bind (roomHistorySend_meets (p := .moved fd username room) rfl hq₂ rfl) fun _ q₃ hq₃ => ?_
  refine Settled.bind (enqueueRoomEvent_meets hu hq₃ rfl (hr hne) nofun fun msg ht hmsg => ⟨ht, hmsg⟩) fun _ q₄ hq₄ => ?_
  exact home (respondOk_meets present_on hq₄ _)

omit hq in
/-- The message that was asked for is stored, and the next event is its own. -/
theorem cmdHandleMsg_meets {content : Bytes} (hc : TextLike content) :
    Meets (stageContract T) (Settled (.present fd u room)) (cmdHandleMsg fd content) ⟨.present fd u room, .asked content⟩ := by
  unfold cmdHandleMsg
  refine meets_still rfl trivial trivial ?_
  rintro ⟨rc, username⟩ hname
  obtain ⟨rfl, rfl⟩ := Prod.mk.inj (hname u rfl)
  refine meets_still rfl trivial trivial ?_
  rintro ⟨rc, room'⟩ hroom
  obtain ⟨hroom, hlike⟩ := hroom room rfl
  obtain ⟨rfl, rfl⟩ := Prod.mk.inj hroom
  have hne : content ≠ [] := List.length_pos_iff.mp hc.2.1
  show Meets _ _ (if content = [] then _ else _) _
  rw [if_neg hne]
  refine meets_still rfl trivial trivial fun now _ => ?_
  refine meets_op ⟨⟨hu, fd, rfl⟩, ⟨hlike, hc, fd, rfl⟩, rfl⟩ ?_
  rintro _ σ' ⟨rfl, -⟩
  refine meets_op ⟨trivial, trivial, Or.inr ⟨room', username, content, now, rfl⟩⟩ ?_
  rintro evt σ' ⟨rfl, hevt⟩
  refine meets_op ⟨fun hT => chatEvent_sender hu (hevt hT).username room' content now, Or.inl rfl, ?_⟩ ?_
  · exact rfl
  rintro (rc : ChatStatus) σ' ⟨rfl, -⟩
  show Meets _ _ (if rc ≠ .ok then _ else _) (Stage.mk (.present fd username room') .none)
  split
  · exact respondErr_meets (q := .none) present_on trivial _
  · exact respondOk_meets (q := .none) present_on trivial _

theorem cmdHandlePm_meets (P : Platform) {target content : Bytes} (ht : NameLike target) (hc : content.length < maxMsgLen) :
    Meets (stageContract T) (Settled (.present fd u room)) (cmdHandlePm P fd target content) ⟨.present fd u room, q⟩ := by
  unfold cmdHandlePm
  refine meets_still rfl trivial hq ?_
  rintro ⟨rc, sender⟩ hname
  obtain ⟨rfl, rfl⟩ := Prod.mk.inj (hname u rfl)
  show Meets _ _ (if target = [] ∨ content = [] then _ else _) _
  split
  · exact respondErr_meets present_on hq _
  split
  · exact respondErr_meets present_on hq _
  refine meets_still rfl ⟨⟨_, _, rfl⟩, ht⟩ hq fun targetFd _ => ?_
  split
  · exact respondErr_meets present_on hq _
  refine meets_still rfl trivial hq fun now _ => ?_
  have hpm := pm_line (P := P) hu hc now
  refine Settled.bind (sendAll_meets (p := .present fd sender room) (fun _ _ => hpm) (Or.inr hpm.notBroadcast.1)
    hpm.notBroadcast.2 (Or.inl hq)) fun rc q₁ hq₁ => ?_
  split
  · exact respondErr_meets present_on hq₁ _
  · exact respondOk_meets present_on hq₁ _

omit hu in
theorem cmdHandleList_meets :
    Meets (stageContract T) (Settled (.present fd u room)) (cmdHandleList fd) ⟨.present fd u room, q⟩ := by
  unfold cmdHandleList
  refine meets_still rfl trivial hq ?_
  rintro ⟨rc, username⟩ hname
  obtain ⟨rfl, rfl⟩ := Prod.mk.inj (hname u rfl)
  refine meets_still rfl trivial hq ?_
  rintro ⟨rc, users⟩ -
  show Meets _ _ (if rc ≠ .ok then respondErr fd "failed to build user list" else _) _
  split
  · exact respondErr_meets present_on hq _
  · exact cmdSendResponse_meets present_on (list_reply users) (Or.inl hq)

omit hu in
theorem cmdHandleHistory_meets :
    Meets (stageContract T) (Settled (.present fd u room)) (cmdHandleHistory fd) ⟨.present fd u room, q⟩ := by
  unfold cmdHandleHistory
  refine meets_still rfl trivial hq ?_
  rintro ⟨rc, username⟩ hname
  obtain ⟨rfl, rfl⟩ := Prod.mk.inj (hname u rfl)
  refine meets_still rfl trivial hq ?_
  rintro ⟨rc, room'⟩ hroom
  obtain ⟨rfl, rfl⟩ := Prod.mk.inj (hroom room rfl).1
  refine Settled.bind (roomHistorySend_meets present_on hq rfl) fun rc q₁ hq₁ => ?_
  split
  · exact respondErr_meets present_on hq₁ _
  · exact respondOk_meets present_on hq₁ _

omit hu in
theorem cmdHandleKick_meets {target : Bytes} (ht : NameLike target) :
    Meets (stageContract T) (Settled (.present fd u room)) (cmdHandleKick fd target) ⟨.present fd u room, q⟩ := by
  unfold cmdHandleKick
  refine meets_still rfl trivial hq fun isAdmin _ => ?_
  split
  · exact respondErr_meets present_on hq _
  split
  · exact respondErr_meets present_on hq _
  refine meets_still rfl trivial hq ?_
  rintro ⟨rc, admin⟩ -
  show Meets _ _ (if rc = .ok ∧ admin = target then _ else _) _
  split
  · exact respondErr_meets present_on hq _
  refine meets_still rfl ⟨⟨_, _, rfl⟩, ht⟩ hq fun targetFd _ => ?_
  split
  · exact respondErr_meets present_on hq _
  have hkicked := kicked_reply (lit "kicked by admin")
  refine Settled.bind (sendAll_meets (p := .present fd u room) (fun _ h => absurd h hkicked.notPm) (Or.inr hkicked.notBroadcast)
    hkicked.nonempty (Or.inl hq)) fun _ q₁ hq₁ => ?_
  refine meets_still rfl ⟨_, _, rfl⟩ hq₁ fun _ _ => ?_
  exact respondOk_meets present_on hq₁ _

end

/-! ## Logging in and leaving -/

/-- How `AUTH` ends. -/
structure AuthStage (fd : Int) (u : Bytes) (rc : ChatStatus) (σ : Stage) : Prop where
  through : rc = .ok → u ≠ [] ∧ σ.phase = .present fd u defaultRoom
  failed : rc ≠ .ok → σ.phase = .fresh fd ∨ σ.phase = .checked fd u ∨ σ.phase = .removed fd u
  errand : σ.errand.Open

section
variable {T : Prop} {fd : Int} {u : Bytes} {p : Phase} {q : Errand}

theorem authFailed (hp : p = .fresh fd ∨ p = .checked fd u ∨ p = .removed fd u) (hq : q.Open) (msg : String) {rc : ChatStatus}
    (hrc : rc ≠ .ok) : Meets (stageContract T) (AuthStage fd u) (respondErr fd msg >>= fun _ => pure rc) ⟨p, q⟩ := by
  have hon : p.view.On fd := by rcases hp with rfl | rfl | rfl <;> rfl
  exact Settled.bind (respondErr_meets hon hq msg) fun _ q₁ hq₁ => ⟨fun h => absurd h hrc, fun _ => hp, hq₁⟩

theorem cmdHandleAuth_stage (hu : NameLike u) (password : Bytes) (hq : q.Open) :
    Meets (stageContract T) (AuthStage fd u) (cmdHandleAuth fd u password) ⟨.fresh fd, q⟩ := by
  unfold cmdHandleAuth
  split
  · exact authFailed (Or.inl rfl) hq _ nofun
  rename_i hne
  rw [not_or] at hne
  refine meets_op ⟨⟨fd, rfl⟩, trivial, hq⟩ ?_
  rintro (rc : ChatStatus) σ' ⟨rfl, -⟩
  show Meets _ _ (if rc ≠ .ok then _ else _) (Stage.mk (if rc = .ok then .checked fd u else .fresh fd) q)
  by_cases hverify : rc = .ok
  swap
  · rw [if_pos hverify, if_neg hverify]
    exact authFailed (Or.inl rfl) hq _ nofun
  rw [if_neg (not_not_intro hverify), if_pos hverify]
  refine meets_still rfl trivial hq fun online _ => ?_
  split
  · exact authFailed (Or.inr (Or.inl rfl)) hq _ nofun
  refine meets_still rfl trivial hq fun admin _ => ?_
  refine meets_op ⟨⟨rfl, hu⟩, ⟨rfl, rfl⟩, hq⟩ ?_
  rintro (rc : ChatStatus) σ' ⟨rfl, -⟩
  show Meets _ _ (if rc ≠ .ok then _ else _) (Stage.mk (if rc = .ok then .entered fd u else .checked fd u) q)
  by_cases hadd : rc = .ok
  swap
  · rw [if_pos hadd, if_neg hadd]
    exact authFailed (Or.inr (Or.inl rfl)) hq _ nofun
  rw [if_neg (not_not_intro hadd), if_pos hadd]
  refine Settled.bind (cmdSendResponse_meets (p := .entered fd u) rfl (welcome_reply u) (Or.inl hq)) fun rc q₁ hq₁ => ?_
  split
  · -- the WELCOME line failed: no event has been pushed
    refine meets_op ⟨⟨u, rfl⟩, ⟨fd, u, Or.inl rfl⟩, hq₁⟩ ?_
    rintro _ σ' ⟨rfl, -⟩
    exact ⟨nofun, fun _ => Or.inr (Or.inr rfl), hq₁⟩
  refine Settled.bind (cmdSendResponse_meets (p := .entered fd u) rfl (roomJoined_reply _) (Or.inl hq₁)) fun _ q₂ hq₂ => ?_
  refine Settled.bind (roomHistorySend_meets (p := .entered fd u) rfl hq₂ rfl) fun _ q₃ hq₃ => ?_
  refine Settled.bind (respondOk_meets (p := .entered fd u) rfl hq₃ _) fun _ q₄ hq₄ => ?_
  refine Settled.bind (enqueueRoomEvent_meets hu hq₄ rfl ⟨by decide, by decide⟩ nofun fun msg ht hmsg => ⟨ht, hmsg⟩)
    fun _ q₅ hq₅ => ?_
  exact ⟨fun _ => ⟨hne.1, rfl⟩, fun h => absurd rfl h, hq₅⟩

theorem close_settles (hclose : p.closes = true) (ha : allowed T (.close fd) p.view) (hp : p.onClose = .closed) (hq : q.Open) :
    Meets (stageContract T) (Settled .closed) (Sys.close fd) ⟨p, q⟩ := by
  refine ⟨⟨ha, hclose, hq⟩, ?_⟩
  rintro _ σ' ⟨rfl, -⟩
  exact ⟨hp, hq⟩

theorem decrement_ends (hq : q.Open) :
    Meets (stageContract T) (Settled .ended) (do Sys.connTrackDecrement; return ChatStatus.ok) ⟨.closed, q⟩ := by
  refine meets_op ⟨trivial, Or.inl rfl, hq⟩ ?_
  rintro _ σ' ⟨rfl, -⟩
  exact ⟨rfl, hq⟩

theorem disconnectClient_ends {username : Bytes} {authenticated : Bool}
    (h : Meets (stageContract T) (Settled .closed) (cmdDisconnectClient fd username authenticated) ⟨p, q⟩) :
    Meets (stageContract T) (Settled .ended) (disconnectClient fd username authenticated) ⟨p, q⟩ :=
  Settled.bind h fun _ _ hq => decrement_ends hq

theorem cmdDisconnectClient_present {room : Bytes} (hu : NameLike u) (hne : u ≠ []) (hq : q.Open) :
    Meets (stageContract T) (Settled .closed) (cmdDisconnectClient fd u true) ⟨.present fd u room, q⟩ := by
  unfold cmdDisconnectClient
  rw [if_pos ⟨rfl, hne⟩]
  refine meets_still rfl trivial hq ?_
  rintro ⟨rc, room'⟩ hroom
  obtain ⟨hroom, hlike⟩ := hroom room rfl
  obtain ⟨rfl, rfl⟩ := Prod.mk.inj hroom
  show Meets _ _ (enqueueRoomEvent .leave u room' >>= fun _ => _) _
  refine Settled.bind (enqueueRoomEvent_meets hu hq rfl hlike nofun fun msg ht hmsg => Or.inr ⟨ht, hmsg⟩) fun _ q₁ hq₁ => ?_
  refine meets_op ⟨⟨u, rfl⟩, ⟨fd, u, Or.inr ⟨room', rfl⟩⟩, hq₁⟩ ?_
  rintro _ σ' ⟨rfl, -⟩
  refine meets_still (p := .removed fd u) rfl trivial hq₁ fun _ _ => ?_
  exact close_settles rfl rfl rfl hq₁

theorem cmdDisconnectClient_absent (hp : p = .fresh fd ∨ ∃ u, p = .checked fd u ∨ p = .removed fd u) (hq : q.Open)
    (username : Bytes) : Meets (stageContract T) (Settled .closed) (cmdDisconnectClient fd username false) ⟨p, q⟩ := by
  rcases hp with rfl | ⟨u, rfl | rfl⟩
  · exact close_settles rfl rfl rfl hq
  · exact close_settles rfl rfl rfl hq
  · exact close_settles rfl rfl rfl hq

end

end ChatServer

import ChatServer.ProtocolSound
import ChatServer.SessionsSound

/-!
# The handlers keep the contract

Each command, run under what its thread knows, issues only allowed actions,
whatever the answers are. A command of a logged-in session leaves the session
as it is; `AUTH` logs it in or fails before; disconnecting closes it without a
node left behind.
-/

namespace ChatServer

open CStr Prog

def View.On (fd : Int) : View → Prop
  | .fresh fd' => fd' = fd
  | .checked fd' _ => fd' = fd
  | .online fd' _ => fd' = fd
  | _ => False

def Steady (v v' : View) : Prop := v' = v

theorem steady_refl (v : View) : Steady v v := rfl

def Leaving (v v' : View) : Prop := v'.IsOnline → v.IsOnline

theorem leaving_refl (v : View) : Leaving v v := fun h => h

def Anyway (_ _ : View) : Prop := True

/-! ## Lines that are not private messages -/

theorem word_isPm {word rest : Bytes} (hl : 3 ≤ word.length) (hw : word.take 3 ≠ lit "PM ") :
    ¬ IsPm (buildLine maxLineLen (word ++ rest)).2 := by
  unfold IsPm
  show ¬ ((word ++ rest).take 2047).take 3 = lit "PM "
  rwa [List.take_take, Nat.min_eq_left (by decide), List.take_append_of_le_length hl]

theorem err_isPm (msg : Bytes) : ¬ IsPm (protocolBuildServerErr maxLineLen msg).2 := by
  simp only [protocolBuildServerErr, List.append_assoc]
  exact word_isPm (by decide) (by decide)

theorem ok_isPm (msg : Bytes) : ¬ IsPm (protocolBuildServerOk maxLineLen msg).2 := by
  simp only [protocolBuildServerOk, List.append_assoc]
  exact word_isPm (by decide) (by decide)

theorem welcome_isPm (username : Bytes) : ¬ IsPm (protocolBuildServerWelcome maxLineLen username).2 := by
  simp only [protocolBuildServerWelcome, List.append_assoc]
  exact word_isPm (by decide) (by decide)

theorem roomJoined_isPm (room : Bytes) : ¬ IsPm (protocolBuildServerRoomJoined maxLineLen room).2 := by
  simp only [protocolBuildServerRoomJoined, List.append_assoc]
  exact word_isPm (by decide) (by decide)

theorem history_isPm (payload : Bytes) : ¬ IsPm (protocolBuildServerHistory maxLineLen payload).2 := by
  simp only [protocolBuildServerHistory, List.append_assoc]
  exact word_isPm (by decide) (by decide)

theorem kicked_isPm (reason : Bytes) : ¬ IsPm (protocolBuildServerKicked maxLineLen reason).2 := by
  simp only [protocolBuildServerKicked, List.append_assoc]
  exact word_isPm (by decide) (by decide)

theorem list_isPm (users : Bytes) : ¬ IsPm (protocolBuildServerList maxLineLen users).2 := by
  simp only [protocolBuildServerList, List.append_assoc]
  exact word_isPm (by decide) (by decide)

theorem userJoin_isPm (username room : Bytes) : ¬ IsPm (protocolBuildServerUserJoin maxLineLen username room).2 := by
  simp only [protocolBuildServerUserJoin, List.append_assoc]
  exact word_isPm (by decide) (by decide)

theorem userLeft_isPm (username room : Bytes) : ¬ IsPm (protocolBuildServerUserLeft maxLineLen username room).2 := by
  simp only [protocolBuildServerUserLeft, List.append_assoc]
  exact word_isPm (by decide) (by decide)

theorem broadcast_isPm (username timestamp room message : Bytes) :
    ¬ IsPm (protocolBuildServerBroadcast maxLineLen username timestamp room message).2 := by
  simp only [protocolBuildServerBroadcast, List.append_assoc]
  exact word_isPm (by decide) (by decide)

section
variable {T : Prop} {keep : View → View → Prop} {v : View} {α β : Type}

/-- A program after which the thread knows what it knew. -/
def Keeps (T : Prop) (keep : View → View → Prop) (p : Cmd α) (v : View) : Prop :=
  Meets (contract T keep) (fun _ v' => v' = v) p v

theorem Keeps.bind {p : Cmd α} {f : α → Cmd β} {Q : β → View → Prop} (hp : Keeps T keep p v)
    (hf : ∀ x, Meets (contract T keep) Q (f x) v) : Meets (contract T keep) Q (p >>= f) v := by
  apply Meets.bind
  refine Meets.mono ?_ hp
  rintro x v' rfl
  exact hf x

theorem meets_act {a : Act} {k : a.Ret → Cmd β} {Q : β → View → Prop} (hk : keep v v) (ha : allowed T a v)
    (hadv : ∀ r, advance a v r = v) (h : ∀ r, tells T a v r → Meets (contract T keep) Q (k r) v) :
    Meets (contract T keep) Q (Prog.op a >>= k) v := by
  refine meets_op ⟨ha, fun r => ?_⟩ ?_
  · rw [hadv]; exact hk
  · rintro r v' ⟨rfl, ht⟩
    rw [hadv]; exact h r ht

/-! ## Sending -/

theorem allowed_send {fd : Int} (hon : v.On fd) {buf : Bytes} (hpm : ¬ IsPm buf) (sent : Nat) :
    allowed T (.send fd buf sent) v := by
  cases v with
  | fresh | checked => exact ⟨hon.symm, hpm⟩
  | online => exact fun h => absurd h hpm
  | _ => cases hon

variable (hk : keep v v)
include hk

theorem sendLoop_keeps {fd : Int} {buf : Bytes} (ha : ∀ sent, allowed T (.send fd buf sent) v) :
    ∀ fuel sent, Keeps T keep (sendLoop fd buf fuel sent) v
  | 0, sent => rfl
  | fuel + 1, sent => by
    unfold sendLoop
    split
    · rfl
    · refine meets_act hk (ha sent) (fun _ => by cases v <;> rfl) fun r _ => ?_
      split
      · rfl
      · rfl
      · exact sendLoop_keeps ha fuel _

theorem sendAll_keeps {fd : Int} {buf : Bytes} (ha : ∀ sent, allowed T (.send fd buf sent) v) :
    Keeps T keep (sendAll fd buf) v := sendLoop_keeps hk ha buf.length 0

variable {fd : Int} (hon : v.On fd)
include hon

theorem cmdSendResponse_keeps {line : Bytes} (hpm : ¬ IsPm line) : Keeps T keep (cmdSendResponse fd line) v :=
  sendAll_keeps hk (allowed_send hon hpm)

theorem respondErr_keeps (msg : String) : Keeps T keep (respondErr fd msg) v :=
  cmdSendResponse_keeps hk hon (err_isPm _)

theorem respondOk_keeps (msg : String) : Keeps T keep (respondOk fd msg) v :=
  cmdSendResponse_keeps hk hon (ok_isPm _)

theorem roomHistorySend_keeps (room : Bytes) :
    Keeps T keep (roomHistorySendToClient room fd cmdSendResponse) v := by
  unfold roomHistorySendToClient
  refine meets_act hk (by cases v <;> trivial) (fun _ => by cases v <;> rfl) ?_
  rintro ⟨rc, payload⟩ _
  show Meets _ _ (if rc ≠ .ok then pure ChatStatus.err else _) v
  split
  · rfl
  · show Meets _ _ (if (protocolBuildServerHistory maxLineLen payload).1 ≠ .ok then pure ChatStatus.err else
      cmdSendResponse fd (protocolBuildServerHistory maxLineLen payload).2) v
    split
    · rfl
    · exact cmdSendResponse_keeps hk hon (history_isPm _)

end

/-! ## The commands of a session that is logged in -/

section
variable {T : Prop} {keep : View → View → Prop} {fd : Int} {u : Bytes} (hu : NameLike u)

theorem roomEvent_sender (hu : NameLike u) {evt : MqMessage} (hevt : evt.username[maxUsernameLen - 1]? = some 0)
    (type : MqEventType) (room : Bytes) (now : Int) : cstr (roomEvent evt type u room now).username = u := by
  have hl := hu.2
  simp only [maxUsernameLen] at hl
  have hc := cstr_of_nulFree hu.1
  have h : cstr (strncpy evt.username u 31) = cstr u := cstr_strncpy_of_le (by rw [hc]; omega)
    (Or.inr ((cstr_drop_nil_iff evt.username_length).mpr hevt))
  rw [hc] at h
  exact h

theorem chatEvent_sender (hu : NameLike u) {evt : MqMessage} (hevt : evt.username[maxUsernameLen - 1]? = some 0)
    (room content : Bytes) (now : Int) : cstr (chatEvent evt u room content now).username = u :=
  roomEvent_sender hu hevt .chat room now

/-- A private message fits its buffer, and names its sender. -/
theorem pm_line {P : Platform} (hu : NameLike u) {content : Bytes} (hc : content.length < maxMsgLen) (now : Int) :
    PmFrom u (protocolBuildServerPm maxLineLen u (formatTimestamp P.localtimeR now) content).2 := by
  have hl := hu.2
  have ht := formatTimestamp_length P.localtimeR now
  simp only [maxUsernameLen, maxMsgLen, timestampLen] at hl hc ht
  refine ⟨formatTimestamp P.localtimeR now, content, ?_⟩
  rw [protocolBuildServerPm, buildLine_fits]
  simp only [List.length_append, show (lit "PM ").length = 3 by decide, show (lit " ").length = 1 by decide,
    show (lit "\n").length = 1 by decide, maxLineLen]
  omega

variable (hk : keep (.online fd u) (.online fd u))
include hu hk

theorem enqueueRoomEvent_keeps (type : MqEventType) (room : Bytes) :
    Keeps T keep (enqueueRoomEvent type u room) (.online fd u) := by
  unfold enqueueRoomEvent
  refine meets_act hk trivial (fun _ => rfl) fun evt hevt => ?_
  refine meets_act hk trivial (fun _ => rfl) fun now _ => ?_
  refine ⟨⟨fun hT => roomEvent_sender hu (hevt hT) type room now, fun _ => hk⟩, ?_⟩
  rintro rc v' ⟨rfl, -⟩
  rfl

theorem cmdHandleJoinRoom_keeps (room : Bytes) : Keeps T keep (cmdHandleJoinRoom fd room) (.online fd u) := by
  have hon : (View.online fd u).On fd := rfl
  unfold cmdHandleJoinRoom
  split
  · exact respondErr_keeps hk hon _
  refine meets_act hk trivial (fun _ => rfl) ?_
  rintro ⟨rc, username⟩ hr
  obtain ⟨rfl, rfl⟩ := Prod.mk.inj (hr rfl)
  refine meets_act hk trivial (fun _ => rfl) ?_
  rintro ⟨rc, oldRoom⟩ -
  show Meets _ _ (if rc ≠ .ok then pure ChatStatus.err else _) _
  split
  · rfl
  split
  · exact respondErr_keeps hk hon _
  refine (enqueueRoomEvent_keeps hu hk .leave oldRoom).bind fun _ => ?_
  refine meets_act hk ⟨_, rfl⟩ (fun _ => rfl) fun _ _ => ?_
  refine (cmdSendResponse_keeps hk hon (roomJoined_isPm room)).bind fun _ => ?_
  refine (roomHistorySend_keeps hk hon room).bind fun _ => ?_
  refine (enqueueRoomEvent_keeps hu hk .join room).bind fun _ => ?_
  exact respondOk_keeps hk hon _

theorem cmdHandleMsg_keeps (content : Bytes) : Keeps T keep (cmdHandleMsg fd content) (.online fd u) := by
  have hon : (View.online fd u).On fd := rfl
  unfold cmdHandleMsg
  refine meets_act hk trivial (fun _ => rfl) ?_
  rintro ⟨rc, username⟩ hr
  obtain ⟨rfl, rfl⟩ := Prod.mk.inj (hr rfl)
  refine meets_act hk trivial (fun _ => rfl) ?_
  rintro ⟨rc, room⟩ -
  show Meets _ _ (if rc ≠ .ok then pure ChatStatus.err else _) _
  split
  · rfl
  split
  · exact respondErr_keeps hk hon _
  refine meets_act hk trivial (fun _ => rfl) fun now _ => ?_
  refine meets_act hk ⟨hu, _, rfl⟩ (fun _ => rfl) fun _ _ => ?_
  refine meets_act hk trivial (fun _ => rfl) fun evt hevt => ?_
  refine meets_act hk (fun hT => chatEvent_sender hu (hevt hT) room content now) (fun _ => rfl) fun rc _ => ?_
  split
  · exact respondErr_keeps hk hon _
  · exact respondOk_keeps hk hon _

theorem cmdHandlePm_keeps (P : Platform) {target content : Bytes} (ht : NameLike target)
    (hc : content.length < maxMsgLen) : Keeps T keep (cmdHandlePm P fd target content) (.online fd u) := by
  have hon : (View.online fd u).On fd := rfl
  unfold cmdHandlePm
  refine meets_act hk trivial (fun _ => rfl) ?_
  rintro ⟨rc, sender⟩ hr
  obtain ⟨rfl, rfl⟩ := Prod.mk.inj (hr rfl)
  show Meets _ _ (if target = [] ∨ content = [] then _ else _) _
  split
  · exact respondErr_keeps hk hon _
  split
  · exact respondErr_keeps hk hon _
  refine meets_act hk ⟨⟨_, _, rfl⟩, ht⟩ (fun _ => rfl) fun targetFd _ => ?_
  split
  · exact respondErr_keeps hk hon _
  refine meets_act hk trivial (fun _ => rfl) fun now _ => ?_
  refine Keeps.bind (sendAll_keeps hk fun _ _ => pm_line hu hc now) fun rc => ?_
  split
  · exact respondErr_keeps hk hon _
  · exact respondOk_keeps hk hon _

theorem cmdHandleList_keeps : Keeps T keep (cmdHandleList fd) (.online fd u) := by
  have hon : (View.online fd u).On fd := rfl
  unfold cmdHandleList
  refine meets_act hk trivial (fun _ => rfl) ?_
  rintro ⟨rc, username⟩ hr
  obtain ⟨rfl, rfl⟩ := Prod.mk.inj (hr rfl)
  refine meets_act hk trivial (fun _ => rfl) ?_
  rintro ⟨rc, users⟩ -
  show Meets _ _ (if rc ≠ .ok then respondErr fd "failed to build user list" else _) _
  split
  · exact respondErr_keeps hk hon _
  · exact cmdSendResponse_keeps hk hon (list_isPm users)

theorem cmdHandleHistory_keeps : Keeps T keep (cmdHandleHistory fd) (.online fd u) := by
  have hon : (View.online fd u).On fd := rfl
  unfold cmdHandleHistory
  refine meets_act hk trivial (fun _ => rfl) ?_
  rintro ⟨rc, username⟩ hr
  obtain ⟨rfl, rfl⟩ := Prod.mk.inj (hr rfl)
  refine meets_act hk trivial (fun _ => rfl) ?_
  rintro ⟨rc, room⟩ -
  show Meets _ _ (if rc ≠ .ok then pure ChatStatus.err else _) _
  split
  · rfl
  refine (roomHistorySend_keeps hk hon room).bind fun rc => ?_
  split
  · exact respondErr_keeps hk hon _
  · exact respondOk_keeps hk hon _

omit hu in
theorem cmdHandleKick_keeps {target : Bytes} (ht : NameLike target) :
    Keeps T keep (cmdHandleKick fd target) (.online fd u) := by
  have hon : (View.online fd u).On fd := rfl
  unfold cmdHandleKick
  refine meets_act hk trivial (fun _ => rfl) fun isAdmin _ => ?_
  split
  · exact respondErr_keeps hk hon _
  split
  · exact respondErr_keeps hk hon _
  refine meets_act hk trivial (fun _ => rfl) ?_
  rintro ⟨rc, admin⟩ -
  show Meets _ _ (if rc = .ok ∧ admin = target then _ else _) _
  split
  · exact respondErr_keeps hk hon _
  refine meets_act hk ⟨⟨_, _, rfl⟩, ht⟩ (fun _ => rfl) fun targetFd _ => ?_
  split
  · exact respondErr_keeps hk hon _
  refine Keeps.bind (sendAll_keeps hk fun _ h => absurd h (kicked_isPm _)) fun _ => ?_
  refine meets_act hk ⟨_, _, rfl⟩ (fun _ => rfl) fun _ _ => ?_
  exact respondOk_keeps hk hon _

end

/-! ## Logging in and leaving -/

/-- How `AUTH` ends: logged in under the name, or failed without a node. -/
def AuthEnds (fd : Int) (u : Bytes) (rc : ChatStatus) (v : View) : Prop :=
  (rc = .ok ∧ u ≠ [] ∧ v = .online fd u) ∨ (rc ≠ .ok ∧ (v = .fresh fd ∨ v = .checked fd u))

theorem authFails {T : Prop} {fd : Int} {u : Bytes} {v : View} (hv : v = .fresh fd ∨ v = .checked fd u) (msg : String)
    {rc : ChatStatus} (hrc : rc ≠ .ok) :
    Meets (contract T Anyway) (AuthEnds fd u) (respondErr fd msg >>= fun _ => pure rc) v := by
  have hon : v.On fd := by rcases hv with rfl | rfl <;> rfl
  exact Keeps.bind (respondErr_keeps trivial hon msg) fun _ => Or.inr ⟨hrc, hv⟩

theorem cmdHandleAuth_meets {T : Prop} {fd : Int} {u : Bytes} (hu : NameLike u) (password : Bytes) :
    Meets (contract T Anyway) (AuthEnds fd u) (cmdHandleAuth fd u password) (.fresh fd) := by
  have hon : (View.online fd u).On fd := rfl
  unfold cmdHandleAuth
  split
  · exact authFails (Or.inl rfl) _ nofun
  rename_i hne
  rw [not_or] at hne
  refine meets_op ⟨⟨fd, rfl⟩, fun _ => trivial⟩ ?_
  rintro (rc : ChatStatus) v' ⟨rfl, -⟩
  show Meets _ _ (if rc ≠ .ok then _ else _) (if rc = .ok then _ else _)
  by_cases hverify : rc = .ok
  swap
  · rw [if_pos hverify, if_neg hverify]
    exact authFails (Or.inl rfl) _ nofun
  rw [if_neg (not_not_intro hverify), if_pos hverify]
  refine meets_act trivial trivial (fun _ => rfl) fun online _ => ?_
  split
  · exact authFails (Or.inr rfl) _ nofun
  refine meets_act trivial trivial (fun _ => rfl) fun admin _ => ?_
  refine meets_op ⟨⟨rfl, hu⟩, fun _ => trivial⟩ ?_
  rintro (rc : ChatStatus) v' ⟨rfl, -⟩
  show Meets _ _ (if rc ≠ .ok then _ else _) (if rc = .ok then _ else _)
  by_cases hadd : rc = .ok
  swap
  · rw [if_pos hadd, if_neg hadd]
    exact authFails (Or.inr rfl) _ nofun
  rw [if_neg (not_not_intro hadd), if_pos hadd]
  refine Keeps.bind (cmdSendResponse_keeps trivial hon (welcome_isPm u)) fun rc => ?_
  split
  · -- the WELCOME line failed: the node is taken out again
    refine meets_op ⟨⟨u, rfl⟩, fun _ => trivial⟩ ?_
    rintro _ v' ⟨rfl, -⟩
    exact Or.inr ⟨nofun, Or.inr rfl⟩
  refine Keeps.bind (cmdSendResponse_keeps trivial hon (roomJoined_isPm _)) fun _ => ?_
  refine Keeps.bind (roomHistorySend_keeps trivial hon _) fun _ => ?_
  refine Keeps.bind (respondOk_keeps trivial hon _) fun _ => ?_
  refine Keeps.bind (enqueueRoomEvent_keeps hu trivial .join _) fun _ => ?_
  exact Or.inl ⟨rfl, hne.1, rfl⟩

section
variable {T : Prop} {fd : Int} {u : Bytes}

theorem close_meets {v : View} (ha : allowed T (.close fd) v) (hv : ∀ r, advance (.close fd) v r = .gone) :
    Meets (contract T Leaving) (fun _ v' => v' = .gone) (Sys.close fd) v := by
  refine ⟨⟨ha, fun r => ?_⟩, ?_⟩
  · rw [hv]
    rintro ⟨_, _, h⟩
    cases h
  · rintro r v' ⟨rfl, -⟩
    exact hv r

theorem removeClose_meets :
    Meets (contract T Leaving) (fun _ v' => v' = .gone)
      (do let _ ← Sys.registryRemove fd; let _ ← Sys.registryCount; Sys.close fd) (.online fd u) := by
  refine meets_op ⟨⟨u, rfl⟩, fun _ _ => ⟨fd, u, rfl⟩⟩ ?_
  rintro _ v' ⟨rfl, -⟩
  refine meets_act (v := .checked fd u) (leaving_refl _) trivial (fun _ => rfl) fun _ _ => ?_
  exact close_meets rfl fun _ => rfl

theorem cmdDisconnectClient_online (hu : NameLike u) (hne : u ≠ []) :
    Meets (contract T Leaving) (fun _ v' => v' = .gone) (cmdDisconnectClient fd u true) (.online fd u) := by
  unfold cmdDisconnectClient
  rw [if_pos ⟨rfl, hne⟩]
  refine meets_act (leaving_refl _) trivial (fun _ => rfl) ?_
  rintro ⟨rc, room⟩ -
  show Meets _ _ (if rc = .ok then enqueueRoomEvent .leave u room >>= fun _ => _ else _) _
  split
  · exact Keeps.bind (enqueueRoomEvent_keeps hu (leaving_refl _) .leave room) fun _ => removeClose_meets
  · exact removeClose_meets

theorem cmdDisconnectClient_offline {v : View} (hv : v = .fresh fd ∨ ∃ u, v = .checked fd u) (username : Bytes) :
    Meets (contract T Leaving) (fun _ v' => v' = .gone) (cmdDisconnectClient fd username false) v := by
  rcases hv with rfl | ⟨u, rfl⟩
  · exact close_meets rfl fun _ => rfl
  · exact close_meets rfl fun _ => rfl

theorem disconnectClient_meets {username : Bytes} {authenticated : Bool} {v : View}
    (h : Meets (contract T Leaving) (fun _ v' => v' = .gone) (cmdDisconnectClient fd username authenticated) v) :
    Meets (contract T Leaving) (fun _ v' => v' = .gone) (disconnectClient fd username authenticated) v := by
  apply Meets.bind
  refine Meets.mono ?_ h
  rintro _ v' rfl
  exact meets_act (leaving_refl _) trivial (fun _ => rfl) fun _ _ => rfl

end

end ChatServer

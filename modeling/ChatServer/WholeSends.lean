import ChatServer.Accounts
import ChatServer.CutLines
import ChatServer.Feed
import ChatServer.Replies
import ChatServer.RoomsApart
import ChatServer.Routine

/-!
# Every send is one line

No line that a handler reads has a newline in it, so no name, room or text that
the server stores has one, and every buffer that a thread sends is a line of
text with its newline at the end.
-/

namespace ChatServer

open CStr Interleave Prog

/-! ## Lines -/

/-- A text that the receiver's buffer holds, with its newline. -/
def OneLine (buf : Bytes) : Prop := ∃ w, buf = w ++ [lf] ∧ WholeLine w

section
variable {r : ServerLine}

theorem build_oneLine (hp : Plain r.rest) (hok : (r.build maxLineLen).1 = .ok) : OneLine (r.build maxLineLen).2 := by
  have hj := (ServerLine.word_plain r).1.join hp
  rw [ServerLine.build_eq] at hok ⊢
  by_cases hlen : (r.word ++ sp :: r.rest ++ [lf]).length < maxLineLen
  · rw [buildLine_fits hlen]
    refine ⟨_, rfl, hj.noNul, hj.noLf, ?_⟩
    rw [List.length_append, List.length_singleton] at hlen
    exact hlen
  · rw [buildLine_overflows (Nat.not_lt.mp hlen)] at hok
    cases hok

theorem build_oneLine_of_short (hp : Plain r.rest) (hlen : r.rest.length < 2000) : OneLine (r.build maxLineLen).2 := by
  refine build_oneLine hp ?_
  obtain ⟨-, -, hw⟩ := ServerLine.word_plain r
  rw [ServerLine.build_eq, buildLine_fits]
  rw [List.length_append, List.length_append, List.length_cons, List.length_singleton, maxLineLen]
  omega

end

/-- A message of the server's own. -/
abbrev ClearText (msg : String) : Prop := 0 ∉ lit msg ∧ lf ∉ lit msg ∧ (lit msg).length < 2000

theorem ClearText.plain {msg : String} (h : ClearText msg) : Plain (lit msg) := ⟨h.1, h.2.1⟩

theorem plain_formatTimestamp (P : Platform) (t : Int) : Plain (formatTimestamp P.localtimeR t) :=
  ⟨not_mem_formatTimestamp _ _ (by decide), not_mem_formatTimestamp _ _ (by decide)⟩

theorem plain_cstr {b : Bytes} (h : lf ∉ cstr b) : Plain (cstr b) := ⟨nul_not_mem_cstr b, h⟩

/-! ## Copies -/

/-- A copy brings nothing that was neither in the string nor behind the copied bytes. -/
theorem not_mem_cstr_strncpy {dst src : Bytes} {n : Nat} (hd : cstr (dst.drop n) = []) {c : UInt8} (hc : c ∉ src) :
    c ∉ cstr (strncpy dst src n) := by
  have hs : c ∉ cstr src := fun h => hc (List.IsPrefix.subset (List.takeWhile_prefix _) h)
  rw [cstr_strncpy, hd, List.append_nil]
  split
  · exact hs
  · exact not_mem_take hs n

theorem not_mem_cstr_copy {n : Nat} (field : Terminated n) {src : Bytes} {c : UInt8} (hc : c ∉ src) : c ∉ cstr (field.copy src).bytes :=
  not_mem_cstr_strncpy ((cstr_drop_nil_iff field.length_eq).mpr field.last_eq) hc

/-! ## What is written and what is read -/

/-- An event whose fields have no newline; the one that ends the broadcaster is not read. -/
structure MqMessage.Unbroken (msg : MqMessage) : Prop where
  username : lf ∉ cstr msg.username
  room : lf ∉ cstr msg.room
  content : lf ∉ cstr msg.content

def Writes : Act → Prop
  | .send _ buf _ => OneLine buf
  | .registryAdd _ username room _ => lf ∉ username ∧ lf ∉ room
  | .registrySetRoom _ room => lf ∉ room
  | .roomHistoryAdd _ username content _ => lf ∉ username ∧ lf ∉ content
  | .mqPush msg => msg.type ≠ .shutdown → msg.Unbroken
  | _ => True

def Reads : (a : Act) → a.Ret → Prop
  | .recvLine _, (r : Option Bytes) => ∀ line, r = some line → Plain line
  | .registryGetUsername _, r => Plain r.2 ∧ r.2.length < maxUsernameLen
  | .registryGetRoom _, r => Plain r.2 ∧ r.2.length < maxRoomNameLen
  | .registryBuildUserList buflen, r => Plain r.2 ∧ r.2.length ≤ buflen
  | .roomHistoryFormat .., r => Plain r.2
  | .stackEvent, evt => Stage.Ending evt
  | .mqPop, r => ∀ msg, r.2 = some msg → msg.type ≠ .shutdown → msg.Unbroken
  | _, _ => True

def lineContract : Contract Act.Ret Unit where
  pre a _ := Writes a
  post a _ r _ := Reads a r

/-- The program sends one line at a time and stores no newline. -/
abbrev Lines {α : Type} (p : Cmd α) : Prop := Meets lineContract (fun _ _ => True) p ()

section
variable {α : Type} {p : Cmd α}

theorem lines_of_only (h : Only Writes p) : Lines p := h.meets fun _ _ ha => ha

theorem lines_op {a : Act} {k : a.Ret → Cmd α} (ha : Writes a) (hk : ∀ r, Reads a r → Lines (k r)) : Lines (op a >>= k) :=
  ⟨ha, fun r _ hr => hk r hr⟩

theorem Lines.bind {β : Type} {f : α → Cmd β} (hp : Lines p) (hf : ∀ x, Lines (f x)) : Lines (p >>= f) :=
  Meets.bind (Meets.mono (fun x _ _ => hf x) hp)

end

section
variable {fd : Int}

theorem send_lines {line : Bytes} (h : OneLine line) : Lines (cmdSendResponse fd line) :=
  lines_of_only (sendAll_only fun _ => h)

theorem err_oneLine {msg : String} (h : ClearText msg) : OneLine (protocolBuildServerErr maxLineLen (lit msg)).2 :=
  build_oneLine_of_short (r := .err (lit msg)) h.plain h.2.2

theorem respondErr_lines {msg : String} (h : ClearText msg) : Lines (respondErr fd msg) := send_lines (err_oneLine h)

theorem respondOk_lines {msg : String} (h : ClearText msg) : Lines (respondOk fd msg) :=
  send_lines (build_oneLine_of_short (r := .ok (lit msg)) h.plain h.2.2)

theorem history_lines (room : Bytes) : Lines (roomHistorySendToClient room fd cmdSendResponse) := by
  unfold roomHistorySendToClient
  refine lines_op trivial ?_
  rintro ⟨rc, payload⟩ hpayload
  show Lines (if rc ≠ .ok then pure ChatStatus.err else if (protocolBuildServerHistory maxLineLen payload).1 ≠ .ok then
    pure ChatStatus.err else cmdSendResponse fd (protocolBuildServerHistory maxLineLen payload).2)
  split
  · trivial
  split
  · trivial
  · rename_i hok
    exact send_lines (build_oneLine (r := .history payload) hpayload (Classical.not_not.mp hok))

theorem roomEvent_unbroken {evt : MqMessage} (he : Stage.Ending evt) {username room : Bytes} (hu : lf ∉ username) (hr : lf ∉ room)
    (type : MqEventType) (now : Int) : (roomEvent evt type username room now).Unbroken where
  username := not_mem_cstr_strncpy ((cstr_drop_nil_iff evt.username_length).mpr he.username) hu
  room := not_mem_cstr_strncpy ((cstr_drop_nil_iff evt.room_length).mpr he.room) hr
  content := by
    have hlen := evt.content_length
    have hnil : cstr (roomEvent evt type username room now).content = [] := by
      rw [roomEvent, cstr_setNul (by rw [hlen]; decide), List.take_zero]
    rw [hnil]
    exact List.not_mem_nil

theorem chatEvent_unbroken {evt : MqMessage} (he : Stage.Ending evt) {username room content : Bytes} (hu : lf ∉ username)
    (hr : lf ∉ room) (hc : lf ∉ content) (now : Int) : (chatEvent evt username room content now).Unbroken where
  username := not_mem_cstr_strncpy ((cstr_drop_nil_iff evt.username_length).mpr he.username) hu
  room := not_mem_cstr_strncpy ((cstr_drop_nil_iff evt.room_length).mpr he.room) hr
  content := not_mem_cstr_strncpy ((cstr_drop_nil_iff evt.content_length).mpr he.content) hc

theorem event_lines (type : MqEventType) {username room : Bytes} (hu : lf ∉ username) (hr : lf ∉ room) :
    Lines (enqueueRoomEvent type username room) := by
  unfold enqueueRoomEvent
  refine lines_op trivial fun evt he => lines_op trivial fun now _ => ?_
  exact ⟨fun _ => roomEvent_unbroken he hu hr type now, fun _ _ _ => trivial⟩

/-! ## Commands -/

theorem cmdHandleAuth_lines {username : Bytes} (hu : Plain username) (hlen : username.length < maxUsernameLen) (password : Bytes) :
    Lines (cmdHandleAuth fd username password) := by
  have hrefuse : ∀ {msg : String} {rc : ChatStatus}, ClearText msg → Lines (respondErr fd msg >>= fun _ => pure rc) :=
    fun hmsg => Lines.bind (respondErr_lines hmsg) fun _ => trivial
  rw [maxUsernameLen] at hlen
  unfold cmdHandleAuth
  split
  · exact hrefuse (by decide)
  refine lines_op trivial fun rc _ => ?_
  split
  · exact hrefuse (by decide)
  refine lines_op trivial fun online _ => ?_
  split
  · exact hrefuse (by decide)
  refine lines_op trivial fun admin _ => lines_op ⟨hu.noLf, by decide⟩ fun rc _ => ?_
  split
  · exact hrefuse (by decide)
  refine Lines.bind (send_lines (build_oneLine_of_short (r := .welcome username) hu (by simp only [ServerLine.rest]; omega))) fun rc => ?_
  split
  · exact lines_op trivial fun _ _ => trivial
  refine Lines.bind (send_lines (build_oneLine_of_short (r := .roomJoined defaultRoom) ⟨by decide, by decide⟩ (by decide))) fun _ => ?_
  refine Lines.bind (history_lines _) fun _ => Lines.bind (respondOk_lines (by decide)) fun _ => ?_
  exact Lines.bind (event_lines _ hu.noLf (by decide)) fun _ => trivial

theorem cmdHandleJoinRoom_lines {room : Bytes} (hr : Plain room) (hlen : room.length < maxRoomNameLen) :
    Lines (cmdHandleJoinRoom fd room) := by
  rw [maxRoomNameLen] at hlen
  unfold cmdHandleJoinRoom
  split
  · exact respondErr_lines (by decide)
  refine lines_op trivial ?_
  rintro ⟨rc, username⟩ ⟨hu, -⟩
  show Lines (if rc ≠ .ok then _ else _)
  split
  · exact respondErr_lines (by decide)
  refine lines_op trivial ?_
  rintro ⟨rc, oldRoom⟩ ⟨hold, -⟩
  show Lines (if rc ≠ .ok then _ else _)
  split
  · trivial
  split
  · exact respondErr_lines (by decide)
  refine Lines.bind (event_lines _ hu.noLf hold.noLf) fun _ => lines_op hr.noLf fun _ _ => ?_
  refine Lines.bind (send_lines (build_oneLine_of_short (r := .roomJoined room) hr (by simp only [ServerLine.rest]; omega))) fun _ => ?_
  refine Lines.bind (history_lines _) fun _ => Lines.bind (event_lines _ hu.noLf hr.noLf) fun _ => ?_
  exact respondOk_lines (by decide)

theorem cmdHandleMsg_lines {content : Bytes} (hc : lf ∉ content) : Lines (cmdHandleMsg fd content) := by
  unfold cmdHandleMsg
  refine lines_op trivial ?_
  rintro ⟨rc, username⟩ ⟨hu, -⟩
  show Lines (if rc ≠ .ok then _ else _)
  split
  · exact respondErr_lines (by decide)
  refine lines_op trivial ?_
  rintro ⟨rc, room⟩ ⟨hr, -⟩
  show Lines (if rc ≠ .ok then _ else _)
  split
  · trivial
  split
  · exact respondErr_lines (by decide)
  refine lines_op trivial fun now _ => lines_op ⟨hu.noLf, hc⟩ fun _ _ => lines_op trivial fun evt he => ?_
  refine lines_op (fun _ => chatEvent_unbroken he hu.noLf hr.noLf hc now) fun rc _ => ?_
  split
  · exact respondErr_lines (by decide)
  · exact respondOk_lines (by decide)

theorem cmdHandlePm_lines (P : Platform) (target : Bytes) {content : Bytes} (hc : Plain content) (hlen : content.length < maxMsgLen) :
    Lines (cmdHandlePm P fd target content) := by
  unfold cmdHandlePm
  refine lines_op trivial ?_
  rintro ⟨rc, sender⟩ ⟨hs, hslen⟩
  show Lines (if rc ≠ .ok then _ else _)
  split
  · exact respondErr_lines (by decide)
  split
  · exact respondErr_lines (by decide)
  split
  · exact respondErr_lines (by decide)
  refine lines_op trivial fun (targetFd : Int) _ => ?_
  split
  · exact respondErr_lines (by decide)
  refine lines_op trivial fun now _ => ?_
  have htlen := formatTimestamp_length P.localtimeR now
  have hpm : OneLine (protocolBuildServerPm maxLineLen sender (formatTimestamp P.localtimeR now) content).2 := by
    refine build_oneLine_of_short (r := .pm sender _ content) (hs.join ((plain_formatTimestamp P now).join hc)) ?_
    simp only [maxUsernameLen, timestampLen, maxMsgLen] at hslen htlen hlen
    simp only [ServerLine.rest, List.length_append, List.length_cons]
    omega
  refine Lines.bind (send_lines hpm) fun rc => ?_
  split
  · exact respondErr_lines (by decide)
  · exact respondOk_lines (by decide)

theorem cmdHandleList_lines : Lines (cmdHandleList fd) := by
  unfold cmdHandleList
  refine lines_op trivial fun ⟨rc, username⟩ _ => ?_
  show Lines (if rc ≠ .ok then _ else _)
  split
  · exact respondErr_lines (by decide)
  refine lines_op trivial ?_
  rintro ⟨rc, users⟩ ⟨hu, hlen⟩
  show Lines (if rc ≠ .ok then _ else _)
  split
  · exact respondErr_lines (by decide)
  · simp only [maxMsgLen] at hlen
    exact send_lines (build_oneLine_of_short (r := .list users) hu (by simp only [ServerLine.rest]; omega))

theorem cmdHandleHistory_lines : Lines (cmdHandleHistory fd) := by
  unfold cmdHandleHistory
  refine lines_op trivial fun ⟨rc, username⟩ _ => ?_
  show Lines (if rc ≠ .ok then _ else _)
  split
  · exact respondErr_lines (by decide)
  refine lines_op trivial fun ⟨rc, room⟩ _ => ?_
  show Lines (if rc ≠ .ok then _ else _)
  split
  · trivial
  refine Lines.bind (history_lines room) fun rc => ?_
  split
  · exact respondErr_lines (by decide)
  · exact respondOk_lines (by decide)

theorem cmdHandleKick_lines (target : Bytes) : Lines (cmdHandleKick fd target) := by
  unfold cmdHandleKick
  refine lines_op trivial fun (isAdmin : Bool) _ => ?_
  split
  · exact respondErr_lines (by decide)
  split
  · exact respondErr_lines (by decide)
  refine lines_op trivial fun ⟨rc, admin⟩ _ => ?_
  show Lines (if rc = .ok ∧ admin = target then _ else _)
  split
  · exact respondErr_lines (by decide)
  refine lines_op trivial fun (targetFd : Int) _ => ?_
  split
  · exact respondErr_lines (by decide)
  refine Lines.bind (send_lines (build_oneLine_of_short (r := .kicked (lit "kicked by admin")) ⟨by decide, by decide⟩ (by decide))) fun _ => ?_
  exact lines_op trivial fun _ _ => respondOk_lines (by decide)

theorem disconnectClient_lines {username : Bytes} (hu : lf ∉ username) (authenticated : Bool) :
    Lines (disconnectClient fd username authenticated) := by
  have hend : Lines (Sys.close fd) := ⟨trivial, fun _ _ _ => trivial⟩
  have hrest : Lines (do let _ ← Sys.registryRemove fd; let _ ← Sys.registryCount; Sys.close fd) :=
    lines_op trivial fun _ _ => lines_op trivial fun _ _ => hend
  refine Lines.bind ?_ fun _ => lines_op trivial fun _ _ => trivial
  unfold cmdDisconnectClient
  split
  · refine lines_op trivial ?_
    rintro ⟨rc, room⟩ ⟨hr, -⟩
    show Lines (if rc = .ok then _ else _)
    split
    · exact Lines.bind (event_lines _ hu hr.noLf) fun _ => hrest
    · exact hrest
  · exact hend

end

/-! ## Threads -/

theorem request_noLf {cmd : ClientCmd} {a b line : Bytes} (h : Request cmd a b line) (hl : lf ∉ line) : lf ∉ a ∧ lf ∉ b := by
  have behind : ∀ {word s : Bytes}, lf ∉ word ++ sp :: s → lf ∉ s := fun hl hs => hl (by simp [hs])
  have between : ∀ {word s t : Bytes}, lf ∉ word ++ sp :: (s ++ sp :: t) → lf ∉ s ∧ lf ∉ t := fun hl =>
    ⟨fun hs => behind hl (List.mem_append_left _ hs), behind (behind hl)⟩
  cases h with
  | auth | pm => exact between hl
  | joinRoom | kick => exact ⟨behind hl, List.not_mem_nil⟩
  | msg => exact ⟨List.not_mem_nil, behind hl⟩
  | list | history | quit => exact ⟨List.not_mem_nil, List.not_mem_nil⟩

namespace Handler

def Lined (h : Handler) : Prop :=
  lf ∉ h.username ∧
  match h.point with
  | .busy (.auth u) p => lf ∉ u ∧ Lines p
  | .busy _ p => Lines p
  | _ => True

section
variable {h : Handler}

theorem leave_lined (hu : lf ∉ h.username) : h.leave.Lined := ⟨hu, disconnectClient_lines hu _⟩

theorem enter_lined (hu : lf ∉ h.username) {cont : Cont} (hc : ∀ u, cont = .auth u → lf ∉ u) : ∀ {p : Cmd ChatStatus},
    Lines p → (h.enter cont p).Lined
  | .act _ _, hp => by
    cases cont with
    | auth u => exact ⟨hu, hc u rfl, hp⟩
    | command | leave => exact ⟨hu, hp⟩
  | .ret rc, _ => by
    cases cont with
    | leave => exact ⟨hu, trivial⟩
    | command =>
      show (if rc ≠ .ok then h.leave else { h with point := .top }).Lined
      split
      · exact leave_lined hu
      · exact ⟨hu, trivial⟩
    | auth u =>
      show (if rc ≠ .ok then h.leave else _).Lined
      split
      · exact leave_lined hu
      · refine ⟨?_, trivial⟩
        have hcopy : cstr (copyField (zeros maxUsernameLen) u maxUsernameLen) = (cstr u).take 31 :=
          cstr_copyField (n := 31) (zeros_length _) u
        show lf ∉ cstr (copyField (zeros maxUsernameLen) u maxUsernameLen)
        rw [hcopy]
        exact not_mem_take (fun hm => hc u rfl (List.IsPrefix.subset (List.takeWhile_prefix _) hm)) 31

theorem dispatch_lined (P : Platform) (hu : lf ∉ h.username) {line : Bytes} (hl : Plain line) : (h.dispatch P line).Lined := by
  have run : ∀ {x : Cmd ChatStatus}, Lines x → (h.enter .command x).Lined := fun hx => enter_lined hu (fun _ he => by cases he) hx
  have refused : ∀ {msg : String}, ClearText msg → (h.refuse msg).Lined := fun hmsg => run (send_lines (err_oneLine hmsg))
  unfold dispatch
  rcases hparse : protocolParseClientLine line with ⟨rc, cmd⟩
  simp only
  split
  · exact refused (by decide)
  rename_i hrc
  rw [Classical.not_not] at hrc
  subst hrc
  have hreq := parse_client_sound hl.noNul hparse
  obtain ⟨h1, h2⟩ := request_noLf hreq hl.noLf
  split
  · split
    · exact refused (by decide)
    · rename_i hcmd
      rw [Classical.not_not] at hcmd
      rw [hcmd] at hreq
      have hlen : (cstr cmd.arg1).length < maxUsernameLen := by cases hreq with | auth hn _ => exact hn.length_lt
      refine enter_lined hu (fun u he => ?_) (cmdHandleAuth_lines (plain_cstr h1) hlen _)
      cases he
      exact h1
  split
  · rename_i hcmd
    rw [hcmd] at hreq
    generalize cstr cmd.arg2 = arg2 at hreq
    have hlen : (cstr cmd.arg1).length < maxRoomNameLen := by cases hreq with | joinRoom hf => exact hf.length_lt
    exact run (cmdHandleJoinRoom_lines (plain_cstr h1) hlen)
  · exact run (cmdHandleMsg_lines h2)
  · rename_i hcmd
    rw [hcmd] at hreq
    have hlen : (cstr cmd.arg2).length < maxMsgLen := by cases hreq with | pm _ hf => exact hf.length_lt
    exact run (cmdHandlePm_lines P _ (plain_cstr h2) hlen)
  · exact run cmdHandleList_lines
  · exact run cmdHandleHistory_lines
  · exact run (cmdHandleKick_lines _)
  · exact leave_lined hu
  · exact refused (by decide)

theorem lined_next {P : Platform} (hh : h.Lined) {a : Act} {k : a.Ret → Handler} (hn : h.next P = some ⟨a, k⟩) :
    Writes a ∧ ∀ r, Reads a r → (k r).Lined := by
  obtain ⟨hu, hp⟩ := hh
  unfold next at hn
  cases hpoint : h.point with
  | unborn =>
    rw [hpoint] at hn
    cases hn
    exact ⟨trivial, fun _ _ => ⟨hu, trivial⟩⟩
  | top =>
    rw [hpoint] at hn
    cases hn
    refine ⟨trivial, fun (running : Bool) _ => ?_⟩
    cases running with
    | true => exact ⟨hu, trivial⟩
    | false => exact leave_lined hu
  | reading =>
    rw [hpoint] at hn
    cases hn
    refine ⟨trivial, fun (line : Option Bytes) hl => ?_⟩
    cases line with
    | none => exact leave_lined hu
    | some line => exact dispatch_lined (h := { h with target := none }) P hu (hl line rfl)
  | done => rw [hpoint] at hn; cases hn
  | busy cont p =>
    cases p with
    | ret => rw [hpoint] at hn; cases hn
    | act b kb =>
      rw [hpoint] at hn hp
      cases hn
      have hcont : (∀ u, cont = .auth u → lf ∉ u) ∧ Lines (.act a kb) := by
        cases cont with
        | auth u => exact ⟨fun u' he => by cases he; exact hp.1, hp.2⟩
        | command | leave => exact ⟨fun _ => nofun, hp⟩
      obtain ⟨hc, ha, hk⟩ := hcont
      refine ⟨ha, fun r hr => ?_⟩
      obtain ⟨t, he⟩ := h.note_eq a r
      show ((h.note a r).enter cont (kb r)).Lined
      rw [he]
      exact enter_lined (h := { h with target := t }) hu hc (hk r () hr)

end
end Handler

namespace Acceptor

def Lined : Acceptor → Prop
  | .serving p | .closing p => Lines p
  | _ => True

theorem serveConnection_lines (fd : Int) (id : Nat) : Lines (serveConnection fd id) := by
  have hclose : Lines (Sys.close fd) := ⟨trivial, fun _ _ _ => trivial⟩
  have hdrop : Lines (do Sys.close fd; Sys.connTrackDecrement) := lines_op trivial fun _ _ => ⟨trivial, fun _ _ _ => trivial⟩
  unfold serveConnection
  refine lines_op trivial fun (full : Bool) _ => ?_
  cases full with
  | true =>
    have hfull : OneLine (protocolBuildServerErr maxLineLen (lit "server full (max 100 clients)")).2 := err_oneLine (by decide)
    exact Lines.bind (send_lines hfull) fun _ => hclose
  | false =>
    refine ⟨trivial, fun _ _ _ => lines_op trivial fun (mem : Bool) _ => ?_⟩
    split
    · exact hdrop
    refine lines_op trivial fun (ok : Bool) _ => ?_
    split
    · exact hdrop
    · trivial

theorem serverShutdown_lines : Lines serverShutdown :=
  lines_op trivial fun _ _ => lines_op trivial fun _ _ => lines_op trivial fun _ _ => lines_op trivial fun _ _ =>
    ⟨fun hne => absurd rfl hne, fun _ _ _ => trivial⟩

theorem serve_lined : ∀ {p : Cmd Unit}, Lines p → (serve p).Lined
  | .ret _, _ => trivial
  | .act _ _, hp => hp

theorem close_lined : ∀ {p : Cmd Unit}, Lines p → (close p).Lined
  | .ret _, _ => trivial
  | .act _ _, hp => hp

theorem lined_next {t : Acceptor} (ht : t.Lined) {a : Act} {k : a.Ret → Acceptor} (hn : t.next = some ⟨a, k⟩) :
    Writes a ∧ ∀ r, Reads a r → (k r).Lined := by
  cases t with
  | top =>
    cases hn
    refine ⟨trivial, fun (running : Bool) _ => ?_⟩
    cases running with
    | true => trivial
    | false => exact close_lined serverShutdown_lines
  | accepting =>
    cases hn
    refine ⟨trivial, fun (r : Option (Int × Nat)) _ => ?_⟩
    cases r with
    | none => trivial
    | some r => exact serve_lined (serveConnection_lines r.1 r.2)
  | serving p =>
    cases p with
    | ret => cases hn
    | act => cases hn; exact ⟨ht.1, fun r hr => serve_lined (ht.2 r () hr)⟩
  | closing p =>
    cases p with
    | ret => cases hn
    | act => cases hn; exact ⟨ht.1, fun r hr => close_lined (ht.2 r () hr)⟩
  | done => cases hn

end Acceptor

section
variable {P : Platform} {msg : MqMessage}

/-- An event that fits its line makes one. -/
theorem eventLine_oneLine (hm : msg.type ≠ .shutdown → msg.Unbroken) {line : Bytes} (h : eventLine P msg = some line) : OneLine line := by
  unfold eventLine at h
  have built : ∀ {r : ServerLine}, Plain r.rest → (r.build maxLineLen).1 = .ok ∧ (r.build maxLineLen).2 = line → OneLine line := by
    rintro r hp ⟨hok, rfl⟩
    exact build_oneLine hp hok
  cases htype : msg.type with
  | chat =>
    obtain ⟨hu, hr, hc⟩ := hm (by rw [htype]; decide)
    rw [htype] at h
    simp only [Option.ite_none_right_eq_some, Option.some.injEq] at h
    have htail := (plain_formatTimestamp P msg.timestamp).join ((plain_cstr hr).join (plain_cstr hc))
    exact built (r := .broadcast (cstr msg.username) _ (cstr msg.room) (cstr msg.content)) ((plain_cstr hu).join htail) h
  | join | roomJoin =>
    obtain ⟨hu, hr, -⟩ := hm (by rw [htype]; decide)
    rw [htype] at h
    simp only [Option.ite_none_right_eq_some, Option.some.injEq] at h
    exact built (r := .userJoin (cstr msg.username) (cstr msg.room)) ((plain_cstr hu).join (plain_cstr hr)) h
  | leave | roomLeave =>
    obtain ⟨hu, hr, -⟩ := hm (by rw [htype]; decide)
    rw [htype] at h
    simp only [Option.ite_none_right_eq_some, Option.some.injEq] at h
    exact built (r := .userLeft (cstr msg.username) (cstr msg.room)) ((plain_cstr hu).join (plain_cstr hr)) h
  | shutdown =>
    rw [htype] at h
    cases h

end

namespace Broadcaster

def Lined : Broadcaster → Prop
  | .first _ line | .stepping _ line _ => OneLine line
  | .sending _ line _ p => OneLine line ∧ Lines p
  | _ => True

section
variable {P : Platform} {room line : Bytes}

theorem sendToClient_lines (hl : OneLine line) (node : ClientNode) : Lines (sendToClient room line node) := by
  unfold sendToClient
  split
  · trivial
  refine Lines.bind (send_lines hl) fun rc => ?_
  split
  · trivial
  · trivial

theorem afterCallback_lined {cur : Nat} (hl : OneLine line) : ∀ {p : Cmd ChatStatus}, Lines p → (afterCallback room line cur p).Lined
  | .ret rc, _ => by
    show Lined (if rc ≠ .ok then .top else .stepping room line cur)
    split
    · trivial
    · exact hl
  | .act _ _, hp => ⟨hl, hp⟩

theorem visit_lined (hl : OneLine line) : ∀ node, (visit room line node).Lined
  | none => trivial
  | some node => afterCallback_lined hl (sendToClient_lines hl node)

theorem onEvent_lined {msg : MqMessage} (hm : msg.type ≠ .shutdown → msg.Unbroken) : (onEvent P msg).Lined := by
  unfold onEvent
  split
  · trivial
  split
  · trivial
  · rename_i line h
    exact eventLine_oneLine hm h

theorem lined_next {t : Broadcaster} (ht : t.Lined) {a : Act} {k : a.Ret → Broadcaster} (hn : t.next P = some ⟨a, k⟩) :
    Writes a ∧ ∀ r, Reads a r → (k r).Lined := by
  cases t with
  | top =>
    cases hn
    refine ⟨trivial, fun (running : Bool) _ => ?_⟩
    cases running <;> trivial
  | popping =>
    cases hn
    refine ⟨trivial, ?_⟩
    rintro ⟨rc, msg⟩ hm
    cases rc with
    | ok =>
      cases msg with
      | some msg => exact onEvent_lined (hm msg rfl)
      | none => trivial
    | _ => trivial
  | first room line =>
    cases hn
    exact ⟨trivial, fun node _ => visit_lined ht node⟩
  | stepping room line cur =>
    cases hn
    exact ⟨trivial, fun node _ => visit_lined ht node⟩
  | sending room line cur p =>
    cases p with
    | ret => cases hn
    | act =>
      cases hn
      obtain ⟨hl, ha, hk⟩ := ht
      exact ⟨ha, fun r hr => afterCallback_lined hl (hk r () hr)⟩
  | done => cases hn

end
end Broadcaster

namespace Thread

def Lined : Thread → Prop
  | .main t => t.Lined
  | .broadcaster t => t.Lined
  | .signal => True
  | .handler h => h.Lined

theorem lined_next {P : Platform} {t : Thread} (ht : t.Lined) {a : Act} {k : a.Ret → Thread} (hn : t.next P = some ⟨a, k⟩) :
    Writes a ∧ ∀ r, Reads a r → (k r).Lined := by
  cases t with
  | main t =>
    obtain ⟨⟨b, kb⟩, hb, he⟩ := Option.map_eq_some_iff.mp hn
    cases he
    exact Acceptor.lined_next ht hb
  | broadcaster t =>
    obtain ⟨⟨b, kb⟩, hb, he⟩ := Option.map_eq_some_iff.mp hn
    cases he
    exact Broadcaster.lined_next ht hb
  | signal =>
    cases hn
    exact ⟨trivial, fun _ _ => trivial⟩
  | handler h =>
    obtain ⟨⟨b, kb⟩, hb, he⟩ := Option.map_eq_some_iff.mp hn
    cases he
    exact Handler.lined_next ht hb

end Thread

/-! ## The shared state -/

/-- No text that the server holds has a newline. -/
structure Server.Lined (s : Server) : Prop where
  names : ∀ n ∈ s.registry.nodes, 0 ∈ n.username ∧ lf ∉ cstr n.username ∧ lf ∉ cstr n.room
  entries : ∀ rn ∈ s.rooms.rooms, ∀ e ∈ rn.history.toList, Plain e.format
  events : ∀ msg ∈ s.queue.msgs, msg.type ≠ .shutdown → msg.Unbroken

/-- The line is what `server_recv_line` leaves in its buffer, where it leaves what `recv_line` does. -/
def ReadOff (line : Bytes) : Prop :=
  ∃ sock buf, maxLineLen ≤ buf.length ∧ SameLine sock buf maxLineLen ∧ (serverRecvLine sock buf maxLineLen).1 = .ok ∧
    line = cstr (serverRecvLine sock buf maxLineLen).2.1

/-- No string in uninitialised memory runs over the end of its field, and none is read behind the end of a stream. -/
structure Env.Proper (e : Env) : Prop extends Env.Terminated e where
  line : ∀ line, e.line = some line → ReadOff line

/-! ### Lines that are read -/

/-- Where the loop ends a line, the bytes read have a newline at most at their end. -/
theorem recvLineLoop_ended {n : Nat} : ∀ {sock : List Recv} (pos : Nat) (buf : Bytes) {out : Bytes} {rest : List Recv}, pos < n →
    n ≤ buf.length → recvLineLoop n sock pos buf = (.ok, out, rest) →
    ∃ v w, (w = v ∨ w = v ++ [lf]) ∧ lf ∉ v ∧ pos + w.length < n ∧ out = endLine (overwrite buf pos w) (pos + w.length)
  | [], pos, buf, out, rest, hpos, _, h => by
    have hended : out = endLine buf pos := by
      simp only [recvLineLoop] at h
      split at h
      · split at h
        · cases h
        · cases h; rfl
      · cases h; rfl
    exact ⟨[], [], Or.inl rfl, List.not_mem_nil, hpos, by rw [overwrite_nil]; exact hended⟩
  | .error :: sock, pos, buf, out, rest, hpos, _, h => by
    simp only [recvLineLoop] at h
    split at h
    · cases h
    · cases h
      exact ⟨[], [], Or.inl rfl, List.not_mem_nil, hpos, by rw [overwrite_nil]; rfl⟩
  | .eintr :: sock, pos, buf, out, rest, hpos, hbuf, h => by
    simp only [recvLineLoop] at h
    split at h
    · exact recvLineLoop_ended pos buf hpos hbuf h
    · cases h
      exact ⟨[], [], Or.inl rfl, List.not_mem_nil, hpos, by rw [overwrite_nil]; rfl⟩
  | .byte c :: sock, pos, buf, out, rest, hpos, hbuf, h => by
    simp only [recvLineLoop] at h
    split at h
    · rename_i hlt
      by_cases hc : c = lf
      · rw [if_pos hc] at h
        cases h
        refine ⟨[], [lf], Or.inr rfl, List.not_mem_nil, by rw [List.length_singleton]; omega, ?_⟩
        rw [hc, ← overwrite_set (by omega), overwrite_nil]
        rfl
      · rw [if_neg hc] at h
        obtain ⟨v, w, hw, hv, hlen, rfl⟩ := recvLineLoop_ended (pos + 1) (buf.set pos c) (by omega)
          (by rw [List.length_set]; exact hbuf) h
        refine ⟨c :: v, c :: w, ?_, ?_, by rw [List.length_cons]; omega, ?_⟩
        · rcases hw with rfl | rfl
          · exact Or.inl rfl
          · exact Or.inr rfl
        · rw [List.mem_cons, not_or]
          exact ⟨Ne.symm hc, hv⟩
        · rw [overwrite_set (by omega), List.length_cons, show pos + 1 + w.length = pos + (w.length + 1) by omega]
    · cases h
      exact ⟨[], [], Or.inl rfl, List.not_mem_nil, hpos, by rw [overwrite_nil]; rfl⟩

theorem ReadOff.trimmed {line : Bytes} (h : ReadOff line) : ∃ s, line = trimNewline s ∧ 0 ∉ s ∧ ∃ v, lf ∉ v ∧ s <+: v ++ [lf] := by
  obtain ⟨sock, buf, hbuf, ⟨hstatus, hsame⟩, hok, rfl⟩ := h
  rw [hok] at hstatus
  rw [hsame hstatus.symm]
  rcases hcall : recvLine sock buf maxLineLen with ⟨rc, out, rest⟩
  rw [hcall] at hstatus
  obtain rfl : ChatStatus.ok = rc := hstatus
  rw [recvLine, if_neg (by decide)] at hcall
  obtain ⟨v, w, hw, hv, hlen, rfl⟩ := recvLineLoop_ended 0 buf (by decide) hbuf hcall
  rw [Nat.zero_add] at hlen ⊢
  have hover : (overwrite buf 0 w).length = buf.length := overwrite_length (by omega)
  refine ⟨(cstr (overwrite buf 0 w)).take w.length, ?_, not_mem_take (nul_not_mem_cstr _) _, v, hv, ?_⟩
  · show cstr (endLine (overwrite buf 0 w) w.length) = _
    rw [endLine, cstr_trimBuffer, cstr_setNul (by omega)]
  · have hpre : (cstr (overwrite buf 0 w)).take w.length <+: (overwrite buf 0 w).take w.length :=
      List.IsPrefix.take (List.takeWhile_prefix _) _
    have hread : (overwrite buf 0 w).take w.length = w := by
      rw [overwrite, List.take_zero, List.nil_append, List.take_left]
    rw [hread] at hpre
    rcases hw with rfl | rfl
    · exact hpre.trans (List.prefix_append _ _)
    · exact hpre

theorem ReadOff.last {line : Bytes} (h : ReadOff line) : Last line := by
  obtain ⟨s, rfl, h0, v, hv, hs⟩ := h.trimmed
  have hinit := trimNewline_initial s
  obtain ⟨hcr, hlf⟩ := trimNewline_eq_iff.mp (trimNewline_idem s)
  refine ⟨⟨fun hm => h0 (hinit.subset hm), fun hm => ?_⟩, hcr⟩
  rcases List.prefix_concat_iff.mp (hinit.trans hs) with he | hpre
  · exact hlf (by rw [he, List.getLast?_concat])
  · exact hv (hpre.subset hm)

/-! ### One action -/

theorem forall_mem_setRoomFirst {p : ClientNode → Prop} {sockfd : Int} {room : Bytes} (hset : ∀ cur : ClientNode, p cur → p (cur.setRoom room)) :
    ∀ {nodes : List ClientNode}, (∀ n ∈ nodes, p n) → ∀ n ∈ setRoomFirst sockfd room nodes, p n
  | [], _ => fun n hn => absurd hn List.not_mem_nil
  | cur :: rest, h => by
    have hcur := h cur (List.mem_cons_self ..)
    have hrest : ∀ n ∈ rest, p n := fun n hn => h n (List.mem_cons_of_mem _ hn)
    unfold setRoomFirst
    split
    · exact List.forall_mem_cons.mpr ⟨hset cur hcur, hrest⟩
    · exact List.forall_mem_cons.mpr ⟨hcur, forall_mem_setRoomFirst hset hrest⟩

section
variable {P : Platform} {tid : Tid} {e : Env} {s s' : Server} {a : Act} {r : a.Ret}

theorem push_of_pushOf {q : Tid × MqMessage} (h : pushOf ⟨tid, a, r⟩ = some q) : a = .mqPush q.2 := by
  cases a with
  | mqPush msg =>
    change ChatStatus at r
    change (if r = ChatStatus.ok then some (tid, msg) else none) = some q at h
    split at h
    · cases h; rfl
    · cases h
  | _ => cases h

theorem newNode_lined {mem : Fresh} (hmem : e.node = some mem) (he : e.Terminated) {username room : Bytes} (hu : lf ∉ username)
    (hr : lf ∉ room) (fd : Int) (isAdmin : Bool) :
    0 ∈ (newNode mem fd username room isAdmin).username ∧ lf ∉ cstr (newNode mem fd username room isAdmin).username ∧
      lf ∉ cstr (newNode mem fd username room isAdmin).room := by
  obtain ⟨hname, hroom⟩ := he.node mem hmem
  have hlast : (mem.username.drop (maxUsernameLen - 1))[0]? = some 0 := by rwa [List.getElem?_drop]
  exact ⟨List.mem_append_right _ (List.mem_of_getElem? hlast), not_mem_cstr_strncpy ((cstr_drop_nil_iff mem.username_length).mpr hname) hu,
    not_mem_cstr_strncpy ((cstr_drop_nil_iff mem.room_length).mpr hroom) hr⟩

theorem setRoom_lined {room : Bytes} (hr : lf ∉ room) (cur : ClientNode)
    (h : 0 ∈ cur.username ∧ lf ∉ cstr cur.username ∧ lf ∉ cstr cur.room) :
    0 ∈ (cur.setRoom room).username ∧ lf ∉ cstr (cur.setRoom room).username ∧ lf ∉ cstr (cur.setRoom room).room := by
  refine ⟨h.1, h.2.1, fun hm => ?_⟩
  have hcopy : cstr (cur.setRoom room).room = (cstr room).take (maxRoomNameLen - 1) := cstr_copyField (n := 31) cur.room_length room
  rw [hcopy] at hm
  exact hr (List.IsPrefix.subset (List.takeWhile_prefix _) (List.mem_of_mem_take hm))

theorem fillEntry_plain {username content : Bytes} (hu : lf ∉ username) (hc : lf ∉ content) (ts : Int) (entry : HistoryEntry) :
    Plain (fillEntry P username content ts entry).format := by
  have hname := plain_cstr (not_mem_cstr_copy entry.username hu)
  have hcontent := plain_cstr (not_mem_cstr_copy entry.content hc)
  have htime := plain_formatTimestamp P ts
  constructor
  · simp only [HistoryEntry.format, formatEntry, fillEntry, List.mem_append, not_or]
    exact ⟨⟨⟨⟨hname.noNul, by decide⟩, htime.noNul⟩, by decide⟩, hcontent.noNul⟩
  · simp only [HistoryEntry.format, formatEntry, fillEntry, List.mem_append, not_or]
    exact ⟨⟨⟨⟨hname.noLf, by decide⟩, htime.noLf⟩, by decide⟩, hcontent.noLf⟩

theorem exec_lined (he : e.Terminated) (hs : s.Lined) (ha : Writes a) (hx : exec P tid a e s = some (r, s')) : s'.Lined where
  names := by
    cases a with
    | registryAdd fd u room isAdmin =>
      rcases exec_registryAdd_cases hx with ⟨-, -, mem, hmem, hnodes⟩ | ⟨-, hreg⟩
      · rw [hnodes]
        exact List.forall_mem_cons.mpr ⟨newNode_lined hmem he ha.1 ha.2 fd isAdmin, hs.names⟩
      · rw [hreg]
        exact hs.names
    | registryRemove fd =>
      rw [exec_registryRemove hx]
      exact fun n hn => hs.names n (List.mem_of_mem_eraseP hn)
    | registrySetRoom fd room =>
      rw [exec_registrySetRoom hx]
      exact forall_mem_setRoomFirst (setRoom_lined ha) hs.names
    | _ =>
      rw [exec_registry rfl hx]
      exact hs.names
  entries := by
    cases a with
    | roomHistoryAdd room u content ts =>
      cases hx
      exact forall_entries_add (a := ⟨e.malloc, room, u, content, ts⟩) hs.entries (fillEntry_plain ha.1 ha.2 ts)
    | registryAdd =>
      rw [(exec_registryAdd hx).1]
      exact hs.entries
    | mqPop =>
      simp only [exec] at hx
      split at hx
      · cases hx
      · cases hx; exact hs.entries
    | registryRemove | registrySetRoom | mqPush | mqSignalShutdown => cases hx; exact hs.entries
    | _ =>
      rw [(exec_sameChat rfl hx).2.1]
      exact hs.entries
  events := by
    intro msg hmsg
    have hmem : msg ∈ s.queue.msgs ++ (pushOf ⟨tid, a, r⟩).toList.map Prod.snd := by
      rw [exec_queue hx]
      exact List.mem_append_right _ hmsg
    rcases List.mem_append.mp hmem with hold | hnew
    · exact hs.events msg hold
    · obtain ⟨q, hq, rfl⟩ := List.mem_map.mp hnew
      obtain rfl : a = .mqPush q.2 := push_of_pushOf (Option.mem_toList.mp hq)
      exact ha

theorem getField_plain {field : ClientNode → Bytes} {reg : ClientRegistry} (h : ∀ n ∈ reg.nodes, lf ∉ cstr (field n)) (fd : Int) (n : Nat) :
    Plain (outString (getField field reg fd (List.replicate (n + 1) 0) (n + 1))).2 ∧
      (outString (getField field reg fd (List.replicate (n + 1) 0) (n + 1))).2.length < n + 1 := by
  have hnil : cstr (setNul (List.replicate (n + 1) 0) 0) = [] := rfl
  unfold getField
  rw [if_neg (Nat.succ_ne_zero n)]
  cases hfind : reg.nodes.find? fun cur => cur.sockfd == fd with
  | none =>
    show Plain (cstr (setNul (List.replicate (n + 1) 0) 0)) ∧ (cstr (setNul (List.replicate (n + 1) 0) 0)).length < n + 1
    rw [hnil]
    exact ⟨⟨List.not_mem_nil, List.not_mem_nil⟩, Nat.succ_pos n⟩
  | some cur =>
    have hcopy : cstr (copyField (setNul (List.replicate (n + 1) 0) 0) (field cur) (n + 1)) = (cstr (field cur)).take n :=
      cstr_copyField (by rw [setNul_length, List.length_replicate]) _
    show Plain (cstr (copyField _ (field cur) (n + 1))) ∧ (cstr (copyField _ (field cur) (n + 1))).length < n + 1
    rw [hcopy, List.length_take]
    have hplain := plain_cstr (h cur (List.mem_of_find?_eq_some hfind))
    exact ⟨⟨not_mem_take hplain.noNul n, not_mem_take hplain.noLf n⟩, by omega⟩

theorem appendJoined_plain {sep : Bytes} (hsep : Plain sep) {items : List Bytes} (h : ∀ item ∈ items, Plain item) (n : Nat) :
    Plain (appendJoined (n + 1) sep items [] true).2 ∧ (appendJoined (n + 1) sep items [] true).2.length ≤ n + 1 := by
  rw [appendJoined_fitted (Nat.succ_pos n)]
  refine ⟨⟨not_mem_take ?_ _, not_mem_take ?_ _⟩, ?_⟩
  · exact not_mem_joinWith hsep.noNul fun item hi => (h item hi).noNul
  · exact not_mem_joinWith hsep.noLf fun item hi => (h item hi).noLf
  · rw [fitted, List.length_take]
    omega

theorem exec_reads (he : e.Proper) (hs : s.Lined) (hx : exec P tid a e s = some (r, s')) : Reads a r := by
  cases a with
  | recvLine fd =>
    cases hx
    intro line hline
    obtain ⟨read, hread, rfl⟩ := Option.map_eq_some_iff.mp hline
    have hlast := (he.line read hread).last
    rw [cstr_of_nulFree hlast.noNul]
    exact hlast.toPlain
  | registryGetUsername fd =>
    cases hx
    exact getField_plain (fun n hn => (hs.names n hn).2.1) fd 31
  | registryGetRoom fd =>
    cases hx
    exact getField_plain (fun n hn => (hs.names n hn).2.2) fd 31
  | registryBuildUserList buflen =>
    cases hx
    cases buflen with
    | zero => exact ⟨⟨List.not_mem_nil, List.not_mem_nil⟩, Nat.zero_le _⟩
    | succ n =>
      refine appendJoined_plain ⟨by decide, by decide⟩ (fun item hitem => ?_) n
      obtain ⟨cur, hcur, rfl⟩ := List.mem_map.mp hitem
      obtain ⟨hnul, hlf, -⟩ := hs.names cur hcur
      rw [cur.usernameString_of_nul hnul, ← cur.name_of_nul hnul]
      exact plain_cstr hlf
  | roomHistoryFormat room buflen =>
    cases hx
    show Plain (roomHistoryFormat s.rooms room buflen).2
    cases buflen with
    | zero => exact ⟨List.not_mem_nil, List.not_mem_nil⟩
    | succ n =>
      unfold roomHistoryFormat
      rw [if_neg (Nat.succ_ne_zero n)]
      split
      · exact ⟨List.not_mem_nil, List.not_mem_nil⟩
      · rename_i rn hfind
        refine (appendJoined_plain ⟨by decide, by decide⟩ (fun item hitem => ?_) n).1
        obtain ⟨entry, hentry, rfl⟩ := List.mem_map.mp hitem
        exact hs.entries rn (List.mem_of_find?_eq_some hfind) entry hentry
  | stackEvent =>
    cases hx
    exact ⟨he.username, he.room, he.content⟩
  | mqPop =>
    intro msg hmsg
    have hmem : msg ∈ (popOf ⟨tid, .mqPop, r⟩).toList ++ s'.queue.msgs := List.mem_append_left _ (Option.mem_toList.mpr hmsg)
    rw [← exec_queue hx] at hmem
    rcases List.mem_append.mp hmem with hold | hnew
    · exact hs.events msg hold
    · exact absurd hnew List.not_mem_nil
  | _ => trivial

end

/-! ## Runs -/

theorem Server.lined_init (db : AuthDb) : (serverInit db).Lined where
  names := fun _ hn => absurd hn List.not_mem_nil
  entries := fun rn hrn e he => by
    rw [List.mem_singleton.mp hrn, newRoom_empty] at he
    cases he
  events := fun _ hn => absurd hn List.not_mem_nil

theorem lined_start (tid : Tid) : (Thread.start tid).Lined := by
  cases tid with
  | handler => exact ⟨List.not_mem_nil, trivial⟩
  | _ => trivial

theorem lined_outline (P : Platform) :
    Outline (Thread.next P) (exec P) Env.Proper Server.Lined (fun _ t _ => t.Lined) where
  own hs ht hn he hx := by
    obtain ⟨ha, hk⟩ := Thread.lined_next ht hn
    exact ⟨exec_lined he.toTerminated hs ha hx, hk _ (exec_reads he hs hx)⟩
  frame _ _ _ _ _ _ hu := hu

section
variable {P : Platform} {db : AuthDb} {tr : List (Label Tid Act.Ret)} {c : System}

theorem run_lined (hr : Run (System.Step P Env.Proper) (System.init db) tr c) :
    Holds Server.Lined (fun _ t _ => t.Lined) c :=
  (lined_outline P).run ⟨Server.lined_init db, lined_start⟩ hr

theorem step_writes {c' : System} {l : Label Tid Act.Ret} (hc : Holds Server.Lined (fun (_ : Tid) (t : Thread) _ => t.Lined) c)
    (hs : System.Step P Env.Proper c l c') : Writes l.act := by
  cases hs with
  | mk hn _ _ => exact (Thread.lined_next (hc.2 _) hn).1

theorem run_writes (hr : Run (System.Step P Env.Proper) (System.init db) tr c) : ∀ l ∈ tr, Writes l.act := by
  refine hr.traced (I := fun tr _ => ∀ l ∈ tr, Writes l.act) ?_ (fun _ hl => absurd hl List.not_mem_nil)
  intro tr s' s'' l hr' hI hs l' hl'
  rcases List.mem_append.mp hl' with hold | hnew
  · exact hI l' hold
  · obtain rfl := List.mem_singleton.mp hnew
    exact step_writes (run_lined hr') hs

/-- **Every send is one whole line**, whatever the clients send and however the
threads take turns, and nothing that the server stores would break a line. -/
theorem sends_whole (hr : Run (System.Step P Env.Proper) (System.init db) tr c) :
    (∀ l ∈ tr, ∀ fd buf sent, l.act = .send fd buf sent → OneLine buf) ∧ c.shared.Lined := by
  refine ⟨fun l hl fd buf sent hact => ?_, (run_lined hr).1⟩
  have hw := run_writes hr l hl
  rw [hact] at hw
  exact hw

end

/-- A line that stands on the stream with its newline is read off as it is. -/
theorem ReadOff.of_line {w : Bytes} (hw : WholeLine w) (hcr : w.getLast? ≠ some cr) : ReadOff w := by
  have hb : bytesOf (recvs [.segment (w ++ [lf])]) = w ++ lf :: [] := by simp [bytesOf_recvs, stream, Arrival.bytes]
  have he : .error ∉ recvs [.segment (w ++ [lf])] := by simp [recvs, Arrival.recvs]
  have hlf : w.getLast? ≠ some lf := fun h => hw.noLf (List.mem_of_getLast? h)
  have hbuf : (zeros maxLineLen).length = maxLineLen := zeros_length _
  obtain ⟨buf, sock, hcall, hstring⟩ := serverRecvLine_line he hb hw hbuf
  refine ⟨recvs [.segment (w ++ [lf])], zeros maxLineLen, (zeros_length _).ge, sameLine_of_not_cut (fun hcut => hcut.noLf ?_) _, ?_, ?_⟩
  · rw [hb]
    simp
  · rw [hcall]
  · rw [hcall, hstring, trimNewline_eq_iff.mpr ⟨hcr, hlf⟩]

theorem sunny_proper {line : String} (hw : WholeLine (lit line)) (hcr : (lit line).getLast? ≠ some cr) (fd : Int) (addr : Nat) :
    (sunny line fd addr).Proper where
  toTerminated := sunny_terminated line fd addr
  line := by
    rintro _ ⟨⟩
    exact .of_line hw hcr

theorem proper_logIn : ∀ p ∈ logIn 0 5 "bob", p.2.Proper := by
  intro p hp
  rcases List.mem_append.mp hp with hp | hp
  · rw [(List.mem_replicate.mp hp).2]
    exact sunny_proper ⟨by decide, by decide, by decide⟩ (by decide) 5 0
  · rw [(List.mem_replicate.mp hp).2]
    exact sunny_proper ⟨by decide, by decide, by decide⟩ (by decide) 5 1

theorem sends_whole_bob : ∃ tr c, Run (System.Step passPlatform Env.Proper) (System.init passDb) tr c ∧
    (∃ l ∈ tr, l.act = .send 5 (lit "ROOM_JOINED lobby\n") 0) ∧ OneLine (lit "ROOM_JOINED lobby\n") := by
  obtain ⟨tr, c, hr, hp⟩ := System.exists_run passPlatform Env.Proper (System.init passDb) _ proper_logIn
    (p := fun q => q.1.any fun l => decide (l.act = .send 5 (lit "ROOM_JOINED lobby\n") 0)) (by decide +kernel)
  obtain ⟨l, hl, hact⟩ := List.any_eq_true.mp hp
  have hact := of_decide_eq_true hact
  exact ⟨tr, c, hr, ⟨l, hl, hact⟩, (sends_whole hr).1 l hl 5 _ 0 hact⟩

end ChatServer

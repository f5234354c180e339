import ChatServer.Registry
import ChatServer.Replies

/-!
# The session as the client has it

`display_server_message` and `receiver_thread`, without what they print: two
kinds of lines change the names of the session, and one ends the loop.
-/

namespace ChatServer

open CStr

theorem copyField_length {buf : Bytes} {n : Nat} (h : buf.length = n) (field : Bytes) : (copyField buf field n).length = n := by
  rw [copyField, setNul_length, strncpy_length (by omega), h]

structure ChatClient where
  username : Bytes
  currentRoom : Bytes
  running : Bool
  authenticated : Bool
  joined : Bool
  username_length : username.length = maxUsernameLen
  currentRoom_length : currentRoom.length = maxRoomNameLen

def displayServerMessage (cli : ChatClient) (resp : ParsedResp) : ChatClient :=
  match resp.type with
  | .welcome =>
    { cli with authenticated := true, username := copyField cli.username resp.username maxUsernameLen,
               username_length := copyField_length cli.username_length _ }
  | .roomJoined =>
    { cli with currentRoom := copyField cli.currentRoom resp.room maxRoomNameLen, joined := true,
               currentRoom_length := copyField_length cli.currentRoom_length _ }
  | .kicked => { cli with running := false }
  | _ => cli

/-- `receiver_thread` between two rounds, with what `recv` has still to deliver. -/
structure Receiver where
  cli : ChatClient
  sock : List Recv
  line : Bytes

namespace Receiver

/-- One round of the loop; behind its end nothing happens. -/
def round (rx : Receiver) : Receiver :=
  if rx.cli.running then
    match clientRecvLine rx.sock rx.line maxLineLen with
    | (.ok, line, sock) =>
      match protocolParseServerLine (cstr line) with
      | (.ok, resp) => { cli := displayServerMessage rx.cli resp, sock := sock, line := line }
      | _ => { rx with sock := sock, line := line }
    | (_, line, sock) => { cli := { rx.cli with running := false }, sock := sock, line := line }
  else rx

end Receiver

/-! ## Names -/

structure Session where
  username : Bytes
  room : Bytes
  deriving DecidableEq

def ChatClient.session (cli : ChatClient) : Session := { username := cstr cli.username, room := cstr cli.currentRoom }

namespace Session

def onMessage (s : Session) (resp : ParsedResp) : Session :=
  match resp.type with
  | .welcome => { s with username := (cstr resp.username).take (maxUsernameLen - 1) }
  | .roomJoined => { s with room := (cstr resp.room).take (maxRoomNameLen - 1) }
  | _ => s

/-- The session behind a line that was sent to the client. -/
def hear (s : Session) (line : Bytes) : Session :=
  match protocolParseServerLine (trimNewline line) with
  | (.ok, resp) => s.onMessage resp
  | _ => s

end Session

theorem session_display (cli : ChatClient) (resp : ParsedResp) :
    (displayServerMessage cli resp).session = cli.session.onMessage resp := by
  unfold displayServerMessage Session.onMessage
  cases resp.type with
  | welcome => exact congrArg (Session.mk · _) (cstr_copyField cli.username_length _)
  | roomJoined => exact congrArg (Session.mk _ ·) (cstr_copyField cli.currentRoom_length _)
  | _ => rfl

/-! ## Nameless lines -/

/-- The line begins neither like `ROOM_JOINED` nor like `WELCOME`. -/
def Nameless (line : Bytes) : Prop := ∀ c ∈ line.head?, c ≠ 82 ∧ c ≠ 87

theorem onMessage_parsed {cmd : Bytes} (hw : cmd ≠ lit "WELCOME") (hj : cmd ≠ lit "ROOM_JOINED") (rest : Bytes) (out : ParsedResp) (s : Session) :
    s.onMessage (parseServerArgs cmd rest out).2 = s := by
  unfold parseServerArgs
  rw [if_neg hw, if_neg hj]
  split_ifs <;> rfl

theorem hear_nameless {line : Bytes} (h : Nameless line) (s : Session) : s.hear line = s := by
  unfold Session.hear protocolParseServerLine
  cases hsplit : splitFirstToken (trimNewline ((trimNewline line).take (maxLineLen - 1))) 16 with
  | none => rfl
  | some p =>
    obtain ⟨cmd, rest⟩ := p
    have hpre : trimNewline ((trimNewline line).take (maxLineLen - 1)) <+: line :=
      (trimNewline_initial _).trans ((List.take_prefix _ _).trans (trimNewline_initial line))
    have hhead : ∀ c u, cmd = c :: u → line.head? = some c := by
      rintro c u rfl
      obtain ⟨v, hv⟩ := hpre
      obtain ⟨-, -, hl | ⟨hl, -⟩⟩ := splitFirstToken_inv hsplit
      · rw [← hv, hl]
        rfl
      · rw [← hv, hl]
        rfl
    have hw : cmd ≠ lit "WELCOME" := fun he => (h 87 (hhead 87 _ he)).2 rfl
    have hj : cmd ≠ lit "ROOM_JOINED" := fun he => (h 82 (hhead 82 _ he)).1 rfl
    have hsame := onMessage_parsed hw hj rest .zeroed s
    simp only
    split
    · rename_i hparse
      rwa [hparse] at hsame
    · rfl

section
variable (s : Session)

theorem build_text {r : ServerLine} (hr : r.Valid) : r.build maxLineLen = (.ok, r.text ++ [lf]) := by
  have hlen := (ServerLine.text_wholeLine hr).length_lt
  rw [ServerLine.build_eq]
  exact buildLine_fits (by rw [List.length_append]; exact hlen)

theorem hear_build {r : ServerLine} (hr : r.Valid) :
    ∃ resp : ParsedResp, resp.strings = r.fields ∧ s.hear (r.build maxLineLen).2 = s.onMessage resp := by
  obtain ⟨out, hparse, hout⟩ := parseServerArgs_complete hr
  refine ⟨out, hout, ?_⟩
  rw [build_text hr, Session.hear, trimNewline_lf, ServerLine.text_trimmed hr, ServerLine.parse_text hr, hparse]

theorem hear_welcome {u : Bytes} (hu : Word maxUsernameLen u) (hl : Last u) :
    s.hear (protocolBuildServerWelcome maxLineLen u).2 = { s with username := u } := by
  obtain ⟨resp, hout, hs⟩ := hear_build s (r := .welcome u) ⟨hu, hl⟩
  have htype : resp.type = .welcome := congrArg ParsedResp.type hout
  have hname : cstr resp.username = u := congrArg ParsedResp.username hout
  change s.hear (protocolBuildServerWelcome maxLineLen u).2 = _ at hs
  rw [hs, Session.onMessage, htype]
  simp only
  rw [hname, List.take_of_length_le (show u.length ≤ maxUsernameLen - 1 from Nat.le_pred_of_lt hu.length_lt)]

theorem hear_roomJoined {room : Bytes} (hne : room ≠ []) (hr : Tail maxRoomNameLen room) :
    s.hear (protocolBuildServerRoomJoined maxLineLen room).2 = { s with room := room } := by
  obtain ⟨resp, hout, hs⟩ := hear_build s (r := .roomJoined room) ⟨hne, hr⟩
  have htype : resp.type = .roomJoined := congrArg ParsedResp.type hout
  have hname : cstr resp.room = room := congrArg ParsedResp.room hout
  change s.hear (protocolBuildServerRoomJoined maxLineLen room).2 = _ at hs
  rw [hs, Session.onMessage, htype]
  simp only
  rw [hname, List.take_of_length_le (show room.length ≤ maxRoomNameLen - 1 from Nat.le_pred_of_lt hr.length_lt)]

end

/-! ## Many rounds -/

section
variable {sock : List Recv} {buf : Bytes} (he : .error ∉ sock)
include he

theorem Framer.whole {recvLine : List Recv → Bytes → Nat → ChatStatus × Bytes × List Recv} (hf : Framer recvLine) {w t : Bytes}
    (hw : WholeLine w) (hb : bytesOf sock = w ++ lf :: t) (hbuf : buf.length = maxLineLen) :
    ∃ buf' sock', recvLine sock buf maxLineLen = (.ok, buf', sock') ∧ cstr buf' = trimNewline w ∧ buf'.length = maxLineLen ∧
      .error ∉ sock' ∧ bytesOf sock' = t := by
  obtain ⟨sock', hcall, he', hb'⟩ := hf.line he hb hw.noLf hw.length_lt hbuf
  have hlen := hw.length_lt
  have hsnoc : (w ++ [lf]).length = w.length + 1 := List.length_append
  have hnul : 0 ∉ w ++ [lf] := by simp [hw.noNul, lf]
  have hover : (overwrite buf 0 (w ++ [lf])).length = maxLineLen := by rw [overwrite_length (by omega), hbuf]
  refine ⟨_, sock', hcall, ?_, by rw [endLine_length, hover], he', hb'⟩
  rw [← hsnoc, cstr_endLine hnul (by omega), trimNewline_lf]

theorem clientRecvLine_part (hlf : lf ∉ bytesOf sock) (hlen : (bytesOf sock).length + 1 < maxLineLen) (hbuf : buf.length = maxLineLen) :
    clientRecvLine sock buf maxLineLen = (.errIo, overwrite buf 0 (bytesOf sock), []) := by
  rw [clientRecvLine, recvLoop_eof 0 buf he rfl hlf (by omega) (by omega)]

end

/-- The calls of `client_recv_line` return the whole lines, and the part of a line at the end of the stream is dropped. -/
theorem recvLines_part : ∀ (ws : List Bytes) {sock : List Recv} {buf part : Bytes} {fuel : Nat}, .error ∉ sock → (∀ w ∈ ws, WholeLine w) →
    bytesOf sock = (ws.map (· ++ [lf])).flatten ++ part → lf ∉ part → part.length + 1 < maxLineLen → buf.length = maxLineLen →
    ws.length < fuel → recvLines clientRecvLine fuel sock buf = ws.map trimNewline
  | _, _, _, _, 0, _, _, _, _, _, _, hfuel => absurd hfuel (Nat.not_lt_zero _)
  | [], sock, buf, part, fuel + 1, he, _, hb, hlf, hlen, hbuf, _ => by
    obtain rfl : bytesOf sock = part := hb
    rw [recvLines, clientRecvLine_part he hlf hlen hbuf]
    rfl
  | w :: ws, sock, buf, part, fuel + 1, he, hws, hb, hlf, hlen, hbuf, hfuel => by
    rw [List.map_cons, List.flatten_cons, List.append_assoc, List.append_assoc, List.singleton_append] at hb
    obtain ⟨buf', sock', hcall, hstring, hbuf', he', hb'⟩ := clientRecvLine_framer.whole he (hws w (List.mem_cons_self ..)) hb hbuf
    have hrest := recvLines_part ws he' (fun v hv => hws v (List.mem_cons_of_mem _ hv)) hb' hlf hlen hbuf' (Nat.lt_of_succ_lt_succ hfuel)
    rw [recvLines, hcall, List.map_cons]
    simp only
    rw [hrest, hstring]

namespace Receiver

theorem round_stopped {rx : Receiver} (h : rx.cli.running = false) : rx.round = rx := by
  rw [round, h]
  rfl

theorem rounds_stopped {rx : Receiver} (h : rx.cli.running = false) (k : Nat) : Receiver.round^[k] rx = rx :=
  Function.iterate_fixed (round_stopped h) k

theorem round_line {rx : Receiver} (he : .error ∉ rx.sock) (hline : rx.line.length = maxLineLen) (hrun : rx.cli.running = true)
    {w t : Bytes} (hw : WholeLine w) (hb : bytesOf rx.sock = w ++ lf :: t) :
    .error ∉ rx.round.sock ∧ rx.round.line.length = maxLineLen ∧ bytesOf rx.round.sock = t ∧
      rx.round.cli.session = rx.cli.session.hear (w ++ [lf]) := by
  obtain ⟨line', sock', hcall, hstring, hend, he', hb'⟩ := clientRecvLine_framer.whole he hw hb hline
  unfold round Session.hear
  rw [if_pos hrun, hcall, trimNewline_lf]
  simp only
  rw [hstring]
  split
  · rename_i resp hparse
    exact ⟨he', hend, hb', session_display rx.cli resp⟩
  · exact ⟨he', hend, hb', rfl⟩

/-- At the end of the stream the loop ends, and a line that is not whole is dropped. -/
theorem round_rest {rx : Receiver} (he : .error ∉ rx.sock) (hline : rx.line.length = maxLineLen) (hrun : rx.cli.running = true)
    (hlf : lf ∉ bytesOf rx.sock) (hlen : (bytesOf rx.sock).length + 1 < maxLineLen) :
    rx.round.cli.session = rx.cli.session ∧ rx.round.cli.running = false := by
  unfold round
  rw [if_pos hrun, clientRecvLine_part he hlf hlen hline]
  exact ⟨rfl, rfl⟩

/-- A client that has read every line it was sent has heard every line. -/
theorem rounds_heard : ∀ {ws : List Bytes} {rx : Receiver} {t : Bytes} {k : Nat}, .error ∉ rx.sock → rx.line.length = maxLineLen →
    (∀ w ∈ ws, WholeLine w) → lf ∉ t → t.length + 1 < maxLineLen → bytesOf rx.sock = (ws.map (· ++ [lf])).flatten ++ t →
    lf ∉ bytesOf (round^[k] rx).sock → (round^[k] rx).cli.session = (ws.map (· ++ [lf])).foldl Session.hear rx.cli.session
  | [], rx, t, k, he, hline, _, hlf, hlen, hb, _ => by
    obtain rfl : bytesOf rx.sock = t := hb
    cases k with
    | zero => rfl
    | succ k =>
      rw [Function.iterate_succ_apply]
      cases hrun : rx.cli.running with
      | false =>
        rw [round_stopped hrun, rounds_stopped hrun]
        rfl
      | true =>
        obtain ⟨hsame, hstop⟩ := round_rest he hline hrun hlf hlen
        rw [rounds_stopped hstop, hsame]
        rfl
  | w :: ws, rx, t, k, he, hline, hws, hlf, hlen, hb, hall => by
    rw [List.map_cons, List.flatten_cons, List.append_assoc, List.append_assoc, List.singleton_append] at hb
    have hmem : lf ∈ bytesOf rx.sock := by
      rw [hb]
      simp
    cases k with
    | zero => exact absurd hmem hall
    | succ k =>
      rw [Function.iterate_succ_apply] at hall ⊢
      cases hrun : rx.cli.running with
      | false =>
        rw [round_stopped hrun, rounds_stopped hrun] at hall
        exact absurd hmem hall
      | true =>
        obtain ⟨he', hline', hb', hheard⟩ := round_line he hline hrun (hws w (List.mem_cons_self ..)) hb
        rw [rounds_heard he' hline' (fun v hv => hws v (List.mem_cons_of_mem _ hv)) hlf hlen hb' hall, hheard]
        rfl

end Receiver

end ChatServer

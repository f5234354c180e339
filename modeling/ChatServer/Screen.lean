import ChatServer.ClientSessions
import ChatServer.Display

/-!
# What stands on the terminal

The texts that `display_server_message` and `receiver_thread` pass to
`client_print`. At every moment the terminal of a client shows the lines sent
on its connection, each once, in order and as what it is, up to the one that
ends the session.
-/

namespace ChatServer

open CStr Interleave

/-! ## The texts -/

/-- `"\n%s*** ... ***%s\n"` -/
def notice (colors : Bool) (code text : Bytes) : Bytes :=
  lit "\n" ++ colour colors code ++ lit "*** " ++ text ++ lit " ***" ++ colour colors (lit "0") ++ lit "\n"

/-- A head, the name in bold, and the text. -/
def utterance (colors : Bool) (code head username text : Bytes) : Bytes :=
  lit "\n" ++ colour colors code ++ head ++ lit " " ++ colour colors (lit "1") ++ username ++ colour colors (lit "0") ++ lit ": " ++
    text ++ colour colors (lit "0") ++ lit "\n" ++ prompt

def broadcastHead (timestamp room : Bytes) : Bytes := lit "[" ++ timestamp ++ lit "] [" ++ room ++ lit "]"

def pmHead (timestamp : Bytes) : Bytes := lit "[PM " ++ timestamp ++ lit "]"

def historyHead (colors : Bool) : Bytes :=
  lit "\n" ++ colour colors (lit "36") ++ lit "--- Room history ---" ++ colour colors (lit "0") ++ lit "\n"

def errorText (colors : Bool) (message : Bytes) : Bytes :=
  lit "\n" ++ colour colors (lit "31") ++ lit "[error] " ++ message ++ colour colors (lit "0") ++ lit "\n" ++ prompt

def onlineText (userList : Bytes) : Bytes := lit "Online: " ++ if userList = [] then lit "(none)" else userList

/-- The texts that `display_server_message` prints. -/
def displayTexts (colors : Bool) (resp : ParsedResp) : List Bytes :=
  match resp.type with
  | .welcome => [notice colors (lit "32") (lit "Welcome, " ++ cstr resp.username ++ lit "!") ++ prompt]
  | .roomJoined => [notice colors (lit "36") (lit "Joined room: " ++ cstr resp.room) ++ prompt]
  | .broadcast =>
    [utterance colors (lit "32") (broadcastHead (cstr resp.timestamp) (cstr resp.room)) (cstr resp.username) (cstr resp.message)]
  | .pm => [utterance colors (lit "35") (pmHead (cstr resp.timestamp)) (cstr resp.fromUser) (cstr resp.message)]
  | .userJoin => [notice colors (lit "33") (cstr resp.username ++ lit " joined " ++ cstr resp.room) ++ prompt]
  | .userLeft => [notice colors (lit "33") (cstr resp.username ++ lit " left " ++ cstr resp.room) ++ prompt]
  | .list => [notice colors (lit "36") (onlineText (cstr resp.userList)) ++ prompt]
  | .history => historyHead colors :: printHistoryPayload colors (cstr resp.historyPayload)
  | .kicked => [notice colors (lit "31") (lit "KICKED: " ++ cstr resp.message)]
  | .ok => []
  | .err => [errorText colors (cstr resp.message)]
  | .unknown => [lit "\n[server] (unknown response)\n> "]

def unparsedText (line : Bytes) : Bytes := lit "\n[server] " ++ line ++ lit "\n" ++ prompt

def disconnectedText (colors : Bool) : Bytes := notice colors (lit "31") (lit "Server disconnected")

namespace Receiver

/-- What one round of `receiver_thread` prints. -/
def texts (colors : Bool) (rx : Receiver) : List Bytes :=
  if rx.cli.running then
    match clientRecvLine rx.sock rx.line maxLineLen with
    | (.ok, line, _) =>
      match protocolParseServerLine (cstr line) with
      | (.ok, resp) => displayTexts colors resp
      | _ => [unparsedText (cstr line)]
    | _ => [disconnectedText colors]
  else []

/-- What the first rounds print. -/
def screen (colors : Bool) : Nat → Receiver → List Bytes
  | 0, _ => []
  | k + 1, rx => rx.texts colors ++ screen colors k rx.round

end Receiver

/-! ## Lines as they are shown -/

/-- What a line that was sent is shown as. -/
def lineTexts (colors : Bool) (line : Bytes) : List Bytes :=
  match protocolParseServerLine (trimNewline line) with
  | (.ok, resp) => displayTexts colors resp
  | _ => [unparsedText (trimNewline line)]

/-- The line ends the session of the client it was sent to. -/
def EndsSession (line : Bytes) : Prop :=
  (protocolParseServerLine (trimNewline line)).1 = .ok ∧ (protocolParseServerLine (trimNewline line)).2.type = .kicked

instance : DecidablePred EndsSession := fun _ => inferInstanceAs (Decidable (_ ∧ _))

/-- What `k` rounds show of the lines sent, and of the end of the stream behind them. -/
def shownIn (colors : Bool) : Nat → List Bytes → List Bytes
  | 0, _ => []
  | _ + 1, [] => [disconnectedText colors]
  | k + 1, line :: lines => lineTexts colors line ++ if EndsSession line then [] else shownIn colors k lines

/-- What a response is shown as; the entries of a history are not shown. -/
def ServerLine.texts (colors : Bool) : ServerLine → List Bytes
  | .ok _ => []
  | .err msg => [errorText colors msg]
  | .welcome username => [notice colors (lit "32") (lit "Welcome, " ++ username ++ lit "!") ++ prompt]
  | .broadcast username timestamp room message => [utterance colors (lit "32") (broadcastHead timestamp room) username message]
  | .pm fromUser timestamp message => [utterance colors (lit "35") (pmHead timestamp) fromUser message]
  | .userJoin username room => [notice colors (lit "33") (username ++ lit " joined " ++ room) ++ prompt]
  | .userLeft username room => [notice colors (lit "33") (username ++ lit " left " ++ room) ++ prompt]
  | .roomJoined room => [notice colors (lit "36") (lit "Joined room: " ++ room) ++ prompt]
  | .history payload => [historyHead colors, if payload = [] then noHistory colors else prompt]
  | .kicked reason => [notice colors (lit "31") (lit "KICKED: " ++ reason)]
  | .list userList => [notice colors (lit "36") (onlineText userList) ++ prompt]

theorem displayTexts_fields (colors : Bool) {resp : ParsedResp} {r : ServerLine} (h : resp.strings = r.fields) :
    displayTexts colors resp = r.texts colors := by
  have htype : resp.type = r.fields.type := congrArg (·.type) h
  have huser : cstr resp.username = r.fields.username := congrArg (·.username) h
  have hroom : cstr resp.room = r.fields.room := congrArg (·.room) h
  have hmessage : cstr resp.message = r.fields.message := congrArg (·.message) h
  have hstamp : cstr resp.timestamp = r.fields.timestamp := congrArg (·.timestamp) h
  have hlist : cstr resp.userList = r.fields.userList := congrArg (·.userList) h
  have hpayload : cstr resp.historyPayload = r.fields.historyPayload := congrArg (·.historyPayload) h
  have hfrom : cstr resp.fromUser = r.fields.fromUser := congrArg (·.fromUser) h
  unfold displayTexts
  rw [htype, huser, hroom, hmessage, hstamp, hlist, hpayload, hfrom]
  cases r with
  | history payload =>
    show historyHead colors :: printHistoryPayload colors payload = _
    rw [printHistoryPayload_eq]
    rfl
  | _ => rfl

/-- A response that the server builds is shown as what it is. -/
theorem lineTexts_build (colors : Bool) {r : ServerLine} (hr : r.Valid) : lineTexts colors (r.build maxLineLen).2 = r.texts colors := by
  obtain ⟨out, hparse, hout⟩ := parseServerArgs_complete hr
  unfold lineTexts
  rw [build_text hr, trimNewline_lf, ServerLine.text_trimmed hr, ServerLine.parse_text hr, hparse]
  exact displayTexts_fields colors hout

/-! ## Rounds -/

namespace Receiver
variable {colors : Bool} {rx : Receiver}

theorem screen_stopped (h : rx.cli.running = false) : ∀ k, screen colors k rx = []
  | 0 => rfl
  | k + 1 => by
    have htexts : rx.texts colors = [] := by
      unfold texts
      rw [h]
      rfl
    rw [screen, htexts, round_stopped h, screen_stopped h k, List.append_nil]

theorem displayServerMessage_running (cli : ChatClient) (resp : ParsedResp) :
    (displayServerMessage cli resp).running = if resp.type = .kicked then false else cli.running := by
  unfold displayServerMessage
  cases resp.type <;> rfl

theorem endsSession_lf {w : Bytes} : EndsSession (w ++ [lf]) ↔
    (protocolParseServerLine (trimNewline w)).1 = .ok ∧ (protocolParseServerLine (trimNewline w)).2.type = .kicked := by
  unfold EndsSession
  rw [trimNewline_lf]

theorem texts_line (he : .error ∉ rx.sock) (hline : rx.line.length = maxLineLen) (hrun : rx.cli.running = true) {w t : Bytes}
    (hw : WholeLine w) (hb : bytesOf rx.sock = w ++ lf :: t) :
    rx.texts colors = lineTexts colors (w ++ [lf]) ∧ (rx.round.cli.running = false ↔ EndsSession (w ++ [lf])) := by
  obtain ⟨line', sock', hcall, hstring, -⟩ := clientRecvLine_framer.whole he hw hb hline
  rw [endsSession_lf]
  unfold texts lineTexts round
  rw [if_pos hrun, if_pos hrun, hcall, trimNewline_lf]
  dsimp only
  rw [hstring]
  rcases protocolParseServerLine (trimNewline w) with ⟨rc, resp⟩
  cases rc with
  | ok =>
    refine ⟨rfl, ?_⟩
    show (displayServerMessage rx.cli resp).running = false ↔ _
    rw [displayServerMessage_running, hrun]
    by_cases hkick : resp.type = .kicked
    · simp [hkick]
    · simp [hkick]
  | _ => exact ⟨rfl, fun h => absurd (hrun.symm.trans h) nofun, fun h => absurd h.1 nofun⟩

/-- The rounds show the lines sent, one each, and then the end of the stream. -/
theorem screen_lines : ∀ (k : Nat) {ws : List Bytes} {rx : Receiver} {part : Bytes}, .error ∉ rx.sock → rx.line.length = maxLineLen →
    rx.cli.running = true → (∀ w ∈ ws, WholeLine w) → lf ∉ part → part.length + 1 < maxLineLen →
    bytesOf rx.sock = (ws.map (· ++ [lf])).flatten ++ part → screen colors k rx = shownIn colors k (ws.map (· ++ [lf]))
  | 0, _, _, _, _, _, _, _, _, _, _ => rfl
  | k + 1, [], rx, part, he, hline, hrun, _, hlf, hlen, hb => by
    obtain rfl : bytesOf rx.sock = part := hb
    have htexts : rx.texts colors = [disconnectedText colors] := by
      unfold texts
      rw [if_pos hrun, clientRecvLine_part he hlf hlen hline]
    rw [screen, htexts, screen_stopped (round_rest he hline hrun hlf hlen).2, List.append_nil]
    rfl
  | k + 1, w :: ws, rx, part, he, hline, hrun, hws, hlf, hlen, hb => by
    rw [List.map_cons, List.flatten_cons, List.append_assoc, List.append_assoc, List.singleton_append] at hb
    have hw := hws w (List.mem_cons_self ..)
    obtain ⟨htexts, hnext⟩ := texts_line he hline hrun hw hb
    obtain ⟨he', hline', hb', -⟩ := round_line he hline hrun hw hb
    rw [screen, htexts, List.map_cons, shownIn]
    by_cases hkick : EndsSession (w ++ [lf])
    · rw [if_pos hkick, screen_stopped (hnext.mpr hkick)]
    · have hgo : rx.round.cli.running = true := (Bool.eq_false_or_eq_true _).resolve_right fun h => hkick (hnext.mp h)
      rw [if_neg hkick, screen_lines k he' hline' hgo (fun v hv => hws v (List.mem_cons_of_mem _ hv)) hlf hlen hb']

end Receiver

/-! ## Runs -/

section
variable {P : Platform} {db : AuthDb} {tr : List (Label Tid Act.Ret)} {c : System}

/-- **The terminal shows what the threads sent**: one text after the other the
rounds show each line on the connection, up to the one that ends the session;
behind the last line is the disconnect. A response is shown with its fields, but
for a history, which is shown without its entries. -/
theorem screen_shows (hr : Run (fun c l c' => System.Step P Env.Proper c l c' ∧ Delivers l ∧ Undivided P c l) (System.init db) tr c)
    {fd : Int} {rx : Receiver} (he : .error ∉ rx.sock) (hline : rx.line.length = maxLineLen) (hrun : rx.cli.running = true)
    (hb : bytesOf rx.sock = (received fd tr).bytes) (colors : Bool) :
    (∀ k, Receiver.screen colors k rx = shownIn colors k (received fd tr).lines) ∧
    (∀ r : ServerLine, r.Valid → (∀ payload, r ≠ .history payload) → lineTexts colors (r.build maxLineLen).2 = r.texts colors) ∧
    ∀ payload, (ServerLine.history payload).Valid → lineTexts colors ((ServerLine.history payload).build maxLineLen).2 =
      [historyHead colors, if payload = [] then noHistory colors else prompt] := by
  obtain ⟨ws, part, hws, hlines, hbytes, hlf, hlen⟩ := received_split hr fd
  refine ⟨fun k => ?_, fun r hvalid _ => lineTexts_build colors hvalid, fun payload hvalid => lineTexts_build colors hvalid⟩
  rw [hlines]
  exact Receiver.screen_lines k he hline hrun hws hlf hlen (hb.trans hbytes)

end

theorem screen_shows_bob : ∃ tr c, Run (fun c l c' => System.Step passPlatform Env.Proper c l c' ∧ Delivers l ∧ Undivided passPlatform c l)
      (System.init passDb) tr c ∧
    Receiver.screen false 3 (freshReceiver (received 5 tr).bytes) =
      [lit "\n*** Welcome, bob! ***\n> ", lit "\n*** Server disconnected ***\n"] := by
  obtain ⟨tr, c, hr, hp⟩ := System.exists_run passPlatform Env.Proper (System.init passDb) _ proper_bob
    (p := fun q => orderly q.1 &&
      shownIn false 3 (received 5 q.1).lines == [lit "\n*** Welcome, bob! ***\n> ", lit "\n*** Server disconnected ***\n"])
    (by decide +kernel)
  simp only [Bool.and_eq_true, beq_iff_eq] at hp
  obtain ⟨horderly, hshown⟩ := hp
  have hrun := run_orderly (P := passPlatform) (fun _ _ _ h => h) hr horderly
  have hb : bytesOf (freshReceiver (received 5 tr).bytes).sock = (received 5 tr).bytes := by
    simp [freshReceiver, bytesOf_recvs, stream, Arrival.bytes]
  refine ⟨tr, c, hrun, ?_⟩
  rw [(screen_shows hrun (by simp [freshReceiver, recvs, Arrival.recvs]) (zeros_length _) rfl hb false).1, hshown]

end ChatServer

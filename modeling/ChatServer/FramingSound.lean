import ChatServer.Framing
import ChatServer.ProtocolSound

/-!
# The requests that arrive

What one call of the receive loop does at a newline, at a full buffer and at
the end of the stream. A stream of request lines is read back line by line,
wherever the kernel cuts it, and the parser gives back the requests.
-/

namespace ChatServer

open CStr

/-! ## One call -/

/-- The bytes that the calls of `recv` still deliver. -/
def bytesOf (sock : List Recv) : Bytes :=
  sock.filterMap fun r =>
    match r with
    | .byte c => some c
    | _ => none

@[simp] theorem bytesOf_byte (c : UInt8) (sock : List Recv) : bytesOf (.byte c :: sock) = c :: bytesOf sock := rfl

theorem bytesOf_recvs (arrivals : List Arrival) : bytesOf (recvs arrivals) = stream arrivals := by
  induction arrivals with
  | nil => rfl
  | cons a arrivals ih =>
    unfold bytesOf recvs stream at *
    rw [List.flatMap_cons, List.flatMap_cons, List.filterMap_append, ih]
    cases a with
    | segment bytes => simp [Arrival.recvs, Arrival.bytes, List.filterMap_map]
    | interrupt | reset => rfl

theorem error_not_mem_recvs {arrivals : List Arrival} (h : .reset ∉ arrivals) : .error ∉ recvs arrivals := by
  intro he
  obtain ⟨a, ha, he⟩ := List.mem_flatMap.mp he
  cases a with
  | segment bytes =>
    obtain ⟨_, _, he⟩ := List.mem_map.mp he
    cases he
  | interrupt => simp [Arrival.recvs] at he
  | reset => exact h ha

section
variable {eof : Nat → ChatStatus} {n : Nat}

theorem recvLoop_newline : ∀ {sock : List Recv} {w t : Bytes} (pos : Nat) (buf : Bytes), .error ∉ sock →
    bytesOf sock = w ++ lf :: t → lf ∉ w → pos + w.length + 1 < n → n ≤ buf.length →
    ∃ sock', recvLoop eof n sock pos buf =
        (.ok, endLine (overwrite buf pos (w ++ [lf])) (pos + w.length + 1), sock') ∧
      .error ∉ sock' ∧ bytesOf sock' = t
  | [], w, t, pos, buf, _, hb, _, _, _ => by
    have := congrArg List.length hb
    simp [bytesOf] at this
  | .error :: sock, _, _, _, _, he, _, _, _, _ => absurd (List.mem_cons_self ..) he
  | .eintr :: sock, w, t, pos, buf, he, hb, hw, hn, hbuf => by
    simp only [recvLoop]
    rw [if_pos (by omega)]
    exact recvLoop_newline pos buf (fun h => he (List.mem_cons_of_mem _ h)) hb hw hn hbuf
  | .byte c :: sock, w, t, pos, buf, he, hb, hw, hn, hbuf => by
    have he' : Recv.error ∉ sock := fun h => he (List.mem_cons_of_mem _ h)
    rw [bytesOf_byte] at hb
    simp only [recvLoop]
    rw [if_pos (by omega)]
    cases w with
    | nil =>
      obtain ⟨hc, ht⟩ := List.cons.inj hb
      rw [List.length_nil] at hn
      have hset : buf.set pos c = overwrite buf pos [c] := by rw [← overwrite_set (by omega), overwrite_nil]
      exact ⟨sock, by rw [if_pos hc, hset, hc]; rfl, he', ht⟩
    | cons d w =>
      obtain ⟨rfl, ht⟩ := List.cons.inj hb
      rw [List.mem_cons, not_or] at hw
      rw [List.length_cons] at hn
      obtain ⟨sock', hloop, he'', hb'⟩ := recvLoop_newline (pos + 1) (buf.set pos c) he' ht hw.2
        (by omega) (by rw [List.length_set]; exact hbuf)
      refine ⟨sock', ?_, he'', hb'⟩
      rw [if_neg (Ne.symm hw.1), hloop, overwrite_set (by omega), List.length_cons, List.cons_append,
        show pos + 1 + w.length + 1 = pos + (w.length + 1) + 1 by omega]

/-- The loop stops at a full buffer, in the middle of a line. -/
theorem recvLoop_full : ∀ {sock : List Recv} {w t : Bytes} (pos : Nat) (buf : Bytes), .error ∉ sock →
    bytesOf sock = w ++ t → lf ∉ w → pos + w.length = n - 1 → n ≤ buf.length → 0 < n →
    ∃ sock', recvLoop eof n sock pos buf = (.ok, endLine (overwrite buf pos w) (n - 1), sock') ∧
      .error ∉ sock' ∧ bytesOf sock' = t
  | sock, [], t, pos, buf, he, hb, _, hn, _, _ => by
    obtain rfl : pos = n - 1 := hn
    refine ⟨sock, ?_, he, hb⟩
    rw [overwrite_nil]
    cases sock with
    | nil => simp only [recvLoop]; rw [if_neg (by omega)]
    | cons r sock => simp only [recvLoop]; rw [if_neg (by omega)]
  | [], d :: w, t, pos, buf, _, hb, _, _, _, _ => by cases hb
  | .error :: sock, _ :: _, _, _, _, he, _, _, _, _, _ => absurd (List.mem_cons_self ..) he
  | .eintr :: sock, d :: w, t, pos, buf, he, hb, hw, hn, hbuf, hpos => by
    simp only [recvLoop]
    rw [if_pos (by rw [List.length_cons] at hn; omega)]
    exact recvLoop_full pos buf (fun h => he (List.mem_cons_of_mem _ h)) hb hw hn hbuf hpos
  | .byte c :: sock, d :: w, t, pos, buf, he, hb, hw, hn, hbuf, hpos => by
    have he' : Recv.error ∉ sock := fun h => he (List.mem_cons_of_mem _ h)
    rw [bytesOf_byte, List.cons_append] at hb
    obtain ⟨rfl, ht⟩ := List.cons.inj hb
    rw [List.mem_cons, not_or] at hw
    rw [List.length_cons] at hn
    obtain ⟨sock', hloop, he'', hb'⟩ := recvLoop_full (pos + 1) (buf.set pos c) he' ht hw.2
      (by omega) (by rw [List.length_set]; exact hbuf) hpos
    refine ⟨sock', ?_, he'', hb'⟩
    simp only [recvLoop]
    rw [if_pos (by omega), if_neg (Ne.symm hw.1), hloop, overwrite_set (by omega)]

theorem recvLoop_eof : ∀ {sock : List Recv} {w : Bytes} (pos : Nat) (buf : Bytes), .error ∉ sock →
    bytesOf sock = w → lf ∉ w → pos + w.length < n - 1 → n ≤ buf.length →
    recvLoop eof n sock pos buf = (eof (pos + w.length), overwrite buf pos w, [])
  | [], w, pos, buf, _, hb, _, hn, _ => by
    obtain rfl : [] = w := hb
    rw [List.length_nil, Nat.add_zero] at hn ⊢
    simp only [recvLoop]
    rw [if_pos hn, overwrite_nil]
  | .error :: sock, _, _, _, he, _, _, _, _ => absurd (List.mem_cons_self ..) he
  | .eintr :: sock, w, pos, buf, he, hb, hw, hn, hbuf => by
    simp only [recvLoop]
    rw [if_pos (by omega)]
    exact recvLoop_eof pos buf (fun h => he (List.mem_cons_of_mem _ h)) hb hw hn hbuf
  | .byte c :: sock, w, pos, buf, he, hb, hw, hn, hbuf => by
    rw [bytesOf_byte] at hb
    subst hb
    rw [List.mem_cons, not_or] at hw
    rw [List.length_cons] at hn
    simp only [recvLoop]
    rw [if_pos (by omega), if_neg (Ne.symm hw.1),
      recvLoop_eof _ _ (fun h => he (List.mem_cons_of_mem _ h)) rfl hw.2 (by omega) (by rw [List.length_set]; exact hbuf),
      overwrite_set (by omega), List.length_cons]
    congr 2
    omega

end

/-! ## Whole lines -/

/-- What both functions do on a stream that breaks nowhere but at its end. -/
structure Framer (recvLine : List Recv → Bytes → Nat → ChatStatus × Bytes × List Recv) : Prop where
  line : ∀ {sock : List Recv} {w t buf : Bytes}, .error ∉ sock → bytesOf sock = w ++ lf :: t → lf ∉ w →
    w.length + 1 < maxLineLen → buf.length = maxLineLen →
    ∃ sock', recvLine sock buf maxLineLen = (.ok, endLine (overwrite buf 0 (w ++ [lf])) (w.length + 1), sock') ∧
      .error ∉ sock' ∧ bytesOf sock' = t
  stop : ∀ {sock : List Recv} {buf : Bytes}, .error ∉ sock → bytesOf sock = [] → buf.length = maxLineLen →
    recvLine sock buf maxLineLen = (.errIo, buf, [])

theorem serverRecvLine_framer : Framer serverRecvLine where
  line {_ _ _ buf} he hb hw hn hbuf := by
    obtain ⟨sock', hloop, he', hb'⟩ := recvLoop_newline (n := maxLineLen) 0 buf he hb hw (by omega) (by omega)
    refine ⟨sock', ?_, he', hb'⟩
    rw [serverRecvLine, if_neg (by simp), hloop, Nat.zero_add]
  stop he hb hbuf := by
    rw [serverRecvLine, if_neg (by simp), recvLoop_eof 0 _ he hb (by simp) (by simp) (by rw [hbuf]), overwrite_nil]
    rfl

theorem clientRecvLine_framer : Framer clientRecvLine where
  line {_ _ _ buf} he hb hw hn hbuf := by
    obtain ⟨sock', hloop, he', hb'⟩ := recvLoop_newline (n := maxLineLen) 0 buf he hb hw (by omega) (by omega)
    refine ⟨sock', ?_, he', hb'⟩
    rw [clientRecvLine, hloop, Nat.zero_add]
  stop he hb hbuf := by
    rw [clientRecvLine, recvLoop_eof 0 _ he hb (by simp) (by simp) (by rw [hbuf]), overwrite_nil]

/-- A line that the receive buffer holds with its newline. -/
structure WholeLine (w : Bytes) : Prop where
  noNul : 0 ∉ w
  noLf : lf ∉ w
  length_lt : w.length + 1 < maxLineLen

theorem recvLines_lines {recvLine : List Recv → Bytes → Nat → ChatStatus × Bytes × List Recv} (hf : Framer recvLine) :
    ∀ (ws : List Bytes) {sock : List Recv} {buf : Bytes} {fuel : Nat}, (∀ w ∈ ws, WholeLine w) → .error ∉ sock →
      bytesOf sock = (ws.map (· ++ [lf])).flatten → buf.length = maxLineLen → ws.length < fuel →
      recvLines recvLine fuel sock buf = ws.map trimNewline
  | _, _, _, 0, _, _, _, _, hfuel => absurd hfuel (Nat.not_lt_zero _)
  | [], sock, buf, fuel + 1, _, he, hb, hbuf, _ => by
    rw [recvLines, hf.stop he hb hbuf]
    rfl
  | w :: ws, sock, buf, fuel + 1, hws, he, hb, hbuf, hfuel => by
    have hw := hws w (List.mem_cons_self ..)
    have hlen := hw.length_lt
    rw [List.map_cons, List.flatten_cons, List.append_assoc, List.singleton_append] at hb
    obtain ⟨sock', hline, he', hb'⟩ := hf.line he hb hw.noLf hw.length_lt hbuf
    have hsnoc : (w ++ [lf]).length = w.length + 1 := List.length_append
    have hnul : 0 ∉ w ++ [lf] := by simp [hw.noNul, lf]
    have hover : (overwrite buf 0 (w ++ [lf])).length = maxLineLen := by rw [overwrite_length (by omega), hbuf]
    have hend : (endLine (overwrite buf 0 (w ++ [lf])) (w.length + 1)).length = maxLineLen := by
      rw [endLine_length, hover]
    have hrest := recvLines_lines hf ws (fun v hv => hws v (List.mem_cons_of_mem _ hv)) he' hb' hend
      (Nat.lt_of_succ_lt_succ hfuel)
    rw [recvLines, hline, List.map_cons]
    simp only
    rw [hrest, ← hsnoc, cstr_endLine hnul (by omega), trimNewline_lf]

/-! ## The requests of a stream -/

/-- A request as the client builds it. -/
inductive ClientLine where
  | auth (username password : Bytes)
  | joinRoom (room : Bytes)
  | msg (message : Bytes)
  | pm (target message : Bytes)
  | list
  | history
  | kick (username : Bytes)
  | quit
  deriving DecidableEq

namespace ClientLine

def build (buflen : Nat) : ClientLine → ChatStatus × Bytes
  | .auth username password => protocolBuildClientAuth buflen username password
  | .joinRoom room => protocolBuildClientJoinRoom buflen room
  | .msg message => protocolBuildClientMsg buflen message
  | .pm target message => protocolBuildClientPm buflen target message
  | .list => protocolBuildClientList buflen
  | .history => protocolBuildClientHistory buflen
  | .kick username => protocolBuildClientKick buflen username
  | .quit => protocolBuildClientQuit buflen

/-- The command and the two arguments that stand for a request after parsing. -/
def fields : ClientLine → ClientCmd × Bytes × Bytes
  | .auth username password => (.auth, username, password)
  | .joinRoom room => (.joinRoom, room, [])
  | .msg message => (.msg, [], message)
  | .pm target message => (.pm, target, message)
  | .list => (.list, [], [])
  | .history => (.history, [], [])
  | .kick username => (.kick, username, [])
  | .quit => (.quit, [], [])

end ClientLine

/-- No NUL and no newline. -/
structure Plain (s : Bytes) : Prop where
  noNul : 0 ∉ s
  noLf : lf ∉ s

/-- A last field that the receiver does not trim. -/
structure Last (s : Bytes) : Prop extends Plain s where
  noCr : s.getLast? ≠ some cr

namespace ClientLine

def Valid : ClientLine → Prop
  | .auth username password => Name username ∧ Plain username ∧ Field maxMsgLen password ∧ Last password
  | .joinRoom room => Field maxRoomNameLen room ∧ Last room
  | .msg message => Field maxMsgLen message ∧ Last message
  | .pm target message => Name target ∧ Plain target ∧ Field maxMsgLen message ∧ Last message
  | .kick username => Field maxUsernameLen username ∧ Last username
  | .list | .history | .quit => True

end ClientLine

theorem Plain.join {s t : Bytes} (hs : Plain s) (ht : Plain t) : Plain (s ++ sp :: t) where
  noNul := by simp [hs.noNul, ht.noNul, sp]
  noLf := by
    have hne : lf ≠ sp := by decide
    simp [hs.noLf, ht.noLf, hne]

theorem trimNewline_last {t : Bytes} (ht : Last t) (s : Bytes) : trimNewline (s ++ sp :: t) = s ++ sp :: t := by
  rw [← trimNewline_lf, trimNewline_line (by simp)]
  · intro h
    have hmem := List.mem_of_getLast? h
    rw [List.mem_cons] at hmem
    exact hmem.elim (by decide) ht.noLf
  · intro h
    rw [List.getLast?_cons] at h
    cases hl : t.getLast? with
    | none => rw [hl] at h; exact absurd h (by decide)
    | some c => rw [hl] at h; exact ht.noCr (hl.trans h)

namespace ClientLine

/-- The line without its newline. -/
def text : ClientLine → Bytes
  | .auth username password => lit "AUTH" ++ sp :: (username ++ sp :: password)
  | .joinRoom room => lit "JOIN_ROOM" ++ sp :: room
  | .msg message => lit "MSG" ++ sp :: message
  | .pm target message => lit "PM" ++ sp :: (target ++ sp :: message)
  | .list => lit "LIST"
  | .history => lit "HISTORY"
  | .kick username => lit "KICK" ++ sp :: username
  | .quit => lit "QUIT"

theorem build_eq (n : Nat) (c : ClientLine) : c.build n = buildLine n (c.text ++ [lf]) := by
  have hsp : lit " " = [sp] := by decide
  have hlf : lit "\n" = [lf] := by decide
  cases c with
  | auth u p =>
    simp only [build, protocolBuildClientAuth, text, show lit "AUTH " = lit "AUTH" ++ [sp] by decide, hsp, hlf,
      List.append_assoc, List.nil_append, List.cons_append]
  | joinRoom r =>
    simp only [build, protocolBuildClientJoinRoom, text, show lit "JOIN_ROOM " = lit "JOIN_ROOM" ++ [sp] by decide, hlf,
      List.append_assoc, List.nil_append, List.cons_append]
  | msg m =>
    simp only [build, protocolBuildClientMsg, text, show lit "MSG " = lit "MSG" ++ [sp] by decide, hlf,
      List.append_assoc, List.nil_append, List.cons_append]
  | pm u m =>
    simp only [build, protocolBuildClientPm, text, show lit "PM " = lit "PM" ++ [sp] by decide, hsp, hlf,
      List.append_assoc, List.nil_append, List.cons_append]
  | kick u =>
    simp only [build, protocolBuildClientKick, text, show lit "KICK " = lit "KICK" ++ [sp] by decide, hlf,
      List.append_assoc, List.nil_append, List.cons_append]
  | list => rw [build, protocolBuildClientList, text, show lit "LIST\n" = lit "LIST" ++ [lf] by decide]
  | history => rw [build, protocolBuildClientHistory, text, show lit "HISTORY\n" = lit "HISTORY" ++ [lf] by decide]
  | quit => rw [build, protocolBuildClientQuit, text, show lit "QUIT\n" = lit "QUIT" ++ [lf] by decide]

theorem text_request {c : ClientLine} (h : c.Valid) : Request c.fields.1 c.fields.2.1 c.fields.2.2 c.text := by
  cases c with
  | auth u p => exact .auth h.1 h.2.2.1
  | joinRoom r => exact .joinRoom h.1
  | msg m => exact .msg h.1
  | pm u m => exact .pm h.1 h.2.2.1
  | kick u => exact .kick h.1
  | list => exact .list (.inl rfl)
  | history => exact .history (.inl rfl)
  | quit => exact .quit (.inl rfl)

theorem text_wholeLine {c : ClientLine} (h : c.Valid) : WholeLine c.text := by
  have hc : ∀ {word s : Bytes}, Plain word → Plain s → word.length ≤ 9 → s.length < 600 →
      WholeLine (word ++ sp :: s) := by
    intro word s hw hs hl hn
    refine ⟨(hw.join hs).noNul, (hw.join hs).noLf, ?_⟩
    rw [List.length_append, List.length_cons, maxLineLen]
    omega
  have two : ∀ {word u s : Bytes}, Plain word → word.length ≤ 9 → Name u → Plain u → Field maxMsgLen s → Last s →
      WholeLine (word ++ sp :: (u ++ sp :: s)) := by
    intro word u s hw hl hu hup hs hsp
    have hul := hu.length_lt
    have hsl := hs.length_lt
    simp only [maxUsernameLen, maxMsgLen] at hul hsl
    refine hc hw (hup.join hsp.toPlain) hl ?_
    rw [List.length_append, List.length_cons]
    omega
  have one : ∀ {word s : Bytes} {n : Nat}, Plain word → word.length ≤ 9 → Field n s → n ≤ 512 → Last s →
      WholeLine (word ++ sp :: s) := by
    intro word s n hw hl hs hn hsp
    exact hc hw hsp.toPlain hl (by have := hs.length_lt; omega)
  cases c with
  | auth u p => exact two ⟨by decide, by decide⟩ (by decide) h.1 h.2.1 h.2.2.1 h.2.2.2
  | joinRoom r => exact one ⟨by decide, by decide⟩ (by decide) h.1 (by decide) h.2
  | msg m => exact one ⟨by decide, by decide⟩ (by decide) h.1 (by decide) h.2
  | pm u m => exact two ⟨by decide, by decide⟩ (by decide) h.1 h.2.1 h.2.2.1 h.2.2.2
  | kick u => exact one ⟨by decide, by decide⟩ (by decide) h.1 (by decide) h.2
  | list | history | quit => exact ⟨by decide, by decide, by decide⟩

theorem text_trimmed {c : ClientLine} (h : c.Valid) : trimNewline c.text = c.text := by
  have two : ∀ {word u s : Bytes}, Last s → trimNewline (word ++ sp :: (u ++ sp :: s)) = word ++ sp :: (u ++ sp :: s) := by
    intro word u s hs
    simpa only [List.append_assoc, List.cons_append] using trimNewline_last hs (word ++ sp :: u)
  cases c with
  | auth u p => exact two h.2.2.2
  | joinRoom r => exact trimNewline_last h.2 _
  | msg m => exact trimNewline_last h.2 _
  | pm u m => exact two h.2.2.2
  | kick u => exact trimNewline_last h.2 _
  | list | history | quit => decide

end ClientLine

/-- `protocol_parse_client_line` on each line that `server_recv_line` returns: the
status, the command and the strings in its two fields. -/
def readCommands (fuel : Nat) (sock : List Recv) (buf : Bytes) : List (ChatStatus × ClientCmd × Bytes × Bytes) :=
  (recvLines serverRecvLine fuel sock buf).map fun line =>
    let (rc, cmd) := protocolParseClientLine line
    (rc, cmd.cmd, cstr cmd.arg1, cstr cmd.arg2)

/-- **The request codec.** -/
theorem readCommands_built {cmds : List ClientLine} (hv : ∀ c ∈ cmds, c.Valid) {arrivals : List Arrival}
    (hr : .reset ∉ arrivals) (hs : stream arrivals = (cmds.map fun c => (c.build maxLineLen).2).flatten)
    {buf : Bytes} (hbuf : buf.length = maxLineLen) {fuel : Nat} (hfuel : cmds.length < fuel) :
    (∀ c ∈ cmds, (c.build maxLineLen).1 = .ok) ∧
      readCommands fuel (recvs arrivals) buf = cmds.map fun c => (.ok, c.fields) := by
  have hbuild : ∀ c ∈ cmds, c.build maxLineLen = (.ok, c.text ++ [lf]) := by
    intro c hc
    have hlen := (ClientLine.text_wholeLine (hv c hc)).length_lt
    rw [ClientLine.build_eq, buildLine_fits (by rw [List.length_append]; exact hlen)]
  refine ⟨fun c hc => by rw [hbuild c hc], ?_⟩
  have hstream : bytesOf (recvs arrivals) = ((cmds.map ClientLine.text).map (· ++ [lf])).flatten := by
    rw [bytesOf_recvs, hs, List.map_map]
    exact congrArg List.flatten (List.map_congr_left fun c hc => by rw [hbuild c hc]; rfl)
  have hlines := recvLines_lines serverRecvLine_framer (cmds.map ClientLine.text)
    (fun w hw => by obtain ⟨c, hc, rfl⟩ := List.mem_map.mp hw; exact ClientLine.text_wholeLine (hv c hc))
    (error_not_mem_recvs hr) hstream hbuf (by rw [List.length_map]; exact hfuel)
  rw [readCommands, hlines, List.map_map, List.map_map]
  refine List.map_congr_left fun c hc => ?_
  obtain ⟨out, hp, h₁, h₂, h₃⟩ := parse_client_complete (ClientLine.text_wholeLine (hv c hc)).noNul
    (ClientLine.text_request (hv c hc))
  simp only [Function.comp_apply]
  rw [ClientLine.text_trimmed (hv c hc), hp, h₁, h₂, h₃]

/-- Two requests with blanks and no newline between the segments, and one request in three pieces. -/
theorem readCommands_pieces :
    (∀ c ∈ [ClientLine.auth (lit "bob") (lit "my pw"), .msg (lit " hi  all "), .kick (lit "al ice"), .list],
      (c.build maxLineLen).1 = .ok) ∧
    readCommands 5 (recvs [.segment (lit "AUTH bo"), .interrupt, .segment (lit "b my pw\nMSG  hi  all \nKICK "),
      .segment [], .segment (lit "al "), .interrupt, .segment (lit "ice\nLIST\n")]) (zeros maxLineLen) =
    [ClientLine.auth (lit "bob") (lit "my pw"), .msg (lit " hi  all "), .kick (lit "al ice"), .list].map
      fun c => (.ok, c.fields) := by
  refine readCommands_built ?_ (by decide) (by decide +kernel) (zeros_length _) (by decide)
  intro c hc
  simp only [List.mem_cons, List.not_mem_nil, or_false] at hc
  rcases hc with rfl | rfl | rfl | rfl
  · exact ⟨⟨by decide, by decide, by decide⟩, ⟨by decide, by decide⟩, ⟨by decide, by decide⟩,
      ⟨⟨by decide, by decide⟩, by decide⟩⟩
  · exact ⟨⟨by decide, by decide⟩, ⟨⟨by decide, by decide⟩, by decide⟩⟩
  · exact ⟨⟨by decide, by decide⟩, ⟨⟨by decide, by decide⟩, by decide⟩⟩
  · trivial

end ChatServer

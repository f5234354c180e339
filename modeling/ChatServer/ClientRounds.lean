import ChatServer.ClientSafety
import ChatServer.Keyboard

/-!
# The client's loops, with and without their locks

The code of each thread, down to its locks and calls, does what was read off
its loop before: the receiver hears and shows, the input loop sends.
-/

namespace ChatServer

open CStr Interleave Prog Mutexes

/-! ## A round of the receiver -/

/-- What `recv` returns once it is not interrupted. -/
def arrive : List Recv → Incoming × List Recv
  | [] => (.eof, [])
  | .eintr :: sock => arrive sock
  | .error :: sock => (.error, sock)
  | .byte c :: sock => (.byte c, sock)

/-- The members, what `recv` has still to deliver, and what the terminal shows. -/
structure Console where
  cli : ChatClient
  sock : List Recv
  out : List Bytes

/-- What the accesses of the receiver do while `main` does nothing. -/
def Console.serve (fd : Int) : (a : ClientAccess) → Console → Option (a.Ret × Console)
  | .load, s => some ({ cli := s.cli, sockfd := fd : Members }, s)
  | .store x, s => some ((), { s with cli := (Members.assign { cli := s.cli, sockfd := fd } x).cli })
  | .recv _, s => some ((arrive s.sock).1, { s with sock := (arrive s.sock).2 })
  | .vprintf text, s => some ((), { s with out := s.out ++ [text] })
  | .exit, s => some ((), s)
  | _, _ => none

namespace ClientLocks

section
variable {α β : Type} {fd : Int} {colors : Bool} {s : Console}

abbrev solo (fd : Int) (p : ClientCode α) (s : Console) : Option (α × Console) := alone (Console.serve fd) p s

theorem solo_bind (f : α → ClientCode β) (p : ClientCode α) {x : α} {s' : Console} (h : solo fd p s = some (x, s')) :
    solo fd (p >>= f) s = solo fd (f x) s' := by
  unfold solo at h ⊢
  rw [alone_bind, h]
  rfl

theorem solo_prints : ∀ (texts : List Bytes) (s : Console), solo fd (clientPrints texts) s = some ((), { s with out := s.out ++ texts })
  | [], s => by
    rw [List.append_nil]
    rfl
  | text :: texts, s => by
    have hrest := solo_prints texts { s with out := s.out ++ [text] }
    rw [List.append_assoc] at hrest
    exact hrest

theorem solo_recvLoop (cli : ChatClient) (out : List Bytes) : ∀ (sock : List Recv) (n pos : Nat) (buf : Bytes),
    solo fd (recvLoop fd n pos buf) ⟨cli, sock, out⟩ =
      some (((ChatServer.recvLoop (fun _ => .errIo) (pos + n + 1) sock pos buf).1,
        (ChatServer.recvLoop (fun _ => .errIo) (pos + n + 1) sock pos buf).2.1),
        ⟨cli, (ChatServer.recvLoop (fun _ => .errIo) (pos + n + 1) sock pos buf).2.2, out⟩)
  | sock, 0, pos, buf => by
    have hfull : ¬ pos < pos + 0 + 1 - 1 := by omega
    cases sock <;> simp only [ChatServer.recvLoop, if_neg hfull] <;> rfl
  | [], n + 1, pos, buf => by
    have hroom : pos < pos + (n + 1) + 1 - 1 := by omega
    rw [ChatServer.recvLoop, if_pos hroom]
    rfl
  | .eintr :: sock, n + 1, pos, buf => by
    have hroom : pos < pos + (n + 1) + 1 - 1 := by omega
    rw [ChatServer.recvLoop, if_pos hroom]
    exact solo_recvLoop cli out sock (n + 1) pos buf
  | .error :: sock, n + 1, pos, buf => by
    have hroom : pos < pos + (n + 1) + 1 - 1 := by omega
    rw [ChatServer.recvLoop, if_pos hroom]
    rfl
  | .byte c :: sock, n + 1, pos, buf => by
    have hroom : pos < pos + (n + 1) + 1 - 1 := by omega
    rw [ChatServer.recvLoop, if_pos hroom]
    show solo fd (if c = lf then _ else _) _ = _
    by_cases hc : c = lf
    · simp only [if_pos hc]
      rfl
    · simp only [if_neg hc]
      rw [← Nat.add_assoc, Nat.add_right_comm pos n 1]
      exact solo_recvLoop cli out sock n (pos + 1) (buf.set pos c)

theorem solo_recvLine (hfd : 0 ≤ fd) (s : Console) (buf : Bytes) {buflen : Nat} (hbuf : 0 < buflen) :
    solo fd (clientRecvLine buf buflen) s =
      some (((ChatServer.clientRecvLine s.sock buf buflen).1, (ChatServer.clientRecvLine s.sock buf buflen).2.1),
        { s with sock := (ChatServer.clientRecvLine s.sock buf buflen).2.2 }) := by
  have hlen : 0 + (buflen - 1) + 1 = buflen := by omega
  have hloop : solo fd (recvLoop fd (buflen - 1) 0 buf) ⟨s.cli, s.sock, s.out⟩ = _ := solo_recvLoop s.cli s.out s.sock (buflen - 1) 0 buf
  rw [hlen] at hloop
  show solo fd (if fd < 0 then _ else recvLoop fd (buflen - 1) 0 buf) s = _
  rw [if_neg (Int.not_lt.mpr hfd)]
  exact hloop

theorem solo_display (resp : ParsedResp) (s : Console) : solo fd (displayServerMessage colors resp) s =
    some ((), { s with cli := ChatServer.displayServerMessage s.cli resp, out := s.out ++ displayTexts colors resp }) := by
  unfold displayServerMessage ChatServer.displayServerMessage
  cases resp.type with
  | welcome => exact solo_prints _ _
  | roomJoined => exact solo_prints _ _
  | kicked => exact solo_bind _ _ (solo_prints (displayTexts colors resp) s)
  | _ => exact solo_prints _ _

/-- One round does to the members and shows what `Receiver.round` and
`Receiver.texts` say, and goes on where the loop does. -/
theorem receiverRound_solo (hfd : 0 ≤ fd) (rx : Receiver) (out : List Bytes) : ∃ pt,
    solo fd (receiverRound colors rx.line) ⟨rx.cli, rx.sock, out⟩ = some (pt, ⟨rx.round.cli, rx.round.sock, out ++ rx.texts colors⟩) ∧
    (pt = .round rx.round.line ∨ pt = .returned ∧ rx.round.cli.running = false) := by
  unfold Receiver.round Receiver.texts
  cases hrun : rx.cli.running with
  | false =>
    refine ⟨.returned, ?_, Or.inr ⟨rfl, hrun⟩⟩
    show solo fd (if rx.cli.running = true then _ else leaveThread) _ = _
    rw [hrun, if_neg Bool.false_ne_true, if_neg Bool.false_ne_true, if_neg Bool.false_ne_true, List.append_nil]
    rfl
  | true =>
    have hcall := solo_recvLine hfd ⟨rx.cli, rx.sock, out⟩ rx.line (show 0 < maxLineLen by decide)
    have hlook : solo fd (receiverRound colors rx.line) ⟨rx.cli, rx.sock, out⟩ = solo fd (if rx.cli.running = true then _ else leaveThread) _ := rfl
    rw [hlook, hrun, if_pos rfl, if_pos rfl, if_pos rfl, solo_bind _ _ hcall]
    rcases ChatServer.clientRecvLine rx.sock rx.line maxLineLen with ⟨rc, line, sock⟩
    cases rc with
    | ok =>
      dsimp only
      rcases protocolParseServerLine (cstr line) with ⟨rc, resp⟩
      cases rc with
      | ok => exact ⟨.round line, solo_bind _ _ (solo_display resp ⟨rx.cli, sock, out⟩), Or.inl rfl⟩
      | _ => exact ⟨.round line, rfl, Or.inl rfl⟩
    | _ => exact ⟨.returned, rfl, Or.inr ⟨rfl, rfl⟩⟩

/-- The programs of the receiver, one after the other. -/
def rounds (args : ClientArgs) (fd : Int) : Nat → ClientPt → Console → Option (ClientPt × Console)
  | 0, pt, s => some (pt, s)
  | k + 1, pt, s => (solo fd (pt.code args) s).bind fun q => rounds args fd k q.1 q.2

theorem rounds_returned (args : ClientArgs) : ∀ (k : Nat) (s : Console), rounds args fd k .returned s = some (.returned, s)
  | 0, _ => rfl
  | k + 1, s => rounds_returned args k s

/-- **The receiver's code is the loop that was read off without its locks**:
after any number of rounds it has the members, the socket and the texts on the
terminal that `Receiver.round` and `Receiver.screen` give. -/
theorem receiver_rounds (hfd : 0 ≤ fd) (args : ClientArgs) : ∀ (k : Nat) (rx : Receiver) (out : List Bytes), ∃ pt,
    rounds args fd k (.round rx.line) ⟨rx.cli, rx.sock, out⟩ =
      some (pt, ⟨(Receiver.round^[k] rx).cli, (Receiver.round^[k] rx).sock, out ++ Receiver.screen args.colors k rx⟩)
  | 0, rx, out => ⟨.round rx.line, by rw [Receiver.screen, List.append_nil]; rfl⟩
  | k + 1, rx, out => by
    obtain ⟨pt, hround, hpt⟩ := @receiverRound_solo fd args.colors hfd rx out
    have hnext : rounds args fd (k + 1) (.round rx.line) ⟨rx.cli, rx.sock, out⟩ =
        rounds args fd k pt ⟨rx.round.cli, rx.round.sock, out ++ rx.texts args.colors⟩ := by
      show (solo fd (receiverRound args.colors rx.line) _).bind _ = _
      rw [hround]
      rfl
    rw [hnext, Receiver.screen, Function.iterate_succ_apply, ← List.append_assoc]
    obtain rfl | ⟨rfl, hstop⟩ := hpt
    · exact receiver_rounds hfd args k rx.round _
    · refine ⟨.returned, ?_⟩
      rw [rounds_returned, Receiver.rounds_stopped hstop, Receiver.screen_stopped hstop, List.append_nil]

end

end ClientLocks

theorem receiver_rounds_bob : ∃ pt s, ClientLocks.rounds bobArgs 5 3 (.round (zeros maxLineLen))
      ⟨(freshReceiver (lit "WELCOME bob\nROOM_")).cli, (freshReceiver (lit "WELCOME bob\nROOM_")).sock, []⟩ = some (pt, s) ∧
    s.out = [lit "\n*** Welcome, bob! ***\n> ", lit "\n*** Server disconnected ***\n"] := by
  obtain ⟨pt, h⟩ := ClientLocks.receiver_rounds (show (0 : Int) ≤ 5 by decide) bobArgs 3 (freshReceiver (lit "WELCOME bob\nROOM_")) []
  exact ⟨pt, _, h, by decide +kernel⟩

/-! ## The input loop -/

/-- The members, what is still to be typed, and what was put on the connection. -/
structure Desk where
  cli : ChatClient
  stdin : Bytes
  wire : Bytes

/-- What the accesses of `main` do while the receiver does nothing; `accept` is
how much of what it is given `send` takes, behind what the connection carries
already. That has grown at each call, so every call may be answered in its own way. -/
def Desk.serve (fd : Int) (accept : Bytes → Bytes → Nat) : (a : ClientAccess) → Desk → Option (a.Ret × Desk)
  | .load, s => some ({ cli := s.cli, sockfd := fd : Members }, s)
  | .store x, s => some ((), { s with cli := (Members.assign { cli := s.cli, sockfd := fd } x).cli })
  | .send _ buf sent, s =>
    some (some (accept s.wire (buf.drop sent)), { s with wire := s.wire ++ (buf.drop sent).take (accept s.wire (buf.drop sent)) })
  | .fgets n, s => if s.stdin = [] then some (none, s) else some (some (fgets n s.stdin).1, { s with stdin := (fgets n s.stdin).2 })
  | .shutdown _, s | .close _, s | .mutexDestroy _, s | .join, s | .vprintf _, s | .printf _, s => some ((), s)
  | _, _ => none

namespace ClientLocks

section
variable {α β : Type} {fd : Int} {accept : Bytes → Bytes → Nat}

abbrev typing (fd : Int) (accept : Bytes → Bytes → Nat) (p : ClientCode α) (s : Desk) : Option (α × Desk) := alone (Desk.serve fd accept) p s

theorem typing_bind (f : α → ClientCode β) (p : ClientCode α) {s s' : Desk} {x : α} (h : typing fd accept p s = some (x, s')) :
    typing fd accept (p >>= f) s = typing fd accept (f x) s' := by
  unfold typing at h ⊢
  rw [alone_bind, h]
  rfl

/-- However a line is split, the pieces are the line. -/
theorem typing_sendLoop (haccept : ∀ w b, b ≠ [] → 0 < accept w b ∧ accept w b ≤ b.length) (buf : Bytes) :
    ∀ (fuel sent : Nat) (s : Desk), buf.length ≤ sent + fuel →
      typing fd accept (sendLoop fd buf fuel sent) s = some (.ok, { s with wire := s.wire ++ buf.drop sent })
  | 0, sent, s, hfuel => by
    have hend : buf.drop sent = [] := List.drop_eq_nil_of_le hfuel
    rw [hend, List.append_nil]
    rfl
  | fuel + 1, sent, s, hfuel => by
    unfold sendLoop
    by_cases hend : sent ≥ buf.length
    · rw [if_pos hend, List.drop_eq_nil_of_le hend, List.append_nil]
      rfl
    rw [if_neg hend]
    have hne : buf.drop sent ≠ [] := fun h => hend (List.drop_eq_nil_iff.mp h)
    obtain ⟨hpos, hle⟩ := haccept s.wire _ hne
    obtain ⟨n, hn⟩ := Nat.exists_eq_add_of_le' hpos
    have hrest := typing_sendLoop haccept buf fuel (sent + (n + 1)) { s with wire := s.wire ++ (buf.drop sent).take (n + 1) } (by omega)
    have hjoin : s.wire ++ (buf.drop sent).take (n + 1) ++ buf.drop (sent + (n + 1)) = s.wire ++ buf.drop sent := by
      rw [List.append_assoc, ← List.drop_drop, List.take_append_drop]
    rw [hjoin] at hrest
    have hsend : typing fd accept (access (.send fd buf sent)) s =
        some (some (n + 1), { s with wire := s.wire ++ (buf.drop sent).take (n + 1) }) := by
      show some (some (accept s.wire (buf.drop sent)), _) = _
      rw [hn]
    rw [typing_bind _ _ hsend]
    exact hrest

theorem typing_sendLine (haccept : ∀ w b, b ≠ [] → 0 < accept w b ∧ accept w b ≤ b.length) (hfd : 0 ≤ fd) {s : Desk}
    (hrun : s.cli.running = true) (line : Bytes) :
    typing fd accept (clientSendLine line) s = some (.ok, { s with wire := s.wire ++ line }) := by
  have hloop := @typing_sendLoop fd accept haccept line line.length 0 s (by omega)
  rw [List.drop_zero] at hloop
  have hgo : ¬ (fd < 0 ∨ s.cli.running = false) := by
    rw [hrun]
    exact fun h => h.elim (Int.not_lt.mpr hfd) nofun
  show typing fd accept (if fd < 0 ∨ s.cli.running = false then _ else (clientSendAll fd line >>= fun rc => _)) s = _
  rw [if_neg hgo]
  exact typing_bind _ _ hloop

theorem typing_prints : ∀ (texts : List Bytes) (s : Desk), typing fd accept (clientPrints texts) s = some ((), s)
  | [], _ => rfl
  | _ :: texts, s => typing_prints texts s

theorem typing_destroy (hfd : 0 ≤ fd) (s : Desk) :
    typing fd accept clientDestroy s = some ((), { s with cli := { s.cli with running := false } }) := by
  show typing fd accept (if fd ≥ 0 then _ else _) _ = _
  rw [if_pos hfd]
  rfl

theorem typing_leave (hfd : 0 ≤ fd) (s : Desk) : ∃ s', typing fd accept leaveLoop s = some (.returned, s') ∧ s'.wire = s.wire := by
  refine ⟨{ s with cli := { s.cli with running := false } }, ?_, rfl⟩
  show typing fd accept (if fd ≥ 0 then _ else _) s = _
  rw [if_pos hfd]
  exact typing_bind _ _ (typing_destroy hfd s)

/-- One turn sends what `clientTurn` says, and goes on where the loop does. -/
theorem typing_turn (haccept : ∀ w b, b ≠ [] → 0 < accept w b ∧ accept w b ≤ b.length) (hfd : 0 ≤ fd) (colors : Bool) {s : Desk}
    (hrun : s.cli.running = true) (hin : s.stdin ≠ []) : ∃ pt s', typing fd accept (inputTurn colors) s = some (pt, s') ∧
      s'.wire = s.wire ++ (clientTurn (inputAt s.stdin)).out.getD [] ∧
      if (clientTurn (inputAt s.stdin)).quits then pt = .returned
      else pt = .turn ∧ s'.cli.running = true ∧ s'.stdin = (fgets inputLen s.stdin).2 := by
  have hlook : typing fd accept (inputTurn colors) s = typing fd accept (if s.cli.running = true then _ else leaveLoop) s := rfl
  have hread : typing fd accept (access (.fgets inputLen)) s =
      some (some (fgets inputLen s.stdin).1, { s with stdin := (fgets inputLen s.stdin).2 }) := by
    have hserve : Desk.serve fd accept (.fgets inputLen) s = some (some (fgets inputLen s.stdin).1, _) := if_neg hin
    show (Desk.serve fd accept (.fgets inputLen) s).bind _ = _
    rw [hserve]
    rfl
  rw [hlook, if_pos hrun, typing_bind _ _ hread]
  have hsend := fun line => @typing_sendLine fd accept haccept hfd { s with stdin := (fgets inputLen s.stdin).2 } hrun line
  dsimp only
  rw [show trimNewline (cstr (fgets inputLen s.stdin).1) = inputAt s.stdin from rfl]
  cases clientTurn (inputAt s.stdin) with
  | quit out =>
    dsimp only
    rw [typing_bind _ _ (hsend out)]
    obtain ⟨s', hleave, hwire⟩ := @typing_leave fd accept hfd
      { s with stdin := (fgets inputLen s.stdin).2, wire := s.wire ++ out, cli := { s.cli with running := false } }
    exact ⟨.returned, s', hleave, hwire, rfl⟩
  | command out =>
    dsimp only
    rw [typing_bind _ _ (hsend out)]
    exact ⟨.turn, _, rfl, rfl, rfl, hrun, rfl⟩
  | message out =>
    dsimp only
    rw [typing_bind _ _ (hsend out)]
    exact ⟨.turn, _, rfl, rfl, rfl, hrun, rfl⟩
  | skip =>
    dsimp only
    rw [typing_bind _ _ (typing_prints _ _)]
    exact ⟨.turn, _, rfl, (List.append_nil _).symm, rfl, hrun, rfl⟩

/-- The programs of the input loop, one after the other. -/
def turns (args : ClientArgs) (fd : Int) (accept : Bytes → Bytes → Nat) : Nat → ClientPt → Desk → Option (ClientPt × Desk)
  | 0, pt, s => some (pt, s)
  | k + 1, pt, s => (typing fd accept (pt.code args) s).bind fun q => turns args fd accept k q.1 q.2

theorem turns_returned (args : ClientArgs) : ∀ (k : Nat) (s : Desk), turns args fd accept k .returned s = some (.returned, s)
  | 0, _ => rfl
  | k + 1, s => turns_returned args k s

/-- **The input loop's code sends what was read off the loop**: after any
number of turns the connection carries the lines of `clientLoop`, one behind
the other, however `send` splits them. -/
theorem input_turns (haccept : ∀ w b, b ≠ [] → 0 < accept w b ∧ accept w b ≤ b.length) (hfd : 0 ≤ fd) (args : ClientArgs) :
    ∀ (k i : Nat) (s : Desk), s.cli.running = true → ∃ pt s', turns args fd accept k .turn s = some (pt, s') ∧
      s'.wire = s.wire ++ ((clientLoop undisturbed k i s.stdin).map Prod.snd).flatten
  | 0, i, s, _ => ⟨.turn, s, rfl, (List.append_nil _).symm⟩
  | k + 1, i, s, hrun => by
    have hnext : ∀ {pt s'}, typing fd accept (inputTurn args.colors) s = some (pt, s') →
        turns args fd accept (k + 1) .turn s = turns args fd accept k pt s' := by
      intro pt s' h
      show (typing fd accept (inputTurn args.colors) s).bind _ = _
      rw [h]
      rfl
    rw [clientLoop]
    by_cases hin : s.stdin = []
    · rw [if_pos (Or.inr hin)]
      have hlook : typing fd accept (inputTurn args.colors) s = typing fd accept (if s.cli.running = true then _ else leaveLoop) s := rfl
      have hserve : Desk.serve fd accept (.fgets inputLen) s = some (none, s) := if_pos hin
      have hread : typing fd accept (access (.fgets inputLen)) s = some (none, s) := by
        show (Desk.serve fd accept (.fgets inputLen) s).bind _ = _
        rw [hserve]
        rfl
      obtain ⟨s', hleave, hwire⟩ := @typing_leave fd accept hfd s
      rw [if_pos hrun, typing_bind _ _ hread] at hlook
      refine ⟨.returned, s', ?_, by rw [hwire]; exact (List.append_nil _).symm⟩
      rw [hnext (hlook.trans hleave), turns_returned]
    · obtain ⟨pt, s', hturn, hwire, hgo⟩ := @typing_turn fd accept haccept hfd args.colors s hrun hin
      have hstop : ¬ ((undisturbed i).running = false ∨ s.stdin = []) := fun h => h.elim Bool.noConfusion hin
      rw [if_neg hstop, hnext hturn]
      -- a line that does not end the loop
      have hrest : pt = .turn ∧ s'.cli.running = true ∧ s'.stdin = (fgets inputLen s.stdin).2 → ∃ pt' s'',
          turns args fd accept k pt s' = some (pt', s'') ∧
          s''.wire = s'.wire ++ ((clientLoop undisturbed k (i + 1) (fgets inputLen s.stdin).2).map Prod.snd).flatten := by
        rintro ⟨rfl, hrun', hin'⟩
        rw [← hin']
        exact input_turns haccept hfd args k (i + 1) s' hrun'
      cases hact : clientTurn (inputAt s.stdin) with
      | quit out =>
        rw [hact] at hwire hgo
        obtain rfl : pt = .returned := hgo
        refine ⟨.returned, s', turns_returned args k s', ?_⟩
        rw [hwire]
        exact congrArg (s.wire ++ ·) (List.append_nil out).symm
      | command out | message out =>
        rw [hact] at hwire hgo
        obtain ⟨pt', s'', hturns, hwire'⟩ := hrest hgo
        refine ⟨pt', s'', hturns, ?_⟩
        rw [hwire', hwire, List.append_assoc]
        rfl
      | skip =>
        rw [hact] at hwire hgo
        obtain ⟨pt', s'', hturns, hwire'⟩ := hrest hgo
        refine ⟨pt', s'', hturns, ?_⟩
        rw [hwire', hwire]
        exact congrArg (· ++ _) (List.append_nil s.wire)

end

end ClientLocks

/-- Two bytes at a time for the first line, all of the rest for the second one. -/
theorem input_turns_bob : ∃ pt s, ClientLocks.turns bobArgs 5 (fun w b => if w.length < 6 then min 2 b.length else b.length) 2 .turn
      ⟨Members.blank.cli, lit "hi\n/quit\n", []⟩ = some (pt, s) ∧ s.wire = lit "MSG hi\nQUIT\n" := by
  have haccept : ∀ w b : Bytes, b ≠ [] → 0 < (if w.length < 6 then min 2 b.length else b.length) ∧
      (if w.length < 6 then min 2 b.length else b.length) ≤ b.length := by
    intro w b hb
    have hpos := List.length_pos_iff.mpr hb
    split <;> omega
  obtain ⟨pt, s, hturns, hwire⟩ := ClientLocks.input_turns haccept (show (0 : Int) ≤ 5 by decide) bobArgs 2 0
    ⟨Members.blank.cli, lit "hi\n/quit\n", []⟩ rfl
  refine ⟨pt, s, hturns, ?_⟩
  rw [hwire]
  decide +kernel

end ChatServer

import ChatServer.Broadcast

/-!
# The threads of the server

`server.c` and the broadcaster's loop: what each thread does next, as an
automaton that offers one atomic action at a time. A command or any other
straight piece of code runs as a program inside a state of its thread.
`main` ends with `server_shutdown`; what follows in the process is the end of
the run.
-/

namespace ChatServer

open CStr Interleave

namespace Sys

abbrev stop : Cmd Unit := .op Act.stop
abbrev closeListen : Cmd Unit := .op Act.closeListen
abbrev mqSignalShutdown : Cmd Unit := .op Act.mqSignalShutdown
abbrev connAtCapacity : Cmd Bool := .op Act.connAtCapacity
abbrev connTrackIncrement : Cmd Unit := .op Act.connTrackIncrement
abbrev connTrackDecrement : Cmd Unit := .op Act.connTrackDecrement
abbrev mallocArg : Cmd Bool := .op Act.mallocArg
abbrev spawn (fd : Int) (id : Nat) : Cmd Bool := .op (Act.spawn fd id)

end Sys

/-! ## Handlers -/

inductive Cont where
  | auth (username : Bytes)
  | command
  | leave
  deriving DecidableEq

inductive Point where
  | unborn
  | top
  | reading
  | busy (cont : Cont) (p : Cmd ChatStatus)
  | done

/-- The locals of `client_handler`. -/
structure Handler where
  fd : Int
  username : Bytes
  authenticated : Bool
  point : Point
  -- history: the name looked up last by the running command, and its descriptor.
  target : Option (Bytes × Int)

def disconnectClient (fd : Int) (username : Bytes) (authenticated : Bool) : Cmd ChatStatus := do
  cmdDisconnectClient fd username authenticated
  Sys.connTrackDecrement
  return .ok

namespace Handler

def unborn : Handler := { fd := -1, username := [], authenticated := false, point := .unborn, target := none }

/-- `done:` -/
def leave (h : Handler) : Handler :=
  { h with point := .busy .leave (disconnectClient h.fd h.username h.authenticated), target := none }

/-- The loop after a call has returned `rc`. -/
def after (h : Handler) (cont : Cont) (rc : ChatStatus) : Handler :=
  match cont with
  | .leave => { h with point := .done }
  | .command => if rc ≠ .ok then h.leave else { h with point := .top }
  | .auth username =>
    if rc ≠ .ok then h.leave
    else
      { h with
        authenticated := true
        username := cstr (copyField (zeros maxUsernameLen) username maxUsernameLen)
        point := .top }

def enter (h : Handler) (cont : Cont) : Cmd ChatStatus → Handler
  | .ret rc => h.after cont rc
  | .act a k => { h with point := .busy cont (.act a k) }

def refuse (h : Handler) (msg : String) : Handler :=
  h.enter .command (sendResponse h.fd (protocolBuildServerErr maxLineLen (lit msg)).2)

def dispatch (P : Platform) (h : Handler) (line : Bytes) : Handler :=
  let (rc, cmd) := protocolParseClientLine line
  if rc ≠ .ok then h.refuse "invalid command"
  else if !h.authenticated then
    if cmd.cmd ≠ .auth then h.refuse "authentication required: AUTH user pass"
    else h.enter (.auth (cstr cmd.arg1)) (cmdHandleAuth h.fd (cstr cmd.arg1) (cstr cmd.arg2))
  else
    match cmd.cmd with
    | .joinRoom => h.enter .command (cmdHandleJoinRoom h.fd (cstr cmd.arg1))
    | .msg => h.enter .command (cmdHandleMsg h.fd (cstr cmd.arg2))
    | .pm => h.enter .command (cmdHandlePm P h.fd (cstr cmd.arg1) (cstr cmd.arg2))
    | .list => h.enter .command (cmdHandleList h.fd)
    | .history => h.enter .command (cmdHandleHistory h.fd)
    | .kick => h.enter .command (cmdHandleKick h.fd (cstr cmd.arg1))
    | .quit => h.leave
    | _ => h.refuse "unknown command"

def aim (h : Handler) (username : Bytes) (fd : Int) : Handler :=
  if fd < 0 then h else { h with target := some (username, fd) }

def note (h : Handler) : (a : Act) → a.Ret → Handler
  | .registryGetSockfdByUsername username, fd => h.aim username fd
  | _, _ => h

def next (P : Platform) (h : Handler) : Option ((a : Act) × (a.Ret → Handler)) :=
  match h.point with
  | .unborn => some ⟨.start, fun fd => { h with fd := fd, point := .top }⟩
  | .top => some ⟨.running, fun (running : Bool) => if running then { h with point := .reading } else h.leave⟩
  | .reading => some ⟨.recvLine h.fd, fun line =>
      match line with
      | none => h.leave
      | some line => { h with target := none }.dispatch P line⟩
  | .busy cont (.act a k) => some ⟨a, fun r => (h.note a r).enter cont (k r)⟩
  | .busy _ (.ret _) => none
  | .done => none

end Handler

/-! ## The accept loop -/

inductive Acceptor where
  | top
  | accepting
  | serving (p : Cmd Unit)
  | closing (p : Cmd Unit)
  | done

/-- The body of the accept loop behind a successful `accept`. -/
def serveConnection (fd : Int) (id : Nat) : Cmd Unit := do
  if ← Sys.connAtCapacity then
    let _ ← sendResponse fd (protocolBuildServerErr maxLineLen (lit "server full (max 100 clients)")).2
    Sys.close fd
    return
  Sys.connTrackIncrement
  if !(← Sys.mallocArg) then
    Sys.close fd
    Sys.connTrackDecrement
    return
  if !(← Sys.spawn fd id) then
    Sys.close fd
    Sys.connTrackDecrement

def serverShutdown : Cmd Unit := do
  Sys.stop
  Sys.closeListen
  let msg ← Sys.stackEvent
  Sys.mqSignalShutdown
  let _ ← Sys.mqPush { msg with type := .shutdown }

namespace Acceptor

def serve : Cmd Unit → Acceptor
  | .ret _ => .top
  | .act a k => .serving (.act a k)

def close : Cmd Unit → Acceptor
  | .ret _ => .done
  | .act a k => .closing (.act a k)

def next : Acceptor → Option ((a : Act) × (a.Ret → Acceptor))
  | .top => some ⟨.running, fun (running : Bool) => if running then .accepting else close serverShutdown⟩
  | .accepting => some ⟨.accept, fun r =>
      match r with
      | none => .top
      | some (fd, id) => serve (serveConnection fd id)⟩
  | .serving (.act a k) => some ⟨a, fun r => serve (k r)⟩
  | .closing (.act a k) => some ⟨a, fun r => close (k r)⟩
  | _ => none

end Acceptor

/-! ## The broadcaster -/

def eventLine (P : Platform) (msg : MqMessage) : Option Bytes :=
  let ts := formatTimestamp P.localtimeR msg.timestamp
  let (rc, line) : ChatStatus × Bytes := match msg.type with
    | .chat => protocolBuildServerBroadcast maxLineLen (cstr msg.username) ts (cstr msg.room) (cstr msg.content)
    | .join | .roomJoin => protocolBuildServerUserJoin maxLineLen (cstr msg.username) (cstr msg.room)
    | .leave | .roomLeave => protocolBuildServerUserLeft maxLineLen (cstr msg.username) (cstr msg.room)
    | .shutdown => (.err, [])
  if rc = .ok then some line else none

inductive Broadcaster where
  | top
  | popping
  | first (room line : Bytes)
  | sending (room line : Bytes) (cur : Nat) (p : Cmd ChatStatus)
  | stepping (room line : Bytes) (cur : Nat)
  | done

namespace Broadcaster

def onEvent (P : Platform) (msg : MqMessage) : Broadcaster :=
  if msg.type = .shutdown then .done
  else
    match eventLine P msg with
    | none => .top
    | some line => .first msg.room line

def afterCallback (room line : Bytes) (cur : Nat) : Cmd ChatStatus → Broadcaster
  | .ret rc => if rc ≠ .ok then .top else .stepping room line cur
  | .act a k => .sending room line cur (.act a k)

def visit (room line : Bytes) : Option ClientNode → Broadcaster
  | none => .top
  | some node => afterCallback room line node.addr (sendToClient room line node)

def next (P : Platform) : Broadcaster → Option ((a : Act) × (a.Ret → Broadcaster))
  | .top => some ⟨.running, fun (running : Bool) => if running then .popping else .done⟩
  | .popping => some ⟨.mqPop, fun r =>
      match r with
      | (.ok, some msg) => onEvent P msg
      | _ => .done⟩
  | .first room line => some ⟨.foreachFirst, fun node => visit room line node⟩
  | .sending room line cur (.act a k) => some ⟨a, fun r => afterCallback room line cur (k r)⟩
  | .sending _ _ _ (.ret _) => none
  | .stepping room line cur => some ⟨.foreachNext cur, fun node => visit room line node⟩
  | .done => none

end Broadcaster

/-! ## The system -/

inductive Thread where
  | main (t : Acceptor)
  | broadcaster (t : Broadcaster)
  | signal
  | handler (h : Handler)

namespace Thread

def next (P : Platform) : Thread → Option ((a : Act) × (a.Ret → Thread))
  | .main t => t.next.map fun n => ⟨n.1, fun r => .main (n.2 r)⟩
  | .broadcaster t => (t.next P).map fun n => ⟨n.1, fun r => .broadcaster (n.2 r)⟩
  | .signal => some ⟨.stop, fun _ => .signal⟩
  | .handler h => (h.next P).map fun n => ⟨n.1, fun r => .handler (n.2 r)⟩

def start : Tid → Thread
  | .main => .main .top
  | .broadcaster => .broadcaster .top
  | .signal => .signal
  | .handler _ => .handler .unborn

end Thread

abbrev System := Conf Tid Server Thread

def System.handler (c : System) (i : Nat) : Option Handler :=
  match c.loc (.handler i) with
  | .handler h => some h
  | _ => none

theorem System.handler_eq {c : System} {i : Nat} {h : Handler} : c.handler i = some h ↔ c.loc (.handler i) = .handler h := by
  unfold System.handler
  cases c.loc (.handler i) <;> simp

def serverInit (db : AuthDb) : Server :=
  { running := true, listening := true, activeConnections := 0, registry := registryInit, queue := mqInit,
    rooms := roomManagerInit, auth := db, conns := [], nextId := 0, verified := fun _ => none, owner := fun _ => 0 }

def System.init (db : AuthDb) : System := { shared := serverInit db, loc := Thread.start }

/-- One atomic action of one thread, the platform's part of it within `ok`. -/
abbrev System.Step (P : Platform) (ok : Env → Prop) : System → Label Tid Act.Ret → System → Prop :=
  Interleave.Step (Thread.next P) (exec P) ok

theorem System.exists_run (P : Platform) (ok : Env → Prop) (c : System) (es : List (Tid × Env)) (hok : ∀ q ∈ es, ok q.2)
    {p : List (Label Tid Act.Ret) × System → Bool} (h : (schedule (Thread.next P) (exec P) c es).any p = true) :
    ∃ tr c', Run (System.Step P ok) c tr c' ∧ p (tr, c') = true := by
  obtain ⟨⟨tr, c'⟩, hc, hp⟩ := (Option.any_eq_true _ _).mp h
  exact ⟨tr, c', run_of_schedule hok hc, hp⟩

theorem System.exists_guarded (P : Platform) (ok : Env → Prop) {check : System → Label Tid Act.Ret → System → Bool} (c : System)
    (es : List (Tid × Env)) (hok : ∀ q ∈ es, ok q.2) {p : List (Label Tid Act.Ret) × System → Bool}
    (h : (guarded (Thread.next P) (exec P) check c es).any p = true) :
    ∃ tr c', Run (fun c l c' => System.Step P ok c l c' ∧ check c l c' = true) c tr c' ∧ p (tr, c') = true := by
  obtain ⟨⟨tr, c'⟩, hc, hp⟩ := (Option.any_eq_true _ _).mp h
  exact ⟨tr, c', run_of_guarded hok hc, hp⟩

end ChatServer

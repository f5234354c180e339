import ChatServer.Mutexes
import ChatServer.Screen
import ChatServer.Typing

/-!
# The threads of the client

`main` of the client, with all that it calls, and `receiver_thread`, down to
each lock and each system call. `recv` and `send` are taken with their
repetitions after `EINTR`.
-/

namespace ChatServer

open CStr Interleave

inductive ClientTid where
  | main
  | receiver
  deriving DecidableEq

/-- `cli->lock` and `cli->io_lock`. -/
inductive ClientMutex where
  | lock
  | ioLock
  deriving DecidableEq

/-- The members of `chat_client_t` that both threads use. -/
structure Members where
  cli : ChatClient
  sockfd : Int

/-- An assignment to members. -/
inductive Assign where
  | sockfd (fd : Int)
  | running (value : Bool)
  | username (src : Bytes)
  | welcome (src : Bytes)
  | roomJoined (src : Bytes)

namespace Members

def blank : Members where
  cli := { username := zeros _, currentRoom := zeros _, running := true, authenticated := false, joined := false,
           username_length := zeros_length _, currentRoom_length := zeros_length _ }
  sockfd := -1

def assign (x : Members) : Assign → Members
  | .sockfd fd => { x with sockfd := fd }
  | .running value => { x with cli := { x.cli with running := value } }
  | .username src =>
    { x with cli := { x.cli with username := copyField x.cli.username src maxUsernameLen,
                                 username_length := copyField_length x.cli.username_length _ } }
  | .welcome src =>
    { x with cli := { x.cli with authenticated := true, username := copyField x.cli.username src maxUsernameLen,
                                 username_length := copyField_length x.cli.username_length _ } }
  | .roomJoined src =>
    { x with cli := { x.cli with currentRoom := copyField x.cli.currentRoom src maxRoomNameLen, joined := true,
                                 currentRoom_length := copyField_length x.cli.currentRoom_length _ } }

end Members

/-- `recv` of one byte. -/
inductive Incoming where
  | byte (c : UInt8)
  | eof
  | error
  deriving DecidableEq

/-- What a thread does other than to lock and unlock. -/
inductive ClientAccess where
  -- `memset` and the first assignments of `client_init`
  | init
  | mutexInit (m : ClientMutex)
  | mutexDestroy (m : ClientMutex)
  | getaddrinfo
  | socket
  | connect (fd : Int)
  | close (fd : Int)
  | shutdown (fd : Int)
  | send (fd : Int) (buf : Bytes) (sent : Nat)
  | recv (fd : Int)
  -- members, under `lock`
  | load
  | store (x : Assign)
  -- members, without a lock
  | peek
  | poke (x : Assign)
  | fgets (n : Nat)
  -- `vprintf` and `fflush` in `client_print`
  | vprintf (text : Bytes)
  -- `printf` elsewhere
  | printf (text : Bytes)
  | create
  | start
  | exit
  | join

inductive ThreadState where
  | none
  | running
  | ended
  | joined
  deriving DecidableEq

structure ClientProcess where
  members : Members
  -- the sockets that are open
  fds : List Int
  -- the mutexes that are initialised
  made : ClientMutex → Bool
  receiver : ThreadState
  stdin : Bytes

/-- The outcomes of one system call. -/
structure ClientEnv where
  ok : Bool
  addrs : Option Nat
  fd : Option Int
  sent : Option Nat
  got : Incoming

namespace ClientAccess

def Ret : ClientAccess → Type
  | mutexInit _ | connect _ | create => Bool
  | getaddrinfo => Option Nat
  | socket => Option Int
  | send .. => Option Nat
  | recv _ => Incoming
  | load | peek => Members
  | fgets _ => Option Bytes
  | _ => Unit

/-- `none` while the thread waits. -/
def exec (_ : ClientTid) : (a : ClientAccess) → ClientEnv → ClientProcess → Option (a.Ret × ClientProcess)
  | .init, _, s => some ((), { s with members := .blank })
  | .mutexInit m, e, s => some (e.ok, if e.ok then { s with made := Function.update s.made m true } else s)
  | .mutexDestroy m, _, s => some ((), { s with made := Function.update s.made m false })
  | .getaddrinfo, e, s => some (e.addrs, s)
  | .socket, e, s =>
    match e.fd with
    | none => some (none, s)
    | some fd => if fd < 0 ∨ fd ∈ s.fds then none else some (some fd, { s with fds := fd :: s.fds })
  | .connect _, e, s => some (e.ok, s)
  | .close fd, _, s => some ((), { s with fds := s.fds.erase fd })
  | .shutdown _, _, s => some ((), s)
  | .send _ buf sent, e, s => some (e.sent.map (min (buf.length - sent)), s)
  | .recv _, e, s => some (e.got, s)
  | .load, _, s | .peek, _, s => some (s.members, s)
  | .store x, _, s | .poke x, _, s => some ((), { s with members := s.members.assign x })
  | .fgets n, _, s =>
    if s.stdin = [] then some (none, s)
    else
      let (piece, rest) := CStr.fgets n s.stdin
      some (some piece, { s with stdin := rest })
  | .vprintf _, _, s | .printf _, _, s => some ((), s)
  | .create, e, s => some (e.ok, if e.ok then { s with receiver := .running } else s)
  | .start, _, s => if s.receiver = .running then some ((), s) else none
  | .exit, _, s => some ((), { s with receiver := .ended })
  | .join, _, s => if s.receiver = .ended then some ((), { s with receiver := .joined }) else none

/-- Which mutex the thread may hold meanwhile. -/
def May : ClientAccess → Option ClientMutex → Prop
  | .load, v | .store _, v | .send .., v | .shutdown _, v => v = some .lock
  | .close _, v => v = some .lock ∨ v = none
  | .vprintf _, v => v = some .ioLock
  | _, v => v = none

end ClientAccess

abbrev ClientCode := Mutexes.Code ClientMutex ClientAccess.Ret

/-- What `main` is called with, as far as it is used behind the connection. -/
structure ClientArgs where
  username : Option Bytes
  password : Option Bytes
  colors : Bool

/-- Where a program of a thread ends and the next one starts. -/
inductive ClientPt where
  | main
  -- the input loop
  | turn
  | receiver (line : Bytes)
  -- the receiver's loop
  | round (line : Bytes)
  | returned

namespace ClientLocks

abbrev lock (m : ClientMutex) : ClientCode Unit := .act (.lock m) .ret
abbrev unlock (m : ClientMutex) : ClientCode Unit := .act (.unlock m) .ret
abbrev access (a : ClientAccess) : ClientCode a.Ret := .act (.act a) .ret

/-! ## Members and terminal -/

/-- A critical section that assigns. -/
def assign (x : Assign) : ClientCode Unit := do
  lock .lock
  access (.store x)
  unlock .lock

/-- A critical section that looks. -/
def look {α : Type} (f : Members → α) : ClientCode α := do
  lock .lock
  let x ← access .load
  unlock .lock
  return f x

def clientSetRunning (value : Bool) : ClientCode Unit := assign (.running value)

def clientIsRunning : ClientCode Bool := look fun x => x.cli.running

def clientGetSockfd : ClientCode Int := look fun x => x.sockfd

def clientPrint (text : Bytes) : ClientCode Unit := do
  lock .ioLock
  access (.vprintf text)
  unlock .ioLock

def clientPrints : List Bytes → ClientCode Unit
  | [] => pure ()
  | text :: texts => do
    clientPrint text
    clientPrints texts

/-! ## The socket -/

def sendLoop (fd : Int) (buf : Bytes) : Nat → Nat → ClientCode ChatStatus
  | 0, _ => pure .ok
  | fuel + 1, sent =>
    if sent ≥ buf.length then pure .ok
    else do
      match (← access (.send fd buf sent) : Option Nat) with
      | none => return .errIo
      | some 0 => return .errIo
      | some n => sendLoop fd buf fuel (sent + n)

def clientSendAll (fd : Int) (buf : Bytes) : ClientCode ChatStatus := sendLoop fd buf buf.length 0

def clientSendLine (line : Bytes) : ClientCode ChatStatus := do
  lock .lock
  let x : Members ← access .load
  if x.sockfd < 0 ∨ x.cli.running = false then
    unlock .lock
    return .errIo
  else
    let rc ← clientSendAll x.sockfd line
    unlock .lock
    return rc

/-- The loop of `client_recv_line` with room for `n` bytes more. -/
def recvLoop (fd : Int) : Nat → Nat → Bytes → ClientCode (ChatStatus × Bytes)
  | 0, pos, buf => pure (.ok, endLine buf pos)
  | n + 1, pos, buf => do
    match (← access (.recv fd) : Incoming) with
    | .byte c =>
      if c = lf then return (.ok, endLine (buf.set pos c) (pos + 1))
      else recvLoop fd n (pos + 1) (buf.set pos c)
    | .eof => return (.errIo, buf)
    | .error => return (.errIo, buf)

def clientRecvLine (buf : Bytes) (buflen : Nat) : ClientCode (ChatStatus × Bytes) := do
  let fd ← clientGetSockfd
  if fd < 0 then return (.errIo, buf) else recvLoop fd (buflen - 1) 0 buf

/-! ## `receiver_thread` -/

def displayServerMessage (colors : Bool) (resp : ParsedResp) : ClientCode Unit :=
  match resp.type with
  | .welcome => do
    assign (.welcome resp.username)
    clientPrints (displayTexts colors resp)
  | .roomJoined => do
    assign (.roomJoined resp.room)
    clientPrints (displayTexts colors resp)
  | .kicked => do
    clientPrints (displayTexts colors resp)
    clientSetRunning false
  | _ => clientPrints (displayTexts colors resp)

/-- `return NULL` -/
def leaveThread : ClientCode ClientPt := do
  access .exit
  return .returned

def receiverRound (colors : Bool) (line : Bytes) : ClientCode ClientPt := do
  if ← clientIsRunning then
    match ← clientRecvLine line maxLineLen with
    | (.ok, line) =>
      match protocolParseServerLine (cstr line) with
      | (.ok, resp) =>
        displayServerMessage colors resp
        return .round line
      | _ =>
        clientPrint (unparsedText (cstr line))
        return .round line
    | _ =>
      clientPrint (disconnectedText colors)
      clientSetRunning false
      leaveThread
  else leaveThread

/-! ## `main` -/

def clientInit : ClientCode ChatStatus := do
  access .init
  let made : Bool ← access (.mutexInit .lock)
  if made then
    let made : Bool ← access (.mutexInit .ioLock)
    if made then return .ok
    else
      access (.mutexDestroy .lock)
      return .err
  else return .err

/-- The loop over the addresses. -/
def dial : Nat → ClientCode (Option Int)
  | 0 => pure none
  | n + 1 => do
    match (← access .socket : Option Int) with
    | none => dial n
    | some fd =>
      let connected : Bool ← access (.connect fd)
      if connected then return some fd
      else
        access (.close fd)
        dial n

def clientConnect : ClientCode ChatStatus := do
  match (← access .getaddrinfo : Option Nat) with
  | none => return .err
  | some n =>
    match ← dial n with
    | none => return .err
    | some fd =>
      assign (.sockfd fd)
      return .ok

/-- An argument, or what is typed at the prompt; `none` where nothing is typed. -/
def credential (question : Bytes) (override : Option Bytes) (len : Nat) : ClientCode (Option Bytes) :=
  if override.getD [] ≠ [] then pure (some ((override.getD []).take (len - 1)))
  else do
    access (.printf question)
    match (← access (.fgets (len - 1)) : Option Bytes) with
    | none => return none
    | some piece => return some (trimNewline (cstr piece))

def maxPasswordLen : Nat := 64

def resolveCredentials (args : ClientArgs) : ClientCode (Option (Bytes × Bytes)) := do
  match ← credential (lit "Username: ") args.username maxUsernameLen with
  | none => return none
  | some username =>
    access (.poke (.username username))
    match ← credential (lit "Password: ") args.password maxPasswordLen with
    | none => return none
    | some password => return if username = [] ∨ password = [] then none else some (username, password)

/-- `client_disconnect` and the rest of `client_destroy`. -/
def clientDestroy : ClientCode Unit := do
  clientSetRunning false
  lock .lock
  let x : Members ← access .load
  if x.sockfd ≥ 0 then
    access (.close x.sockfd)
    access (.store (.sockfd (-1)))
    unlock .lock
  else unlock .lock
  access (.mutexDestroy .ioLock)
  access (.mutexDestroy .lock)

/-- `main` behind a call that failed. -/
def giveUp : ClientCode ClientPt := do
  clientDestroy
  return .returned

def connectedText (colors : Bool) : Bytes :=
  colour colors (lit "1") ++
    lit "Connected. Commands: message, @user PM, /users, /join room, /history, /kick user (admin), /quit" ++
    colour colors (lit "0") ++ lit "\n" ++ prompt

def clientMain (args : ClientArgs) : ClientCode ClientPt := do
  if (← clientInit) ≠ .ok then return .returned
  else if (← clientConnect) ≠ .ok then giveUp
  else
    let x : Members ← access .peek
    if x.sockfd < 0 then giveUp
    else
      match ← resolveCredentials args with
      | none => giveUp
      | some (username, password) =>
        if (protocolBuildClientAuth maxLineLen username password).1 ≠ .ok then giveUp
        else if (← clientSendLine (protocolBuildClientAuth maxLineLen username password).2) ≠ .ok then giveUp
        else
          let created : Bool ← access .create
          if created then
            clientPrint (connectedText args.colors)
            return .turn
          else giveUp

/-- The end of `client_run`, and of `main` behind it. -/
def leaveLoop : ClientCode ClientPt := do
  lock .lock
  let x : Members ← access .load
  if x.sockfd ≥ 0 then
    access (.shutdown x.sockfd)
    unlock .lock
  else unlock .lock
  access .join
  clientDestroy
  access (.printf (lit "Disconnected.\n"))
  return .returned

/-- What is printed for a line that nothing is sent for. -/
def skipTexts (colors : Bool) (input : Bytes) : List Bytes :=
  if input = [] then [prompt]
  else if input.head? = some 64 then
    [colour colors (lit "31") ++ lit "Usage: @username message" ++ colour colors (lit "0") ++ lit "\n" ++ prompt]
  else []

/-- One iteration of the input loop. -/
def inputTurn (colors : Bool) : ClientCode ClientPt := do
  if ← clientIsRunning then
    match (← access (.fgets inputLen) : Option Bytes) with
    | none => leaveLoop
    | some piece =>
      let input := trimNewline (cstr piece)
      match clientTurn input with
      | .quit out =>
        let _ ← clientSendLine out
        clientSetRunning false
        leaveLoop
      | .command out =>
        let _ ← clientSendLine out
        return .turn
      | .message out =>
        if (← clientSendLine out) ≠ .ok then
          clientSetRunning false
          leaveLoop
        else
          clientPrint prompt
          return .turn
      | .skip =>
        clientPrints (skipTexts colors input)
        return .turn
  else leaveLoop

end ClientLocks

namespace ClientPt

def code (args : ClientArgs) : ClientPt → ClientCode ClientPt
  | main => ClientLocks.clientMain args
  | turn => ClientLocks.inputTurn args.colors
  | receiver line => do
    ClientLocks.access .start
    return .round line
  | round line => ClientLocks.receiverRound args.colors line
  | returned => .ret .returned

end ClientPt

abbrev ClientSystem := Mutexes.Threads ClientTid ClientMutex ClientProcess ClientPt ClientAccess.Ret

/-- The process as it starts; `members` and `line` are what the stacks hold there. -/
def ClientSystem.init (args : ClientArgs) (members : Members) (stdin line : Bytes) : ClientSystem where
  shared :=
    { held := fun _ => none
      data := { members, fds := [], made := fun _ => false, receiver := .none, stdin } }
  loc
    | .main => ClientPt.code args .main
    | .receiver => ClientPt.code args (.receiver line)

abbrev ClientSystem.Step (args : ClientArgs) (ok : ClientEnv → Prop) :
    ClientSystem → Label ClientTid (@Mutexes.Op.Ret ClientMutex ClientAccess ClientAccess.Ret) → ClientSystem → Prop :=
  Interleave.Step (Mutexes.next (ClientPt.code args)) (Mutexes.exec ClientAccess.exec) ok

end ChatServer

import ChatServer.Protocol
import ChatServer.Server

/-!
# The command handlers

`commands.c` and the two `send_all` loops, as programs over the atomic
actions. An `EINTR` answer only repeats the call, so the action `send` stands
for the first answer that is not one; a loop that sends at least one byte each
time needs at most as many rounds as there are bytes.
-/

namespace ChatServer

open CStr

abbrev Cmd := Prog Act.Ret

/-! ## The actions as programs of one step -/

namespace Sys

abbrev send (fd : Int) (buf : Bytes) (sent : Nat) : Cmd (Option Nat) := .op (Act.send fd buf sent)
abbrev shutdown (fd : Int) : Cmd Unit := .op (Act.shutdown fd)
abbrev close (fd : Int) : Cmd Unit := .op (Act.close fd)
abbrev time : Cmd Int := .op Act.time
abbrev stackEvent : Cmd MqMessage := .op Act.stackEvent
abbrev authVerify (username password : Bytes) : Cmd ChatStatus := .op (Act.authVerify username password)
abbrev authIsAdmin (username : Bytes) : Cmd Bool := .op (Act.authIsAdmin username)
abbrev registryUsernameExists (username : Bytes) : Cmd Bool := .op (Act.registryUsernameExists username)
abbrev registryAdd (fd : Int) (username room : Bytes) (isAdmin : Bool) : Cmd ChatStatus :=
  .op (Act.registryAdd fd username room isAdmin)
abbrev registryRemove (fd : Int) : Cmd ChatStatus := .op (Act.registryRemove fd)
abbrev registryGetUsername (fd : Int) : Cmd (ChatStatus × Bytes) := .op (Act.registryGetUsername fd)
abbrev registryGetRoom (fd : Int) : Cmd (ChatStatus × Bytes) := .op (Act.registryGetRoom fd)
abbrev registrySetRoom (fd : Int) (room : Bytes) : Cmd ChatStatus := .op (Act.registrySetRoom fd room)
abbrev registryIsAdmin (fd : Int) : Cmd Bool := .op (Act.registryIsAdmin fd)
abbrev registryGetSockfdByUsername (username : Bytes) : Cmd Int := .op (Act.registryGetSockfdByUsername username)
abbrev registryCount : Cmd Nat := .op Act.registryCount
abbrev registryBuildUserList (buflen : Nat) : Cmd (ChatStatus × Bytes) := .op (Act.registryBuildUserList buflen)
abbrev roomHistoryAdd (room username content : Bytes) (ts : Int) : Cmd ChatStatus :=
  .op (Act.roomHistoryAdd room username content ts)
abbrev roomHistoryFormat (room : Bytes) (buflen : Nat) : Cmd (ChatStatus × Bytes) :=
  .op (Act.roomHistoryFormat room buflen)
abbrev mqPush (msg : MqMessage) : Cmd ChatStatus := .op (Act.mqPush msg)

end Sys

/-! ## Sending -/

/-- `while (sent < len)` of `send_all`, with fuel for the rounds left. -/
def sendLoop (fd : Int) (buf : Bytes) : Nat → Nat → Cmd ChatStatus
  | 0, _ => pure .ok
  | fuel + 1, sent => do
    if sent ≥ buf.length then return .ok
    match ← Sys.send fd buf sent with
    | none => return .errIo
    | some 0 => return .errIo
    | some n => sendLoop fd buf fuel (sent + n)

def sendAll (fd : Int) (buf : Bytes) : Cmd ChatStatus := sendLoop fd buf buf.length 0

def serverSendAll (fd : Int) (buf : Bytes) : Cmd ChatStatus := sendLoop fd buf buf.length 0

def sendResponse (fd : Int) (line : Bytes) : Cmd ChatStatus := serverSendAll fd line

def cmdSendResponse (fd : Int) (line : Bytes) : Cmd ChatStatus := sendAll fd line

def respondErr (fd : Int) (msg : String) : Cmd ChatStatus :=
  cmdSendResponse fd (protocolBuildServerErr maxLineLen (lit msg)).2

def respondOk (fd : Int) (msg : String) : Cmd ChatStatus :=
  cmdSendResponse fd (protocolBuildServerOk maxLineLen (lit msg)).2

def enqueueRoomEvent (type : MqEventType) (username room : Bytes) : Cmd ChatStatus := do
  let evt ← Sys.stackEvent
  let now ← Sys.time
  Sys.mqPush (roomEvent evt type username room now)

def roomHistorySendToClient (room : Bytes) (fd : Int) (sendFn : Int → Bytes → Cmd ChatStatus) : Cmd ChatStatus := do
  let (rc, payload) ← Sys.roomHistoryFormat room maxLineLen
  if rc ≠ .ok then return .err
  let (rc, line) := protocolBuildServerHistory maxLineLen payload
  if rc ≠ .ok then return .err
  sendFn fd line

def cmdHandleAuth (fd : Int) (username password : Bytes) : Cmd ChatStatus := do
  if username = [] ∨ password = [] then
    let _ ← respondErr fd "username and password required"
    return .errAuth
  if (← Sys.authVerify username password) ≠ .ok then
    let _ ← respondErr fd "invalid credentials"
    return .errAuth
  if ← Sys.registryUsernameExists username then
    let _ ← respondErr fd "user already online"
    return .errAuth
  let admin ← Sys.authIsAdmin username
  if (← Sys.registryAdd fd username defaultRoom admin) ≠ .ok then
    let _ ← respondErr fd "server full"
    return .errAuth
  if (← cmdSendResponse fd (protocolBuildServerWelcome maxLineLen username).2) ≠ .ok then
    let _ ← Sys.registryRemove fd
    return .errIo
  let _ ← cmdSendResponse fd (protocolBuildServerRoomJoined maxLineLen defaultRoom).2
  let _ ← roomHistorySendToClient defaultRoom fd cmdSendResponse
  let _ ← respondOk fd "authenticated"
  let _ ← enqueueRoomEvent .join username defaultRoom
  return .ok

def cmdHandleJoinRoom (fd : Int) (room : Bytes) : Cmd ChatStatus := do
  if room = [] then
    return ← respondErr fd "room name required"
  let (rc, username) ← Sys.registryGetUsername fd
  if rc ≠ .ok then
    return ← respondErr fd "authenticate first"
  let (rc, oldRoom) ← Sys.registryGetRoom fd
  if rc ≠ .ok then return .err
  if oldRoom = room then
    return ← respondErr fd "already in that room"
  let _ ← enqueueRoomEvent .leave username oldRoom
  let _ ← Sys.registrySetRoom fd room
  let _ ← cmdSendResponse fd (protocolBuildServerRoomJoined maxLineLen room).2
  let _ ← roomHistorySendToClient room fd cmdSendResponse
  let _ ← enqueueRoomEvent .join username room
  respondOk fd "room changed"

def cmdHandleMsg (fd : Int) (content : Bytes) : Cmd ChatStatus := do
  let (rc, username) ← Sys.registryGetUsername fd
  if rc ≠ .ok then
    return ← respondErr fd "authenticate first"
  let (rc, room) ← Sys.registryGetRoom fd
  if rc ≠ .ok then return .err
  if content = [] then
    return ← respondErr fd "empty message"
  let now ← Sys.time
  let _ ← Sys.roomHistoryAdd room username content now
  let evt ← Sys.stackEvent
  if (← Sys.mqPush (chatEvent evt username room content now)) ≠ .ok then
    return ← respondErr fd "broadcast queue error"
  respondOk fd "message sent"

def cmdHandlePm (P : Platform) (fd : Int) (target content : Bytes) : Cmd ChatStatus := do
  let (rc, sender) ← Sys.registryGetUsername fd
  if rc ≠ .ok then
    return ← respondErr fd "authenticate first"
  if target = [] ∨ content = [] then
    return ← respondErr fd "usage: PM user message"
  if sender = target then
    return ← respondErr fd "cannot PM yourself"
  let targetFd ← Sys.registryGetSockfdByUsername target
  if targetFd < 0 then
    return ← respondErr fd "user not online"
  let now ← Sys.time
  let ts := formatTimestamp P.localtimeR now
  if (← cmdSendResponse targetFd (protocolBuildServerPm maxLineLen sender ts content).2) ≠ .ok then
    return ← respondErr fd "failed to deliver PM"
  respondOk fd "PM delivered"

def cmdHandleList (fd : Int) : Cmd ChatStatus := do
  let (rc, _) ← Sys.registryGetUsername fd
  if rc ≠ .ok then
    return ← respondErr fd "authenticate first"
  let (rc, users) ← Sys.registryBuildUserList maxMsgLen
  if rc ≠ .ok then
    return ← respondErr fd "failed to build user list"
  cmdSendResponse fd (protocolBuildServerList maxLineLen users).2

def cmdHandleHistory (fd : Int) : Cmd ChatStatus := do
  let (rc, _) ← Sys.registryGetUsername fd
  if rc ≠ .ok then
    return ← respondErr fd "authenticate first"
  let (rc, room) ← Sys.registryGetRoom fd
  if rc ≠ .ok then return .err
  if (← roomHistorySendToClient room fd cmdSendResponse) ≠ .ok then
    return ← respondErr fd "history unavailable"
  respondOk fd "history sent"

def cmdHandleKick (fd : Int) (target : Bytes) : Cmd ChatStatus := do
  if !(← Sys.registryIsAdmin fd) then
    return ← respondErr fd "admin privileges required"
  if target = [] then
    return ← respondErr fd "username required"
  let (rc, admin) ← Sys.registryGetUsername fd
  if rc = .ok ∧ admin = target then
    return ← respondErr fd "cannot kick yourself"
  let targetFd ← Sys.registryGetSockfdByUsername target
  if targetFd < 0 then
    return ← respondErr fd "user not online"
  let _ ← cmdSendResponse targetFd (protocolBuildServerKicked maxLineLen (lit "kicked by admin")).2
  Sys.shutdown targetFd
  respondOk fd "user kicked"

def cmdDisconnectClient (fd : Int) (username : Bytes) (authenticated : Bool) : Cmd Unit := do
  if authenticated ∧ username ≠ [] then
    let (rc, room) ← Sys.registryGetRoom fd
    if rc = .ok then
      let _ ← enqueueRoomEvent .leave username room
    let _ ← Sys.registryRemove fd
    let _ ← Sys.registryCount
  Sys.close fd

end ChatServer

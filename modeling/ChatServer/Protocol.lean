import ChatServer.Common

/-!
# The line protocol

`protocol.c`: the parsers of both directions and the functions that build the
lines. A `const char *` argument is its string, an output field the whole
array, so that a parser that leaves out a terminator relies on the zeroed
structure it writes into.
-/

namespace ChatServer

open CStr

inductive ClientCmd where
  | unknown
  | auth
  | joinRoom
  | msg
  | pm
  | list
  | history
  | kick
  | quit
  deriving DecidableEq, Repr

inductive ServerResp where
  | unknown
  | ok
  | err
  | welcome
  | broadcast
  | pm
  | userJoin
  | userLeft
  | roomJoined
  | history
  | kicked
  | list
  deriving DecidableEq, Repr

structure ParsedCmd where
  cmd : ClientCmd
  arg1 : Bytes
  arg2 : Bytes
  deriving DecidableEq, Repr

structure ParsedResp where
  type : ServerResp
  username : Bytes
  room : Bytes
  message : Bytes
  timestamp : Bytes
  userList : Bytes
  historyPayload : Bytes
  fromUser : Bytes
  deriving DecidableEq, Repr

def zeros (n : Nat) : Bytes := List.replicate n 0

def ParsedCmd.zeroed : ParsedCmd :=
  { cmd := .unknown, arg1 := zeros maxUsernameLen, arg2 := zeros maxMsgLen }

def ParsedResp.zeroed : ParsedResp :=
  { type := .unknown, username := zeros maxUsernameLen, room := zeros maxRoomNameLen, message := zeros maxMsgLen,
    timestamp := zeros timestampLen, userList := zeros maxMsgLen, historyPayload := zeros maxLineLen,
    fromUser := zeros maxUsernameLen }

/-! ## Pieces of a line -/

def splitFirstToken (line : Bytes) (cmdLen : Nat) : Option (Bytes × Bytes) :=
  match strchr line sp with
  | none => if line.length ≥ cmdLen then none else some (line, [])
  | some cmdSize => if cmdSize ≥ cmdLen then none else some (line.take cmdSize, line.drop (cmdSize + 1))

/-- One field up to the next blank, copied into `f` (of `fLen` bytes) and
terminated; the rest starts behind the blank. -/
def takeField (rest f : Bytes) (fLen : Nat) : Option (Bytes × Bytes) :=
  match strchr rest sp with
  | none => none
  | some len => if len = 0 ∨ len ≥ fLen then none else some (setNul (memcpy f rest len) len, rest.drop (len + 1))

def restFits (rest : Bytes) (fLen : Nat) : Bool := !rest.isEmpty && decide (rest.length < fLen)

def parseTwoTokens (rest a : Bytes) (aLen : Nat) (b : Bytes) (bLen : Nat) : ChatStatus × Bytes × Bytes :=
  match takeField rest a aLen with
  | none => (.errProtocol, a, b)
  | some (a, msg) =>
    if restFits msg bLen then (.ok, a, setNul (strncpy b msg (bLen - 1)) (bLen - 1))
    else (.errProtocol, a, b)

def parseFourFieldsRestMsg (rest f1 : Bytes) (f1Len : Nat) (f2 : Bytes) (f2Len : Nat) (f3 : Bytes) (f3Len : Nat)
    (f4 : Bytes) (f4Len : Nat) : ChatStatus × Bytes × Bytes × Bytes × Bytes :=
  match takeField rest f1 f1Len with
  | none => (.errProtocol, f1, f2, f3, f4)
  | some (f1, rest) =>
    match takeField rest f2 f2Len with
    | none => (.errProtocol, f1, f2, f3, f4)
    | some (f2, rest) =>
      match takeField rest f3 f3Len with
      | none => (.errProtocol, f1, f2, f3, f4)
      | some (f3, msg) =>
        if restFits msg f4Len then (.ok, f1, f2, f3, setNul (strncpy f4 msg (f4Len - 1)) (f4Len - 1))
        else (.errProtocol, f1, f2, f3, f4)

def parseTwoFields (rest f1 : Bytes) (f1Len : Nat) (f2 : Bytes) (f2Len : Nat) : ChatStatus × Bytes × Bytes :=
  match strchr rest sp with
  | none =>
    if restFits rest f1Len then (.ok, strncpy f1 rest (f1Len - 1), setNul f2 0)
    else (.errProtocol, f1, f2)
  | some _ =>
    match takeField rest f1 f1Len with
    | none => (.errProtocol, f1, f2)
    | some (f1, f2src) =>
      if restFits f2src f2Len then (.ok, f1, strncpy f2 f2src (f2Len - 1))
      else (.errProtocol, f1, f2)

def parseThreeFieldsMsg (rest f1 : Bytes) (f1Len : Nat) (f2 : Bytes) (f2Len : Nat) (f3 : Bytes) (f3Len : Nat) :
    ChatStatus × Bytes × Bytes × Bytes :=
  match takeField rest f1 f1Len with
  | none => (.errProtocol, f1, f2, f3)
  | some (f1, rest) =>
    match takeField rest f2 f2Len with
    | none => (.errProtocol, f1, f2, f3)
    | some (f2, msg) =>
      if restFits msg f3Len then (.ok, f1, f2, strncpy f3 msg (f3Len - 1))
      else (.errProtocol, f1, f2, f3)

/-! ## Client lines -/

def parseClientArgs (cmd rest : Bytes) (out : ParsedCmd) : ChatStatus × ParsedCmd :=
  if cmd = lit "AUTH" then
    let (rc, a, b) := parseTwoTokens rest out.arg1 maxUsernameLen out.arg2 maxMsgLen
    (rc, { out with cmd := .auth, arg1 := a, arg2 := b })
  else if cmd = lit "JOIN_ROOM" then
    if restFits rest maxRoomNameLen then
      (.ok, { out with cmd := .joinRoom, arg1 := strncpy out.arg1 rest (maxRoomNameLen - 1) })
    else (.errProtocol, out)
  else if cmd = lit "MSG" then
    if restFits rest maxMsgLen then (.ok, { out with cmd := .msg, arg2 := strncpy out.arg2 rest (maxMsgLen - 1) })
    else (.errProtocol, out)
  else if cmd = lit "PM" then
    let (rc, a, b) := parseTwoTokens rest out.arg1 maxUsernameLen out.arg2 maxMsgLen
    (rc, { out with cmd := .pm, arg1 := a, arg2 := b })
  else if cmd = lit "LIST" then (.ok, { out with cmd := .list })
  else if cmd = lit "HISTORY" then (.ok, { out with cmd := .history })
  else if cmd = lit "KICK" then
    if restFits rest maxUsernameLen then
      (.ok, { out with cmd := .kick, arg1 := strncpy out.arg1 rest (maxUsernameLen - 1) })
    else (.errProtocol, out)
  else if cmd = lit "QUIT" then (.ok, { out with cmd := .quit })
  else (.errProtocol, { out with cmd := .unknown })

def protocolParseClientLine (line : Bytes) : ChatStatus × ParsedCmd :=
  match splitFirstToken line 16 with
  | none => (.errProtocol, .zeroed)
  | some (cmd, rest) => parseClientArgs cmd rest .zeroed

/-- `snprintf(buf, buflen, ...) >= (int)buflen ? CHAT_ERR : CHAT_OK`. -/
def buildLine (buflen : Nat) (text : Bytes) : ChatStatus × Bytes :=
  let (buf, n) := snprintf buflen text
  (if n ≥ buflen then .err else .ok, buf)

def protocolBuildClientAuth (buflen : Nat) (username password : Bytes) : ChatStatus × Bytes :=
  buildLine buflen (lit "AUTH " ++ username ++ lit " " ++ password ++ lit "\n")

def protocolBuildClientJoinRoom (buflen : Nat) (room : Bytes) : ChatStatus × Bytes :=
  buildLine buflen (lit "JOIN_ROOM " ++ room ++ lit "\n")

def protocolBuildClientMsg (buflen : Nat) (message : Bytes) : ChatStatus × Bytes :=
  buildLine buflen (lit "MSG " ++ message ++ lit "\n")

def protocolBuildClientPm (buflen : Nat) (target message : Bytes) : ChatStatus × Bytes :=
  buildLine buflen (lit "PM " ++ target ++ lit " " ++ message ++ lit "\n")

def protocolBuildClientList (buflen : Nat) : ChatStatus × Bytes := buildLine buflen (lit "LIST\n")

def protocolBuildClientHistory (buflen : Nat) : ChatStatus × Bytes := buildLine buflen (lit "HISTORY\n")

def protocolBuildClientKick (buflen : Nat) (username : Bytes) : ChatStatus × Bytes :=
  buildLine buflen (lit "KICK " ++ username ++ lit "\n")

def protocolBuildClientQuit (buflen : Nat) : ChatStatus × Bytes := buildLine buflen (lit "QUIT\n")

/-! ## Server lines -/

def parseServerArgs (cmd rest : Bytes) (out : ParsedResp) : ChatStatus × ParsedResp :=
  if cmd = lit "OK" then (.ok, { out with type := .ok, message := strncpy out.message rest (maxMsgLen - 1) })
  else if cmd = lit "ERR" then (.ok, { out with type := .err, message := strncpy out.message rest (maxMsgLen - 1) })
  else if cmd = lit "WELCOME" then
    (.ok, { out with type := .welcome, username := strncpy out.username rest (maxUsernameLen - 1) })
  else if cmd = lit "BROADCAST" then
    let (rc, u, ts, r, m) := parseFourFieldsRestMsg rest out.username maxUsernameLen out.timestamp timestampLen
      out.room maxRoomNameLen out.message maxMsgLen
    (rc, { out with type := .broadcast, username := u, timestamp := ts, room := r, message := m })
  else if cmd = lit "PM" then
    let (rc, u, ts, m) := parseThreeFieldsMsg rest out.fromUser maxUsernameLen out.timestamp timestampLen
      out.message maxMsgLen
    (rc, { out with type := .pm, fromUser := u, timestamp := ts, message := m })
  else if cmd = lit "USER_JOIN" then
    let (rc, u, r) := parseTwoFields rest out.username maxUsernameLen out.room maxRoomNameLen
    (rc, { out with type := .userJoin, username := u, room := r })
  else if cmd = lit "USER_LEFT" then
    let (rc, u, r) := parseTwoFields rest out.username maxUsernameLen out.room maxRoomNameLen
    (rc, { out with type := .userLeft, username := u, room := r })
  else if cmd = lit "ROOM_JOINED" then
    (.ok, { out with type := .roomJoined, room := strncpy out.room rest (maxRoomNameLen - 1) })
  else if cmd = lit "HISTORY" then
    (.ok, { out with type := .history, historyPayload := strncpy out.historyPayload rest (maxLineLen - 1) })
  else if cmd = lit "KICKED" then
    (.ok, { out with type := .kicked, message := strncpy out.message rest (maxMsgLen - 1) })
  else if cmd = lit "LIST" then
    (.ok, { out with type := .list, userList := strncpy out.userList rest (maxMsgLen - 1) })
  else (.errProtocol, { out with type := .unknown })

/-- The line is copied into a buffer of `MAX_LINE_LEN` bytes and trimmed there. -/
def protocolParseServerLine (line : Bytes) : ChatStatus × ParsedResp :=
  match splitFirstToken (trimNewline (line.take (maxLineLen - 1))) 16 with
  | none => (.errProtocol, .zeroed)
  | some (cmd, rest) => parseServerArgs cmd rest .zeroed

def protocolBuildServerOk (buflen : Nat) (msg : Bytes) : ChatStatus × Bytes :=
  buildLine buflen (lit "OK " ++ msg ++ lit "\n")

def protocolBuildServerErr (buflen : Nat) (msg : Bytes) : ChatStatus × Bytes :=
  buildLine buflen (lit "ERR " ++ msg ++ lit "\n")

def protocolBuildServerWelcome (buflen : Nat) (username : Bytes) : ChatStatus × Bytes :=
  buildLine buflen (lit "WELCOME " ++ username ++ lit "\n")

def protocolBuildServerBroadcast (buflen : Nat) (username timestamp room message : Bytes) : ChatStatus × Bytes :=
  buildLine buflen (lit "BROADCAST " ++ username ++ lit " " ++ timestamp ++ lit " " ++ room ++ lit " " ++
    message ++ lit "\n")

def protocolBuildServerPm (buflen : Nat) (fromUser timestamp message : Bytes) : ChatStatus × Bytes :=
  buildLine buflen (lit "PM " ++ fromUser ++ lit " " ++ timestamp ++ lit " " ++ message ++ lit "\n")

def protocolBuildServerUserJoin (buflen : Nat) (username room : Bytes) : ChatStatus × Bytes :=
  buildLine buflen (lit "USER_JOIN " ++ username ++ lit " " ++ room ++ lit "\n")

def protocolBuildServerUserLeft (buflen : Nat) (username room : Bytes) : ChatStatus × Bytes :=
  buildLine buflen (lit "USER_LEFT " ++ username ++ lit " " ++ room ++ lit "\n")

def protocolBuildServerRoomJoined (buflen : Nat) (room : Bytes) : ChatStatus × Bytes :=
  buildLine buflen (lit "ROOM_JOINED " ++ room ++ lit "\n")

def protocolBuildServerHistory (buflen : Nat) (payload : Bytes) : ChatStatus × Bytes :=
  buildLine buflen (lit "HISTORY " ++ payload ++ lit "\n")

def protocolBuildServerKicked (buflen : Nat) (reason : Bytes) : ChatStatus × Bytes :=
  buildLine buflen (lit "KICKED " ++ reason ++ lit "\n")

def protocolBuildServerList (buflen : Nat) (userList : Bytes) : ChatStatus × Bytes :=
  buildLine buflen (lit "LIST " ++ userList ++ lit "\n")

end ChatServer

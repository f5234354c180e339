import ChatServer.Common

/-!
# The event queue

`message_queue.c`, and the two places that fill an event on the stack. The
three fields of an event are copied into uninitialised memory, so what they
held before is a parameter.
-/

namespace ChatServer

open CStr

inductive MqEventType where
  | chat
  | join
  | leave
  | roomJoin
  | roomLeave
  | shutdown
  deriving DecidableEq, Repr

@[ext]
structure MqMessage where
  type : MqEventType
  username : Bytes
  room : Bytes
  content : Bytes
  timestamp : Int
  username_length : username.length = maxUsernameLen
  room_length : room.length = maxRoomNameLen
  content_length : content.length = maxMsgLen

instance : DecidableEq MqMessage := fun _ _ => decidable_of_iff' _ MqMessage.ext_iff

instance : Inhabited MqMessage where
  default :=
    { type := .chat, username := List.replicate maxUsernameLen 0, room := List.replicate maxRoomNameLen 0,
      content := List.replicate maxMsgLen 0, timestamp := 0, username_length := List.length_replicate,
      room_length := List.length_replicate, content_length := List.length_replicate }

structure MessageQueue where
  msgs : List MqMessage
  shutdown : Bool
  deriving DecidableEq

def mqInit : MessageQueue := { msgs := [], shutdown := false }

/-- `mq_push`; `node` says whether `malloc` returned one. -/
def mqPush (q : MessageQueue) (node : Bool) (msg : MqMessage) : ChatStatus × MessageQueue :=
  if !node then (.errNomem, q)
  else if q.shutdown then (.err, q)
  else (.ok, { q with msgs := q.msgs ++ [msg] })

/-- `mq_pop`; `none` while it waits for an event or the shutdown. -/
def mqPop (q : MessageQueue) : Option (ChatStatus × Option MqMessage × MessageQueue) :=
  match q.msgs with
  | msg :: rest => some (.ok, some msg, { q with msgs := rest })
  | [] => if q.shutdown then some (.err, none, q) else none

def mqSignalShutdown (q : MessageQueue) : MessageQueue := { q with shutdown := true }

/-- The event of `enqueue_room_event`, filled over what `evt` held. -/
def roomEvent (evt : MqMessage) (type : MqEventType) (username room : Bytes) (now : Int) : MqMessage :=
  { type := type, username := strncpy evt.username username (maxUsernameLen - 1),
    room := strncpy evt.room room (maxRoomNameLen - 1), content := setNul evt.content 0, timestamp := now,
    username_length := by rw [strncpy_length (by simp [evt.username_length]), evt.username_length]
    room_length := by rw [strncpy_length (by simp [evt.room_length]), evt.room_length]
    content_length := by rw [setNul_length, evt.content_length] }

def chatEvent (evt : MqMessage) (username room content : Bytes) (now : Int) : MqMessage :=
  { type := .chat, username := strncpy evt.username username (maxUsernameLen - 1),
    room := strncpy evt.room room (maxRoomNameLen - 1), content := strncpy evt.content content (maxMsgLen - 1),
    timestamp := now,
    username_length := by rw [strncpy_length (by simp [evt.username_length]), evt.username_length]
    room_length := by rw [strncpy_length (by simp [evt.room_length]), evt.room_length]
    content_length := by rw [strncpy_length (by simp [evt.content_length]), evt.content_length] }

/-! ## First in, first out -/

def mqPops : Nat → MessageQueue → List MqMessage
  | 0, _ => []
  | n + 1, q =>
    match mqPop q with
    | some (.ok, some msg, q') => msg :: mqPops n q'
    | _ => []

theorem mqPops_eq : ∀ (n : Nat) (q : MessageQueue), mqPops n q = q.msgs.take n
  | 0, q => by simp [mqPops]
  | n + 1, ⟨[], sd⟩ => by cases sd <;> rfl
  | n + 1, ⟨msg :: rest, sd⟩ => by
    rw [List.take_succ_cons, ← mqPops_eq n ⟨rest, sd⟩]; rfl

theorem mqPops_push {q : MessageQueue} {msg : MqMessage} (hq : q.shutdown = false) :
    mqPops (q.msgs.length + 1) (mqPush q true msg).2 = q.msgs ++ [msg] := by
  have hp : (mqPush q true msg).2.msgs = q.msgs ++ [msg] := by simp [mqPush, hq]
  rw [mqPops_eq, hp, List.take_of_length_le (by simp)]

end ChatServer

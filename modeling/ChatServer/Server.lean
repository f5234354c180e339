import ChatServer.Interleave
import ChatServer.Prog
import ChatServer.Queue
import ChatServer.Registry
import ChatServer.Rooms

/-!
# The shared state and the atomic actions

`chat_server_t` together with the descriptors that `accept` has handed out,
and the actions by which the threads work on it: a critical section of the
registry, the rooms, the queue or the connection counter, one system call on
a socket, or a read of memory that nobody has written. Whatever the platform
decides in an action is in `Env`. A signal that kills the process (`SIGPIPE`
among them) ends the run, so it needs no step.
-/

namespace ChatServer

open CStr

inductive Tid where
  | main
  | broadcaster
  | signal
  | handler (id : Nat)
  deriving DecidableEq

/-- An accepted connection that is not closed yet; sessions are numbered in the
order of their `accept`. -/
structure Conn where
  fd : Int
  id : Nat
  spawned : Bool
  deriving DecidableEq

structure Server where
  running : Bool
  listening : Bool
  activeConnections : Int
  registry : ClientRegistry
  queue : MessageQueue
  rooms : RoomManager
  auth : AuthDb
  conns : List Conn
  nextId : Nat
  -- History: the name with which the session's `AUTH` passed `auth_verify`.
  verified : Nat → Option Bytes
  -- History: the session that a registry node was allocated for.
  owner : Nat → Nat

inductive Act where
  | start
  | running
  | stop
  | recvLine (fd : Int)
  | send (fd : Int) (buf : Bytes) (sent : Nat)
  | shutdown (fd : Int)
  | close (fd : Int)
  | time
  | stackEvent
  | authVerify (username password : Bytes)
  | authIsAdmin (username : Bytes)
  | registryUsernameExists (username : Bytes)
  | registryAdd (fd : Int) (username room : Bytes) (isAdmin : Bool)
  | registryRemove (fd : Int)
  | registryGetUsername (fd : Int)
  | registryGetRoom (fd : Int)
  | registrySetRoom (fd : Int) (room : Bytes)
  | registryIsAdmin (fd : Int)
  | registryGetSockfdByUsername (username : Bytes)
  | registryCount
  | registryBuildUserList (buflen : Nat)
  | foreachFirst
  | foreachNext (cur : Nat)
  | roomHistoryAdd (room username content : Bytes) (ts : Int)
  | roomHistoryFormat (room : Bytes) (buflen : Nat)
  | mqPush (msg : MqMessage)
  | mqPop
  | mqSignalShutdown
  | accept
  | closeListen
  | connAtCapacity
  | connTrackIncrement
  | connTrackDecrement
  | mallocArg
  | spawn (fd : Int) (id : Nat)
  deriving DecidableEq

def Act.Ret : Act → Type
  | start => Int
  | running => Bool
  | recvLine _ => Option Bytes
  | send .. => Option Nat
  | time => Int
  | stackEvent => MqMessage
  | authVerify .. => ChatStatus
  | authIsAdmin _ => Bool
  | registryUsernameExists _ => Bool
  | registryAdd .. => ChatStatus
  | registryRemove _ => ChatStatus
  | registryGetUsername _ => ChatStatus × Bytes
  | registryGetRoom _ => ChatStatus × Bytes
  | registrySetRoom .. => ChatStatus
  | registryIsAdmin _ => Bool
  | registryGetSockfdByUsername _ => Int
  | registryCount => Nat
  | registryBuildUserList _ => ChatStatus × Bytes
  | foreachFirst => Option ClientNode
  | foreachNext _ => Option ClientNode
  | roomHistoryAdd .. => ChatStatus
  | roomHistoryFormat .. => ChatStatus × Bytes
  | mqPush _ => ChatStatus
  | mqPop => ChatStatus × Option MqMessage
  | accept => Option (Int × Nat)
  | connAtCapacity => Bool
  | mallocArg => Bool
  | spawn .. => Bool
  | _ => Unit

/-- What the platform decides in one action. -/
structure Env where
  -- the line `recv` delivers; `none` at the end of the stream or an error
  line : Option Bytes
  -- what `send` returns, retried while interrupted; `none` is an error
  sent : Option Nat
  -- the block for a registry node
  node : Option Fresh
  -- whether any other allocation succeeds
  malloc : Bool
  -- whether `pthread_create` succeeds
  thread : Bool
  -- whether the digest calls of OpenSSL succeed
  evp : Bool
  now : Int
  -- what the stack holds where an event is about to be built
  stack : MqMessage
  -- the descriptor `accept` returns
  fd : Option Int
  -- what a read through a dangling cursor finds
  dangling : Option ClientNode

/-- No string in uninitialised memory runs over the end of its field. -/
structure Env.Terminated (e : Env) : Prop where
  node : ∀ mem, e.node = some mem → mem.username[maxUsernameLen - 1]? = some 0 ∧ mem.room[maxRoomNameLen - 1]? = some 0
  username : e.stack.username[maxUsernameLen - 1]? = some 0
  room : e.stack.room[maxRoomNameLen - 1]? = some 0
  content : e.stack.content[maxMsgLen - 1]? = some 0

namespace Server

def holds (s : Server) (fd : Int) : Bool := s.conns.any fun c => c.fd == fd

end Server

def outString (r : ChatStatus × Bytes) : ChatStatus × Bytes := (r.1, cstr r.2)

/-- One action of thread `tid`; `none` where it waits, or where the platform
would break its word (a descriptor or a block that is in use). -/
def exec (P : Platform) (tid : Tid) : (a : Act) → Env → Server → Option (a.Ret × Server)
  | .start, _, s =>
    match s.conns.find? fun c => c.spawned && decide (tid = .handler c.id) with
    | none => none
    | some c => some (c.fd, s)
  | .running, _, s => some (s.running, s)
  | .stop, _, s => some ((), { s with running := false })
  | .recvLine _, e, s => some (e.line.map cstr, s)
  | .send fd buf sent, e, s => some (if s.holds fd then e.sent.map (min (buf.length - sent)) else none, s)
  | .shutdown _, _, s => some ((), s)
  | .close fd, _, s => some ((), { s with conns := s.conns.filter fun c => c.fd != fd })
  | .time, e, s => some (e.now, s)
  | .stackEvent, e, s => some (e.stack, s)
  | .authVerify username password, e, s =>
    let rc := authVerify P e.evp s.auth username password
    some (rc, match rc, tid with
      | .ok, .handler id => { s with verified := Function.update s.verified id (some username) }
      | _, _ => s)
  | .authIsAdmin username, _, s => some (authIsAdmin s.auth username, s)
  | .registryUsernameExists username, _, s => some (registryUsernameExists s.registry username, s)
  | .registryAdd fd username room isAdmin, e, s =>
    match e.node with
    | none => some ((registryAdd s.registry none fd username room isAdmin).1, s)
    | some mem =>
      if s.registry.nodes.any fun n => n.addr == mem.addr then none
      else
        let (rc, reg) := registryAdd s.registry (some mem) fd username room isAdmin
        some (rc, { s with
          registry := reg
          owner := match rc, tid with
            | .ok, .handler id => Function.update s.owner mem.addr id
            | _, _ => s.owner })
  | .registryRemove fd, _, s =>
    let (rc, reg) := registryRemove s.registry fd
    some (rc, { s with registry := reg })
  | .registryGetUsername fd, _, s =>
    some (outString (registryGetUsername s.registry fd (List.replicate maxUsernameLen 0) maxUsernameLen), s)
  | .registryGetRoom fd, _, s =>
    some (outString (registryGetRoom s.registry fd (List.replicate maxRoomNameLen 0) maxRoomNameLen), s)
  | .registrySetRoom fd room, _, s =>
    let (rc, reg) := registrySetRoom s.registry fd room
    some (rc, { s with registry := reg })
  | .registryIsAdmin fd, _, s => some (registryIsAdmin s.registry fd, s)
  | .registryGetSockfdByUsername username, _, s => some (registryGetSockfdByUsername s.registry username, s)
  | .registryCount, _, s => some (registryCount s.registry, s)
  | .registryBuildUserList buflen, _, s => some (registryBuildUserList s.registry buflen, s)
  | .foreachFirst, _, s => some (s.registry.nodes.head?, s)
  | .foreachNext cur, e, s =>
    some ((nodeAfter cur s.registry.nodes).getD e.dangling, s)
  | .roomHistoryAdd room username content ts, e, s =>
    let (rc, mgr) := roomHistoryAdd P s.rooms e.malloc room username content ts
    some (rc, { s with rooms := mgr })
  | .roomHistoryFormat room buflen, _, s => some (roomHistoryFormat s.rooms room buflen, s)
  | .mqPush msg, e, s =>
    let (rc, q) := mqPush s.queue e.malloc msg
    some (rc, { s with queue := q })
  | .mqPop, _, s =>
    match mqPop s.queue with
    | none => none
    | some (rc, msg, q) => some ((rc, msg), { s with queue := q })
  | .mqSignalShutdown, _, s => some ((), { s with queue := mqSignalShutdown s.queue })
  | .accept, e, s =>
    match e.fd with
    | none => some (none, s)
    | some fd =>
      if fd < 0 ∨ s.holds fd ∨ ¬ s.listening then none
      else
        some (some (fd, s.nextId),
          { s with conns := { fd := fd, id := s.nextId, spawned := false } :: s.conns, nextId := s.nextId + 1 })
  | .closeListen, _, s => some ((), { s with listening := false })
  | .connAtCapacity, _, s => some (decide (s.activeConnections ≥ maxClients), s)
  | .connTrackIncrement, _, s => some ((), { s with activeConnections := s.activeConnections + 1 })
  | .connTrackDecrement, _, s =>
    some ((), if s.activeConnections > 0 then { s with activeConnections := s.activeConnections - 1 } else s)
  | .mallocArg, e, s => some (e.malloc, s)
  | .spawn fd id, e, s =>
    if e.thread then
      some (true, { s with conns := s.conns.map fun c =>
        if c.fd = fd ∧ c.id = id then { c with spawned := true } else c })
    else some (false, s)

end ChatServer

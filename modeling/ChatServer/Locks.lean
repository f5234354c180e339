import ChatServer.Mutexes
import ChatServer.Threads

/-!
# The locks of the server

Every function that takes one of the five mutexes, down to its
`pthread_mutex_lock` and `pthread_mutex_unlock` on each of its paths, and the
threads of the server with each call carried out in these steps. The data that
a mutex guards is read by `load` and written by `store`; between two of them
everyone else may run.
-/

namespace ChatServer

open CStr Interleave

/-- `conn_lock`, `registry.lock`, `rooms.lock`, `auth.lock` and `broadcast_queue.lock`. -/
inductive Mutex where
  | conn
  | registry
  | rooms
  | auth
  | queue
  deriving DecidableEq

def Guarded : Mutex → Type
  | .conn => Int
  | .registry => ClientRegistry
  | .rooms => RoomManager
  | .auth => AuthDb
  | .queue => MessageQueue

namespace Server

def get (s : Server) : (m : Mutex) → Guarded m
  | .conn => s.activeConnections
  | .registry => s.registry
  | .rooms => s.rooms
  | .auth => s.auth
  | .queue => s.queue

def put (s : Server) : (m : Mutex) → Guarded m → Server
  | .conn, x => { s with activeConnections := x }
  | .registry, x => { s with registry := x }
  | .rooms, x => { s with rooms := x }
  | .auth, x => { s with auth := x }
  | .queue, x => { s with queue := x }

end Server

/-- What a thread does other than to lock and unlock. -/
inductive Access where
  | load (m : Mutex)
  | store (m : Mutex) (x : Guarded m)
  -- `cur->next`, through a cursor that may dangle
  | follow (cur : Nat)
  | malloc
  | mallocNode
  -- the digest calls of OpenSSL
  | evp
  | mutexInit (m : Mutex)
  | mutexDestroy (m : Mutex)
  | condSignal
  | condBroadcast
  | act (a : Act)

namespace Access

def Ret : Access → Type
  | load m => Guarded m
  | follow _ => Option ClientNode
  | malloc => Bool
  | mallocNode => Option Fresh
  | evp => Bool
  | mutexInit _ => Bool
  | act a => a.Ret
  | _ => Unit

def exec (P : Platform) (tid : Tid) : (a : Access) → Env → Server → Option (a.Ret × Server)
  | .load m, _, s => some (s.get m, s)
  | .store m x, _, s => some ((), s.put m x)
  | .follow cur, e, s => some ((nodeAfter cur s.registry.nodes).getD e.dangling, s)
  | .malloc, e, s => some (e.malloc, s)
  | .mallocNode, e, s =>
    match e.node with
    | none => some (none, s)
    | some mem => if s.registry.nodes.any fun n => n.addr == mem.addr then none else some (some mem, s)
  | .evp, e, s => some (e.evp, s)
  | .mutexInit _, e, s => some (e.malloc, s)
  | .mutexDestroy _, _, s => some ((), s)
  | .condSignal, _, s => some ((), s)
  | .condBroadcast, _, s => some ((), s)
  | .act a, e, s => ChatServer.exec P tid a e s

/-- Which mutex the thread may hold meanwhile: guarded data is touched under its
own, memory is allocated under any, and nothing else is done under one. -/
def May : Access → Option Mutex → Prop
  | .load m, v | .store m _, v => v = some m
  | .follow _, v => v = some .registry
  | .condSignal, v | .condBroadcast, v => v = some .queue
  | .malloc, _ | .mallocNode, _ | .evp, _ => True
  | .mutexInit _, v | .mutexDestroy _, v | .act _, v => v = none

end Access

abbrev Code := Mutexes.Code Mutex Access.Ret

namespace Locks

abbrev lock (m : Mutex) : Code Unit := .act (.lock m) .ret
abbrev unlock (m : Mutex) : Code Unit := .act (.unlock m) .ret
abbrev condWait (m : Mutex) : Code Unit := .act (.sleep m) fun _ => .act (.wake m) .ret
abbrev access (a : Access) : Code a.Ret := .act (.act a) .ret
abbrev load (m : Mutex) : Code (Guarded m) := access (.load m)
abbrev store (m : Mutex) (x : Guarded m) : Code Unit := access (.store m x)

/-- A critical section that only looks, with one way out. -/
def peek {α : Type} (m : Mutex) (f : Guarded m → α) : Code α := do
  lock m
  let x ← load m
  unlock m
  return f x

/-! ## `server.c` -/

def connTrackIncrement : Code Unit := do
  lock .conn
  let n : Int ← load .conn
  store .conn (n + 1)
  unlock .conn

def connTrackDecrement : Code Unit := do
  lock .conn
  let n : Int ← load .conn
  if n > 0 then
    store .conn (n - 1)
    unlock .conn
  else
    unlock .conn

def connAtCapacity : Code Bool := peek .conn fun n : Int => decide (n ≥ maxClients)

/-! ## `client_registry.c` -/

/-- `while (cur != NULL)`, left at the first node that passes the test. -/
def walk {α : Type} (test : ClientNode → Bool) (hit : ClientNode → Code α) (miss : Code α) : List ClientNode → Code α
  | [] => miss
  | cur :: rest => if test cur then hit cur else walk test hit miss rest

/-- The loop that appends items to a buffer, under the mutex. -/
def appendLoop (m : Mutex) (buflen : Nat) (sep : Bytes) : List Bytes → Bytes → Bool → Code (ChatStatus × Bytes)
  | [], buf, _ => do
    unlock m
    return (.ok, buf)
  | item :: items, buf, first =>
    let (text, written) := snprintf (buflen - buf.length) (if first then item else sep ++ item)
    if written ≥ buflen - buf.length then do
      unlock m
      return (.err, buf ++ text)
    else appendLoop m buflen sep items (buf ++ text) false

def registryDestroy : Code Unit := do
  lock .registry
  store .registry registryInit
  unlock .registry
  access (.mutexDestroy .registry)

/-- `registry_add` behind its `malloc`. -/
def addNode (sockfd : Int) (username room : Bytes) (isAdmin : Bool) (mem : Fresh) : Code ChatStatus := do
  lock .registry
  let reg : ClientRegistry ← load .registry
  if reg.count ≥ maxClients then
    unlock .registry
    return .errFull
  else
    walk (fun cur => streq cur.username username)
      (fun _ => do
        unlock .registry
        return .errDuplicate)
      (do
        store .registry (ChatServer.registryAdd reg (some mem) sockfd username room isAdmin).2
        unlock .registry
        return .ok)
      reg.nodes

def registryAdd (sockfd : Int) (username room : Bytes) (isAdmin : Bool) : Code ChatStatus := do
  match ← access .mallocNode with
  | none => return .errNomem
  | some mem => addNode sockfd username room isAdmin mem

def registryRemove (sockfd : Int) : Code ChatStatus := do
  lock .registry
  let reg : ClientRegistry ← load .registry
  walk (fun cur => cur.sockfd == sockfd)
    (fun _ => do
      store .registry (ChatServer.registryRemove reg sockfd).2
      unlock .registry
      return .ok)
    (do
      unlock .registry
      return .errNotFound)
    reg.nodes

def registryUsernameExists (username : Bytes) : Code Bool :=
  peek .registry fun reg => ChatServer.registryUsernameExists reg username

def getField (field : ClientNode → Bytes) (sockfd : Int) (buf : Bytes) (buflen : Nat) : Code (ChatStatus × Bytes) := do
  if buflen = 0 then return (.err, buf)
  else
    lock .registry
    let reg : ClientRegistry ← load .registry
    walk (fun cur => cur.sockfd == sockfd)
      (fun cur => do
        unlock .registry
        return (.ok, copyField (setNul buf 0) (field cur) buflen))
      (do
        unlock .registry
        return (.errNotFound, setNul buf 0))
      reg.nodes

def registryGetUsername (sockfd : Int) (buf : Bytes) (buflen : Nat) : Code (ChatStatus × Bytes) :=
  getField ClientNode.username sockfd buf buflen

def registryGetRoom (sockfd : Int) (buf : Bytes) (buflen : Nat) : Code (ChatStatus × Bytes) :=
  getField ClientNode.room sockfd buf buflen

def registrySetRoom (sockfd : Int) (room : Bytes) : Code ChatStatus := do
  lock .registry
  let reg : ClientRegistry ← load .registry
  walk (fun cur => cur.sockfd == sockfd)
    (fun _ => do
      store .registry (ChatServer.registrySetRoom reg sockfd room).2
      unlock .registry
      return .ok)
    (do
      unlock .registry
      return .errNotFound)
    reg.nodes

def registryIsAdmin (sockfd : Int) : Code Bool := peek .registry fun reg => ChatServer.registryIsAdmin reg sockfd

def registryGetSockfdByUsername (username : Bytes) : Code Int :=
  peek .registry fun reg => ChatServer.registryGetSockfdByUsername reg username

def registryCount : Code Nat := peek .registry ChatServer.registryCount

def registryBuildUserList (buflen : Nat) : Code (ChatStatus × Bytes) := do
  if buflen = 0 then return (.err, [])
  else
    lock .registry
    let reg : ClientRegistry ← load .registry
    appendLoop .registry buflen (lit ",") (reg.nodes.map ClientNode.usernameString) [] true

def registryBuildRoomUserList (room : Bytes) (buflen : Nat) : Code (ChatStatus × Bytes) := do
  if buflen = 0 then return (.err, [])
  else
    lock .registry
    let reg : ClientRegistry ← load .registry
    let here := reg.nodes.filter fun cur => cur.inRoom room
    appendLoop .registry buflen (lit ",") (here.map ClientNode.usernameString) [] true

/-- The control points of a walk with a callback; `look` is the head of its loop, under the lock. -/
inductive Visit where
  | enter
  | look (cur : Option ClientNode)
  | returned (rc : ChatStatus)

def foreachEnter : Code Visit := do
  lock .registry
  let reg : ClientRegistry ← load .registry
  return .look reg.nodes.head?

/-- The callback on a copy of the node, the lock being free, and on to `cur->next`. -/
def foreachCall (fn : ClientNode → Code ChatStatus) (cur : ClientNode) : Code Visit := do
  unlock .registry
  let rc ← fn cur
  if rc ≠ .ok then return .returned rc
  else
    lock .registry
    return .look (← access (.follow cur.addr))

def registryForeach (fn : ClientNode → Code ChatStatus) : Visit → Code Visit
  | .enter => foreachEnter
  | .look none => do
    unlock .registry
    return .returned .ok
  | .look (some cur) => foreachCall fn cur
  | .returned rc => return .returned rc

def registryForeachInRoom (room : Bytes) (fn : ClientNode → Code ChatStatus) : Visit → Code Visit
  | .enter => foreachEnter
  | .look none => do
    unlock .registry
    return .returned .ok
  | .look (some cur) =>
    if cur.inRoom room then foreachCall fn cur
    else do return .look (← access (.follow cur.addr))
  | .returned rc => return .returned rc

/-- `registry_foreach` up to its next callback. -/
def snapshot : Option ClientNode → Code (Option ClientNode)
  | none => do
    unlock .registry
    return none
  | some cur => do
    unlock .registry
    return some cur

def foreachFirst : Code (Option ClientNode) := do
  lock .registry
  let reg : ClientRegistry ← load .registry
  snapshot reg.nodes.head?

def foreachNext (cur : Nat) : Code (Option ClientNode) := do
  lock .registry
  snapshot (← access (.follow cur))

/-! ## `room_manager.c` -/

def roomManagerInit : Code ChatStatus := do
  if !(← access (.mutexInit .rooms)) then return .err
  else
    lock .rooms
    match roomFindOrCreate { rooms := [], roomCount := 0 } (← access .malloc) defaultRoom with
    | none =>
      unlock .rooms
      return .err
    | some (_, mgr) =>
      store .rooms mgr
      unlock .rooms
      return .ok

def roomManagerDestroy : Code Unit := do
  lock .rooms
  store .rooms { rooms := [], roomCount := 0 }
  unlock .rooms
  access (.mutexDestroy .rooms)

def roomHistoryAdd (P : Platform) (room username content : Bytes) (ts : Int) : Code ChatStatus := do
  lock .rooms
  let mgr : RoomManager ← load .rooms
  match roomFindOrCreate mgr (← access .malloc) room with
  | none =>
    unlock .rooms
    return .errFull
  | some (i, mgr) =>
    store .rooms { mgr with rooms := mgr.rooms.modify i fun rn =>
      { rn with history := rn.history.push (fillEntry P username content ts) } }
    unlock .rooms
    return .ok

def roomHistoryFormat (room : Bytes) (buflen : Nat) : Code (ChatStatus × Bytes) := do
  if buflen = 0 then return (.err, [])
  else
    lock .rooms
    let mgr : RoomManager ← load .rooms
    match mgr.rooms.find? fun cur => cur.named room with
    | none =>
      unlock .rooms
      return (.ok, [])
    | some cur => appendLoop .rooms buflen (lit "||") (cur.history.toList.map HistoryEntry.format) [] true

/-! ## `message_queue.c` -/

def mqDestroy : Code Unit := do
  lock .queue
  let q : MessageQueue ← load .queue
  store .queue { q with msgs := [] }
  unlock .queue
  access (.mutexDestroy .queue)

def mqPush (msg : MqMessage) : Code ChatStatus := do
  if !(← access .malloc) then return .errNomem
  else
    lock .queue
    let q : MessageQueue ← load .queue
    if q.shutdown then
      unlock .queue
      return .err
    else
      store .queue { q with msgs := q.msgs ++ [msg] }
      access .condSignal
      unlock .queue
      return .ok

/-- The loop of `mq_pop`, entered under the lock; `none` goes round again. -/
def mqPopLoop : Code (Option (ChatStatus × Option MqMessage)) := do
  let q : MessageQueue ← load .queue
  if q.msgs = [] ∧ q.shutdown = false then
    condWait .queue
    return none
  else
    match q.msgs with
    | [] =>
      unlock .queue
      return some (.err, none)
    | msg :: rest =>
      store .queue { q with msgs := rest }
      unlock .queue
      return some (.ok, some msg)

def mqSignalShutdown : Code Unit := do
  lock .queue
  let q : MessageQueue ← load .queue
  store .queue (ChatServer.mqSignalShutdown q)
  access .condBroadcast
  unlock .queue

/-! ## `auth.c` -/

def authDestroy : Code Unit := do
  lock .auth
  store .auth ([] : AuthDb)
  unlock .auth
  access (.mutexDestroy .auth)

def authVerify (P : Platform) (username password : Bytes) : Code ChatStatus := do
  match authHashPassword P (← access .evp) password with
  | none => return .err
  | some computed =>
    peek .auth fun db : AuthDb =>
      match db.find? fun cur => cur.username == username with
      | none => .errAuth
      | some cur => if cur.passwordHash == computed then .ok else .errAuth

def authIsAdmin (username : Bytes) : Code Bool := peek .auth fun db => ChatServer.authIsAdmin db username

end Locks

/-! ## The threads -/

/-- A thread between two calls, or at the head of the loop in its `mq_pop`. -/
inductive Site where
  | thread (t : Thread)
  | popping (k : ChatStatus × Option MqMessage → Thread)

namespace Site

def call (P : Platform) : (a : Act) → (a.Ret → Thread) → Code Site
  | .authVerify username password, k => do return .thread (k (← Locks.authVerify P username password))
  | .authIsAdmin username, k => do return .thread (k (← Locks.authIsAdmin username))
  | .registryUsernameExists username, k => do return .thread (k (← Locks.registryUsernameExists username))
  | .registryAdd fd username room isAdmin, k => do return .thread (k (← Locks.registryAdd fd username room isAdmin))
  | .registryRemove fd, k => do return .thread (k (← Locks.registryRemove fd))
  | .registryGetUsername fd, k => do
    return .thread (k (outString (← Locks.registryGetUsername fd (List.replicate maxUsernameLen 0) maxUsernameLen)))
  | .registryGetRoom fd, k => do
    return .thread (k (outString (← Locks.registryGetRoom fd (List.replicate maxRoomNameLen 0) maxRoomNameLen)))
  | .registrySetRoom fd room, k => do return .thread (k (← Locks.registrySetRoom fd room))
  | .registryIsAdmin fd, k => do return .thread (k (← Locks.registryIsAdmin fd))
  | .registryGetSockfdByUsername username, k => do return .thread (k (← Locks.registryGetSockfdByUsername username))
  | .registryCount, k => do return .thread (k (← Locks.registryCount))
  | .registryBuildUserList buflen, k => do return .thread (k (← Locks.registryBuildUserList buflen))
  | .foreachFirst, k => do return .thread (k (← Locks.foreachFirst))
  | .foreachNext cur, k => do return .thread (k (← Locks.foreachNext cur))
  | .roomHistoryAdd room username content ts, k => do
    return .thread (k (← Locks.roomHistoryAdd P room username content ts))
  | .roomHistoryFormat room buflen, k => do return .thread (k (← Locks.roomHistoryFormat room buflen))
  | .mqPush msg, k => do return .thread (k (← Locks.mqPush msg))
  | .mqPop, k => do
    Locks.lock .queue
    return .popping k
  | .mqSignalShutdown, k => do return .thread (k (← Locks.mqSignalShutdown))
  | .connAtCapacity, k => do return .thread (k (← Locks.connAtCapacity))
  | .connTrackIncrement, k => do return .thread (k (← Locks.connTrackIncrement))
  | .connTrackDecrement, k => do return .thread (k (← Locks.connTrackDecrement))
  | a, k => do return .thread (k (← Locks.access (.act a)))

def code (P : Platform) : Site → Code Site
  | .thread t =>
    match t.next P with
    | none => return .thread t
    | some ⟨a, k⟩ => call P a k
  | .popping k => do
    match ← Locks.mqPopLoop with
    | none => return .popping k
    | some r => return .thread (k r)

end Site

/-- The server at the level of its locks. -/
abbrev LockSystem := Mutexes.Threads Tid Mutex Server Site Access.Ret

def LockSystem.init (P : Platform) (db : AuthDb) : LockSystem :=
  { shared := { held := fun _ => none, data := serverInit db }, loc := fun tid => Site.code P (.thread (Thread.start tid)) }

abbrev LockSystem.Step (P : Platform) (ok : Env → Prop) : LockSystem → Label Tid (@Mutexes.Op.Ret Mutex Access Access.Ret) →
    LockSystem → Prop :=
  Interleave.Step (Mutexes.next (Site.code P)) (Mutexes.exec (Access.exec P)) ok

end ChatServer

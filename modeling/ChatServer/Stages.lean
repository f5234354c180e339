import ChatServer.SessionsSound

/-!
# How far each thread has come

A monitor of a thread's own actions. `Phase` refines what the thread knows
(`View`) by how far it has come with its connection, `Errand` is what it has
begun and must finish before anything else: a message that is stored and not
pushed yet, a line that is partly sent. `stageContract` says which actions a
stage permits.
-/

namespace ChatServer

open CStr Interleave

/-! ## Phases -/

inductive Phase where
  -- the accept loop
  | idle
  | accepted (fd : Int) (id : Nat)
  | refused (fd : Int) (id : Nat)
  | cleared (fd : Int) (id : Nat)
  | counted (fd : Int) (id : Nat)
  | dropped (id : Nat)
  | ending
  | casting
  -- a handler; `left` and `moved` lie between the two events of a room change
  | unborn
  | fresh (fd : Int)
  | checked (fd : Int) (username : Bytes)
  | entered (fd : Int) (username : Bytes)
  | present (fd : Int) (username room : Bytes)
  | left (fd : Int) (username room : Bytes)
  | moved (fd : Int) (username room : Bytes)
  | removed (fd : Int) (username : Bytes)
  | closed
  | ended

def RoomLike (room : Bytes) : Prop := 0 ∉ room ∧ room.length < maxRoomNameLen

def TextLike (content : Bytes) : Prop := 0 ∉ content ∧ 0 < content.length ∧ content.length < maxMsgLen

namespace Phase

def view : Phase → View
  | .idle | .dropped _ => .idle
  | .accepted fd id | .refused fd id | .cleared fd id | .counted fd id => .held fd id
  | .ending => .ending
  | .casting => .casting
  | .unborn => .unborn
  | .fresh fd => .fresh fd
  | .checked fd u | .removed fd u => .checked fd u
  | .entered fd u | .present fd u _ | .left fd u _ | .moved fd u _ => .online fd u
  | .closed | .ended => .gone

/-- The thread's own descriptor. -/
def fd : Phase → Int
  | .accepted fd _ | .refused fd _ | .cleared fd _ | .counted fd _ | .fresh fd => fd
  | .checked fd _ | .entered fd _ | .present fd .. | .left fd .. | .moved fd .. | .removed fd _ => fd
  | _ => -1

/-- The room in which the registry has the handler's node. -/
def seat : Phase → Option (Int × Bytes)
  | .entered fd _ => some (fd, defaultRoom)
  | .present fd _ room | .left fd _ room | .moved fd _ room => some (fd, room)
  | _ => none

def onStart (fd : Int) : Phase → Phase
  | .unborn => .fresh fd
  | p => p

def onRunning (running : Bool) : Phase → Phase
  | .idle => if running then .idle else .ending
  | p => p

def onAccept : Option (Int × Nat) → Phase → Phase
  | some (fd, id), .idle => .accepted fd id
  | _, p => p

def onCapacity (full : Bool) : Phase → Phase
  | .accepted fd id => if full then .refused fd id else .cleared fd id
  | p => p

def onIncrement : Phase → Phase
  | .cleared fd id => .counted fd id
  | p => p

def onSpawn (ok : Bool) : Phase → Phase
  | .counted fd id => if ok then .idle else .counted fd id
  | p => p

def onClose : Phase → Phase
  | .refused .. => .idle
  | .counted _ id => .dropped id
  | .fresh _ | .checked .. | .removed .. => .closed
  | p => p

def onDecrement : Phase → Phase
  | .dropped _ => .idle
  | .closed => .ended
  | p => p

def onVerify (username : Bytes) (rc : ChatStatus) : Phase → Phase
  | .fresh fd => if rc = .ok then .checked fd username else .fresh fd
  | p => p

def onAdd (rc : ChatStatus) : Phase → Phase
  | .checked fd u => if rc = .ok then .entered fd u else .checked fd u
  | p => p

def onRemove : Phase → Phase
  | .entered fd u | .left fd u _ => .removed fd u
  | p => p

def onSetRoom (room : Bytes) : Phase → Phase
  | .left fd u _ => .moved fd u room
  | p => p

def onPush (type : MqEventType) : Phase → Phase
  | .entered fd u => .present fd u defaultRoom
  | .moved fd u room => .present fd u room
  | .present fd u room => if type = .leave then .left fd u room else .present fd u room
  | p => p

def next (p : Phase) : (a : Act) → a.Ret → Phase
  | .start, (fd : Int) => p.onStart fd
  | .running, (running : Bool) => p.onRunning running
  | .accept, (r : Option (Int × Nat)) => p.onAccept r
  | .connAtCapacity, (full : Bool) => p.onCapacity full
  | .connTrackIncrement, _ => p.onIncrement
  | .spawn .., (ok : Bool) => p.onSpawn ok
  | .close _, _ => p.onClose
  | .connTrackDecrement, _ => p.onDecrement
  | .authVerify username _, (rc : ChatStatus) => p.onVerify username rc
  | .registryAdd .., (rc : ChatStatus) => p.onAdd rc
  | .registryRemove _, _ => p.onRemove
  | .registrySetRoom _ room, _ => p.onSetRoom room
  | .mqPush msg, _ => p.onPush msg.type
  | _, _ => p

def closes : Phase → Bool
  | .refused .. | .counted .. | .fresh _ | .checked .. | .removed .. => true
  | _ => false

/-- Which event the handler owes or may push. -/
def pushes (T : Prop) (msg : MqMessage) : Phase → Prop
  | .present _ _ room => msg.type = .chat ∨ (msg.type = .leave ∧ (T → cstr msg.room = room))
  | .entered .. => msg.type = .join ∧ (T → cstr msg.room = defaultRoom)
  | .moved _ _ room => msg.type = .join ∧ (T → cstr msg.room = room)
  | .ending => msg.type = .shutdown
  | _ => False

def IsBroadcast (buf : Bytes) : Prop := buf.take 10 = lit "BROADCAST "

instance (buf : Bytes) : Decidable (IsBroadcast buf) := inferInstanceAs (Decidable (_ = _))

def permits (T : Prop) (p : Phase) : Act → Prop
  | .send _ buf _ => p = .casting ∨ ¬ IsBroadcast buf
  | .accept => p = .idle
  | .connAtCapacity => ∃ fd id, p = .accepted fd id
  | .connTrackIncrement => ∃ fd id, p = .cleared fd id
  | .spawn fd id => p = .counted fd id
  | .close _ => p.closes = true
  | .connTrackDecrement => p = .closed ∨ ∃ id, p = .dropped id
  | .registryAdd fd username room _ => p = .checked fd username ∧ room = defaultRoom
  | .registryRemove _ => ∃ fd u, p = .entered fd u ∨ ∃ room, p = .left fd u room
  | .registrySetRoom _ room => RoomLike room ∧ ∃ fd u old, p = .left fd u old
  | .roomHistoryAdd room username content _ => RoomLike room ∧ TextLike content ∧ ∃ fd, p = .present fd username room
  | .roomHistoryFormat room _ => ∃ fd, p.seat = some (fd, room)
  | .mqPush msg => p.pushes T msg
  | _ => True

end Phase

/-! ## Errands -/

inductive Errand where
  | none
  -- a `MSG` line has been read
  | asked (content : Bytes)
  | stored (room username content : Bytes) (ts : Int)
  | ready (msg : MqMessage)
  | quoting (fd : Int) (line : Bytes)
  | sending (fd : Int) (buf : Bytes) (sent : Nat)

namespace Errand

def Open : Errand → Prop
  | .none | .asked _ => True
  | _ => False

def heard : Option Bytes → Errand
  | .none => .none
  | some line =>
    let (rc, cmd) := protocolParseClientLine line
    if rc = .ok ∧ cmd.cmd = .msg then .asked (cstr cmd.arg2) else .none

def sent (fd : Int) (buf : Bytes) (sent : Nat) : Option Nat → Errand
  | some n => if n ≠ 0 ∧ sent + n < buf.length then .sending fd buf (sent + n) else .none
  | .none => .none

def found (evt : MqMessage) : Errand → Errand
  | .stored room username content ts => .ready (chatEvent evt username room content ts)
  | q => q

def pushed : Errand → Errand
  | .ready _ => .none
  | q => q

def quoted (fd : Int) (r : ChatStatus × Bytes) (q : Errand) : Errand :=
  if r.1 = .ok ∧ (protocolBuildServerHistory maxLineLen r.2).1 = .ok then
    .quoting fd (protocolBuildServerHistory maxLineLen r.2).2
  else q

def next (fd : Int) (q : Errand) : (a : Act) → a.Ret → Errand
  | .recvLine _, (line : Option Bytes) => heard line
  | .send fd buf n, (r : Option Nat) => sent fd buf n r
  | .stackEvent, (evt : MqMessage) => q.found evt
  | .roomHistoryAdd room username content ts, _ => .stored room username content ts
  | .roomHistoryFormat .., (r : ChatStatus × Bytes) => q.quoted fd r
  | .mqPush _, _ => q.pushed
  | _, _ => q

def permits (q : Errand) : Act → Prop
  | .send fd buf sent => sent < buf.length ∧ (q = .sending fd buf sent ∨ sent = 0 ∧ (q.Open ∨ q = .quoting fd buf))
  | .stackEvent => q.Open ∨ ∃ room username content ts, q = .stored room username content ts
  | .roomHistoryAdd _ _ content _ => q = .asked content
  | .mqPush msg => if msg.type = .chat then q = .ready msg else q.Open
  | _ => q.Open

end Errand

/-! ## Stages -/

structure Stage where
  phase : Phase
  errand : Errand

namespace Stage

def start : Tid → Stage
  | .main => ⟨.idle, .none⟩
  | .broadcaster => ⟨.casting, .none⟩
  | .signal => ⟨.ending, .none⟩
  | .handler _ => ⟨.unborn, .none⟩

def next (σ : Stage) (a : Act) (r : a.Ret) : Stage := ⟨σ.phase.next a r, σ.errand.next σ.phase.fd a r⟩

structure permits (T : Prop) (σ : Stage) (a : Act) : Prop where
  allowed : allowed T a σ.phase.view
  phase : σ.phase.permits T a
  errand : σ.errand.permits a

structure Ending (evt : MqMessage) : Prop where
  username : evt.username[maxUsernameLen - 1]? = some 0
  room : evt.room[maxRoomNameLen - 1]? = some 0
  content : evt.content[maxMsgLen - 1]? = some 0

def tells (T : Prop) (σ : Stage) : (a : Act) → a.Ret → Prop
  | .registryGetUsername fd, r => ∀ u, σ.phase.view = .online fd u → r = (ChatStatus.ok, u)
  | .registryGetRoom fd, r => ∀ room, σ.phase.seat = some (fd, room) → r = (ChatStatus.ok, room) ∧ RoomLike room
  | .recvLine _, (r : Option Bytes) => ∀ line, r = some line → 0 ∉ line
  | .stackEvent, (evt : MqMessage) => T → Ending evt
  | _, _ => True

end Stage

def stageContract (T : Prop) : Prog.Contract Act.Ret Stage where
  pre a σ := σ.permits T a
  post a σ r σ' := σ' = σ.next a r ∧ σ.tells T a r

/-- The stage of a thread after the trace of a whole run. -/
abbrev stageOf (tr : List (Label Tid Act.Ret)) (tid : Tid) : Stage := monitor Stage.next tid (Stage.start tid) tr

theorem stageOf_own (tr : List (Label Tid Act.Ret)) (tid : Tid) (a : Act) (r : a.Ret) :
    stageOf (tr ++ [⟨tid, a, r⟩]) tid = (stageOf tr tid).next a r := monitor_own ..

theorem stageOf_other {tid : Tid} {l : Label Tid Act.Ret} (h : l.tid ≠ tid) (tr : List (Label Tid Act.Ret)) :
    stageOf (tr ++ [l]) tid = stageOf tr tid := monitor_other h ..

/-! ## What the thread may rely on -/

def Seated (s : Server) (fd : Int) (room : Bytes) : Prop :=
  RoomLike room ∧ ∀ n ∈ s.registry.nodes, n.sockfd = fd → cstr n.room = room

structure Relies (tid : Tid) (σ : Stage) (s : Server) : Prop where
  sat : Sat tid σ.phase.view s
  seat : ∀ fd room, σ.phase.seat = some (fd, room) → Seated s fd room

end ChatServer

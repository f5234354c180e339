import ChatServer.Agreement
import ChatServer.Locks

/-!
# One lock at a time

Each function of the server takes at most one mutex at a time and holds none
where it returns, whatever it reads meanwhile and on each of its paths. So do
the threads of the server, and no two of them can block each other.
-/

namespace ChatServer

open CStr Interleave Prog Mutexes

/-! ## What a function takes, it gives back -/

abbrev lockContract : Contract (@Op.Ret Mutex Access Access.Ret) (Option Mutex) := Mutexes.contract Access.May

/-- Started without a lock, the code takes one at a time and ends without. -/
def Balanced {α : Type} (p : Code α) : Prop := Meets lockContract (fun _ v => v = none) p none

namespace Locks

section
variable {α β : Type} {m : Mutex} {Q : α → Option Mutex → Prop}

theorem balanced_bind {p : Code β} {f : β → Code α} (hp : Balanced p) (hf : ∀ x, Meets lockContract Q (f x) none) :
    Meets lockContract Q (p >>= f) none := by
  refine Meets.bind (hp.mono fun x v hv => ?_)
  subst hv
  exact hf x

theorem peek_balanced (m : Mutex) (f : Guarded m → α) : Balanced (peek m f) :=
  meets_lock (meets_plain rfl fun _ => meets_unlock rfl)

/-- A way out: the lock is given back, and the call returns. -/
theorem leave_balanced (x : α) : Meets lockContract (fun _ v => v = none) (do unlock m; return x) (some m) :=
  meets_unlock rfl

/-- The way out of a call that has changed the data. -/
theorem store_balanced (y : Guarded m) (x : α) :
    Meets lockContract (fun _ v => v = none) (do store m y; unlock m; return x) (some m) :=
  meets_plain rfl fun _ => meets_unlock rfl

theorem walk_meets {test : ClientNode → Bool} {hit : ClientNode → Code α} {miss : Code α} {v : Option Mutex}
    (hhit : ∀ cur, Meets lockContract Q (hit cur) v) (hmiss : Meets lockContract Q miss v) :
    ∀ nodes, Meets lockContract Q (walk test hit miss nodes) v
  | [] => hmiss
  | cur :: rest => by
    unfold walk
    split
    · exact hhit cur
    · exact walk_meets hhit hmiss rest

theorem appendLoop_meets (buflen : Nat) (sep : Bytes) : ∀ (items : List Bytes) (buf : Bytes) (first : Bool),
    Meets lockContract (fun _ v => v = none) (appendLoop m buflen sep items buf first) (some m)
  | [], _, _ => leave_balanced _
  | item :: items, buf, first => by
    unfold appendLoop
    rcases snprintf (buflen - buf.length) (if first then item else sep ++ item) with ⟨text, written⟩
    simp only
    split
    · exact leave_balanced _
    · exact appendLoop_meets buflen sep items _ _

/-! ### `server.c` -/

theorem connTrackIncrement_balanced : Balanced connTrackIncrement :=
  meets_lock (meets_plain rfl fun _ => meets_plain rfl fun _ => meets_unlock rfl)

theorem connTrackDecrement_balanced : Balanced connTrackDecrement := by
  refine meets_lock (meets_plain rfl fun (n : Int) => ?_)
  show Meets _ _ (if n > 0 then _ else _) _
  split
  · exact meets_plain rfl fun _ => meets_unlock rfl
  · exact meets_unlock rfl

theorem connAtCapacity_balanced : Balanced connAtCapacity := peek_balanced _ _

/-! ### `client_registry.c` -/

theorem registryDestroy_balanced : Balanced registryDestroy :=
  meets_lock (meets_plain rfl fun _ => meets_unlock (meets_plain rfl fun _ => rfl))

theorem addNode_balanced (sockfd : Int) (username room : Bytes) (isAdmin : Bool) (mem : Fresh) :
    Balanced (addNode sockfd username room isAdmin mem) := by
  refine meets_lock (meets_plain rfl fun (reg : ClientRegistry) => ?_)
  show Meets _ _ (if reg.count ≥ maxClients then _ else _) _
  split
  · exact leave_balanced _
  · exact walk_meets (fun _ => leave_balanced _) (store_balanced _ _) _

theorem registryAdd_balanced (sockfd : Int) (username room : Bytes) (isAdmin : Bool) :
    Balanced (registryAdd sockfd username room isAdmin) := by
  refine meets_plain trivial fun (node : Option Fresh) => ?_
  cases node with
  | none => exact rfl
  | some mem => exact addNode_balanced sockfd username room isAdmin mem

theorem registryRemove_balanced (sockfd : Int) : Balanced (registryRemove sockfd) :=
  meets_lock (meets_plain rfl fun _ => walk_meets (fun _ => store_balanced _ _) (leave_balanced _) _)

theorem registryUsernameExists_balanced (username : Bytes) : Balanced (registryUsernameExists username) := peek_balanced _ _

/-- The check of the buffer's size comes before the lock. -/
theorem sized_balanced {buflen : Nat} {β : Type} {r : β} {c : Code β} (h : Balanced c) :
    Balanced (if buflen = 0 then pure r else c) := by
  split
  · exact rfl
  · exact h

theorem getField_balanced (field : ClientNode → Bytes) (sockfd : Int) (buf : Bytes) (buflen : Nat) :
    Balanced (getField field sockfd buf buflen) := by
  refine sized_balanced ?_
  exact meets_lock (meets_plain rfl fun _ => walk_meets (fun _ => leave_balanced _) (leave_balanced _) _)

theorem registrySetRoom_balanced (sockfd : Int) (room : Bytes) : Balanced (registrySetRoom sockfd room) :=
  meets_lock (meets_plain rfl fun _ => walk_meets (fun _ => store_balanced _ _) (leave_balanced _) _)

theorem registryIsAdmin_balanced (sockfd : Int) : Balanced (registryIsAdmin sockfd) := peek_balanced _ _

theorem registryGetSockfdByUsername_balanced (username : Bytes) : Balanced (registryGetSockfdByUsername username) :=
  peek_balanced _ _

theorem registryCount_balanced : Balanced registryCount := peek_balanced _ _

theorem registryBuildUserList_balanced (buflen : Nat) : Balanced (registryBuildUserList buflen) := by
  refine sized_balanced ?_
  exact meets_lock (meets_plain rfl fun _ => appendLoop_meets _ _ _ _ _)

theorem registryBuildRoomUserList_balanced (room : Bytes) (buflen : Nat) : Balanced (registryBuildRoomUserList room buflen) := by
  refine sized_balanced ?_
  exact meets_lock (meets_plain rfl fun _ => appendLoop_meets _ _ _ _ _)

/-- A walk holds the lock at the head of its loop, and nowhere else between its programs. -/
def Visit.At : Visit → Option Mutex → Prop
  | .look _, v => v = some .registry
  | .enter, v | .returned _, v => v = none

theorem foreachEnter_meets : Meets lockContract Visit.At foreachEnter none := meets_lock (meets_plain rfl fun _ => rfl)

/-- An error of the callback is returned with the lock free. -/
theorem foreachCall_meets {fn : ClientNode → Code ChatStatus} {cur : ClientNode} (hfn : Balanced (fn cur)) :
    Meets lockContract Visit.At (foreachCall fn cur) (some .registry) := by
  refine meets_unlock (balanced_bind (p := fn cur) hfn fun rc => ?_)
  split
  · exact rfl
  · exact meets_lock (meets_plain rfl fun _ => rfl)

theorem registryForeach_kept {fn : ClientNode → Code ChatStatus} (hfn : ∀ cur, Balanced (fn cur)) :
    Chart Access.May (registryForeach fn) Visit.At where
  meets p v hv := by
    cases p with
    | enter =>
      cases hv
      exact foreachEnter_meets
    | look cur =>
      cases hv
      cases cur with
      | none => exact meets_unlock rfl
      | some cur => exact foreachCall_meets (hfn cur)
    | returned rc => exact hv
  goes p m hm := by
    cases p with
    | look cur => cases cur <;> exact ⟨_, _, rfl⟩
    | enter | returned => cases hm

theorem registryForeachInRoom_kept (room : Bytes) {fn : ClientNode → Code ChatStatus} (hfn : ∀ cur, Balanced (fn cur)) :
    Chart Access.May (registryForeachInRoom room fn) Visit.At where
  meets p v hv := by
    cases p with
    | enter =>
      cases hv
      exact foreachEnter_meets
    | look cur =>
      cases hv
      cases cur with
      | none => exact meets_unlock rfl
      | some cur =>
        show Meets _ _ (if cur.inRoom room then foreachCall fn cur else _) _
        split
        · exact foreachCall_meets (hfn cur)
        · exact meets_plain rfl fun _ => rfl
    | returned rc => exact hv
  goes p m hm := by
    cases p with
    | look cur =>
      cases cur with
      | none => exact ⟨_, _, rfl⟩
      | some cur =>
        show ∃ o k, (if cur.inRoom room then foreachCall fn cur else _) = Prog.act o k
        split <;> exact ⟨_, _, rfl⟩
    | enter | returned => cases hm

theorem snapshot_meets (cur : Option ClientNode) :
    Meets lockContract (fun _ v => v = none) (snapshot cur) (some .registry) := by
  cases cur with
  | none => exact leave_balanced _
  | some cur => exact leave_balanced _

theorem foreachFirst_balanced : Balanced foreachFirst := meets_lock (meets_plain rfl fun _ => snapshot_meets _)

theorem foreachNext_balanced (cur : Nat) : Balanced (foreachNext cur) := meets_lock (meets_plain rfl fun _ => snapshot_meets _)

/-! ### `room_manager.c` -/

theorem roomManagerInit_balanced : Balanced roomManagerInit := by
  refine meets_plain rfl fun (made : Bool) => ?_
  cases made with
  | false => exact rfl
  | true =>
    refine meets_lock (meets_plain trivial fun (mem : Bool) => ?_)
    dsimp only [Prog.bind]
    split
    · exact leave_balanced _
    · exact store_balanced _ _

theorem roomManagerDestroy_balanced : Balanced roomManagerDestroy :=
  meets_lock (meets_plain rfl fun _ => meets_unlock (meets_plain rfl fun _ => rfl))

theorem roomHistoryAdd_balanced (P : Platform) (room username content : Bytes) (ts : Int) :
    Balanced (roomHistoryAdd P room username content ts) := by
  refine meets_lock (meets_plain rfl fun (mgr : RoomManager) => meets_plain trivial fun (mem : Bool) => ?_)
  dsimp only [Prog.bind]
  split
  · exact leave_balanced _
  · exact store_balanced _ _

theorem roomHistoryFormat_balanced (room : Bytes) (buflen : Nat) : Balanced (roomHistoryFormat room buflen) := by
  refine sized_balanced ?_
  refine meets_lock (meets_plain rfl fun (mgr : RoomManager) => ?_)
  dsimp only [Prog.bind]
  split
  · exact leave_balanced _
  · exact appendLoop_meets _ _ _ _ _

/-! ### `message_queue.c` -/

theorem mqDestroy_balanced : Balanced mqDestroy :=
  meets_lock (meets_plain rfl fun _ => meets_plain rfl fun _ => meets_unlock (meets_plain rfl fun _ => rfl))

theorem mqPush_balanced (msg : MqMessage) : Balanced (mqPush msg) := by
  refine meets_plain trivial fun (node : Bool) => ?_
  cases node with
  | false => exact rfl
  | true =>
    refine meets_lock (meets_plain rfl fun (q : MessageQueue) => ?_)
    show Meets _ _ (if q.shutdown then _ else _) _
    split
    · exact leave_balanced _
    · exact meets_plain rfl fun _ => meets_plain rfl fun _ => leave_balanced _

/-- The loop holds the lock when it goes round, and not when it is left. -/
theorem mqPopLoop_meets :
    Meets lockContract (fun r v => v = if r.isNone then some .queue else none) mqPopLoop (some .queue) := by
  refine meets_plain rfl fun (q : MessageQueue) => ?_
  dsimp only [Prog.bind]
  split
  · exact meets_sleep (meets_wake rfl)
  · split
    · exact meets_unlock rfl
    · exact meets_plain rfl fun _ => meets_unlock rfl

theorem mqSignalShutdown_balanced : Balanced mqSignalShutdown :=
  meets_lock (meets_plain rfl fun _ => meets_plain rfl fun _ => meets_plain rfl fun _ => meets_unlock rfl)

/-! ### `auth.c` -/

theorem authDestroy_balanced : Balanced authDestroy :=
  meets_lock (meets_plain rfl fun _ => meets_unlock (meets_plain rfl fun _ => rfl))

theorem authVerify_balanced (P : Platform) (username password : Bytes) : Balanced (authVerify P username password) := by
  refine meets_plain trivial fun (evp : Bool) => ?_
  dsimp only [Prog.bind]
  split
  · exact rfl
  · exact peek_balanced _ _

theorem authIsAdmin_balanced (username : Bytes) : Balanced (authIsAdmin username) := peek_balanced _ _

end

end Locks

/-! ## What a call does -/

/-- The history that the calls do not write. -/
def Server.unhistoric (s : Server) : Server := { s with verified := fun _ => none, owner := fun _ => 0 }

namespace Locks

section
variable {α : Type} {x : (a : Access) → Server → Option (a.Ret × Server)} {s : Server}

theorem walk_eq (test : ClientNode → Bool) (hit : ClientNode → Code α) (miss : Code α) :
    ∀ nodes, walk test hit miss nodes = (nodes.find? test).elim miss hit
  | [] => rfl
  | cur :: rest => by
    rw [walk, List.find?_cons]
    cases test cur with
    | true => rfl
    | false => exact walk_eq test hit miss rest

theorem alone_appendLoop (m : Mutex) (buflen : Nat) (sep : Bytes) : ∀ (items : List Bytes) (buf : Bytes) (first : Bool),
    alone x (appendLoop m buflen sep items buf first) s = some (appendJoined buflen sep items buf first, s)
  | [], _, _ => rfl
  | item :: items, buf, first => by
    unfold appendLoop appendJoined
    rcases snprintf (buflen - buf.length) (if first then item else sep ++ item) with ⟨text, written⟩
    simp only
    split
    · rfl
    · exact alone_appendLoop m buflen sep items _ _

end

section
variable (P : Platform) (tid : Tid) (e : Env) (s : Server)

/-- The code run from `s` with every mutex at hand. -/
abbrev run {α : Type} (p : Code α) : Option (α × Server) := alone (fun a s => Access.exec P tid a e s) p s

/-- What a call's code does, and then the thread's. -/
theorem run_then {α : Type} {p : Code α} {x : Option (α × Server)} (h : run P tid e s p = x) (k : α → Thread) :
    (run P tid e s (p >>= fun r => .ret (.thread (k r)))).map (fun q => (q.1, q.2.unhistoric)) =
      x.map fun q => (Site.thread (k q.1), q.2.unhistoric) := by
  unfold run at h ⊢
  rw [alone_bind, h]
  cases x <;> rfl

theorem run_access (a : Access) : run P tid e s (access a) = Access.exec P tid a e s := by
  show (Access.exec P tid a e s).bind _ = _
  cases Access.exec P tid a e s <;> rfl

theorem run_connTrackDecrement : run P tid e s connTrackDecrement =
    some ((), if s.activeConnections > 0 then { s with activeConnections := s.activeConnections - 1 } else s) := by
  show alone _ (if s.activeConnections > 0 then _ else _) s = _
  split
  · rfl
  · rfl

/-- `registry_add` behind its `malloc`. -/
theorem run_addNode (sockfd : Int) (username room : Bytes) (isAdmin : Bool) (mem : Fresh) :
    run P tid e s (addNode sockfd username room isAdmin mem) =
      some ((ChatServer.registryAdd s.registry (some mem) sockfd username room isAdmin).1,
        { s with registry := (ChatServer.registryAdd s.registry (some mem) sockfd username room isAdmin).2 }) := by
  show alone _ (if s.registry.count ≥ maxClients then _ else walk _ _ _ s.registry.nodes) s = _
  by_cases hfull : s.registry.count ≥ maxClients
  · rw [if_pos hfull, ChatServer.registryAdd]
    simp only [hfull, if_true]
    rfl
  · rw [if_neg hfull, walk_eq]
    cases hfind : s.registry.nodes.find? fun cur => streq cur.username username with
    | none =>
      have hany : (s.registry.nodes.any fun cur => streq cur.username username) = false := by
        rw [List.any_eq_false]
        exact fun cur hcur => by simpa using List.find?_eq_none.mp hfind cur hcur
      have hrc : (ChatServer.registryAdd s.registry (some mem) sockfd username room isAdmin).1 = .ok := by
        simp only [ChatServer.registryAdd, hfull, if_false, hany, Bool.false_eq_true]
      rw [hrc]
      rfl
    | some cur =>
      have hany : (s.registry.nodes.any fun cur => streq cur.username username) = true := by
        have htest := List.find?_some (p := fun cur : ClientNode => streq cur.username username) hfind
        exact List.any_eq_true.mpr ⟨cur, List.mem_of_find?_eq_some hfind, htest⟩
      simp only [ChatServer.registryAdd, hfull, if_false, hany, if_true]
      rfl

theorem run_registryAdd (sockfd : Int) (username room : Bytes) (isAdmin : Bool) :
    run P tid e s (registryAdd sockfd username room isAdmin) = (Access.exec P tid .mallocNode e s).bind fun q =>
      match (q.1 : Option Fresh) with
      | none => some (.errNomem, q.2)
      | some mem => run P tid e q.2 (addNode sockfd username room isAdmin mem) := by
  show (Access.exec P tid .mallocNode e s).bind _ = _
  refine congrArg _ (funext ?_)
  rintro ⟨node, s'⟩
  change Option Fresh at node
  cases node with
  | none => rfl
  | some mem => rfl

theorem registryRemove_absent {reg : ClientRegistry} {sockfd : Int}
    (h : (reg.nodes.find? fun cur => cur.sockfd == sockfd) = none) : ChatServer.registryRemove reg sockfd = (.errNotFound, reg) := by
  unfold ChatServer.registryRemove
  split
  · rfl
  · rename_i hfind
    rw [h] at hfind
    cases hfind

theorem registryRemove_found {reg : ClientRegistry} {sockfd : Int} {cur : ClientNode}
    (h : (reg.nodes.find? fun cur => cur.sockfd == sockfd) = some cur) : (ChatServer.registryRemove reg sockfd).1 = .ok := by
  unfold ChatServer.registryRemove
  split
  · rename_i hfind
    rw [h] at hfind
    cases hfind
  · rfl

theorem run_registryRemove (sockfd : Int) : run P tid e s (registryRemove sockfd) =
    some ((ChatServer.registryRemove s.registry sockfd).1,
      { s with registry := (ChatServer.registryRemove s.registry sockfd).2 }) := by
  show alone _ (walk _ _ _ s.registry.nodes) s = _
  rw [walk_eq]
  cases h : s.registry.nodes.find? fun cur => cur.sockfd == sockfd with
  | none =>
    rw [registryRemove_absent h]
    rfl
  | some cur =>
    rw [registryRemove_found h]
    rfl

theorem run_getField (field : ClientNode → Bytes) (sockfd : Int) (buf : Bytes) (buflen : Nat) :
    run P tid e s (getField field sockfd buf buflen) = some (ChatServer.getField field s.registry sockfd buf buflen, s) := by
  unfold ChatServer.getField getField
  split
  · rfl
  show alone _ (walk _ _ _ s.registry.nodes) s = _
  rw [walk_eq]
  cases s.registry.nodes.find? fun cur => cur.sockfd == sockfd with
  | none => rfl
  | some cur => rfl

theorem run_registrySetRoom (sockfd : Int) (room : Bytes) : run P tid e s (registrySetRoom sockfd room) =
    some ((ChatServer.registrySetRoom s.registry sockfd room).1,
      { s with registry := (ChatServer.registrySetRoom s.registry sockfd room).2 }) := by
  show alone _ (walk _ _ _ s.registry.nodes) s = _
  rw [walk_eq]
  cases h : s.registry.nodes.find? fun cur => cur.sockfd == sockfd with
  | none =>
    simp only [ChatServer.registrySetRoom, h]
    rfl
  | some cur =>
    have hrc : (ChatServer.registrySetRoom s.registry sockfd room).1 = .ok := by simp only [ChatServer.registrySetRoom, h]
    rw [hrc]
    rfl

theorem run_snapshot (cur : Option ClientNode) : run P tid e s (snapshot cur) = some (cur, s) := by
  cases cur with
  | none => rfl
  | some cur => rfl

theorem run_roomHistoryAdd (room username content : Bytes) (ts : Int) : run P tid e s (roomHistoryAdd P room username content ts) =
    some ((ChatServer.roomHistoryAdd P s.rooms e.malloc room username content ts).1,
      { s with rooms := (ChatServer.roomHistoryAdd P s.rooms e.malloc room username content ts).2 }) := by
  unfold ChatServer.roomHistoryAdd roomHistoryAdd
  cases hfound : roomFindOrCreate s.rooms e.malloc room with
  | none =>
    simp only [run, alone, Prog.bind, bind, Access.exec, Server.get, Option.bind, hfound]
    rfl
  | some q =>
    simp only [run, alone, Prog.bind, bind, Access.exec, Server.get, Option.bind, hfound]
    rfl

theorem run_registryBuildUserList (buflen : Nat) : run P tid e s (registryBuildUserList buflen) =
    some (ChatServer.registryBuildUserList s.registry buflen, s) := by
  unfold ChatServer.registryBuildUserList registryBuildUserList
  split
  · rfl
  · exact alone_appendLoop ..

theorem run_roomHistoryFormat (room : Bytes) (buflen : Nat) : run P tid e s (roomHistoryFormat room buflen) =
    some (ChatServer.roomHistoryFormat s.rooms room buflen, s) := by
  unfold ChatServer.roomHistoryFormat roomHistoryFormat
  split
  · rfl
  cases hfound : s.rooms.rooms.find? fun cur => cur.named room with
  | none =>
    simp only [run, alone, Prog.bind, bind, Access.exec, Server.get, Option.bind, hfound]
    rfl
  | some cur =>
    simp only [run, alone, Prog.bind, bind, Access.exec, Server.get, Option.bind, hfound]
    exact alone_appendLoop ..

theorem run_mqPush (msg : MqMessage) : run P tid e s (mqPush msg) =
    some ((ChatServer.mqPush s.queue e.malloc msg).1, { s with queue := (ChatServer.mqPush s.queue e.malloc msg).2 }) := by
  show alone _ (if !e.malloc then _ else _) s = _
  unfold ChatServer.mqPush
  split
  · rfl
  · show alone _ (if s.queue.shutdown then _ else _) s = _
    split
    · rfl
    · rfl

theorem run_authVerify (username password : Bytes) : run P tid e s (authVerify P username password) =
    some (ChatServer.authVerify P e.evp s.auth username password, s) := by
  unfold ChatServer.authVerify authVerify
  cases hhash : authHashPassword P e.evp password with
  | none =>
    simp only [run, alone, Prog.bind, bind, Access.exec, Option.bind, hhash]
    rfl
  | some computed =>
    simp only [run, alone, Prog.bind, bind, Access.exec, Option.bind, hhash]
    rfl

end

end Locks

/-- Run alone, a call does what its action does at once. -/
theorem run_call (P : Platform) (tid : Tid) (e : Env) (s : Server) {a : Act} (ha : a ≠ .mqPop) (k : a.Ret → Thread) :
    (Locks.run P tid e s (Site.call P a k)).map (fun q => (q.1, q.2.unhistoric)) =
      (exec P tid a e s).map fun q => (.thread (k q.1), q.2.unhistoric) := by
  cases a with
  | mqPop => exact absurd rfl ha
  | authVerify username password =>
    refine (Locks.run_then _ _ _ _ (Locks.run_authVerify ..) k).trans ?_
    simp only [exec, Option.map_some]
    split <;> rfl
  | connTrackDecrement => exact (Locks.run_then _ _ _ _ (Locks.run_connTrackDecrement ..) k).trans rfl
  | mqPush msg => exact (Locks.run_then _ _ _ _ (Locks.run_mqPush ..) k).trans rfl
  | registryAdd fd username room isAdmin =>
    refine (Locks.run_then P tid e s (Locks.run_registryAdd P tid e s fd username room isAdmin) k).trans ?_
    simp only [exec, Access.exec]
    cases he : e.node with
    | none => rfl
    | some mem =>
      by_cases hused : (s.registry.nodes.any fun n => n.addr == mem.addr) = true
      · simp only [if_pos hused]
        rfl
      · simp only [if_neg hused]
        show Option.map _ (Locks.run P tid e s (Locks.addNode fd username room isAdmin mem)) = _
        rw [Locks.run_addNode]
        rfl
  | registryRemove fd => exact (Locks.run_then _ _ _ _ (Locks.run_registryRemove ..) k).trans rfl
  | registryGetUsername fd | registryGetRoom fd =>
    exact (Locks.run_then _ _ _ _ (Locks.run_getField ..) fun r => k (outString r)).trans rfl
  | registrySetRoom fd room => exact (Locks.run_then _ _ _ _ (Locks.run_registrySetRoom ..) k).trans rfl
  | registryBuildUserList buflen => exact (Locks.run_then _ _ _ _ (Locks.run_registryBuildUserList ..) k).trans rfl
  | roomHistoryAdd room username content ts => exact (Locks.run_then _ _ _ _ (Locks.run_roomHistoryAdd ..) k).trans rfl
  | roomHistoryFormat room buflen => exact (Locks.run_then _ _ _ _ (Locks.run_roomHistoryFormat ..) k).trans rfl
  | foreachFirst => exact (Locks.run_then _ _ _ _ (Locks.run_snapshot ..) k).trans rfl
  | foreachNext cur => exact (Locks.run_then _ _ _ _ (Locks.run_snapshot ..) k).trans rfl
  | start => exact Locks.run_then _ _ _ _ (Locks.run_access P tid e s (.act .start)) k
  | accept => exact Locks.run_then _ _ _ _ (Locks.run_access P tid e s (.act .accept)) k
  | spawn fd id => exact Locks.run_then _ _ _ _ (Locks.run_access P tid e s (.act (.spawn fd id))) k
  | _ => rfl

/-- A round of the loop in `mq_pop`: it takes what the action takes, or goes to sleep. -/
theorem run_popping (P : Platform) (tid : Tid) (e : Env) (s : Server) (k : ChatStatus × Option MqMessage → Thread) :
    Locks.run P tid e s (Site.code P (.popping k)) =
      some ((mqPop s.queue).elim (.popping k, s) fun q => (.thread (k (q.1, q.2.1)), { s with queue := q.2.2 })) := by
  obtain ⟨running, listening, activeConnections, registry, ⟨msgs, shutdown⟩, rest⟩ := s
  cases msgs with
  | nil =>
    cases shutdown with
    | false => rfl
    | true => rfl
  | cons msg msgs => rfl

/-! ## The threads of the server -/

def Site.At : Site → Option Mutex → Prop
  | .thread _, v => v = none
  | .popping _, v => v = some .queue

theorem call_meets (P : Platform) (a : Act) (k : a.Ret → Thread) :
    Meets lockContract Site.At (Site.call P a k) none := by
  cases a with
  | authVerify username password => exact Locks.balanced_bind (Locks.authVerify_balanced P username password) fun _ => rfl
  | authIsAdmin username => exact Locks.balanced_bind (Locks.authIsAdmin_balanced username) fun _ => rfl
  | registryUsernameExists username =>
    exact Locks.balanced_bind (Locks.registryUsernameExists_balanced username) fun _ => rfl
  | registryAdd fd username room isAdmin =>
    exact Locks.balanced_bind (Locks.registryAdd_balanced fd username room isAdmin) fun _ => rfl
  | registryRemove fd => exact Locks.balanced_bind (Locks.registryRemove_balanced fd) fun _ => rfl
  | registryGetUsername fd | registryGetRoom fd => exact Locks.balanced_bind (Locks.getField_balanced _ fd _ _) fun _ => rfl
  | registrySetRoom fd room => exact Locks.balanced_bind (Locks.registrySetRoom_balanced fd room) fun _ => rfl
  | registryIsAdmin fd => exact Locks.balanced_bind (Locks.registryIsAdmin_balanced fd) fun _ => rfl
  | registryGetSockfdByUsername username =>
    exact Locks.balanced_bind (Locks.registryGetSockfdByUsername_balanced username) fun _ => rfl
  | registryCount => exact Locks.balanced_bind Locks.registryCount_balanced fun _ => rfl
  | registryBuildUserList buflen => exact Locks.balanced_bind (Locks.registryBuildUserList_balanced buflen) fun _ => rfl
  | foreachFirst => exact Locks.balanced_bind Locks.foreachFirst_balanced fun _ => rfl
  | foreachNext cur => exact Locks.balanced_bind (Locks.foreachNext_balanced cur) fun _ => rfl
  | roomHistoryAdd room username content ts =>
    exact Locks.balanced_bind (Locks.roomHistoryAdd_balanced P room username content ts) fun _ => rfl
  | roomHistoryFormat room buflen => exact Locks.balanced_bind (Locks.roomHistoryFormat_balanced room buflen) fun _ => rfl
  | mqPush msg => exact Locks.balanced_bind (Locks.mqPush_balanced msg) fun _ => rfl
  | mqPop => exact meets_lock rfl
  | mqSignalShutdown => exact Locks.balanced_bind Locks.mqSignalShutdown_balanced fun _ => rfl
  | connAtCapacity => exact Locks.balanced_bind Locks.connAtCapacity_balanced fun _ => rfl
  | connTrackIncrement => exact Locks.balanced_bind Locks.connTrackIncrement_balanced fun _ => rfl
  | connTrackDecrement => exact Locks.balanced_bind Locks.connTrackDecrement_balanced fun _ => rfl
  | _ => exact meets_plain rfl fun _ => rfl

theorem code_kept (P : Platform) : Chart Access.May (Site.code P) Site.At where
  meets p v hv := by
    cases p with
    | thread t =>
      cases hv
      cases hn : t.next P with
      | none =>
        simp only [Site.code, hn]
        exact rfl
      | some n =>
        simp only [Site.code, hn]
        exact call_meets P n.1 n.2
    | popping k =>
      cases hv
      refine Meets.bind (Locks.mqPopLoop_meets.mono fun r v hv => ?_)
      subst hv
      cases r with
      | none => exact rfl
      | some r => exact rfl
  goes p m hm := by
    cases p with
    | thread t => cases hm
    | popping k => exact ⟨_, _, rfl⟩

theorem init_disciplined (P : Platform) (db : AuthDb) :
    Disciplined Access.May Site.At (LockSystem.init P db) fun _ => none where
  loc tid := (code_kept P).meets (.thread (Thread.start tid)) none rfl
  held _ _ := iff_of_false nofun nofun
  rest _ _ _ := rfl

/-- The functions that take a mutex, those with a loop around a wait or a callback apart. -/
inductive IsCall (P : Platform) : {α : Type} → Code α → Prop
  | connTrackIncrement : IsCall P Locks.connTrackIncrement
  | connTrackDecrement : IsCall P Locks.connTrackDecrement
  | connAtCapacity : IsCall P Locks.connAtCapacity
  | registryDestroy : IsCall P Locks.registryDestroy
  | registryAdd (sockfd : Int) (username room : Bytes) (isAdmin : Bool) :
      IsCall P (Locks.registryAdd sockfd username room isAdmin)
  | registryRemove (sockfd : Int) : IsCall P (Locks.registryRemove sockfd)
  | registryUsernameExists (username : Bytes) : IsCall P (Locks.registryUsernameExists username)
  | registryGetUsername (sockfd : Int) (buf : Bytes) (buflen : Nat) : IsCall P (Locks.registryGetUsername sockfd buf buflen)
  | registryGetRoom (sockfd : Int) (buf : Bytes) (buflen : Nat) : IsCall P (Locks.registryGetRoom sockfd buf buflen)
  | registrySetRoom (sockfd : Int) (room : Bytes) : IsCall P (Locks.registrySetRoom sockfd room)
  | registryIsAdmin (sockfd : Int) : IsCall P (Locks.registryIsAdmin sockfd)
  | registryGetSockfdByUsername (username : Bytes) : IsCall P (Locks.registryGetSockfdByUsername username)
  | registryCount : IsCall P Locks.registryCount
  | registryBuildUserList (buflen : Nat) : IsCall P (Locks.registryBuildUserList buflen)
  | registryBuildRoomUserList (room : Bytes) (buflen : Nat) : IsCall P (Locks.registryBuildRoomUserList room buflen)
  | roomManagerInit : IsCall P Locks.roomManagerInit
  | roomManagerDestroy : IsCall P Locks.roomManagerDestroy
  | roomHistoryAdd (room username content : Bytes) (ts : Int) : IsCall P (Locks.roomHistoryAdd P room username content ts)
  | roomHistoryFormat (room : Bytes) (buflen : Nat) : IsCall P (Locks.roomHistoryFormat room buflen)
  | mqDestroy : IsCall P Locks.mqDestroy
  | mqPush (msg : MqMessage) : IsCall P (Locks.mqPush msg)
  | mqSignalShutdown : IsCall P Locks.mqSignalShutdown
  | authDestroy : IsCall P Locks.authDestroy
  | authVerify (username password : Bytes) : IsCall P (Locks.authVerify P username password)
  | authIsAdmin (username : Bytes) : IsCall P (Locks.authIsAdmin username)

theorem IsCall.balanced {P : Platform} {α : Type} {p : Code α} (h : IsCall P p) : Balanced p := by
  cases h with
  | connTrackIncrement => exact Locks.connTrackIncrement_balanced
  | connTrackDecrement => exact Locks.connTrackDecrement_balanced
  | connAtCapacity => exact Locks.connAtCapacity_balanced
  | registryDestroy => exact Locks.registryDestroy_balanced
  | registryAdd => exact Locks.registryAdd_balanced _ _ _ _
  | registryRemove => exact Locks.registryRemove_balanced _
  | registryUsernameExists => exact Locks.registryUsernameExists_balanced _
  | registryGetUsername | registryGetRoom => exact Locks.getField_balanced _ _ _ _
  | registrySetRoom => exact Locks.registrySetRoom_balanced _ _
  | registryIsAdmin => exact Locks.registryIsAdmin_balanced _
  | registryGetSockfdByUsername => exact Locks.registryGetSockfdByUsername_balanced _
  | registryCount => exact Locks.registryCount_balanced
  | registryBuildUserList => exact Locks.registryBuildUserList_balanced _
  | registryBuildRoomUserList => exact Locks.registryBuildRoomUserList_balanced _ _
  | roomManagerInit => exact Locks.roomManagerInit_balanced
  | roomManagerDestroy => exact Locks.roomManagerDestroy_balanced
  | roomHistoryAdd => exact Locks.roomHistoryAdd_balanced _ _ _ _ _
  | roomHistoryFormat => exact Locks.roomHistoryFormat_balanced _ _
  | mqDestroy => exact Locks.mqDestroy_balanced
  | mqPush => exact Locks.mqPush_balanced _
  | mqSignalShutdown => exact Locks.mqSignalShutdown_balanced
  | authDestroy => exact Locks.authDestroy_balanced
  | authVerify => exact Locks.authVerify_balanced _ _ _
  | authIsAdmin => exact Locks.authIsAdmin_balanced _

/-- No thread holds two mutexes or is about to misuse one. -/
structure LockSystem.Orderly (c : LockSystem) : Prop where
  one : ∀ {tid m n}, c.shared.held m = some tid → c.shared.held n = some tid → m = n
  lock : ∀ {tid m}, Wants c tid m → ∀ n, c.shared.held n ≠ some tid
  unlock : ∀ {tid m k}, c.loc tid = .act (.unlock m) k ∨ c.loc tid = .act (.sleep m) k → c.shared.held m = some tid
  -- a system call, `send` among them
  act : ∀ {tid a k}, c.loc tid = .act (.act (.act a)) k → ∀ n, c.shared.held n ≠ some tid
  load : ∀ {tid m k}, c.loc tid = .act (.act (.load m)) k → c.shared.held m = some tid
  store : ∀ {tid m x k}, c.loc tid = .act (.act (.store m x)) k → c.shared.held m = some tid

theorem orderly_of_disciplined {c : LockSystem} {v : Tid → Option Mutex} (h : Disciplined Access.May Site.At c v) :
    c.Orderly where
  one := h.one
  lock := h.wants
  unlock := by
    rintro tid m k (hloc | hloc)
    · exact (h.held m tid).mpr (h.fits hloc)
    · exact (h.held m tid).mpr (h.fits hloc)
  act := by
    intro tid a k hloc n
    have hv : v tid = none := h.fits hloc
    rw [ne_eq, h.held, hv]
    nofun
  load := fun hloc => (h.held _ _).mpr (h.fits hloc)
  store := fun hloc => (h.held _ _).mpr (h.fits hloc)

/-- **One lock at a time, and no deadlock.** In every run no thread holds two
of the mutexes, takes one that it has or gives back one that it has not, or
holds one while it sends; whoever holds one can go on, and no threads block
each other in a cycle. Every function returns with no mutex held. -/
theorem locks_disciplined {P : Platform} {ok : Env → Prop} {db : AuthDb}
    {tr : List (Label Tid (@Op.Ret Mutex Access Access.Ret))} {c : LockSystem}
    (hr : Run (LockSystem.Step P ok) (LockSystem.init P db) tr c) :
    c.Orderly ∧
    (∀ tid m, c.shared.held m = some tid → ∃ o k, c.loc tid = .act o k ∧ ∀ n, o ≠ .lock n ∧ o ≠ .wake n) ∧
    (∀ tid, ¬ Relation.TransGen (Awaits c) tid tid) ∧
    (∀ (α : Type) (p : Code α), IsCall P p → Balanced p) ∧
    (∀ fn, (∀ cur, Balanced (fn cur)) → Chart Access.May (Locks.registryForeach fn) Locks.Visit.At ∧
      ∀ room, Chart Access.May (Locks.registryForeachInRoom room fn) Locks.Visit.At) ∧
    Meets lockContract (fun r v => v = if r.isNone then some .queue else none) Locks.mqPopLoop (some .queue) := by
  obtain ⟨v, hv⟩ := (init_disciplined P db).run (code_kept P) hr
  refine ⟨orderly_of_disciplined hv, fun tid m => hv.proceeds, fun tid => hv.no_cycle, fun α p hp => hp.balanced,
    fun fn hfn => ⟨Locks.registryForeach_kept hfn, fun room => Locks.registryForeachInRoom_kept room hfn⟩, Locks.mqPopLoop_meets⟩

/-- `bob` says `hi` while the broadcaster looks for clients and `main` takes the next connection. -/
def threeBusy : List (Tid × Env) :=
  List.replicate 12 (.main, sunny "" 5 0) ++ List.replicate 44 (.handler 0, sunny "AUTH bob pass" 5 1) ++
    List.replicate 12 (.handler 0, sunny "MSG hi" 0 0) ++ List.replicate 6 (.broadcaster, sunny "" 0 0) ++
    List.replicate 3 (.main, sunny "" 6 0)

theorem terminated_threeBusy : ∀ p ∈ threeBusy, p.2.Terminated := by
  intro p hp
  simp only [threeBusy, List.mem_append, List.mem_replicate] at hp
  rcases hp with (((⟨-, rfl⟩ | ⟨-, rfl⟩) | ⟨-, rfl⟩) | ⟨-, rfl⟩) | ⟨-, rfl⟩ <;> exact sunny_terminated _ _ _

theorem locks_disciplined_accept : ∃ tr c, Run (LockSystem.Step passPlatform Env.Terminated) (LockSystem.init passPlatform passDb) tr c ∧
    (c.shared.held .conn = some .main ∧ c.shared.held .rooms = some (.handler 0) ∧ c.shared.held .registry = some .broadcaster) ∧
    ∀ tid m, c.shared.held m = some tid → ∃ o k, c.loc tid = .act o k ∧ ∀ n, o ≠ .lock n ∧ o ≠ .wake n := by
  have hsome : (schedule (Mutexes.next (Site.code passPlatform)) (Mutexes.exec (Access.exec passPlatform)) (LockSystem.init passPlatform passDb)
      threeBusy).any (fun q => decide (q.2.shared.held .conn = some .main ∧ q.2.shared.held .rooms = some (.handler 0) ∧
        q.2.shared.held .registry = some .broadcaster)) = true := by
    decide +kernel
  obtain ⟨⟨tr, c⟩, hs, hp⟩ := (Option.any_eq_true _ _).mp hsome
  have hr : Run (LockSystem.Step passPlatform Env.Terminated) (LockSystem.init passPlatform passDb) tr c :=
    run_of_schedule terminated_threeBusy hs
  exact ⟨tr, c, hr, of_decide_eq_true hp, (locks_disciplined hr).2.1⟩

end ChatServer

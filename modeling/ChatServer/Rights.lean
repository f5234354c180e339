import ChatServer.Delivery
import ChatServer.Identity
import ChatServer.Routine
import ChatServer.ThreadStages

/-!
# Admin rights

The flag of a registry node is what the database says of the name under which
the node's session logged in, so a command that asks the registry about its own
descriptor hears the database. A second contract, over the stage of the thread
and the name it looked up last, carries that through `AUTH` and `KICK`.
-/

namespace ChatServer

open CStr Interleave Prog

/-- The descriptor whose session an action ends. -/
def Act.kicksOut : Act → Option Int
  | .shutdown fd => some fd
  | .send fd buf _ => if IsKicked buf then some fd else none
  | _ => none

structure Granted (db : AuthDb) (s : Server) : Prop where
  auth : s.auth = db
  flags : ∀ n ∈ s.registry.nodes, n.isAdmin = authIsAdmin db n.name

/-- Where the thread stands, and the name it looked up last with its descriptor. -/
structure Knowing where
  stage : Stage
  looked : Option (Bytes × Int)

def lookup (looked : Option (Bytes × Int)) : (a : Act) → a.Ret → Option (Bytes × Int)
  | .registryGetSockfdByUsername username, (fd : Int) => if fd < 0 then looked else some (username, fd)
  | _, _ => looked

namespace Knowing

def MayKick (db : AuthDb) (v : Knowing) (fd : Int) : Prop :=
  ∃ own u t, v.stage.phase.view = .online own u ∧ authIsAdmin db u = true ∧ v.looked = some (t, fd) ∧ t ≠ u

def permits (db : AuthDb) (v : Knowing) : Act → Prop
  | .registryAdd _ u _ isAdmin => isAdmin = authIsAdmin db u
  | .shutdown fd => v.MayKick db fd
  | .send fd buf _ => IsKicked buf → v.MayKick db fd
  | _ => True

end Knowing

/-- What an answer tells of the database. -/
def hears (db : AuthDb) (σ : Stage) : (a : Act) → a.Ret → Prop
  | .authIsAdmin u, (r : Bool) => r = authIsAdmin db u
  | .registryIsAdmin fd, (r : Bool) => ∀ u, σ.phase.view = .online fd u → r = authIsAdmin db u
  | _, _ => True

def rightsContract (db : AuthDb) : Contract Act.Ret Knowing where
  pre a v := v.permits db a
  post a v r v' := v' = ⟨v.stage.next a r, lookup v.looked a r⟩ ∧ v.stage.tells True a r ∧ hears db v.stage a r

/-! ## Commands -/

abbrev Lawful {α : Type} (db : AuthDb) (p : Cmd α) (v : Knowing) : Prop := Meets (rightsContract db) (fun _ _ => True) p v

/-- Issued by anyone, whatever they know. -/
def Harmless : Act → Prop
  | .registryAdd .. | .shutdown _ => False
  | .send _ buf _ => ¬ IsKicked buf
  | _ => True

section
variable {db : AuthDb} {v : Knowing} {fd : Int} {α : Type}

theorem Routine.harmless {a : Act} (h : Routine a) : Harmless a := by
  cases a with
  | registryAdd | shutdown => cases h
  | send => exact h.notKicked
  | _ => trivial

theorem Harmless.permits {a : Act} (h : Harmless a) (v : Knowing) : v.permits db a := by
  cases a with
  | registryAdd | shutdown => cases h
  | send => exact fun hk => absurd hk h
  | _ => trivial

theorem lawful_of_harmless {p : Cmd α} (hp : Only Harmless p) (v : Knowing) : Lawful db p v :=
  hp.meets fun _ v ha => ha.permits v

theorem lawful_of_everyday {p : Cmd α} (hp : Only Everyday p) (v : Knowing) : Lawful db p v :=
  lawful_of_harmless (hp.mono fun _ h => h.routine.harmless) v

theorem not_isKicked {c : UInt8} {rest : Bytes} (hc : c ≠ 75) : ¬ IsKicked (c :: rest) := by
  intro h
  have hhead : c :: rest.take 6 = 75 :: lit "ICKED " := h
  exact hc (List.cons.inj hhead).1

theorem welcome_harmless (u : Bytes) (sent : Nat) : Harmless (.send fd (protocolBuildServerWelcome maxLineLen u).2 sent) := by
  simp only [protocolBuildServerWelcome, List.append_assoc]
  exact not_isKicked (c := 87) (by decide)

theorem roomJoined_harmless (room : Bytes) (sent : Nat) :
    Harmless (.send fd (protocolBuildServerRoomJoined maxLineLen room).2 sent) := by
  simp only [protocolBuildServerRoomJoined, List.append_assoc]
  exact not_isKicked (c := 82) (by decide)

theorem refused_lawful {rc : ChatStatus} (msg : String) (v : Knowing) :
    Lawful db (respondErr fd msg >>= fun _ => pure rc) v :=
  lawful_of_everyday (Only.bind (fun _ => only_ret _) (respondErr_only fd msg)) v

theorem roomHistory_harmless (room : Bytes) : Only Harmless (roomHistorySendToClient room fd cmdSendResponse) :=
  (history_only fd room).mono fun _ h => h.routine.harmless

theorem enqueueRoomEvent_harmless (type : MqEventType) (u room : Bytes) : Only Harmless (enqueueRoomEvent type u room) :=
  event_only (fun _ h => h.routine.harmless) (fun _ => trivial) ..

/-- `AUTH` passes on what the database said. -/
theorem cmdHandleAuth_lawful (u password : Bytes) : Lawful db (cmdHandleAuth fd u password) v := by
  unfold cmdHandleAuth
  split
  · exact refused_lawful _ v
  refine meets_op trivial ?_
  rintro (rc : ChatStatus) v₁ -
  split
  · exact refused_lawful _ v₁
  refine meets_op trivial ?_
  rintro (online : Bool) v₂ -
  split
  · exact refused_lawful _ v₂
  refine meets_op trivial ?_
  rintro (admin : Bool) v₃ ⟨-, -, hadmin⟩
  refine meets_op hadmin ?_
  rintro (rc : ChatStatus) v₄ -
  split
  · exact refused_lawful _ v₄
  refine lawful_of_harmless (Only.bind (fun rc => ?_) (sendAll_only (welcome_harmless u))) v₄
  split
  · exact only_act trivial fun _ => trivial
  refine Only.bind (fun _ => ?_) (sendAll_only (roomJoined_harmless _))
  refine Only.bind (fun _ => ?_) (roomHistory_harmless _)
  refine Only.bind (fun _ => ?_) ((respondOk_only fd _).mono fun _ h => h.routine.harmless)
  exact Only.bind (fun _ => only_ret _) (enqueueRoomEvent_harmless ..)

theorem Knowing.MayKick.sent {fd : Int} (h : v.MayKick db fd) (fd' : Int) (buf : Bytes) (sent : Nat) (r : Option Nat) :
    Knowing.MayKick db ⟨v.stage.next (.send fd' buf sent) r, lookup v.looked (.send fd' buf sent) r⟩ fd := h

theorem sendLoop_kicks (buf : Bytes) : ∀ (fuel sent : Nat) (v : Knowing), v.MayKick db fd →
    Meets (rightsContract db) (fun _ v => v.MayKick db fd) (sendLoop fd buf fuel sent) v
  | 0, _, _, h => h
  | fuel + 1, sent, v, h => by
    unfold sendLoop
    split
    · exact h
    refine meets_op (fun _ => h) ?_
    rintro (r : Option Nat) v' ⟨rfl, -⟩
    have h' := h.sent fd buf sent r
    cases r with
    | none => exact h'
    | some n =>
      cases n with
      | zero => exact h'
      | succ n => exact sendLoop_kicks buf fuel (sent + (n + 1)) _ h'

/-- `KICK` goes on only when the registry, and so the database, calls its session an admin. -/
theorem cmdHandleKick_lawful {p : Phase} {q : Errand} {u : Bytes} (hv : p.view = .online fd u)
    (looked : Option (Bytes × Int)) (target : Bytes) : Lawful db (cmdHandleKick fd target) ⟨⟨p, q⟩, looked⟩ := by
  unfold cmdHandleKick
  refine meets_op trivial ?_
  rintro (admin : Bool) v₁ ⟨rfl, -, hheard⟩
  have hadmin : admin = authIsAdmin db u := hheard u hv
  cases admin with
  | false => exact lawful_of_everyday (respondErr_only fd _) _
  | true =>
    show Lawful db (if target = [] then respondErr fd "username required" else _) _
    split
    · exact lawful_of_everyday (respondErr_only fd _) _
    refine meets_op trivial ?_
    rintro ⟨rc, name⟩ v₂ ⟨rfl, hname, -⟩
    obtain ⟨rfl, rfl⟩ := Prod.mk.inj (hname u hv)
    show Lawful db (if ChatStatus.ok = .ok ∧ name = target then _ else _) _
    split
    · exact lawful_of_everyday (respondErr_only fd _) _
    rename_i hself
    have hne : target ≠ name := fun h => hself ⟨rfl, h.symm⟩
    refine meets_op trivial ?_
    rintro (targetFd : Int) v₃ ⟨rfl, -⟩
    split
    · exact lawful_of_everyday (respondErr_only fd _) _
    rename_i hfd
    have hmay : Knowing.MayKick db ⟨⟨p, q⟩, lookup looked (.registryGetSockfdByUsername target) targetFd⟩ targetFd :=
      ⟨fd, name, target, hv, hadmin.symm, if_neg hfd, hne⟩
    refine Meets.bind ((sendLoop_kicks _ _ 0 _ hmay).mono fun _ v₄ hmay => ?_)
    refine meets_op hmay fun _ v₅ _ => ?_
    exact lawful_of_everyday (respondOk_only fd _) v₅

theorem cmdHandleJoinRoom_harmless (room : Bytes) : Only Harmless (cmdHandleJoinRoom fd room) :=
  cmdHandleJoinRoom_only (fun _ h => h.routine.harmless) (fun _ => trivial) trivial (roomJoined_harmless room)

theorem disconnectClient_harmless (username : Bytes) (authenticated : Bool) :
    Only Harmless (disconnectClient fd username authenticated) :=
  Only.bind (fun _ => only_act trivial fun _ => only_ret _)
    (cmdDisconnectClient_only (fun _ h => h.routine.harmless) (fun _ => trivial) trivial trivial ..)

end

/-! ## Threads -/

namespace Handler

def Rights (db : AuthDb) (σ : Stage) (h : Handler) : Prop :=
  match h.point with
  | .busy _ p => Lawful db p ⟨σ, h.target⟩
  | _ => True

section
variable {db : AuthDb} {h : Handler} {σ : Stage}

theorem note_lookup (h : Handler) (a : Act) (r : a.Ret) : h.note a r = { h with target := lookup h.target a r } := by
  cases a with
  | registryGetSockfdByUsername username =>
    change Int at r
    show h.aim username r = { h with target := if r < 0 then h.target else some (username, r) }
    unfold aim
    split
    · rfl
    · rfl
  | _ => rfl

theorem leave_rights : h.leave.Rights db σ := lawful_of_harmless (disconnectClient_harmless ..) _

theorem enter_rights (cont : Cont) : ∀ {p : Cmd ChatStatus}, Lawful db p ⟨σ, h.target⟩ → (h.enter cont p).Rights db σ
  | .act _ _, hp => hp
  | .ret rc, _ => by
    cases cont with
    | leave => trivial
    | command =>
      show (if rc ≠ .ok then h.leave else { h with point := .top }).Rights db σ
      split
      · exact leave_rights
      · trivial
    | auth u =>
      show (if rc ≠ .ok then h.leave else _).Rights db σ
      split
      · exact leave_rights
      · trivial

theorem dispatch_rights (P : Platform) (line : Bytes) (hh : h.Home σ) : (h.dispatch P line).Rights db σ := by
  have routine : ∀ {x : Cmd ChatStatus}, Only Everyday x → (h.enter .command x).Rights db σ :=
    fun hx => enter_rights _ (lawful_of_everyday hx _)
  have refused : ∀ msg, (h.refuse msg).Rights db σ := fun msg => routine (respondErr_only h.fd msg)
  obtain ⟨p, q⟩ := σ
  unfold dispatch
  rcases protocolParseClientLine line with ⟨rc, cmd⟩
  simp only
  split
  · exact refused _
  split
  · split
    · exact refused _
    · exact enter_rights _ (cmdHandleAuth_lawful _ _)
  rename_i hauth
  have ha : h.authenticated = true := by simpa using hauth
  have hp := hh.1
  rw [if_pos ha] at hp
  obtain ⟨room, hphase⟩ := hp
  have hview : p.view = .online h.fd h.username := congrArg Phase.view hphase
  split
  · exact enter_rights _ (lawful_of_harmless (cmdHandleJoinRoom_harmless _) _)
  · exact routine (cmdHandleMsg_only h.fd _)
  · exact routine (cmdHandlePm_only h.fd P _ _)
  · exact routine (cmdHandleList_only h.fd)
  · exact routine (cmdHandleHistory_only h.fd)
  · exact enter_rights _ (cmdHandleKick_lawful hview _ _)
  · exact leave_rights
  · exact refused _

theorem rights_next {P : Platform} (hat : h.At True σ) (hrights : h.Rights db σ) {a : Act} {k : a.Ret → Handler}
    (hn : h.next P = some ⟨a, k⟩) : Knowing.permits db ⟨σ, h.target⟩ a ∧
      ∀ r, σ.tells True a r → hears db σ a r → (k r).Rights db (σ.next a r) := by
  obtain ⟨-, hp⟩ := hat
  unfold next at hn
  unfold Rights at hrights
  cases hpoint : h.point with
  | unborn =>
    rw [hpoint] at hn
    cases hn
    exact ⟨trivial, fun _ _ _ => trivial⟩
  | top =>
    rw [hpoint] at hn
    cases hn
    refine ⟨trivial, fun (running : Bool) _ _ => ?_⟩
    cases running with
    | true => trivial
    | false => exact leave_rights
  | reading =>
    rw [hpoint] at hn hp
    cases hn
    refine ⟨trivial, fun (line : Option Bytes) _ _ => ?_⟩
    cases line with
    | none => exact leave_rights
    | some line => exact dispatch_rights (h := { h with target := none }) P line ⟨hp.1, heard_open (some line)⟩
  | done => rw [hpoint] at hn; cases hn
  | busy cont p =>
    cases p with
    | ret => rw [hpoint] at hn; cases hn
    | act b kb =>
      rw [hpoint] at hn hrights
      cases hn
      obtain ⟨hpermits, hk⟩ := hrights
      refine ⟨hpermits, fun r ht hh => ?_⟩
      show Rights db _ ((h.note a r).enter cont (kb r))
      rw [note_lookup]
      exact enter_rights (h := { h with target := lookup h.target a r }) cont (hk r _ ⟨rfl, ht, hh⟩)

end
end Handler

namespace Acceptor

def Rights : Acceptor → Prop
  | .serving p | .closing p => Only Harmless p
  | _ => True

theorem serveConnection_harmless (fd : Int) (id : Nat) : Only Harmless (serveConnection fd id) := by
  have hclose : Only Harmless (Sys.close fd) := ⟨trivial, fun _ => trivial⟩
  have hdrop : Only Harmless (do Sys.close fd; Sys.connTrackDecrement) := only_act trivial fun _ => ⟨trivial, fun _ => trivial⟩
  unfold serveConnection
  refine only_act trivial fun (full : Bool) => ?_
  cases full with
  | true => exact Only.bind (fun _ => hclose) (sendAll_only fun _ => (err_routine _).notKicked)
  | false =>
    refine ⟨trivial, fun _ => only_act trivial fun (mem : Bool) => ?_⟩
    split
    · exact hdrop
    refine only_act trivial fun (ok : Bool) => ?_
    split
    · exact hdrop
    · trivial

theorem serverShutdown_harmless : Only Harmless serverShutdown :=
  only_act trivial fun _ => only_act trivial fun _ => only_act trivial fun _ => only_act trivial fun _ => ⟨trivial, fun _ => trivial⟩

theorem serve_rights : ∀ {p : Cmd Unit}, Only Harmless p → (serve p).Rights
  | .ret _, _ => trivial
  | .act _ _, hp => hp

theorem close_rights : ∀ {p : Cmd Unit}, Only Harmless p → (close p).Rights
  | .ret _, _ => trivial
  | .act _ _, hp => hp

theorem rights_next {t : Acceptor} (ht : t.Rights) {a : Act} {k : a.Ret → Acceptor} (hn : t.next = some ⟨a, k⟩) :
    Harmless a ∧ ∀ r, (k r).Rights := by
  cases t with
  | top =>
    cases hn
    refine ⟨trivial, fun (running : Bool) => ?_⟩
    cases running with
    | true => trivial
    | false => exact close_rights serverShutdown_harmless
  | accepting =>
    cases hn
    refine ⟨trivial, fun (r : Option (Int × Nat)) => ?_⟩
    cases r with
    | none => trivial
    | some r => exact serve_rights (serveConnection_harmless r.1 r.2)
  | serving p =>
    cases p with
    | ret => cases hn
    | act => cases hn; exact ⟨ht.1, fun r => serve_rights (ht.2 r)⟩
  | closing p =>
    cases p with
    | ret => cases hn
    | act => cases hn; exact ⟨ht.1, fun r => close_rights (ht.2 r)⟩
  | done => cases hn

end Acceptor

namespace Broadcaster

def Rights : Broadcaster → Prop
  | .first _ line | .stepping _ line _ => Routine.Line line
  | .sending _ line _ p => Routine.Line line ∧ Only Routine p
  | _ => True

section
variable {P : Platform} {room line : Bytes}

theorem sendToClient_only (hl : Routine.Line line) (node : ClientNode) : Only Routine (sendToClient room line node) := by
  unfold sendToClient
  split
  · trivial
  refine Only.bind (fun rc => ?_) (sendAll_only fun _ => hl)
  split
  · trivial
  · trivial

theorem afterCallback_rights {cur : Nat} (hl : Routine.Line line) : ∀ {p : Cmd ChatStatus}, Only Routine p →
    (afterCallback room line cur p).Rights
  | .ret rc, _ => by
    show Rights (if rc ≠ .ok then .top else .stepping room line cur)
    split
    · trivial
    · exact hl
  | .act _ _, hp => ⟨hl, hp⟩

theorem visit_rights (hl : Routine.Line line) : ∀ node, (visit room line node).Rights
  | none => trivial
  | some node => afterCallback_rights hl (sendToClient_only hl node)

theorem onEvent_rights (msg : MqMessage) : (onEvent P msg).Rights := by
  unfold onEvent
  split
  · trivial
  split
  · trivial
  · rename_i line h
    exact eventLine_routine h

theorem rights_next {t : Broadcaster} (ht : t.Rights) {a : Act} {k : a.Ret → Broadcaster} (hn : t.next P = some ⟨a, k⟩) :
    Routine a ∧ ∀ r, (k r).Rights := by
  cases t with
  | top =>
    cases hn
    refine ⟨trivial, fun (running : Bool) => ?_⟩
    cases running <;> trivial
  | popping =>
    cases hn
    refine ⟨trivial, fun ⟨rc, msg⟩ => ?_⟩
    cases rc with
    | ok =>
      cases msg with
      | some msg => exact onEvent_rights msg
      | none => trivial
    | _ => trivial
  | first room line =>
    cases hn
    exact ⟨trivial, visit_rights ht⟩
  | stepping room line cur =>
    cases hn
    exact ⟨trivial, visit_rights ht⟩
  | sending room line cur p =>
    cases p with
    | ret => cases hn
    | act =>
      cases hn
      obtain ⟨hl, ha, hk⟩ := ht
      exact ⟨ha, fun r => afterCallback_rights hl (hk r)⟩
  | done => cases hn

end
end Broadcaster

namespace Thread

def Rights (db : AuthDb) (σ : Stage) : Thread → Prop
  | .main t => t.Rights
  | .broadcaster t => t.Rights
  | .signal => True
  | .handler h => h.Rights db σ

def looked : Thread → Option (Bytes × Int)
  | .handler h => h.target
  | _ => none

theorem rights_next {db : AuthDb} {P : Platform} {tid : Tid} {σ : Stage} {t : Thread} (hat : t.At True tid σ) (ht : t.Rights db σ)
    {a : Act} {k : a.Ret → Thread} (hn : t.next P = some ⟨a, k⟩) : Knowing.permits db ⟨σ, t.looked⟩ a ∧
      ∀ r, σ.tells True a r → hears db σ a r → (k r).Rights db (σ.next a r) := by
  cases t with
  | main t =>
    obtain ⟨⟨b, kb⟩, hb, he⟩ := Option.map_eq_some_iff.mp hn
    cases he
    obtain ⟨ha, hk⟩ := Acceptor.rights_next ht hb
    exact ⟨ha.permits _, fun r _ _ => hk r⟩
  | broadcaster t =>
    obtain ⟨⟨b, kb⟩, hb, he⟩ := Option.map_eq_some_iff.mp hn
    cases he
    obtain ⟨ha, hk⟩ := Broadcaster.rights_next ht hb
    exact ⟨ha.harmless.permits _, fun r _ _ => hk r⟩
  | signal =>
    cases hn
    exact ⟨trivial, fun _ _ _ => trivial⟩
  | handler h =>
    obtain ⟨⟨b, kb⟩, hb, he⟩ := Option.map_eq_some_iff.mp hn
    cases he
    cases tid with
    | handler i => exact Handler.rights_next hat ht hb
    | _ => cases hat

end Thread

/-! ## One action -/

section
variable {P : Platform} {db : AuthDb} {tid : Tid} {e : Env} {s s' : Server} {σ : Stage} {a : Act} {r : a.Ret}

theorem exec_auth (hx : exec P tid a e s = some (r, s')) : s'.auth = s.auth := by
  cases a with
  | start =>
    obtain ⟨rfl, -⟩ := exec_start hx
    rfl
  | authVerify => cases hx; split <;> rfl
  | registryAdd fd u room isAdmin =>
    simp only [exec] at hx
    split at hx
    · cases hx; rfl
    · split at hx
      · cases hx
      · cases hx; rfl
  | mqPop =>
    simp only [exec] at hx
    split at hx
    · cases hx
    · cases hx; rfl
  | accept => rcases exec_accept hx with ⟨-, rfl⟩ | ⟨fd, -, -, rfl⟩ <;> rfl
  | connTrackDecrement => cases hx; split <;> rfl
  | spawn => rcases exec_spawn hx with ⟨-, rfl⟩ | ⟨-, rfl⟩ <;> rfl
  | _ => cases hx; rfl

theorem find_online {T : Prop} (hi : Inv T s) {i : Nat} {fd : Int} {u : Bytes} (hs : Sat (.handler i) (.online fd u) s) :
    ∃ n ∈ s.registry.nodes, (s.registry.nodes.find? fun cur => cur.sockfd == fd) = some n ∧ n.name = u := by
  obtain ⟨-, -, n, hn, hfd, hu⟩ := hs
  refine ⟨n, hn, ?_, hu⟩
  cases hfind : s.registry.nodes.find? fun cur => cur.sockfd == fd with
  | none =>
    rw [List.find?_eq_none] at hfind
    exact absurd hfd (by simpa using hfind n hn)
  | some cur =>
    have hcur : cur.sockfd = fd := by simpa using List.find?_some hfind
    rw [List.inj_on_of_nodup_map hi.1.nodeFds (List.mem_of_find?_eq_some hfind) hn (hcur.trans hfd.symm)]

variable (hg : Granted db s) (hp : σ.permits True a) (hx : exec P tid a e s = some (r, s'))
include hg hx

include hp in
theorem exec_granted (hi : Inv True s) {looked : Option (Bytes × Int)} (hpermits : Knowing.permits db ⟨σ, looked⟩ a) :
    Granted db s' := by
  refine ⟨(exec_auth hx).trans hg.auth, ?_⟩
  cases a with
  | registryAdd fd u room isAdmin =>
    rcases exec_registryAdd_cases hx with ⟨-, -, mem, -, hnodes⟩ | ⟨-, hreg⟩
    · intro n hn
      rw [hnodes] at hn
      rcases List.mem_cons.mp hn with rfl | hn
      · rw [newNode_nameLike hp.allowed.2]
        exact hpermits
      · exact hg.flags n hn
    · rw [hreg]
      exact hg.flags
  | registryRemove fd =>
    intro n hn
    rw [exec_registryRemove hx] at hn
    exact hg.flags n ((mem_unlink hi.1.nodeFds).mp hn).1
  | registrySetRoom fd room =>
    rw [exec_registrySetRoom hx]
    exact (forall_setRoomFirst fd room (fun _ => Iff.rfl) _).mpr hg.flags
  | _ =>
    rw [exec_registry rfl hx]
    exact hg.flags

theorem exec_hears (hi : Inv True s) (hs : Sat tid σ.phase.view s) : hears db σ a r := by
  cases a with
  | authIsAdmin u =>
    cases hx
    exact congrArg (authIsAdmin · u) hg.auth
  | registryIsAdmin fd =>
    cases hx
    intro u hv
    rw [hv] at hs
    cases tid with
    | main | broadcaster | signal => cases hs
    | handler i =>
      obtain ⟨n, hn, hfind, hu⟩ := find_online hi hs
      rw [registryIsAdmin, hfind, ← hu]
      exact hg.flags n hn
  | _ => trivial

end

/-! ## Every run -/

section
variable {P : Platform} {db : AuthDb} {tr : List (Label Tid Act.Ret)} {c c' : System} {l : Label Tid Act.Ret}

structure Privileged (db : AuthDb) (tr : List (Label Tid Act.Ret)) (c : System) : Prop where
  granted : Granted db c.shared
  rights : ∀ tid, (c.loc tid).Rights db (stageOf tr tid)

theorem init_privileged (db : AuthDb) : Privileged db [] (System.init db) := by
  refine ⟨⟨rfl, nofun⟩, fun tid => ?_⟩
  cases tid <;> trivial

theorem Privileged.step (hstaged : Staged True tr c) (hc : Privileged db tr c) (hs : System.Step P Env.Terminated c l c') :
    Privileged db (tr ++ [l]) c' ∧ Knowing.permits db ⟨stageOf tr l.tid, (c.loc l.tid).looked⟩ l.act := by
  have htells := hstaged.tells (fun _ he _ => he) hs
  cases hs with
  | @mk tid a k e r s' hn he hx =>
    obtain ⟨hpermits, hk⟩ := Thread.rights_next (hstaged.loc tid) (hc.rights tid) hn
    have hp := (Thread.at_next (hstaged.loc tid) hn).1
    have hheard := exec_hears hc.granted hx hstaged.shared (hstaged.relies tid).sat
    refine ⟨⟨exec_granted hc.granted hp hx hstaged.shared hpermits, fun tid' => ?_⟩, hpermits⟩
    show Thread.Rights db _ (Function.update c.loc tid (k r) tid')
    by_cases h : tid' = tid
    · subst h
      rw [stageOf_own, Function.update_self]
      exact hk r htells hheard
    · rw [stageOf_other (Ne.symm h), Function.update_of_ne h]
      exact hc.rights tid'

theorem run_privileged (hr : Run (System.Step P Env.Terminated) (System.init db) tr c) : Privileged db tr c :=
  hr.traced (fun hr hc hs => (Privileged.step (run_staged (fun _ he _ => he) hr) hc hs).1) (init_privileged db)

theorem mayKick_of_kicksOut {v : Knowing} {a : Act} (hpermits : v.permits db a) {fd : Int} (hk : a.kicksOut = some fd) :
    v.MayKick db fd := by
  cases a with
  | shutdown => cases hk; exact hpermits
  | send fd' buf sent =>
    obtain ⟨hkicked, hfd⟩ := Option.ite_none_right_eq_some.mp hk
    cases hfd
    exact hpermits hkicked
  | _ => cases hk

/-- **Admin rights come from the database**: every flag in the registry is what the database says,
and only an admin of the database throws out a session, one that it looked up under another name. -/
theorem rights_from_db (hr : Run (System.Step P Env.Terminated) (System.init db) tr c) :
    (∀ n ∈ c.shared.registry.nodes, n.isAdmin = authIsAdmin db (cstr n.username)) ∧
    ∀ l c' fd, System.Step P Env.Terminated c l c' → l.act.kicksOut = some fd →
      ∃ i h u target, l.tid = .handler i ∧ c.handler i = some h ∧ h.target = some (target, fd) ∧ Proved tr i u ∧
        (∃ n ∈ c.shared.registry.nodes, c.shared.owner n.addr = i ∧ cstr n.username = u) ∧
        authIsAdmin db u = true ∧ target ≠ u := by
  have hstaged : Staged True tr c := run_staged (fun _ he _ => he) hr
  have hpriv := run_privileged hr
  have hnamed := hstaged.shared.2 trivial
  refine ⟨fun n hn => ?_, fun l c' fd hs hkicks => ?_⟩
  · rw [hnamed.exact n hn]
    exact hpriv.granted.flags n hn
  · obtain ⟨own, u, target, hview, hadmin, hlooked, hne⟩ := mayKick_of_kicksOut (hpriv.step hstaged hs).2 hkicks
    have hsat := (hstaged.relies l.tid).sat
    have hat := hstaged.loc l.tid
    rw [hview] at hsat
    obtain ⟨tid, a, r⟩ := l
    cases tid with
    | main | broadcaster | signal => cases hsat
    | handler i =>
      cases hloc : c.loc (.handler i) with
      | main | broadcaster | signal => rw [hloc] at hat; cases hat
      | handler h =>
        have hh := System.handler_eq.mpr hloc
        obtain ⟨hconn, hverified, n, hn, hfd, hname⟩ := hsat
        refine ⟨i, h, u, target, rfl, hh, ?_, (verified_iff hr).mp hverified, ⟨n, hn, ?_, ?_⟩, hadmin, hne⟩
        · rw [hloc] at hlooked
          exact hlooked
        · exact node_owner hstaged.shared hconn hn hfd
        · rw [hnamed.exact n hn, hname]

end

/-! ### `alice` throws `bob` out -/

def adminDb : AuthDb := passDb.map fun cur => { cur with isAdmin := cur.username == lit "alice" }

def kicking : List (Tid × Env) := bothIn ++ List.replicate 5 (.handler 0, sunny "KICK bob" 0 0)

theorem sunny_kicking : ∀ p ∈ kicking, p.2.Terminated := by
  intro p hp
  rcases List.mem_append.mp hp with hp | hp
  · exact sunny_bothIn p hp
  · rw [(List.mem_replicate.mp hp).2]
    exact sunny_terminated _ _ _

theorem rights_from_db_alice : ∃ tr c l c', Run (System.Step passPlatform Env.Terminated) (System.init adminDb) tr c ∧
    System.Step passPlatform Env.Terminated c l c' ∧ l.act.kicksOut = some 6 ∧ (∃ n ∈ c.shared.registry.nodes, n.isAdmin = true) ∧
    (∀ n ∈ c.shared.registry.nodes, n.isAdmin = authIsAdmin adminDb (cstr n.username)) ∧
    ∃ i h u target, l.tid = .handler i ∧ c.handler i = some h ∧ h.target = some (target, 6) ∧ Proved tr i u ∧
      (∃ n ∈ c.shared.registry.nodes, c.shared.owner n.addr = i ∧ cstr n.username = u) ∧
      authIsAdmin adminDb u = true ∧ target ≠ u := by
  obtain ⟨tr, c, hr, hp⟩ := System.exists_run passPlatform Env.Terminated (System.init adminDb) kicking sunny_kicking
    (p := fun q => (q.2.shared.registry.nodes.any fun n => n.isAdmin) &&
      (stepWith (Thread.next passPlatform) (exec passPlatform) q.2 (.handler 0) (sunny "" 0 0)).any fun q =>
        q.1.act.kicksOut == some 6) (by decide +kernel)
  simp only [Bool.and_eq_true, List.any_eq_true, Option.any_eq_true, beq_iff_eq] at hp
  obtain ⟨hadmin, ⟨l, c'⟩, hstep, hkicks⟩ := hp
  have hs : System.Step passPlatform Env.Terminated c l c' := step_of_stepWith (sunny_terminated "" 0 0) hstep
  obtain ⟨hflags, hkick⟩ := rights_from_db hr
  exact ⟨tr, c, l, c', hr, hs, hkicks, hadmin, hflags, hkick l c' 6 hs hkicks⟩

end ChatServer

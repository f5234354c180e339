import ChatServer.Agreement
import ChatServer.ChatRoom
import ChatServer.Identity
import ChatServer.RoomStore
import ChatServer.ThreadStages

/-!
# The server is a chat

Every run of the server, seen through the answers of five calls, is a run of
the abstract chat. Who is online is what the registry says, and the rooms are
what has been said, each cut to its last entries.
-/

namespace ChatServer

open CStr Interleave

abbrev Chat := ChatRoom.State Nat Bytes Bytes (Bytes × Int)

abbrev ChatEvent := ChatRoom.Event Nat Bytes Bytes (Bytes × Int)

/-- What a handler's call means to the chat; a call that failed means nothing. -/
def seenAs : Label Tid Act.Ret → Option ChatEvent
  | ⟨.handler i, .authVerify username _, (rc : ChatStatus)⟩ => if rc = .ok then some (.prove i username) else none
  | ⟨.handler i, .registryAdd .., (rc : ChatStatus)⟩ => if rc = .ok then some (.enter i) else none
  | ⟨.handler i, .registrySetRoom _ room, _⟩ => some (.move i room)
  | ⟨.handler i, .roomHistoryAdd _ _ content ts, (rc : ChatStatus)⟩ => if rc = .ok then some (.say i (content, ts)) else none
  | ⟨.handler i, .registryRemove _, _⟩ => some (.leave i)
  | _ => none

/-- The registry has a node of session `i`, under this name and in this room. -/
def Registered (s : Server) (i : Nat) (username room : Bytes) : Prop :=
  ∃ n ∈ s.registry.nodes, s.owner n.addr = i ∧ cstr n.username = username ∧ cstr n.room = room

def addOf (x : ChatRoom.Saying Bytes Bytes (Bytes × Int)) : Add :=
  { mem := true, room := x.room, username := x.user, content := x.text.1, ts := x.text.2 }

def logOf (a : Chat) (room : Bytes) : List Add := (a.saidIn room).map addOf

structure Shows (P : Platform) (s : Server) (a : Chat) : Prop where
  proved : a.proved = s.verified
  online : ∀ i username room, a.online i = some (username, room) ↔ Registered s i username room
  rooms : s.rooms.Stores P (logOf a)

/-- What `Shows` speaks of has not changed. -/
structure Unseen (s s' : Server) : Prop where
  registry : s'.registry = s.registry
  owner : s'.owner = s.owner
  verified : s'.verified = s.verified
  rooms : s'.rooms = s.rooms

def Act.speaks : Act → Bool
  | .authVerify .. | .registryAdd .. | .registrySetRoom .. | .roomHistoryAdd .. | .registryRemove _ => true
  | _ => false

section
variable {P : Platform} {tid : Tid} {e : Env} {s s' : Server}

theorem Unseen.shows {a : Chat} (h : Unseen s s') (ha : Shows P s a) : Shows P s' a := by
  obtain ⟨hreg, hown, hv, hrooms⟩ := h
  refine ⟨ha.proved.trans hv.symm, fun i username room => ?_, hrooms ▸ ha.rooms⟩
  rw [ha.online, Registered, Registered, hreg, hown]

/-! ## The actions -/

theorem exec_unseen {a : Act} (ha : a.speaks = false) {r : a.Ret} (hx : exec P tid a e s = some (r, s')) : Unseen s s' := by
  cases a with
  | authVerify | registryAdd | registrySetRoom | roomHistoryAdd | registryRemove => cases ha
  | close => cases hx; exact ⟨rfl, rfl, rfl, rfl⟩
  | accept => rcases exec_accept hx with ⟨-, rfl⟩ | ⟨fd, -, -, rfl⟩ <;> exact ⟨rfl, rfl, rfl, rfl⟩
  | spawn => rcases exec_spawn hx with ⟨-, rfl⟩ | ⟨-, rfl⟩ <;> exact ⟨rfl, rfl, rfl, rfl⟩
  | mqPop =>
    simp only [exec] at hx
    split at hx
    · cases hx
    · cases hx; exact ⟨rfl, rfl, rfl, rfl⟩
  | mqPush | mqSignalShutdown => cases hx; exact ⟨rfl, rfl, rfl, rfl⟩
  | _ =>
    have hun := exec_unmoved rfl hx
    exact ⟨hun.registry, hun.owner, hun.verified, (exec_sameChat rfl hx).2.1⟩

theorem exec_registryAdd_ok {i : Nat} {fd : Int} {u room : Bytes} {isAdmin : Bool}
    (hx : exec P (.handler i) (.registryAdd fd u room isAdmin) e s = some (ChatStatus.ok, s')) :
    ∃ mem, e.node = some mem ∧ (∀ n ∈ s.registry.nodes, n.addr ≠ mem.addr) ∧ registryUsernameExists s.registry u = false ∧
      s'.registry.nodes = newNode mem fd u room isAdmin :: s.registry.nodes ∧ s'.owner = Function.update s.owner mem.addr i := by
  simp only [exec] at hx
  cases hnode : e.node with
  | none =>
    rw [hnode] at hx
    cases hx
  | some mem =>
    rw [hnode] at hx
    by_cases hfree : (s.registry.nodes.any fun n => n.addr == mem.addr) = true
    · simp only [hfree, ite_true] at hx
      cases hx
    · simp only [hfree, Bool.false_eq_true, ite_false] at hx
      rcases hadd : registryAdd s.registry (some mem) fd u room isAdmin with ⟨rc, reg⟩
      have hcases := registryAdd_cases s.registry (some mem) fd u room isAdmin
      rw [hadd] at hx hcases
      rcases hcases with ⟨m, hm, -, hex, rfl, hreg⟩ | ⟨hne, -⟩
      · cases hm
        cases hx
        refine ⟨mem, rfl, fun n hn h => hfree ?_, hex, hreg, rfl⟩
        exact List.any_eq_true.mpr ⟨n, hn, beq_iff_eq.mpr h⟩
      · cases hx
        exact absurd rfl hne

theorem exec_registryAdd_failed {fd : Int} {u room : Bytes} {isAdmin : Bool} {r : ChatStatus} (hr : r ≠ .ok)
    (hx : exec P tid (.registryAdd fd u room isAdmin) e s = some (r, s')) : Unseen s s' := by
  obtain ⟨hrooms, -, -, hv⟩ := exec_registryAdd hx
  rcases exec_registryAdd_cases hx with ⟨hok, -⟩ | ⟨-, hreg⟩
  · exact absurd hok hr
  · refine ⟨hreg, ?_, hv, hrooms⟩
    simp only [exec] at hx
    split at hx
    · cases hx; rfl
    · split at hx
      · cases hx
      · cases hx
        split
        · rename_i hok
          exact absurd hok hr
        · rfl

theorem exec_roomHistoryAdd {room u content : Bytes} {ts : Int} {r : ChatStatus}
    (hx : exec P tid (.roomHistoryAdd room u content ts) e s = some (r, s')) :
    (r, s'.rooms) = roomHistoryAdd P s.rooms e.malloc room u content ts ∧
      s'.registry = s.registry ∧ s'.owner = s.owner ∧ s'.verified = s.verified := by
  simp only [exec] at hx
  cases hx
  exact ⟨rfl, rfl, rfl, rfl⟩

/-- A call that found its room, or a block for it, would have done the same with any block. -/
theorem roomHistoryAdd_mem {mgr : RoomManager} {mem : Bool} {room u content : Bytes} {ts : Int}
    (h : (roomHistoryAdd P mgr mem room u content ts).1 = .ok) :
    roomHistoryAdd P mgr true room u content ts = roomHistoryAdd P mgr mem room u content ts := by
  cases mem with
  | true => rfl
  | false =>
    unfold roomHistoryAdd roomFindOrCreate at h ⊢
    split at h
    · cases h
    · rename_i hfound
      split at hfound
      · cases hfound
        rfl
      · split at hfound <;> cases hfound

theorem logOf_say (a : Chat) (x : ChatRoom.Saying Bytes Bytes (Bytes × Int)) :
    logOf { a with said := a.said ++ [x] } = Function.update (logOf a) x.room (logOf a x.room ++ [addOf x]) := by
  funext room
  by_cases hroom : x.room = room
  · subst hroom
    rw [Function.update_self]
    simp only [logOf, ChatRoom.State.saidIn, List.filter_append, List.map_append, List.filter_singleton, decide_true, cond_true,
      List.map_singleton]
  · rw [Function.update_of_ne (Ne.symm hroom)]
    simp only [logOf, ChatRoom.State.saidIn, List.filter_append, List.filter_singleton, decide_eq_false hroom, cond_false,
      List.append_nil]

end

/-! ## One call of a handler -/

section
variable {P : Platform} {i : Nat} {e : Env} {s s' : Server} {a : Chat} {fd : Int} {u : Bytes}
variable (hi : Inv True s) (ha : Shows P s a)

theorem owner_iff (hi : Inv True s) (hc : ⟨fd, i, true⟩ ∈ s.conns) {n : ClientNode} (hn : n ∈ s.registry.nodes) :
    s.owner n.addr = i ↔ n.sockfd = fd := by
  constructor
  · intro ho
    exact congrArg Conn.fd (hi.1.conn_id (hi.1.owned n hn).1 hc ho)
  · exact node_owner hi hc hn

include ha

theorem Shows.verify (hnone : s.verified i = none) :
    ∃ a', ChatRoom.Step defaultRoom a (.prove i u) a' ∧ Shows P (s.passed i u) a' :=
  ⟨_, .prove (ha.proved ▸ hnone), congrArg (Function.update · i (some u)) ha.proved, ha.online, ha.rooms⟩

include hi

theorem Shows.enter (hs : Sat (.handler i) (.checked fd u) s) (hu : NameLike u) (he : e.Terminated) {isAdmin : Bool}
    (hx : exec P (.handler i) (.registryAdd fd u defaultRoom isAdmin) e s = some (ChatStatus.ok, s')) :
    ∃ a', ChatRoom.Step defaultRoom a (.enter i) a' ∧ Shows P s' a' := by
  obtain ⟨mem, hnode, hfree, hex, hnodes, hown⟩ := exec_registryAdd_ok hx
  obtain ⟨hrooms, -, -, hv⟩ := exec_registryAdd hx
  have hoff : ∀ v r, ¬ Registered s i v r := fun v r ⟨n, hn, ho, _⟩ => owner_ne hi hs.1 hs.2.2 n hn ho
  have hunused : ∀ j r, ¬ Registered s j u r := by
    rintro j r ⟨n, hn, -, hname, -⟩
    rw [registryUsernameExists, List.any_eq_false] at hex
    refine hex n hn ?_
    rw [streq_iff, hname, cstr_of_nulFree hu.1]
  have hname : cstr (newNode mem fd u defaultRoom isAdmin).username = u :=
    (newNode_username_iff hu.1 hu.2 fd defaultRoom isAdmin).mpr (Or.inr (he.node mem hnode).1)
  refine ⟨_, .enter (by rw [ha.proved]; exact hs.2.1) ?_ fun j r => ?_, ha.proved.trans hv.symm, fun j v r => ?_, hrooms ▸ ha.rooms⟩
  · cases hon : a.online i with
    | none => rfl
    | some q => exact absurd ((ha.online i q.1 q.2).mp hon) (hoff _ _)
  · rw [Ne, ha.online]
    exact hunused j r
  have hold : ∀ n ∈ s.registry.nodes, s'.owner n.addr = s.owner n.addr := by
    intro n hn
    rw [hown, Function.update_of_ne (hfree n hn)]
  have hnew : s'.owner (newNode mem fd u defaultRoom isAdmin).addr = i := by
    rw [hown]
    exact Function.update_self ..
  have hreg : Registered s' j v r ↔ (j = i ∧ v = u ∧ r = defaultRoom) ∨ Registered s j v r := by
    constructor
    · rintro ⟨n, hn, ho, hvn, hr⟩
      rw [hnodes] at hn
      rcases List.mem_cons.mp hn with rfl | hn
      · exact Or.inl ⟨ho.symm.trans hnew, hvn.symm.trans hname, hr.symm.trans (newNode_lobby mem fd u isAdmin)⟩
      · exact Or.inr ⟨n, hn, (hold n hn).symm.trans ho, hvn, hr⟩
    · rintro (⟨rfl, rfl, rfl⟩ | ⟨n, hn, ho, hvn, hr⟩)
      · exact ⟨_, hnodes ▸ List.mem_cons_self .., hnew, hname, newNode_lobby mem fd v isAdmin⟩
      · exact ⟨n, hnodes ▸ List.mem_cons_of_mem _ hn, (hold n hn).trans ho, hvn, hr⟩
  rw [hreg]
  show Function.update a.online i (some (u, defaultRoom)) j = _ ↔ _
  by_cases hj : j = i
  · subst hj
    rw [Function.update_self, or_iff_left (hoff v r)]
    constructor
    · intro h
      cases h
      exact ⟨rfl, rfl, rfl⟩
    · rintro ⟨-, rfl, rfl⟩
      rfl
  · rw [Function.update_of_ne hj, ha.online, or_iff_right fun h => hj h.1]

theorem Shows.move (hs : Sat (.handler i) (.online fd u) s) {old room : Bytes} (hroom : RoomLike room) (hold : Seated s fd old) {r : ChatStatus}
    (hx : exec P (.handler i) (.registrySetRoom fd room) e s = some (r, s')) :
    ∃ a', ChatRoom.Step defaultRoom a (.move i room) a' ∧ Shows P s' a' := by
  obtain ⟨hc, -, n₀, hn₀, hfd₀, hname₀⟩ := hs
  have hnodes := exec_registrySetRoom hx
  have hown : s'.owner = s.owner := by cases hx; rfl
  have hon : Registered s i u old := ⟨n₀, hn₀, (owner_iff hi hc hn₀).mpr hfd₀, ((hi.2 trivial).exact n₀ hn₀).trans hname₀, hold.2 n₀ hn₀ hfd₀⟩
  refine ⟨_, .move room ((ha.online i u old).mpr hon), ?_, fun j v q => ?_, ?_⟩
  · cases hx
    exact ha.proved
  · have hmem : ∀ n, n ∈ s'.registry.nodes ↔ _ := fun n => hnodes ▸ mem_setRoomFirst hi.1.nodeFds
    show Function.update a.online i (some (u, room)) j = _ ↔ _
    by_cases hj : j = i
    · subst hj
      rw [Function.update_self]
      constructor
      · intro h
        cases h
        refine ⟨n₀.setRoom room, (hmem _).mpr (Or.inr ⟨n₀, hn₀, hfd₀, rfl⟩), ?_, ?_, setRoom_room hroom n₀⟩
        · rw [hown]
          exact (owner_iff hi hc hn₀).mpr hfd₀
        · exact ((hi.2 trivial).exact n₀ hn₀).trans hname₀
      · rintro ⟨n, hn, ho, hvn, hq⟩
        rw [hown] at ho
        rcases (hmem n).mp hn with ⟨hn, hne⟩ | ⟨cur, hcur, hfd, rfl⟩
        · exact absurd ((owner_iff hi hc hn).mp ho) hne
        · have hsame : cur = n₀ := List.inj_on_of_nodup_map hi.1.nodeFds hcur hn₀ (hfd.trans hfd₀.symm)
          have hv : v = u := hvn.symm.trans (((hi.2 trivial).exact cur hcur).trans (hsame ▸ hname₀))
          rw [hv, ← hq, setRoom_room hroom cur]
    · rw [Function.update_of_ne hj, ha.online]
      constructor
      · rintro ⟨n, hn, ho, hrest⟩
        refine ⟨n, (hmem n).mpr (Or.inl ⟨hn, fun hfd => hj ?_⟩), by rwa [hown], hrest⟩
        exact ho.symm.trans ((owner_iff hi hc hn).mpr hfd)
      · rintro ⟨n, hn, ho, hrest⟩
        rw [hown] at ho
        rcases (hmem n).mp hn with ⟨hn, -⟩ | ⟨cur, hcur, hfd, rfl⟩
        · exact ⟨n, hn, ho, hrest⟩
        · exact absurd (ho.symm.trans ((owner_iff hi hc hcur).mpr hfd)) hj
  · cases hx
    exact ha.rooms

theorem Shows.leave (hs : Sat (.handler i) (.online fd u) s) {r : ChatStatus}
    (hx : exec P (.handler i) (.registryRemove fd) e s = some (r, s')) :
    ∃ a', ChatRoom.Step defaultRoom a (.leave i) a' ∧ Shows P s' a' := by
  obtain ⟨hc, -, n₀, hn₀, hfd₀, -⟩ := hs
  have hnodes := exec_registryRemove hx
  have hown : s'.owner = s.owner := by cases hx; rfl
  have hon : a.online i = some (cstr n₀.username, cstr n₀.room) :=
    (ha.online i _ _).mpr ⟨n₀, hn₀, (owner_iff hi hc hn₀).mpr hfd₀, rfl, rfl⟩
  refine ⟨_, .leave (by rw [hon]; nofun), ?_, fun j v q => ?_, ?_⟩
  · cases hx
    exact ha.proved
  · have hmem : ∀ n, n ∈ s'.registry.nodes ↔ _ := fun n => hnodes ▸ mem_unlink hi.1.nodeFds
    show Function.update a.online i none j = _ ↔ _
    by_cases hj : j = i
    · subst hj
      rw [Function.update_self]
      refine iff_of_false nofun ?_
      rintro ⟨n, hn, ho, -⟩
      rw [hown] at ho
      obtain ⟨hn, hne⟩ := (hmem n).mp hn
      exact hne ((owner_iff hi hc hn).mp ho)
    · rw [Function.update_of_ne hj, ha.online]
      constructor
      · rintro ⟨n, hn, ho, hrest⟩
        refine ⟨n, (hmem n).mpr ⟨hn, fun hfd => hj ?_⟩, by rwa [hown], hrest⟩
        exact ho.symm.trans ((owner_iff hi hc hn).mpr hfd)
      · rintro ⟨n, hn, ho, hrest⟩
        exact ⟨n, ((hmem n).mp hn).1, by rwa [hown] at ho, hrest⟩
  · cases hx
    exact ha.rooms

theorem Shows.say (hs : Sat (.handler i) (.online fd u) s) (hu : NameLike u) {room content : Bytes} (hroom : Seated s fd room)
    (hc : TextLike content) {ts : Int} (hx : exec P (.handler i) (.roomHistoryAdd room u content ts) e s = some (ChatStatus.ok, s')) :
    ∃ a', ChatRoom.Step defaultRoom a (.say i (content, ts)) a' ∧ Shows P s' a' := by
  obtain ⟨hconn, -, n₀, hn₀, hfd₀, hname₀⟩ := hs
  have hon : Registered s i u room := ⟨n₀, hn₀, (owner_iff hi hconn hn₀).mpr hfd₀, ((hi.2 trivial).exact n₀ hn₀).trans hname₀, hroom.2 n₀ hn₀ hfd₀⟩
  obtain ⟨hcall, hreg, hown, hv⟩ := exec_roomHistoryAdd hx
  refine ⟨_, .say (content, ts) ((ha.online i u room).mpr hon), ha.proved.trans hv.symm, fun j v r => ?_, ?_⟩
  · rw [Registered, hreg, hown]
    exact ha.online j v r
  · have hok := (congrArg Prod.fst hcall).symm
    have hkept : (addOf ⟨u, room, (content, ts)⟩).Kept :=
      ⟨hroom.1.1, Nat.le_pred_of_lt hroom.1.2, hu.1, Nat.le_pred_of_lt hu.2, hc.1, Nat.le_pred_of_lt hc.2.2⟩
    have hsame : roomHistoryAdd P s.rooms true room u content ts = (.ok, s'.rooms) := (roomHistoryAdd_mem hok).trans hcall.symm
    rw [logOf_say]
    exact ha.rooms.add_ok hkept hsame

end

/-! ## Every run -/

section
variable {P : Platform} {db : AuthDb}

theorem init_shows (db : AuthDb) : Shows P (serverInit db) ChatRoom.State.empty where
  proved := rfl
  online _ _ _ := iff_of_false nofun (fun ⟨_, hn, _⟩ => nomatch hn)
  rooms := roomManagerInit_stores

/-- One call at its stage, as the chat sees it. -/
theorem exec_seen {tid : Tid} {σ : Stage} {act : Act} {r : act.Ret} {e : Env} {s s' : Server} {a : Chat} (hi : Inv True s)
    (hσ : Relies tid σ s) (hp : σ.permits True act) (he : e.Terminated) (hx : exec P tid act e s = some (r, s')) (ha : Shows P s a) :
    Run.Seen (ChatRoom.Step defaultRoom) (Shows P) a s' (seenAs ⟨tid, act, r⟩) := by
  obtain ⟨hal, hph, -⟩ := hp
  have hsat := hσ.sat
  cases act with
  | authVerify u password =>
    obtain ⟨fd, hfresh⟩ := hal
    rw [hfresh] at hsat
    cases tid with
    | main | broadcaster | signal => cases hsat
    | handler i =>
      rcases exec_authVerify hx with ⟨rfl, rfl⟩ | ⟨hne, rfl⟩
      · exact ha.verify hsat.2.1
      · change ChatStatus at r
        show Run.Seen _ _ a s' (if r = ChatStatus.ok then _ else none)
        rw [if_neg hne]
        exact ha
  | registryAdd fd u room isAdmin =>
    obtain ⟨hcheck, hu⟩ := hal
    obtain ⟨-, rfl⟩ := hph
    rw [hcheck] at hsat
    cases tid with
    | main | broadcaster | signal => cases hsat
    | handler i =>
      change ChatStatus at r
      show Run.Seen _ _ a s' (if r = ChatStatus.ok then _ else none)
      by_cases hr : r = .ok
      · subst hr
        exact ha.enter hi hsat hu he hx
      · rw [if_neg hr]
        exact (exec_registryAdd_failed hr hx).shows ha
  | registrySetRoom fd room =>
    obtain ⟨u, honline⟩ := hal
    obtain ⟨hroom, fd', u', old, hleft⟩ := hph
    rw [hleft] at honline
    cases honline
    have hseat := hσ.seat fd old (by rw [hleft]; rfl)
    rw [hleft] at hsat
    cases tid with
    | main | broadcaster | signal => cases hsat
    | handler i => exact ha.move hi hsat hroom hseat hx
  | registryRemove fd =>
    obtain ⟨u, honline⟩ := hal
    rw [honline] at hsat
    cases tid with
    | main | broadcaster | signal => cases hsat
    | handler i => exact ha.leave hi hsat hx
  | roomHistoryAdd room u content ts =>
    obtain ⟨hu, -⟩ := hal
    obtain ⟨-, htext, fd, hpresent⟩ := hph
    have hseat := hσ.seat fd room (by rw [hpresent]; rfl)
    rw [hpresent] at hsat
    cases tid with
    | main | broadcaster | signal => cases hsat
    | handler i =>
      change ChatStatus at r
      show Run.Seen _ _ a s' (if r = ChatStatus.ok then _ else none)
      by_cases hr : r = .ok
      · subst hr
        exact ha.say hi hsat hu hseat htext hx
      · rw [if_neg hr]
        obtain ⟨hcall, hreg, hown, hv⟩ := exec_roomHistoryAdd hx
        have hfail : (roomHistoryAdd P s.rooms e.malloc room u content ts).2 = s.rooms :=
          roomHistoryAdd_failed (a := ⟨e.malloc, room, u, content, ts⟩) fun hok => hr ((congrArg Prod.fst hcall).trans hok)
        exact Unseen.shows ⟨hreg, hown, hv, (congrArg Prod.snd hcall).trans hfail⟩ ha
  | _ =>
    have hshow := (exec_unseen rfl hx).shows ha
    cases tid <;> exact hshow

/-- **The server is a chat**: every run, with the calls that proved a name, added,
moved or removed a registry node or stored a message as its events, is a run of
the abstract chat. At its end the registry says who is online, under the name
proved by `AUTH`, and in which room, and nobody twice; and a room's history is
the text of the last that was said there. -/
theorem server_is_chat {tr : List (Label Tid Act.Ret)} {c : System}
    (hr : Run (System.Step P Env.Terminated) (System.init db) tr c) :
    ∃ a : Chat, Run (ChatRoom.Step defaultRoom) ChatRoom.State.empty (tr.filterMap seenAs) a ∧ a.Sound ∧
      (∀ i u, a.proved i = some u ↔ Proved tr i u) ∧
      (∀ i u room, a.online i = some (u, room) ↔ Registered c.shared i u room) ∧
      ∀ room, 0 ∉ room → ∀ buflen, roomHistoryFormat c.shared.rooms room buflen =
        fitted buflen (joinWith (lit "||") ((lastN maxRoomHistory (a.saidIn room)).map fun x => (addOf x).text P)) := by
  have hstep : ∀ {tr : List (Label Tid Act.Ret)} {c c' : System} {l : Label Tid Act.Ret} {a : Chat},
      Run (System.Step P Env.Terminated) (System.init db) tr c → Shows P c.shared a → System.Step P Env.Terminated c l c' →
        Run.Seen (ChatRoom.Step defaultRoom) (fun c a => Shows P c.shared a) a c' (seenAs l) := by
    intro tr c c' l a hrun hshow hs
    have hst : Staged True tr c := run_staged (fun _ he _ => he) hrun
    obtain ⟨hp, e, he, hx⟩ := hst.step hs
    exact exec_seen hst.shared (hst.relies l.tid) hp he hx hshow
  obtain ⟨a, ha, hshow⟩ := hr.simulates hstep (init_shows db)
  refine ⟨a, ha, ChatRoom.run_sound ha, fun i u => ?_, hshow.online, fun room h0 buflen => ?_⟩
  · rw [hshow.proved]
    exact verified_iff hr
  · rw [hshow.rooms.format h0, logOf, ← lastN_map, List.map_map]
    rfl

end

/-- `bob` logs in and says something in the lobby. -/
def bobSpeaks : List (Tid × Env) := logIn 0 5 "bob" ++ List.replicate 9 (.handler 0, sunny "MSG hi" 5 1)

theorem terminated_bobSpeaks : ∀ p ∈ bobSpeaks, p.2.Terminated := by
  intro p hp
  rcases List.mem_append.mp hp with hp | hp
  · exact sunny_logIn 0 5 "bob" p hp
  · rw [(List.mem_replicate.mp hp).2]
    exact sunny_terminated _ _ _

theorem server_is_chat_bob : ∃ tr c, Run (System.Step passPlatform Env.Terminated) (System.init passDb) tr c ∧
    tr.filterMap seenAs = [.prove 0 (lit "bob"), .enter 0, .say 0 (lit "hi", 0)] ∧
    ∃ a : Chat, Run (ChatRoom.Step defaultRoom) ChatRoom.State.empty (tr.filterMap seenAs) a ∧ a.Sound := by
  obtain ⟨tr, c, hr, hp⟩ := System.exists_run passPlatform Env.Terminated (System.init passDb) _ terminated_bobSpeaks
    (p := fun q => decide (q.1.filterMap seenAs = [.prove 0 (lit "bob"), .enter 0, .say 0 (lit "hi", 0)])) (by decide +kernel)
  obtain ⟨a, ha, hsound, -⟩ := server_is_chat hr
  exact ⟨tr, c, hr, of_decide_eq_true hp, a, ha, hsound⟩

end ChatServer

import ChatServer.Threads

/-!
# Sessions

What ties a session to the registry. `View` is what a thread knows of the
connection it works for, `contract` says which actions that allows and what
each one changes. The invariant `Consistent` makes every registry node the
node of one open session, under the name that this session's `AUTH` proved.
-/

namespace ChatServer

open CStr Interleave

/-! ## The invariant of the shared state -/

structure Consistent (s : Server) : Prop where
  fds : (s.conns.map Conn.fd).Nodup
  ids : (s.conns.map Conn.id).Nodup
  ids_lt : ∀ c ∈ s.conns, c.id < s.nextId
  nodeFds : (s.registry.nodes.map ClientNode.sockfd).Nodup
  addrs : (s.registry.nodes.map ClientNode.addr).Nodup
  owned : ∀ n ∈ s.registry.nodes,
    ⟨n.sockfd, s.owner n.addr, true⟩ ∈ s.conns ∧ s.verified (s.owner n.addr) = some n.name

structure Named (s : Server) : Prop where
  exact : ∀ n ∈ s.registry.nodes, cstr n.username = n.name
  names : (s.registry.nodes.map ClientNode.name).Nodup

/-- `T` says whether uninitialised memory keeps strings within their fields. -/
def Inv (T : Prop) (s : Server) : Prop := Consistent s ∧ (T → Named s)

section
variable {s : Server}

theorem Consistent.conn_fd (h : Consistent s) {c d : Conn} (hc : c ∈ s.conns) (hd : d ∈ s.conns) (he : c.fd = d.fd) :
    c = d := List.inj_on_of_nodup_map h.fds hc hd he

theorem Consistent.conn_id (h : Consistent s) {c d : Conn} (hc : c ∈ s.conns) (hd : d ∈ s.conns) (he : c.id = d.id) :
    c = d := List.inj_on_of_nodup_map h.ids hc hd he

end

/-! ## What a thread knows -/

inductive View where
  | idle
  | casting
  | ending
  | held (fd : Int) (id : Nat)
  | unborn
  | fresh (fd : Int)
  | checked (fd : Int) (username : Bytes)
  | online (fd : Int) (username : Bytes)
  | gone

def NoNode (s : Server) (fd : Int) : Prop := ∀ n ∈ s.registry.nodes, n.sockfd ≠ fd

def Sat : Tid → View → Server → Prop
  | .main, .idle, _ => True
  | .main, .ending, _ => True
  | .broadcaster, .casting, _ => True
  | .signal, .ending, _ => True
  | .main, .held fd id, s => ⟨fd, id, false⟩ ∈ s.conns
  | .handler i, .unborn, s => s.verified i = none ∧ ∀ c ∈ s.conns, c.id = i → NoNode s c.fd
  | .handler i, .fresh fd, s => ⟨fd, i, true⟩ ∈ s.conns ∧ s.verified i = none ∧ NoNode s fd
  | .handler i, .checked fd u, s => ⟨fd, i, true⟩ ∈ s.conns ∧ s.verified i = some u ∧ NoNode s fd
  | .handler i, .online fd u, s =>
    ⟨fd, i, true⟩ ∈ s.conns ∧ s.verified i = some u ∧ ∃ n ∈ s.registry.nodes, n.sockfd = fd ∧ n.name = u
  | .handler i, .gone, s => i < s.nextId ∧ ∀ c ∈ s.conns, c.id ≠ i
  | _, _, _ => False

/-! ## What it may do -/

def IsPm (buf : Bytes) : Prop := buf.take 3 = lit "PM "

instance (buf : Bytes) : Decidable (IsPm buf) := inferInstanceAs (Decidable (_ = _))

def PmFrom (username buf : Bytes) : Prop :=
  ∃ ts text, buf = lit "PM " ++ username ++ lit " " ++ ts ++ lit " " ++ text ++ lit "\n"

def NameLike (u : Bytes) : Prop := 0 ∉ u ∧ u.length < maxUsernameLen

def View.IsOnline (v : View) : Prop := ∃ fd u, v = .online fd u

/-- When a thread that knows `v` may issue an action. -/
def allowed (T : Prop) : Act → View → Prop
  | .start, v => v = .unborn
  | .send _ buf _, .casting => ¬ IsPm buf
  | .send fd buf _, .held fd' _ => fd = fd' ∧ ¬ IsPm buf
  | .send fd buf _, .fresh fd' => fd = fd' ∧ ¬ IsPm buf
  | .send fd buf _, .checked fd' _ => fd = fd' ∧ ¬ IsPm buf
  | .send _ buf _, .online _ u => IsPm buf → PmFrom u buf
  | .send .., _ => False
  | .shutdown _, v => v.IsOnline
  | .close fd, .held fd' _ => fd = fd'
  | .close fd, .fresh fd' => fd = fd'
  | .close fd, .checked fd' _ => fd = fd'
  | .close _, _ => False
  | .authVerify .., v => ∃ fd, v = .fresh fd
  | .registryAdd fd u _ _, v => v = .checked fd u ∧ NameLike u
  | .registryRemove fd, v => ∃ u, v = .online fd u
  | .registrySetRoom fd _, v => ∃ u, v = .online fd u
  | .registryGetSockfdByUsername t, v => v.IsOnline ∧ NameLike t
  | .roomHistoryAdd _ u _ _, v => NameLike u ∧ ∃ fd, v = .online fd u
  | .mqPush _, .ending => True
  | .mqPush msg, .online _ u => T → cstr msg.username = u
  | .mqPush _, _ => False
  | .mqPop, v => v = .casting
  | .mqSignalShutdown, v => v = .ending
  | .accept, v => v = .idle
  | .spawn fd id, v => v = .held fd id
  | _, _ => True

def advance : (a : Act) → View → a.Ret → View
  | .start, _, fd => .fresh fd
  | .close _, .held .., _ => .idle
  | .close _, _, _ => .gone
  | .authVerify u _, .fresh fd, (rc : ChatStatus) => if rc = .ok then .checked fd u else .fresh fd
  | .registryAdd .., .checked fd u, (rc : ChatStatus) => if rc = .ok then .online fd u else .checked fd u
  | .registryRemove _, .online fd u, _ => .checked fd u
  | .accept, _, some (fd, id) => .held fd id
  | .spawn .., v, (ok : Bool) => if ok then .idle else v
  | _, v, _ => v

def tells (T : Prop) : (a : Act) → View → a.Ret → Prop
  | .registryGetUsername fd, .online fd' u, r => fd = fd' → r = (ChatStatus.ok, u)
  | .recvLine _, _, (r : Option Bytes) => ∀ line, r = some line → 0 ∉ line
  | .stackEvent, _, (evt : MqMessage) => T → evt.username[maxUsernameLen - 1]? = some 0
  | _, _, _ => True

/-- The contract of a piece of code that changes the view only within `keep`. -/
def contract (T : Prop) (keep : View → View → Prop) : Prog.Contract Act.Ret View where
  pre a v := allowed T a v ∧ ∀ r, keep v (advance a v r)
  post a v r v' := v' = advance a v r ∧ tells T a v r

/-! ## What the actions do -/

def Server.passed (s : Server) (i : Nat) (username : Bytes) : Server :=
  { s with verified := Function.update s.verified i (some username) }

def Server.accepted (s : Server) (fd : Int) : Server :=
  { s with conns := { fd := fd, id := s.nextId, spawned := false } :: s.conns, nextId := s.nextId + 1 }

def Server.spawned (s : Server) (fd : Int) (id : Nat) : Server :=
  { s with conns := s.conns.map fun c => if c.fd = fd ∧ c.id = id then { c with spawned := true } else c }

section
variable {P : Platform} {tid : Tid} {e : Env} {s s' : Server}

theorem exec_start {r : Int} (hx : exec P tid .start e s = some (r, s')) :
    s' = s ∧ ∃ c ∈ s.conns, c.fd = r ∧ c.spawned = true ∧ tid = .handler c.id := by
  simp only [exec] at hx
  split at hx
  · cases hx
  · rename_i c hfind
    cases hx
    have hc := List.find?_some hfind
    rw [Bool.and_eq_true, decide_eq_true_eq] at hc
    exact ⟨rfl, c, List.mem_of_find?_eq_some hfind, rfl, hc.1, hc.2⟩

theorem exec_authVerify {i : Nat} {u p : Bytes} {r : ChatStatus}
    (hx : exec P (.handler i) (.authVerify u p) e s = some (r, s')) :
    (r = .ok ∧ s' = s.passed i u) ∨ (r ≠ .ok ∧ s' = s) := by
  simp only [exec] at hx
  cases hrc : authVerify P e.evp s.auth u p with
  | ok =>
    rw [hrc] at hx
    cases hx
    exact Or.inl ⟨rfl, rfl⟩
  | _ =>
    rw [hrc] at hx
    cases hx
    exact Or.inr ⟨nofun, rfl⟩

/-- What a `registry_add` leaves alone. -/
theorem exec_registryAdd {fd : Int} {u room : Bytes} {isAdmin : Bool} {r : ChatStatus}
    (hx : exec P tid (.registryAdd fd u room isAdmin) e s = some (r, s')) :
    s'.rooms = s.rooms ∧ s'.queue = s.queue ∧ s'.conns = s.conns ∧ s'.verified = s.verified := by
  simp only [exec] at hx
  split at hx
  · cases hx; exact ⟨rfl, rfl, rfl, rfl⟩
  · split at hx
    · cases hx
    · cases hx; exact ⟨rfl, rfl, rfl, rfl⟩

theorem exec_accept {r : Option (Int × Nat)} (hx : exec P tid .accept e s = some (r, s')) :
    (r = none ∧ s' = s) ∨ ∃ fd, r = some (fd, s.nextId) ∧ s.holds fd = false ∧ s' = s.accepted fd := by
  simp only [exec] at hx
  split at hx
  · cases hx; exact Or.inl ⟨rfl, rfl⟩
  · rename_i fd _
    split at hx
    · cases hx
    · rename_i hguard
      simp only [not_or, Bool.not_eq_true] at hguard
      cases hx
      exact Or.inr ⟨fd, rfl, hguard.2.1, rfl⟩

theorem exec_spawn {fd : Int} {id : Nat} {r : Bool} (hx : exec P tid (.spawn fd id) e s = some (r, s')) :
    (r = true ∧ s' = s.spawned fd id) ∨ (r = false ∧ s' = s) := by
  simp only [exec] at hx
  split at hx
  · cases hx; exact Or.inl ⟨rfl, rfl⟩
  · cases hx; exact Or.inr ⟨rfl, rfl⟩

end

/-! ## Actions that leave the sessions alone -/

def Act.moves : Act → Bool
  | .close _ => true
  | .authVerify .. => true
  | .registryAdd .. => true
  | .registryRemove _ => true
  | .registrySetRoom .. => true
  | .accept => true
  | .spawn .. => true
  | _ => false

/-- Nothing that the invariant or a view speaks of has changed. -/
structure Unmoved (s s' : Server) : Prop where
  registry : s'.registry = s.registry
  conns : s'.conns = s.conns
  verified : s'.verified = s.verified
  owner : s'.owner = s.owner
  nextId : s'.nextId = s.nextId

section
variable {P : Platform} {T : Prop} {tid : Tid} {e : Env} {s s' : Server}

theorem exec_unmoved {a : Act} (ha : a.moves = false) {r : a.Ret} (hx : exec P tid a e s = some (r, s')) :
    Unmoved s s' := by
  cases a with
  | close | authVerify | registryAdd | registryRemove | registrySetRoom | accept | spawn => cases ha
  | start =>
    obtain ⟨rfl, -⟩ := exec_start hx
    exact ⟨rfl, rfl, rfl, rfl, rfl⟩
  | mqPop =>
    simp only [exec] at hx
    split at hx
    · cases hx
    · cases hx; exact ⟨rfl, rfl, rfl, rfl, rfl⟩
  | connTrackDecrement =>
    simp only [exec] at hx
    cases hx
    split <;> exact ⟨rfl, rfl, rfl, rfl, rfl⟩
  | _ => cases hx; exact ⟨rfl, rfl, rfl, rfl, rfl⟩

theorem Unmoved.inv (h : Unmoved s s') (hi : Inv T s) : Inv T s' := by
  obtain ⟨hr, hc, hv, ho, hn⟩ := h
  refine ⟨⟨?_, ?_, ?_, ?_, ?_, ?_⟩, fun hT => ⟨?_, ?_⟩⟩
  · rw [hc]; exact hi.1.fds
  · rw [hc]; exact hi.1.ids
  · rw [hc, hn]; exact hi.1.ids_lt
  · rw [hr]; exact hi.1.nodeFds
  · rw [hr]; exact hi.1.addrs
  · rw [hr, hc, hv, ho]; exact hi.1.owned
  · rw [hr]; exact (hi.2 hT).exact
  · rw [hr]; exact (hi.2 hT).names

theorem Unmoved.sat (h : Unmoved s s') {v : View} (hs : Sat tid v s) : Sat tid v s' := by
  obtain ⟨hr, hc, hv, -, hn⟩ := h
  cases tid <;> cases v <;> simp only [Sat, NoNode, hr, hc, hv, hn] at hs ⊢ <;> exact hs

end

end ChatServer

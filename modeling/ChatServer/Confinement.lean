import ChatServer.FanOut
import ChatServer.Refinement
import ChatServer.Routine

/-!
# What is said in a room stays there

The broadcaster reads a node of the list, compares its room and only then
sends, with the lock released. By the time of the send the client may have
moved on; what can be said is that some time behind the `mq_pop` its session
was registered in the room of the event.
-/

namespace ChatServer

open CStr Interleave Prog

/-- A read of `cur->next` where no node is linked. -/
def Stray (s : Server) : Act → Prop
  | .foreachNext cur => ∀ n ∈ s.registry.nodes, n.addr ≠ cur
  | _ => False

instance (s : Server) (a : Act) : Decidable (Stray s a) := by
  cases a <;> unfold Stray <;> infer_instance

abbrev OnLinks (P : Platform) (c : System) (l : Label Tid Act.Ret) (c' : System) : Prop :=
  System.Step P Env.Terminated c l c' ∧ ¬ Stray c.shared l.act

/-- The node was in the registry at some moment behind the last pop. -/
def Sighted (P : Platform) (db : AuthDb) (tr : List (Label Tid Act.Ret)) (c : System) (node : ClientNode) : Prop :=
  ∃ tr₁ tr₂ c₁, tr = tr₁ ++ tr₂ ∧ Run (OnLinks P) (System.init db) tr₁ c₁ ∧ Run (OnLinks P) c₁ tr₂ c ∧ popped tr = popped tr₁ ∧
    node ∈ c₁.shared.registry.nodes

/-- The event popped last, with what the broadcaster keeps of it. -/
def Current (P : Platform) (tr : List (Label Tid Act.Ret)) (room line : Bytes) : Prop :=
  ∃ msg, (popped tr).getLast? = some msg ∧ eventLine P msg = some line ∧ msg.room = room

def SendsTo (room line : Bytes) (node : ClientNode) (a : Act) : Prop :=
  cstr node.room = cstr room ∧ ∃ sent, a = .send node.sockfd line sent

def Watches (P : Platform) (db : AuthDb) (tr : List (Label Tid Act.Ret)) (c : System) : Broadcaster → Prop
  | .first room line | .stepping room line _ => Current P tr room line
  | .sending room line _ p => Current P tr room line ∧ ∃ node, Sighted P db tr c node ∧ Only (SendsTo room line node) p
  | _ => True

/-! ## One step -/

theorem nodeAfter_mem {cur : Nat} {n : ClientNode} : ∀ {nodes : List ClientNode}, nodeAfter cur nodes = some (some n) → n ∈ nodes
  | [], h => by cases h
  | m :: rest, h => by
    unfold nodeAfter at h
    split at h
    · exact List.mem_cons_of_mem _ (List.mem_of_mem_head? (Option.some.inj h))
    · exact List.mem_cons_of_mem _ (nodeAfter_mem h)

theorem nodeAfter_isSome {cur : Nat} : ∀ {nodes : List ClientNode}, (∃ n ∈ nodes, n.addr = cur) → ∃ r, nodeAfter cur nodes = some r
  | [], ⟨_, hn, _⟩ => absurd hn List.not_mem_nil
  | m :: rest, ⟨n, hn, hcur⟩ => by
    unfold nodeAfter
    split
    · exact ⟨_, rfl⟩
    · rename_i hm
      refine nodeAfter_isSome ⟨n, (List.mem_cons.mp hn).resolve_left ?_, hcur⟩
      rintro rfl
      exact hm hcur

section
variable {P : Platform} {db : AuthDb} {tr : List (Label Tid Act.Ret)} {c c' : System} {l : Label Tid Act.Ret}

theorem sendToClient_only (room line : Bytes) (node : ClientNode) : Only (SendsTo room line node) (sendToClient room line node) := by
  unfold sendToClient
  by_cases hroom : cstr node.room = cstr room
  · rw [streq_iff.mpr hroom]
    refine Only.bind (fun rc => ?_) (sendAll_only fun sent => ⟨hroom, sent, rfl⟩)
    split <;> exact only_ret _
  · have hne : streq node.room room = false := by simpa using mt streq_iff.mp hroom
    rw [hne]
    exact only_ret _

theorem Sighted.snoc {node : ClientNode} (h : Sighted P db tr c node) (hs : OnLinks P c l c') (hpop : popOf l = none) :
    Sighted P db (tr ++ [l]) c' node := by
  obtain ⟨tr₁, tr₂, c₁, rfl, h₁, h₂, hp, hn⟩ := h
  exact ⟨tr₁, tr₂ ++ [l], c₁, List.append_assoc .., h₁, h₂.snoc hs, (popped_quiet hpop _).trans hp, hn⟩

theorem Current.snoc {room line : Bytes} (h : Current P tr room line) (hpop : popOf l = none) : Current P (tr ++ [l]) room line := by
  rwa [Current, popped_quiet hpop]

theorem afterCallback_watches {room line : Bytes} {cur : Nat} {node : ClientNode} (h : Current P tr room line) (hn : Sighted P db tr c node) :
    ∀ {p : Cmd ChatStatus}, Only (SendsTo room line node) p → Watches P db tr c (Broadcaster.afterCallback room line cur p)
  | .ret rc, _ => by
    show Watches P db tr c (if rc ≠ .ok then .top else .stepping room line cur)
    split
    · trivial
    · exact h
  | .act _ _, hp => ⟨h, node, hn, hp⟩

theorem visit_watches {room line : Bytes} (h : Current P tr room line) :
    ∀ {node : Option ClientNode}, (∀ n, node = some n → Sighted P db tr c n) → Watches P db tr c (Broadcaster.visit room line node)
  | none, _ => trivial
  | some n, hn => afterCallback_watches h (hn n rfl) (sendToClient_only room line n)

theorem onEvent_watches {msg : MqMessage} (h : (popped tr).getLast? = some msg) : Watches P db tr c (Broadcaster.onEvent P msg) := by
  unfold Broadcaster.onEvent
  split
  · trivial
  split
  · trivial
  · rename_i line hl
    exact ⟨msg, h, hl, rfl⟩

theorem first_linked {e : Env} {s s' : Server} {n : ClientNode} (hx : exec P .broadcaster .foreachFirst e s = some (some n, s')) :
    n ∈ s'.registry.nodes := by
  obtain ⟨hhead, rfl⟩ := Prod.mk.inj (Option.some.inj hx)
  exact List.mem_of_mem_head? hhead

theorem next_linked {e : Env} {s s' : Server} {cur : Nat} {n : ClientNode} (hstray : ¬ Stray s (.foreachNext cur))
    (hx : exec P .broadcaster (.foreachNext cur) e s = some (some n, s')) : n ∈ s'.registry.nodes := by
  obtain ⟨hnext, rfl⟩ := Prod.mk.inj (Option.some.inj hx)
  have hlinked : ∃ m ∈ s.registry.nodes, m.addr = cur := by
    by_contra hno
    exact hstray fun m hm he => hno ⟨m, hm, he⟩
  obtain ⟨r, hr⟩ := nodeAfter_isSome hlinked
  rw [hr] at hnext
  obtain rfl : r = some n := hnext
  exact nodeAfter_mem hr

theorem Watches.own {b : Broadcaster} (h : Watches P db tr c b) (hr : Run (OnLinks P) (System.init db) tr c) {a : Act} {k : a.Ret → Broadcaster}
    (hn : b.next P = some ⟨a, k⟩) {r : a.Ret} (hs : OnLinks P c ⟨.broadcaster, a, r⟩ c') {e : Env}
    (hx : exec P .broadcaster a e c.shared = some (r, c'.shared)) : Watches P db (tr ++ [⟨.broadcaster, a, r⟩]) c' (k r) := by
  have now : popOf ⟨.broadcaster, a, r⟩ = none → ∀ n, n ∈ c'.shared.registry.nodes → Sighted P db (tr ++ [⟨.broadcaster, a, r⟩]) c' n :=
    fun hpop n hmem => ⟨_, [], c', (List.append_nil _).symm, hr.snoc hs, .nil, rfl, hmem⟩
  cases b with
  | top =>
    cases hn
    change Bool at r
    cases r <;> trivial
  | popping =>
    cases hn
    change ChatStatus × Option MqMessage at r
    obtain ⟨rc, msg⟩ := r
    have hpop : popped (tr ++ [⟨.broadcaster, .mqPop, (rc, msg)⟩]) = popped tr ++ msg.toList := popped_snoc _ _
    cases rc with
    | ok =>
      cases msg with
      | none => trivial
      | some msg =>
        refine onEvent_watches ?_
        rw [hpop]
        exact List.getLast?_concat
    | _ => trivial
  | first room line =>
    cases hn
    change Option ClientNode at r
    refine visit_watches (Current.snoc h rfl) fun n he => ?_
    subst he
    exact now rfl n (first_linked hx)
  | stepping room line cur =>
    cases hn
    change Option ClientNode at r
    refine visit_watches (Current.snoc h rfl) fun n he => ?_
    subst he
    exact now rfl n (next_linked hs.2 hx)
  | sending room line cur p =>
    obtain ⟨hcur, node, hsight, hp⟩ := h
    cases p with
    | ret => cases hn
    | act b kb =>
      cases hn
      obtain ⟨⟨-, sent, rfl⟩, hrest⟩ := hp
      exact afterCallback_watches (hcur.snoc rfl) (hsight.snoc hs rfl) (hrest r)
  | done => cases hn

theorem Watches.other {b : Broadcaster} (h : Watches P db tr c b) (hs : OnLinks P c l c') (hpop : popOf l = none) :
    Watches P db (tr ++ [l]) c' b := by
  cases b with
  | first | stepping => exact Current.snoc h hpop
  | sending room line cur p =>
    obtain ⟨hcur, node, hsight, hp⟩ := h
    exact ⟨hcur.snoc hpop, node, hsight.snoc hs hpop, hp⟩
  | _ => trivial

theorem run_watches (hr : Run (OnLinks P) (System.init db) tr c) : ∃ b, c.loc .broadcaster = .broadcaster b ∧ Watches P db tr c b := by
  induction hr with
  | nil => exact ⟨.top, rfl, trivial⟩
  | @snoc c c' tr l hr hs ih =>
    obtain ⟨b, hb, hw⟩ := ih
    have hplain : Run (System.Step P Env.Terminated) (System.init db) tr c := hr.mono fun _ _ _ h => h.1
    have hpop := popOf_tid (run_staged (T := True) (fun _ he _ => he) hplain) hs.1
    have hst := hs
    obtain ⟨hstep, -⟩ := hst
    cases hstep with
    | @mk tid a k e r s' hn he hx =>
      by_cases htid : tid = .broadcaster
      · subst htid
        rw [hb] at hn
        obtain ⟨⟨a', k'⟩, hb', heq⟩ := Option.map_eq_some_iff.mp hn
        cases heq
        refine ⟨k' r, ?_, hw.own hr hb' hs hx⟩
        show Function.update c.loc .broadcaster (Thread.broadcaster (k' r)) .broadcaster = _
        rw [Function.update_self]
      · exact ⟨b, (Function.update_of_ne (Ne.symm htid) ..).trans hb, hw.other hs (hpop htid)⟩

theorem exec_keeps_conn {tid : Tid} {a : Act} {e : Env} {s s' : Server} {r : a.Ret} {d : Conn} (hd : d ∈ s.conns ∧ d.spawned = true)
    (hx : exec P tid a e s = some (r, s')) : d ∈ s'.conns ∨ ∃ fd, a = .close fd := by
  have same : s'.conns = s.conns → d ∈ s'.conns ∨ ∃ fd, a = .close fd := fun h => Or.inl (h ▸ hd.1)
  cases a with
  | close fd => exact Or.inr ⟨fd, rfl⟩
  | authVerify =>
    cases hx
    split <;> exact Or.inl hd.1
  | registryAdd => exact same (exec_registryAdd hx).2.2.1
  | registryRemove | registrySetRoom => cases hx; exact Or.inl hd.1
  | accept =>
    rcases exec_accept hx with ⟨-, rfl⟩ | ⟨fd, -, -, rfl⟩
    · exact Or.inl hd.1
    · exact Or.inl (List.mem_cons_of_mem _ hd.1)
  | spawn =>
    rcases exec_spawn hx with ⟨-, rfl⟩ | ⟨-, rfl⟩
    · exact Or.inl (mem_spawned hd.1 hd.2)
    · exact Or.inl hd.1
  | _ => exact same (exec_unmoved rfl hx).conns

/-- A connection stays until its own handler closes it. -/
theorem conn_stays {tr₁ tr₂ : List (Label Tid Act.Ret)} {c₁ : System} {fd : Int} {i : Nat}
    (h₁ : Run (System.Step P Env.Terminated) (System.init db) tr₁ c₁) (h₂ : Run (System.Step P Env.Terminated) c₁ tr₂ c)
    (hc : ⟨fd, i, true⟩ ∈ c₁.shared.conns) :
    ⟨fd, i, true⟩ ∈ c.shared.conns ∨ ∃ l ∈ tr₂, l.tid = .handler i ∧ l.act = .close fd := by
  induction h₂ with
  | nil => exact Or.inl hc
  | @snoc c c' tr₂ l h₂ hs ih =>
    have hst : Staged True (tr₁ ++ tr₂) c := run_staged (fun _ he _ => he) (h₁.trans h₂)
    rcases ih with hmem | ⟨l', hl', hclose⟩
    · obtain ⟨hp, e, he, hx⟩ := hst.step hs
      have hsat := (hst.relies l.tid).sat
      by_cases htid : l.tid = .handler i
      · rcases exec_keeps_conn ⟨hmem, rfl⟩ hx with hmem' | ⟨fd', hclose⟩
        · exact Or.inl hmem'
        · -- a handler closes no other descriptor than its own
          rw [htid] at hsat
          have hal := hp.allowed
          rw [hclose, htid] at hal
          obtain ⟨-, d, hd, rfl, ho⟩ := close_owned hst.shared hsat hal
          obtain rfl : d = ⟨fd, i, true⟩ := hst.shared.1.conn_id hd hmem ho.1
          exact Or.inr ⟨l, List.mem_append_right _ (List.mem_singleton_self l), htid, hclose⟩
      · obtain ⟨-, -, hrely⟩ := exec_moves hst.shared hsat hp.allowed (fun _ => he) hx
        exact Or.inl ((hrely (.handler i) (Ne.symm htid)).conns _ hmem ⟨rfl, rfl⟩)
    · exact Or.inr ⟨l', List.mem_append_left _ hl', hclose⟩

/-- **What is said in a room stays there**: as long as no freed node is read,
every line that the broadcaster sends is the line of the event it has popped
last, and goes to the descriptor of a session that since that pop was registered
in the room of the event; another session has the descriptor by now only if
that one has closed it. -/
theorem broadcasts_confined (hr : Run (OnLinks P) (System.init db) tr c) (hs : OnLinks P c l c') (htid : l.tid = .broadcaster)
    {fd : Int} {buf : Bytes} {sent : Nat} (hl : l.act = .send fd buf sent) :
    ∃ tr₁ tr₂ c₁ msg i username, tr = tr₁ ++ tr₂ ∧ Run (OnLinks P) (System.init db) tr₁ c₁ ∧ Run (OnLinks P) c₁ tr₂ c ∧
      popped tr = popped tr₁ ∧ (popped tr).getLast? = some msg ∧ eventLine P msg = some buf ∧
      Registered c₁.shared i username (cstr msg.room) ∧ ⟨fd, i, true⟩ ∈ c₁.shared.conns ∧
      ((∀ d ∈ c.shared.conns, d.fd = fd → d.id = i) ∨ ∃ l ∈ tr₂, l.tid = .handler i ∧ l.act = .close fd) := by
  obtain ⟨b, hb, hw⟩ := run_watches hr
  obtain ⟨hstep, -⟩ := hs
  cases hstep with
  | @mk tid a k e r s' hn he hx =>
    obtain rfl : tid = .broadcaster := htid
    obtain rfl : a = .send fd buf sent := hl
    rw [hb] at hn
    obtain ⟨⟨a', k'⟩, hb', heq⟩ := Option.map_eq_some_iff.mp hn
    cases heq
    cases b with
    | top | popping | first | stepping | done => cases hb'
    | sending room line cur p =>
      obtain ⟨⟨msg, hlast, hline, rfl⟩, node, ⟨tr₁, tr₂, c₁, rfl, h₁, h₂, hpop, hnode⟩, hp⟩ := hw
      cases p with
      | ret => cases hb'
      | act b kb =>
        cases hb'
        obtain ⟨⟨hroom, sent', he⟩, -⟩ := hp
        cases he
        have hplain := h₁.mono fun _ _ _ h => h.1
        have hplain₂ := h₂.mono fun _ _ _ h => h.1
        have hi₁ := (run_staged (T := True) (fun _ he _ => he) hplain).shared
        have hi := (run_staged (T := True) (fun _ he _ => he) (hplain.trans hplain₂)).shared
        have hconn := (hi₁.1.owned node hnode).1
        refine ⟨tr₁, tr₂, c₁, msg, c₁.shared.owner node.addr, cstr node.username, rfl, h₁, h₂, hpop, hlast, hline,
          ⟨node, hnode, rfl, rfl, hroom⟩, hconn, ?_⟩
        refine (conn_stays hplain hplain₂ hconn).imp_left fun hstay d hd hfd => ?_
        exact congrArg Conn.id (hi.1.conn_fd hd hstay hfd)

end

/-- `bob` logs in, and the broadcaster comes to his node with the line of his arrival. -/
def bobArrives : List (Tid × Env) := logIn 0 5 "bob" ++ List.replicate 3 (.broadcaster, sunny "" 5 0)

theorem terminated_bobArrives : ∀ p ∈ bobArrives, p.2.Terminated := by
  intro p hp
  rcases List.mem_append.mp hp with hp | hp
  · exact sunny_logIn 0 5 "bob" p hp
  · rw [(List.mem_replicate.mp hp).2]
    exact sunny_terminated _ _ _

def announce (c : System) : Option (Label Tid Act.Ret × System) :=
  stepWith (Thread.next passPlatform) (exec passPlatform) c .broadcaster (sunny "" 5 0)

def linked (c : System) (l : Label Tid Act.Ret) (_ : System) : Bool := decide (¬ Stray c.shared l.act)

def joinLine : Bytes := lit "USER_JOIN bob lobby\n"

def greets (r : Label Tid Act.Ret × System) : Bool := decide (r.1.tid = .broadcaster ∧ r.1.act = .send 5 joinLine 0)

theorem broadcasts_confined_bob : ∃ tr c l c', Run (OnLinks passPlatform) (System.init passDb) tr c ∧ OnLinks passPlatform c l c' ∧
    l.tid = .broadcaster ∧ l.act = .send 5 joinLine 0 ∧
    ∃ tr₁ c₁ msg i username, Run (OnLinks passPlatform) (System.init passDb) tr₁ c₁ ∧ eventLine passPlatform msg = some joinLine ∧
      Registered c₁.shared i username (cstr msg.room) ∧ ⟨5, i, true⟩ ∈ c₁.shared.conns := by
  have hguard : (guarded (Thread.next passPlatform) (exec passPlatform) linked (System.init passDb) bobArrives).any
      (fun q => (announce q.2).any greets) = true := by decide +kernel
  obtain ⟨tr, c, hr, hp⟩ := System.exists_guarded passPlatform Env.Terminated (System.init passDb) _ terminated_bobArrives hguard
  obtain ⟨⟨l, c'⟩, hstep, hl⟩ := (Option.any_eq_true _ _).mp hp
  obtain ⟨htid, hact⟩ := of_decide_eq_true hl
  have hrun : Run (OnLinks passPlatform) (System.init passDb) tr c := hr.mono fun _ _ _ h => ⟨h.1, of_decide_eq_true h.2⟩
  have hs : OnLinks passPlatform c l c' := ⟨step_of_stepWith (sunny_terminated _ _ _) hstep, by rw [hact]; exact id⟩
  obtain ⟨tr₁, -, c₁, msg, i, username, -, h₁, -, -, -, hline, hreg, hconn, -⟩ := broadcasts_confined hrun hs htid hact
  exact ⟨tr, c, l, c', hrun, hs, htid, hact, tr₁, c₁, msg, i, username, h₁, hline, hreg, hconn⟩

end ChatServer

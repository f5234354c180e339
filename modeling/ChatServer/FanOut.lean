import ChatServer.Feed
import ChatServer.Tearing
import ChatServer.Traversal

/-!
# What the members of a room hear

The broadcaster pops one event after the other and walks along the list for
each. As long as nobody is unlinked under its feet, a client that stays in a
room gets the line of every event of the room, once and in the order of the
queue.
-/

namespace ChatServer

open CStr Interleave Prog

/-! ## Reading the trace -/

/-- The line that the thread has sent to its end on `fd`. -/
def writtenOf (tid : Tid) (fd : Int) (l : Label Tid Act.Ret) : Option Bytes :=
  match l with
  | ⟨tid', .send fd' buf sent, (r : Option Nat)⟩ =>
    if tid' = tid ∧ fd' = fd ∧ r.any (fun n => decide (buf.length ≤ sent + n)) = true then some buf else none
  | _ => none

def written (tid : Tid) (fd : Int) (tr : List (Label Tid Act.Ret)) : List Bytes := tr.filterMap (writtenOf tid fd)

abbrev aired (fd : Int) (tr : List (Label Tid Act.Ret)) : List Bytes := written .broadcaster fd tr

def lineFor (P : Platform) (room : Bytes) (msg : MqMessage) : Option Bytes :=
  if cstr msg.room = room then eventLine P msg else none

def Member (s : Server) (fd : Int) (room : Bytes) : Prop := ∃ n ∈ s.registry.nodes, n.sockfd = fd ∧ cstr n.room = room

instance (s : Server) (fd : Int) (room : Bytes) : Decidable (Member s fd room) :=
  inferInstanceAs (Decidable (∃ n ∈ s.registry.nodes, _))

/-- Between two events. -/
def Broadcaster.Idle : Broadcaster → Prop
  | .top | .popping | .done => True
  | _ => False

/-- Between the first node and the last one. -/
def Broadcaster.Walking : Broadcaster → Prop
  | .sending .. | .stepping .. => True
  | _ => False

def System.Idle (c : System) : Prop := ∃ b, c.loc .broadcaster = .broadcaster b ∧ b.Idle

/-- No client is removed while the broadcaster walks along the list. -/
def Calm (c : System) (l : Label Tid Act.Ret) : Prop :=
  ∀ tid fd, l = ⟨tid, .registryRemove fd, ChatStatus.ok⟩ → ∀ b, c.loc .broadcaster = .broadcaster b → ¬ b.Walking

/-! ## The list under the broadcaster -/

def keys (s : Server) : List (Nat × Int) := s.registry.nodes.map fun n => (n.addr, n.sockfd)

section
variable {P : Platform} {tid : Tid} {e : Env} {s s' : Server} {a : Act} {r : a.Ret}

/-- Nodes come in at the head, and otherwise the list stays unless one is removed. -/
theorem exec_keys (hx : exec P tid a e s = some (r, s')) :
    (∃ new, keys s' = new ++ keys s) ∨ ∃ fd, (⟨a, r⟩ : (a : Act) × a.Ret) = ⟨.registryRemove fd, ChatStatus.ok⟩ := by
  have same : s'.registry = s.registry → ∃ new, keys s' = new ++ keys s := fun h => ⟨[], by rw [keys, h]; rfl⟩
  cases a with
  | registryAdd fd u room isAdmin =>
    rcases exec_registryAdd_cases hx with ⟨-, -, mem, -, hnodes⟩ | ⟨-, hreg⟩
    · exact Or.inl ⟨[_], by rw [keys, hnodes]; rfl⟩
    · exact Or.inl (same hreg)
  | registrySetRoom fd room =>
    refine Or.inl ⟨[], ?_⟩
    rw [keys, exec_registrySetRoom hx, setRoomFirst_map fd room fun _ => rfl]
    rfl
  | registryRemove fd =>
    cases hx
    rcases registryRemove_cases s.registry fd with hreg | hrc
    · exact Or.inl (same hreg)
    · exact Or.inr ⟨fd, congrArg (Sigma.mk (Act.registryRemove fd)) hrc⟩
  | _ => exact Or.inl (same (exec_registry rfl hx))

end

/-! ## One line for one client -/

/-- What is left of `send_to_client` once it sends. -/
def castLoop (fd : Int) (line : Bytes) (fuel sent : Nat) : Cmd ChatStatus := do
  if (← sendLoop fd line fuel sent) ≠ .ok then return .errIo
  return .ok

theorem castLoop_done {fd : Int} {line : Bytes} {sent : Nat} (h : line.length ≤ sent) : ∀ fuel, castLoop fd line fuel sent = .ret .ok
  | 0 => rfl
  | fuel + 1 => by
    unfold castLoop sendLoop
    rw [if_pos h]
    rfl

theorem castLoop_act (fd : Int) {line : Bytes} {fuel sent : Nat} (h : sent < line.length) (hf : 0 < fuel) :
    ∃ k, castLoop fd line fuel sent = .act (.send fd line sent) k ∧
      (∀ n, 0 < n → k (some n) = castLoop fd line (fuel - 1) (sent + n)) ∧ ∀ r, (∀ n, 0 < n → r ≠ some n) → k r = .ret .errIo := by
  obtain ⟨fuel, rfl⟩ := Nat.exists_eq_succ_of_ne_zero (Nat.ne_of_gt hf)
  rw [castLoop, sendLoop, if_neg (Nat.not_le.mpr h)]
  refine ⟨_, rfl, fun n hn => ?_, fun r hr => ?_⟩
  · obtain ⟨n, rfl⟩ := Nat.exists_eq_succ_of_ne_zero (Nat.ne_of_gt hn)
    rfl
  · change Option Nat at r
    cases r with
    | none => rfl
    | some n =>
      cases n with
      | zero => rfl
      | succ n => exact absurd rfl (hr (n + 1) (Nat.succ_pos n))

theorem sendToClient_other_room {room line : Bytes} {node : ClientNode} (h : cstr node.room ≠ cstr room) :
    sendToClient room line node = .ret .ok := by
  unfold sendToClient
  rw [if_pos]
  · rfl
  · simpa using mt streq_iff.mp h

theorem sendToClient_member_room {room line : Bytes} {node : ClientNode} (h : cstr node.room = cstr room) :
    sendToClient room line node = castLoop node.sockfd line line.length 0 := by
  unfold sendToClient
  rw [if_neg]
  · rfl
  · simpa using streq_iff.mpr h

/-! ## One event -/

def linesFor (P : Platform) (room : Bytes) (msgs : List MqMessage) : List Bytes := msgs.filterMap (lineFor P room)

/-- The event popped last is on its way, and the client with `fd` is still waiting for it or not. -/
def Told (P : Platform) (room : Bytes) (fd : Int) (tr : List (Label Tid Act.Ret)) (evtRoom line : Bytes) (waiting : Prop) : Prop :=
  ∃ old msg, popped tr = old ++ [msg] ∧ msg.room = evtRoom ∧ eventLine P msg = some line ∧
    (waiting → aired fd tr = linesFor P room old) ∧ (¬ waiting → aired fd tr = linesFor P room (old ++ [msg]))

def OnAir (P : Platform) (room : Bytes) (fd : Int) (tr : List (Label Tid Act.Ret)) (s : Server) : Broadcaster → Prop
  | .first evtRoom line => Told P room fd tr evtRoom line True
  | .sending evtRoom line cur p => ∃ pre k post fuel sent, keys s = pre ++ (cur, k) :: post ∧ p = castLoop k line fuel sent ∧
      sent < line.length ∧ line.length ≤ sent + fuel ∧ (k = fd → cstr evtRoom = room) ∧
      Told P room fd tr evtRoom line (fd ∈ k :: post.map Prod.snd)
  | .stepping evtRoom line cur => ∃ pre k post, keys s = pre ++ (cur, k) :: post ∧
      Told P room fd tr evtRoom line (fd ∈ post.map Prod.snd)
  | _ => aired fd tr = linesFor P room (popped tr)

theorem lineFor_room {P : Platform} {room line : Bytes} {msg : MqMessage} (h : cstr msg.room = room)
    (hline : eventLine P msg = some line) : lineFor P room msg = some line := by
  rw [lineFor, if_pos h, hline]

theorem lineFor_other {P : Platform} {room : Bytes} {msg : MqMessage} (h : cstr msg.room ≠ room) : lineFor P room msg = none := if_neg h

theorem lineFor_silent {P : Platform} {room : Bytes} {msg : MqMessage} (h : eventLine P msg = none) : lineFor P room msg = none := by
  rw [lineFor, h, ite_self]

theorem linesFor_snoc {P : Platform} {room : Bytes} (old : List MqMessage) (msg : MqMessage) :
    linesFor P room (old ++ [msg]) = linesFor P room old ++ (lineFor P room msg).toList := filterMap_snoc _ _ _

section
variable {P : Platform} {room : Bytes} {fd : Int} {tr tr' : List (Label Tid Act.Ret)} {evtRoom line : Bytes} {waiting waiting' : Prop}

theorem Told.congr (h : Told P room fd tr evtRoom line waiting) (hiff : waiting ↔ waiting') : Told P room fd tr evtRoom line waiting' := by
  rwa [← propext hiff]

theorem Told.traced (h : Told P room fd tr evtRoom line waiting) (hpop : popped tr' = popped tr) (hair : aired fd tr' = aired fd tr) :
    Told P room fd tr' evtRoom line waiting := by
  obtain ⟨old, msg, hp, hr, hl, hw, hn⟩ := h
  exact ⟨old, msg, hpop.trans hp, hr, hl, fun h => hair.trans (hw h), fun h => hair.trans (hn h)⟩

theorem Told.over (h : Told P room fd tr evtRoom line waiting) (hn : ¬ waiting) : aired fd tr = linesFor P room (popped tr) := by
  obtain ⟨old, msg, hp, -, -, -, hnot⟩ := h
  rw [hp]
  exact hnot hn

/-- The event is for another room. -/
theorem Told.skip (h : Told P room fd tr evtRoom line waiting) (hroom : cstr evtRoom ≠ room) : Told P room fd tr evtRoom line waiting' := by
  obtain ⟨old, msg, hp, rfl, hl, hw, hn⟩ := h
  have hsame : linesFor P room (old ++ [msg]) = linesFor P room old := by
    rw [linesFor_snoc, lineFor_other hroom]
    exact List.append_nil _
  have hair : aired fd tr = linesFor P room old := by
    by_cases h : waiting
    · exact hw h
    · rw [hn h, hsame]
  exact ⟨old, msg, hp, rfl, hl, fun _ => hair, fun _ => by rw [hsame, hair]⟩

theorem Told.sent (h : Told P room fd tr evtRoom line waiting) (hroom : cstr evtRoom = room) (hw : waiting)
    (hpop : popped tr' = popped tr) (hair : aired fd tr' = aired fd tr ++ [line]) (hn : ¬ waiting') :
    Told P room fd tr' evtRoom line waiting' := by
  obtain ⟨old, msg, hp, rfl, hl, hwait, -⟩ := h
  refine ⟨old, msg, hpop.trans hp, rfl, hl, fun h => absurd h hn, fun _ => ?_⟩
  rw [hair, hwait hw, linesFor_snoc, lineFor_room hroom hl]
  rfl

theorem OnAir.frame {s s' : Server} {b : Broadcaster} (h : OnAir P room fd tr s b) (hpop : popped tr' = popped tr)
    (hair : aired fd tr' = aired fd tr) (hk : b.Walking → ∃ new, keys s' = new ++ keys s) : OnAir P room fd tr' s' b := by
  cases b with
  | top | popping | done =>
    show aired fd tr' = linesFor P room (popped tr')
    rw [hpop, hair]
    exact h
  | first evtRoom line => exact Told.traced h hpop hair
  | sending evtRoom line cur p =>
    obtain ⟨pre, k, post, fuel, sent, hkeys, hp, hs, hf, hr, ht⟩ := h
    obtain ⟨new, hnew⟩ := hk trivial
    exact ⟨new ++ pre, k, post, fuel, sent, by rw [hnew, hkeys, List.append_assoc], hp, hs, hf, hr, ht.traced hpop hair⟩
  | stepping evtRoom line cur =>
    obtain ⟨pre, k, post, hkeys, ht⟩ := h
    obtain ⟨new, hnew⟩ := hk trivial
    exact ⟨new ++ pre, k, post, by rw [hnew, hkeys, List.append_assoc], ht.traced hpop hair⟩

/-- The walk enters the rest of the list. -/
theorem visit_onAir {s : Server} (hm : Member s fd room) (hfds : (s.registry.nodes.map ClientNode.sockfd).Nodup)
    (pre : List ClientNode) {post : List ClientNode} (hnodes : s.registry.nodes = pre ++ post)
    (ht : Told P room fd tr evtRoom line (fd ∈ post.map ClientNode.sockfd)) :
    OnAir P room fd tr s (Broadcaster.visit evtRoom line post.head?) := by
  cases post with
  | nil => exact ht.over List.not_mem_nil
  | cons node post =>
    have hkeys : keys s = pre.map (fun n => (n.addr, n.sockfd)) ++ (node.addr, node.sockfd) :: post.map fun n => (n.addr, n.sockfd) := by
      rw [keys, hnodes, List.map_append]
      rfl
    have hsnd : (post.map fun n => (n.addr, n.sockfd)).map Prod.snd = post.map ClientNode.sockfd := List.map_map
    have hmine : node.sockfd = fd → cstr node.room = room := by
      rintro rfl
      obtain ⟨n, hn, he, hroom⟩ := hm
      have hnode : node ∈ s.registry.nodes := by rw [hnodes]; exact List.mem_append_right _ (List.mem_cons_self ..)
      obtain rfl : n = node := List.inj_on_of_nodup_map hfds hn hnode he
      exact hroom
    by_cases hroom : cstr node.room = cstr evtRoom
    · show OnAir P room fd tr s (Broadcaster.afterCallback evtRoom line node.addr (sendToClient evtRoom line node))
      have hpos : 0 < line.length := by
        obtain ⟨_, msg, -, -, hl, -⟩ := ht
        exact eventLine_nonempty hl
      obtain ⟨k, hact, -⟩ := castLoop_act node.sockfd hpos hpos
      rw [sendToClient_member_room hroom, hact]
      refine ⟨_, node.sockfd, _, line.length, 0, hkeys, hact.symm, hpos, by omega, fun he => hroom.symm.trans (hmine he), ?_⟩
      rw [hsnd]
      exact ht
    · show OnAir P room fd tr s (Broadcaster.afterCallback evtRoom line node.addr (sendToClient evtRoom line node))
      rw [sendToClient_other_room hroom]
      refine ⟨_, node.sockfd, _, hkeys, ?_⟩
      rw [hsnd]
      by_cases he : node.sockfd = fd
      · exact ht.skip fun h => hroom ((hmine he).trans h.symm)
      · refine ht.congr ?_
        rw [List.map_cons, List.mem_cons, or_iff_right (Ne.symm he)]

end

/-! ## One step -/

theorem written_snoc (tid : Tid) (fd : Int) (tr : List (Label Tid Act.Ret)) (l : Label Tid Act.Ret) :
    written tid fd (tr ++ [l]) = written tid fd tr ++ (writtenOf tid fd l).toList := filterMap_snoc _ _ _

theorem popped_snoc (tr : List (Label Tid Act.Ret)) (l : Label Tid Act.Ret) : popped (tr ++ [l]) = popped tr ++ (popOf l).toList :=
  filterMap_snoc _ _ _

theorem written_quiet {tid : Tid} {fd : Int} {l : Label Tid Act.Ret} (h : writtenOf tid fd l = none) (tr : List (Label Tid Act.Ret)) :
    written tid fd (tr ++ [l]) = written tid fd tr := by
  rw [written_snoc, h]
  exact List.append_nil _

theorem popped_quiet {l : Label Tid Act.Ret} (h : popOf l = none) (tr : List (Label Tid Act.Ret)) : popped (tr ++ [l]) = popped tr := by
  rw [popped_snoc, h]
  exact List.append_nil _

theorem writtenOf_tid {tid : Tid} {fd : Int} {l : Label Tid Act.Ret} (h : l.tid ≠ tid) : writtenOf tid fd l = none := by
  obtain ⟨tid', a, r⟩ := l
  cases a with
  | send => exact if_neg fun hw => h hw.1
  | _ => rfl

section
variable {tid tid' : Tid} {fd fd' : Int} {buf : Bytes} {sent : Nat}

theorem writtenOf_part {r : Option Nat} (h : ∀ n, r = some n → sent + n < buf.length) :
    writtenOf tid fd ⟨tid', .send fd' buf sent, r⟩ = none := by
  refine if_neg ?_
  rintro ⟨-, -, hany⟩
  obtain ⟨n, hr, hn⟩ := (Option.any_eq_true _ _).mp hany
  exact absurd (of_decide_eq_true hn) (Nat.not_le.mpr (h n hr))

theorem writtenOf_elsewhere (h : fd' ≠ fd) (r : Option Nat) : writtenOf tid fd ⟨tid', .send fd' buf sent, r⟩ = none :=
  if_neg fun hw => h hw.2.1

theorem writtenOf_end {n : Nat} (h : buf.length ≤ sent + n) : writtenOf tid fd ⟨tid, .send fd buf sent, some n⟩ = some buf :=
  if_pos ⟨rfl, rfl, decide_eq_true h⟩

theorem writtenOf_some {l : Label Tid Act.Ret} (h : writtenOf tid fd l = some buf) : l.tid = tid ∧ ∃ sent, l.act = .send fd buf sent := by
  obtain ⟨tid', a, r⟩ := l
  cases a with
  | send fd' buf' sent =>
    obtain ⟨⟨rfl, rfl, -⟩, he⟩ := Option.ite_none_right_eq_some.mp h
    cases he
    exact ⟨rfl, sent, rfl⟩
  | _ => cases h

end

theorem received_lines_snoc (fd : Int) (tr : List (Label Tid Act.Ret)) (l : Label Tid Act.Ret) :
    (received fd (tr ++ [l])).lines = (received fd tr).lines ++ (writtenOf l.tid fd l).toList ∨ (received fd (tr ++ [l])).lines = [] := by
  rw [received_snoc]
  obtain ⟨tid, a, r⟩ := l
  cases a with
  | send fd' buf sent =>
    refine Or.inl ?_
    change Option Nat at r
    show ((if fd' = fd then (received fd tr).onSend buf sent r else received fd tr) : Received).lines = _
    by_cases hfd : fd' = fd
    · subst hfd
      rw [if_pos rfl]
      cases r with
      | none =>
        rw [writtenOf_part fun m (hm : none = some m) => nomatch hm]
        exact (List.append_nil _).symm
      | some n =>
        show (if buf.length ≤ sent + n then (received fd' tr).lines ++ [buf] else (received fd' tr).lines) = _
        split
        · rename_i hend
          rw [writtenOf_end hend]
          rfl
        · rename_i hend
          rw [writtenOf_part fun m hm => Option.some.inj hm ▸ Nat.not_le.mp hend]
          exact (List.append_nil _).symm
    · rw [if_neg hfd, writtenOf_elsewhere hfd]
      exact (List.append_nil _).symm
  | accept =>
    change Option (Int × Nat) at r
    show ((if r.any (·.1 == fd) then ⟨[], []⟩ else received fd tr) : Received).lines = _ ∨
      ((if r.any (·.1 == fd) then ⟨[], []⟩ else received fd tr) : Received).lines = []
    split
    · exact Or.inr rfl
    · exact Or.inl (List.append_nil _).symm
  | _ => exact Or.inl (List.append_nil _).symm

theorem casting_tid {tid : Tid} {s : Server} (h : Sat tid .casting s) : tid = .broadcaster := by
  cases tid with
  | broadcaster => rfl
  | _ => cases h

theorem keys_split {s : Server} {pre post : List (Nat × Int)} {cur : Nat} {k : Int} (h : keys s = pre ++ (cur, k) :: post) :
    ∃ pre' node post', s.registry.nodes = pre' ++ node :: post' ∧ node.addr = cur ∧ post'.map ClientNode.sockfd = post.map Prod.snd := by
  obtain ⟨pre', rest, hnodes, -, hrest⟩ := List.map_eq_append_iff.mp h
  obtain ⟨node, post', rfl, hnode, rfl⟩ := List.map_eq_cons_iff.mp hrest
  exact ⟨pre', node, post', hnodes, congrArg Prod.fst hnode, by rw [List.map_map]; rfl⟩

section
variable {P : Platform} {T : Prop} {ok : Env → Prop} {room : Bytes} {fd : Int} {tr₀ tr : List (Label Tid Act.Ret)} {c c' : System}
  {l : Label Tid Act.Ret}

theorem popOf_tid (hc : Staged T tr₀ c) (hs : System.Step P ok c l c') (h : l.tid ≠ .broadcaster) : popOf l = none := by
  obtain ⟨hp, -⟩ := hc.step hs
  obtain ⟨tid, a, r⟩ := l
  cases a with
  | mqPop =>
    have hsat := (hc.relies tid).sat
    rw [show (stageOf tr₀ tid).phase.view = .casting from hp.allowed] at hsat
    exact absurd (casting_tid hsat) h
  | _ => rfl

theorem onEvent_onAir {s : Server} {msg : MqMessage} (h : aired fd tr = linesFor P room (popped tr)) {tr' : List (Label Tid Act.Ret)}
    (hair : aired fd tr' = aired fd tr) (hpop : popped tr' = popped tr ++ [msg]) : OnAir P room fd tr' s (Broadcaster.onEvent P msg) := by
  have silent : eventLine P msg = none → aired fd tr' = linesFor P room (popped tr') := by
    intro hl
    rw [hair, hpop, h, linesFor_snoc, lineFor_silent hl]
    exact (List.append_nil _).symm
  unfold Broadcaster.onEvent
  split
  · rename_i htype
    refine silent ?_
    rw [eventLine, htype]
    rfl
  split
  · rename_i hl
    exact silent hl
  · rename_i line hl
    exact ⟨popped tr, msg, hpop, rfl, hl, fun _ => hair.trans h, fun hn => absurd trivial hn⟩

/-- The broadcaster's own steps. -/
theorem OnAir.own (hi : Consistent c.shared) (hm : Member c.shared fd room) {b : Broadcaster} (h : OnAir P room fd tr c.shared b)
    {a : Act} {k : a.Ret → Broadcaster} (hn : b.next P = some ⟨a, k⟩) {e : Env} {r : a.Ret} {s' : Server}
    (hx : exec P .broadcaster a e c.shared = some (r, s')) (hd : Delivers ⟨.broadcaster, a, r⟩) :
    OnAir P room fd (tr ++ [⟨.broadcaster, a, r⟩]) s' (k r) := by
  cases b with
  | top =>
    cases hn
    change Bool at r
    have hair : aired fd (tr ++ [⟨.broadcaster, .running, r⟩]) = aired fd tr := written_quiet rfl tr
    have hpop : popped (tr ++ [⟨.broadcaster, .running, r⟩]) = popped tr := popped_quiet rfl tr
    cases r with
    | true | false =>
      show aired fd _ = linesFor P room (popped _)
      rw [hair, hpop]
      exact h
  | popping =>
    cases hn
    have hair : aired fd (tr ++ [⟨.broadcaster, .mqPop, r⟩]) = aired fd tr := written_quiet rfl tr
    have hpop : popped (tr ++ [⟨.broadcaster, .mqPop, r⟩]) = popped tr ++ (popOf ⟨.broadcaster, .mqPop, r⟩).toList := popped_snoc _ _
    change ChatStatus × Option MqMessage at r
    obtain ⟨rc, msg⟩ := r
    have empty : msg = none → aired fd (tr ++ [⟨.broadcaster, .mqPop, (rc, msg)⟩]) =
        linesFor P room (popped (tr ++ [⟨.broadcaster, .mqPop, (rc, msg)⟩])) := by
      rintro rfl
      rw [hair, hpop]
      exact h.trans (congrArg _ (List.append_nil _).symm)
    have hcases : (rc = .ok ∧ msg.isSome = true) ∨ (rc = .err ∧ msg = none) := by
      simp only [exec, mqPop] at hx
      cases hmsgs : c.shared.queue.msgs with
      | cons m rest => rw [hmsgs] at hx; cases hx; exact Or.inl ⟨rfl, rfl⟩
      | nil =>
        rw [hmsgs] at hx
        cases hsd : c.shared.queue.shutdown with
        | true => rw [hsd] at hx; cases hx; exact Or.inr ⟨rfl, rfl⟩
        | false => rw [hsd] at hx; cases hx
    rcases hcases with ⟨rfl, hsome⟩ | ⟨rfl, rfl⟩
    · obtain ⟨msg, rfl⟩ := Option.isSome_iff_exists.mp hsome
      exact onEvent_onAir h hair hpop
    · exact empty rfl
  | first evtRoom line =>
    cases hn
    cases hx
    have ht := Told.traced h (popped_quiet (l := ⟨.broadcaster, .foreachFirst, c.shared.registry.nodes.head?⟩) rfl tr)
      (written_quiet rfl tr)
    refine visit_onAir hm hi.nodeFds [] rfl (ht.congr ⟨fun _ => ?_, fun _ => trivial⟩)
    obtain ⟨n, hn, hfd, -⟩ := hm
    exact List.mem_map.mpr ⟨n, hn, hfd⟩
  | stepping evtRoom line cur =>
    cases hn
    cases hx
    obtain ⟨pre, key, post, hkeys, ht⟩ := h
    obtain ⟨pre', node, post', hnodes, rfl, hpost⟩ := keys_split hkeys
    have haddrs := hi.addrs
    rw [hnodes] at haddrs
    have hnext : (nodeAfter node.addr c.shared.registry.nodes).getD e.dangling = post'.head? := by
      rw [hnodes, nodeAfter_append (addrs_split haddrs).1]
      rfl
    have ht' := ht.traced (popped_quiet (l := ⟨.broadcaster, .foreachNext node.addr,
      (nodeAfter node.addr c.shared.registry.nodes).getD e.dangling⟩) rfl tr) (written_quiet rfl tr)
    show OnAir P room fd _ c.shared (Broadcaster.visit evtRoom line ((nodeAfter node.addr c.shared.registry.nodes).getD e.dangling))
    rw [hnext] at ht' ⊢
    refine visit_onAir hm hi.nodeFds (pre' ++ [node]) (by rw [hnodes, List.append_assoc]; rfl) ?_
    rw [hpost]
    exact ht'
  | sending evtRoom line cur p =>
    obtain ⟨pre, key, post, fuel, sent, hkeys, rfl, hs, hf, hroom, ht⟩ := h
    obtain ⟨k', hact, hk', -⟩ := castLoop_act key hs (show 0 < fuel by omega)
    rw [hact] at hn
    cases hn
    have hr : ∃ n, r = (some n : Option Nat) ∧ 0 < n := hd _ _ _ _ r rfl
    obtain ⟨n, rfl, hpos⟩ := hr
    have hs' : s' = c.shared := (Prod.mk.inj (Option.some.inj hx)).2.symm
    rw [hs']
    have hpop : popped (tr ++ [⟨.broadcaster, .send key line sent, (some n : Option Nat)⟩]) = popped tr := popped_quiet rfl tr
    have hof : writtenOf .broadcaster fd ⟨.broadcaster, .send key line sent, (some n : Option Nat)⟩ =
        if key = fd ∧ line.length ≤ sent + n then some line else none := by simp [writtenOf]
    show OnAir P room fd _ c.shared (Broadcaster.afterCallback evtRoom line cur (k' (some n)))
    rw [hk' n hpos]
    by_cases hmore : sent + n < line.length
    · have hair := written_quiet (hof.trans (if_neg fun h => absurd h.2 (Nat.not_le.mpr hmore))) tr
      obtain ⟨k'', hact', -⟩ := castLoop_act key hmore (show 0 < fuel - 1 by omega)
      rw [hact']
      exact ⟨pre, key, post, fuel - 1, sent + n, hkeys, hact'.symm, hmore, by omega, hroom, ht.traced hpop hair⟩
    · rw [castLoop_done (Nat.not_lt.mp hmore)]
      refine ⟨pre, key, post, hkeys, ?_⟩
      by_cases hkey : key = fd
      · subst hkey
        refine ht.sent (hroom rfl) (List.mem_cons_self ..) hpop ?_ ?_
        · rw [aired, written_snoc, hof, if_pos ⟨rfl, Nat.not_lt.mp hmore⟩]
          rfl
        · have hfds := hi.nodeFds
          have hmap : c.shared.registry.nodes.map ClientNode.sockfd = (keys c.shared).map Prod.snd := by rw [keys, List.map_map]; rfl
          rw [hmap, hkeys, List.map_append, List.map_cons, List.nodup_append, List.nodup_cons] at hfds
          exact hfds.2.1.1
      · have hair := written_quiet (hof.trans (if_neg fun h => hkey h.1)) tr
        refine (ht.traced hpop hair).congr ?_
        rw [List.mem_cons, or_iff_right (Ne.symm hkey)]
  | done => cases hn

/-- Where the broadcaster stands with the client. -/
def Serves (P : Platform) (room : Bytes) (fd : Int) (tr : List (Label Tid Act.Ret)) (c : System) : Prop :=
  ∃ b, c.loc .broadcaster = .broadcaster b ∧ OnAir P room fd tr c.shared b

theorem Serves.step (hc : Staged T tr₀ c) (hs : System.Step P ok c l c') (hd : Delivers l) (hcalm : Calm c l)
    (hm : Member c.shared fd room) (h : Serves P room fd tr c) : Serves P room fd (tr ++ [l]) c' := by
  obtain ⟨b, hb, hair⟩ := h
  have hpop := popOf_tid hc hs
  cases hs with
  | @mk tid a k e r s' hn he hx =>
    by_cases htid : tid = .broadcaster
    · subst htid
      rw [hb] at hn
      obtain ⟨⟨a', k'⟩, hb', heq⟩ := Option.map_eq_some_iff.mp hn
      cases heq
      refine ⟨k' r, ?_, hair.own hc.shared.1 hm hb' hx hd⟩
      show Function.update c.loc .broadcaster (Thread.broadcaster (k' r)) .broadcaster = _
      rw [Function.update_self]
    · refine ⟨b, (Function.update_of_ne (Ne.symm htid) ..).trans hb, ?_⟩
      refine hair.frame (popped_quiet (hpop htid) tr) (written_quiet (writtenOf_tid htid) tr) fun hw => ?_
      rcases exec_keys hx with hnew | ⟨fd', hrem⟩
      · exact hnew
      · refine absurd hw (hcalm tid fd' ?_ b hb)
        cases hrem
        rfl

end

/-! ## What the broadcaster sends -/

/-- The line is the one of the event popped last. -/
def Latest (P : Platform) (tr : List (Label Tid Act.Ret)) (line : Bytes) : Prop :=
  ∃ old msg, popped tr = old ++ [msg] ∧ eventLine P msg = some line

def Casts (P : Platform) (tr : List (Label Tid Act.Ret)) : Broadcaster → Prop
  | .first _ line | .stepping _ line _ => Latest P tr line
  | .sending _ line _ p => Latest P tr line ∧
      ∃ fd fuel sent, p = castLoop fd line fuel sent ∧ sent < line.length ∧ line.length ≤ sent + fuel
  | _ => True

section
variable {P : Platform} {ok : Env → Prop} {db : AuthDb} {tr : List (Label Tid Act.Ret)} {c c' : System} {l : Label Tid Act.Ret}

theorem visit_casts {evtRoom line : Bytes} (h : Latest P tr line) : ∀ node, Casts P tr (Broadcaster.visit evtRoom line node)
  | none => trivial
  | some node => by
    show Casts P tr (Broadcaster.afterCallback evtRoom line node.addr (sendToClient evtRoom line node))
    by_cases hroom : cstr node.room = cstr evtRoom
    · have hpos : 0 < line.length := by
        obtain ⟨_, msg, -, hl⟩ := h
        exact eventLine_nonempty hl
      obtain ⟨k, hact, -⟩ := castLoop_act node.sockfd hpos hpos
      rw [sendToClient_member_room hroom, hact]
      exact ⟨h, node.sockfd, line.length, 0, hact.symm, hpos, by omega⟩
    · rw [sendToClient_other_room hroom]
      exact h

theorem Casts.own {b : Broadcaster} (h : Casts P tr b) {a : Act} {k : a.Ret → Broadcaster} (hn : b.next P = some ⟨a, k⟩) (r : a.Ret) :
    Casts P (tr ++ [⟨.broadcaster, a, r⟩]) (k r) := by
  have later : ∀ {line : Bytes}, popOf ⟨.broadcaster, a, r⟩ = none → Latest P tr line → Latest P (tr ++ [⟨.broadcaster, a, r⟩]) line := by
    rintro line hpop ⟨old, msg, hp, hl⟩
    exact ⟨old, msg, (popped_quiet hpop tr).trans hp, hl⟩
  cases b with
  | top =>
    cases hn
    change Bool at r
    cases r <;> trivial
  | popping =>
    cases hn
    change ChatStatus × Option MqMessage at r
    obtain ⟨rc, msg⟩ := r
    have hpop : popped (tr ++ [⟨.broadcaster, .mqPop, (rc, msg)⟩]) = popped tr ++ msg.toList := popped_snoc _ _
    cases rc with
    | ok =>
      cases msg with
      | none => trivial
      | some msg =>
        show Casts P _ (Broadcaster.onEvent P msg)
        unfold Broadcaster.onEvent
        split
        · trivial
        split
        · trivial
        · rename_i line hl
          exact ⟨popped tr, msg, hpop, hl⟩
    | _ => trivial
  | first evtRoom line =>
    cases hn
    exact visit_casts (later rfl h) r
  | stepping evtRoom line cur =>
    cases hn
    exact visit_casts (later rfl h) r
  | sending evtRoom line cur p =>
    obtain ⟨hl, fd, fuel, sent, rfl, hs, hf⟩ := h
    obtain ⟨k', hact, hk, hfail⟩ := castLoop_act fd hs (show 0 < fuel by omega)
    rw [hact] at hn
    cases hn
    change Option Nat at r
    have hl' := later rfl hl
    show Casts P _ (Broadcaster.afterCallback evtRoom line cur (k' r))
    by_cases hr : ∃ n, 0 < n ∧ r = some n
    · obtain ⟨n, hpos, rfl⟩ := hr
      rw [hk n hpos]
      by_cases hmore : sent + n < line.length
      · obtain ⟨k'', hact', -⟩ := castLoop_act fd hmore (show 0 < fuel - 1 by omega)
        rw [hact']
        exact ⟨hl', fd, fuel - 1, sent + n, hact'.symm, hmore, by omega⟩
      · rw [castLoop_done (Nat.not_lt.mp hmore)]
        exact hl'
    · rw [hfail r fun n hn he => hr ⟨n, hn, he⟩]
      trivial
  | done => cases hn

theorem run_casts (hr : Run (System.Step P ok) (System.init db) tr c) : ∃ b, c.loc .broadcaster = .broadcaster b ∧ Casts P tr b := by
  induction hr with
  | nil => exact ⟨.top, rfl, trivial⟩
  | @snoc c c' tr l hr hs ih =>
    obtain ⟨b, hb, hcast⟩ := ih
    have hpop := popOf_tid (run_staged (T := False) (fun _ _ => False.elim) hr) hs
    cases hs with
    | @mk tid a k e r s' hn he hx =>
      by_cases htid : tid = .broadcaster
      · subst htid
        rw [hb] at hn
        obtain ⟨⟨a', k'⟩, hb', heq⟩ := Option.map_eq_some_iff.mp hn
        cases heq
        refine ⟨k' r, ?_, hcast.own hb' r⟩
        show Function.update c.loc .broadcaster (Thread.broadcaster (k' r)) .broadcaster = _
        rw [Function.update_self]
      · refine ⟨b, (Function.update_of_ne (Ne.symm htid) ..).trans hb, ?_⟩
        have hsame : popped (tr ++ [⟨tid, a, r⟩]) = popped tr := popped_quiet (hpop htid) tr
        cases b with
        | first | stepping | sending => simpa only [Casts, Latest, hsame] using hcast
        | _ => trivial

/-- Whatever the broadcaster sends is the line of the event that it has popped last. -/
theorem sends_latest (hr : Run (System.Step P ok) (System.init db) tr c) (hs : System.Step P ok c l c') (htid : l.tid = .broadcaster)
    {fd : Int} {buf : Bytes} {sent : Nat} (hl : l.act = .send fd buf sent) : Latest P tr buf := by
  obtain ⟨b, hb, hcast⟩ := run_casts hr
  cases hs with
  | @mk tid a k e r s' hn he hx =>
    obtain rfl : tid = .broadcaster := htid
    obtain rfl : a = .send fd buf sent := hl
    rw [hb] at hn
    obtain ⟨⟨a', k'⟩, hb', heq⟩ := Option.map_eq_some_iff.mp hn
    cases heq
    cases b with
    | sending evtRoom line cur p =>
      obtain ⟨hlatest, fd', fuel, sent', rfl, hs', hf⟩ := hcast
      obtain ⟨k'', hact, -⟩ := castLoop_act fd' hs' (show 0 < fuel by omega)
      rw [hact] at hb'
      cases hb'
      exact hlatest
    | _ => cases hb'

end

/-! ## Broadcasts among the lines -/

def broadcastLine (P : Platform) (msg : MqMessage) : Bytes :=
  (protocolBuildServerBroadcast maxLineLen (cstr msg.username) (formatTimestamp P.localtimeR msg.timestamp) (cstr msg.room)
    (cstr msg.content)).2

def chatIn (room : Bytes) (msg : MqMessage) : Bool := msg.type == .chat && cstr msg.room == room

/-- The `BROADCAST` lines among those sent to their end on `fd`. -/
def broadcasts (fd : Int) (tr : List (Label Tid Act.Ret)) : List Bytes :=
  (received fd tr).lines.filter fun line => decide (Phase.IsBroadcast line)

theorem cstr_length_le (b : Bytes) : (cstr b).length ≤ b.length := (List.takeWhile_sublist _).length_le

/-- An event of a message always fits its line. -/
theorem eventLine_chat {P : Platform} {msg : MqMessage} (h : msg.type = .chat) : eventLine P msg = some (broadcastLine P msg) := by
  have hu := cstr_length_le msg.username
  have hr := cstr_length_le msg.room
  have hc := cstr_length_le msg.content
  have ht := formatTimestamp_length P.localtimeR msg.timestamp
  rw [msg.username_length] at hu
  rw [msg.room_length] at hr
  rw [msg.content_length] at hc
  simp only [maxUsernameLen, maxRoomNameLen, maxMsgLen, timestampLen] at hu hr hc ht
  have hok : (protocolBuildServerBroadcast maxLineLen (cstr msg.username) (formatTimestamp P.localtimeR msg.timestamp) (cstr msg.room)
      (cstr msg.content)).1 = .ok := by
    rw [protocolBuildServerBroadcast, buildLine_fits]
    simp only [List.length_append, show (lit "BROADCAST ").length = 10 by decide, show (lit " ").length = 1 by decide,
      show (lit "\n").length = 1 by decide, maxLineLen]
    omega
  unfold eventLine
  rw [h]
  exact if_pos hok

theorem broadcastLine_isBroadcast (P : Platform) (msg : MqMessage) : Phase.IsBroadcast (broadcastLine P msg) := by
  unfold Phase.IsBroadcast broadcastLine protocolBuildServerBroadcast buildLine snprintf
  simp only [List.append_assoc, List.take_take, maxLineLen]
  exact List.take_left' (show (lit "BROADCAST ").length = min 10 (2048 - 1) by decide)

theorem eventLine_isBroadcast {P : Platform} {msg : MqMessage} {line : Bytes} (h : eventLine P msg = some line) :
    Phase.IsBroadcast line ↔ msg.type = .chat := by
  constructor
  · intro hb
    by_contra hne
    unfold eventLine at h
    cases htype : msg.type with
    | chat => exact hne htype
    | join | roomJoin | leave | roomLeave =>
      rw [htype] at h
      simp only [Option.ite_none_right_eq_some, Option.some.injEq] at h
      rw [← h.2] at hb
      cases hb
    | shutdown =>
      rw [htype] at h
      cases h
  · intro hchat
    rw [eventLine_chat hchat] at h
    cases h
    exact broadcastLine_isBroadcast P msg

theorem linesFor_broadcasts (P : Platform) (room : Bytes) : ∀ msgs : List MqMessage,
    ((linesFor P room msgs).filter fun line => decide (Phase.IsBroadcast line)) = (msgs.filter (chatIn room)).map (broadcastLine P)
  | [] => rfl
  | msg :: msgs => by
    have ih := linesFor_broadcasts P room msgs
    unfold linesFor at ih ⊢
    rw [List.filterMap_cons, List.filter_cons]
    by_cases hroom : cstr msg.room = room
    · rw [lineFor, if_pos hroom]
      cases hl : eventLine P msg with
      | none =>
        have hne : ¬ chatIn room msg = true := by
          intro hchat
          simp only [chatIn, Bool.and_eq_true, beq_iff_eq] at hchat
          rw [eventLine_chat hchat.1] at hl
          cases hl
        rw [if_neg hne]
        exact ih
      | some line =>
        have hiff := eventLine_isBroadcast hl
        by_cases hchat : msg.type = .chat
        · rw [eventLine_chat hchat] at hl
          cases hl
          have hin : chatIn room msg = true := by simp [chatIn, hchat, hroom]
          rw [if_pos hin, List.filter_cons_of_pos (by simpa using hiff.mpr hchat), ih]
          rfl
        · have hin : ¬ chatIn room msg = true := by simp [chatIn, hchat]
          rw [if_neg hin, List.filter_cons_of_neg (by simpa using fun h => hchat (hiff.mp h)), ih]
    · have hin : ¬ chatIn room msg = true := by simp [chatIn, hroom]
      rw [lineFor_other hroom, if_neg hin]
      exact ih

section
variable {P : Platform} {T : Prop} {ok : Env → Prop} {room : Bytes} {fd : Int} {tr₀ tr : List (Label Tid Act.Ret)} {c c' : System}
  {l : Label Tid Act.Ret}

/-- Only the broadcaster sends them, and the descriptor is not handed out again. -/
theorem step_broadcasts (hc : Staged T tr₀ c) (hs : System.Step P ok c l c') (hm : Member c.shared fd room)
    (h : broadcasts fd tr = (aired fd tr).filter fun line => decide (Phase.IsBroadcast line)) :
    broadcasts fd (tr ++ [l]) = (aired fd (tr ++ [l])).filter fun line => decide (Phase.IsBroadcast line) := by
  have quiet : (received fd tr).step fd l = received fd tr → writtenOf .broadcaster fd l = none → broadcasts fd (tr ++ [l]) =
      (aired fd (tr ++ [l])).filter fun line => decide (Phase.IsBroadcast line) := by
    intro hrec hair
    rw [broadcasts, received_snoc, hrec, aired, written_quiet hair]
    exact h
  obtain ⟨hp, e, -, hx⟩ := hc.step hs
  obtain ⟨tid, a, r⟩ := l
  have unsent : (∀ fd' buf sent, a ≠ .send fd' buf sent) → writtenOf .broadcaster fd ⟨tid, a, r⟩ = none := by
    intro ha
    cases a with
    | send fd' buf sent => exact absurd rfl (ha fd' buf sent)
    | _ => rfl
  cases a with
  | send fd' buf sent =>
    change Option Nat at r
    by_cases hdone : fd' = fd ∧ r.any (fun n => decide (buf.length ≤ sent + n)) = true
    · obtain ⟨rfl, hany⟩ := hdone
      obtain ⟨n, rfl, hn⟩ := (Option.any_eq_true _ _).mp hany
      have hrec : (received fd' (tr ++ [⟨tid, .send fd' buf sent, some n⟩])).lines = (received fd' tr).lines ++ [buf] := by
        rw [received_snoc]
        show ((if fd' = fd' then Received.onSend buf sent _ (some n) else _) : Received).lines = _
        rw [if_pos rfl]
        exact if_pos (by simpa using hn)
      rw [broadcasts, hrec, List.filter_append, aired, written_snoc, List.filter_append]
      refine congrArg₂ _ h ?_
      by_cases htid : tid = .broadcaster
      · subst htid
        show _ = List.filter _ (if Tid.broadcaster = .broadcaster ∧ fd' = fd' ∧ _ then some buf else none).toList
        rw [if_pos ⟨rfl, rfl, hany⟩]
        rfl
      · have hnot : ¬ Phase.IsBroadcast buf := by
          refine hp.phase.resolve_left fun hcast => htid ?_
          have hsat := (hc.relies tid).sat
          rw [hcast] at hsat
          exact casting_tid hsat
        have hof : writtenOf .broadcaster fd' ⟨tid, .send fd' buf sent, (some n : Option Nat)⟩ = none := writtenOf_tid htid
        rw [hof, List.filter_cons_of_neg (by simpa using hnot)]
        rfl
    · have hof : writtenOf .broadcaster fd ⟨tid, .send fd' buf sent, r⟩ = none := if_neg fun h => hdone h.2
      have hlines : (received fd (tr ++ [⟨tid, .send fd' buf sent, r⟩])).lines = (received fd tr).lines := by
        rw [received_snoc]
        show ((if fd' = fd then Received.onSend buf sent _ r else _) : Received).lines = _
        split
        · rename_i hfd
          cases r with
          | none => rfl
          | some n => exact if_neg fun hn => hdone ⟨hfd, by simpa using hn⟩
        · rfl
      rw [broadcasts, hlines, aired, written_quiet hof]
      exact h
  | accept =>
    refine quiet ?_ (unsent fun _ _ _ => nofun)
    change Option (Int × Nat) at r
    refine if_neg fun hany => ?_
    obtain ⟨⟨fd', id⟩, rfl, hfd⟩ := (Option.any_eq_true _ _).mp hany
    obtain rfl : fd' = fd := by simpa using hfd
    obtain ⟨n, hn, hnfd, -⟩ := hm
    rcases exec_accept hx with ⟨h, -⟩ | ⟨fd'', h, hfree, -⟩
    · cases h
    · cases h
      exact fd_ne_of_not_holds hfree _ (hc.shared.1.owned n hn).1 hnfd
  | _ => exact quiet rfl (unsent fun _ _ _ => nofun)

end

/-! ## Every run -/

section
variable {P : Platform} {ok : Env → Prop} {db : AuthDb} {room : Bytes} {tr₀ tr : List (Label Tid Act.Ret)} {c₀ c : System}

/-- A client that is in the room when the broadcaster is idle, and stays. -/
theorem fan_out {fd : Int} (hr₀ : Run (System.Step P ok) (System.init db) tr₀ c₀) (hidle : c₀.Idle) (hm : Member c₀.shared fd room)
    (hr : Run (fun c l c' => System.Step P ok c l c' ∧ Delivers l ∧ Calm c l ∧ Member c'.shared fd room) c₀ tr c) :
    Serves P room fd tr c ∧ broadcasts fd tr = (aired fd tr).filter fun line => decide (Phase.IsBroadcast line) := by
  have h : (Serves P room fd tr c ∧ broadcasts fd tr = (aired fd tr).filter fun line => decide (Phase.IsBroadcast line)) ∧
      Member c.shared fd room := by
    refine hr.traced (I := fun tr c => (Serves P room fd tr c ∧ broadcasts fd tr = (aired fd tr).filter fun line =>
      decide (Phase.IsBroadcast line)) ∧ Member c.shared fd room) ?_ ?_
    · intro tr s' s'' l hr' ⟨⟨hserves, hcasts⟩, hmem⟩ ⟨hs, hd, hcalm, hmem'⟩
      have hstaged : Staged False (tr₀ ++ tr) s' :=
        run_staged (fun _ _ => False.elim) (hr₀.trans (hr'.mono fun _ _ _ h => h.1))
      exact ⟨⟨hserves.step hstaged hs hd hcalm hmem, step_broadcasts hstaged hs hmem hcasts⟩, hmem'⟩
    · obtain ⟨b, hb, hbi⟩ := hidle
      refine ⟨⟨⟨b, hb, ?_⟩, rfl⟩, hm⟩
      cases b with
      | top | popping | done => rfl
      | _ => cases hbi
  exact h.1

theorem Serves.idle {fd : Int} (h : Serves P room fd tr c) (hidle : c.Idle) : aired fd tr = linesFor P room (popped tr) := by
  obtain ⟨b, hb, hair⟩ := h
  obtain ⟨b', hb', hbi⟩ := hidle
  obtain rfl : b' = b := by
    rw [hb] at hb'
    cases hb'
    rfl
  cases b' with
  | top | popping | done => exact hair
  | _ => cases hbi

/-- **One order for all.** Two clients that stay in the room hear the same
broadcasts: one for each message of the room that came out of the queue
meanwhile, those of each sender in the order in which the sender issued them. -/
theorem broadcasts_ordered {fd₁ fd₂ : Int} (hr₀ : Run (System.Step P Env.Terminated) (System.init db) tr₀ c₀) (hidle₀ : c₀.Idle)
    (hm₁ : Member c₀.shared fd₁ room) (hm₂ : Member c₀.shared fd₂ room)
    (hr : Run (fun c l c' => System.Step P Env.Terminated c l c' ∧ Delivers l ∧ Calm c l ∧ Member c'.shared fd₁ room ∧
      Member c'.shared fd₂ room) c₀ tr c) (hidle : c.Idle) :
    broadcasts fd₁ tr = broadcasts fd₂ tr ∧
    ∃ old new rest, pushed (tr₀ ++ tr) = old ++ new ++ rest ∧ old.map Prod.snd = popped tr₀ ∧ new.map Prod.snd = popped tr ∧
      rest.map Prod.snd = c.shared.queue.msgs ∧
      broadcasts fd₁ tr = (new.filter fun q => chatIn room q.2).map (fun q => broadcastLine P q.2) ∧
      ∀ i, ((new.filter fun q => chatIn room q.2).filterMap (chatBy i)).Sublist (asked i (tr₀ ++ tr)) := by
  have heard : ∀ {fd : Int}, Member c₀.shared fd room → Run (fun c l c' => System.Step P Env.Terminated c l c' ∧ Delivers l ∧
      Calm c l ∧ Member c'.shared fd room) c₀ tr c → broadcasts fd tr = ((popped tr).filter (chatIn room)).map (broadcastLine P) := by
    intro fd hm hr
    obtain ⟨hserves, hcasts⟩ := fan_out hr₀ hidle₀ hm hr
    rw [hcasts, hserves.idle hidle, linesFor_broadcasts]
  have h₁ := heard hm₁ (hr.mono fun _ _ _ h => ⟨h.1, h.2.1, h.2.2.1, h.2.2.2.1⟩)
  have h₂ := heard hm₂ (hr.mono fun _ _ _ h => ⟨h.1, h.2.1, h.2.2.1, h.2.2.2.2⟩)
  have hrun := hr₀.trans (hr.mono fun _ _ _ h => h.1)
  have hqueue := pushed_eq hrun
  rw [popped, List.filterMap_append] at hqueue
  obtain ⟨before, rest, hsplit, hbefore, hrest⟩ := List.map_eq_append_iff.mp hqueue
  obtain ⟨old, new, rfl, hold, hnew⟩ := List.map_eq_append_iff.mp hbefore
  refine ⟨h₁.trans h₂.symm, old, new, rest, hsplit, hold, hnew, hrest, ?_, fun i => ?_⟩
  · rw [h₁, ← show new.map Prod.snd = popped tr from hnew, List.filter_map, List.map_map]
    rfl
  · have hall := (List.sublist_append_left _ _).trans (chats_asked hrun i)
    rw [hsplit] at hall
    refine (List.Sublist.filterMap (chatBy i) ?_).trans hall
    exact List.filter_sublist.trans ((List.sublist_append_right old new).trans (List.sublist_append_left _ rest))

end

/-! ### `alice` and `bob` in the lobby -/

def removes : Act → Bool
  | .registryRemove _ => true
  | _ => false

theorem calm_of_not_removes {c : System} {l : Label Tid Act.Ret} (h : removes l.act = false) : Calm c l := by
  rintro tid fd rfl
  cases h

/-- `alice` says something, and the broadcaster passes it on behind the two events that are in the queue already. -/
def saysHi : List (Tid × Env) :=
  List.replicate 8 (Tid.handler 0, sunny "MSG hi" 0 0) ++ List.replicate 21 (Tid.broadcaster, sunny "" 0 0)

theorem sunny_saysHi : ∀ p ∈ saysHi, p.2.Terminated := by
  intro p hp
  rcases List.mem_append.mp hp with hp | hp
  · rw [(List.mem_replicate.mp hp).2]; exact sunny_terminated _ _ _
  · rw [(List.mem_replicate.mp hp).2]; exact sunny_terminated _ _ _

/-- `alice`, `bob` and `alice` again say something, and the broadcaster passes it on. -/
def takeTurns : List (Tid × Env) :=
  List.replicate 8 (Tid.handler 0, sunny "MSG hi" 0 0) ++ List.replicate 8 (Tid.handler 1, sunny "MSG hello" 0 0) ++
    List.replicate 8 (Tid.handler 0, sunny "MSG bye" 0 0) ++ List.replicate 35 (Tid.broadcaster, sunny "" 0 0)

theorem sunny_takeTurns : ∀ p ∈ takeTurns, p.2.Terminated := by
  intro p hp
  simp only [takeTurns, List.mem_append, List.mem_replicate] at hp
  rcases hp with ((⟨-, rfl⟩ | ⟨-, rfl⟩) | ⟨-, rfl⟩) | ⟨-, rfl⟩ <;> exact sunny_terminated _ _ _

def inLobby (_ : System) (l : Label Tid Act.Ret) (c : System) : Bool :=
  !fails l && !removes l.act && decide (Member c.shared 5 defaultRoom) && decide (Member c.shared 6 defaultRoom)

def atTop (c : System) : Bool :=
  match c.loc .broadcaster with
  | .broadcaster .top => true
  | _ => false

theorem idle_of_atTop {c : System} (h : atTop c = true) : c.Idle := by
  unfold atTop at h
  split at h
  · rename_i hb
    exact ⟨.top, hb, trivial⟩
  · cases h

theorem broadcasts_ordered_lobby : ∃ tr₀ tr c₀ c, Run (System.Step passPlatform Env.Terminated) (System.init passDb) tr₀ c₀ ∧
    Run (System.Step passPlatform Env.Terminated) c₀ tr c ∧
    broadcasts 5 tr = [lit "BROADCAST alice 1970-01-01T00:00:00 lobby hi\n", lit "BROADCAST bob 1970-01-01T00:00:00 lobby hello\n",
      lit "BROADCAST alice 1970-01-01T00:00:00 lobby bye\n"] ∧
    broadcasts 5 tr = broadcasts 6 tr := by
  obtain ⟨tr₀, c₀, hr₀, hp⟩ := System.exists_run passPlatform Env.Terminated (System.init passDb) bothIn sunny_bothIn
    (p := fun q => atTop q.2 && decide (Member q.2.shared 5 defaultRoom) && decide (Member q.2.shared 6 defaultRoom) &&
      (guarded (Thread.next passPlatform) (exec passPlatform) inLobby q.2 takeTurns).any fun q =>
        atTop q.2 && broadcasts 5 q.1 == [lit "BROADCAST alice 1970-01-01T00:00:00 lobby hi\n",
          lit "BROADCAST bob 1970-01-01T00:00:00 lobby hello\n", lit "BROADCAST alice 1970-01-01T00:00:00 lobby bye\n"])
    (by decide +kernel)
  simp only [Bool.and_eq_true, decide_eq_true_eq] at hp
  obtain ⟨⟨⟨htop, hm₁⟩, hm₂⟩, hguard⟩ := hp
  obtain ⟨tr, c, hr, hp⟩ := System.exists_guarded passPlatform Env.Terminated c₀ takeTurns sunny_takeTurns hguard
  simp only [Bool.and_eq_true, beq_iff_eq] at hp
  have hrun := hr.mono fun c l c' (h : System.Step _ _ c l c' ∧ inLobby c l c' = true) => by
    simp only [inLobby, Bool.and_eq_true, Bool.not_eq_true', decide_eq_true_eq] at h
    obtain ⟨hs, ⟨⟨hf, hrem⟩, h5⟩, h6⟩ := h
    exact (⟨hs, delivers_of_not_fails hf, calm_of_not_removes hrem, h5, h6⟩ : System.Step _ _ c l c' ∧ Delivers l ∧ Calm c l ∧ _ ∧ _)
  exact ⟨tr₀, tr, c₀, c, hr₀, hr.mono fun _ _ _ h => h.1, hp.2,
    (broadcasts_ordered hr₀ (idle_of_atTop htop) hm₁ hm₂ hrun (idle_of_atTop hp.1)).1⟩

end ChatServer

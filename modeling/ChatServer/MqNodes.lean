import ChatServer.LinkedList
import ChatServer.Queue

/-!
# The event queue in memory

`message_queue.c` with its nodes: `head`, `tail`, `count` and the links. Each
call refines the operation of the same name on the list of events, so that
over any run of calls the queue hands out what was pushed, in that order.
-/

namespace ChatServer

open LinkedList

/-- `message_queue_t`, with the memory its nodes lie in. -/
structure NodeQueue where
  nodes : Heap MqMessage
  head : Option Nat
  tail : Option Nat
  count : Nat
  shutdown : Bool

def NodeQueue.init : NodeQueue := { nodes := fun _ => none, head := none, tail := none, count := 0, shutdown := false }

/-- Why a call does not return: it waits on `not_empty`, or follows a wild pointer. -/
inductive Stuck where
  | wait
  | wild
  deriving DecidableEq

/-- `mq_push`; `node` is what `malloc` returns. -/
def NodeQueue.push (q : NodeQueue) (node : Option Nat) (msg : MqMessage) : Except Stuck (ChatStatus × NodeQueue) :=
  match node with
  | none => .ok (.errNomem, q)
  | some node =>
    let nodes := q.nodes.write node { val := msg, next := none }
    if q.shutdown then .ok (.err, { q with nodes := nodes.free node })
    else
      match q.tail with
      | none => .ok (.ok, { q with nodes := nodes, head := some node, tail := some node, count := q.count + 1 })
      | some tail =>
        match nodes.setNext tail (some node) with
        | none => .error .wild
        | some nodes => .ok (.ok, { q with nodes := nodes, tail := some node, count := q.count + 1 })

/-- `mq_pop` -/
def NodeQueue.pop (q : NodeQueue) : Except Stuck (ChatStatus × Option MqMessage × NodeQueue) :=
  match q.head with
  | none => if q.shutdown then .ok (.err, none, q) else .error .wait
  | some node =>
    match q.nodes node with
    | none => .error .wild
    | some cell =>
      .ok (.ok, some cell.val,
        { q with
          nodes := q.nodes.free node
          head := cell.next
          tail := if cell.next = none then none else q.tail
          count := q.count - 1 })

/-- `mq_signal_shutdown` -/
def NodeQueue.signalShutdown (q : NodeQueue) : NodeQueue := { q with shutdown := true }

/-! ## Refinement of the list of events -/

/-- The nodes hold the events of `abs`, first to last. -/
structure Refines (q : NodeQueue) (abs : MessageQueue) (cells : List (Nat × MqMessage)) : Prop where
  linked : Linked q.nodes q.head q.tail cells
  msgs_eq : cells.map Prod.snd = abs.msgs
  count_eq : q.count = cells.length
  shutdown_eq : q.shutdown = abs.shutdown

theorem Refines.init : Refines NodeQueue.init mqInit [] := ⟨Linked.nil, rfl, rfl, rfl⟩

section
variable {q q' : NodeQueue} {abs : MessageQueue} {cells : List (Nat × MqMessage)} {node : Option Nat} {msg : MqMessage}

/-- What `malloc` promises: the block is not in use. -/
def NewBlock (q : NodeQueue) (node : Option Nat) : Prop := ∀ a, node = some a → q.nodes a = none

/-- A push returns, with the result of the list, and a failed one changes nothing. -/
theorem Refines.push (h : Refines q abs cells) (msg : MqMessage) (hf : NewBlock q node) :
    ∃ rc q' cells', q.push node msg = .ok (rc, q') ∧ rc = (mqPush abs node.isSome msg).1 ∧
      Refines q' (mqPush abs node.isSome msg).2 cells' ∧ (rc ≠ .ok → q' = q) := by
  cases node with
  | none => exact ⟨_, q, cells, rfl, rfl, h, fun _ => rfl⟩
  | some a =>
    have ha := hf a rfl
    cases hsd : abs.shutdown with
    | true =>
      have hq : q.shutdown = true := h.shutdown_eq.trans hsd
      have hmq : mqPush abs true msg = (.err, abs) := by simp [mqPush, hsd]
      have hsame : { q with nodes := (q.nodes.write a { val := msg, next := none }).free a } = q := by
        rw [Heap.free_write ha]
      refine ⟨.err, q, cells, ?_, congrArg Prod.fst hmq.symm, ?_, fun _ => rfl⟩
      · rw [NodeQueue.push, if_pos hq, hsame]
      · rw [Option.isSome_some, hmq]
        exact h
    | false =>
      have hq : q.shutdown = false := h.shutdown_eq.trans hsd
      have hmq : mqPush abs true msg = (.ok, { abs with msgs := abs.msgs ++ [msg] }) := by simp [mqPush, hsd]
      have hmsgs : (cells ++ [(a, msg)]).map Prod.snd = abs.msgs ++ [msg] := by rw [List.map_append, h.msgs_eq]; rfl
      have hcount : q.count + 1 = (cells ++ [(a, msg)]).length := by
        rw [List.length_append, h.count_eq]
        rfl
      cases ht : q.tail with
      | none =>
        have hl := h.linked
        rw [ht] at hl
        have hpush : q.push (some a) msg = .ok (.ok, { q with
            nodes := q.nodes.write a { val := msg, next := none }
            head := some a
            tail := some a
            count := q.count + 1 }) := by
          rw [NodeQueue.push, if_neg (by rw [hq]; exact Bool.false_ne_true), ht]
        refine ⟨.ok, _, cells ++ [(a, msg)], hpush, congrArg Prod.fst hmq.symm, ?_, fun hne => absurd rfl hne⟩
        · rw [Option.isSome_some, hmq]
          exact ⟨hl.first a msg, hmsgs, hcount, hsd ▸ hq⟩
      | some t =>
        have hl := h.linked
        rw [ht] at hl
        obtain ⟨nodes, hnodes, hlinked⟩ := hl.append ha msg
        have hpush : q.push (some a) msg =
            .ok (.ok, { q with nodes := nodes, tail := some a, count := q.count + 1 }) := by
          rw [NodeQueue.push, if_neg (by rw [hq]; exact Bool.false_ne_true), ht]
          simp only [hnodes]
        refine ⟨.ok, _, cells ++ [(a, msg)], hpush, congrArg Prod.fst hmq.symm, ?_, fun hne => absurd rfl hne⟩
        · rw [Option.isSome_some, hmq]
          exact ⟨hlinked, hmsgs, hcount, hsd ▸ hq⟩

/-- A pop waits where that of the list waits, and else returns the same. -/
theorem Refines.pop (h : Refines q abs cells) :
    (q.pop = .error .wait ∧ mqPop abs = none) ∨
    ∃ rc out q' abs' cells', q.pop = .ok (rc, out, q') ∧ mqPop abs = some (rc, out, abs') ∧ Refines q' abs' cells' ∧
      (rc ≠ .ok → q' = q) := by
  have hmsgs := h.msgs_eq
  cases hhead : q.head with
  | none =>
    obtain rfl := h.linked.head_none_iff.mp hhead
    cases hsd : abs.shutdown with
    | true =>
      refine Or.inr ⟨.err, none, q, abs, [], ?_, ?_, h, fun _ => rfl⟩
      · simp only [NodeQueue.pop, hhead, h.shutdown_eq.trans hsd, if_true]
      · simp only [mqPop, ← hmsgs, List.map_nil, hsd, if_true]
    | false =>
      refine Or.inl ⟨?_, ?_⟩
      · simp only [NodeQueue.pop, hhead, h.shutdown_eq.trans hsd, Bool.false_eq_true, if_false]
      · simp only [mqPop, ← hmsgs, List.map_nil, hsd, Bool.false_eq_true, if_false]
  | some a =>
    have hl := h.linked
    rw [hhead] at hl
    obtain ⟨msg, next, rest, rfl, hcell, hrest⟩ := hl.rest
    have hpop : q.pop = .ok (.ok, some msg, { q with
        nodes := q.nodes.free a
        head := next
        tail := if next = none then none else q.tail
        count := q.count - 1 }) := by
      simp only [NodeQueue.pop, hhead, hcell]
    refine Or.inr ⟨.ok, some msg, _, { abs with msgs := rest.map Prod.snd }, rest, hpop, ?_, ?_, fun hne => absurd rfl hne⟩
    · simp only [mqPop, ← hmsgs, List.map_cons]
    · refine ⟨hrest, rfl, ?_, h.shutdown_eq⟩
      simp only [h.count_eq, List.length_cons, Nat.add_sub_cancel]

theorem Refines.signalShutdown (h : Refines q abs cells) : Refines q.signalShutdown (mqSignalShutdown abs) cells :=
  ⟨h.linked, h.msgs_eq, h.count_eq, rfl⟩

end

/-! ## Runs of calls -/

/-- A call that returned, and what it returned. -/
inductive MqCall where
  | push (msg : MqMessage) (rc : ChatStatus)
  | pop (rc : ChatStatus) (out : Option MqMessage)
  | signalShutdown
  deriving DecidableEq

/-- The calls made on a queue from `mq_init` on, by any threads, each under the lock. -/
inductive MqRun : List MqCall → NodeQueue → Prop
  | init : MqRun [] NodeQueue.init
  | push {tr : List MqCall} {q q' : NodeQueue} {node : Option Nat} {msg : MqMessage} {rc : ChatStatus} :
      MqRun tr q → NewBlock q node → q.push node msg = .ok (rc, q') → MqRun (tr ++ [.push msg rc]) q'
  | pop {tr : List MqCall} {q q' : NodeQueue} {rc : ChatStatus} {out : Option MqMessage} :
      MqRun tr q → q.pop = .ok (rc, out, q') → MqRun (tr ++ [.pop rc out]) q'
  | signalShutdown {tr : List MqCall} {q : NodeQueue} : MqRun tr q → MqRun (tr ++ [.signalShutdown]) q.signalShutdown

def MqCall.pushes : MqCall → Option MqMessage
  | .push msg .ok => some msg
  | _ => none

def MqCall.pops : MqCall → Option MqMessage
  | .pop .ok out => out
  | _ => none

def accepted (tr : List MqCall) : List MqMessage := tr.filterMap MqCall.pushes

def handedOut (tr : List MqCall) : List MqMessage := tr.filterMap MqCall.pops

theorem accepted_snoc (tr : List MqCall) (c : MqCall) : accepted (tr ++ [c]) = accepted tr ++ c.pushes.toList := by
  rw [accepted, List.filterMap_append]
  cases h : c.pushes <;> simp [accepted, h]

theorem handedOut_snoc (tr : List MqCall) (c : MqCall) : handedOut (tr ++ [c]) = handedOut tr ++ c.pops.toList := by
  rw [handedOut, List.filterMap_append]
  cases h : c.pops <;> simp [handedOut, h]

theorem pushes_push (abs : MessageQueue) (node : Bool) (msg : MqMessage) :
    (mqPush abs node msg).2.msgs = abs.msgs ++ (MqCall.push msg (mqPush abs node msg).1).pushes.toList ∧
      (mqPush abs node msg).2.shutdown = abs.shutdown := by
  cases node with
  | false => exact ⟨by simp [mqPush, MqCall.pushes], rfl⟩
  | true =>
    cases hsd : abs.shutdown with
    | true => simp [mqPush, hsd, MqCall.pushes]
    | false => simp [mqPush, hsd, MqCall.pushes]

/-- After the calls of `tr` the nodes hold the accepted events that were not handed out. -/
theorem MqRun.refines {tr : List MqCall} {q : NodeQueue} (h : MqRun tr q) :
    ∃ abs cells, Refines q abs cells ∧ handedOut tr ++ abs.msgs = accepted tr ∧
      (abs.shutdown = true ↔ .signalShutdown ∈ tr) := by
  induction h with
  | init => exact ⟨mqInit, [], Refines.init, rfl, iff_of_false Bool.false_ne_true List.not_mem_nil⟩
  | @push tr q q' node msg rc _ hf hpush ih =>
    obtain ⟨abs, cells, hr, hfifo, hsd⟩ := ih
    obtain ⟨rc', q₁, cells', hpush', hrc, hr', -⟩ := hr.push msg hf
    rw [hpush] at hpush'
    cases hpush'
    obtain ⟨hmsgs, hsame⟩ := pushes_push abs node.isSome msg
    refine ⟨_, cells', hr', ?_, ?_⟩
    · rw [handedOut_snoc, accepted_snoc, hmsgs, ← hfifo, hrc]
      simp [MqCall.pops]
    · rw [hsame, hsd, List.mem_append, List.mem_singleton]
      exact (or_iff_left fun e => by cases e).symm
  | @pop tr q q' rc out _ hpop ih =>
    obtain ⟨abs, cells, hr, hfifo, hsd⟩ := ih
    rcases hr.pop with ⟨hwait, -⟩ | ⟨rc', out', q₁, abs', cells', hpop', habs, hr', -⟩
    · rw [hpop] at hwait
      cases hwait
    · rw [hpop] at hpop'
      cases hpop'
      have hmem : MqCall.signalShutdown ∈ tr ++ [MqCall.pop rc out] ↔ MqCall.signalShutdown ∈ tr := by
        rw [List.mem_append, List.mem_singleton]
        exact or_iff_left fun e => by cases e
      refine ⟨abs', cells', hr', ?_, ?_⟩
      · rw [handedOut_snoc, accepted_snoc, ← hfifo]
        obtain ⟨msgs, sd⟩ := abs
        cases msgs with
        | nil =>
          cases sd with
          | true => cases habs; simp [MqCall.pops, MqCall.pushes]
          | false => cases habs
        | cons msg rest => cases habs; simp [MqCall.pops, MqCall.pushes]
      · rw [hmem, ← hsd]
        obtain ⟨msgs, sd⟩ := abs
        cases msgs with
        | nil =>
          cases sd with
          | true => cases habs; rfl
          | false => cases habs
        | cons msg rest => cases habs; rfl
  | @signalShutdown tr q _ ih =>
    obtain ⟨abs, cells, hr, hfifo, -⟩ := ih
    refine ⟨_, cells, hr.signalShutdown, ?_, ?_⟩
    · rw [handedOut_snoc, accepted_snoc, ← hfifo]
      simp [MqCall.pops, MqCall.pushes, mqSignalShutdown]
    · exact iff_of_true rfl (List.mem_append_right _ (List.mem_singleton.mpr rfl))

/-! ## Draining -/

/-- The results of `n` calls of `mq_pop` in a row, as far as they return. -/
def NodeQueue.drain : Nat → NodeQueue → List (ChatStatus × Option MqMessage)
  | 0, _ => []
  | n + 1, q =>
    match q.pop with
    | .error _ => []
    | .ok (rc, out, q) => (rc, out) :: NodeQueue.drain n q

/-- After the shutdown, what is left comes out in order, and then only errors. -/
theorem Refines.drain : ∀ (n : Nat) {q : NodeQueue} {abs : MessageQueue} {cells : List (Nat × MqMessage)},
    Refines q abs cells → abs.shutdown = true →
      q.drain n = ((abs.msgs.map fun msg => (ChatStatus.ok, some msg)) ++ List.replicate n (ChatStatus.err, none)).take n
  | 0, _, _, _, _, _ => by rw [List.take_zero]; rfl
  | n + 1, q, abs, cells, hr, hsd => by
    rcases hr.pop with ⟨-, hwait⟩ | ⟨rc, out, q', abs', cells', hpop, habs, hr', -⟩
    · obtain ⟨msgs, sd⟩ := abs
      cases msgs with
      | nil =>
        simp only at hsd
        subst hsd
        cases hwait
      | cons msg rest => cases hwait
    · simp only [NodeQueue.drain, hpop]
      obtain ⟨msgs, sd⟩ := abs
      simp only at hsd
      subst hsd
      cases msgs with
      | nil =>
        cases habs
        rw [Refines.drain n hr' rfl]
        simp [List.replicate_succ]
      | cons msg rest =>
        cases habs
        rw [Refines.drain n hr' rfl, List.map_cons, List.cons_append, List.take_succ_cons, List.replicate_succ']
        rw [← List.append_assoc]
        exact congrArg _ (List.take_append_of_le_length (by simp)).symm

/-- **The queue is a lossless FIFO** over every run of calls. -/
theorem mq_fifo {tr : List MqCall} {q : NodeQueue} (h : MqRun tr q) :
    ∃ cells : List (Nat × MqMessage), Chain q.nodes q.head cells ∧
      handedOut tr ++ cells.map Prod.snd = accepted tr ∧
      (q.head = none ↔ q.tail = none) ∧ (q.tail = none ↔ q.count = 0) ∧
      q.tail = cells.getLast?.map Prod.fst ∧ q.count = cells.length ∧
      (∀ node msg, NewBlock q node → ∃ rc q', q.push node msg = .ok (rc, q') ∧ (rc ≠ .ok → q' = q)) ∧
      q.pop ≠ .error .wild ∧
      (.signalShutdown ∈ tr →
        (∀ node msg q', NewBlock q node → q.push node msg ≠ .ok (.ok, q')) ∧
        ∀ n, q.drain n = (((cells.map Prod.snd).map fun msg => (ChatStatus.ok, some msg)) ++
          List.replicate n (ChatStatus.err, none)).take n) := by
  obtain ⟨abs, cells, hr, hfifo, hsd⟩ := h.refines
  have hempty : q.tail = none ↔ q.count = 0 := by
    rw [hr.linked.tail_none_iff, hr.count_eq, List.length_eq_zero_iff]
  refine ⟨cells, hr.linked.chain, by rw [hr.msgs_eq, hfifo], ?_, hempty, hr.linked.tail_eq, hr.count_eq, ?_, ?_, ?_⟩
  · rw [hr.linked.head_none_iff, hr.linked.tail_none_iff]
  · intro node msg hf
    obtain ⟨rc, q', _, hpush, _, _, hsame⟩ := hr.push msg hf
    exact ⟨rc, q', hpush, hsame⟩
  · intro hwild
    rcases hr.pop with ⟨hwait, _⟩ | ⟨rc, out, q', _, _, hpop, _⟩
    · rw [hwild] at hwait
      cases hwait
    · rw [hwild] at hpop
      cases hpop
  · intro hmem
    have hdown := hsd.mpr hmem
    refine ⟨?_, ?_⟩
    · intro node msg q' hf hpush
      obtain ⟨rc, q₁, _, hpush', hrc, _⟩ := hr.push msg hf
      rw [hpush] at hpush'
      cases hpush'
      cases node with
      | none => cases hrc
      | some a =>
        rw [Option.isSome_some] at hrc
        simp only [mqPush, hdown, Bool.not_true, Bool.false_eq_true, if_true, if_false] at hrc
        cases hrc
    · intro n
      rw [hr.drain n hdown, hr.msgs_eq]

def hiFrom (username : String) : MqMessage := chatEvent default (CStr.lit username) (CStr.lit "lobby") (CStr.lit "hi") 0

def twoPushed : List MqCall :=
  [.push (hiFrom "alice") .ok, .push (hiFrom "bob") .ok, .pop .ok (some (hiFrom "alice")), .signalShutdown]

/-- Two events in, the first one out, and the shutdown. -/
theorem mq_fifo_two : hiFrom "alice" ≠ hiFrom "bob" ∧ ∃ q, MqRun twoPushed q ∧ ∃ cells : List (Nat × MqMessage),
    Chain q.nodes q.head cells ∧ cells.map Prod.snd = [hiFrom "bob"] ∧ q.count = cells.length := by
  have hfirst := @MqRun.push [] _ _ (some 7) (hiFrom "alice") .ok .init (fun _ _ => rfl) rfl
  have hsecond := @MqRun.push _ _ _ (some 9) (hiFrom "bob") .ok hfirst (fun a ha => by cases ha; rfl) rfl
  have hthird := @MqRun.pop _ _ _ .ok (some (hiFrom "alice")) hsecond rfl
  have hrun : MqRun twoPushed _ := MqRun.signalShutdown hthird
  obtain ⟨cells, hchain, hfifo, -, -, -, hcount, -⟩ := mq_fifo hrun
  have hleft : [hiFrom "alice"] ++ cells.map Prod.snd = [hiFrom "alice"] ++ [hiFrom "bob"] := hfifo
  exact ⟨by decide +kernel, _, hrun, cells, hchain, List.append_cancel_left hleft, hcount⟩

end ChatServer

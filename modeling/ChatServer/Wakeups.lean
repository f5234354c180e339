import ChatServer.Monitor
import ChatServer.Queue

/-!
# Waking the broadcaster

`mq_push`, `mq_pop` and `mq_signal_shutdown` step by step, under their mutex
and the condition `not_empty`: any number of threads that push, one that pops,
and one that shuts the queue down. Each step that gives the popper something to
do stands in the same critical section as the signal that follows it.
-/

namespace ChatServer

/-- The threads at the queue. -/
inductive Party (ι : Type) where
  | popper
  | pusher (i : ι)
  | stopper

/-- Where a call of `mq_pop` stands. -/
inductive PopPoint where
  | idle
  | entry
  | test
  | wait
  | waiting
  | check
  | take
  | leave (rc : ChatStatus) (out : Option MqMessage)

/-- Where a call of `mq_push` stands, behind its `malloc`. -/
inductive PushPoint where
  | idle
  | entry (msg : MqMessage)
  | test (msg : MqMessage)
  | link (msg : MqMessage)
  | signal
  | leave (rc : ChatStatus)

/-- Where a call of `mq_signal_shutdown` stands. -/
inductive StopPoint where
  | idle
  | entry
  | set
  | broadcast
  | leave

/-- The points at which the thread holds the lock. -/
def PopPoint.holds : PopPoint → Prop
  | .idle | .entry | .waiting => False
  | .test | .wait | .check | .take | .leave .. => True

def PushPoint.holds : PushPoint → Prop
  | .idle | .entry _ => False
  | .test _ | .link _ | .signal | .leave _ => True

def StopPoint.holds : StopPoint → Prop
  | .idle | .entry => False
  | .set | .broadcast | .leave => True

structure QueueState (ι : Type) where
  monitor : Monitor (Party ι)
  queue : MessageQueue
  popper : PopPoint
  pusher : ι → PushPoint
  stopper : StopPoint

section
variable {ι : Type}

def QueueState.init : QueueState ι :=
  { monitor := Monitor.init, queue := mqInit, popper := .idle, pusher := fun _ => .idle, stopper := .idle }

def QueueState.setPusher [DecidableEq ι] (s : QueueState ι) (i : ι) (p : PushPoint) : QueueState ι :=
  { s with pusher := Function.update s.pusher i p }

/-- The steps of `mq_pop`. -/
inductive PopStep : QueueState ι → QueueState ι → Prop
  | call {s : QueueState ι} : s.popper = .idle → PopStep s { s with popper := .entry }
  | lock {s : QueueState ι} {m : Monitor (Party ι)} : s.popper = .entry → Monitor.Step .popper .lock s.monitor m →
      PopStep s { s with monitor := m, popper := .test }
  | test {s : QueueState ι} : s.popper = .test →
      PopStep s { s with popper := if s.queue.msgs = [] ∧ s.queue.shutdown = false then .wait else .check }
  | wait {s : QueueState ι} {m : Monitor (Party ι)} : s.popper = .wait → Monitor.Step .popper .wait s.monitor m →
      PopStep s { s with monitor := m, popper := .waiting }
  | relock {s : QueueState ι} {m : Monitor (Party ι)} : s.popper = .waiting → Monitor.Step .popper .lock s.monitor m →
      PopStep s { s with monitor := m, popper := .test }
  | check {s : QueueState ι} : s.popper = .check →
      PopStep s { s with popper := if s.queue.msgs = [] then .leave .err none else .take }
  | take {s : QueueState ι} {msg : MqMessage} {rest : List MqMessage} : s.popper = .take → s.queue.msgs = msg :: rest →
      PopStep s { s with queue := { s.queue with msgs := rest }, popper := .leave .ok (some msg) }
  | leave {s : QueueState ι} {m : Monitor (Party ι)} {rc : ChatStatus} {out : Option MqMessage} :
      s.popper = .leave rc out → Monitor.Step .popper .unlock s.monitor m →
      PopStep s { s with monitor := m, popper := .idle }

/-- The steps of `mq_push` by thread `i`; a call whose `malloc` fails returns at once. -/
inductive PushStep [DecidableEq ι] (i : ι) : QueueState ι → QueueState ι → Prop
  | call {s : QueueState ι} (msg : MqMessage) : s.pusher i = .idle → PushStep i s (s.setPusher i (.entry msg))
  | nomem {s : QueueState ι} : s.pusher i = .idle → PushStep i s s
  | lock {s : QueueState ι} {msg : MqMessage} {m : Monitor (Party ι)} : s.pusher i = .entry msg →
      Monitor.Step (.pusher i) .lock s.monitor m → PushStep i s { s.setPusher i (.test msg) with monitor := m }
  | test {s : QueueState ι} {msg : MqMessage} : s.pusher i = .test msg →
      PushStep i s (s.setPusher i (if s.queue.shutdown then .leave .err else .link msg))
  | link {s : QueueState ι} {msg : MqMessage} : s.pusher i = .link msg →
      PushStep i s { s.setPusher i .signal with queue := { s.queue with msgs := s.queue.msgs ++ [msg] } }
  | signal {s : QueueState ι} {m : Monitor (Party ι)} : s.pusher i = .signal →
      Monitor.Step (.pusher i) .signal s.monitor m → PushStep i s { s.setPusher i (.leave .ok) with monitor := m }
  | leave {s : QueueState ι} {rc : ChatStatus} {m : Monitor (Party ι)} : s.pusher i = .leave rc →
      Monitor.Step (.pusher i) .unlock s.monitor m → PushStep i s { s.setPusher i .idle with monitor := m }

/-- The steps of `mq_signal_shutdown`. -/
inductive StopStep : QueueState ι → QueueState ι → Prop
  | call {s : QueueState ι} : s.stopper = .idle → StopStep s { s with stopper := .entry }
  | lock {s : QueueState ι} {m : Monitor (Party ι)} : s.stopper = .entry → Monitor.Step .stopper .lock s.monitor m →
      StopStep s { s with monitor := m, stopper := .set }
  | set {s : QueueState ι} : s.stopper = .set →
      StopStep s { s with queue := mqSignalShutdown s.queue, stopper := .broadcast }
  | broadcast {s : QueueState ι} {m : Monitor (Party ι)} : s.stopper = .broadcast →
      Monitor.Step .stopper .broadcast s.monitor m → StopStep s { s with monitor := m, stopper := .leave }
  | leave {s : QueueState ι} {m : Monitor (Party ι)} : s.stopper = .leave → Monitor.Step .stopper .unlock s.monitor m →
      StopStep s { s with monitor := m, stopper := .idle }

def PartyStep [DecidableEq ι] : Party ι → QueueState ι → QueueState ι → Prop
  | .popper => PopStep
  | .pusher i => PushStep i
  | .stopper => StopStep

/-- Any interleaving, with wake-ups that no signal caused. -/
inductive QueueReachable [DecidableEq ι] : QueueState ι → Prop
  | init : QueueReachable .init
  | step {s s' : QueueState ι} (t : Party ι) : QueueReachable s → PartyStep t s s' → QueueReachable s'
  | spurious {s : QueueState ι} (t : Party ι) : QueueReachable s → QueueReachable { s with monitor := s.monitor.wake t }

/-- The thread stands before its `pthread_cond_signal` or `pthread_cond_broadcast`. -/
def Announces (s : QueueState ι) : Party ι → Prop
  | .popper => False
  | .pusher i => s.pusher i = .signal
  | .stopper => s.stopper = .broadcast

def Blocked (s : QueueState ι) : Prop := s.popper = .waiting

/-- The popper was woken, or the holder of the lock is about to wake it. -/
def WakeupPending (s : QueueState ι) : Prop :=
  .popper ∉ s.monitor.waiters ∨ ∃ t, s.monitor.owner = some t ∧ Announces s t

/-- The thread stands where it holds the lock. -/
def QueueState.holds (s : QueueState ι) : Party ι → Prop
  | .popper => s.popper.holds
  | .pusher i => (s.pusher i).holds
  | .stopper => s.stopper.holds

/-! ## The invariant -/

/-- The popper is never blocked on a queue that has something for it, except
while the lock is held by a thread that is about to wake it. -/
structure QueueInv (s : QueueState ι) : Prop where
  owner : ∀ t, s.monitor.owner = some t ↔ s.holds t
  waiters : ∀ t ∈ s.monitor.waiters, t = .popper ∧ s.popper = .waiting
  wait : s.popper = .wait → s.queue.msgs = [] ∧ s.queue.shutdown = false
  take : s.popper = .take → s.queue.msgs ≠ []
  link : ∀ i msg, s.pusher i = .link msg → s.queue.shutdown = false
  woken : .popper ∈ s.monitor.waiters → s.queue.msgs ≠ [] ∨ s.queue.shutdown = true →
    ∃ t, s.monitor.owner = some t ∧ Announces s t

theorem QueueInv.init : QueueInv (QueueState.init : QueueState ι) where
  owner t := iff_of_false (fun h => by cases h) (by cases t <;> exact id)
  waiters _ h := absurd h (Set.notMem_empty _)
  wait h := by cases h
  take h := by cases h
  link _ _ h := by cases h
  woken h := absurd h (Set.notMem_empty _)

variable {s s' : QueueState ι} {t : Party ι} {m : Monitor (Party ι)}

theorem QueueInv.not_holds (h : QueueInv s) (ht : s.monitor.owner = some t) {u : Party ι} (hu : u ≠ t) : ¬ s.holds u := by
  intro hhold
  rw [← h.owner u, ht] at hhold
  exact hu (Option.some.inj hhold).symm

theorem QueueInv.not_holds_free (h : QueueInv s) (hfree : s.monitor.owner = none) (u : Party ι) : ¬ s.holds u := by
  rw [← h.owner u, hfree]
  exact fun e => by cases e

/-- Only the point of `t` moves. -/
def MovesOnly (t : Party ι) (s s' : QueueState ι) : Prop :=
  ∀ u, u ≠ t → (s'.holds u ↔ s.holds u) ∧ (Announces s' u ↔ Announces s u)

theorem movesOnly_popper (m : Monitor (Party ι)) (q : MessageQueue) (p : PopPoint) :
    MovesOnly .popper s { s with monitor := m, queue := q, popper := p } := by
  intro u hu
  cases u with
  | popper => exact absurd rfl hu
  | pusher i => exact ⟨Iff.rfl, Iff.rfl⟩
  | stopper => exact ⟨Iff.rfl, Iff.rfl⟩

theorem movesOnly_pusher [DecidableEq ι] (i : ι) (m : Monitor (Party ι)) (q : MessageQueue) (p : PushPoint) :
    MovesOnly (.pusher i) s { s.setPusher i p with monitor := m, queue := q } := by
  intro u hu
  cases u with
  | popper => exact ⟨Iff.rfl, Iff.rfl⟩
  | pusher j =>
    have hj : j ≠ i := fun e => hu (by rw [e])
    simp only [QueueState.holds, Announces, QueueState.setPusher, Function.update_of_ne hj, and_self]
  | stopper => exact ⟨Iff.rfl, Iff.rfl⟩

theorem movesOnly_stopper (m : Monitor (Party ι)) (q : MessageQueue) (p : StopPoint) :
    MovesOnly .stopper s { s with monitor := m, queue := q, stopper := p } := by
  intro u hu
  cases u with
  | popper => exact ⟨Iff.rfl, Iff.rfl⟩
  | pusher i => exact ⟨Iff.rfl, Iff.rfl⟩
  | stopper => exact absurd rfl hu

/-- A step that neither takes nor releases the lock. -/
theorem QueueInv.owner_kept (h : QueueInv s) (hmoves : MovesOnly t s s') (howner : s'.monitor.owner = s.monitor.owner)
    (hself : s'.holds t ↔ s.holds t) (u : Party ι) : s'.monitor.owner = some u ↔ s'.holds u := by
  rw [howner, h.owner u]
  by_cases hu : u = t
  · rw [hu, hself]
  · exact (hmoves u hu).1.symm

theorem QueueInv.owner_locked (h : QueueInv s) (hmoves : MovesOnly t s s') (hlock : Monitor.Step t .lock s.monitor s'.monitor)
    (hself : s'.holds t) (u : Party ι) : s'.monitor.owner = some u ↔ s'.holds u := by
  rw [hlock.lock_owner, Option.some.injEq]
  by_cases hu : u = t
  · rw [hu]
    exact iff_of_true rfl hself
  · rw [(hmoves u hu).1]
    exact iff_of_false (fun e => hu e.symm) (h.not_holds_free hlock.lock_free u)

theorem QueueInv.owner_released (h : QueueInv s) (hmoves : MovesOnly t s s') (howner : s.monitor.owner = some t)
    (hfree : s'.monitor.owner = none) (hself : ¬ s'.holds t) (u : Party ι) :
    s'.monitor.owner = some u ↔ s'.holds u := by
  rw [hfree]
  refine iff_of_false (fun e => by cases e) ?_
  by_cases hu : u = t
  · rwa [hu]
  · rw [(hmoves u hu).1]
    exact h.not_holds howner hu

/-- Where the lock is free, or its holder announces nothing, a blocked popper has nothing to do. -/
theorem QueueInv.idle_of_blocked (h : QueueInv s) (hno : ∀ t, s.monitor.owner = some t → ¬ Announces s t)
    (hw : .popper ∈ s.monitor.waiters) : ¬ (s.queue.msgs ≠ [] ∨ s.queue.shutdown = true) := by
  intro hq
  obtain ⟨t, ht, ha⟩ := h.woken hw hq
  exact hno t ht ha

/-- A state in which the popper does not wait on the condition. -/
theorem QueueInv.of_unblocked (howner : ∀ t, s.monitor.owner = some t ↔ s.holds t) (hno : ∀ t, t ∉ s.monitor.waiters)
    (hwait : s.popper = .wait → s.queue.msgs = [] ∧ s.queue.shutdown = false) (htake : s.popper = .take → s.queue.msgs ≠ [])
    (hlink : ∀ i msg, s.pusher i = .link msg → s.queue.shutdown = false) : QueueInv s :=
  { owner := howner, waiters := fun t ht => absurd ht (hno t), wait := hwait, take := htake, link := hlink
    woken := fun hw => absurd hw (hno _) }

/-! ## Steps -/

theorem QueueInv.popStep (h : QueueInv s) (hs : PopStep s s') : QueueInv s' := by
  -- a popper that takes a step, but for the one behind the wait, is on no condition
  have hnone : s.popper ≠ .waiting → ∀ t, t ∉ s.monitor.waiters := fun hne t ht => hne (h.waiters t ht).2
  cases hs with
  | call hp =>
    have hno := hnone (by rw [hp]; exact fun e => by cases e)
    exact .of_unblocked (h.owner_kept (movesOnly_popper _ _ _) rfl (by simp only [QueueState.holds, hp, PopPoint.holds])) hno
      (fun e => by cases e) (fun e => by cases e) h.link
  | lock hp hm =>
    have hno := hnone (by rw [hp]; exact fun e => by cases e)
    have hwaiters := hm.lock_waiters
    exact .of_unblocked (h.owner_locked (movesOnly_popper _ _ _) hm trivial) (fun t ht => hno t (hwaiters ▸ ht))
      (fun e => by cases e) (fun e => by cases e) h.link
  | test hp =>
    have hno := hnone (by rw [hp]; exact fun e => by cases e)
    by_cases hempty : s.queue.msgs = [] ∧ s.queue.shutdown = false
    · rw [if_pos hempty]
      exact .of_unblocked (h.owner_kept (movesOnly_popper _ _ _) rfl (by simp only [QueueState.holds, hp, PopPoint.holds]))
        hno (fun _ => hempty) (fun e => by cases e) h.link
    · rw [if_neg hempty]
      exact .of_unblocked (h.owner_kept (movesOnly_popper _ _ _) rfl (by simp only [QueueState.holds, hp, PopPoint.holds]))
        hno (fun e => by cases e) (fun e => by cases e) h.link
  | wait hp hm =>
    have hno := hnone (by rw [hp]; exact fun e => by cases e)
    have hidle := h.wait hp
    have howner : s.monitor.owner = some .popper := (h.owner .popper).mpr (by simp only [QueueState.holds, hp, PopPoint.holds])
    have hwaiters := hm.wait_waiters
    exact {
      owner := h.owner_released (movesOnly_popper _ _ _) howner hm.wait_owner id
      waiters := fun t ht => by
        rw [hwaiters, Set.mem_insert_iff] at ht
        exact ⟨ht.resolve_right (hno t), rfl⟩
      wait := fun e => by cases e
      take := fun e => by cases e
      link := h.link
      woken := fun _ hq => by
        rcases hq with hmsgs | hsd
        · exact absurd hidle.1 hmsgs
        · rw [hidle.2] at hsd
          cases hsd }
  | relock hp hm =>
    have hno : Party.popper ∉ s.monitor.waiters := by
      cases hm
      assumption
    have hwaiters := hm.lock_waiters
    refine .of_unblocked (h.owner_locked (movesOnly_popper _ _ _) hm trivial) (fun t ht => ?_)
      (fun e => by cases e) (fun e => by cases e) h.link
    rw [hwaiters] at ht
    have htp := (h.waiters t ht).1
    subst htp
    exact hno ht
  | check hp =>
    have hno := hnone (by rw [hp]; exact fun e => by cases e)
    by_cases hempty : s.queue.msgs = []
    · rw [if_pos hempty]
      exact .of_unblocked (h.owner_kept (movesOnly_popper _ _ _) rfl (by simp only [QueueState.holds, hp, PopPoint.holds]))
        hno (fun e => by cases e) (fun e => by cases e) h.link
    · rw [if_neg hempty]
      exact .of_unblocked (h.owner_kept (movesOnly_popper _ _ _) rfl (by simp only [QueueState.holds, hp, PopPoint.holds]))
        hno (fun e => by cases e) (fun _ => hempty) h.link
  | take hp hmsgs =>
    have hno := hnone (by rw [hp]; exact fun e => by cases e)
    exact .of_unblocked (h.owner_kept (movesOnly_popper _ _ _) rfl (by simp only [QueueState.holds, hp, PopPoint.holds])) hno
      (fun e => by cases e) (fun e => by cases e) h.link
  | leave hp hm =>
    have hno := hnone (by rw [hp]; exact fun e => by cases e)
    have howner : s.monitor.owner = some .popper := (h.owner .popper).mpr (by simp only [QueueState.holds, hp, PopPoint.holds])
    have hwaiters := hm.unlock_waiters
    exact .of_unblocked (h.owner_released (movesOnly_popper _ _ _) howner hm.unlock_owner id)
      (fun t ht => hno t (hwaiters ▸ ht)) (fun e => by cases e) (fun e => by cases e) h.link

theorem setPusher_link [DecidableEq ι] {i j : ι} {p : PushPoint} {msg : MqMessage} (hp : p ≠ .link msg)
    (h : (s.setPusher i p).pusher j = .link msg) : s.pusher j = .link msg := by
  simp only [QueueState.setPusher] at h
  by_cases hj : j = i
  · subst hj
    rw [Function.update_self] at h
    exact absurd h hp
  · rwa [Function.update_of_ne hj] at h

theorem setPusher_self [DecidableEq ι] (i : ι) (p : PushPoint) : (s.setPusher i p).pusher i = p := Function.update_self ..

theorem QueueInv.pushStep [DecidableEq ι] (h : QueueInv s) {i : ι} (hs : PushStep i s s') : QueueInv s' := by
  have hself : ∀ {p : PushPoint}, s.pusher i = p → p.holds → s.monitor.owner = some (.pusher i) := fun hp hh =>
    (h.owner (.pusher i)).mpr (by rw [QueueState.holds, hp]; exact hh)
  -- a pusher that holds the lock and is not before its signal announces nothing
  have hquiet : ∀ {p : PushPoint}, s.pusher i = p → p.holds → p ≠ .signal →
      ∀ t, s.monitor.owner = some t → ¬ Announces s t := by
    intro p hp hh hne t ht ha
    rw [hself hp hh] at ht
    cases ht
    exact hne (hp.symm.trans ha)
  have hholds : ∀ {p p' : PushPoint}, s.pusher i = p → (p'.holds ↔ p.holds) →
      ((s.setPusher i p').holds (.pusher i) ↔ s.holds (.pusher i)) := by
    intro p p' hp hpp
    rw [QueueState.holds, QueueState.holds, setPusher_self, hp]
    exact hpp
  cases hs with
  | call msg hp =>
    exact {
      owner := h.owner_kept (movesOnly_pusher i _ _ _) rfl (hholds hp Iff.rfl)
      waiters := h.waiters
      wait := h.wait
      take := h.take
      link := fun j msg' hj => h.link j msg' (setPusher_link (fun e => by cases e) hj)
      woken := fun hw hq => by
        obtain ⟨t, ht, ha⟩ := h.woken hw hq
        have hti : t ≠ .pusher i := by
          intro e
          rw [e, Announces, hp] at ha
          cases ha
        exact ⟨t, ht, (movesOnly_pusher i s.monitor s.queue _ t hti).2.mpr ha⟩ }
  | nomem hp => exact h
  | lock hp hm =>
    have hfree := hm.lock_free
    have hwaiters := hm.lock_waiters
    exact {
      owner := h.owner_locked (movesOnly_pusher i _ _ _) hm (by rw [QueueState.holds, setPusher_self]; exact trivial)
      waiters := fun t ht => h.waiters t (hwaiters ▸ ht)
      wait := h.wait
      take := h.take
      link := fun j msg' hj => h.link j msg' (setPusher_link (fun e => by cases e) hj)
      woken := fun hw hq => by
        rw [hwaiters] at hw
        exact absurd hq (h.idle_of_blocked (fun t ht => by rw [hfree] at ht; cases ht) hw) }
  | test hp =>
    have hidle := h.idle_of_blocked (hquiet hp trivial fun e => by cases e)
    cases hsd : s.queue.shutdown with
    | true =>
      exact {
        owner := h.owner_kept (movesOnly_pusher i _ _ _) rfl (hholds hp Iff.rfl)
        waiters := h.waiters
        wait := h.wait
        take := h.take
        link := fun j msg' hj => h.link j msg' (setPusher_link (fun e => by cases e) hj)
        woken := fun hw hq => absurd hq (hidle hw) }
    | false =>
      exact {
        owner := h.owner_kept (movesOnly_pusher i _ _ _) rfl (hholds hp Iff.rfl)
        waiters := h.waiters
        wait := h.wait
        take := h.take
        link := fun _ _ _ => hsd
        woken := fun hw hq => absurd hq (hidle hw) }
  | link hp =>
    have howner := hself hp trivial
    have hpopper : ¬ s.popper.holds := h.not_holds (u := .popper) howner fun e => by cases e
    exact {
      owner := h.owner_kept (movesOnly_pusher i _ _ _) rfl (hholds hp Iff.rfl)
      waiters := h.waiters
      wait := fun e => absurd trivial (show ¬ PopPoint.wait.holds from (show s.popper = .wait from e) ▸ hpopper)
      take := fun e => absurd trivial (show ¬ PopPoint.take.holds from (show s.popper = .take from e) ▸ hpopper)
      link := fun j msg' hj => h.link j msg' (setPusher_link (fun e => by cases e) hj)
      woken := fun _ _ => ⟨.pusher i, howner, setPusher_self i _⟩ }
  | signal hp hm =>
    have hempty := hm.signal_waiters fun v hv => (h.waiters v hv).1
    refine .of_unblocked (h.owner_kept (movesOnly_pusher i _ _ _) hm.signal_owner (hholds hp Iff.rfl)) (fun t ht => ?_)
      h.wait h.take fun j msg' hj => h.link j msg' (setPusher_link (fun e => by cases e) hj)
    rw [hempty] at ht
    exact ht
  | leave hp hm =>
    have hidle := h.idle_of_blocked (hquiet hp trivial fun e => by cases e)
    have hwaiters := hm.unlock_waiters
    exact {
      owner := h.owner_released (movesOnly_pusher i _ _ _) (hself hp trivial) hm.unlock_owner
        (by rw [QueueState.holds, setPusher_self]; exact id)
      waiters := fun t ht => h.waiters t (hwaiters ▸ ht)
      wait := h.wait
      take := h.take
      link := fun j msg' hj => h.link j msg' (setPusher_link (fun e => by cases e) hj)
      woken := fun hw hq => absurd hq (hidle (hwaiters ▸ hw)) }

theorem QueueInv.stopStep (h : QueueInv s) (hs : StopStep s s') : QueueInv s' := by
  have hself : ∀ {p : StopPoint}, s.stopper = p → p.holds → s.monitor.owner = some .stopper := fun hp hh =>
    (h.owner .stopper).mpr (by rw [QueueState.holds, hp]; exact hh)
  cases hs with
  | call hp =>
    exact {
      owner := h.owner_kept (movesOnly_stopper _ _ _) rfl (by simp only [QueueState.holds, hp, StopPoint.holds])
      waiters := h.waiters
      wait := h.wait
      take := h.take
      link := h.link
      woken := fun hw hq => by
        obtain ⟨t, ht, ha⟩ := h.woken hw hq
        have hts : t ≠ .stopper := by
          intro e
          rw [e, Announces, hp] at ha
          cases ha
        exact ⟨t, ht, (movesOnly_stopper s.monitor s.queue _ t hts).2.mpr ha⟩ }
  | lock hp hm =>
    have hfree := hm.lock_free
    have hwaiters := hm.lock_waiters
    exact {
      owner := h.owner_locked (movesOnly_stopper _ _ _) hm trivial
      waiters := fun t ht => h.waiters t (hwaiters ▸ ht)
      wait := h.wait
      take := h.take
      link := h.link
      woken := fun hw hq => by
        rw [hwaiters] at hw
        exact absurd hq (h.idle_of_blocked (fun t ht => by rw [hfree] at ht; cases ht) hw) }
  | set hp =>
    have howner := hself hp trivial
    have hpopper : ¬ s.popper.holds := h.not_holds (u := .popper) howner fun e => by cases e
    have hpusher : ∀ i, ¬ (s.pusher i).holds := fun i => h.not_holds (u := .pusher i) howner fun e => by cases e
    exact {
      owner := h.owner_kept (movesOnly_stopper _ _ _) rfl (by simp only [QueueState.holds, hp, StopPoint.holds])
      waiters := h.waiters
      wait := fun e => absurd trivial (show ¬ PopPoint.wait.holds from (show s.popper = .wait from e) ▸ hpopper)
      take := h.take
      link := fun i msg hi => absurd trivial (show ¬ (PushPoint.link msg).holds from
        (show s.pusher i = .link msg from hi) ▸ hpusher i)
      woken := fun _ _ => ⟨.stopper, howner, rfl⟩ }
  | broadcast hp hm =>
    have hempty := hm.broadcast_waiters
    refine .of_unblocked (h.owner_kept (movesOnly_stopper _ _ _) hm.broadcast_owner
      (by simp only [QueueState.holds, hp, StopPoint.holds])) (fun t ht => ?_) h.wait h.take h.link
    rw [hempty] at ht
    exact ht
  | leave hp hm =>
    have howner := hself hp trivial
    have hwaiters := hm.unlock_waiters
    have hidle := h.idle_of_blocked (fun t ht ha => by
      rw [howner] at ht
      cases ht
      rw [Announces, hp] at ha
      cases ha)
    exact {
      owner := h.owner_released (movesOnly_stopper _ _ _) howner hm.unlock_owner id
      waiters := fun t ht => h.waiters t (hwaiters ▸ ht)
      wait := h.wait
      take := h.take
      link := h.link
      woken := fun hw hq => absurd hq (hidle (hwaiters ▸ hw)) }

theorem QueueInv.spurious (h : QueueInv s) (t : Party ι) : QueueInv { s with monitor := s.monitor.wake t } where
  owner := h.owner
  waiters u hu := h.waiters u ((Monitor.mem_wake _ _ _).mp hu).1
  wait := h.wait
  take := h.take
  link := h.link
  woken hw hq := h.woken ((Monitor.mem_wake _ _ _).mp hw).1 hq

/-- The invariant holds in every interleaving. -/
theorem QueueReachable.inv [DecidableEq ι] (h : QueueReachable s) : QueueInv s := by
  induction h with
  | init => exact .init
  | step t _ hs ih =>
    cases t with
    | popper => exact ih.popStep hs
    | pusher i => exact ih.pushStep hs
    | stopper => exact ih.stopStep hs
  | spurious t _ ih => exact ih.spurious t

end

/-- **No wake-up is lost**: a popper blocked in `pthread_cond_wait` while there is
something for it was woken, or the holder of the lock is about to wake it: its
next step, which nothing holds up, does. And `mq_pop` takes no node from an
empty queue. -/
theorem no_lost_wakeup {ι : Type} [DecidableEq ι] {s : QueueState ι} (h : QueueReachable s) :
    ¬ (Blocked s ∧ ¬ WakeupPending s ∧ (s.queue.msgs ≠ [] ∨ s.queue.shutdown = true)) ∧
    (∀ t, s.monitor.owner = some t → Announces s t →
      (∃ s', PartyStep t s s') ∧ ∀ s', PartyStep t s s' → .popper ∉ s'.monitor.waiters) ∧
    (s.popper = .take → s.queue.msgs ≠ []) := by
  have hinv := h.inv
  refine ⟨?_, ?_, hinv.take⟩
  · intro ⟨_, hno, hq⟩
    rw [WakeupPending, not_or, not_not] at hno
    exact hno.2 (hinv.woken hno.1 hq)
  · intro t _ ha
    cases t with
    | popper => exact ha.elim
    | pusher i =>
      have ha' : s.pusher i = .signal := ha
      have hwakes : Monitor.Step (.pusher i) .signal s.monitor { s.monitor with waiters := ∅ } :=
        .signal (Set.empty_subset _) fun hne => hne.ne_empty.symm
      refine ⟨⟨_, PushStep.signal ha' hwakes⟩, fun s' hs => ?_⟩
      cases hs with
      | signal hp hm =>
        have hempty := hm.signal_waiters fun v hv => (hinv.waiters v hv).1
        rw [hempty]
        exact Set.notMem_empty _
      | call _ hp | nomem hp | lock hp _ | test hp | link hp | leave hp _ =>
        rw [ha'] at hp
        cases hp
    | stopper =>
      have ha' : s.stopper = .broadcast := ha
      refine ⟨⟨_, StopStep.broadcast ha' .broadcast⟩, fun s' hs => ?_⟩
      cases hs with
      | broadcast hp hm =>
        rw [hm.broadcast_waiters]
        exact Set.notMem_empty _
      | call hp | lock hp _ | set hp | leave hp _ =>
        rw [ha'] at hp
        cases hp

/-- The popper blocks, a pusher links its event and is about to signal. -/
theorem no_lost_wakeup_linked : ∃ s : QueueState Unit, QueueReachable s ∧ Blocked s ∧ s.queue.msgs ≠ [] ∧
    s.pusher () = .signal ∧ WakeupPending s := by
  have hcalled := @QueueReachable.step Unit _ _ _ .popper .init (PopStep.call rfl)
  have hlocked := hcalled.step .popper (PopStep.lock rfl (.lock rfl (Set.notMem_empty _)))
  have htested := hlocked.step .popper (PopStep.test rfl)
  have hblocked := htested.step .popper (PopStep.wait (by rfl) (.wait rfl))
  have hpush := hblocked.step (.pusher ()) (PushStep.call default rfl)
  have hpushlock := hpush.step (.pusher ()) (PushStep.lock (by rfl) (.lock rfl fun hmem => hmem.elim (fun e => by cases e) id))
  have hpushtest := hpushlock.step (.pusher ()) (PushStep.test (by rfl))
  have hlinked := hpushtest.step (.pusher ()) (@PushStep.link _ _ _ _ default (by rfl))
  have hsafe := (no_lost_wakeup hlinked).1
  refine ⟨_, hlinked, rfl, List.cons_ne_nil _ _, rfl, ?_⟩
  by_contra hno
  exact hsafe ⟨rfl, hno, Or.inl (List.cons_ne_nil _ _)⟩

end ChatServer

import ChatServer.ClientLifetime

/-!
# The client, from its start to its end

What holds in every run of the client's two threads.
-/

namespace ChatServer

open CStr Interleave Prog Mutexes

namespace ClientAccess

/-- The socket of a system call. -/
def socket? : ClientAccess → Option Int
  | .connect fd | .close fd | .shutdown fd | .send fd .. | .recv fd => some fd
  | _ => none

/-- What is done without a lock to what both threads use. -/
def Bare : ClientAccess → Prop
  | .init | .peek | .poke _ | .printf _ => True
  | _ => False

/-- The calls that wait for the user, the server or the other thread. Those that may wait for room to write stand
under a lock: `send` under `lock`, `vprintf` under `io_lock`. -/
def Waits : ClientAccess → Prop
  | .getaddrinfo | .connect _ | .recv _ | .fgets _ | .join => True
  | _ => False

end ClientAccess

/-- What each thread is about to do is safe, and nothing is left behind. -/
structure ClientSystem.Safe (c : ClientSystem) : Prop where
  socket : ∀ {tid a k fd}, c.loc tid = .act (.act a) k → a.socket? = some fd → fd ∈ c.shared.data.fds
  mutex : ∀ {tid m k}, c.loc tid = .act (.lock m) k ∨ c.loc tid = .act (.unlock m) k → c.shared.data.made m = true
  unlock : ∀ {tid m k}, c.loc tid = .act (.unlock m) k → c.shared.held m = some tid
  mutexInit : ∀ {tid m k}, c.loc tid = .act (.act (.mutexInit m)) k → c.shared.data.made m = false
  mutexDestroy : ∀ {tid m k}, c.loc tid = .act (.act (.mutexDestroy m)) k →
    c.shared.data.made m = true ∧ c.shared.held m = none ∧ c.shared.data.receiver ≠ .running
  load : ∀ {tid k}, c.loc tid = .act (.act .load) k → c.shared.held .lock = some tid
  store : ∀ {tid x k}, c.loc tid = .act (.act (.store x)) k → c.shared.held .lock = some tid
  vprintf : ∀ {tid text k}, c.loc tid = .act (.act (.vprintf text)) k → c.shared.held .ioLock = some tid
  bare : ∀ {tid a k}, c.loc tid = .act (.act a) k → a.Bare → tid = .main ∧ c.shared.data.receiver ≠ .running
  waits : ∀ {tid a k}, c.loc tid = .act (.act a) k → a.Waits → ∀ m, c.shared.held m ≠ some tid
  create : ∀ {tid k}, c.loc tid = .act (.act .create) k → c.shared.data.receiver = .none
  returned : ∀ {pt}, c.loc .main = .ret pt →
    c.shared.data.fds = [] ∧ (∀ m, c.shared.data.made m = false) ∧ c.shared.data.receiver ≠ .running

section
variable {tid : ClientTid} {p : ClientPhase} {a : ClientAccess} {s : ClientProcess}

theorem socket_open (ha : p.allows a) (hs : s.Furnished) (hG : tid.Relies p s) {fd : Int} (hfd : a.socket? = some fd) : fd ∈ s.fds := by
  have ofMain : (p = .dialing fd ∨ p = .connected fd ∨ p = .live fd ∨ p = .joined fd) → fd ∈ s.fds := by
    intro hp
    cases tid with
    | main =>
      have hfds : s.fds = [fd] := by rcases hp with rfl | rfl | rfl | rfl <;> exact hG.2.2.1
      rw [hfds]
      exact List.mem_singleton_self fd
    | receiver => rcases hp with rfl | rfl | rfl | rfl <;> cases hG
  cases a with
  | connect fd' =>
    cases hfd
    exact ofMain (Or.inl ha)
  | close fd' =>
    cases hfd
    rcases ha with h | h | h
    · exact ofMain (Or.inl h)
    · exact ofMain (Or.inr (Or.inl h))
    · exact ofMain (Or.inr (Or.inr (Or.inr h)))
  | shutdown fd' =>
    cases hfd
    exact ofMain (Or.inr (Or.inr (Or.inl ha)))
  | send fd' buf sent =>
    cases hfd
    exact ofMain (Or.inr (ha.imp id Or.inl))
  | recv fd' =>
    cases hfd
    obtain rfl : p = .reading fd := ha
    cases tid with
    | main => cases hG.2
    | receiver =>
      obtain ⟨hrun, hsock⟩ : s.receiver = .running ∧ s.members.sockfd = fd := hG
      rw [← hsock]
      exact (hs hrun).2.2
  | _ => cases hfd

theorem mutex_made (hs : s.Furnished) (hG : tid.Relies p s) {m : ClientMutex} (hm : p.made m = true) : s.made m = true := by
  cases tid with
  | main => rw [hG.1, hm]
  | receiver =>
    cases p with
    | born => exact (hs hG).1 m
    | reading fd => exact (hs (And.left hG)).1 m
    | unborn | finished => cases hm
    | _ => cases hG

/-- Only `main` is ever at work where the receiver does not run. -/
theorem main_of_phase {s : ClientProcess} (hG : tid.Relies p s) (hp : ∀ s, ¬ p.ofReceiver s) : tid = .main := by
  cases tid with
  | main => rfl
  | receiver => exact absurd hG (hp s)

/-- A receiver that does not run is not inside anything. -/
theorem idle_permits {o : Op ClientMutex ClientAccess} (hp : p = .unborn ∨ p = .finished) (ho : p.permits o) : o = .act .start := by
  cases o with
  | lock m | unlock m => rcases hp with rfl | rfl <;> cases ho
  | sleep m | wake m => cases ho
  | act a =>
    cases a with
    | start => rfl
    | mutexInit m => cases m <;> rcases hp with rfl | rfl <;> cases ho
    | mutexDestroy m => cases m <;> rcases hp with rfl | rfl <;> rcases ho with h | h <;> cases h
    | close fd => rcases hp with rfl | rfl <;> rcases ho with h | h | h <;> cases h
    | send fd => rcases hp with rfl | rfl <;> rcases ho with h | h <;> cases h
    | store x =>
      cases x with
      | sockfd fd => rcases hp with rfl | rfl <;> rcases ho with h | ⟨h, -⟩ <;> cases h
      | _ => rcases hp with rfl | rfl <;> cases ho
    | poke x =>
      cases x with
      | username src =>
        obtain ⟨fd, h⟩ := ho
        rcases hp with rfl | rfl <;> cases h
      | _ => cases ho
    | fgets n =>
      obtain ⟨fd, h⟩ := ho
      rcases hp with rfl | rfl <;> rcases h with h | h <;> cases h
    | printf text =>
      rcases hp with rfl | rfl <;> rcases ho with h | ⟨fd, h⟩ <;> cases h
    | peek | create | exit | join =>
      obtain ⟨fd, h⟩ := ho
      rcases hp with rfl | rfl <;> cases h
    | _ => rcases hp with rfl | rfl <;> cases ho

end

section
variable {args : ClientArgs} {ok : ClientEnv → Prop} {members : Members} {stdin line : Bytes} {c : ClientSystem}
variable {tr : List (Label ClientTid (@Op.Ret ClientMutex ClientAccess ClientAccess.Ret))}

/-- What the two disciplines say of a state: `w` are the phases, `v` the locks held. -/
structure ClientSystem.Kept (w : ClientTid → ClientPhase) (v : ClientTid → Option ClientMutex) (c : ClientSystem) : Prop where
  furnished : c.shared.data.Furnished
  relies : ∀ tid : ClientTid, tid.Relies (w tid) c.shared.data
  phase : ∀ tid, Meets phaseContract ClientPt.At (c.loc tid) (w tid)
  locks : Disciplined ClientAccess.May (fun _ v => v = none) c v
  settled : ∀ {tid pt}, c.loc tid = .ret pt → pt = .returned

theorem settle_returned {t : ClientCode ClientPt} {pt : ClientPt} (h : settle (ClientPt.code args) t = .ret pt) : pt = .returned := by
  have hcode : ∀ pt', ClientPt.code args pt' = .ret pt → pt = .returned := by
    intro pt' h
    cases pt' with
    | returned =>
      cases h
      rfl
    | main | turn | receiver | round => cases h
  cases t with
  | ret pt' => exact hcode pt' h
  | act o k => cases h

theorem client_run_kept (hr : Run (ClientSystem.Step args ok) (.init args members stdin line) tr c) :
    ∃ w v, ClientSystem.Kept w v c := by
  have hinit : Disciplined ClientAccess.May (fun _ v => v = none) (ClientSystem.init args members stdin line) fun _ => none := by
    refine ⟨fun tid => ?_, fun _ _ => iff_of_false nofun nofun, fun _ _ _ => rfl⟩
    cases tid with
    | main => exact (client_kept args).meets .main none rfl
    | receiver => exact (client_kept args).meets (.receiver line) none rfl
  obtain ⟨v, hv⟩ := hinit.run (client_kept args) hr
  obtain ⟨hs, hat, hG⟩ := client_watched hr
  refine ⟨_, v, hs, hG, hat, hv, fun {tid pt} hloc => ?_⟩
  have hsettled : ∀ pt, c.loc tid = .ret pt → pt = .returned := by
    refine loc_invariant (I := fun t => ∀ pt, t = .ret pt → pt = .returned) ?_ hr ?_
    · intro t o k r _ hn
      cases t with
      | ret pt => cases hn
      | act o' k' =>
        cases hn
        exact fun pt => settle_returned
    · cases tid with
      | main => exact fun pt h => by cases h
      | receiver => exact fun pt h => by cases h
  exact hsettled pt hloc

namespace ClientSystem.Kept
variable {w : ClientTid → ClientPhase} {v : ClientTid → Option ClientMutex}

theorem permits (h : Kept w v c) {tid : ClientTid} {o : Op ClientMutex ClientAccess} {k : o.Ret ClientAccess.Ret → ClientCode ClientPt}
    (hloc : c.loc tid = .act o k) : (w tid).permits o := by
  have hmeets := h.phase tid
  rw [hloc] at hmeets
  exact hmeets.1

/-- A receiver that does not run holds nothing. -/
theorem receiver_free (h : Kept w v c) (hidle : c.shared.data.receiver ≠ .running) : v .receiver = none := by
  have hq : w .receiver = .unborn ∨ w .receiver = .finished := by
    have hG : (w .receiver).ofReceiver c.shared.data := h.relies .receiver
    generalize w .receiver = q at hG
    cases q with
    | unborn => exact Or.inl rfl
    | finished => exact Or.inr rfl
    | born => exact absurd hG hidle
    | reading fd => exact absurd hG.1 hidle
    | _ => cases hG
  cases hloc : c.loc .receiver with
  | ret pt => exact h.locks.rest .receiver pt hloc
  | act o k =>
    obtain rfl := idle_permits hq (h.permits hloc)
    exact h.locks.fits hloc

theorem held_none (h : Kept w v c) (hmain : v .main = none) (hreceiver : v .receiver = none) (m : ClientMutex) : c.shared.held m = none := by
  cases hheld : c.shared.held m with
  | none => rfl
  | some tid =>
    have hv := (h.locks.held m tid).mp hheld
    cases tid with
    | main => exact absurd (hmain.symm.trans hv) nofun
    | receiver => exact absurd (hreceiver.symm.trans hv) nofun

/-- A phase that is not the receiver's is `main`'s, and there `main` is alone unless it says otherwise. -/
theorem alone (h : Kept w v c) {tid : ClientTid} (hp : ∀ s, ¬ (w tid).ofReceiver s) (hlive : ∀ fd, w tid ≠ .live fd) :
    tid = .main ∧ c.shared.data.receiver ≠ .running := by
  obtain rfl := main_of_phase (h.relies tid) hp
  refine ⟨rfl, fun hrun => ?_⟩
  obtain ⟨fd, hfd⟩ := live_of_running (h.relies .main) hrun
  exact hlive fd hfd

theorem safe (h : Kept w v c) : c.Safe where
  socket hloc := socket_open (h.permits hloc) h.furnished (h.relies _)
  mutex := by
    rintro tid m k (hloc | hloc)
    · exact mutex_made h.furnished (h.relies tid) (h.permits hloc)
    · exact mutex_made h.furnished (h.relies tid) (h.permits hloc)
  unlock hloc := (h.locks.held _ _).mpr (h.locks.fits hloc)
  mutexInit := by
    intro tid m k hloc
    have hp := h.permits hloc
    have hG := h.relies tid
    generalize w tid = p at hp hG
    cases tid with
    | main =>
      rw [hG.1]
      cases m <;> cases hp <;> rfl
    | receiver => cases m <;> cases hp <;> cases hG
  mutexDestroy := by
    intro tid m k hloc
    have hp := h.permits hloc
    obtain ⟨rfl, hidle⟩ : tid = .main ∧ c.shared.data.receiver ≠ .running := by
      refine h.alone (fun s hs => ?_) fun fd hfd => ?_
      · generalize w tid = p at hp hs
        cases m <;> rcases hp with rfl | rfl <;> cases hs
      · rw [hfd] at hp
        cases m <;> rcases hp with hp | hp <;> cases hp
    refine ⟨?_, h.held_none (h.locks.fits hloc) (h.receiver_free hidle) m, hidle⟩
    have hG := h.relies .main
    rw [hG.1]
    generalize w .main = p at hp
    cases m <;> rcases hp with rfl | rfl <;> rfl
  load hloc := (h.locks.held _ _).mpr (h.locks.fits hloc)
  store hloc := (h.locks.held _ _).mpr (h.locks.fits hloc)
  vprintf hloc := (h.locks.held _ _).mpr (h.locks.fits hloc)
  bare := by
    intro tid a k hloc hbare
    have hp := h.permits hloc
    have hcases : w tid = .raw ∨ w tid = .gone ∨ ∃ fd, w tid = .connected fd := by
      cases a with
      | init => exact Or.inl hp
      | peek => exact Or.inr (Or.inr hp)
      | poke x =>
        cases x with
        | username src => exact Or.inr (Or.inr hp)
        | _ => cases hp
      | printf text => exact Or.inr hp
      | _ => cases hbare
    refine h.alone (fun s hs => ?_) fun fd hfd => ?_
    · rcases hcases with hw | hw | ⟨fd, hw⟩ <;> rw [hw] at hs <;> cases hs
    · rcases hcases with hw | hw | ⟨fd', hw⟩ <;> cases hw.symm.trans hfd
  waits := by
    intro tid a k hloc hwaits m
    have hfree : v tid = none := by
      cases a with
      | getaddrinfo | connect | recv | fgets | join => exact h.locks.fits hloc
      | _ => cases hwaits
    rw [ne_eq, h.locks.held, hfree]
    nofun
  create := by
    intro tid k hloc
    obtain ⟨fd, hfd⟩ : ∃ fd, w tid = .connected fd := h.permits hloc
    have hG := h.relies tid
    rw [hfd] at hG
    cases tid with
    | main => exact hG.2.1
    | receiver => cases hG
  returned := by
    intro pt hloc
    have hat := h.phase .main
    rw [hloc] at hat
    obtain rfl := h.settled hloc
    obtain ⟨hmade, hp⟩ := h.relies .main
    generalize w .main = p at hat hmade hp
    obtain rfl | rfl | rfl : p = .blank ∨ p = .gone ∨ p = .finished := hat
    · exact ⟨hp.2.1, hmade, by rw [hp.1]; nofun⟩
    · refine ⟨hp.2, hmade, ?_⟩
      rcases hp.1 with h | h <;> rw [h] <;> nofun
    · cases hp

/-! ### No deadlock -/

/-- The plainest outcome of each call. -/
def calm : ClientEnv where
  ok := true
  addrs := none
  fd := none
  sent := none
  got := .eof

/-- Only the start of the receiver and the wait for its end can be held up. -/
theorem access_enabled (tid : ClientTid) (a : ClientAccess) (s : ClientProcess) :
    (∃ q, a.exec tid calm s = some q) ∨ a = .start ∧ s.receiver ≠ .running ∨ a = .join ∧ s.receiver ≠ .ended := by
  cases a with
  | start =>
    by_cases h : s.receiver = .running
    · exact Or.inl ⟨_, if_pos h⟩
    · exact Or.inr (Or.inl ⟨rfl, h⟩)
  | join =>
    by_cases h : s.receiver = .ended
    · exact Or.inl ⟨_, if_pos h⟩
    · exact Or.inr (Or.inr ⟨rfl, h⟩)
  | fgets n =>
    by_cases h : s.stdin = []
    · exact Or.inl ⟨_, if_pos h⟩
    · exact Or.inl ⟨_, if_neg h⟩
  | _ => exact Or.inl ⟨_, rfl⟩

/-- A thread can go on unless its lock is taken, or it waits for the other one's state. -/
theorem enabled (h : Kept w v c) {tid : ClientTid} {o : Op ClientMutex ClientAccess} {k : o.Ret ClientAccess.Ret → ClientCode ClientPt}
    (hloc : c.loc tid = .act o k) : (∃ l c', ClientSystem.Step args (fun _ => True) c l c') ∨
      (∃ m j, o = .lock m ∧ c.shared.held m = some j) ∨ o = .act .start ∧ c.shared.data.receiver ≠ .running ∨
      o = .act .join ∧ c.shared.data.receiver ≠ .ended := by
  have steps : ∀ {r s'}, Mutexes.exec ClientAccess.exec tid o calm c.shared = some (r, s') →
      ∃ l c', ClientSystem.Step args (fun _ => True) c l c' := by
    intro r s' hx
    have hn : Mutexes.next (ClientPt.code args) (c.loc tid) = some ⟨o, fun r => settle (ClientPt.code args) (k r)⟩ := by
      rw [hloc]
      rfl
    exact ⟨_, _, .mk hn trivial hx⟩
  cases o with
  | lock m =>
    cases hheld : c.shared.held m with
    | none =>
      have hx : take c.shared m tid = some ((), { c.shared with held := Function.update c.shared.held m (some tid) }) := by
        unfold take
        rw [hheld]
      exact Or.inl (steps hx)
    | some j => exact Or.inr (Or.inl ⟨m, j, rfl, hheld⟩)
  | unlock m => exact Or.inl (steps rfl)
  | sleep m | wake m => exact absurd (h.permits hloc) id
  | act a =>
    rcases access_enabled tid a c.shared.data with ⟨⟨r, s'⟩, hx⟩ | ⟨rfl, hstate⟩ | ⟨rfl, hstate⟩
    · exact Or.inl (steps (Option.map_eq_some_iff.mpr ⟨_, hx, rfl⟩))
    · exact Or.inr (Or.inr (Or.inl ⟨rfl, hstate⟩))
    · exact Or.inr (Or.inr (Or.inr ⟨rfl, hstate⟩))

/-- The receiver, where `main` holds nothing, or whoever holds a lock can go on. -/
theorem progress (h : Kept w v c) : c.loc .main = .ret .returned ∨ ∃ l c', ClientSystem.Step args (fun _ => True) c l c' := by
  -- a thread that holds a lock is not held up
  have holder : ∀ {m : ClientMutex} {j : ClientTid}, c.shared.held m = some j → ∃ l c', ClientSystem.Step args (fun _ => True) c l c' := by
    intro m j hheld
    obtain ⟨o, k, hloc, hfree⟩ := h.locks.proceeds hheld
    have hv := (h.locks.held m j).mp hheld
    rcases h.enabled hloc with hstep | ⟨n, -, rfl, -⟩ | ⟨rfl, -⟩ | ⟨rfl, -⟩
    · exact hstep
    · exact absurd rfl (hfree n).1
    · exact absurd ((h.locks.fits hloc).symm.trans hv) nofun
    · exact absurd ((h.locks.fits hloc).symm.trans hv) nofun
  cases hloc : c.loc .main with
  | ret pt =>
    obtain rfl := h.settled hloc
    exact Or.inl rfl
  | act o k =>
    right
    rcases h.enabled hloc with hstep | ⟨m, j, -, hheld⟩ | ⟨rfl, -⟩ | ⟨rfl, hended⟩
    · exact hstep
    · exact holder hheld
    · have hp : w .main = .unborn := h.permits hloc
      have hG := (h.relies .main).2
      rw [hp] at hG
      cases hG
    -- `main` waits for the receiver to end, which then runs
    · obtain ⟨fd, hp⟩ : ∃ fd, w .main = .live fd := h.permits hloc
      have hG := (h.relies .main).2
      rw [hp] at hG
      have hrun : c.shared.data.receiver = .running := hG.1.resolve_right hended
      have hq : (w .receiver).ofReceiver c.shared.data := h.relies .receiver
      cases hloc' : c.loc .receiver with
      | ret pt =>
        obtain rfl := h.settled hloc'
        have hat := h.phase .receiver
        rw [hloc'] at hat
        obtain hw | hw | hw : w .receiver = .blank ∨ w .receiver = .gone ∨ w .receiver = .finished := hat
        · rw [hw] at hq
          cases hq
        · rw [hw] at hq
          cases hq
        · rw [hw] at hq
          rcases hq with hq | hq <;> exact absurd (hrun.symm.trans hq) nofun
      | act o' k' =>
        rcases h.enabled hloc' with hstep | ⟨m, j, -, hheld⟩ | ⟨rfl, hidle⟩ | ⟨rfl, -⟩
        · exact hstep
        · exact holder hheld
        · exact absurd hrun hidle
        · obtain ⟨fd', hw⟩ : ∃ fd, w .receiver = .live fd := h.permits hloc'
          rw [hw] at hq
          cases hq

end ClientSystem.Kept

/-- **The client is safe in every run, and never stuck.** Whatever the user
types, the server sends and the system refuses: a socket is used only while it
is open, a mutex only while it exists, and destroyed while nobody holds it;
the members and the terminal are touched under their locks or by the only
thread; nothing waits for a peer with a lock held, `send` apart; what was
opened is closed and what was made is destroyed when `main` returns, and the
receiver is over. Until then some thread can go on, and none waits in a cycle. -/
theorem client_safe (hr : Run (ClientSystem.Step args ok) (.init args members stdin line) tr c) :
    c.Safe ∧ (∀ tid, ¬ Relation.TransGen (Awaits c) tid tid) ∧
    (c.loc .main = .ret .returned ∨ ∃ l c', ClientSystem.Step args (fun _ => True) c l c') := by
  obtain ⟨w, v, h⟩ := client_run_kept hr
  exact ⟨h.safe, fun tid => h.locks.no_cycle, h.progress⟩

end

/-! ### `bob` leaves again -/

def ClientSystem.done (c : ClientSystem) : Bool :=
  match c.loc .main with
  | .ret .returned => true
  | _ => false

theorem ClientSystem.loc_of_done {c : ClientSystem} (h : c.done = true) : c.loc .main = .ret .returned := by
  unfold ClientSystem.done at h
  split at h
  · assumption
  · cases h

def bobArgs : ClientArgs where
  username := some (lit "bob")
  password := some (lit "pw")
  colors := false

/-- A connection that is closed behind the first command. -/
def shortLived : ClientEnv where
  ok := true
  addrs := some 1
  fd := some 5
  sent := some maxLineLen
  got := .eof

def bobClient : ClientSystem := .init bobArgs .blank (lit "/quit\n") (zeros maxLineLen)

def bobSchedule : List (ClientTid × ClientEnv) :=
  let turn (n : Nat) (tid : ClientTid) := List.replicate n (tid, shortLived)
  turn 19 .main ++ turn 15 .receiver ++ turn 19 .main

theorem client_safe_bob : ∃ tr c, Run (ClientSystem.Step bobArgs fun _ => True) bobClient tr c ∧
    c.loc .main = .ret .returned ∧ c.shared.data.fds = [] ∧ (∀ m, c.shared.data.made m = false) ∧ c.shared.data.receiver ≠ .running := by
  have hsome : (schedule (Mutexes.next (ClientPt.code bobArgs)) (Mutexes.exec ClientAccess.exec) bobClient bobSchedule).any
      (fun q => ClientSystem.done q.2) = true := by
    decide +kernel
  obtain ⟨⟨tr, c⟩, hs, hdone⟩ := (Option.any_eq_true _ _).mp hsome
  have hr : Run (ClientSystem.Step bobArgs fun _ => True) bobClient tr c := run_of_schedule (fun _ _ => trivial) hs
  have hreturned := ClientSystem.loc_of_done hdone
  exact ⟨tr, c, hr, hreturned, (client_safe hr).1.returned hreturned⟩

end ChatServer

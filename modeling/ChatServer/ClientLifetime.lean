import ChatServer.ClientThreadsSound

/-!
# What the client opens, it closes

The phases of the client's threads: what each of them may do there, and what
it can rely on whatever the other one does.
-/

namespace ChatServer

open CStr Interleave Prog Mutexes

inductive ClientPhase where
  -- `main`
  | raw
  | blank
  | half
  | ready
  | dialing (fd : Int)
  | connected (fd : Int)
  | live (fd : Int)
  | joined (fd : Int)
  | stale
  | spent
  | last
  | gone
  -- the receiver
  | unborn
  | born
  | reading (fd : Int)
  | finished

namespace ClientPhase

/-- The mutexes that the thread can use. -/
def made : ClientPhase → ClientMutex → Bool
  | raw, _ | blank, _ | gone, _ | unborn, _ | finished, _ => false
  | half, m | last, m => m == .lock
  | _, _ => true

def allows (p : ClientPhase) : ClientAccess → Prop
  | .init => p = raw
  | .mutexInit .lock => p = blank
  | .mutexInit .ioLock => p = half
  | .mutexDestroy .lock => p = half ∨ p = last
  | .mutexDestroy .ioLock => p = ready ∨ p = spent
  | .getaddrinfo | .socket => p = ready
  | .connect fd => p = dialing fd
  | .close fd => p = dialing fd ∨ p = connected fd ∨ p = joined fd
  | .shutdown fd => p = live fd
  | .send fd .. => p = connected fd ∨ p = live fd
  | .recv fd => p = reading fd
  | .load => p.made .lock = true
  | .store (.sockfd fd) => p = dialing fd ∨ p = stale ∧ fd = -1
  | .store _ => p.made .lock = true
  | .peek | .poke (.username _) | .create => ∃ fd, p = connected fd
  | .poke _ => False
  | .fgets _ => ∃ fd, p = connected fd ∨ p = live fd
  | .vprintf _ => p.made .ioLock = true
  | .printf _ => p = gone ∨ ∃ fd, p = connected fd
  | .start => p = unborn
  | .exit => ∃ fd, p = reading fd
  | .join => ∃ fd, p = live fd

def permits (p : ClientPhase) : Op ClientMutex ClientAccess → Prop
  | .lock m | .unlock m => p.made m = true
  | .sleep _ | .wake _ => False
  | .act a => p.allows a

def next (p : ClientPhase) : (a : ClientAccess) → a.Ret → ClientPhase
  | .init, _ => blank
  | .mutexInit m, (r : Bool) => if r then (match m with | .lock => half | .ioLock => ready) else p
  | .mutexDestroy .lock, _ => gone
  | .mutexDestroy .ioLock, _ => last
  | .socket, (r : Option Int) => r.elim p dialing
  | .close _, _ => match p with | dialing _ => ready | _ => stale
  | .store (.sockfd fd), _ => match p with | dialing _ => connected fd | _ => spent
  | .load, (x : Members) => match p with | born => reading x.sockfd | p => p
  | .create, (r : Bool) => if r then (match p with | connected fd => live fd | p => p) else p
  | .start, _ => born
  | .exit, _ => finished
  | .join, _ => match p with | live fd => joined fd | p => p
  | _, _ => p

def after (p : ClientPhase) : (o : Op ClientMutex ClientAccess) → o.Ret ClientAccess.Ret → ClientPhase
  | .act a, r => p.next a r
  | _, _ => p

/-- What the members are where the thread reads them. -/
def knows (p : ClientPhase) (x : Members) : Prop :=
  match p with
  | ready | spent => x.sockfd = -1
  | connected fd | live fd | joined fd | reading fd => x.sockfd = fd ∧ 0 ≤ fd
  | _ => True

def tells (p : ClientPhase) : (o : Op ClientMutex ClientAccess) → o.Ret ClientAccess.Ret → Prop
  | .act .load, (x : Members) | .act .peek, (x : Members) => p.knows x
  | _, _ => True

end ClientPhase

def phaseContract : Contract (@Op.Ret ClientMutex ClientAccess ClientAccess.Ret) ClientPhase where
  pre o p := p.permits o
  post o p r p' := p.tells o r ∧ p' = p.after o r

def ClientPt.At : ClientPt → ClientPhase → Prop
  | .main, p => p = .raw
  | .turn, p => ∃ fd, p = .live fd
  | .receiver _, p => p = .unborn
  | .round _, p => p = .born ∨ ∃ fd, p = .reading fd
  | .returned, p => p = .blank ∨ p = .gone ∨ p = .finished

namespace ClientLocks

section
variable {α β : Type} {Q : α → ClientPhase → Prop} {p : ClientPhase}

theorem meets_step {o : Op ClientMutex ClientAccess} {k : o.Ret ClientAccess.Ret → ClientCode α} (ho : p.permits o)
    (hk : ∀ r, p.tells o r → Meets phaseContract Q (k r) (p.after o r)) : Meets phaseContract Q (.act o k) p := by
  refine ⟨ho, ?_⟩
  rintro r _ ⟨ht, rfl⟩
  exact hk r ht

/-- What the code leaves the phase as it is with. -/
abbrev Stays (p : ClientPhase) (c : ClientCode α) : Prop := Meets phaseContract (fun _ p' => p' = p) c p

theorem stays_bind {c : ClientCode β} {f : β → ClientCode α} (hc : Stays p c) (hf : ∀ x, Meets phaseContract Q (f x) p) :
    Meets phaseContract Q (c >>= f) p := by
  refine Meets.bind (hc.mono ?_)
  rintro x _ rfl
  exact hf x

theorem assign_phase {x : Assign} (hp : p.made .lock = true) (hx : ∀ fd, x ≠ .sockfd fd) : Stays p (assign x) := by
  refine meets_step hp fun _ _ => meets_step ?_ fun _ _ => ?_
  · cases x with
    | sockfd fd => exact absurd rfl (hx fd)
    | _ => exact hp
  · cases x with
    | sockfd fd => exact absurd rfl (hx fd)
    | _ => exact meets_step hp fun _ _ => rfl

theorem clientSetRunning_phase {value : Bool} (hp : p.made .lock = true) : Stays p (clientSetRunning value) := assign_phase hp nofun

theorem clientPrint_phase (hp : p.made .ioLock = true) (text : Bytes) : Stays p (clientPrint text) :=
  meets_step hp fun _ _ => meets_step hp fun _ _ => meets_step hp fun _ _ => rfl

theorem clientPrints_phase (hp : p.made .ioLock = true) : ∀ texts, Stays p (clientPrints texts)
  | [] => rfl
  | text :: texts => stays_bind (clientPrint_phase hp text) fun _ => clientPrints_phase hp texts

/-! ### `receiver_thread` -/

/-- The first look tells the receiver the socket. -/
theorem look_reading (f : Members → α) (hp : ClientPt.At (.round []) p) :
    Meets phaseContract (fun r p' => ∃ x : Members, r = f x ∧ p' = .reading x.sockfd) (look f) p := by
  obtain rfl | ⟨fd, rfl⟩ := hp
  · exact meets_step rfl fun _ _ => meets_step rfl fun (x : Members) _ => meets_step rfl fun _ _ => ⟨x, rfl, rfl⟩
  · refine meets_step rfl fun _ _ => meets_step rfl fun (x : Members) hx => meets_step rfl fun _ _ => ⟨x, rfl, ?_⟩
    have hfd : x.sockfd = fd := hx.1
    rw [hfd]
    rfl

theorem recvLoop_phase (fd : Int) : ∀ n pos buf, Stays (.reading fd) (recvLoop fd n pos buf)
  | 0, _, _ => rfl
  | n + 1, pos, buf => by
    refine meets_step rfl fun (r : Incoming) _ => ?_
    cases r with
    | byte c =>
      show Meets _ _ (if c = lf then _ else _) _
      split
      · exact rfl
      · exact recvLoop_phase fd n (pos + 1) (buf.set pos c)
    | eof | error => exact rfl

theorem clientRecvLine_phase (buf : Bytes) (buflen : Nat) (hp : ClientPt.At (.round []) p) :
    Meets phaseContract (fun _ p' => ∃ fd, p' = .reading fd) (clientRecvLine buf buflen) p := by
  refine Meets.bind ((look_reading _ hp).mono ?_)
  rintro _ _ ⟨x, rfl, rfl⟩
  split
  · exact ⟨_, rfl⟩
  · exact (recvLoop_phase x.sockfd _ _ _).mono fun _ _ h => ⟨_, h⟩

theorem displayServerMessage_phase (colors : Bool) (resp : ParsedResp) (fd : Int) : Stays (.reading fd) (displayServerMessage colors resp) := by
  have hprints : Stays (.reading fd) (clientPrints (displayTexts colors resp)) := clientPrints_phase rfl _
  unfold displayServerMessage
  cases resp.type with
  | welcome | roomJoined => exact stays_bind (assign_phase rfl nofun) fun _ => hprints
  | kicked => exact stays_bind hprints fun _ => clientSetRunning_phase rfl
  | _ => exact hprints

theorem leaveThread_phase (fd : Int) : Meets phaseContract ClientPt.At leaveThread (.reading fd) :=
  meets_step ⟨fd, rfl⟩ fun _ _ => Or.inr (Or.inr rfl)

theorem receiverRound_phase (colors : Bool) (line : Bytes) (hp : ClientPt.At (.round []) p) :
    Meets phaseContract ClientPt.At (receiverRound colors line) p := by
  refine Meets.bind ((look_reading _ hp).mono ?_)
  rintro running _ ⟨x, -, rfl⟩
  cases running with
  | false => exact leaveThread_phase _
  | true =>
    refine Meets.bind ((clientRecvLine_phase line maxLineLen (Or.inr ⟨_, rfl⟩)).mono ?_)
    rintro ⟨rc, line'⟩ _ ⟨fd, rfl⟩
    have hend : Meets phaseContract ClientPt.At (do clientPrint (disconnectedText colors); clientSetRunning false; leaveThread) (.reading fd) :=
      stays_bind (clientPrint_phase rfl _) fun _ => stays_bind (clientSetRunning_phase rfl) fun _ => leaveThread_phase fd
    cases rc with
    | ok =>
      dsimp only
      split
      · exact stays_bind (displayServerMessage_phase colors _ fd) fun _ => Or.inr ⟨fd, rfl⟩
      · exact stays_bind (clientPrint_phase rfl _) fun _ => Or.inr ⟨fd, rfl⟩
    | _ => exact hend

/-! ### `main` -/

theorem clientInit_phase : Meets phaseContract (fun rc p => if rc = .ok then p = .ready else p = .blank ∨ p = .gone) clientInit .raw := by
  refine meets_step rfl fun _ _ => meets_step rfl fun (made : Bool) _ => ?_
  cases made with
  | false => exact Or.inl rfl
  | true =>
    refine meets_step rfl fun (made : Bool) _ => ?_
    cases made with
    | false => exact meets_step (Or.inl rfl) fun _ _ => Or.inr rfl
    | true => exact rfl

theorem dial_phase : ∀ n, Meets phaseContract (fun r p => p = r.elim .ready .dialing) (dial n) .ready
  | 0 => rfl
  | n + 1 => by
    refine meets_step rfl fun (r : Option Int) _ => ?_
    cases r with
    | none => exact dial_phase n
    | some fd =>
      refine meets_step rfl fun (connected : Bool) _ => ?_
      cases connected with
      | true => exact rfl
      | false => exact meets_step (Or.inl rfl) fun _ _ => dial_phase n

theorem clientConnect_phase :
    Meets phaseContract (fun rc p => if rc = .ok then ∃ fd, p = .connected fd else p = .ready) clientConnect .ready := by
  refine meets_step rfl fun (r : Option Nat) _ => ?_
  cases r with
  | none => exact rfl
  | some n =>
    show Meets _ _ (dial n >>= _) _
    refine Meets.bind ((dial_phase n).mono ?_)
    rintro r _ rfl
    cases r with
    | none => exact rfl
    | some fd => exact meets_step rfl fun _ _ => meets_step (Or.inl rfl) fun _ _ => meets_step rfl fun _ _ => ⟨fd, rfl⟩

theorem credential_phase (question : Bytes) (override : Option Bytes) (len : Nat) (fd : Int) :
    Stays (.connected fd) (credential question override len) := by
  unfold credential
  split
  · exact rfl
  refine meets_step (Or.inr ⟨fd, rfl⟩) fun _ _ => meets_step ⟨fd, Or.inl rfl⟩ fun (r : Option Bytes) _ => ?_
  cases r <;> exact rfl

theorem resolveCredentials_phase (args : ClientArgs) (fd : Int) : Stays (.connected fd) (resolveCredentials args) := by
  refine stays_bind (credential_phase _ _ _ fd) fun r => ?_
  cases r with
  | none => exact rfl
  | some username =>
    refine meets_step ⟨fd, rfl⟩ fun _ _ => ?_
    show Meets _ _ (credential _ _ _ >>= _) _
    refine stays_bind (credential_phase _ _ _ fd) fun r => ?_
    cases r <;> exact rfl

theorem sendLoop_phase {fd : Int} (hp : p = .connected fd ∨ p = .live fd) (buf : Bytes) : ∀ fuel sent, Stays p (sendLoop fd buf fuel sent)
  | 0, _ => rfl
  | fuel + 1, sent => by
    unfold sendLoop
    split
    · exact rfl
    refine meets_step hp fun (r : Option Nat) _ => ?_
    cases r with
    | none => exact rfl
    | some n =>
      cases n with
      | zero => exact rfl
      | succ n => exact sendLoop_phase hp buf fuel (sent + (n + 1))

theorem clientSendLine_phase {fd : Int} (hp : p = .connected fd ∨ p = .live fd) (line : Bytes) : Stays p (clientSendLine line) := by
  have hmade : p.made .lock = true := by rcases hp with rfl | rfl <;> rfl
  refine meets_step hmade fun _ _ => meets_step hmade fun (x : Members) hx => ?_
  have hsame : p.next .load x = p := by rcases hp with rfl | rfl <;> rfl
  have hfd : x.sockfd = fd := by rcases hp with rfl | rfl <;> exact hx.1
  show Meets _ _ (if x.sockfd < 0 ∨ x.cli.running = false then _ else _) (p.next .load x)
  rw [hsame]
  split
  · exact meets_step hmade fun _ _ => rfl
  · exact stays_bind (sendLoop_phase (by rwa [hfd]) line line.length 0) fun _ => meets_step hmade fun _ _ => rfl

/-- Where `client_destroy` may be called. -/
def Destroyable (p : ClientPhase) : Prop := p = .ready ∨ ∃ fd, p = .connected fd ∨ p = .joined fd

theorem clientDestroy_phase (hp : Destroyable p) : Meets phaseContract (fun _ p' => p' = .gone) clientDestroy p := by
  have hmade : ∀ m, p.made m = true := by obtain rfl | ⟨fd, rfl | rfl⟩ := hp <;> exact fun m => rfl
  refine stays_bind (clientSetRunning_phase (hmade _)) fun _ => meets_step (hmade _) fun _ _ => meets_step (hmade _) fun (x : Members) hx => ?_
  show Meets _ _ (if x.sockfd ≥ 0 then _ else _) _
  have hclose : ∀ {fd : Int}, (p = .connected fd ∨ p = .joined fd) → p.knows x →
      Meets phaseContract (fun _ p' => p' = .gone) (if x.sockfd ≥ 0 then (do
        access (.close x.sockfd); access (.store (.sockfd (-1))); unlock .lock
        access (.mutexDestroy .ioLock); access (.mutexDestroy .lock)) else (do
        unlock .lock; access (.mutexDestroy .ioLock); access (.mutexDestroy .lock))) p := by
    intro fd hfd hx
    obtain ⟨rfl, hpos⟩ : x.sockfd = fd ∧ 0 ≤ fd := by rcases hfd with rfl | rfl <;> exact hx
    have hstale : p.next (.close x.sockfd) () = .stale := by rcases hfd with rfl | rfl <;> rfl
    rw [if_pos hpos]
    refine meets_step (Or.inr hfd) fun _ _ => ?_
    show Meets _ _ _ (p.next (.close x.sockfd) ())
    rw [hstale]
    exact meets_step (Or.inr ⟨rfl, rfl⟩) fun _ _ => meets_step rfl fun _ _ =>
      meets_step (Or.inr rfl) fun _ _ => meets_step (Or.inr rfl) fun _ _ => rfl
  obtain rfl | ⟨fd, rfl | rfl⟩ := hp
  · have hnone : x.sockfd = -1 := hx
    rw [if_neg (by omega)]
    exact meets_step rfl fun _ _ => meets_step (Or.inl rfl) fun _ _ => meets_step (Or.inr rfl) fun _ _ => rfl
  · exact hclose (Or.inl rfl) hx
  · exact hclose (Or.inr rfl) hx

theorem giveUp_phase (hp : Destroyable p) : Meets phaseContract ClientPt.At giveUp p := by
  refine Meets.bind ((clientDestroy_phase hp).mono ?_)
  rintro _ _ rfl
  exact Or.inr (Or.inl rfl)

theorem clientMain_phase (args : ClientArgs) : Meets phaseContract ClientPt.At (clientMain args) .raw := by
  refine Meets.bind (clientInit_phase.mono fun rc p hp => ?_)
  split
  · rename_i hrc
    rw [if_neg hrc] at hp
    exact hp.imp id Or.inl
  rename_i hrc
  rw [if_pos (not_not.mp hrc)] at hp
  subst hp
  refine Meets.bind (clientConnect_phase.mono fun rc p hp => ?_)
  split
  · rename_i hrc
    rw [if_neg hrc] at hp
    exact giveUp_phase (Or.inl hp)
  rename_i hrc
  rw [if_pos (not_not.mp hrc)] at hp
  obtain ⟨fd, rfl⟩ := hp
  have hgive : Meets phaseContract ClientPt.At giveUp (.connected fd) := giveUp_phase (Or.inr ⟨fd, Or.inl rfl⟩)
  refine meets_step ⟨fd, rfl⟩ fun (x : Members) _ => ?_
  show Meets _ _ (if x.sockfd < 0 then _ else _) _
  split
  · exact hgive
  refine stays_bind (resolveCredentials_phase args fd) fun r => ?_
  cases r with
  | none => exact hgive
  | some q =>
    obtain ⟨username, password⟩ := q
    dsimp only
    split
    · exact hgive
    refine stays_bind (clientSendLine_phase (Or.inl rfl) _) fun rc => ?_
    split
    · exact hgive
    refine meets_step ⟨fd, rfl⟩ fun (created : Bool) _ => ?_
    cases created with
    | false => exact hgive
    | true =>
      show Meets _ _ (clientPrint _ >>= _) (ClientPhase.live fd)
      exact stays_bind (clientPrint_phase rfl _) fun _ => ⟨fd, rfl⟩

theorem leaveLoop_phase (fd : Int) : Meets phaseContract ClientPt.At leaveLoop (.live fd) := by
  have hend : Meets phaseContract ClientPt.At
      (do unlock .lock; access .join; clientDestroy; access (.printf (lit "Disconnected.\n")); return ClientPt.returned) (.live fd) := by
    refine meets_step rfl fun _ _ => meets_step ⟨fd, rfl⟩ fun _ _ => ?_
    show Meets _ _ (clientDestroy >>= _) (ClientPhase.joined fd)
    refine Meets.bind ((clientDestroy_phase (Or.inr ⟨fd, Or.inr rfl⟩)).mono ?_)
    rintro _ _ rfl
    exact meets_step (Or.inl rfl) fun _ _ => Or.inr (Or.inl rfl)
  refine meets_step rfl fun _ _ => meets_step rfl fun (x : Members) hx => ?_
  obtain ⟨rfl, -⟩ : x.sockfd = fd ∧ 0 ≤ fd := hx
  show Meets _ _ (if x.sockfd ≥ 0 then _ else _) _
  split
  · exact meets_step rfl fun _ _ => hend
  · exact hend

theorem inputTurn_phase (colors : Bool) (fd : Int) : Meets phaseContract ClientPt.At (inputTurn colors) (.live fd) := by
  have hlook : Stays (.live fd) clientIsRunning := meets_step rfl fun _ _ => meets_step rfl fun _ _ => meets_step rfl fun _ _ => rfl
  refine stays_bind hlook fun running => ?_
  split
  · refine meets_step ⟨fd, Or.inr rfl⟩ fun (r : Option Bytes) _ => ?_
    cases r with
    | none => exact leaveLoop_phase fd
    | some piece =>
      dsimp only [Prog.bind]
      have hsend := clientSendLine_phase (p := .live fd) (Or.inr rfl)
      have hstop : Meets phaseContract ClientPt.At (do clientSetRunning false; leaveLoop) (.live fd) :=
        stays_bind (clientSetRunning_phase rfl) fun _ => leaveLoop_phase fd
      split
      · exact stays_bind (hsend _) fun _ => hstop
      · exact stays_bind (hsend _) fun _ => ⟨fd, rfl⟩
      · refine stays_bind (hsend _) fun rc => ?_
        split
        · exact hstop
        · exact stays_bind (clientPrint_phase rfl _) fun _ => ⟨fd, rfl⟩
      · exact stays_bind (clientPrints_phase rfl _) fun _ => ⟨fd, rfl⟩
  · exact leaveLoop_phase fd

end

end ClientLocks

theorem code_phase (args : ClientArgs) {pt : ClientPt} {p : ClientPhase} (h : pt.At p) :
    Meets phaseContract ClientPt.At (pt.code args) p := by
  cases pt with
  | main =>
    cases h
    exact ClientLocks.clientMain_phase args
  | turn =>
    obtain ⟨fd, rfl⟩ := h
    exact ClientLocks.inputTurn_phase args.colors fd
  | receiver line =>
    cases h
    exact ClientLocks.meets_step rfl fun _ _ => Or.inl rfl
  | round line => exact ClientLocks.receiverRound_phase args.colors line h
  | returned => exact h

/-! ## What a thread relies on -/

namespace ClientPhase

def ofMain (p : ClientPhase) (s : ClientProcess) : Prop :=
  match p with
  | raw | blank | half => s.receiver = .none ∧ s.fds = [] ∧ (p ≠ raw → s.members.sockfd = -1)
  | ready => s.receiver = .none ∧ s.fds = [] ∧ s.members.sockfd = -1
  | dialing fd => s.receiver = .none ∧ s.fds = [fd] ∧ 0 ≤ fd ∧ s.members.sockfd = -1
  | connected fd => s.receiver = .none ∧ s.fds = [fd] ∧ 0 ≤ fd ∧ s.members.sockfd = fd
  | live fd => (s.receiver = .running ∨ s.receiver = .ended) ∧ s.fds = [fd] ∧ 0 ≤ fd ∧ s.members.sockfd = fd
  | joined fd => s.receiver = .joined ∧ s.fds = [fd] ∧ 0 ≤ fd ∧ s.members.sockfd = fd
  | stale | last | gone => (s.receiver = .none ∨ s.receiver = .joined) ∧ s.fds = []
  | spent => (s.receiver = .none ∨ s.receiver = .joined) ∧ s.fds = [] ∧ s.members.sockfd = -1
  | _ => False

def ofReceiver (p : ClientPhase) (s : ClientProcess) : Prop :=
  match p with
  | unborn => s.receiver = .none ∨ s.receiver = .running
  | born => s.receiver = .running
  | reading fd => s.receiver = .running ∧ s.members.sockfd = fd
  | finished => s.receiver = .ended ∨ s.receiver = .joined
  | _ => False

end ClientPhase

def ClientTid.Relies : ClientTid → ClientPhase → ClientProcess → Prop
  | .main, p, s => (∀ m, s.made m = p.made m) ∧ p.ofMain s
  | .receiver, p, s => p.ofReceiver s

/-- What the receiver uses is there as long as it runs. -/
def ClientProcess.Furnished (s : ClientProcess) : Prop :=
  s.receiver = .running → (∀ m, s.made m = true) ∧ 0 ≤ s.members.sockfd ∧ s.members.sockfd ∈ s.fds

/-- The states differ in nothing that a thread relies on. -/
structure ClientProcess.Alike (s s' : ClientProcess) : Prop where
  receiver : s'.receiver = s.receiver
  made : s'.made = s.made
  fds : s'.fds = s.fds
  sockfd : s'.members.sockfd = s.members.sockfd

/-- The access brings nothing into being and ends nothing. -/
def ClientAccess.quiet : ClientAccess → Bool
  | .init | .mutexInit _ | .mutexDestroy _ | .socket | .close _ | .create | .start | .exit | .join => false
  | .store (.sockfd _) | .poke (.sockfd _) => false
  | _ => true

section
variable {tid : ClientTid} {p : ClientPhase} {a : ClientAccess} {e : ClientEnv} {s s' : ClientProcess} {r : a.Ret}

theorem exec_alike (ha : a.quiet = true) (hx : a.exec tid e s = some (r, s')) : s.Alike s' := by
  have same : s.Alike s := ⟨rfl, rfl, rfl, rfl⟩
  cases a with
  | init | mutexInit | mutexDestroy | socket | close | create | start | exit | join => cases ha
  | store x | poke x =>
    cases x with
    | sockfd fd => cases ha
    | _ => cases hx; exact ⟨rfl, rfl, rfl, rfl⟩
  | fgets n =>
    simp only [ClientAccess.exec] at hx
    split at hx
    · cases hx; exact same
    · cases hx; exact ⟨rfl, rfl, rfl, rfl⟩
  | _ => cases hx; exact same

theorem ClientProcess.Alike.ofMain (h : s.Alike s') (hp : p.ofMain s) : p.ofMain s' := by
  unfold ClientPhase.ofMain at hp ⊢
  rwa [h.receiver, h.fds, h.sockfd]

theorem ClientProcess.Alike.ofReceiver (h : s.Alike s') (hp : p.ofReceiver s) : p.ofReceiver s' := by
  unfold ClientPhase.ofReceiver at hp ⊢
  rwa [h.receiver, h.sockfd]

theorem ClientProcess.Alike.furnished (h : s.Alike s') (hs : s.Furnished) : s'.Furnished := by
  unfold ClientProcess.Furnished at hs ⊢
  rwa [h.receiver, h.made, h.fds, h.sockfd]

theorem furnished_of_main (hG : ClientTid.main.Relies p s) : s.Furnished := by
  intro hrun
  obtain ⟨hmade, hp⟩ := hG
  cases p with
  | live fd =>
    obtain ⟨-, hfds, hpos, hfd⟩ := hp
    exact ⟨hmade, hfd ▸ hpos, by rw [hfds, hfd]; exact List.mem_singleton_self fd⟩
  | unborn | born | reading | finished => cases hp
  | stale | spent | last | gone =>
    rcases hp.1 with h | h <;> exact absurd (hrun.symm.trans h) nofun
  | _ => exact absurd (hrun.symm.trans hp.1) nofun

theorem quiet_next (hp : p.ofMain s) (ha : a.quiet = true) (r : a.Ret) : p.next a r = p := by
  cases a with
  | load =>
    cases p with
    | born => cases hp
    | _ => rfl
  | store x =>
    cases x with
    | sockfd fd => cases ha
    | _ => rfl
  | init | mutexInit | mutexDestroy | socket | close | create | start | exit | join => cases ha
  | _ => rfl

/-- What `main` does, it keeps track of. -/
theorem main_own (ha : p.allows a) (hG : ClientTid.main.Relies p s) (hx : a.exec .main e s = some (r, s')) :
    ClientTid.main.Relies (p.next a r) s' := by
  by_cases hquiet : a.quiet = true
  · have halike := exec_alike hquiet hx
    rw [quiet_next hG.2 hquiet]
    exact ⟨by rw [halike.made]; exact hG.1, halike.ofMain hG.2⟩
  obtain ⟨hmade, hp⟩ := hG
  cases a with
  | init =>
    obtain rfl : p = .raw := ha
    cases hx
    exact ⟨hmade, hp.1, hp.2.1, fun _ => rfl⟩
  | mutexInit m =>
    cases hx
    change (∀ m', (if e.ok = true then { s with made := Function.update s.made m true } else s).made m' = _) ∧ _
    cases hok : e.ok with
    | false => exact ⟨hmade, hp⟩
    | true =>
      cases m with
      | lock =>
        obtain rfl : p = .blank := ha
        refine ⟨fun m => ?_, hp.1, hp.2.1, fun _ => hp.2.2 nofun⟩
        cases m with
        | lock => rfl
        | ioLock => exact hmade .ioLock
      | ioLock =>
        obtain rfl : p = .half := ha
        refine ⟨fun m => ?_, hp.1, hp.2.1, hp.2.2 nofun⟩
        cases m with
        | lock => exact hmade .lock
        | ioLock => rfl
  | mutexDestroy m =>
    cases hx
    cases m with
    | lock =>
      have hio : s.made .ioLock = false := by
        rw [hmade]
        rcases ha with rfl | rfl <;> rfl
      refine ⟨fun m => ?_, ?_⟩
      · cases m with
        | lock => rfl
        | ioLock => exact hio
      · rcases ha with rfl | rfl
        · exact ⟨Or.inl hp.1, hp.2.1⟩
        · exact hp
    | ioLock =>
      have hlock : s.made .lock = true := by
        rw [hmade]
        rcases ha with rfl | rfl <;> rfl
      refine ⟨fun m => ?_, ?_⟩
      · cases m with
        | lock => exact hlock
        | ioLock => rfl
      · rcases ha with rfl | rfl
        · exact ⟨Or.inl hp.1, hp.2.1⟩
        · exact ⟨hp.1, hp.2.1⟩
  | socket =>
    obtain rfl : p = .ready := ha
    simp only [ClientAccess.exec] at hx
    cases hfd : e.fd with
    | none =>
      rw [hfd] at hx
      cases hx
      exact ⟨hmade, hp⟩
    | some fd =>
      rw [hfd] at hx
      simp only at hx
      split at hx
      · cases hx
      · rename_i hnew
        cases hx
        rw [not_or] at hnew
        obtain ⟨hnone, hfds, hsock⟩ := hp
        exact ⟨hmade, hnone, congrArg (fd :: ·) hfds, Int.not_lt.mp hnew.1, hsock⟩
  | close fd =>
    cases hx
    have hgone : ∀ {l : List Int}, l = [fd] → l.erase fd = [] := by
      rintro _ rfl
      exact List.erase_cons_head ..
    rcases ha with rfl | rfl | rfl
    · exact ⟨hmade, hp.1, hgone hp.2.1, hp.2.2.2⟩
    · exact ⟨hmade, Or.inl hp.1, hgone hp.2.1⟩
    · exact ⟨hmade, Or.inr hp.1, hgone hp.2.1⟩
  | store x =>
    cases x with
    | sockfd fd =>
      cases hx
      rcases ha with rfl | ⟨rfl, rfl⟩
      · exact ⟨hmade, hp.1, hp.2.1, hp.2.2.1, rfl⟩
      · exact ⟨hmade, hp.1, hp.2, rfl⟩
    | _ => exact absurd rfl hquiet
  | poke x =>
    cases x with
    | sockfd fd => cases ha
    | _ => exact absurd rfl hquiet
  | create =>
    obtain ⟨fd, rfl⟩ := ha
    cases hx
    change (∀ m, (if e.ok = true then { s with receiver := .running } else s).made m = _) ∧ _
    cases hok : e.ok with
    | false => exact ⟨hmade, hp⟩
    | true => exact ⟨hmade, Or.inl rfl, hp.2⟩
  | start =>
    obtain rfl : p = .unborn := ha
    cases hp
  | exit =>
    obtain ⟨fd, rfl⟩ := ha
    cases hp
  | join =>
    obtain ⟨fd, rfl⟩ := ha
    simp only [ClientAccess.exec] at hx
    split at hx
    · cases hx
      exact ⟨hmade, rfl, hp.2⟩
    · cases hx
  | _ => exact absurd rfl hquiet

theorem live_of_running (hG : ClientTid.main.Relies p s) (hrun : s.receiver = .running) : ∃ fd, p = .live fd := by
  obtain ⟨-, hp⟩ := hG
  cases p with
  | live fd => exact ⟨fd, rfl⟩
  | unborn | born | reading | finished => cases hp
  | stale | spent | last | gone =>
    rcases hp.1 with h | h <;> exact absurd (hrun.symm.trans h) nofun
  | _ => exact absurd (hrun.symm.trans hp.1) nofun

theorem receiver_own (ha : p.allows a) (hs : s.Furnished) (hp : p.ofReceiver s) (hx : a.exec .receiver e s = some (r, s')) :
    s'.Furnished ∧ (p.next a r).ofReceiver s' := by
  cases a with
  | load =>
    cases hx
    refine ⟨hs, ?_⟩
    cases p with
    | born => exact ⟨hp, rfl⟩
    | _ => exact hp
  | start =>
    obtain rfl : p = .unborn := ha
    simp only [ClientAccess.exec] at hx
    split at hx
    · rename_i hrun
      cases hx
      exact ⟨hs, hrun⟩
    · cases hx
  | exit =>
    obtain ⟨fd, rfl⟩ := ha
    cases hx
    exact ⟨nofun, Or.inl rfl⟩
  | store x =>
    cases x with
    | sockfd fd => rcases ha with rfl | ⟨rfl, -⟩ <;> cases hp
    | _ =>
      have halike := exec_alike rfl hx
      exact ⟨halike.furnished hs, halike.ofReceiver hp⟩
  | poke x =>
    cases x with
    | username src =>
      obtain ⟨fd, rfl⟩ := ha
      cases hp
    | _ => cases ha
  -- what only `main` does
  | init | socket =>
    cases ha
    cases hp
  | mutexInit m => cases m <;> cases ha <;> cases hp
  | mutexDestroy m => cases m <;> rcases ha with rfl | rfl <;> cases hp
  | close fd => rcases ha with rfl | rfl | rfl <;> cases hp
  | create | join =>
    obtain ⟨fd, rfl⟩ := ha
    cases hp
  | _ =>
    have halike := exec_alike rfl hx
    exact ⟨halike.furnished hs, halike.ofReceiver hp⟩

/-- What the receiver does is nothing to `main`, but for its end. -/
theorem main_frame {q : ClientPhase} (ha : p.allows a) (hp : p.ofReceiver s) (hx : a.exec .receiver e s = some (r, s'))
    (hG : ClientTid.main.Relies q s) : ClientTid.main.Relies q s' := by
  have quiet : a.quiet = true → ClientTid.main.Relies q s' := by
    intro h
    have halike := exec_alike h hx
    exact ⟨by rw [halike.made]; exact hG.1, halike.ofMain hG.2⟩
  cases a with
  | start =>
    simp only [ClientAccess.exec] at hx
    split at hx
    · cases hx
      exact hG
    · cases hx
  | exit =>
    obtain ⟨fd, rfl⟩ := ha
    cases hx
    obtain ⟨fd', rfl⟩ := live_of_running hG hp.1
    exact ⟨hG.1, Or.inr rfl, hG.2.2⟩
  | store x =>
    cases x with
    | sockfd fd => rcases ha with rfl | ⟨rfl, -⟩ <;> cases hp
    | _ => exact quiet rfl
  | poke x =>
    cases x with
    | sockfd => cases ha
    | _ => exact quiet rfl
  | init | socket =>
    cases ha
    cases hp
  | mutexInit m => cases m <;> cases ha <;> cases hp
  | mutexDestroy m => cases m <;> rcases ha with rfl | rfl <;> cases hp
  | close fd => rcases ha with rfl | rfl | rfl <;> cases hp
  | create | join =>
    obtain ⟨fd, rfl⟩ := ha
    cases hp
  | _ => exact quiet rfl

/-- `main` starts the receiver and joins it, each once and in its time. -/
theorem receiver_change (ha : p.allows a) (hG : ClientTid.main.Relies p s) (hx : a.exec .main e s = some (r, s')) :
    s.Alike s' ∧ s.receiver = .running ∨ s.receiver ≠ .running ∧
      (s'.receiver = s.receiver ∨ s.receiver = .none ∧ s'.receiver = .running ∨ s.receiver = .ended ∧ s'.receiver = .joined) := by
  have idle : (∀ fd, p ≠ .live fd) → s.receiver ≠ .running := fun h hrun => (live_of_running hG hrun).elim h
  by_cases hquiet : a.quiet = true
  · have halike := exec_alike hquiet hx
    by_cases hrun : s.receiver = .running
    · exact Or.inl ⟨halike, hrun⟩
    · exact Or.inr ⟨hrun, Or.inl halike.receiver⟩
  right
  cases a with
  | init =>
    obtain rfl : p = .raw := ha
    cases hx
    exact ⟨idle nofun, Or.inl rfl⟩
  | mutexInit m =>
    have hp : ∀ fd, p ≠ .live fd := by cases m <;> cases ha <;> exact nofun
    cases hx
    refine ⟨idle hp, Or.inl ?_⟩
    show (if e.ok = true then { s with made := Function.update s.made m true } else s).receiver = s.receiver
    split <;> rfl
  | mutexDestroy m =>
    have hp : ∀ fd, p ≠ .live fd := by cases m <;> rcases ha with rfl | rfl <;> exact nofun
    cases hx
    exact ⟨idle hp, Or.inl rfl⟩
  | socket =>
    obtain rfl : p = .ready := ha
    simp only [ClientAccess.exec] at hx
    split at hx
    · cases hx
      exact ⟨idle nofun, Or.inl rfl⟩
    · split at hx
      · cases hx
      · cases hx
        exact ⟨idle nofun, Or.inl rfl⟩
  | close fd =>
    have hp : ∀ fd', p ≠ .live fd' := by rcases ha with rfl | rfl | rfl <;> exact nofun
    cases hx
    exact ⟨idle hp, Or.inl rfl⟩
  | store x =>
    cases x with
    | sockfd fd =>
      have hp : ∀ fd', p ≠ .live fd' := by rcases ha with rfl | ⟨rfl, -⟩ <;> exact nofun
      cases hx
      exact ⟨idle hp, Or.inl rfl⟩
    | _ => exact absurd rfl hquiet
  | poke x =>
    cases x with
    | sockfd fd => cases ha
    | _ => exact absurd rfl hquiet
  | create =>
    obtain ⟨fd, rfl⟩ := ha
    cases hx
    refine ⟨idle nofun, ?_⟩
    split
    · exact Or.inr (Or.inl ⟨hG.2.1, rfl⟩)
    · exact Or.inl rfl
  | start =>
    obtain rfl : p = .unborn := ha
    cases hG.2
  | exit =>
    obtain ⟨fd, rfl⟩ := ha
    cases hG.2
  | join =>
    simp only [ClientAccess.exec] at hx
    split at hx
    · rename_i hended
      cases hx
      exact ⟨by rw [hended]; nofun, Or.inr (Or.inr ⟨hended, rfl⟩)⟩
    · cases hx
  | _ => exact absurd rfl hquiet

/-- As long as the receiver runs, `main` takes nothing away from it. -/
theorem receiver_frame {q : ClientPhase} (ha : p.allows a) (hG : ClientTid.main.Relies p s) (hx : a.exec .main e s = some (r, s'))
    (hq : q.ofReceiver s) : q.ofReceiver s' := by
  obtain ⟨halike, -⟩ | ⟨hidle, hstate⟩ := receiver_change ha hG hx
  · exact halike.ofReceiver hq
  cases q with
  | unborn =>
    have hnone : s.receiver = .none := hq.resolve_right hidle
    rcases hstate with h | ⟨-, h⟩ | ⟨h, -⟩
    · exact Or.inl (h.trans hnone)
    · exact Or.inr h
    · exact absurd (hnone.symm.trans h) nofun
  | born => exact absurd hq hidle
  | reading fd => exact absurd hq.1 hidle
  | finished =>
    rcases hstate with h | ⟨h, -⟩ | ⟨-, h⟩
    · show s'.receiver = .ended ∨ s'.receiver = .joined
      rwa [h]
    · rcases hq with hq | hq <;> exact absurd (hq.symm.trans h) nofun
    · exact Or.inr h
  | _ => cases hq

end

/-! ## Every run -/

def ClientTid.phase : ClientTid → ClientPhase
  | .main => .raw
  | .receiver => .unborn

section
variable {args : ClientArgs} {ok : ClientEnv → Prop} {members : Members} {stdin line : Bytes} {c : ClientSystem}
variable {tr : List (Label ClientTid (@Op.Ret ClientMutex ClientAccess ClientAccess.Ret))}

theorem settle_phase : ∀ {t : ClientCode ClientPt} {p : ClientPhase}, Meets phaseContract ClientPt.At t p →
    Meets phaseContract ClientPt.At (settle (ClientPt.code args) t) p
  | .ret _, _, h => code_phase args h
  | .act _ _, _, h => h

/-- A lock that is taken or given back changes no data. -/
theorem exec_data {tid : ClientTid} {o : Op ClientMutex ClientAccess} {e : ClientEnv} {s s' : Shared ClientTid ClientMutex ClientProcess}
    {r : o.Ret ClientAccess.Ret} (hx : Mutexes.exec ClientAccess.exec tid o e s = some (r, s')) (ho : ∀ a, o ≠ .act a) :
    s'.data = s.data := by
  have taken : ∀ {m : ClientMutex}, take s m tid = some ((), s') → s'.data = s.data := by
    intro m ht
    unfold take at ht
    split at ht
    · cases ht
      rfl
    · cases ht
  cases o with
  | lock m | wake m => exact taken hx
  | unlock m | sleep m =>
    cases hx
    rfl
  | act a => exact absurd rfl (ho a)

theorem exec_access {tid : ClientTid} {a : ClientAccess} {e : ClientEnv} {s s' : Shared ClientTid ClientMutex ClientProcess} {r : a.Ret}
    (hx : Mutexes.exec ClientAccess.exec tid (.act a) e s = some (r, s')) : a.exec tid e s.data = some (r, s'.data) := by
  obtain ⟨q, hq, he⟩ := Option.map_eq_some_iff.mp hx
  cases he
  exact hq

theorem tells_of_relies {tid : ClientTid} {p : ClientPhase} {a : ClientAccess} {e : ClientEnv} {s s' : ClientProcess} {r : a.Ret}
    (ha : p.allows a) (hs : s.Furnished) (hG : tid.Relies p s) (hx : a.exec tid e s = some (r, s')) : p.tells (.act a) r := by
  have hknows : p.knows s.members := by
    cases tid with
    | main =>
      obtain ⟨-, hp⟩ := hG
      cases p with
      | ready => exact hp.2.2
      | spent => exact hp.2.2
      | connected fd | live fd | joined fd => exact ⟨hp.2.2.2, hp.2.2.1⟩
      | reading fd => cases hp
      | _ => trivial
    | receiver =>
      cases p with
      | reading fd =>
        obtain ⟨hrun, hfd⟩ : s.receiver = .running ∧ s.members.sockfd = fd := hG
        exact ⟨hfd, hfd ▸ (hs hrun).2.1⟩
      | ready | spent | connected | live | joined => cases hG
      | _ => trivial
  cases a with
  | load | peek =>
    cases hx
    exact hknows
  | _ => trivial

/-- One step keeps what is shared, what the thread relies on, and what the other one relies on. -/
theorem client_step {tid : ClientTid} {p : ClientPhase} {a : ClientAccess} {e : ClientEnv} {s s' : ClientProcess} {r : a.Ret}
    (ha : p.allows a) (hs : s.Furnished) (hG : tid.Relies p s) (hx : a.exec tid e s = some (r, s')) :
    s'.Furnished ∧ tid.Relies (p.next a r) s' ∧ ∀ tid' q, tid' ≠ tid → tid'.Relies q s → tid'.Relies q s' := by
  cases tid with
  | main =>
    have hown := main_own ha hG hx
    refine ⟨furnished_of_main hown, hown, fun tid' q hne hq => ?_⟩
    cases tid' with
    | main => exact absurd rfl hne
    | receiver => exact receiver_frame ha hG hx hq
  | receiver =>
    obtain ⟨hs', hown⟩ := receiver_own ha hs hG hx
    refine ⟨hs', hown, fun tid' q hne hq => ?_⟩
    cases tid' with
    | main => exact main_frame ha hG hx hq
    | receiver => exact absurd rfl hne

theorem client_watch : Watch (Mutexes.next (ClientPt.code args)) (Mutexes.exec ClientAccess.exec) ok ClientPhase.after
    (fun s : Shared ClientTid ClientMutex ClientProcess => s.data.Furnished) (fun _ p t => Meets phaseContract ClientPt.At t p)
    (fun tid p s => tid.Relies p s.data) where
  own := by
    intro tid p t s o k e r s' hs hG hat hn _ hx
    cases t with
    | ret pt => cases hn
    | act o k' =>
      cases hn
      obtain ⟨hpermits, hgo⟩ := hat
      cases o with
      | act a =>
        have hxa := exec_access hx
        obtain ⟨hs', hG', -⟩ := client_step hpermits hs hG hxa
        exact ⟨hs', hG', settle_phase (hgo r _ ⟨tells_of_relies hpermits hs hG hxa, rfl⟩)⟩
      | _ =>
        rw [exec_data hx nofun]
        exact ⟨hs, hG, settle_phase (hgo r _ ⟨trivial, rfl⟩)⟩
  frame := by
    intro tid tid' p q t s o k e r s' hs hG hat hn _ hx hne hq
    cases t with
    | ret pt => cases hn
    | act o k' =>
      cases hn
      cases o with
      | act a => exact (client_step hat.1 hs hG (exec_access hx)).2.2 tid' q hne hq
      | _ => rwa [exec_data hx nofun]

theorem client_watched (hr : Run (ClientSystem.Step args ok) (.init args members stdin line) tr c) :
    Watched (fun s : Shared ClientTid ClientMutex ClientProcess => s.data.Furnished) (fun _ p t => Meets phaseContract ClientPt.At t p)
      (fun tid p s => tid.Relies p s.data) (fun tid => monitor ClientPhase.after tid tid.phase tr) c := by
  refine client_watch.run ⟨fun hrun => ?_, fun tid => ?_, fun tid => ?_⟩ hr
  · cases hrun
  · cases tid with
    | main => exact code_phase args (show ClientPt.At .main .raw from rfl)
    | receiver => exact code_phase args (show ClientPt.At (.receiver line) .unborn from rfl)
  · cases tid with
    | main => exact ⟨fun _ => rfl, rfl, rfl, fun h => absurd rfl h⟩
    | receiver => exact Or.inl rfl

end

end ChatServer

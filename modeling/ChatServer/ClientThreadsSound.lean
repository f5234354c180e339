import ChatServer.ClientThreads

/-!
# The two threads of the client

Whatever is typed, received and scheduled: no thread uses a socket that is
closed or a mutex that does not exist, each member is touched under its lock
or by the only thread there is, the receiver is joined before anything it uses
is gone, and when `main` returns everything is released. The threads do not
block each other.
-/

namespace ChatServer

open CStr Interleave Prog Mutexes

/-! ## One lock at a time -/

abbrev clientContract : Contract (@Op.Ret ClientMutex ClientAccess ClientAccess.Ret) (Option ClientMutex) :=
  Mutexes.contract ClientAccess.May

/-- Started without a lock, the code takes one at a time and ends without. -/
def Unburdened {α : Type} (p : ClientCode α) : Prop := Meets clientContract (fun _ v => v = none) p none

namespace ClientLocks

section
variable {α β : Type} {Q : α → Option ClientMutex → Prop}

theorem unburdened_bind {p : ClientCode β} {f : β → ClientCode α} (hp : Unburdened p) (hf : ∀ x, Meets clientContract Q (f x) none) :
    Meets clientContract Q (p >>= f) none := by
  refine Meets.bind (hp.mono fun x v hv => ?_)
  subst hv
  exact hf x

theorem assign_unburdened (x : Assign) : Unburdened (assign x) := meets_lock (meets_plain rfl fun _ => meets_unlock rfl)

theorem look_unburdened (f : Members → α) : Unburdened (look f) := meets_lock (meets_plain rfl fun _ => meets_unlock rfl)

theorem clientPrint_unburdened (text : Bytes) : Unburdened (clientPrint text) :=
  meets_lock (meets_plain rfl fun _ => meets_unlock rfl)

theorem clientPrints_unburdened : ∀ texts, Unburdened (clientPrints texts)
  | [] => rfl
  | text :: texts => unburdened_bind (clientPrint_unburdened text) fun _ => clientPrints_unburdened texts

/-- The lock is held from the first byte to the last. -/
theorem sendLoop_keeps (fd : Int) (buf : Bytes) : ∀ fuel sent,
    Meets clientContract (fun _ v => v = some .lock) (sendLoop fd buf fuel sent) (some .lock)
  | 0, _ => rfl
  | fuel + 1, sent => by
    unfold sendLoop
    split
    · exact rfl
    refine meets_plain rfl fun (r : Option Nat) => ?_
    cases r with
    | none => exact rfl
    | some n =>
      cases n with
      | zero => exact rfl
      | succ n => exact sendLoop_keeps fd buf fuel (sent + (n + 1))

theorem clientSendLine_unburdened (line : Bytes) : Unburdened (clientSendLine line) := by
  refine meets_lock (meets_plain rfl fun (x : Members) => ?_)
  show Meets _ _ (if x.sockfd < 0 ∨ x.cli.running = false then _ else _) _
  split
  · exact meets_unlock rfl
  · refine Meets.bind ((sendLoop_keeps x.sockfd line line.length 0).mono fun rc v hv => ?_)
    subst hv
    exact meets_unlock rfl

theorem recvLoop_unburdened (fd : Int) : ∀ n pos buf, Unburdened (recvLoop fd n pos buf)
  | 0, _, _ => rfl
  | n + 1, pos, buf => by
    refine meets_plain rfl fun (r : Incoming) => ?_
    cases r with
    | byte c =>
      show Meets _ _ (if c = lf then _ else _) _
      split
      · exact rfl
      · exact recvLoop_unburdened fd n (pos + 1) (buf.set pos c)
    | eof | error => exact rfl

theorem clientRecvLine_unburdened (buf : Bytes) (buflen : Nat) : Unburdened (clientRecvLine buf buflen) := by
  refine unburdened_bind (look_unburdened _) fun fd => ?_
  split
  · exact rfl
  · exact recvLoop_unburdened fd _ _ _

theorem displayServerMessage_unburdened (colors : Bool) (resp : ParsedResp) : Unburdened (displayServerMessage colors resp) := by
  have hprints := clientPrints_unburdened (displayTexts colors resp)
  unfold displayServerMessage
  cases resp.type with
  | welcome | roomJoined => exact unburdened_bind (assign_unburdened _) fun _ => hprints
  | kicked => exact unburdened_bind hprints fun _ => assign_unburdened _
  | _ => exact hprints

theorem leaveThread_unburdened : Unburdened leaveThread := meets_plain rfl fun _ => rfl

theorem receiverRound_unburdened (colors : Bool) (line : Bytes) : Unburdened (receiverRound colors line) := by
  refine unburdened_bind (look_unburdened _) fun running => ?_
  split
  · refine unburdened_bind (clientRecvLine_unburdened line maxLineLen) fun r => ?_
    obtain ⟨rc, line'⟩ := r
    have hend : Unburdened (do clientPrint (disconnectedText colors); clientSetRunning false; leaveThread) :=
      unburdened_bind (clientPrint_unburdened _) fun _ => unburdened_bind (assign_unburdened _) fun _ => leaveThread_unburdened
    cases rc with
    | ok =>
      dsimp only
      split
      · exact unburdened_bind (displayServerMessage_unburdened colors _) fun _ => rfl
      · exact unburdened_bind (clientPrint_unburdened _) fun _ => rfl
    | _ => exact hend
  · exact leaveThread_unburdened

theorem clientInit_unburdened : Unburdened clientInit := by
  refine meets_plain rfl fun _ => meets_plain rfl fun (made : Bool) => ?_
  cases made with
  | false => exact rfl
  | true =>
    refine meets_plain rfl fun (made : Bool) => ?_
    cases made with
    | false => exact meets_plain rfl fun _ => rfl
    | true => exact rfl

theorem dial_unburdened : ∀ n, Unburdened (dial n)
  | 0 => rfl
  | n + 1 => by
    refine meets_plain rfl fun (r : Option Int) => ?_
    cases r with
    | none => exact dial_unburdened n
    | some fd =>
      refine meets_plain rfl fun (connected : Bool) => ?_
      cases connected with
      | true => exact rfl
      | false => exact meets_plain (Or.inr rfl) fun _ => dial_unburdened n

theorem clientConnect_unburdened : Unburdened clientConnect := by
  refine meets_plain rfl fun (r : Option Nat) => ?_
  cases r with
  | none => exact rfl
  | some n =>
    show Meets _ _ (dial n >>= _) _
    refine unburdened_bind (dial_unburdened n) fun r => ?_
    cases r with
    | none => exact rfl
    | some fd => exact unburdened_bind (assign_unburdened _) fun _ => rfl

theorem credential_unburdened (question : Bytes) (override : Option Bytes) (len : Nat) : Unburdened (credential question override len) := by
  unfold credential
  split
  · exact rfl
  refine meets_plain rfl fun _ => meets_plain rfl fun (r : Option Bytes) => ?_
  cases r <;> exact rfl

theorem resolveCredentials_unburdened (args : ClientArgs) : Unburdened (resolveCredentials args) := by
  refine unburdened_bind (credential_unburdened _ _ _) fun r => ?_
  cases r with
  | none => exact rfl
  | some username =>
    refine meets_plain rfl fun _ => ?_
    show Meets _ _ (credential _ _ _ >>= _) _
    refine unburdened_bind (credential_unburdened _ _ _) fun r => ?_
    cases r <;> exact rfl

theorem clientDestroy_unburdened : Unburdened clientDestroy := by
  have hend : Meets clientContract (fun _ v => v = none)
      (do unlock .lock; access (.mutexDestroy .ioLock); access (.mutexDestroy .lock)) (some .lock) :=
    meets_unlock (meets_plain rfl fun _ => meets_plain rfl fun _ => rfl)
  refine unburdened_bind (assign_unburdened _) fun _ => meets_lock (meets_plain rfl fun (x : Members) => ?_)
  show Meets _ _ (if x.sockfd ≥ 0 then _ else _) _
  split
  · exact meets_plain (Or.inl rfl) fun _ => meets_plain rfl fun _ => hend
  · exact hend

theorem giveUp_unburdened : Unburdened giveUp := unburdened_bind clientDestroy_unburdened fun _ => rfl

theorem clientMain_unburdened (args : ClientArgs) : Unburdened (clientMain args) := by
  refine unburdened_bind clientInit_unburdened fun rc => ?_
  split
  · exact rfl
  refine unburdened_bind clientConnect_unburdened fun rc => ?_
  split
  · exact giveUp_unburdened
  refine meets_plain rfl fun (x : Members) => ?_
  show Meets _ _ (if x.sockfd < 0 then _ else _) _
  split
  · exact giveUp_unburdened
  refine unburdened_bind (resolveCredentials_unburdened args) fun r => ?_
  cases r with
  | none => exact giveUp_unburdened
  | some p =>
    obtain ⟨username, password⟩ := p
    dsimp only
    split
    · exact giveUp_unburdened
    refine unburdened_bind (clientSendLine_unburdened _) fun rc => ?_
    split
    · exact giveUp_unburdened
    refine meets_plain rfl fun (created : Bool) => ?_
    cases created with
    | false => exact giveUp_unburdened
    | true =>
      show Meets _ _ (clientPrint _ >>= _) _
      exact unburdened_bind (clientPrint_unburdened _) fun _ => rfl

theorem leaveLoop_unburdened : Unburdened leaveLoop := by
  have hend : Meets clientContract (fun _ v => v = none)
      (do unlock .lock; access .join; clientDestroy; access (.printf (lit "Disconnected.\n")); return ClientPt.returned) (some .lock) := by
    refine meets_unlock (meets_plain rfl fun _ => ?_)
    show Meets _ _ (clientDestroy >>= _) _
    exact unburdened_bind clientDestroy_unburdened fun _ => meets_plain rfl fun _ => rfl
  refine meets_lock (meets_plain rfl fun (x : Members) => ?_)
  show Meets _ _ (if x.sockfd ≥ 0 then _ else _) _
  split
  · exact meets_plain rfl fun _ => hend
  · exact hend

theorem inputTurn_unburdened (colors : Bool) : Unburdened (inputTurn colors) := by
  refine unburdened_bind (look_unburdened _) fun running => ?_
  split
  · refine meets_plain rfl fun (r : Option Bytes) => ?_
    cases r with
    | none => exact leaveLoop_unburdened
    | some piece =>
      dsimp only [Prog.bind]
      split
      · exact unburdened_bind (clientSendLine_unburdened _) fun _ => unburdened_bind (assign_unburdened _) fun _ => leaveLoop_unburdened
      · exact unburdened_bind (clientSendLine_unburdened _) fun _ => rfl
      · refine unburdened_bind (clientSendLine_unburdened _) fun rc => ?_
        split
        · exact unburdened_bind (assign_unburdened _) fun _ => leaveLoop_unburdened
        · exact unburdened_bind (clientPrint_unburdened _) fun _ => rfl
      · exact unburdened_bind (clientPrints_unburdened _) fun _ => rfl
  · exact leaveLoop_unburdened

end

end ClientLocks

/-- No thread holds a mutex between its programs. -/
theorem client_kept (args : ClientArgs) : Chart ClientAccess.May (ClientPt.code args) fun _ v => v = none where
  meets p v hv := by
    subst hv
    cases p with
    | main => exact ClientLocks.clientMain_unburdened args
    | turn => exact ClientLocks.inputTurn_unburdened args.colors
    | receiver line => exact meets_plain rfl fun _ => rfl
    | round line => exact ClientLocks.receiverRound_unburdened args.colors line
    | returned => rfl
  goes _ _ hm := by cases hm

end ChatServer

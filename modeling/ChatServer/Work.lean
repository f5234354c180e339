import ChatServer.Teardown

/-!
# How much work a line makes

No command goes on forever: a handler issues a bounded number of actions for
each line it reads. So `server_shutdown` takes hold soon. Once the flag is
down, a handler reads at most the line it already waits for, the accept loop
accepts at most the connection it already waits for, and all of them come to
their end.
-/

namespace ChatServer

open CStr Interleave Prog

/-! ## Commands -/

/-- The calls that wait for a peer. -/
def Act.waits : Act → Nat
  | .recvLine _ | .accept => 1
  | _ => 0

abbrev Writing (a : Act) : Prop := a.waits = 0

section
variable {α : Type} {fd : Int}

theorem act_within {a : Act} {k : a.Ret → Cmd α} {n : Nat} (ha : a.waits = 0) (hk : ∀ r, (k r).Within Writing n) :
    (op a >>= k).Within Writing (n + 1) := within_act ha hk

theorem sendLoop_within {buf : Bytes} : ∀ fuel sent, (sendLoop fd buf fuel sent).Within Writing fuel
  | 0, _ => trivial
  | fuel + 1, sent => by
    unfold sendLoop
    split
    · exact within_ret _
    refine act_within rfl fun (r : Option Nat) => ?_
    cases r with
    | none => exact within_ret _
    | some n =>
      cases n with
      | zero => exact within_ret _
      | succ n => exact sendLoop_within fuel (sent + (n + 1))

theorem buildLine_length_le (n : Nat) (text : Bytes) : (buildLine n text).2.length ≤ n := by
  show (text.take (n - 1)).length ≤ n
  rw [List.length_take]
  omega

theorem reply_within (text : Bytes) : (cmdSendResponse fd (buildLine maxLineLen text).2).Within Writing maxLineLen :=
  (sendLoop_within _ 0).mono (buildLine_length_le _ _)

theorem respondErr_within (msg : String) : (respondErr fd msg).Within Writing maxLineLen := reply_within _

theorem respondOk_within (msg : String) : (respondOk fd msg).Within Writing maxLineLen := reply_within _

theorem history_within (room : Bytes) : (roomHistorySendToClient room fd cmdSendResponse).Within Writing (maxLineLen + 1) := by
  unfold roomHistorySendToClient
  refine act_within rfl fun r => ?_
  obtain ⟨rc, payload⟩ := r
  show Within Writing maxLineLen (if rc ≠ .ok then pure ChatStatus.err else if (protocolBuildServerHistory maxLineLen payload).1 ≠ .ok then
    pure ChatStatus.err else cmdSendResponse fd (protocolBuildServerHistory maxLineLen payload).2)
  split
  · exact within_ret _
  split
  · exact within_ret _
  · exact reply_within _

theorem event_within (type : MqEventType) (username room : Bytes) : (enqueueRoomEvent type username room).Within Writing 3 :=
  act_within rfl fun _ => act_within rfl fun _ => ⟨rfl, fun _ => within_ret _⟩

/-- What a command may cost; none sends as many as five lines. -/
def commandWork : Nat := 5 * maxLineLen

theorem refuse_within {n : Nat} (h : maxLineLen ≤ n) (msg : String) : (respondErr fd msg).Within Writing n := (respondErr_within msg).mono h

theorem cmdHandleAuth_within (username password : Bytes) : (cmdHandleAuth fd username password).Within Writing commandWork := by
  have hrefuse : ∀ {n : Nat} (msg : String) (rc : ChatStatus), maxLineLen ≤ n → (respondErr fd msg >>= fun _ => pure rc).Within Writing n :=
    fun msg _ hn => Within.mono hn (Within.bind (n := 0) (fun _ => within_ret _) (respondErr_within msg))
  suffices h : (cmdHandleAuth fd username password).Within Writing
      (maxLineLen + (maxLineLen + (maxLineLen + 1 + (maxLineLen + (3 + 0)))) + 1 + 1 + 1 + 1) from h.mono (by decide)
  unfold cmdHandleAuth
  split
  · exact hrefuse _ _ (by omega)
  refine act_within rfl fun rc => ?_
  split
  · exact hrefuse _ _ (by omega)
  refine act_within rfl fun online => ?_
  split
  · exact hrefuse _ _ (by omega)
  refine act_within rfl fun admin => act_within rfl fun rc => ?_
  split
  · exact hrefuse _ _ (by omega)
  refine Within.bind (fun rc => ?_) (reply_within _)
  split
  · exact Within.mono (m := 1) (by omega) (act_within rfl fun _ => within_ret _)
  refine Within.bind (fun _ => ?_) (reply_within _)
  refine Within.bind (fun _ => ?_) (history_within _)
  refine Within.bind (fun _ => ?_) (respondOk_within _)
  exact Within.bind (fun _ => within_ret _) (event_within _ _ _)

theorem cmdHandleJoinRoom_within (room : Bytes) : (cmdHandleJoinRoom fd room).Within Writing commandWork := by
  suffices h : (cmdHandleJoinRoom fd room).Within Writing
      (3 + (maxLineLen + (maxLineLen + 1 + (3 + maxLineLen)) + 1) + 1 + 1) from h.mono (by decide)
  unfold cmdHandleJoinRoom
  split
  · exact refuse_within (by omega) _
  refine act_within rfl fun r => ?_
  obtain ⟨rc, username⟩ := r
  show Within Writing _ (if rc ≠ .ok then _ else _)
  split
  · exact refuse_within (by omega) _
  refine act_within rfl fun r => ?_
  obtain ⟨rc, oldRoom⟩ := r
  show Within Writing _ (if rc ≠ .ok then _ else _)
  split
  · exact within_ret _
  split
  · exact refuse_within (by omega) _
  refine Within.bind (fun _ => act_within rfl fun _ => ?_) (event_within _ _ _)
  refine Within.bind (fun _ => ?_) (reply_within _)
  refine Within.bind (fun _ => ?_) (history_within _)
  exact Within.bind (fun _ => respondOk_within _) (event_within _ _ _)

theorem cmdHandleMsg_within (content : Bytes) : (cmdHandleMsg fd content).Within Writing commandWork := by
  suffices h : (cmdHandleMsg fd content).Within Writing (maxLineLen + 1 + 1 + 1 + 1 + 1 + 1) from h.mono (by decide)
  unfold cmdHandleMsg
  refine act_within rfl fun r => ?_
  obtain ⟨rc, username⟩ := r
  show Within Writing _ (if rc ≠ .ok then _ else _)
  split
  · exact refuse_within (by omega) _
  refine act_within rfl fun r => ?_
  obtain ⟨rc, room⟩ := r
  show Within Writing _ (if rc ≠ .ok then _ else _)
  split
  · exact within_ret _
  split
  · exact refuse_within (by omega) _
  refine act_within rfl fun now => act_within rfl fun _ => act_within rfl fun evt => act_within rfl fun rc => ?_
  split
  · exact refuse_within (by omega) _
  · exact respondOk_within _

theorem cmdHandlePm_within (P : Platform) (target content : Bytes) : (cmdHandlePm P fd target content).Within Writing commandWork := by
  suffices h : (cmdHandlePm P fd target content).Within Writing (maxLineLen + maxLineLen + 1 + 1 + 1) from h.mono (by decide)
  unfold cmdHandlePm
  refine act_within rfl fun r => ?_
  obtain ⟨rc, sender⟩ := r
  show Within Writing _ (if rc ≠ .ok then _ else _)
  split
  · exact refuse_within (by omega) _
  split
  · exact refuse_within (by omega) _
  split
  · exact refuse_within (by omega) _
  refine act_within rfl fun (targetFd : Int) => ?_
  split
  · exact refuse_within (by omega) _
  refine act_within rfl fun now => Within.bind (fun rc => ?_) (reply_within _)
  split
  · exact refuse_within (by omega) _
  · exact respondOk_within _

theorem cmdHandleList_within : (cmdHandleList fd).Within Writing commandWork := by
  suffices h : (cmdHandleList fd).Within Writing (maxLineLen + 1 + 1) from h.mono (by decide)
  unfold cmdHandleList
  refine act_within rfl fun r => ?_
  obtain ⟨rc, username⟩ := r
  show Within Writing _ (if rc ≠ .ok then _ else _)
  split
  · exact refuse_within (by omega) _
  refine act_within rfl fun r => ?_
  obtain ⟨rc, users⟩ := r
  show Within Writing _ (if rc ≠ .ok then _ else _)
  split
  · exact refuse_within (by omega) _
  · exact reply_within _

theorem cmdHandleHistory_within : (cmdHandleHistory fd).Within Writing commandWork := by
  suffices h : (cmdHandleHistory fd).Within Writing (maxLineLen + 1 + maxLineLen + 1 + 1) from h.mono (by decide)
  unfold cmdHandleHistory
  refine act_within rfl fun r => ?_
  obtain ⟨rc, username⟩ := r
  show Within Writing _ (if rc ≠ .ok then _ else _)
  split
  · exact refuse_within (by omega) _
  refine act_within rfl fun r => ?_
  obtain ⟨rc, room⟩ := r
  show Within Writing _ (if rc ≠ .ok then _ else _)
  split
  · exact within_ret _
  refine Within.bind (fun rc => ?_) (history_within room)
  split
  · exact refuse_within (by omega) _
  · exact respondOk_within _

theorem cmdHandleKick_within (target : Bytes) : (cmdHandleKick fd target).Within Writing commandWork := by
  suffices h : (cmdHandleKick fd target).Within Writing (maxLineLen + (maxLineLen + 1) + 1 + 1 + 1) from h.mono (by decide)
  unfold cmdHandleKick
  refine act_within rfl fun (isAdmin : Bool) => ?_
  split
  · exact refuse_within (by omega) _
  split
  · exact refuse_within (by omega) _
  refine act_within rfl fun r => ?_
  obtain ⟨rc, admin⟩ := r
  show Within Writing _ (if rc = .ok ∧ admin = target then _ else _)
  split
  · exact refuse_within (by omega) _
  refine act_within rfl fun (targetFd : Int) => ?_
  split
  · exact refuse_within (by omega) _
  exact Within.bind (fun _ => act_within rfl fun _ => respondOk_within _) (reply_within _)

theorem disconnectClient_within (username : Bytes) (authenticated : Bool) : (disconnectClient fd username authenticated).Within Writing 8 := by
  have hclose : (Sys.close fd).Within Writing 1 := ⟨rfl, fun _ => within_ret _⟩
  have hrest : (do let _ ← Sys.registryRemove fd; let _ ← Sys.registryCount; Sys.close fd : Cmd Unit).Within Writing 3 :=
    act_within rfl fun _ => act_within rfl fun _ => hclose
  refine Within.bind (m := 7) (n := 1) (fun _ => act_within rfl fun _ => within_ret _) ?_
  unfold cmdDisconnectClient
  split
  · refine act_within rfl fun r => ?_
    obtain ⟨rc, room⟩ := r
    show Within Writing 6 (if rc = .ok then _ else _)
    split
    · exact Within.bind (m := 3) (fun _ => hrest) (event_within _ _ _)
    · exact hrest.mono (by omega)
  · exact hclose.mono (by omega)

end

/-! ## Handlers -/

/-- From the end of `recv_line` to the next call of it, or to the end of the handler. -/
def lineWork : Nat := commandWork + 9

namespace Handler

/-- At most `n` actions are left before the handler reads again or ends. -/
def Owes (h : Handler) (n : Nat) : Prop :=
  match h.point with
  | .unborn => 10 ≤ n
  | .top => 9 ≤ n
  | .reading | .done => True
  | .busy .leave p => p.Within Writing n
  | .busy _ p => ∃ m, p.Within Writing m ∧ m + 9 ≤ n

section
variable {P : Platform} {h : Handler} {m n : Nat} {cont : Cont}

theorem Owes.mono (hmn : m ≤ n) (hm : h.Owes m) : h.Owes n := by
  unfold Owes at hm ⊢
  split
  · rename_i hp
    rw [hp] at hm
    exact Nat.le_trans hm hmn
  · rename_i hp
    rw [hp] at hm
    exact Nat.le_trans hm hmn
  · trivial
  · trivial
  · rename_i hp
    rw [hp] at hm
    exact Within.mono hmn hm
  · rename_i cont p hleave hp
    rw [hp] at hm
    cases cont with
    | leave => exact absurd rfl hleave
    | auth =>
      obtain ⟨q, hq, hle⟩ := hm
      exact ⟨q, hq, Nat.le_trans hle hmn⟩
    | command =>
      obtain ⟨q, hq, hle⟩ := hm
      exact ⟨q, hq, Nat.le_trans hle hmn⟩

theorem leave_owes (h : Handler) : h.leave.Owes 8 := disconnectClient_within h.username h.authenticated

theorem after_owes (hc : cont ≠ .leave) (rc : ChatStatus) : (h.after cont rc).Owes 9 := by
  have htop : ∀ h' : Handler, h'.point = .top → h'.Owes 9 := fun h' hp => by
    unfold Owes
    rw [hp]
  cases cont with
  | leave => exact absurd rfl hc
  | command =>
    show (if rc ≠ .ok then h.leave else _).Owes 9
    split
    · exact h.leave_owes.mono (by omega)
    · exact htop _ rfl
  | auth username =>
    show (if rc ≠ .ok then h.leave else _).Owes 9
    split
    · exact h.leave_owes.mono (by omega)
    · exact htop _ rfl

theorem enter_owes (hc : cont ≠ .leave) {p : Cmd ChatStatus} (hp : p.Within Writing m) : (h.enter cont p).Owes (m + 9) := by
  cases p with
  | ret rc => exact (after_owes hc rc).mono (Nat.le_add_left ..)
  | act a k =>
    cases cont with
    | leave => exact absurd rfl hc
    | auth | command => exact ⟨m, hp, Nat.le_refl _⟩

theorem dispatch_owes (line : Bytes) : (h.dispatch P line).Owes lineWork := by
  have hcmd : ∀ {p : Cmd ChatStatus}, p.Within Writing commandWork → (h.enter .command p).Owes lineWork := fun hp => enter_owes (fun hc => by cases hc) hp
  have hrefuse : ∀ msg, (h.refuse msg).Owes lineWork := fun msg => hcmd (Within.mono (by decide) (reply_within _))
  unfold dispatch
  generalize protocolParseClientLine line = parsed
  obtain ⟨rc, cmd⟩ := parsed
  simp only
  split
  · exact hrefuse _
  split
  · split
    · exact hrefuse _
    · exact enter_owes (fun hc => by cases hc) (cmdHandleAuth_within _ _)
  split
  · exact hcmd (cmdHandleJoinRoom_within _)
  · exact hcmd (cmdHandleMsg_within _)
  · exact hcmd (cmdHandlePm_within P _ _)
  · exact hcmd cmdHandleList_within
  · exact hcmd cmdHandleHistory_within
  · exact hcmd (cmdHandleKick_within _)
  · exact h.leave_owes.mono (by decide)
  · exact hrefuse _

theorem enter_point (h : Handler) (cont : Cont) (p : Cmd ChatStatus) : (h.enter cont p).point ≠ .reading := by
  cases p with
  | act => nofun
  | ret rc =>
    show (h.after cont rc).point ≠ .reading
    cases cont with
    | leave => nofun
    | command =>
      show (if rc ≠ .ok then h.leave else _).point ≠ .reading
      split <;> nofun
    | auth =>
      show (if rc ≠ .ok then h.leave else _).point ≠ .reading
      split <;> nofun

theorem dispatch_point (line : Bytes) : (h.dispatch P line).point ≠ .reading := by
  unfold dispatch
  generalize protocolParseClientLine line = parsed
  obtain ⟨rc, cmd⟩ := parsed
  simp only
  split
  · exact enter_point _ _ _
  split
  · split
    · exact enter_point _ _ _
    · exact enter_point _ _ _
  split <;> first | exact enter_point _ _ _ | nofun

/-- Only the flag lets a handler read. -/
theorem next_point {a : Act} {k : a.Ret → Handler} (hnext : h.next P = some ⟨a, k⟩) {r : a.Ret}
    (hr : (⟨a, r⟩ : (a : Act) × a.Ret) ≠ ⟨.running, true⟩) : (k r).point ≠ .reading := by
  unfold next at hnext
  split at hnext
  · cases hnext
    nofun
  · cases hnext
    change Bool at r
    cases r with
    | true => exact absurd rfl hr
    | false => nofun
  · cases hnext
    change Option Bytes at r
    cases r with
    | none => nofun
    | some line => exact dispatch_point line
  · cases hnext
    exact enter_point _ _ _
  · cases hnext
  · cases hnext

/-- Each action is paid for, and a line read brings in the work on it. -/
theorem owes_next (hn : h.Owes n) {a : Act} {k : a.Ret → Handler} (hnext : h.next P = some ⟨a, k⟩) (r : a.Ret) :
    (h.point = .reading ∧ a.waits = 1 ∧ (k r).Owes lineWork) ∨ (a.waits = 0 ∧ ∃ m, n = m + 1 ∧ (k r).Owes m) := by
  unfold next at hnext
  unfold Owes at hn
  split at hnext
  · rename_i hp
    cases hnext
    rw [hp] at hn
    obtain ⟨m, rfl⟩ : ∃ m, n = m + 1 := ⟨n - 1, by simp only at hn; omega⟩
    exact Or.inr ⟨rfl, m, rfl, Nat.le_of_succ_le_succ hn⟩
  · rename_i hp
    cases hnext
    rw [hp] at hn
    obtain ⟨m, rfl⟩ : ∃ m, n = m + 1 := ⟨n - 1, by simp only at hn; omega⟩
    refine Or.inr ⟨rfl, m, rfl, ?_⟩
    change Bool at r
    cases r with
    | true => trivial
    | false => exact h.leave_owes.mono (Nat.le_of_succ_le_succ hn)
  · rename_i hp
    cases hnext
    refine Or.inl ⟨hp, rfl, ?_⟩
    change Option Bytes at r
    cases r with
    | none => exact h.leave_owes.mono (by decide)
    | some line => exact dispatch_owes line
  · rename_i cont b kb hp
    cases hnext
    rw [hp] at hn
    refine Or.inr ?_
    have routine : ∀ {q : Nat}, cont ≠ .leave → Within Writing q (.act a kb) → q + 9 ≤ n →
        a.waits = 0 ∧ ∃ m, n = m + 1 ∧ ((h.note a r).enter cont (kb r)).Owes m := by
      intro q hc hq hle
      obtain ⟨hb, q', rfl, hk⟩ := hq.pos
      exact ⟨hb, n - 1, by omega, (enter_owes hc (hk r)).mono (by omega)⟩
    cases cont with
    | leave =>
      obtain ⟨hb, m, rfl, hk⟩ := Within.pos hn
      refine ⟨hb, m, rfl, ?_⟩
      show ((h.note a r).enter .leave (kb r)).Owes m
      have hk := hk r
      generalize kb r = p at hk ⊢
      cases p with
      | ret => trivial
      | act => exact hk
    | auth u =>
      obtain ⟨q, hq, hle⟩ := hn
      exact routine (fun hc => by cases hc) hq hle
    | command =>
      obtain ⟨q, hq, hle⟩ := hn
      exact routine (fun hc => by cases hc) hq hle
  · cases hnext
  · cases hnext

end

end Handler

/-! ## The accept loop -/

namespace Acceptor

/-- At most `n` actions are left when the flag is down. -/
def Ends (t : Acceptor) (n : Nat) : Prop :=
  match t with
  | .top => 6 ≤ n
  | .accepting => maxLineLen + 9 ≤ n
  | .serving p => ∃ m, p.Within Writing m ∧ m + 6 ≤ n
  | .closing p => p.Within Writing n
  | .done => True

theorem serveConnection_within (fd : Int) (id : Nat) : (serveConnection fd id).Within Writing (maxLineLen + 2) := by
  have hclose : (Sys.close fd).Within Writing 1 := ⟨rfl, fun _ => within_ret _⟩
  have hdrop : (do Sys.close fd; Sys.connTrackDecrement : Cmd Unit).Within Writing 2 := act_within rfl fun _ => ⟨rfl, fun _ => within_ret _⟩
  unfold serveConnection
  refine act_within rfl fun (full : Bool) => ?_
  cases full with
  | true => exact Within.bind (fun _ => act_within rfl fun _ => within_ret _) (reply_within _)
  | false =>
    refine Within.mono (m := 5) (by decide) (act_within rfl fun _ => act_within rfl fun (block : Bool) => ?_)
    cases block with
    | false => exact act_within rfl fun _ => act_within rfl fun _ => within_ret _
    | true =>
      refine act_within rfl fun (ok : Bool) => ?_
      cases ok with
      | true => exact within_ret _
      | false => exact hdrop

theorem serverShutdown_within : serverShutdown.Within Writing 5 :=
  act_within rfl fun _ => act_within rfl fun _ => act_within rfl fun _ => act_within rfl fun _ => act_within rfl fun _ => within_ret _

section
variable {t : Acceptor} {m n : Nat} {a : Act} {k : a.Ret → Acceptor}

theorem serve_ends {p : Cmd Unit} (hp : p.Within Writing m) : (serve p).Ends (m + 6) := by
  cases p with
  | ret => exact Nat.le_add_left ..
  | act => exact ⟨m, hp, Nat.le_refl _⟩

theorem close_ends {p : Cmd Unit} (hp : p.Within Writing m) : (close p).Ends m := by
  cases p with
  | ret => trivial
  | act => exact hp

theorem Ends.mono (hmn : m ≤ n) (hm : t.Ends m) : t.Ends n := by
  cases t with
  | top | accepting => exact Nat.le_trans hm hmn
  | serving p =>
    obtain ⟨q, hq, hle⟩ := hm
    exact ⟨q, hq, Nat.le_trans hle hmn⟩
  | closing p => exact Within.mono hmn hm
  | done => trivial

/-- With the flag down each action brings the loop closer to its end. -/
theorem ends_next (ht : t.Ends n) (hnext : t.next = some ⟨a, k⟩) {r : a.Ret}
    (hr : (⟨a, r⟩ : (a : Act) × a.Ret) ≠ ⟨.running, true⟩) : ∃ m, n = m + 1 ∧ (k r).Ends m := by
  unfold next at hnext
  split at hnext
  · cases hnext
    obtain ⟨m, rfl⟩ : ∃ m, n = m + 1 := Nat.exists_eq_add_of_le' (Nat.le_trans (by decide) ht)
    change Bool at r
    cases r with
    | true => exact absurd rfl hr
    | false => exact ⟨m, rfl, (close_ends serverShutdown_within).mono (Nat.le_of_succ_le_succ ht)⟩
  · cases hnext
    obtain ⟨m, rfl⟩ : ∃ m, n = m + 1 := Nat.exists_eq_add_of_le' (Nat.le_trans (by decide) ht)
    refine ⟨m, rfl, ?_⟩
    change Option (Int × Nat) at r
    cases r with
    | none => exact Nat.le_trans (by decide) (Nat.le_of_succ_le_succ ht)
    | some conn => exact (serve_ends (serveConnection_within conn.1 conn.2)).mono (Nat.le_of_succ_le_succ ht)
  · cases hnext
    obtain ⟨q, hq, hle⟩ := ht
    obtain ⟨-, q', rfl, hk⟩ := hq.pos
    exact ⟨n - 1, by omega, (serve_ends (hk r)).mono (by omega)⟩
  · cases hnext
    obtain ⟨-, m, rfl, hk⟩ := Within.pos ht
    exact ⟨m, rfl, close_ends (hk r)⟩
  · cases hnext

/-- While the flag is up the loop may go round. -/
theorem ends_round (ht : t.Ends (maxLineLen + 9)) (hnext : t.next = some ⟨a, k⟩) (r : a.Ret) : (k r).Ends (maxLineLen + 9) := by
  by_cases hr : (⟨a, r⟩ : (a : Act) × a.Ret) = ⟨.running, true⟩
  · obtain ⟨rfl, hr⟩ := Sigma.mk.inj hr
    obtain rfl := eq_of_heq hr
    cases t with
    | top => cases hnext; exact Nat.le_refl _
    | accepting | done => cases hnext
    | serving p =>
      cases p with
      | ret => cases hnext
      | act b kb =>
        cases hnext
        obtain ⟨q, hq, hle⟩ := ht
        obtain ⟨-, q', rfl, hk⟩ := hq.pos
        exact (serve_ends (hk true)).mono (by omega)
    | closing p =>
      cases p with
      | ret => cases hnext
      | act b kb =>
        cases hnext
        obtain ⟨-, m, hm, hk⟩ := Within.pos ht
        exact (close_ends (hk true)).mono (by omega)
  · obtain ⟨m, hm, hk⟩ := ends_next ht hnext hr
    exact hk.mono (by omega)

end

/-- Only the flag lets the loop accept, and nothing else in it waits. -/
theorem next_accepting {t : Acceptor} {a : Act} {k : a.Ret → Acceptor} (hnext : t.next = some ⟨a, k⟩) {r : a.Ret}
    (hr : (⟨a, r⟩ : (a : Act) × a.Ret) ≠ ⟨.running, true⟩) : k r ≠ .accepting := by
  have hserve : ∀ p, serve p ≠ .accepting := fun p => by cases p <;> nofun
  have hclose : ∀ p, close p ≠ .accepting := fun p => by cases p <;> nofun
  unfold next at hnext
  split at hnext
  · cases hnext
    change Bool at r
    cases r with
    | true => exact absurd rfl hr
    | false => exact hclose serverShutdown
  · cases hnext
    change Option (Int × Nat) at r
    cases r with
    | none => nofun
    | some conn => exact hserve (serveConnection conn.1 conn.2)
  · cases hnext
    exact hserve _
  · cases hnext
    exact hclose _
  · cases hnext

theorem waits_next {t : Acceptor} {n : Nat} (ht : t.Ends n) {a : Act} {k : a.Ret → Acceptor} (hnext : t.next = some ⟨a, k⟩) :
    a.waits = 0 ∨ t = .accepting ∧ a.waits = 1 := by
  unfold next at hnext
  split at hnext
  · cases hnext
    exact Or.inl rfl
  · cases hnext
    exact Or.inr ⟨rfl, rfl⟩
  · cases hnext
    obtain ⟨q, hq, -⟩ := ht
    exact Or.inl hq.pos.1
  · cases hnext
    exact Or.inl (Within.pos ht).1
  · cases hnext

end Acceptor

/-! ## Every run -/

namespace Thread

/-- The thread issues at most `n` actions more once the flag is down. -/
def Ends : Thread → Nat → Prop
  | .main t, n => t.Ends n
  | .handler h, n => h.Owes n ∧ (h.point = .reading → lineWork < n)
  | _, _ => False

/-- The thread is about to wait for a peer. -/
def Waiting : Thread → Prop
  | .main t => t = .accepting
  | .handler h => h.point = .reading
  | _ => False

section
variable {P : Platform} {t : Thread} {n : Nat} {a : Act} {k : a.Ret → Thread}

theorem ends_next (ht : t.Ends n) (hnext : t.next P = some ⟨a, k⟩) {r : a.Ret} (hr : (⟨a, r⟩ : (a : Act) × a.Ret) ≠ ⟨.running, true⟩) :
    ∃ m, n = m + 1 ∧ (k r).Ends m := by
  cases t with
  | broadcaster | signal => cases ht
  | main t =>
    obtain ⟨⟨b, kb⟩, hb, he⟩ := Option.map_eq_some_iff.mp hnext
    cases he
    exact Acceptor.ends_next ht hb hr
  | handler h =>
    obtain ⟨⟨b, kb⟩, hb, he⟩ := Option.map_eq_some_iff.mp hnext
    cases he
    have hpoint := h.next_point hb hr
    rcases h.owes_next ht.1 hb r with ⟨hread, -, hk⟩ | ⟨-, m, rfl, hk⟩
    · have hlt := ht.2 hread
      exact ⟨n - 1, by omega, hk.mono (by omega), fun he => absurd he hpoint⟩
    · exact ⟨m, rfl, hk, fun he => absurd he hpoint⟩

theorem waits_next (ht : t.Ends n) (hnext : t.next P = some ⟨a, k⟩) {r : a.Ret} (hr : (⟨a, r⟩ : (a : Act) × a.Ret) ≠ ⟨.running, true⟩) :
    ¬ (k r).Waiting ∧ (a.waits = 0 ∨ t.Waiting ∧ a.waits = 1) := by
  cases t with
  | broadcaster | signal => cases ht
  | main t =>
    obtain ⟨⟨b, kb⟩, hb, he⟩ := Option.map_eq_some_iff.mp hnext
    cases he
    exact ⟨Acceptor.next_accepting hb hr, Acceptor.waits_next ht hb⟩
  | handler h =>
    obtain ⟨⟨b, kb⟩, hb, he⟩ := Option.map_eq_some_iff.mp hnext
    cases he
    refine ⟨h.next_point hb hr, ?_⟩
    rcases h.owes_next ht.1 hb r with ⟨hread, hw, -⟩ | ⟨hw, -⟩
    · exact Or.inr ⟨hread, hw⟩
    · exact Or.inl hw

end

end Thread

section
variable {P : Platform} {ok : Env → Prop} {db : AuthDb} {tr tr₁ tr₂ : List (Label Tid Act.Ret)} {c c' : System}

theorem run_owes (hr : Run (System.Step P ok) (System.init db) tr c) (i : Nat) :
    ∃ h, c.loc (.handler i) = .handler h ∧ h.Owes lineWork := by
  refine loc_invariant (i := .handler i) (I := fun t => ∃ h, t = .handler h ∧ h.Owes lineWork) ?_ hr ⟨.unborn, rfl, show 10 ≤ lineWork by decide⟩
  rintro t a k r ⟨h, rfl, ho⟩ hn
  obtain ⟨⟨b, kb⟩, hb, he⟩ := Option.map_eq_some_iff.mp hn
  cases he
  refine ⟨kb r, rfl, ?_⟩
  rcases h.owes_next ho hb r with ⟨-, -, hk⟩ | ⟨-, m, hm, hk⟩
  · exact hk
  · exact hk.mono (by omega)

theorem run_ends (hr : Run (System.Step P ok) (System.init db) tr c) :
    ∃ t, c.loc .main = .main t ∧ t.Ends (maxLineLen + 9) := by
  refine loc_invariant (i := .main) (I := fun t => ∃ m, t = .main m ∧ m.Ends (maxLineLen + 9)) ?_ hr ⟨.top, rfl, show 6 ≤ maxLineLen + 9 by decide⟩
  rintro t a k r ⟨m, rfl, hm⟩ hn
  obtain ⟨⟨b, kb⟩, hb, he⟩ := Option.map_eq_some_iff.mp hn
  cases he
  exact ⟨kb r, rfl, Acceptor.ends_round hm hb r⟩

/-- **A handler's work is bounded by its input**: however the threads interleave
and whatever the platform answers, it issues at most so many actions for each
line it has asked for. -/
theorem work_bounded (hr : Run (System.Step P ok) (System.init db) tr c) (i : Nat) :
    spent (fun _ => 1) (.handler i) tr ≤ 10 + (lineWork + 1) * spent Act.waits (.handler i) tr := by
  obtain ⟨m, -, hle⟩ := spent_le (i := .handler i) (fun t n => ∃ h : Handler, t = .handler h ∧ h.Owes n) (fun _ => 1) (fun a => (lineWork + 1) * a.waits)
    (fun _ _ => True) (by
      rintro t n a k r ⟨h, rfl, ho⟩ hn -
      obtain ⟨⟨b, kb⟩, hb, he⟩ := Option.map_eq_some_iff.mp hn
      cases he
      rcases h.owes_next ho hb r with ⟨-, hw, hk⟩ | ⟨hw, m, rfl, hk⟩
      · exact ⟨lineWork, ⟨_, rfl, hk⟩, by rw [hw]; omega⟩
      · exact ⟨m, ⟨_, rfl, hk⟩, by omega⟩) hr (fun _ _ _ => trivial) ⟨.unborn, rfl, Nat.le_refl 10⟩
  rw [spent_mul] at hle
  omega

/-- Nobody raises the flag again. -/
theorem run_halted (hr : Run (System.Step P ok) c tr c') (hc : c.shared.running = false) :
    c'.shared.running = false ∧ ∀ l ∈ tr, (⟨l.act, l.ret⟩ : (a : Act) × a.Ret) ≠ ⟨.running, true⟩ := by
  induction hr with
  | nil => exact ⟨hc, fun _ hl => absurd hl List.not_mem_nil⟩
  | snoc _ hs ih =>
    obtain ⟨hhalt, htr⟩ := ih
    cases hs with
    | mk hn he hx =>
      refine ⟨exec_running hx hhalt, fun l hl => ?_⟩
      rcases List.mem_append.mp hl with hl | hl
      · exact htr l hl
      · rw [List.mem_singleton.mp hl]
        exact exec_not_running hx hhalt

/-- What a thread still does behind the end of the flag. -/
theorem spent_halted (hr : Run (System.Step P ok) c tr c') (hc : c.shared.running = false) {tid : Tid} {n : Nat}
    (ht : (c.loc tid).Ends n) : spent (fun _ => 1) tid tr ≤ n ∧ spent Act.waits tid tr ≤ 1 := by
  have hv := fun l (hl : l ∈ tr) (_ : l.tid = tid) => (run_halted hr hc).2 l hl
  constructor
  · obtain ⟨m, -, hle⟩ := spent_le Thread.Ends (fun _ => 1) (fun _ => 0) (fun a r => (⟨a, r⟩ : (a : Act) × a.Ret) ≠ ⟨.running, true⟩) (by
      intro t n a k r ht hn hr
      obtain ⟨m, rfl, hk⟩ := Thread.ends_next ht hn hr
      exact ⟨m, hk, by omega⟩) hr hv ht
    rw [spent_zero] at hle
    omega
  · obtain ⟨m, -, hle⟩ := spent_le (fun t m => (∃ n, t.Ends n) ∧ (t.Waiting → 1 ≤ m)) Act.waits (fun _ => 0)
      (fun a r => (⟨a, r⟩ : (a : Act) × a.Ret) ≠ ⟨.running, true⟩) (by
      rintro t m a k r ⟨⟨n, ht⟩, hm⟩ hn hr
      obtain ⟨n', -, hk⟩ := Thread.ends_next ht hn hr
      obtain ⟨hwait, hw⟩ := Thread.waits_next ht hn hr
      refine ⟨0, ⟨⟨n', hk⟩, fun h => absurd h hwait⟩, ?_⟩
      rcases hw with hw | ⟨hat, hw⟩
      · omega
      · have hpos := hm hat
        omega) hr hv ⟨⟨n, ht⟩, fun _ => Nat.le_refl 1⟩
    rw [spent_zero] at hle
    omega

/-- **Shutdown takes hold**: behind any clearing of the flag each handler waits
for at most one more line and the accept loop for at most one more connection,
and all of them end within a fixed number of actions. -/
theorem shutdown_bounded {tid : Tid} (hr : Run (System.Step P ok) (System.init db) (tr₁ ++ ⟨tid, .stop, ()⟩ :: tr₂) c) :
    (∀ i, spent (fun _ => 1) (.handler i) tr₂ ≤ lineWork + 1 ∧ spent Act.waits (.handler i) tr₂ ≤ 1) ∧
    spent (fun _ => 1) .main tr₂ ≤ maxLineLen + 9 ∧ spent Act.waits .main tr₂ ≤ 1 := by
  obtain ⟨c₁, h₁, h₂⟩ := hr.split
  obtain ⟨c₂, hs, h₂⟩ := h₂.uncons
  have hhalt : c₂.shared.running = false := by
    cases hs with
    | mk hn he hx => cases hx; rfl
  have hr₂ := h₁.snoc hs
  refine ⟨fun i => ?_, ?_⟩
  · obtain ⟨h, hh, ho⟩ := run_owes hr₂ i
    refine spent_halted h₂ hhalt ?_
    rw [hh]
    exact ⟨ho.mono (Nat.le_succ _), fun _ => Nat.lt_succ_self _⟩
  · obtain ⟨t, ht, he⟩ := run_ends hr₂
    refine spent_halted h₂ hhalt ?_
    rw [ht]
    exact he

end

/-- `bob` logs in, the flag goes down while his handler waits, and it comes to its end. -/
def bobStopped : List (Tid × Env) :=
  logIn 0 5 "bob" ++ (.signal, sunny "" 5 1) :: List.replicate 17 (.handler 0, sunny "MSG hi" 5 1)

theorem terminated_bobStopped : ∀ p ∈ bobStopped, p.2.Terminated := by
  intro p hp
  rcases List.mem_append.mp hp with hp | hp
  · exact sunny_logIn 0 5 "bob" p hp
  · rcases List.mem_cons.mp hp with rfl | hp
    · exact sunny_terminated _ _ _
    · rw [(List.mem_replicate.mp hp).2]
      exact sunny_terminated _ _ _

theorem work_bounded_bob : ∃ tr c, Run (System.Step passPlatform Env.Terminated) (System.init passDb) tr c ∧
    spent Act.waits (.handler 0) tr = 2 ∧ spent (fun _ => 1) (.handler 0) tr ≤ 10 + (lineWork + 1) * 2 := by
  obtain ⟨tr, c, hr, hp⟩ := System.exists_run passPlatform Env.Terminated (System.init passDb) _ terminated_bobStopped
    (p := fun q => decide (spent Act.waits (.handler 0) q.1 = 2)) (by decide +kernel)
  have hle := work_bounded hr 0
  rw [of_decide_eq_true hp] at hle
  exact ⟨tr, c, hr, of_decide_eq_true hp, hle⟩

theorem shutdown_bounded_bob : ∃ tr₁ tr₂ c,
    Run (System.Step passPlatform Env.Terminated) (System.init passDb) (tr₁ ++ ⟨.signal, .stop, ()⟩ :: tr₂) c ∧
    (∃ h, c.handler 0 = some h ∧ h.out = true) ∧ spent (fun _ => 1) (.handler 0) tr₂ ≤ lineWork + 1 := by
  obtain ⟨tr, c, hr, hp⟩ := System.exists_run passPlatform Env.Terminated (System.init passDb) _ terminated_bobStopped
    (p := fun q => (q.1.any fun l => decide (l.tid = .signal ∧ l.act = .stop)) && (q.2.handler 0).any Handler.out) (by decide +kernel)
  obtain ⟨hstop, hend⟩ := (Bool.and_eq_true _ _).mp hp
  obtain ⟨⟨tid, a, r⟩, hl, hstop⟩ := List.any_eq_true.mp hstop
  obtain ⟨rfl, rfl⟩ := of_decide_eq_true hstop
  obtain ⟨tr₁, tr₂, rfl⟩ := List.append_of_mem hl
  obtain ⟨h, hh, hout⟩ := (Option.any_eq_true _ _).mp hend
  exact ⟨tr₁, tr₂, c, hr, ⟨h, hh, hout⟩, ((shutdown_bounded hr).1 0).1⟩

end ChatServer

import ChatServer.Accounting
import ChatServer.Draining

/-!
# The end of the process

`server_destroy` takes the components of the server apart one after another as
soon as `server_shutdown` has returned, and waits for no handler. A handler that
is still alive goes on with its call and its disconnect path (`Handler.remaining`); it
keeps its hands off what is destroyed when nothing of that touches a component at
the moment the component goes.
-/

namespace ChatServer

open CStr Interleave Prog

/-! ## Components -/

inductive Component where
  | broadcastQueue
  | registry
  | rooms
  | auth
  | connLock
  deriving DecidableEq

/-- The component whose mutex the operation takes. -/
def Act.component : Act → Option Component
  | .mqPush _ | .mqPop | .mqSignalShutdown => some .broadcastQueue
  | .registryUsernameExists _ | .registryAdd .. | .registryRemove _ | .registryGetUsername _ | .registryGetRoom _
  | .registrySetRoom .. | .registryIsAdmin _ | .registryGetSockfdByUsername _ | .registryCount | .registryBuildUserList _
  | .foreachFirst | .foreachNext _ => some .registry
  | .roomHistoryAdd .. | .roomHistoryFormat .. => some .rooms
  | .authVerify .. | .authIsAdmin _ => some .auth
  | .connAtCapacity | .connTrackIncrement | .connTrackDecrement => some .connLock
  | _ => none

/-- `mq_destroy`, `registry_destroy`, `room_manager_destroy`, `auth_destroy`, and
the `pthread_mutex_destroy` of `conn_lock`: what they leave in the memory. -/
def Component.destroy : Component → Server → Server
  | .broadcastQueue, s => { s with queue := { s.queue with msgs := [] } }
  | .registry, s => { s with registry := registryInit }
  | .rooms, s => { s with rooms := { rooms := [], roomCount := 0 } }
  | .auth, s => { s with auth := [] }
  | .connLock, s => s

def serverDestroy : List Component := [.broadcastQueue, .registry, .rooms, .auth, .connLock]

/-! ## The process -/

structure Process where
  sys : System
  -- by `server_destroy`, in this order
  destroyed : List Component

inductive Deed where
  | act (l : Label Tid Act.Ret)
  | destroy (comp : Component)

namespace Process

def init (db : AuthDb) : Process := { sys := System.init db, destroyed := [] }

/-- A thread takes a step, or `main` the next one of `server_destroy`: behind
`server_shutdown`, and so behind the `pthread_join` of the broadcaster. -/
inductive Step (P : Platform) (ok : Env → Prop) : Process → Deed → Process → Prop
  | act {p : Process} {l : Label Tid Act.Ret} {c : System} : System.Step P ok p.sys l c →
      Step P ok p (.act l) { p with sys := c }
  | destroy {p : Process} {comp : Component} {rest : List Component} : p.sys.loc .main = .main .done → p.sys.Left →
      p.destroyed ++ comp :: rest = serverDestroy →
      Step P ok p (.destroy comp)
        { sys := { p.sys with shared := comp.destroy p.sys.shared }, destroyed := p.destroyed ++ [comp] }

end Process

/-- No handler operates on a component behind the deed that destroys it. -/
def Orderly (tr : List Deed) : Prop :=
  ∀ before comp behind, tr = before ++ .destroy comp :: behind →
    ∀ i (a : Act) (r : a.Ret), .act ⟨.handler i, a, r⟩ ∈ behind → a.component ≠ some comp

/-! ## What a handler still runs -/

def OnComponent (comp : Component) (a : Act) : Prop := a.component = some comp

namespace Handler

/-- What stands at `done:`. -/
def exit (h : Handler) : Cmd ChatStatus := disconnectClient h.fd h.username h.authenticated

/-- The call that the handler is in, and the disconnect path behind it. -/
def closing (h : Handler) : Cmd ChatStatus :=
  match h.point with
  | .busy .leave p => p
  | .busy cont p => p >>= fun rc => (h.after cont rc).exit
  | .done => pure .ok
  | _ => h.exit

/-- What the handler runs before it returns, in a server that is stopped: no
second line is read. -/
def remaining (P : Platform) (h : Handler) : Cmd ChatStatus :=
  match h.point with
  | .unborn => .act .start fun fd => { h with fd := fd }.exit
  | .reading => .act (.recvLine h.fd) fun line =>
      match line with
      | none => h.exit
      | some line => ({ h with target := none }.dispatch P line).closing
  | _ => h.closing

/-- The disconnect path keeps off the component: it never works on the rooms and the accounts, and on the registry and
the queue only for a client that has logged in. -/
def Spares (h : Handler) (comp : Component) : Prop :=
  comp = .rooms ∨ comp = .auth ∨ (comp ≠ .connLock ∧ ¬ (h.authenticated = true ∧ h.username ≠ []))

/-- The handler has no operation on the component ahead. -/
def Clear (P : Platform) (comp : Component) (h : Handler) : Prop := ¬ Ahead (OnComponent comp) (h.remaining P)

section
variable {P : Platform} {comp : Component} {h : Handler} {cont : Cont}

theorem exit_after (target : Option (Bytes × Int)) (point : Point) (rc : ChatStatus) :
    ({ h with target := target, point := point }.after cont rc).exit = (h.after cont rc).exit := by
  cases cont with
  | leave => rfl
  | command =>
    show (if rc ≠ .ok then _ else _ : Handler).exit = (if rc ≠ .ok then _ else _ : Handler).exit
    split <;> rfl
  | auth username =>
    show (if rc ≠ .ok then _ else _ : Handler).exit = (if rc ≠ .ok then _ else _ : Handler).exit
    split <;> rfl

theorem after_remaining (hcont : cont ≠ .leave) (rc : ChatStatus) : (h.after cont rc).remaining P = (h.after cont rc).exit := by
  cases cont with
  | leave => exact absurd rfl hcont
  | command =>
    show (if rc ≠ .ok then h.leave else _ : Handler).remaining P = (if rc ≠ .ok then h.leave else _ : Handler).exit
    split <;> rfl
  | auth username =>
    show (if rc ≠ .ok then h.leave else _ : Handler).remaining P = (if rc ≠ .ok then h.leave else _ : Handler).exit
    split <;> rfl

theorem enter_remaining (hcont : cont ≠ .leave) : ∀ p : Cmd ChatStatus, (h.enter cont p).remaining P = p >>= fun rc => (h.after cont rc).exit
  | .ret rc => after_remaining hcont rc
  | .act a k => by
    cases cont with
    | leave => exact absurd rfl hcont
    | command | auth => exact congrArg (Prog.act a k >>= ·) (funext fun rc => exit_after h.target _ rc)

theorem enter_closing (hcont : cont ≠ .leave) : ∀ p : Cmd ChatStatus, (h.enter cont p).remaining P = (h.enter cont p).closing
  | .ret rc => by
    cases cont with
    | leave => exact absurd rfl hcont
    | command | auth =>
      show (if rc ≠ .ok then h.leave else _ : Handler).remaining P = (if rc ≠ .ok then h.leave else _ : Handler).closing
      split <;> rfl
  | .act _ _ => rfl

theorem dispatch_remaining (line : Bytes) : (h.dispatch P line).remaining P = (h.dispatch P line).closing := by
  have hcmd : ∀ p, (h.enter .command p).remaining P = (h.enter .command p).closing := enter_closing Cont.noConfusion
  have hrefuse : ∀ msg, (h.refuse msg).remaining P = (h.refuse msg).closing := fun msg => hcmd _
  unfold dispatch
  rcases protocolParseClientLine line with ⟨rc, cmd⟩
  simp only
  split
  · exact hrefuse _
  split
  · split
    · exact hrefuse _
    · exact enter_closing Cont.noConfusion _
  split
  · exact hcmd _
  · exact hcmd _
  · exact hcmd _
  · exact hcmd _
  · exact hcmd _
  · exact hcmd _
  · rfl
  · exact hrefuse _

theorem note_exit (a : Act) (r : a.Ret) (rc : ChatStatus) : ((h.note a r).after cont rc).exit = (h.after cont rc).exit := by
  cases a with
  | registryGetSockfdByUsername username =>
    show ((h.aim username r).after cont rc).exit = _
    unfold aim
    split
    · rfl
    · exact exit_after _ h.point rc
  | _ => rfl

/-- Where the component is clear, no operation on it comes next, and it stays
clear in a server that is stopped. -/
theorem clear_next (hc : h.Clear P comp) {a : Act} {k : a.Ret → Handler} (hn : h.next P = some ⟨a, k⟩) :
    a.component ≠ some comp ∧ ∀ r, (⟨a, r⟩ : (a : Act) × a.Ret) ≠ ⟨.running, true⟩ → (k r).Clear P comp := by
  unfold Clear remaining at hc
  unfold next at hn
  cases hpoint : h.point with
  | unborn =>
    rw [hpoint] at hn hc
    cases hn
    obtain ⟨ha, hk⟩ := not_ahead_cons hc
    exact ⟨ha, fun fd _ => hk fd⟩
  | top =>
    rw [hpoint] at hn hc
    simp only [closing, hpoint] at hc
    cases hn
    refine ⟨nofun, fun (running : Bool) hstop => ?_⟩
    cases running with
    | true => exact absurd rfl hstop
    | false => exact hc
  | reading =>
    rw [hpoint] at hn hc
    cases hn
    obtain ⟨ha, hk⟩ := not_ahead_cons hc
    refine ⟨ha, fun (line : Option Bytes) _ => ?_⟩
    cases line with
    | none => exact hk none
    | some line =>
      unfold Clear
      rw [dispatch_remaining]
      exact hk (some line)
  | done =>
    rw [hpoint] at hn
    cases hn
  | busy cont p =>
    rw [hpoint] at hn hc
    cases p with
    | ret => cases hn
    | act a k =>
      cases hn
      simp only [closing, hpoint] at hc
      cases cont with
      | leave =>
        obtain ⟨ha, hk⟩ := not_ahead_cons hc
        refine ⟨ha, fun r _ => ?_⟩
        have hr := hk r
        show Clear P comp ((h.note a r).enter .leave (k r))
        cases hkr : k r with
        | ret rc => exact not_ahead_ret _
        | act b kb => rwa [hkr] at hr
      | command | auth =>
        obtain ⟨ha, hk⟩ := not_ahead_cons hc
        refine ⟨ha, fun r _ => ?_⟩
        unfold Clear
        rw [enter_remaining Cont.noConfusion]
        simp only [note_exit]
        exact hk r

theorem exit_clear (hcomp : comp = .rooms ∨ comp = .auth) : ¬ Ahead (OnComponent comp) h.exit := by
  have hother : ∀ {a : Act}, a.component ≠ some .rooms ∧ a.component ≠ some .auth → ¬ OnComponent comp a := by
    rintro a ⟨hrooms, hauth⟩ he
    rcases hcomp with rfl | rfl
    · exact hrooms he
    · exact hauth he
  have hend : ¬ Ahead (OnComponent comp) (Sys.close h.fd) := not_ahead_act (hother (by simp [Act.component])) fun _ => not_ahead_ret _
  have hrest : ¬ Ahead (OnComponent comp) (do let _ ← Sys.registryRemove h.fd; let _ ← Sys.registryCount; Sys.close h.fd) :=
    not_ahead_act (hother (by simp [Act.component])) fun _ => not_ahead_act (hother (by simp [Act.component])) fun _ => hend
  refine not_ahead_bind ?_ fun _ => not_ahead_act (hother (by simp [Act.component])) fun _ => not_ahead_ret _
  unfold cmdDisconnectClient
  split
  · refine not_ahead_act (hother (by simp [Act.component])) fun ⟨rc, room⟩ => ?_
    show ¬ Ahead _ (if rc = .ok then _ else _)
    split
    · refine not_ahead_bind ?_ fun _ => hrest
      exact not_ahead_act (hother (by simp [Act.component])) fun evt => not_ahead_act (hother (by simp [Act.component])) fun now =>
        not_ahead_act (hother (by simp [Act.component])) fun _ => not_ahead_ret _
    · exact hrest
  · exact hend

/-- What the disconnect path works on. -/
theorem exit_clear_iff : ¬ Ahead (OnComponent comp) h.exit ↔ h.Spares comp := by
  unfold Spares
  by_cases hcomp : comp = .rooms ∨ comp = .auth
  · exact iff_of_true (exit_clear hcomp) (hcomp.imp_right Or.inl)
  unfold exit disconnectClient cmdDisconnectClient
  by_cases hin : h.authenticated = true ∧ h.username ≠ []
  · rw [if_pos hin]
    refine iff_of_false (not_not_intro ?_) (by tauto)
    cases comp with
    | connLock => exact .later (ChatStatus.err, []) (.later ChatStatus.ok (.later (0 : Nat) (.later () (.here rfl))))
    | registry => exact .here rfl
    | broadcastQueue => exact .later (ChatStatus.ok, []) (.later (sunny "" 0 0).stack (.later (0 : Int) (.here rfl)))
    | rooms => exact absurd (Or.inl rfl) hcomp
    | auth => exact absurd (Or.inr rfl) hcomp
  · rw [if_neg hin]
    by_cases hlast : comp = .connLock
    · subst hlast
      exact iff_of_false (not_not_intro (.later () (.here rfl))) (by tauto)
    · refine iff_of_true ?_ (Or.inr (Or.inr ⟨hlast, hin⟩))
      exact not_ahead_act nofun fun _ => not_ahead_act (fun he => hlast (Option.some.inj he).symm) fun _ => not_ahead_ret _

/-! ### What that means at each point -/

/-- What keeps off the component. Between two calls it is the disconnect path that has to; before a line is read, no
component but the accounts is safe, and these once the session is logged in; in a call it is the call and, whatever it
returns, the disconnect path behind it. -/
def ClearAt (h : Handler) (comp : Component) : Prop :=
  match h.point with
  | .unborn | .top => h.Spares comp
  | .reading => comp = .auth ∧ h.authenticated = true
  | .busy .leave p => ¬ Ahead (OnComponent comp) p
  | .busy cont p => ¬ Ahead (OnComponent comp) p ∧ ∀ rc, p.Leads (.ret rc) → (h.after cont rc).Spares comp
  | .done => True

theorem sendAll_leads (fd : Int) (buf : Bytes) : (sendAll fd buf).Leads (.ret .ok) := by
  unfold sendAll
  cases hlen : buf.length with
  | zero => exact .refl _
  | succ n =>
    unfold sendLoop
    rw [if_neg (by omega)]
    refine Prog.Leads.behind (some (n + 1) : Option Nat) ?_
    cases n with
    | zero => exact .refl _
    | succ n =>
      show (sendLoop fd buf (n + 1) (0 + (n + 1 + 1))).Leads _
      unfold sendLoop
      rw [if_pos (by omega)]
      exact .refl _

/-- A login works on everything. -/
theorem auth_ahead (fd : Int) (hcomp : comp ≠ .connLock) : Ahead (OnComponent comp) (cmdHandleAuth fd (lit "bob") (lit "pw")) := by
  unfold cmdHandleAuth
  rw [if_neg (by decide)]
  cases comp with
  | auth => exact .here rfl
  | registry => exact .later ChatStatus.ok (.here rfl)
  | connLock => exact absurd rfl hcomp
  | rooms =>
    refine .later ChatStatus.ok (.later false (.later false (.later ChatStatus.ok ?_)))
    show Ahead _ (cmdSendResponse fd _ >>= _)
    refine Prog.Ahead.behind (sendAll_leads ..) ?_
    rw [if_neg (not_not_intro rfl)]
    exact Prog.Ahead.behind (sendAll_leads ..) (.here rfl)
  | broadcastQueue =>
    refine .later ChatStatus.ok (.later false (.later false (.later ChatStatus.ok ?_)))
    show Ahead _ (cmdSendResponse fd _ >>= _)
    refine Prog.Ahead.behind (sendAll_leads ..) ?_
    rw [if_neg (not_not_intro rfl)]
    refine Prog.Ahead.behind (sendAll_leads ..) (.later (ChatStatus.err, []) ?_)
    show Ahead _ (respondOk fd "authenticated" >>= _)
    refine Prog.Ahead.behind (sendAll_leads ..) ?_
    exact .later (sunny "" 0 0).stack (.later (0 : Int) (.here rfl))

/-- A message works on everything but the accounts. -/
theorem msg_ahead (fd : Int) (hcomp : comp = .registry ∨ comp = .rooms ∨ comp = .broadcastQueue) :
    Ahead (OnComponent comp) (cmdHandleMsg fd (lit "hi")) := by
  unfold cmdHandleMsg
  rcases hcomp with rfl | rfl | rfl
  · exact .here rfl
  · exact .later (ChatStatus.ok, []) (.later (ChatStatus.ok, []) (.later (0 : Int) (.here rfl)))
  · exact .later (ChatStatus.ok, []) (.later (ChatStatus.ok, []) (.later (0 : Int) (.later ChatStatus.ok
      (.later (sunny "" 0 0).stack (.here rfl)))))

theorem everyday_not_auth {a : Act} (h : Everyday a) : ¬ OnComponent .auth a := by
  intro ha
  cases a with
  | authVerify | authIsAdmin => cases h
  | _ => cases ha

/-- No command of a session that is logged in works on the accounts. -/
theorem dispatch_clear_auth (hauth : h.authenticated = true) (line : Bytes) :
    ¬ Ahead (OnComponent .auth) (h.dispatch P line).closing := by
  have hexit : ∀ h' : Handler, ¬ Ahead (OnComponent .auth) h'.exit := fun h' => exit_clear (Or.inr rfl)
  have hcmd : ∀ {p : Cmd ChatStatus}, Only (fun a => ¬ OnComponent .auth a) p →
      ¬ Ahead (OnComponent .auth) (h.enter .command p).closing := by
    intro p hp
    rw [← enter_closing (P := P) Cont.noConfusion, enter_remaining Cont.noConfusion]
    exact not_ahead_bind (hp.not_ahead fun _ => id) fun _ => hexit _
  have routine : ∀ {p : Cmd ChatStatus}, Only Everyday p → ¬ Ahead (OnComponent .auth) (h.enter .command p).closing :=
    fun hp => hcmd (hp.mono fun _ => everyday_not_auth)
  have refused : ∀ msg, ¬ Ahead (OnComponent .auth) (h.refuse msg).closing := fun msg => routine (respondErr_only h.fd msg)
  unfold dispatch
  rcases protocolParseClientLine line with ⟨rc, cmd⟩
  simp only [hauth]
  split
  · exact refused _
  rw [if_neg (by decide)]
  split
  · exact hcmd (cmdHandleJoinRoom_only (fun _ => everyday_not_auth) (fun _ => nofun) nofun fun _ => nofun)
  · exact routine (cmdHandleMsg_only h.fd _)
  · exact routine (cmdHandlePm_only h.fd P ..)
  · exact routine (cmdHandleList_only h.fd)
  · exact routine (cmdHandleHistory_only h.fd)
  · exact hcmd (cmdHandleKick_only (fun _ => everyday_not_auth) (fun _ _ => nofun) (fun _ => nofun) _)
  · exact hexit h
  · exact refused _

theorem dispatch_msg (hauth : h.authenticated = true) :
    h.dispatch P (lit "MSG hi") = h.enter .command (cmdHandleMsg h.fd (lit "hi")) := by
  have hparse : (protocolParseClientLine (lit "MSG hi")).1 = .ok ∧ (protocolParseClientLine (lit "MSG hi")).2.cmd = .msg ∧
      cstr (protocolParseClientLine (lit "MSG hi")).2.arg2 = lit "hi" := by decide +kernel
  unfold dispatch
  generalize protocolParseClientLine (lit "MSG hi") = parsed at hparse ⊢
  obtain ⟨rc, cmd⟩ := parsed
  obtain ⟨hrc, hcmd, harg⟩ := hparse
  simp only at hrc hcmd
  simp [hauth, hrc, hcmd, harg]

theorem dispatch_auth (hauth : h.authenticated = false) :
    h.dispatch P (lit "AUTH bob pw") = h.enter (.auth (lit "bob")) (cmdHandleAuth h.fd (lit "bob") (lit "pw")) := by
  have hparse : (protocolParseClientLine (lit "AUTH bob pw")).1 = .ok ∧ (protocolParseClientLine (lit "AUTH bob pw")).2.cmd = .auth ∧
      cstr (protocolParseClientLine (lit "AUTH bob pw")).2.arg1 = lit "bob" ∧
      cstr (protocolParseClientLine (lit "AUTH bob pw")).2.arg2 = lit "pw" := by decide +kernel
  unfold dispatch
  generalize protocolParseClientLine (lit "AUTH bob pw") = parsed at hparse ⊢
  obtain ⟨rc, cmd⟩ := parsed
  obtain ⟨hrc, hcmd, hname, hpass⟩ := hparse
  simp only at hrc hcmd
  simp [hauth, hrc, hcmd, hname, hpass]

theorem closing_ahead {p : Cmd ChatStatus} (hcont : cont ≠ .leave) (hp : Ahead (OnComponent comp) p) :
    Ahead (OnComponent comp) (h.enter cont p).closing := by
  cases p with
  | ret => exact absurd hp (not_ahead_ret _)
  | act a k =>
    cases cont with
    | leave => exact absurd rfl hcont
    | command | auth => exact ahead_bind_iff.mpr (Or.inl hp)

/-- A thread in `recv` may get any line. -/
theorem reading_clear_iff (hpoint : h.point = .reading) : h.Clear P comp ↔ comp = .auth ∧ h.authenticated = true := by
  unfold Clear remaining
  rw [hpoint]
  simp only
  constructor
  · intro hc
    by_cases hlock : comp = .connLock
    · subst hlock
      have hexit := (not_ahead_cons hc).2 (none : Option Bytes)
      have hspares := exit_clear_iff.mp hexit
      simp [Spares] at hspares
    have hline : ∀ line, ¬ Ahead (OnComponent comp) ({ h with point := .reading, target := none }.dispatch P line).closing :=
      fun line => (not_ahead_cons hc).2 (some line : Option Bytes)
    by_cases hauth : h.authenticated = true
    · refine ⟨?_, hauth⟩
      by_contra hcomp
      refine hline (lit "MSG hi") ?_
      rw [dispatch_msg (h := { h with point := .reading, target := none }) hauth]
      refine closing_ahead Cont.noConfusion (msg_ahead h.fd ?_)
      cases comp with
      | auth | connLock => contradiction
      | registry | rooms | broadcastQueue => simp
    · refine absurd ?_ (hline (lit "AUTH bob pw"))
      rw [dispatch_auth (h := { h with point := .reading, target := none }) (Bool.not_eq_true _ ▸ hauth)]
      exact closing_ahead Cont.noConfusion (auth_ahead h.fd hlock)
  · rintro ⟨rfl, hauth⟩
    refine not_ahead_act nofun fun (line : Option Bytes) => ?_
    cases line with
    | none => exact exit_clear (Or.inr rfl)
    | some line => exact dispatch_clear_auth (h := { h with point := .reading, target := none }) hauth line

/-- **What `Clear` means**, wherever the handler stands. -/
theorem clear_iff : h.Clear P comp ↔ h.ClearAt comp := by
  unfold ClearAt
  cases hpoint : h.point with
  | unborn =>
    unfold Clear remaining
    rw [hpoint]
    constructor
    · exact fun hc => (exit_clear_iff (h := { h with fd := 0 })).mp ((not_ahead_cons hc).2 (0 : Int))
    · exact fun hs => not_ahead_act nofun fun fd => exit_clear_iff.mpr hs
  | top =>
    unfold Clear remaining closing
    rw [hpoint]
    exact exit_clear_iff
  | reading => exact reading_clear_iff hpoint
  | done =>
    unfold Clear remaining closing
    rw [hpoint]
    exact iff_of_true (not_ahead_ret _) trivial
  | busy cont p =>
    unfold Clear remaining closing
    rw [hpoint]
    cases cont with
    | leave => exact Iff.rfl
    | command | auth => simp only [ahead_bind_iff, not_or, not_exists, not_and, exit_clear_iff]

end
end Handler

/-! ## Who admits sessions -/

def Act.admits : Act → Bool
  | .accept | .spawn .. => true
  | _ => false

theorem Everyday.not_admits {a : Act} (h : Everyday a) : a.admits = false := by
  cases a with
  | accept | spawn => cases h
  | _ => rfl

namespace Handler

def Apart (h : Handler) : Prop :=
  match h.point with
  | .busy _ p => Only (fun a => a.admits = false) p
  | _ => True

section
variable {h : Handler}

theorem leave_apart : h.leave.Apart := by
  have hall : ∀ a, Everyday a → a.admits = false := fun _ => Everyday.not_admits
  have hdrop : Only (fun a => a.admits = false) (do Sys.connTrackDecrement; return ChatStatus.ok) := ⟨rfl, fun _ => trivial⟩
  exact Only.bind (fun _ => hdrop) (cmdDisconnectClient_only hall (fun _ => rfl) rfl rfl ..)

theorem enter_apart {cont : Cont} : ∀ {p : Cmd ChatStatus}, Only (fun a => a.admits = false) p → (h.enter cont p).Apart
  | .act _ _, hp => hp
  | .ret rc, _ => by
    cases cont with
    | leave => trivial
    | command | auth =>
      show (if rc ≠ .ok then h.leave else _ : Handler).Apart
      split
      · exact leave_apart
      · trivial

theorem dispatch_apart (P : Platform) (line : Bytes) : (h.dispatch P line).Apart := by
  have hall : ∀ a, Everyday a → a.admits = false := fun _ => Everyday.not_admits
  have routine : ∀ {x : Cmd ChatStatus}, Only Everyday x → (h.enter .command x).Apart := fun hx => enter_apart (hx.mono hall)
  have refused : ∀ msg, (h.refuse msg).Apart := fun msg => routine (respondErr_only h.fd msg)
  unfold dispatch
  rcases protocolParseClientLine line with ⟨rc, cmd⟩
  simp only
  split
  · exact refused _
  split
  · split
    · exact refused _
    · exact enter_apart (cmdHandleAuth_only hall (fun _ => rfl) rfl rfl (fun _ => rfl) rfl (fun _ => rfl) fun _ => rfl)
  split
  · exact enter_apart (cmdHandleJoinRoom_only hall (fun _ => rfl) rfl fun _ => rfl)
  · exact routine (cmdHandleMsg_only h.fd _)
  · exact routine (cmdHandlePm_only h.fd P _ _)
  · exact routine (cmdHandleList_only h.fd)
  · exact routine (cmdHandleHistory_only h.fd)
  · exact enter_apart (cmdHandleKick_only hall (fun _ _ => rfl) (fun _ => rfl) _)
  · exact leave_apart
  · exact refused _

theorem apart_next {P : Platform} (ha : h.Apart) {a : Act} {k : a.Ret → Handler} (hn : h.next P = some ⟨a, k⟩) :
    a.admits = false ∧ ∀ r, (k r).Apart := by
  unfold Apart at ha
  unfold next at hn
  cases hpoint : h.point with
  | unborn =>
    rw [hpoint] at hn
    cases hn
    exact ⟨rfl, fun _ => trivial⟩
  | top =>
    rw [hpoint] at hn
    cases hn
    refine ⟨rfl, fun (running : Bool) => ?_⟩
    cases running with
    | true => trivial
    | false => exact leave_apart
  | reading =>
    rw [hpoint] at hn
    cases hn
    refine ⟨rfl, fun (line : Option Bytes) => ?_⟩
    cases line with
    | none => exact leave_apart
    | some line => exact dispatch_apart P line
  | done =>
    rw [hpoint] at hn
    cases hn
  | busy cont p =>
    rw [hpoint] at hn ha
    cases p with
    | ret => cases hn
    | act a k =>
      cases hn
      exact ⟨ha.1, fun r => enter_apart (ha.2 r)⟩

end
end Handler

/-! ## The stopped server -/

def Acceptor.Closing : Acceptor → Prop
  | .closing _ | .done => True
  | _ => False

/-- The threads are what they are called, and the accept loop is left only when `running` is cleared. -/
structure Staffed (c : System) : Prop where
  handlers : ∀ i, ∃ h, c.loc (.handler i) = .handler h ∧ h.Apart
  signal : c.loc .signal = .signal
  main : ∃ t, c.loc .main = .main t ∧ (t.Closing → c.shared.running = false)

theorem Staffed.init (db : AuthDb) : Staffed (System.init db) := ⟨fun _ => ⟨.unborn, rfl, trivial⟩, rfl, .top, rfl, False.elim⟩

section
variable {P : Platform} {ok : Env → Prop} {tid : Tid} {a : Act} {e : Env} {r : a.Ret} {s s' : Server}

theorem exec_running (hx : exec P tid a e s = some (r, s')) (hs : s.running = false) : s'.running = false := by
  cases a with
  | stop => cases hx; rfl
  | start =>
    obtain ⟨rfl, -⟩ := exec_start hx
    exact hs
  | authVerify =>
    cases hx
    split <;> exact hs
  | registryAdd =>
    simp only [exec] at hx
    split at hx
    · cases hx; exact hs
    · split at hx
      · cases hx
      · cases hx; exact hs
  | mqPop =>
    simp only [exec] at hx
    split at hx
    · cases hx
    · cases hx; exact hs
  | accept =>
    rcases exec_accept hx with ⟨-, rfl⟩ | ⟨fd, -, -, rfl⟩
    · exact hs
    · exact hs
  | connTrackDecrement =>
    cases hx
    split <;> exact hs
  | spawn =>
    rcases exec_spawn hx with ⟨-, rfl⟩ | ⟨-, rfl⟩
    · exact hs
    · exact hs
  | _ => cases hx; exact hs

theorem exec_not_running (hx : exec P tid a e s = some (r, s')) (hs : s.running = false) :
    (⟨a, r⟩ : (a : Act) × a.Ret) ≠ ⟨.running, true⟩ := by
  intro heq
  obtain ⟨rfl, hr⟩ := Sigma.mk.inj heq
  obtain rfl := eq_of_heq hr
  have hrun : s.running = true := (Prod.mk.inj (Option.some.inj hx)).1
  rw [hs] at hrun
  cases hrun

theorem exec_conns_sub (ha : a.admits = false) (hx : exec P tid a e s = some (r, s')) : ∀ d ∈ s'.conns, d ∈ s.conns := by
  have hsame : a.booked = false → ∀ d ∈ s'.conns, d ∈ s.conns := fun hb d hd => by rwa [(exec_unbooked hb hx).1] at hd
  cases a with
  | accept | spawn => cases ha
  | close fd => cases hx; exact fun d hd => List.mem_of_mem_filter hd
  | connTrackIncrement => cases hx; exact fun _ => id
  | connTrackDecrement =>
    cases hx
    split <;> exact fun _ => id
  | _ => exact hsame rfl

theorem serve_not_closing : ∀ p : Cmd Unit, ¬ (Acceptor.serve p).Closing
  | .ret _ => id
  | .act _ _ => id

/-- `main` leaves the loop where it has found `running` cleared. -/
theorem closing_next {t : Acceptor} {k : a.Ret → Acceptor} (hn : t.next = some ⟨a, k⟩)
    (hx : exec P tid a e s = some (r, s')) (ht : t.Closing → s.running = false) : (k r).Closing → s'.running = false := by
  cases t with
  | top =>
    cases hn
    cases hx
    intro hclosing
    cases hrun : s.running with
    | false => rfl
    | true => rw [hrun] at hclosing; cases hclosing
  | accepting =>
    cases hn
    change Option (Int × Nat) at r
    cases r with
    | none => exact False.elim
    | some r => exact fun hclosing => absurd hclosing (serve_not_closing _)
  | serving p =>
    cases p with
    | ret => cases hn
    | act =>
      cases hn
      exact fun hclosing => absurd hclosing (serve_not_closing _)
  | closing p => exact fun _ => exec_running hx (ht trivial)
  | done => cases hn

theorem Staffed.step {c c' : System} {l : Label Tid Act.Ret} (h : Staffed c) (hs : System.Step P ok c l c') : Staffed c' := by
  cases hs with
  | @mk tid a k e r s' hn he hx =>
    have hother : ∀ {j : Tid}, j ≠ tid → Function.update c.loc tid (k r) j = c.loc j := fun hj => Function.update_of_ne hj ..
    refine ⟨fun i => ?_, ?_, ?_⟩
    · obtain ⟨h₀, hloc, hapart⟩ := h.handlers i
      by_cases htid : tid = .handler i
      · subst htid
        rw [hloc] at hn
        obtain ⟨⟨a', k'⟩, hk, heq⟩ := Option.map_eq_some_iff.mp hn
        cases heq
        refine ⟨k' r, ?_, (Handler.apart_next hapart hk).2 r⟩
        show Function.update c.loc (.handler i) (Thread.handler (k' r)) (.handler i) = _
        rw [Function.update_self]
      · exact ⟨h₀, (hother (Ne.symm htid)).trans hloc, hapart⟩
    · by_cases htid : tid = .signal
      · subst htid
        rw [h.signal] at hn
        cases hn
        show Function.update c.loc .signal .signal .signal = _
        rw [Function.update_self]
      · exact (hother (Ne.symm htid)).trans h.signal
    · obtain ⟨t, hloc, hstop⟩ := h.main
      by_cases htid : tid = .main
      · subst htid
        rw [hloc] at hn
        obtain ⟨⟨a', k'⟩, hk, heq⟩ := Option.map_eq_some_iff.mp hn
        cases heq
        refine ⟨k' r, ?_, closing_next hk hx hstop⟩
        show Function.update c.loc .main (Thread.main (k' r)) .main = _
        rw [Function.update_self]
      · exact ⟨t, (hother (Ne.symm htid)).trans hloc, fun ht => exec_running hx (hstop ht)⟩

end

/-! ## Destruction -/

/-- A thread has been created for the session. -/
def System.Started (c : System) (i : Nat) (h : Handler) : Prop :=
  h.point = .unborn → ∃ d ∈ c.shared.conns, d.spawned = true ∧ d.id = i

/-- A component is destroyed when no thread that was created has an operation on it ahead. -/
def Vacant (P : Platform) (p : Process) : Deed → Prop
  | .destroy comp => ∀ i h, p.sys.handler i = some h → p.sys.Started i h → h.Clear P comp
  | .act _ => True

section
variable {P : Platform} {ok : Env → Prop} {p p' : Process} {d : Deed} {tr : List Deed}

/-- What holds of the process besides `Staffed`, once `server_destroy` is on its way. -/
structure Ending (P : Platform) (p : Process) : Prop where
  staffed : Staffed p.sys
  stopped : p.destroyed ≠ [] → p.sys.loc .main = .main .done ∧ p.sys.Left
  clear : ∀ comp ∈ p.destroyed, ∀ i h, p.sys.loc (.handler i) = .handler h → p.sys.Started i h → h.Clear P comp

theorem exec_started {i : Nat} {h : Handler} {c : System} {a : Act} {k : a.Ret → Handler} {e : Env} {r : a.Ret} {s' : Server}
    (hn : h.next P = some ⟨a, k⟩) (hx : exec P (.handler i) a e c.shared = some (r, s')) : c.Started i h := by
  intro hpoint
  unfold Handler.next at hn
  rw [hpoint] at hn
  cases hn
  obtain ⟨-, d, hd, -, hspawned, hid⟩ := exec_start hx
  exact ⟨d, hd, hspawned, (Tid.handler.inj hid).symm⟩

/-- Behind `server_shutdown` only handlers and the signal handler run. -/
theorem Ending.act {l : Label Tid Act.Ret} {c : System} (h : Ending P p) (hs : System.Step P ok p.sys l c) :
    Ending P { p with sys := c } ∧ ∀ comp ∈ p.destroyed, ∀ i, l.tid = .handler i → l.act.component ≠ some comp := by
  have hstaffed := h.staffed.step hs
  by_cases hnone : p.destroyed = []
  · have hempty : ∀ comp, comp ∉ p.destroyed := fun comp hcomp => by rw [hnone] at hcomp; cases hcomp
    exact ⟨⟨hstaffed, fun hne => absurd hnone hne, fun comp hcomp => absurd hcomp (hempty comp)⟩,
      fun comp hcomp => absurd hcomp (hempty comp)⟩
  obtain ⟨hmain, hleft⟩ := h.stopped hnone
  obtain ⟨t, ht, hstop⟩ := h.staffed.main
  obtain rfl : t = .done := Thread.main.inj (ht.symm.trans hmain)
  have hrun := hstop trivial
  cases hs with
  | @mk tid a k e r s' hn he hx =>
    have hother : ∀ {j : Tid}, j ≠ tid → Function.update p.sys.loc tid (k r) j = p.sys.loc j := fun hj => Function.update_of_ne hj ..
    have hne : Tid.main ≠ tid ∧ Tid.broadcaster ≠ tid := by
      constructor
      · rintro rfl
        rw [hmain] at hn
        cases hn
      · rintro rfl
        rw [hleft] at hn
        cases hn
    have hstopped : Function.update p.sys.loc tid (k r) .main = .main .done ∧
        Function.update p.sys.loc tid (k r) .broadcaster = .broadcaster .done :=
      ⟨(hother hne.1).trans hmain, (hother hne.2).trans hleft⟩
    cases tid with
    | main => exact absurd rfl hne.1
    | broadcaster => exact absurd rfl hne.2
    | signal =>
      rw [h.staffed.signal] at hn
      cases hn
      cases hx
      refine ⟨⟨hstaffed, fun _ => hstopped, ?_⟩, fun _ _ _ htid => by cases htid⟩
      intro comp hcomp i h₀ hloc hborn
      have hi : Tid.handler i ≠ .signal := by rintro ⟨⟩
      exact h.clear comp hcomp i h₀ ((hother hi).symm.trans hloc) hborn
    | handler j =>
      obtain ⟨h₀, hloc, hapart⟩ := h.staffed.handlers j
      rw [hloc] at hn
      obtain ⟨⟨a', k'⟩, hk, heq⟩ := Option.map_eq_some_iff.mp hn
      cases heq
      have hsub := exec_conns_sub (Handler.apart_next hapart hk).1 hx
      have hanswer : (⟨a', r⟩ : (a : Act) × a.Ret) ≠ ⟨.running, true⟩ := exec_not_running hx hrun
      have hclear : ∀ comp ∈ p.destroyed, a'.component ≠ some comp ∧ (k' r).Clear P comp := fun comp hcomp =>
        have hnext := Handler.clear_next (h.clear comp hcomp j h₀ hloc (exec_started hk hx)) hk
        ⟨hnext.1, hnext.2 r hanswer⟩
      refine ⟨⟨hstaffed, fun _ => hstopped, ?_⟩, fun comp hcomp _ _ => (hclear comp hcomp).1⟩
      intro comp hcomp i h₁ hloc' hborn
      by_cases hij : i = j
      · subst hij
        have hself : Thread.handler (k' r) = .handler h₁ := (Function.update_self ..).symm.trans hloc'
        cases hself
        exact (hclear comp hcomp).2
      · have hne : Tid.handler i ≠ .handler j := fun he => hij (Tid.handler.inj he)
        refine h.clear comp hcomp i h₁ ((hother hne).symm.trans hloc') fun hpoint => ?_
        obtain ⟨d, hd, hrest⟩ := hborn hpoint
        exact ⟨d, hsub d hd, hrest⟩

theorem Ending.step (h : Ending P p) (hs : Process.Step P ok p d p') (hv : Vacant P p d) : Ending P p' := by
  cases hs with
  | act hs => exact (h.act hs).1
  | @destroy comp rest hmain hleft hnext =>
    have hconns : (comp.destroy p.sys.shared).conns = p.sys.shared.conns := by cases comp <;> rfl
    have hrunning : (comp.destroy p.sys.shared).running = p.sys.shared.running := by cases comp <;> rfl
    refine ⟨⟨h.staffed.handlers, h.staffed.signal, ?_⟩, fun _ => ⟨hmain, hleft⟩, ?_⟩
    · obtain ⟨t, ht, hstop⟩ := h.staffed.main
      exact ⟨t, ht, fun hclosing => hrunning.trans (hstop hclosing)⟩
    · intro comp' hcomp i h₀ hloc hborn
      have hborn₀ : p.sys.Started i h₀ := fun hpoint => by
        obtain ⟨d, hd, hrest⟩ := hborn hpoint
        exact ⟨d, by rwa [← hconns], hrest⟩
      rcases List.mem_append.mp hcomp with hold | hnew
      · exact h.clear comp' hold i h₀ hloc hborn₀
      · obtain rfl := List.mem_singleton.mp hnew
        exact hv i h₀ (System.handler_eq.mpr hloc) hborn₀

theorem orderly_snoc (h : Orderly tr) (hd : ∀ comp, .destroy comp ∈ tr → ∀ i (a : Act) (r : a.Ret), d = .act ⟨.handler i, a, r⟩ →
    a.component ≠ some comp) : Orderly (tr ++ [d]) := by
  intro before comp behind heq i a r hmem
  rcases List.eq_nil_or_concat behind with rfl | ⟨behind', d', rfl⟩
  · cases hmem
  rw [List.concat_eq_append] at heq hmem
  obtain ⟨rfl, hlast⟩ := List.append_inj' (heq.trans (by simp : _ = (before ++ .destroy comp :: behind') ++ [d'])) rfl
  cases hlast
  rcases List.mem_append.mp hmem with hold | hnew
  · exact h before comp behind' rfl i a r hold
  · exact hd comp (List.mem_append_right _ (List.mem_cons_self ..)) i a r (List.mem_singleton.mp hnew).symm

/-- What the run has destroyed. -/
theorem destroyed_mem (hs : Process.Step P ok p d p') (h : ∀ comp, .destroy comp ∈ tr → comp ∈ p.destroyed) (comp : Component)
    (hmem : .destroy comp ∈ tr ++ [d]) : comp ∈ p'.destroyed := by
  cases hs with
  | act hs => exact h comp ((List.mem_append.mp hmem).resolve_right (by simp))
  | @destroy comp' rest =>
    rcases List.mem_append.mp hmem with hold | hnew
    · exact List.mem_append_left _ (h comp hold)
    · cases List.mem_singleton.mp hnew
      exact List.mem_append_right _ (List.mem_singleton_self _)

/-- **No handler uses a destroyed component**, in any run of the process where each
component is destroyed when every handler is done with it. -/
theorem destroyed_untouched {db : AuthDb}
    (hr : Run (fun p d p' => Process.Step P ok p d p' ∧ Vacant P p d) (Process.init db) tr p) : Orderly tr := by
  have h : Ending P p ∧ (∀ comp, .destroy comp ∈ tr → comp ∈ p.destroyed) ∧ Orderly tr := by
    induction hr with
    | nil =>
      refine ⟨⟨Staffed.init db, fun hne => absurd rfl hne, fun comp hcomp => ?_⟩, fun comp hmem => ?_, ?_⟩
      · cases hcomp
      · cases hmem
      · intro before comp behind heq
        exact absurd heq (by simp)
    | snoc _ hs ih =>
      obtain ⟨hending, hmem, horderly⟩ := ih
      refine ⟨hending.step hs.1 hs.2, destroyed_mem hs.1 hmem, orderly_snoc horderly ?_⟩
      rintro comp hcomp i a r rfl
      cases hs.1 with
      | act hstep => exact (hending.act hstep).2 comp (hmem comp hcomp) i rfl
  exact h.2.2

/-! ## Runs of the process -/

theorem run_acts {G : Process → Deed → Prop} {c c' : System} {tr : List (Label Tid Act.Ret)} (hr : Run (System.Step P ok) c tr c')
    (hG : ∀ p l, G p (.act l)) (destroyed : List Component) :
    Run (fun p d p' => Process.Step P ok p d p' ∧ G p d) ⟨c, destroyed⟩ (tr.map .act) ⟨c', destroyed⟩ := by
  induction hr with
  | nil => exact .nil
  | snoc _ hs ih =>
    rw [List.map_append]
    exact ih.snoc ⟨.act hs, hG _ _⟩

theorem run_serverDestroy {G : Process → Deed → Prop} {loc : Tid → Thread} {conns : List Conn} (hmain : loc .main = .main .done)
    (hleft : loc .broadcaster = .broadcaster .done)
    (hG : ∀ p comp, p.sys.loc = loc → p.sys.shared.conns = conns → G p (.destroy comp)) :
    ∀ (rest destroyed : List Component) (s : Server), destroyed ++ rest = serverDestroy → s.conns = conns →
      ∃ s', Run (fun p d p' => Process.Step P ok p d p' ∧ G p d) ⟨⟨s, loc⟩, destroyed⟩ (rest.map .destroy) ⟨⟨s', loc⟩, serverDestroy⟩
  | [], destroyed, s, hall, _ => by
    rw [List.append_nil] at hall
    exact ⟨s, by rw [hall]; exact .nil⟩
  | comp :: rest, destroyed, s, hall, hconns => by
    have hkept : (comp.destroy s).conns = conns := by cases comp <;> exact hconns
    obtain ⟨s', hr⟩ := run_serverDestroy hmain hleft hG rest (destroyed ++ [comp]) (comp.destroy s) (by rw [List.append_assoc]; exact hall) hkept
    have hfirst : Process.Step P ok ⟨⟨s, loc⟩, destroyed⟩ (.destroy comp) ⟨⟨comp.destroy s, loc⟩, destroyed ++ [comp]⟩ :=
      .destroy hmain hleft hall
    exact ⟨s', (Run.nil.snoc ⟨hfirst, hG _ comp rfl hconns⟩).trans hr⟩

/-- A reader that is logged in goes to the registry when its peer closes, whatever is left of the registry. -/
theorem reader_uses_registry {i : Nat} {h : Handler} {e : Env} (hok : ok e) (hline : e.line = none)
    (hloc : p.sys.loc (.handler i) = .handler h) (hread : h.point = .reading) (ha : h.authenticated = true) (hname : h.username ≠ []) :
    ∃ room p', Run (Process.Step P ok) p
      [.act ⟨.handler i, .recvLine h.fd, none⟩, .act ⟨.handler i, .registryGetRoom h.fd, room⟩] p' ∧ p'.destroyed = p.destroyed := by
  obtain ⟨k, hexit⟩ : ∃ k, h.exit = .act (.registryGetRoom h.fd) k := by
    unfold Handler.exit disconnectClient cmdDisconnectClient
    rw [if_pos ⟨ha, hname⟩]
    exact ⟨_, rfl⟩
  obtain ⟨k₁, hn₁, hk₁⟩ : ∃ k₁, h.next P = some ⟨.recvLine h.fd, k₁⟩ ∧ k₁ none = h.leave := by
    unfold Handler.next
    rw [hread]
    exact ⟨_, rfl, rfl⟩
  obtain ⟨k₂, hn₂⟩ : ∃ k₂, h.leave.next P = some ⟨.registryGetRoom h.fd, k₂⟩ := by
    unfold Handler.next
    rw [show h.leave.point = .busy .leave h.exit from rfl, hexit]
    exact ⟨_, rfl⟩
  have hnext₁ : (p.sys.loc (.handler i)).next P = some ⟨.recvLine h.fd, fun r => .handler (k₁ r)⟩ := by
    rw [hloc, Thread.next, hn₁]
    rfl
  have hnext₂ : (Function.update p.sys.loc (.handler i) (Thread.handler (k₁ none)) (.handler i)).next P =
      some ⟨.registryGetRoom h.fd, fun r => .handler (k₂ r)⟩ := by
    rw [Function.update_self, hk₁, Thread.next, hn₂]
    rfl
  have hx₁ : exec P (.handler i) (.recvLine h.fd) e p.sys.shared = some (none, p.sys.shared) := by
    show some (e.line.map cstr, p.sys.shared) = _
    rw [hline]
    rfl
  have hs₁ : System.Step P ok p.sys _ _ := .mk hnext₁ hok hx₁
  have hs₂ : System.Step P ok ⟨p.sys.shared, Function.update p.sys.loc (.handler i) (.handler (k₁ none))⟩ _ _ := .mk hnext₂ hok rfl
  have hd₁ := Process.Step.act hs₁
  have hd₂ := Process.Step.act (p := ⟨_, p.destroyed⟩) hs₂
  exact ⟨_, _, (Run.nil.snoc hd₁).snoc hd₂, rfl⟩

end

/-! ### `bob` is there when the server goes, or has left before -/

def hangUp (n : Nat) : List (Tid × Env) := List.replicate n (.handler 0, { sunny "" 0 0 with line := none })

theorem hungUp_terminated : ({ sunny "" 0 0 with line := none } : Env).Terminated :=
  have h := sunny_terminated "" 0 0
  ⟨h.node, h.username, h.room, h.content⟩

theorem hangUp_terminated (n : Nat) : ∀ q ∈ hangUp n, q.2.Terminated := by
  intro q hq
  rw [(List.mem_replicate.mp hq).2]
  exact hungUp_terminated

def Handler.reads (h : Handler) : Bool :=
  match h.point with
  | .reading => true
  | _ => false

theorem Handler.reads_iff {h : Handler} : h.reads = true ↔ h.point = .reading := by
  unfold Handler.reads
  split
  · rename_i hpoint
    exact iff_of_true rfl hpoint
  · rename_i hpoint
    exact iff_of_false Bool.false_ne_true hpoint

def Handler.gone (h : Handler) : Bool :=
  match h.point with
  | .done => true
  | _ => false

theorem Handler.clear_of_gone {P : Platform} {comp : Component} {h : Handler} (hg : h.gone = true) : h.Clear P comp := by
  unfold Handler.gone at hg
  unfold Handler.Clear Handler.remaining Handler.closing
  cases hpoint : h.point with
  | done => exact not_ahead_ret _
  | _ => rw [hpoint] at hg; cases hg

def ofFirst (l : Label Tid Act.Ret) : Bool :=
  match l.tid with
  | .handler i => i == 0
  | _ => true

theorem destroyed_untouched_bob : ∃ tr p, Run (fun p d p' => Process.Step passPlatform Env.Terminated p d p' ∧ Vacant passPlatform p d)
    (Process.init passDb) tr p ∧ p.destroyed = serverDestroy ∧ Orderly tr := by
  have hsunny : ∀ q ∈ logIn 0 5 "bob" ++ hangUp 9 ++ stopServer ++ casting 1, q.2.Terminated := by
    intro q hq
    simp only [List.mem_append] at hq
    rcases hq with ((hq | hq) | hq) | hq
    · exact sunny_logIn 0 5 "bob" q hq
    · exact hangUp_terminated 9 q hq
    · exact sunny_stopServer q hq
    · exact sunny_casting 1 q hq
  obtain ⟨tr, c, hr, hp⟩ := System.exists_run passPlatform Env.Terminated (System.init passDb) _ hsunny
    (p := fun q => leftBool q.2 && mainDone q.2 && (System.handler q.2 0).any Handler.gone && q.1.all ofFirst &&
      q.2.shared.conns.isEmpty) (by decide +kernel)
  simp only [Bool.and_eq_true, leftBool_iff, mainDone_iff, List.isEmpty_iff, List.all_eq_true] at hp
  obtain ⟨⟨⟨⟨hleft, hmain⟩, hgone⟩, hfirst⟩, hconns⟩ := hp
  obtain ⟨h₀, hh₀, hg⟩ := (Option.any_eq_true _ _).mp hgone
  have hvacant : ∀ (p : Process) comp, p.sys.loc = c.loc → p.sys.shared.conns = [] → Vacant passPlatform p (.destroy comp) := by
    intro p comp hloc hnone i h hh hborn
    rw [System.handler_eq, hloc] at hh
    by_cases hi : i = 0
    · subst hi
      obtain rfl : h₀ = h := Thread.handler.inj ((System.handler_eq.mp hh₀).symm.trans hh)
      exact Handler.clear_of_gone hg
    · have hsilent : c.loc (.handler i) = .handler .unborn := loc_of_silent hr fun l hl htid => by
        have hl' := hfirst l hl
        unfold ofFirst at hl'
        rw [htid] at hl'
        exact hi (beq_iff_eq.mp hl')
      obtain rfl : Handler.unborn = h := Thread.handler.inj (hsilent.symm.trans hh)
      obtain ⟨d, hd, -⟩ := hborn rfl
      rw [hnone] at hd
      cases hd
  have hacts := run_acts (G := Vacant passPlatform) hr (fun _ _ => trivial) []
  obtain ⟨s', hdestroy⟩ := run_serverDestroy hmain hleft hvacant serverDestroy [] c.shared rfl hconns
  have hrun := hacts.trans hdestroy
  exact ⟨_, _, hrun, rfl, destroyed_untouched hrun⟩

/-- `server_destroy` ends before `bob` hangs up; his handler then asks the destroyed registry for his room. -/
theorem registry_used_destroyed : ∃ tr p, Run (Process.Step passPlatform Env.Terminated) (Process.init passDb) tr p ∧
    p.destroyed = serverDestroy ∧ ¬ Orderly tr := by
  have hsunny : ∀ q ∈ logIn 0 5 "bob" ++ stopServer ++ casting 1, q.2.Terminated := by
    intro q hq
    simp only [List.mem_append] at hq
    rcases hq with (hq | hq) | hq
    · exact sunny_logIn 0 5 "bob" q hq
    · exact sunny_stopServer q hq
    · exact sunny_casting 1 q hq
  obtain ⟨tr, c, hr, hp⟩ := System.exists_run passPlatform Env.Terminated (System.init passDb) _ hsunny
    (p := fun q => leftBool q.2 && mainDone q.2 &&
      (System.handler q.2 0).any fun h => h.reads && h.authenticated && h.username == lit "bob") (by decide +kernel)
  simp only [Bool.and_eq_true, leftBool_iff, mainDone_iff] at hp
  obtain ⟨⟨hleft, hmain⟩, hany⟩ := hp
  obtain ⟨h, hh, hbob⟩ := (Option.any_eq_true _ _).mp hany
  simp only [Bool.and_eq_true, Handler.reads_iff, beq_iff_eq] at hbob
  obtain ⟨⟨hreads, ha⟩, hname⟩ := hbob
  have hacts := run_acts (G := fun _ _ => True) hr (fun _ _ => trivial) []
  obtain ⟨s', hdestroy⟩ := run_serverDestroy (G := fun _ _ => True) hmain hleft (fun _ _ _ _ => trivial) serverDestroy [] c.shared rfl rfl
  have hrun := hacts.trans hdestroy
  have hbob : h.username ≠ [] := by rw [hname]; decide
  obtain ⟨room, p', huse, hall⟩ := reader_uses_registry (P := passPlatform) (p := ⟨⟨s', c.loc⟩, serverDestroy⟩) hungUp_terminated rfl
    (System.handler_eq.mp hh) hreads ha hbob
  refine ⟨_, p', (hrun.mono fun _ _ _ hs => hs.1).trans huse, hall, fun horderly => ?_⟩
  refine horderly (tr.map .act ++ [.destroy .broadcastQueue]) .registry
    ([.destroy .rooms, .destroy .auth, .destroy .connLock] ++
      [.act ⟨.handler 0, .recvLine h.fd, none⟩, .act ⟨.handler 0, .registryGetRoom h.fd, room⟩]) ?_ 0 (.registryGetRoom h.fd) room ?_ rfl
  · rw [serverDestroy, List.append_assoc, List.append_assoc]
    rfl
  · exact List.mem_append_right _ (List.mem_cons_of_mem _ (List.mem_singleton_self _))

end ChatServer

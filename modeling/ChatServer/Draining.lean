import ChatServer.FanOut
import ChatServer.Routine

/-!
# The queue at shutdown

What the broadcaster pops it hands to the fan-out at once, and the sentinel of
`server_shutdown` never enters the queue, which is closed by then. So events
are lost in two ways only: the broadcaster finds `running` cleared while some
are queued, or one is queued after it has left. `server_shutdown` returns when
`pthread_join` does, in a state where the broadcaster is done.
-/

namespace ChatServer

open CStr Interleave Prog

/-! ## What is handed out -/

structure Cast where
  popped : Option MqMessage
  fannedOut : List MqMessage

def Cast.next (c : Cast) : (a : Act) → a.Ret → Cast
  | .mqPop, (r : ChatStatus × Option MqMessage) => { c with popped := r.2 }
  | .foreachFirst, _ => { popped := none, fannedOut := c.fannedOut ++ c.popped.toList }
  | _, _ => c

abbrev castOf (tr : List (Label Tid Act.Ret)) : Cast := monitor Cast.next .broadcaster { popped := none, fannedOut := [] } tr

/-- The events with which the broadcaster has started a walk along the registry. -/
def fannedOut (tr : List (Label Tid Act.Ret)) : List MqMessage := (castOf tr).fannedOut

def System.Left (c : System) : Prop := c.loc .broadcaster = .broadcaster .done

/-- Once the broadcaster has returned, it has handed out every event that was accepted. -/
def Drained (tr : List (Label Tid Act.Ret)) (c : System) : Prop := c.Left → (pushed tr).map Prod.snd = fannedOut tr

/-- The broadcaster finds `running` cleared only when nothing is queued, and nothing is accepted when it has left. -/
structure Drains (c : System) (l : Label Tid Act.Ret) : Prop where
  stops : l = ⟨.broadcaster, .running, false⟩ → c.shared.queue.msgs = []
  accepts : ∀ tid msg, l = ⟨tid, .mqPush msg, ChatStatus.ok⟩ → ¬ c.Left

/-! ## Every event has a line -/

theorem roomLine_fits {word : Bytes} (hw : word.length = 10) (msg : MqMessage) :
    (buildLine maxLineLen (word ++ cstr msg.username ++ lit " " ++ cstr msg.room ++ lit "\n")).1 = .ok := by
  have hu := cstr_length_le msg.username
  have hr := cstr_length_le msg.room
  rw [msg.username_length] at hu
  rw [msg.room_length] at hr
  simp only [maxUsernameLen, maxRoomNameLen] at hu hr
  rw [buildLine_fits]
  simp only [List.length_append, hw, show (lit " ").length = 1 by decide, show (lit "\n").length = 1 by decide, maxLineLen]
  omega

theorem eventLine_some (P : Platform) {msg : MqMessage} (h : msg.type ≠ .shutdown) : ∃ line, eventLine P msg = some line := by
  cases htype : msg.type with
  | shutdown => exact absurd htype h
  | chat => exact ⟨_, eventLine_chat htype⟩
  | join | roomJoin =>
    unfold eventLine
    rw [htype]
    exact ⟨_, if_pos (roomLine_fits (by decide) msg)⟩
  | leave | roomLeave =>
    unfold eventLine
    rw [htype]
    exact ⟨_, if_pos (roomLine_fits (by decide) msg)⟩

/-! ## The sentinel -/

def Act.pushes : Act → Bool
  | .mqPush _ => true
  | _ => false

/-- `main` pushes only what comes after `mq_signal_shutdown`. -/
def signalContract : Contract Act.Ret Bool where
  pre a signalled := a.pushes = true → signalled = true
  post a signalled _ signalled' := signalled' = (signalled || decide (a = .mqSignalShutdown))

def signalled (tr : List (Label Tid Act.Ret)) : Bool :=
  monitor (fun v a _ => v || decide (a = .mqSignalShutdown)) .main false tr

namespace Acceptor

def Signals (signalled : Bool) : Acceptor → Prop
  | .serving p | .closing p => Meets signalContract (fun _ _ => True) p signalled
  | _ => True

variable {v : Bool}

theorem serveConnection_signals (fd : Int) (id : Nat) : Meets signalContract (fun _ _ => True) (serveConnection fd id) v := by
  have hquiet : ∀ {a : Act}, a.pushes = false → ∀ w, signalContract.pre a w := by
    intro a ha w hp
    rw [ha] at hp
    cases hp
  have hclose : Only (fun a : Act => a.pushes = false) (Sys.close fd) := ⟨rfl, fun _ => trivial⟩
  have hdrop : Only (fun a : Act => a.pushes = false) (do Sys.close fd; Sys.connTrackDecrement) :=
    only_act rfl fun _ => ⟨rfl, fun _ => trivial⟩
  refine Only.meets (φ := fun a : Act => a.pushes = false) (fun a w ha => hquiet ha w) ?_
  unfold serveConnection
  refine only_act rfl fun (full : Bool) => ?_
  cases full with
  | true => exact Only.bind (fun _ => hclose) (sendAll_only fun _ => rfl)
  | false =>
    refine ⟨rfl, fun _ => only_act rfl fun (mem : Bool) => ?_⟩
    split
    · exact hdrop
    refine only_act rfl fun (ok : Bool) => ?_
    split
    · exact hdrop
    · trivial

theorem serverShutdown_signals : Meets signalContract (fun _ _ => True) serverShutdown v := by
  have hquiet : ∀ {a : Act}, a.pushes = false → ∀ w, signalContract.pre a w := by
    intro a ha w hp
    rw [ha] at hp
    cases hp
  refine meets_op (hquiet rfl v) fun _ v₁ _ => ?_
  refine meets_op (hquiet rfl v₁) fun _ v₂ _ => ?_
  refine meets_op (hquiet rfl v₂) fun msg v₃ _ => ?_
  refine meets_op (hquiet rfl v₃) fun _ v₄ hv => ?_
  have hsignalled : v₄ = true := hv.trans (by simp)
  exact ⟨fun _ => hsignalled, fun _ _ _ => trivial⟩

theorem serve_signals : ∀ {p : Cmd Unit}, Meets signalContract (fun _ _ => True) p v → (serve p).Signals v
  | .ret _, _ => trivial
  | .act _ _, hp => hp

theorem close_signals : ∀ {p : Cmd Unit}, Meets signalContract (fun _ _ => True) p v → (close p).Signals v
  | .ret _, _ => trivial
  | .act _ _, hp => hp

theorem signals_next {t : Acceptor} (ht : t.Signals v) {a : Act} {k : a.Ret → Acceptor} (hn : t.next = some ⟨a, k⟩) :
    (a.pushes = true → v = true) ∧ ∀ r, (k r).Signals (v || decide (a = .mqSignalShutdown)) := by
  cases t with
  | top =>
    cases hn
    refine ⟨nofun, fun (running : Bool) => ?_⟩
    cases running with
    | true => trivial
    | false => exact close_signals serverShutdown_signals
  | accepting =>
    cases hn
    refine ⟨nofun, fun (r : Option (Int × Nat)) => ?_⟩
    cases r with
    | none => trivial
    | some r => exact serve_signals (serveConnection_signals r.1 r.2)
  | serving p =>
    cases p with
    | ret => cases hn
    | act => cases hn; exact ⟨ht.1, fun r => serve_signals (ht.2 r _ rfl)⟩
  | closing p =>
    cases p with
    | ret => cases hn
    | act => cases hn; exact ⟨ht.1, fun r => close_signals (ht.2 r _ rfl)⟩
  | done => cases hn

end Acceptor

section
variable {P : Platform} {ok : Env → Prop} {db : AuthDb} {tr : List (Label Tid Act.Ret)} {c c' : System} {l : Label Tid Act.Ret}

/-- The queue never holds the sentinel: it is closed when `main` pushes it. -/
structure Sealed (tr : List (Label Tid Act.Ret)) (c : System) : Prop where
  main : ∃ t, c.loc .main = .main t ∧ t.Signals (signalled tr)
  closed : signalled tr = true → c.shared.queue.shutdown = true
  events : ∀ msg ∈ c.shared.queue.msgs, msg.type ≠ .shutdown

theorem Sealed.init (db : AuthDb) : Sealed [] (System.init db) := ⟨⟨.top, rfl, trivial⟩, nofun, nofun⟩

theorem exec_queue_cases {tid : Tid} {a : Act} {e : Env} {r : a.Ret} {s s' : Server} (hx : exec P tid a e s = some (r, s')) :
    (∃ msg, a = .mqPush msg ∧ s'.queue = (mqPush s.queue e.malloc msg).2) ∨ (a = .mqSignalShutdown ∧ s'.queue = mqSignalShutdown s.queue) ∨
      (a = .mqPop ∧ s'.queue.shutdown = s.queue.shutdown ∧ ∀ msg ∈ s'.queue.msgs, msg ∈ s.queue.msgs) ∨ s'.queue = s.queue := by
  cases a with
  | mqPush msg => cases hx; exact Or.inl ⟨msg, rfl, rfl⟩
  | mqSignalShutdown => cases hx; exact Or.inr (Or.inl ⟨rfl, rfl⟩)
  | mqPop =>
    refine Or.inr (Or.inr (Or.inl ⟨rfl, ?_⟩))
    simp only [exec] at hx
    cases hmsgs : s.queue.msgs with
    | cons msg rest =>
      simp only [mqPop, hmsgs] at hx
      cases hx
      exact ⟨rfl, fun _ hm => List.mem_cons_of_mem _ hm⟩
    | nil =>
      simp only [mqPop, hmsgs] at hx
      cases hsd : s.queue.shutdown with
      | true =>
        simp only [hsd, ite_true] at hx
        cases hx
        refine ⟨hsd, fun msg hm => ?_⟩
        rwa [hmsgs] at hm
      | false => simp only [hsd, Bool.false_eq_true, ite_false] at hx; cases hx
  | registryAdd => exact Or.inr (Or.inr (Or.inr (exec_registryAdd hx).2.1))
  | registryRemove | registrySetRoom | roomHistoryAdd => cases hx; exact Or.inr (Or.inr (Or.inr rfl))
  | _ => exact Or.inr (Or.inr (Or.inr (exec_sameChat rfl hx).2.2))

/-- What a handler or the broadcaster pushes is no sentinel. -/
theorem event_of_push (hc : Staged False tr c) (hs : System.Step P ok c l c') (htid : l.tid ≠ .main) {msg : MqMessage}
    (hl : l.act = .mqPush msg) : msg.type ≠ .shutdown := by
  obtain ⟨hp, -⟩ := hc.step hs
  have hsat := (hc.relies l.tid).sat
  have hphase := hp.phase
  have hat := hc.loc l.tid
  rw [hl] at hphase
  cases hs with
  | @mk tid a k e r s' hn he hx =>
    obtain rfl : a = .mqPush msg := hl
    change Sat tid _ _ at hsat
    change (stageOf tr tid).phase.pushes False msg at hphase
    cases hphase' : (stageOf tr tid).phase with
    | present fd u room =>
      rw [hphase'] at hphase
      rcases hphase with h | ⟨h, -⟩
      · rw [h]; nofun
      · rw [h]; nofun
    | entered | moved =>
      rw [hphase'] at hphase
      rw [hphase.1]
      nofun
    | ending =>
      rw [hphase'] at hsat
      cases tid with
      | main => exact absurd rfl htid
      | handler | broadcaster => cases hsat
      | signal =>
        change Thread.At False .signal _ (c.loc .signal) at hat
        cases hloc : c.loc .signal with
        | signal => rw [hloc] at hn; cases hn
        | main | broadcaster | handler => rw [hloc] at hat; cases hat
    | _ =>
      rw [hphase'] at hphase
      cases hphase

theorem Sealed.step (hc : Staged False tr c) (h : Sealed tr c) (hs : System.Step P ok c l c') : Sealed (tr ++ [l]) c' := by
  have hevent : ∀ {msg}, l.tid ≠ .main → l.act = .mqPush msg → msg.type ≠ .shutdown := fun htid hl => event_of_push hc hs htid hl
  obtain ⟨t, hloc, hsignals⟩ := h.main
  cases hs with
  | @mk tid a k e r s' hn he hx =>
    have hmain : ∃ t', Function.update c.loc tid (k r) .main = .main t' ∧ t'.Signals (signalled (tr ++ [⟨tid, a, r⟩])) ∧
        (tid = .main → a.pushes = true → signalled tr = true) := by
      by_cases htid : tid = .main
      · subst htid
        rw [hloc] at hn
        obtain ⟨⟨a', k'⟩, ht, heq⟩ := Option.map_eq_some_iff.mp hn
        cases heq
        obtain ⟨hpush, hk⟩ := Acceptor.signals_next hsignals ht
        refine ⟨k' r, Function.update_self .., ?_, fun _ => hpush⟩
        rw [signalled, monitor_own]
        exact hk r
      · refine ⟨t, (Function.update_of_ne (Ne.symm htid) ..).trans hloc, ?_, fun he => absurd he htid⟩
        rw [signalled, monitor_other htid]
        exact hsignals
    obtain ⟨t', hloc', hsignals', hpush⟩ := hmain
    have hsig : signalled (tr ++ [⟨tid, a, r⟩]) = true → signalled tr = true ∨ a = .mqSignalShutdown := by
      intro hsig
      by_cases htid : tid = .main
      · subst htid
        rw [signalled, monitor_own, Bool.or_eq_true, decide_eq_true_eq] at hsig
        exact hsig
      · rw [signalled, monitor_other htid] at hsig
        exact Or.inl hsig
    refine ⟨⟨t', hloc', hsignals'⟩, fun hs' => ?_, ?_⟩
    · rcases exec_queue_cases hx with ⟨msg, rfl, hq⟩ | ⟨rfl, hq⟩ | ⟨rfl, hq, -⟩ | hq
      · rw [hq]
        have hold := h.closed ((hsig hs').resolve_right nofun)
        unfold mqPush
        split
        · exact hold
        · exact hold
      · rw [hq]
        rfl
      · exact hq.trans (h.closed ((hsig hs').resolve_right nofun))
      · rcases hsig hs' with hold | rfl
        · rw [hq]
          exact h.closed hold
        · cases hx
          rfl
    · rcases exec_queue_cases hx with ⟨msg, rfl, hq⟩ | ⟨rfl, hq⟩ | ⟨rfl, -, hsub⟩ | hq
      · intro m hm
        rw [hq] at hm
        unfold mqPush at hm
        split at hm
        · exact h.events m hm
        split at hm
        · exact h.events m hm
        · rename_i hopen
          rcases List.mem_append.mp hm with hm | hm
          · exact h.events m hm
          · obtain rfl := List.mem_singleton.mp hm
            refine hevent (fun htid => ?_) rfl
            exact hopen (h.closed (hpush htid rfl))
      · rw [hq]
        exact h.events
      · exact fun m hm => h.events m (hsub m hm)
      · rw [hq]
        exact h.events

theorem run_sealed (hr : Run (System.Step P ok) (System.init db) tr c) : Sealed tr c :=
  hr.traced (fun hr hc hs => Sealed.step (run_staged (fun _ _ => False.elim) hr) hc hs) (Sealed.init db)

/-! ## The fan-out -/

/-- What is popped is handed out, but for an event whose walk is about to start. -/
structure HandsOut (tr : List (Label Tid Act.Ret)) (b : Broadcaster) : Prop where
  order : popped tr = fannedOut tr ++ (castOf tr).popped.toList
  idle : (castOf tr).popped = none ∨ ∃ room line, b = .first room line

theorem castOf_own (tr : List (Label Tid Act.Ret)) (a : Act) (r : a.Ret) :
    castOf (tr ++ [⟨.broadcaster, a, r⟩]) = (castOf tr).next a r := monitor_own ..

theorem HandsOut.quiet {b b' : Broadcaster} {a : Act} {r : a.Ret} (h : HandsOut tr b) (hpop : popOf ⟨.broadcaster, a, r⟩ = none)
    (hcast : (castOf tr).next a r = castOf tr) (hb : ∀ room line, b ≠ .first room line) :
    HandsOut (tr ++ [⟨.broadcaster, a, r⟩]) b' := by
  have hsame : castOf (tr ++ [⟨.broadcaster, a, r⟩]) = castOf tr := (castOf_own tr a r).trans hcast
  refine ⟨?_, Or.inl ?_⟩
  · rw [popped_quiet hpop, fannedOut, hsame]
    exact h.order
  · rw [hsame]
    exact h.idle.resolve_right fun ⟨room, line, hfirst⟩ => hb room line hfirst

theorem HandsOut.own {b : Broadcaster} (hs : Sealed tr c) (hcasts : Casts P tr b) (h : HandsOut tr b) {a : Act}
    {k : a.Ret → Broadcaster} (hn : b.next P = some ⟨a, k⟩) {e : Env} {r : a.Ret} {s' : Server}
    (hx : exec P .broadcaster a e c.shared = some (r, s')) : HandsOut (tr ++ [⟨.broadcaster, a, r⟩]) (k r) := by
  cases b with
  | top =>
    cases hn
    refine h.quiet rfl rfl fun _ _ hfirst => ?_
    cases hfirst
  | popping =>
    cases hn
    have hnone : (castOf tr).popped = none := by
      rcases h.idle with hnone | ⟨_, _, hfirst⟩
      · exact hnone
      · cases hfirst
    have hold := h.order
    rw [hnone, Option.toList_none, List.append_nil] at hold
    change ChatStatus × Option MqMessage at r
    obtain ⟨rc, msg⟩ := r
    have hpop : popped (tr ++ [⟨.broadcaster, .mqPop, (rc, msg)⟩]) = popped tr ++ msg.toList := popped_snoc _ _
    have hcast : castOf (tr ++ [⟨.broadcaster, .mqPop, (rc, msg)⟩]) = { castOf tr with popped := msg } := castOf_own ..
    refine ⟨?_, ?_⟩
    · rw [hpop, fannedOut, hcast, hold]
      rfl
    · rw [hcast]
      simp only [exec] at hx
      cases hmsgs : c.shared.queue.msgs with
      | nil =>
        simp only [mqPop, hmsgs] at hx
        cases hsd : c.shared.queue.shutdown with
        | true =>
          simp only [hsd, ite_true] at hx
          cases hx
          exact Or.inl rfl
        | false => simp only [hsd, Bool.false_eq_true, ite_false] at hx; cases hx
      | cons first rest =>
        simp only [mqPop, hmsgs] at hx
        cases hx
        have htype : first.type ≠ .shutdown := hs.events first (by rw [hmsgs]; exact List.mem_cons_self ..)
        obtain ⟨line, hline⟩ := eventLine_some P htype
        refine Or.inr ⟨first.room, line, ?_⟩
        show Broadcaster.onEvent P first = _
        unfold Broadcaster.onEvent
        rw [if_neg htype, hline]
  | first room line =>
    cases hn
    have hcast : castOf (tr ++ [⟨.broadcaster, .foreachFirst, r⟩]) =
        { popped := none, fannedOut := (castOf tr).fannedOut ++ (castOf tr).popped.toList } := castOf_own ..
    refine ⟨?_, ?_⟩
    · have hquiet : popped (tr ++ [⟨.broadcaster, .foreachFirst, r⟩]) = popped tr := popped_quiet rfl tr
      rw [hquiet, fannedOut, hcast]
      exact h.order.trans (List.append_nil _).symm
    · rw [hcast]
      exact Or.inl rfl
  | stepping room line cur =>
    cases hn
    refine h.quiet rfl rfl fun _ _ hfirst => ?_
    cases hfirst
  | sending room line cur p =>
    obtain ⟨-, fd, fuel, sent, rfl, hlt, hf⟩ := hcasts
    obtain ⟨k', hact, -⟩ := castLoop_act fd hlt (show 0 < fuel by omega)
    rw [hact] at hn
    cases hn
    refine h.quiet rfl rfl fun _ _ hfirst => ?_
    cases hfirst
  | done => cases hn

theorem run_handsOut (hr : Run (System.Step P ok) (System.init db) tr c) :
    ∃ b, c.loc .broadcaster = .broadcaster b ∧ HandsOut tr b := by
  induction hr with
  | nil => exact ⟨.top, rfl, rfl, Or.inl rfl⟩
  | @snoc c c' tr l hr hs ih =>
    obtain ⟨b, hb, hh⟩ := ih
    obtain ⟨b', hb', hcasts⟩ := run_casts hr
    obtain rfl : b' = b := Thread.broadcaster.inj (hb'.symm.trans hb)
    have hsealed := run_sealed hr
    have hpop := popOf_tid (run_staged (T := False) (fun _ _ => False.elim) hr) hs
    cases hs with
    | @mk tid a k e r s' hn he hx =>
      by_cases htid : tid = .broadcaster
      · subst htid
        rw [hb] at hn
        obtain ⟨⟨a', k'⟩, hk, heq⟩ := Option.map_eq_some_iff.mp hn
        cases heq
        refine ⟨k' r, ?_, hh.own hsealed hcasts hk hx⟩
        show Function.update c.loc .broadcaster (Thread.broadcaster (k' r)) .broadcaster = _
        rw [Function.update_self]
      · refine ⟨b', (Function.update_of_ne (Ne.symm htid) ..).trans hb, ?_, ?_⟩
        · rw [popped_quiet (hpop htid), fannedOut, castOf, monitor_other htid]
          exact hh.order
        · rw [castOf, monitor_other htid]
          exact hh.idle

/-- What the fan-out misses when the broadcaster is done is what is left in the queue. -/
theorem fannedOut_iff (hr : Run (System.Step P ok) (System.init db) tr c) (hleft : c.Left) :
    (pushed tr).map Prod.snd = fannedOut tr ↔ c.shared.queue.msgs = [] := by
  obtain ⟨b, hb, hh⟩ := run_handsOut hr
  obtain rfl : b = .done := Thread.broadcaster.inj (hb.symm.trans hleft)
  have hnone : (castOf tr).popped = none := hh.idle.resolve_right nofun
  have hpopped := hh.order
  rw [hnone, Option.toList_none, List.append_nil] at hpopped
  rw [pushed_eq hr, hpopped]
  exact ⟨fun h => List.append_cancel_left (h.trans (List.append_nil _).symm), fun h => by rw [h, List.append_nil]⟩

/-! ## Leaving -/

theorem visit_not_done (room line : Bytes) (node : Option ClientNode) : Broadcaster.visit room line node ≠ .done := by
  cases node with
  | none => nofun
  | some node =>
    show Broadcaster.afterCallback room line node.addr (sendToClient room line node) ≠ _
    cases sendToClient room line node with
    | act => nofun
    | ret rc =>
      show (if rc ≠ .ok then Broadcaster.top else .stepping room line node.addr) ≠ _
      split <;> nofun

/-- The broadcaster leaves when it finds `running` cleared, or the queue closed and empty. -/
theorem left_cases {b : Broadcaster} (hs : Sealed tr c) (hcasts : Casts P tr b) {a : Act} {k : a.Ret → Broadcaster}
    (hn : b.next P = some ⟨a, k⟩) {e : Env} {r : a.Ret} {s' : Server} (hx : exec P .broadcaster a e c.shared = some (r, s'))
    (hdone : k r = .done) :
    s'.queue = c.shared.queue ∧
      ((⟨.broadcaster, a, r⟩ : Label Tid Act.Ret) = ⟨.broadcaster, .running, false⟩ ∨ c.shared.queue.msgs = []) := by
  cases b with
  | top =>
    cases hn
    cases hx
    refine ⟨rfl, Or.inl ?_⟩
    cases hrun : c.shared.running with
    | false => rfl
    | true => rw [hrun] at hdone; cases hdone
  | popping =>
    cases hn
    simp only [exec] at hx
    cases hmsgs : c.shared.queue.msgs with
    | nil =>
      simp only [mqPop, hmsgs] at hx
      cases hsd : c.shared.queue.shutdown with
      | true =>
        simp only [hsd, ite_true] at hx
        cases hx
        exact ⟨rfl, Or.inr rfl⟩
      | false => simp only [hsd, Bool.false_eq_true, ite_false] at hx; cases hx
    | cons first rest =>
      simp only [mqPop, hmsgs] at hx
      cases hx
      have htype : first.type ≠ .shutdown := hs.events first (by rw [hmsgs]; exact List.mem_cons_self ..)
      obtain ⟨line, hline⟩ := eventLine_some P htype
      change Broadcaster.onEvent P first = _ at hdone
      unfold Broadcaster.onEvent at hdone
      rw [if_neg htype, hline] at hdone
      cases hdone
  | first room line =>
    cases hn
    exact absurd hdone (visit_not_done room line r)
  | stepping room line cur =>
    cases hn
    exact absurd hdone (visit_not_done room line r)
  | sending room line cur p =>
    cases p with
    | ret => cases hn
    | act a k =>
      cases hn
      change Broadcaster.afterCallback room line cur (k r) = .done at hdone
      cases hk : k r with
      | act => rw [hk] at hdone; cases hdone
      | ret rc =>
        rw [hk] at hdone
        change (if rc ≠ .ok then Broadcaster.top else .stepping room line cur) = .done at hdone
        split at hdone <;> cases hdone
  | done => cases hn

theorem left_step (hs : System.Step P ok c l c') (hleft : c.Left) : c'.Left ∧ l.tid ≠ .broadcaster := by
  cases hs with
  | @mk tid a k e r s' hn he hx =>
    have htid : tid ≠ .broadcaster := by
      rintro rfl
      rw [hleft] at hn
      cases hn
    exact ⟨(Function.update_of_ne (Ne.symm htid) ..).trans hleft, htid⟩

theorem Drains.empties (hr : Run (System.Step P ok) (System.init db) tr c) (hs : System.Step P ok c l c') (hd : Drains c l)
    (hold : c.Left → c.shared.queue.msgs = []) (hleft' : c'.Left) : c'.shared.queue.msgs = [] := by
  have hqueue := step_queue hs
  by_cases hleft : c.Left
  · have hpush : pushOf l = none := by
      cases h : pushOf l with
      | none => rfl
      | some q =>
        obtain ⟨tid, a, r⟩ := l
        cases a with
        | mqPush msg =>
          change ChatStatus at r
          obtain ⟨hok, -⟩ := Option.ite_none_right_eq_some.mp (show (if r = .ok then some (tid, msg) else none) = some q from h)
          exact absurd hleft (hd.accepts tid msg (by rw [hok]))
        | _ => cases h
    have hpop := popOf_tid (run_staged (T := False) (fun _ _ => False.elim) hr) hs (left_step hs hleft).2
    rw [hold hleft, hpush, hpop] at hqueue
    exact hqueue.symm
  · obtain ⟨b, hb, hcasts⟩ := run_casts hr
    have hsealed := run_sealed hr
    cases hs with
    | @mk tid a k e r s' hn he hx =>
      have htid : tid = .broadcaster := by
        by_contra hne
        exact hleft ((Function.update_of_ne (Ne.symm hne) ..).symm.trans hleft')
      subst htid
      rw [hb] at hn
      obtain ⟨⟨a', k'⟩, hk, heq⟩ := Option.map_eq_some_iff.mp hn
      cases heq
      have hdone : k' r = .done := by
        have h : Function.update c.loc .broadcaster (Thread.broadcaster (k' r)) .broadcaster = .broadcaster .done := hleft'
        rw [Function.update_self] at h
        exact Thread.broadcaster.inj h
      obtain ⟨hq, hwhy⟩ := left_cases hsealed hcasts hk hx hdone
      show s'.queue.msgs = []
      rw [hq]
      rcases hwhy with hstop | hempty
      · exact hd.stops hstop
      · exact hempty

/-- The step that breaks the condition leaves something behind. -/
theorem Drains.of_drained (hr : Run (System.Step P ok) (System.init db) tr c) (hs : System.Step P ok c l c')
    (hd : Drained (tr ++ [l]) c') : Drains c l := by
  have hempty : c'.Left → c'.shared.queue.msgs = [] := fun hleft => (fannedOut_iff (hr.snoc hs) hleft).mp (hd hleft)
  have hqueue := step_queue hs
  refine ⟨?_, ?_⟩
  · rintro rfl
    obtain ⟨b, hb, hcasts⟩ := run_casts hr
    cases hs with
    | @mk _ _ k e _ s' hn he hx =>
      rw [hb] at hn
      obtain ⟨⟨a', k'⟩, hk, heq⟩ := Option.map_eq_some_iff.mp hn
      have hdone : (Function.update c.loc .broadcaster (k false)) .broadcaster = .broadcaster .done := by
        rw [Function.update_self]
        cases b with
        | top => cases hk; cases heq; rfl
        | popping | first | stepping => cases hk; cases heq
        | done => cases hk
        | sending room line cur p =>
          obtain ⟨-, fd, fuel, sent, rfl, hlt, hf⟩ := hcasts
          obtain ⟨k'', hact, -⟩ := castLoop_act fd hlt (show 0 < fuel by omega)
          rw [hact] at hk
          cases hk
          cases heq
      rw [hempty hdone] at hqueue
      rw [List.append_nil] at hqueue
      exact (List.append_eq_nil_iff.mp hqueue).1
  · rintro tid msg rfl hleft
    rw [hempty (left_step hs hleft).1] at hqueue
    have h : c.shared.queue.msgs ++ [msg] = [] := hqueue
    exact absurd h (by simp)

/-- **Accepted events survive shutdown** as long as the broadcaster never finds `running` cleared
before the queue is empty and nothing is accepted behind its back; the first step that is not so loses one. -/
theorem events_drained (hr : Run (fun c l c' => System.Step P ok c l c' ∧ Drains c l) (System.init db) tr c) :
    Drained tr c ∧ ∀ l c', System.Step P ok c l c' → (Drained (tr ++ [l]) c' ↔ Drains c l) := by
  have hempty : (Run (System.Step P ok) (System.init db) tr c) ∧ (c.Left → c.shared.queue.msgs = []) := by
    induction hr with
    | nil => exact ⟨.nil, fun _ => rfl⟩
    | snoc _ hs ih => exact ⟨ih.1.snoc hs.1, hs.2.empties ih.1 hs.1 ih.2⟩
  obtain ⟨hrun, hempty⟩ := hempty
  refine ⟨fun hleft => (fannedOut_iff hrun hleft).mpr (hempty hleft), fun l c' hs => ?_⟩
  exact ⟨Drains.of_drained hrun hs, fun hd hleft => (fannedOut_iff (hrun.snoc hs) hleft).mpr (hd.empties hrun hs hempty hleft)⟩

end

/-! ### `bob` is there when the server stops -/

def leftBool (c : System) : Bool :=
  match c.loc .broadcaster with
  | .broadcaster .done => true
  | _ => false

theorem leftBool_iff {c : System} : leftBool c = true ↔ c.Left := by
  unfold leftBool System.Left
  split
  · rename_i h
    exact iff_of_true rfl h
  · rename_i h
    exact iff_of_false nofun h

def stopsOn : Label Tid Act.Ret → Bool
  | ⟨.broadcaster, .running, running⟩ => !running
  | _ => false

def drainsBool (c : System) (l : Label Tid Act.Ret) (_ : System) : Bool := !stopsOn l && !((pushOf l).isSome && leftBool c)

theorem drains_of_bool {c c' : System} {l : Label Tid Act.Ret} (h : drainsBool c l c' = true) : Drains c l := by
  simp only [drainsBool, Bool.and_eq_true, Bool.not_eq_true', Bool.and_eq_false_iff] at h
  refine ⟨?_, ?_⟩
  · rintro rfl
    cases h.1
  · rintro tid msg rfl hleft
    rcases h.2 with hpush | hleft'
    · cases hpush
    · rw [leftBool_iff.mpr hleft] at hleft'
      cases hleft'

def stopServer : List (Tid × Env) := (.signal, sunny "" 0 0) :: List.replicate 6 (.main, sunny "" 0 0)

def casting (n : Nat) : List (Tid × Env) := List.replicate n (.broadcaster, sunny "" 0 0)

theorem sunny_of_map {es : List (Tid × Env)} (h : ∀ p ∈ es, p.2 = sunny "" 0 0) : ∀ p ∈ es, p.2.Terminated := by
  intro p hp
  rw [h p hp]
  exact sunny_terminated _ _ _

theorem sunny_stopServer : ∀ p ∈ stopServer, p.2.Terminated := sunny_of_map (by simp [stopServer])

theorem sunny_casting (n : Nat) : ∀ p ∈ casting n, p.2.Terminated := sunny_of_map (by simp [casting])

theorem events_drained_bob : ∃ tr c, Run (fun c l c' => System.Step passPlatform Env.Terminated c l c' ∧ Drains c l)
    (System.init passDb) tr c ∧ c.Left ∧ (fannedOut tr).length = 1 ∧ (pushed tr).map Prod.snd = fannedOut tr := by
  have hsunny : ∀ p ∈ logIn 0 5 "bob" ++ casting 6 ++ stopServer ++ casting 1, p.2.Terminated := by
    intro p hp
    simp only [List.mem_append] at hp
    rcases hp with ((hp | hp) | hp) | hp
    · exact sunny_logIn 0 5 "bob" p hp
    · exact sunny_casting 6 p hp
    · exact sunny_stopServer p hp
    · exact sunny_casting 1 p hp
  have hguard : (guarded (Thread.next passPlatform) (exec passPlatform) drainsBool (System.init passDb)
      (logIn 0 5 "bob" ++ casting 6 ++ stopServer ++ casting 1)).any
        (fun q => leftBool q.2 && (fannedOut q.1).length == 1) = true := by decide +kernel
  obtain ⟨tr, c, hr, hp⟩ := System.exists_guarded passPlatform Env.Terminated (System.init passDb) _ hsunny hguard
  rw [Bool.and_eq_true, leftBool_iff, beq_iff_eq] at hp
  have hrun := hr.mono fun c l c' (h : System.Step _ _ c l c' ∧ drainsBool c l c' = true) =>
    (⟨h.1, drains_of_bool h.2⟩ : System.Step _ _ c l c' ∧ Drains c l)
  exact ⟨tr, c, hrun, hp.1, hp.2, (events_drained hrun).1 hp.1⟩

def mainDone (c : System) : Bool :=
  match c.loc .main with
  | .main .done => true
  | _ => false

theorem mainDone_iff {c : System} : mainDone c = true ↔ c.loc .main = .main .done := by
  unfold mainDone
  split
  · rename_i h
    exact iff_of_true rfl h
  · rename_i h
    exact iff_of_false Bool.false_ne_true h

/-- `bob` is told that his message was sent, and the broadcaster leaves without a look at the queue. -/
theorem event_lost : ∃ tr c, Run (System.Step passPlatform Env.Terminated) (System.init passDb) tr c ∧ c.loc .main = .main .done ∧
    (∃ q ∈ pushed tr, q.1 = .handler 0 ∧ q.2.type = .chat) ∧ fannedOut tr = [] ∧ ¬ Drained tr c := by
  have hsunny : ∀ p ∈ logIn 0 5 "bob" ++ List.replicate 9 (.handler 0, sunny "MSG hi" 0 0) ++ stopServer ++ casting 1,
      p.2.Terminated := by
    intro p hp
    simp only [List.mem_append] at hp
    rcases hp with ((hp | hp) | hp) | hp
    · exact sunny_logIn 0 5 "bob" p hp
    · rw [(List.mem_replicate.mp hp).2]
      exact sunny_terminated _ _ _
    · exact sunny_stopServer p hp
    · exact sunny_casting 1 p hp
  obtain ⟨tr, c, hr, hp⟩ := System.exists_run passPlatform Env.Terminated (System.init passDb) _ hsunny
    (p := fun q => leftBool q.2 && mainDone q.2 &&
      ((pushed q.1).any fun p => p.1 == .handler 0 && p.2.type == .chat) && (fannedOut q.1).isEmpty) (by decide +kernel)
  simp only [Bool.and_eq_true, leftBool_iff, mainDone_iff, List.any_eq_true, beq_iff_eq, List.isEmpty_iff] at hp
  obtain ⟨⟨⟨hleft, hmain⟩, q, hq, htid, htype⟩, hnone⟩ := hp
  refine ⟨tr, c, hr, hmain, ⟨q, hq, htid, htype⟩, hnone, fun hd => ?_⟩
  have h := hd hleft
  rw [hnone, List.map_eq_nil_iff] at h
  rw [h] at hq
  cases hq

end ChatServer

import ChatServer.CommandStages
import ChatServer.ThreadsSound

/-!
# Every thread at its stage

`At` says where in its code a thread of a given stage stands. The stage is
what a monitor of the thread's actions has reached, so the rule for watched
interleavings makes both hold in every run.
-/

namespace ChatServer

open CStr Interleave Prog

/-! ## Handlers -/

namespace Handler

/-- Between two commands. -/
def Home (h : Handler) (σ : Stage) : Prop :=
  (if h.authenticated then ∃ room, σ.phase = .present h.fd h.username room else σ.phase = .fresh h.fd) ∧ σ.errand.Open

def At (T : Prop) (σ : Stage) (h : Handler) : Prop :=
  h.Ready ∧
  match h.point with
  | .unborn => h.authenticated = false ∧ Settled .unborn () σ
  | .top | .reading => h.Home σ
  | .busy .command p => Meets (stageContract T) (fun _ => h.Home) p σ
  | .busy (.auth u) p => h.authenticated = false ∧ NameLike u ∧ Meets (stageContract T) (AuthStage h.fd u) p σ
  | .busy .leave p => Meets (stageContract T) (Settled .ended) p σ
  | .done => Settled .ended () σ

section
variable {T : Prop} {h : Handler} {σ : Stage}

theorem home_present {room : Bytes} {q : Errand} (ha : h.authenticated = true) (hq : q.Open) :
    h.Home ⟨.present h.fd h.username room, q⟩ := by
  refine ⟨?_, hq⟩
  rw [if_pos ha]
  exact ⟨room, rfl⟩

theorem home_fresh {q : Errand} (ha : h.authenticated = false) (hq : q.Open) : h.Home ⟨.fresh h.fd, q⟩ := by
  refine ⟨?_, hq⟩
  rw [ha]
  rfl

variable (hr : h.Ready)
include hr

theorem leave_at (hh : h.Home σ) : h.leave.At T σ := by
  obtain ⟨p, q⟩ := σ
  obtain ⟨hp, hq⟩ := hh
  refine ⟨hr, disconnectClient_ends ?_⟩
  cases ha : h.authenticated with
  | true =>
    rw [ha] at hp
    obtain ⟨room, rfl⟩ : ∃ room, p = .present h.fd h.username room := hp
    exact cmdDisconnectClient_present (hr ha).1 (hr ha).2 hq
  | false =>
    rw [ha] at hp
    obtain rfl : p = .fresh h.fd := hp
    exact cmdDisconnectClient_absent (Or.inl rfl) hq h.username

theorem enter_command_at : ∀ {p : Cmd ChatStatus}, Meets (stageContract T) (fun _ => h.Home) p σ →
    (h.enter .command p).At T σ
  | .act _ _, hp => ⟨hr, hp⟩
  | .ret rc, hh => by
    show (if rc ≠ .ok then h.leave else { h with point := .top }).At T σ
    split
    · exact leave_at hr hh
    · exact ⟨hr, hh⟩

theorem enter_auth_at (ha : h.authenticated = false) {u : Bytes} (hu : NameLike u) :
    ∀ {p : Cmd ChatStatus}, Meets (stageContract T) (AuthStage h.fd u) p σ → (h.enter (.auth u) p).At T σ
  | .act _ _, hp => ⟨hr, ha, hu, hp⟩
  | .ret rc, ⟨hok, hfail, hq⟩ => by
    by_cases hrc : rc = .ok
    · subst hrc
      obtain ⟨hne, hphase⟩ := hok rfl
      have hl := hu.2
      simp only [maxUsernameLen] at hl
      have hcopy : cstr (copyField (zeros maxUsernameLen) u maxUsernameLen) = u := by
        refine (cstr_copyField (n := 31) (zeros_length _) u).trans ?_
        rw [cstr_of_nulFree hu.1, List.take_of_length_le (by omega)]
      show At T σ { h with authenticated := true, username := _, point := .top }
      rw [hcopy]
      exact ⟨fun _ => ⟨hu, hne⟩, ⟨defaultRoom, hphase⟩, hq⟩
    · show (if rc ≠ .ok then h.leave else _).At T σ
      rw [if_pos hrc]
      obtain ⟨p, q⟩ := σ
      refine ⟨hr, ?_⟩
      show Meets _ _ (disconnectClient h.fd h.username h.authenticated) _
      rw [ha]
      refine disconnectClient_ends (cmdDisconnectClient_absent ?_ hq h.username)
      exact (hfail hrc).imp_right fun hp => ⟨u, hp⟩

omit hr in
theorem enter_leave_at (hr : h.Ready) : ∀ {p : Cmd ChatStatus}, Meets (stageContract T) (Settled .ended) p σ →
    (h.enter .leave p).At T σ
  | .act _ _, hp => ⟨hr, hp⟩
  | .ret _, hp => ⟨hr, hp⟩

theorem refuse_at (hh : h.Home σ) (msg : String) : (h.refuse msg).At T σ := by
  obtain ⟨p, q⟩ := σ
  have hon : p.view.On h.fd := by
    have hp := hh.1
    split at hp
    · obtain ⟨room, rfl⟩ : ∃ room, p = .present h.fd h.username room := hp
      rfl
    · obtain rfl : p = .fresh h.fd := hp
      rfl
  apply enter_command_at hr
  refine (cmdSendResponse_meets hon (err_reply _) (Or.inl hh.2)).mono ?_
  rintro _ ⟨p', q'⟩ ⟨rfl, hq'⟩
  exact ⟨hh.1, hq'⟩

theorem dispatch_at (P : Platform) {line : Bytes} (h0 : 0 ∉ line) {p : Phase} (hh : h.Home ⟨p, Errand.heard (some line)⟩) :
    (h.dispatch P line).At T ⟨p, Errand.heard (some line)⟩ := by
  obtain ⟨hp, hq⟩ := id hh
  unfold dispatch
  rcases hparse : protocolParseClientLine line with ⟨rc, cmd⟩
  simp only
  split
  · exact refuse_at hr hh _
  rename_i hrc
  rw [not_not] at hrc
  subst hrc
  have hreq := parse_client_sound h0 hparse
  split
  · rename_i hauth
    have ha : h.authenticated = false := by simpa using hauth
    rw [ha] at hp
    obtain rfl : p = .fresh h.fd := hp
    split
    · exact refuse_at hr hh _
    · rename_i hcmd
      rw [not_not] at hcmd
      rw [hcmd] at hreq
      have hu : NameLike (cstr cmd.arg1) := ⟨nul_not_mem_cstr _, by cases hreq with | auth hn _ => exact hn.length_lt⟩
      exact enter_auth_at hr ha hu (cmdHandleAuth_stage hu _ hq)
  · rename_i hauth
    have ha : h.authenticated = true := by simpa using hauth
    rw [ha] at hp
    obtain ⟨room, rfl⟩ : ∃ room, p = .present h.fd h.username room := hp
    obtain ⟨hu, -⟩ := hr ha
    have run : ∀ {x : Cmd ChatStatus}, Meets (stageContract T) (AtHome h.fd h.username) x
        ⟨.present h.fd h.username room, Errand.heard (some line)⟩ →
        (h.enter .command x).At T ⟨.present h.fd h.username room, Errand.heard (some line)⟩ := by
      intro x hx
      apply enter_command_at hr
      refine hx.mono ?_
      rintro _ ⟨p', q'⟩ ⟨⟨room', rfl⟩, hq'⟩
      exact home_present ha hq'
    have stay : ∀ {x : Cmd ChatStatus}, Meets (stageContract T) (Settled (.present h.fd h.username room)) x
        ⟨.present h.fd h.username room, Errand.heard (some line)⟩ →
        (h.enter .command x).At T ⟨.present h.fd h.username room, Errand.heard (some line)⟩ :=
      fun hx => run (hx.mono fun _ _ hs => ⟨⟨room, hs.1⟩, hs.2⟩)
    split
    · rename_i hcmd
      rw [hcmd] at hreq
      generalize cstr cmd.arg2 = arg2 at hreq
      have hroom : RoomLike (cstr cmd.arg1) := ⟨nul_not_mem_cstr _, by cases hreq with | joinRoom hf => exact hf.length_lt⟩
      exact run (cmdHandleJoinRoom_meets hu hq fun _ => hroom)
    · rename_i hcmd
      rw [hcmd] at hreq
      generalize cstr cmd.arg1 = arg1 at hreq
      have hf : Field maxMsgLen (cstr cmd.arg2) := by cases hreq with | msg hf => exact hf
      have htext : TextLike (cstr cmd.arg2) := ⟨nul_not_mem_cstr _, List.length_pos_iff.mpr hf.ne_nil, hf.length_lt⟩
      have hheard : Errand.heard (some line) = .asked (cstr cmd.arg2) := by
        simp only [Errand.heard, hparse, hcmd, and_self, ite_true]
      rw [hheard] at stay ⊢
      exact stay (cmdHandleMsg_meets hu htext)
    · rename_i hcmd
      rw [hcmd] at hreq
      have ht : NameLike (cstr cmd.arg1) := ⟨nul_not_mem_cstr _, by cases hreq with | pm hn _ => exact hn.length_lt⟩
      have hc : (cstr cmd.arg2).length < maxMsgLen := by cases hreq with | pm _ hf => exact hf.length_lt
      exact stay (cmdHandlePm_meets hu hq P ht hc)
    · exact stay (cmdHandleList_meets hq)
    · exact stay (cmdHandleHistory_meets hq)
    · rename_i hcmd
      rw [hcmd] at hreq
      generalize cstr cmd.arg2 = arg2 at hreq
      have ht : NameLike (cstr cmd.arg1) := ⟨nul_not_mem_cstr _, by cases hreq with | kick hf => exact hf.length_lt⟩
      exact stay (cmdHandleKick_meets hq ht)
    · exact leave_at hr hh
    · exact refuse_at hr hh _

end

theorem heard_open (r : Option Bytes) : (Errand.heard r).Open := by
  unfold Errand.heard
  split
  · trivial
  · simp only
    split <;> trivial

/-- The next action is permitted, and its answer leads to where the next stage belongs. -/
theorem at_next {T : Prop} {P : Platform} {h : Handler} {σ : Stage} (hat : h.At T σ) {a : Act} {k : a.Ret → Handler}
    (hn : h.next P = some ⟨a, k⟩) : σ.permits T a ∧ ∀ r, σ.tells T a r → (k r).At T (σ.next a r) := by
  obtain ⟨hr, hp⟩ := hat
  have home_next : ∀ {p : Phase} {q : Errand}, h.Home ⟨p, q⟩ → ∀ running : Bool, p.onRunning running = p := by
    rintro p q ⟨hp, -⟩ running
    split at hp
    · obtain ⟨room, rfl⟩ : ∃ room, p = .present h.fd h.username room := hp
      rfl
    · obtain rfl : p = .fresh h.fd := hp
      rfl
  unfold next at hn
  cases hpoint : h.point with
  | unborn =>
    rw [hpoint] at hn hp
    cases hn
    obtain ⟨ha, hphase, hq⟩ := hp
    obtain ⟨p, q⟩ := σ
    obtain rfl : p = .unborn := hphase
    refine ⟨⟨rfl, trivial, hq⟩, fun fd _ => ⟨fun hau => ?_, ?_⟩⟩
    · exact absurd (ha.symm.trans hau) nofun
    · exact @home_fresh { h with fd := fd, point := .top } q ha hq
  | top =>
    rw [hpoint] at hn hp
    cases hn
    obtain ⟨p, q⟩ := σ
    refine ⟨⟨by cases p.view <;> trivial, trivial, hp.2⟩, ?_⟩
    rintro (running : Bool) -
    have hsame : Stage.next ⟨p, q⟩ .running running = ⟨p, q⟩ := congrArg (Stage.mk · q) (home_next hp running)
    rw [hsame]
    cases running with
    | true => exact ⟨hr, hp⟩
    | false => exact leave_at hr hp
  | reading =>
    rw [hpoint] at hn hp
    cases hn
    obtain ⟨p, q⟩ := σ
    refine ⟨⟨by cases p.view <;> trivial, trivial, hp.2⟩, ?_⟩
    rintro (line : Option Bytes) ht
    have hh : h.Home ⟨p, Errand.heard line⟩ := ⟨hp.1, heard_open line⟩
    cases line with
    | none => exact leave_at hr hh
    | some line => exact dispatch_at (h := { h with target := none }) hr P (ht line rfl) hh
  | done => rw [hpoint] at hn; cases hn
  | busy cont p =>
    cases p with
    | ret => rw [hpoint] at hn; cases hn
    | act b kb =>
      rw [hpoint] at hn hp
      cases hn
      cases cont with
      | command =>
        obtain ⟨ha, hk⟩ := hp
        refine ⟨ha, fun r ht => ?_⟩
        obtain ⟨t, he⟩ := h.note_eq a r
        show At T _ ((h.note a r).enter .command (kb r))
        rw [he]
        exact enter_command_at (h := { h with target := t }) hr (hk r _ ⟨rfl, ht⟩)
      | auth u =>
        obtain ⟨hau, hu, ha, hk⟩ := hp
        refine ⟨ha, fun r ht => ?_⟩
        obtain ⟨t, he⟩ := h.note_eq a r
        show At T _ ((h.note a r).enter (.auth u) (kb r))
        rw [he]
        exact enter_auth_at (h := { h with target := t }) hr hau hu (hk r _ ⟨rfl, ht⟩)
      | leave =>
        obtain ⟨ha, hk⟩ := hp
        refine ⟨ha, fun r ht => ?_⟩
        obtain ⟨t, he⟩ := h.note_eq a r
        show At T _ ((h.note a r).enter .leave (kb r))
        rw [he]
        exact enter_leave_at (h := { h with target := t }) hr (hk r _ ⟨rfl, ht⟩)

end Handler

/-! ## The accept loop -/

namespace Acceptor

def At (T : Prop) (σ : Stage) : Acceptor → Prop
  | .top | .accepting => Settled .idle () σ
  | .serving p => Meets (stageContract T) (Settled .idle) p σ
  | .closing p => Meets (stageContract T) (Settled .ending) p σ
  | .done => Settled .ending () σ

section
variable {T : Prop} {σ : Stage} {fd : Int} {id : Nat} {q : Errand}

theorem drop_meets (hq : q.Open) : Meets (stageContract T) (Settled .idle)
    (do Sys.close fd; Sys.connTrackDecrement) ⟨.counted fd id, q⟩ := by
  refine meets_op ⟨rfl, rfl, hq⟩ ?_
  rintro _ σ' ⟨rfl, -⟩
  refine ⟨⟨trivial, Or.inr ⟨id, rfl⟩, hq⟩, ?_⟩
  rintro _ σ' ⟨rfl, -⟩
  exact ⟨rfl, hq⟩

theorem serveConnection_stage (hq : q.Open) :
    Meets (stageContract T) (Settled .idle) (serveConnection fd id) ⟨.accepted fd id, q⟩ := by
  unfold serveConnection
  refine meets_op ⟨trivial, ⟨fd, id, rfl⟩, hq⟩ ?_
  rintro (full : Bool) σ' ⟨rfl, -⟩
  cases full with
  | true =>
    have hl := err_reply (lit "server full (max 100 clients)")
    refine Settled.bind (p := .refused fd id) (sendAll_meets (fun _ => ⟨rfl, hl.notPm⟩) (Or.inr hl.notBroadcast) hl.nonempty
      (Or.inl hq)) fun _ q₁ hq₁ => ?_
    refine meets_op ⟨rfl, rfl, hq₁⟩ ?_
    rintro _ σ' ⟨rfl, -⟩
    exact ⟨rfl, hq₁⟩
  | false =>
    refine ⟨⟨trivial, ⟨fd, id, rfl⟩, hq⟩, ?_⟩
    rintro _ σ' ⟨rfl, -⟩
    refine meets_still (p := .counted fd id) rfl trivial hq fun mem _ => ?_
    split
    · exact drop_meets hq
    refine meets_op ⟨rfl, rfl, hq⟩ ?_
    rintro (ok : Bool) σ' ⟨rfl, -⟩
    cases ok with
    | true => exact ⟨rfl, hq⟩
    | false => exact drop_meets hq

theorem serverShutdown_stage (hq : q.Open) : Meets (stageContract T) (Settled .ending) serverShutdown ⟨.ending, q⟩ := by
  unfold serverShutdown
  refine meets_still rfl trivial hq fun _ _ => ?_
  refine meets_still rfl trivial hq fun _ _ => ?_
  refine meets_still rfl trivial hq fun msg _ => ?_
  refine meets_still rfl rfl hq fun _ _ => ?_
  refine meets_op ⟨trivial, rfl, hq⟩ ?_
  rintro _ σ' ⟨rfl, -⟩
  refine ⟨rfl, ?_⟩
  show q.pushed.Open
  rwa [Errand.pushed_open hq]

theorem serve_at : ∀ {p : Cmd Unit}, Meets (stageContract T) (Settled .idle) p σ → (serve p).At T σ
  | .ret _, hp => hp
  | .act _ _, hp => hp

theorem close_at : ∀ {p : Cmd Unit}, Meets (stageContract T) (Settled .ending) p σ → (close p).At T σ
  | .ret _, hp => hp
  | .act _ _, hp => hp

theorem at_next {t : Acceptor} (hat : t.At T σ) {a : Act} {k : a.Ret → Acceptor} (hn : t.next = some ⟨a, k⟩) :
    σ.permits T a ∧ ∀ r, σ.tells T a r → (k r).At T (σ.next a r) := by
  obtain ⟨p, q⟩ := σ
  cases t with
  | top =>
    cases hn
    obtain ⟨rfl, hq⟩ : p = .idle ∧ q.Open := hat
    refine ⟨⟨trivial, trivial, hq⟩, ?_⟩
    rintro (running : Bool) -
    cases running with
    | true => exact ⟨rfl, hq⟩
    | false => exact close_at (serverShutdown_stage hq)
  | accepting =>
    cases hn
    obtain ⟨rfl, hq⟩ : p = .idle ∧ q.Open := hat
    refine ⟨⟨rfl, rfl, hq⟩, ?_⟩
    rintro (_ | ⟨fd, id⟩) -
    · exact ⟨rfl, hq⟩
    · exact serve_at (serveConnection_stage hq)
  | serving x =>
    cases x with
    | ret => cases hn
    | act b kb =>
      cases hn
      exact ⟨hat.1, fun r ht => serve_at (hat.2 r _ ⟨rfl, ht⟩)⟩
  | closing x =>
    cases x with
    | ret => cases hn
    | act b kb =>
      cases hn
      exact ⟨hat.1, fun r ht => close_at (hat.2 r _ ⟨rfl, ht⟩)⟩
  | done => cases hn

end
end Acceptor

/-! ## The broadcaster -/

theorem eventLine_nonempty {P : Platform} {msg : MqMessage} {line : Bytes} (h : eventLine P msg = some line) : 0 < line.length := by
  unfold eventLine at h
  cases htype : msg.type with
  | chat =>
    rw [htype] at h
    simp only [Option.ite_none_right_eq_some, Option.some.injEq] at h
    rw [← h.2, protocolBuildServerBroadcast]
    simp only [List.append_assoc]
    exact Nat.succ_pos _
  | join | roomJoin =>
    rw [htype] at h
    simp only [Option.ite_none_right_eq_some, Option.some.injEq] at h
    rw [← h.2, protocolBuildServerUserJoin]
    simp only [List.append_assoc]
    exact Nat.succ_pos _
  | leave | roomLeave =>
    rw [htype] at h
    simp only [Option.ite_none_right_eq_some, Option.some.injEq] at h
    rw [← h.2, protocolBuildServerUserLeft]
    simp only [List.append_assoc]
    exact Nat.succ_pos _
  | shutdown =>
    rw [htype] at h
    cases h

namespace Broadcaster

/-- What the broadcaster sends out: a line, and no private message. -/
structure News (line : Bytes) : Prop where
  notPm : ¬ IsPm line
  nonempty : 0 < line.length

def At (T : Prop) (σ : Stage) : Broadcaster → Prop
  | .first _ line | .stepping _ line _ => News line ∧ Settled .casting () σ
  | .sending _ line _ p => News line ∧ Meets (stageContract T) (Settled .casting) p σ
  | _ => Settled .casting () σ

section
variable {T : Prop} {P : Platform} {σ : Stage} {room line : Bytes}

theorem sendToClient_stage (hl : News line) (node : ClientNode) {q : Errand} (hq : q.Open) :
    Meets (stageContract T) (Settled .casting) (sendToClient room line node) ⟨.casting, q⟩ := by
  unfold sendToClient
  split
  · exact ⟨rfl, hq⟩
  refine Settled.bind (sendAll_meets (fun _ => hl.notPm) (Or.inl rfl) hl.nonempty (Or.inl hq)) fun rc q₁ hq₁ => ?_
  split
  · exact ⟨rfl, hq₁⟩
  · exact ⟨rfl, hq₁⟩

theorem afterCallback_at {cur : Nat} (hl : News line) : ∀ {p : Cmd ChatStatus},
    Meets (stageContract T) (Settled .casting) p σ → (afterCallback room line cur p).At T σ
  | .ret rc, hs => by
    show At T σ (if rc ≠ .ok then .top else .stepping room line cur)
    split
    · exact hs
    · exact ⟨hl, hs⟩
  | .act _ _, hp => ⟨hl, hp⟩

theorem visit_at (hl : News line) {q : Errand} (hq : q.Open) : ∀ node, (visit room line node).At T ⟨.casting, q⟩
  | none => ⟨rfl, hq⟩
  | some node => afterCallback_at hl (sendToClient_stage hl node hq)

theorem onEvent_at (msg : MqMessage) {q : Errand} (hq : q.Open) : (onEvent P msg).At T ⟨.casting, q⟩ := by
  unfold onEvent
  split
  · exact ⟨rfl, hq⟩
  split
  · exact ⟨rfl, hq⟩
  · rename_i line h
    exact ⟨⟨eventLine_isPm h, eventLine_nonempty h⟩, rfl, hq⟩

theorem at_next {t : Broadcaster} (hat : t.At T σ) {a : Act} {k : a.Ret → Broadcaster} (hn : t.next P = some ⟨a, k⟩) :
    σ.permits T a ∧ ∀ r, σ.tells T a r → (k r).At T (σ.next a r) := by
  obtain ⟨p, q⟩ := σ
  cases t with
  | top =>
    cases hn
    obtain ⟨rfl, hq⟩ : p = .casting ∧ q.Open := hat
    refine ⟨⟨trivial, trivial, hq⟩, ?_⟩
    rintro (running : Bool) -
    cases running
    · exact ⟨rfl, hq⟩
    · exact ⟨rfl, hq⟩
  | popping =>
    cases hn
    obtain ⟨rfl, hq⟩ : p = .casting ∧ q.Open := hat
    refine ⟨⟨rfl, trivial, hq⟩, ?_⟩
    rintro ⟨rc, msg⟩ -
    cases rc with
    | ok =>
      cases msg with
      | some msg => exact onEvent_at msg hq
      | none => exact ⟨rfl, hq⟩
    | _ => exact ⟨rfl, hq⟩
  | first room line =>
    cases hn
    obtain ⟨hl, rfl, hq⟩ : News line ∧ p = .casting ∧ q.Open := hat
    exact ⟨⟨trivial, trivial, hq⟩, fun node _ => visit_at hl hq node⟩
  | stepping room line cur =>
    cases hn
    obtain ⟨hl, rfl, hq⟩ : News line ∧ p = .casting ∧ q.Open := hat
    exact ⟨⟨trivial, trivial, hq⟩, fun node _ => visit_at hl hq node⟩
  | sending room line cur x =>
    cases x with
    | ret => cases hn
    | act b kb =>
      cases hn
      obtain ⟨hl, ha, hk⟩ := hat
      exact ⟨ha, fun r ht => afterCallback_at hl (hk r _ ⟨rfl, ht⟩)⟩
  | done => cases hn

end
end Broadcaster

/-! ## All threads -/

namespace Thread

def At (T : Prop) : Tid → Stage → Thread → Prop
  | .main, σ, .main t => t.At T σ
  | .broadcaster, σ, .broadcaster t => t.At T σ
  | .signal, σ, .signal => Settled .ending () σ
  | .handler _, σ, .handler h => h.At T σ
  | _, _, _ => False

theorem at_next {T : Prop} {P : Platform} {tid : Tid} {σ : Stage} {t : Thread} (hat : t.At T tid σ) {a : Act} {k : a.Ret → Thread}
    (hn : t.next P = some ⟨a, k⟩) : σ.permits T a ∧ ∀ r, σ.tells T a r → (k r).At T tid (σ.next a r) := by
  cases tid with
  | main =>
    cases t with
    | main t =>
      obtain ⟨⟨b, kb⟩, hb, he⟩ := Option.map_eq_some_iff.mp hn
      cases he
      exact Acceptor.at_next hat hb
    | _ => cases hat
  | broadcaster =>
    cases t with
    | broadcaster t =>
      obtain ⟨⟨b, kb⟩, hb, he⟩ := Option.map_eq_some_iff.mp hn
      cases he
      exact Broadcaster.at_next hat hb
    | _ => cases hat
  | signal =>
    cases t with
    | signal =>
      cases hn
      obtain ⟨p, q⟩ := σ
      obtain ⟨rfl, hq⟩ : p = .ending ∧ q.Open := hat
      exact ⟨⟨trivial, trivial, hq⟩, fun _ _ => ⟨rfl, hq⟩⟩
    | _ => cases hat
  | handler i =>
    cases t with
    | handler h =>
      obtain ⟨⟨b, kb⟩, hb, he⟩ := Option.map_eq_some_iff.mp hn
      cases he
      exact Handler.at_next hat hb
    | _ => cases hat

end Thread

/-! ## Every run -/

/-- Every thread stands where its stage belongs, and has what it relies on. -/
abbrev Staged (T : Prop) (tr : List (Label Tid Act.Ret)) (c : System) : Prop :=
  Watched (Inv T) (fun tid σ t => t.At T tid σ) Relies (fun tid => stageOf tr tid) c

section
variable {P : Platform} {T : Prop} {ok : Env → Prop}

theorem init_staged (db : AuthDb) : Watched (Inv T) (fun tid σ t => t.At T tid σ) Relies Stage.start (System.init db) := by
  obtain ⟨hi, -⟩ := init_holds (T := T) db
  refine ⟨hi, fun tid => ?_, fun tid => ?_⟩
  · cases tid with
    | main | broadcaster | signal => exact ⟨rfl, trivial⟩
    | handler i => exact ⟨nofun, rfl, rfl, trivial⟩
  · cases tid with
    | main | broadcaster | signal => exact ⟨trivial, nofun⟩
    | handler i => exact ⟨⟨rfl, nofun⟩, nofun⟩

variable (hok : ∀ e, ok e → T → e.Terminated)
include hok

theorem watch : Watch (Thread.next P) (exec P) ok Stage.next (Inv T) (fun tid σ t => t.At T tid σ) Relies where
  own := by
    intro tid σ t s a k e r s' hi hrel hat hn he hx
    obtain ⟨hp, hk⟩ := Thread.at_next hat hn
    obtain ⟨hi', hrel', ht⟩ := exec_stage hi hrel hp hx (hok e he)
    exact ⟨hi', hrel', hk r ht⟩
  frame := by
    intro tid tid' σ τ t s a k e r s' hi hrel hat hn he hx hne hτ
    obtain ⟨hp, -⟩ := Thread.at_next hat hn
    exact exec_others hi hrel hp hx (hok e he) hne hτ

theorem run_staged {db : AuthDb} {tr : List (Label Tid Act.Ret)} {c : System}
    (hr : Run (System.Step P ok) (System.init db) tr c) : Staged T tr c := (watch hok).run (init_staged db) hr

omit hok in
/-- One step, seen from its thread's stage. -/
theorem Staged.step {tr : List (Label Tid Act.Ret)} {c c' : System} {l : Label Tid Act.Ret} (hc : Staged T tr c)
    (hs : System.Step P ok c l c') : (stageOf tr l.tid).permits T l.act ∧
      ∃ e, ok e ∧ exec P l.tid l.act e c.shared = some (l.ret, c'.shared) := by
  cases hs with
  | @mk tid a k e r s' hn he hx => exact ⟨(Thread.at_next (hc.loc tid) hn).1, e, he, hx⟩

theorem Staged.tells {tr : List (Label Tid Act.Ret)} {c c' : System} {l : Label Tid Act.Ret} (hc : Staged T tr c)
    (hs : System.Step P ok c l c') : (stageOf tr l.tid).tells T l.act l.ret := by
  obtain ⟨hp, e, he, hx⟩ := hc.step hs
  exact (exec_stage hc.shared (hc.relies l.tid) hp hx (hok e he)).2.2

end

end ChatServer

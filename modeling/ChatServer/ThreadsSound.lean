import ChatServer.CommandsSound

/-!
# Every thread keeps the contract

`Good` is the proof outline: what each thread knows at each of its points.
`good_next` says that the action offered at a point is allowed there and leads
to a point whose assertion then holds, so by the rule for interleavings the
invariant holds in every run.
-/

namespace ChatServer

open CStr Interleave Prog

/-! ## Handlers -/

namespace Handler

/-- What a handler knows between two commands. -/
def rest (h : Handler) : View := if h.authenticated then .online h.fd h.username else .fresh h.fd

def Ready (h : Handler) : Prop := h.authenticated = true → NameLike h.username ∧ h.username ≠ []

def Good (T : Prop) (i : Nat) (h : Handler) (s : Server) : Prop :=
  h.Ready ∧
  match h.point with
  | .unborn => h.authenticated = false ∧ Sat (.handler i) .unborn s
  | .top | .reading => Sat (.handler i) h.rest s
  | .busy .command p =>
    Sat (.handler i) h.rest s ∧ Meets (contract T Steady) (fun _ v => v = h.rest) p h.rest
  | .busy (.auth u) p =>
    h.authenticated = false ∧ NameLike u ∧
      ∃ v, Sat (.handler i) v s ∧ Meets (contract T Anyway) (AuthEnds h.fd u) p v
  | .busy .leave p =>
    ∃ v, (h.authenticated = false → ¬ v.IsOnline) ∧ Sat (.handler i) v s ∧
      Meets (contract T Leaving) (fun _ v' => v' = .gone) p v
  | .done => Sat (.handler i) .gone s

section
variable {T : Prop} {i : Nat} {h : Handler} {s : Server} (hr : h.Ready)
include hr

theorem leave_good (hs : Sat (.handler i) h.rest s) : h.leave.Good T i s := by
  refine ⟨hr, h.rest, ?_, hs, ?_⟩
  · intro ha
    replace ha : h.authenticated = false := ha
    rw [rest, ha]
    rintro ⟨_, _, he⟩
    cases he
  · apply disconnectClient_meets
    cases ha : h.authenticated with
    | true =>
      rw [rest, ha]
      exact cmdDisconnectClient_online (hr ha).1 (hr ha).2
    | false =>
      rw [rest, ha]
      exact cmdDisconnectClient_offline (Or.inl rfl) h.username

theorem enter_command_good (hs : Sat (.handler i) h.rest s) :
    ∀ {p : Cmd ChatStatus}, Keeps T Steady p h.rest → (h.enter .command p).Good T i s
  | .act _ _, hp => ⟨hr, hs, hp⟩
  | .ret rc, _ => by
    show (if rc ≠ .ok then h.leave else { h with point := .top }).Good T i s
    split
    · exact leave_good hr hs
    · exact ⟨hr, hs⟩

theorem enter_auth_good (ha : h.authenticated = false) {u : Bytes} (hu : NameLike u) {v : View} (hs : Sat (.handler i) v s) :
    ∀ {p : Cmd ChatStatus}, Meets (contract T Anyway) (AuthEnds h.fd u) p v → (h.enter (.auth u) p).Good T i s
  | .act _ _, hp => ⟨hr, ha, hu, v, hs, hp⟩
  | .ret rc, hp => by
    rcases hp with ⟨rfl, hne, rfl⟩ | ⟨hrc, hv⟩
    · have hl := hu.2
      simp only [maxUsernameLen] at hl
      have hcopy : cstr (copyField (zeros maxUsernameLen) u maxUsernameLen) = u := by
        refine (cstr_copyField (n := 31) (zeros_length _) u).trans ?_
        rw [cstr_of_nulFree hu.1, List.take_of_length_le (by omega)]
      show Good T i { h with authenticated := true, username := _, point := .top } s
      rw [hcopy]
      exact ⟨fun _ => ⟨hu, hne⟩, hs⟩
    · have hoff : v = .fresh h.fd ∨ ∃ u, v = .checked h.fd u := hv.imp_right fun e => ⟨u, e⟩
      show (if rc ≠ .ok then h.leave else _).Good T i s
      rw [if_pos hrc]
      refine ⟨hr, v, ?_, hs, ?_⟩
      · rintro - ⟨_, _, rfl⟩
        rcases hv with hv | hv <;> cases hv
      · show Meets _ _ (disconnectClient h.fd h.username h.authenticated) v
        rw [ha]
        exact disconnectClient_meets (cmdDisconnectClient_offline hoff _)

omit hr in
theorem enter_leave_good (hr : h.Ready) {v : View} (hv : h.authenticated = false → ¬ v.IsOnline) (hs : Sat (.handler i) v s) :
    ∀ {p : Cmd ChatStatus}, Meets (contract T Leaving) (fun _ v' => v' = .gone) p v → (h.enter .leave p).Good T i s
  | .act _ _, hp => ⟨hr, v, hv, hs, hp⟩
  | .ret _, hp => by
    obtain rfl : v = .gone := hp
    exact ⟨hr, hs⟩

theorem refuse_good (hs : Sat (.handler i) h.rest s) (msg : String) : (h.refuse msg).Good T i s := by
  apply enter_command_good hr hs
  refine sendAll_keeps (steady_refl _) (allowed_send ?_ (err_isPm _))
  unfold rest
  split <;> rfl

theorem dispatch_good (P : Platform) (hs : Sat (.handler i) h.rest s) {line : Bytes} (h0 : 0 ∉ line) :
    (h.dispatch P line).Good T i s := by
  unfold dispatch
  rcases hparse : protocolParseClientLine line with ⟨rc, cmd⟩
  simp only
  split
  · exact refuse_good hr hs _
  rename_i hrc
  rw [not_not] at hrc
  subst hrc
  have hreq := parse_client_sound h0 hparse
  split
  · rename_i hauth
    have hfresh : h.rest = .fresh h.fd := by simp only [Bool.not_eq_true'] at hauth; rw [rest, hauth]; rfl
    split
    · exact refuse_good hr hs _
    · rename_i hcmd
      rw [not_not] at hcmd
      rw [hcmd] at hreq
      have hu : NameLike (cstr cmd.arg1) := ⟨nul_not_mem_cstr _, by cases hreq with | auth hn _ => exact hn.length_lt⟩
      rw [hfresh] at hs
      exact enter_auth_good hr (by simpa using hauth) hu hs (cmdHandleAuth_meets hu _)
  · rename_i hauth
    have hon : h.authenticated = true := by simpa using hauth
    have hrest : h.rest = .online h.fd h.username := by rw [rest, hon]; rfl
    obtain ⟨hu, -⟩ := hr hon
    have run : ∀ {p : Cmd ChatStatus}, Keeps T Steady p (.online h.fd h.username) → (h.enter .command p).Good T i s :=
      fun hp => enter_command_good hr hs (by rw [hrest]; exact hp)
    split
    · exact run (cmdHandleJoinRoom_keeps hu (steady_refl _) _)
    · exact run (cmdHandleMsg_keeps hu (steady_refl _) _)
    · rename_i hcmd
      rw [hcmd] at hreq
      have ht : NameLike (cstr cmd.arg1) := ⟨nul_not_mem_cstr _, by cases hreq with | pm hn _ => exact hn.length_lt⟩
      have hc : (cstr cmd.arg2).length < maxMsgLen := by cases hreq with | pm _ hf => exact hf.length_lt
      exact run (cmdHandlePm_keeps hu (steady_refl _) P ht hc)
    · exact run (cmdHandleList_keeps hu (steady_refl _))
    · exact run (cmdHandleHistory_keeps hu (steady_refl _))
    · rename_i hcmd
      rw [hcmd] at hreq
      generalize cstr cmd.arg2 = arg2 at hreq
      have ht : NameLike (cstr cmd.arg1) := ⟨nul_not_mem_cstr _, by cases hreq with | kick hf => exact hf.length_lt⟩
      exact run (cmdHandleKick_keeps (steady_refl _) ht)
    · exact leave_good hr hs
    · exact refuse_good hr hs _

end

theorem note_eq (h : Handler) (a : Act) (r : a.Ret) : ∃ t, h.note a r = { h with target := t } := by
  cases a with
  | registryGetSockfdByUsername username =>
    show ∃ t, h.aim username r = _
    unfold aim
    split
    · exact ⟨_, rfl⟩
    · exact ⟨_, rfl⟩
  | _ => exact ⟨h.target, rfl⟩

theorem good_next {T : Prop} {P : Platform} {i : Nat} {h : Handler} {s : Server} (hg : h.Good T i s) {a : Act}
    {k : a.Ret → Handler} (hn : h.next P = some ⟨a, k⟩) :
    ∃ v, Sat (.handler i) v s ∧ allowed T a v ∧
      ∀ r s', tells T a v r → Sat (.handler i) (advance a v r) s' → (k r).Good T i s' := by
  obtain ⟨hr, hp⟩ := hg
  unfold next at hn
  cases hpoint : h.point with
  | unborn =>
    rw [hpoint] at hn hp
    cases hn
    refine ⟨.unborn, hp.2, rfl, fun fd s' _ hs => ⟨fun ha => ?_, ?_⟩⟩
    · exact absurd (hp.1.symm.trans ha) nofun
    · show Sat (.handler i) (if h.authenticated then _ else .fresh fd) s'
      rw [hp.1]
      exact hs
  | top =>
    rw [hpoint] at hn hp
    cases hn
    refine ⟨h.rest, hp, trivial, ?_⟩
    rintro (running : Bool) s' - hs
    have hs : Sat (.handler i) h.rest s' := by cases hv : h.rest <;> rw [hv] at hs <;> exact hs
    cases running with
    | true => exact ⟨hr, hs⟩
    | false => exact leave_good hr hs
  | reading =>
    rw [hpoint] at hn hp
    cases hn
    refine ⟨h.rest, hp, trivial, ?_⟩
    rintro (line : Option Bytes) s' ht hs
    have hs : Sat (.handler i) h.rest s' := by cases hv : h.rest <;> rw [hv] at hs <;> exact hs
    cases line with
    | none => exact leave_good hr hs
    | some line => exact dispatch_good (h := { h with target := none }) hr P hs (ht line rfl)
  | done => rw [hpoint] at hn; cases hn
  | busy cont p =>
    cases p with
    | ret => rw [hpoint] at hn; cases hn
    | act b kb =>
      rw [hpoint] at hn hp
      cases hn
      cases cont with
      | command =>
        obtain ⟨hs, ⟨ha, hkeep⟩, hk⟩ := hp
        refine ⟨h.rest, hs, ha, fun r s' ht hs' => ?_⟩
        have hmeets := hk r _ ⟨rfl, ht⟩
        obtain ⟨t, he⟩ := h.note_eq a r
        rw [hkeep r] at hs' hmeets
        show Good T i ((h.note a r).enter .command (kb r)) s'
        rw [he]
        exact enter_command_good (h := { h with target := t }) hr hs' hmeets
      | auth u =>
        obtain ⟨hau, hu, v, hs, ⟨ha, -⟩, hk⟩ := hp
        refine ⟨v, hs, ha, fun r s' ht hs' => ?_⟩
        obtain ⟨t, he⟩ := h.note_eq a r
        show Good T i ((h.note a r).enter (.auth u) (kb r)) s'
        rw [he]
        exact enter_auth_good (h := { h with target := t }) hr hau hu hs' (hk r _ ⟨rfl, ht⟩)
      | leave =>
        obtain ⟨v, hv, hs, ⟨ha, hkeep⟩, hk⟩ := hp
        refine ⟨v, hs, ha, fun r s' ht hs' => ?_⟩
        obtain ⟨t, he⟩ := h.note_eq a r
        show Good T i ((h.note a r).enter .leave (kb r)) s'
        rw [he]
        exact enter_leave_good (h := { h with target := t }) hr (fun hau hon => hv hau (hkeep r hon)) hs' (hk r _ ⟨rfl, ht⟩)

theorem Good.rely {T : Prop} {i : Nat} {h : Handler} {s s' : Server} (hrely : Rely (.handler i) s s')
    (hg : h.Good T i s) : h.Good T i s' := by
  obtain ⟨hr, hp⟩ := hg
  refine ⟨hr, ?_⟩
  cases hpoint : h.point with
  | unborn => rw [hpoint] at hp; exact ⟨hp.1, hp.2.rely hrely⟩
  | top | reading | done => rw [hpoint] at hp; exact Sat.rely hrely hp
  | busy cont p =>
    rw [hpoint] at hp
    cases cont with
    | command => exact ⟨hp.1.rely hrely, hp.2⟩
    | auth u =>
      obtain ⟨ha, hu, v, hs, hm⟩ := hp
      exact ⟨ha, hu, v, hs.rely hrely, hm⟩
    | leave =>
      obtain ⟨v, hv, hs, hm⟩ := hp
      exact ⟨v, hv, hs.rely hrely, hm⟩

end Handler

/-! ## The accept loop -/

def Serving (v v' : View) : Prop := v ≠ .ending → v' ≠ .ending

namespace Acceptor

def Good (T : Prop) : Acceptor → Server → Prop
  | .serving p, s => ∃ v, v ≠ .ending ∧ Sat .main v s ∧ Meets (contract T Serving) (fun _ _ => True) p v
  | .closing p, _ => Meets (contract T Steady) (fun _ _ => True) p .ending
  | _, _ => True

section
variable {T : Prop} {s : Server} {fd : Int} {id : Nat}

theorem serving_refl (v : View) : Serving v v := fun h => h

theorem refused_meets : Meets (contract T Serving) (fun _ _ => True)
    (do Sys.close fd; Sys.connTrackDecrement) (.held fd id) := by
  refine meets_op ⟨rfl, fun _ _ => nofun⟩ ?_
  rintro _ v' ⟨rfl, -⟩
  exact ⟨⟨trivial, fun _ => serving_refl _⟩, fun _ _ _ => trivial⟩

theorem serveConnection_meets :
    Meets (contract T Serving) (fun _ _ => True) (serveConnection fd id) (.held fd id) := by
  unfold serveConnection
  refine meets_act (serving_refl _) trivial (fun _ => rfl) fun full _ => ?_
  split
  · refine Keeps.bind (sendAll_keeps (serving_refl _) fun _ => ⟨rfl, err_isPm _⟩) fun _ => ?_
    refine meets_op ⟨rfl, fun _ _ => nofun⟩ ?_
    exact fun _ _ _ => trivial
  refine meets_act (serving_refl _) trivial (fun _ => rfl) fun _ _ => ?_
  refine meets_act (serving_refl _) trivial (fun _ => rfl) fun mem _ => ?_
  split
  · exact refused_meets
  refine meets_op ⟨rfl, fun ok _ => by cases ok <;> nofun⟩ ?_
  rintro (ok : Bool) v' ⟨rfl, -⟩
  cases ok with
  | true => trivial
  | false => exact refused_meets

theorem serverShutdown_meets : Meets (contract T Steady) (fun _ _ => True) serverShutdown .ending := by
  unfold serverShutdown
  refine meets_act (steady_refl _) trivial (fun _ => rfl) fun _ _ => ?_
  refine meets_act (steady_refl _) trivial (fun _ => rfl) fun _ _ => ?_
  refine meets_act (steady_refl _) trivial (fun _ => rfl) fun msg _ => ?_
  refine meets_act (steady_refl _) rfl (fun _ => rfl) fun _ _ => ?_
  exact meets_act (steady_refl _) trivial (fun _ => rfl) fun _ _ => trivial

theorem serve_good {v : View} (hv : v ≠ .ending) (hs : Sat .main v s) :
    ∀ {p : Cmd Unit}, Meets (contract T Serving) (fun _ _ => True) p v → (serve p).Good T s
  | .ret _, _ => trivial
  | .act _ _, hp => ⟨v, hv, hs, hp⟩

theorem close_good : ∀ {p : Cmd Unit}, Meets (contract T Steady) (fun _ _ => True) p .ending → (close p).Good T s
  | .ret _, _ => trivial
  | .act _ _, hp => hp

theorem good_next {t : Acceptor} (hg : t.Good T s) {a : Act} {k : a.Ret → Acceptor} (hn : t.next = some ⟨a, k⟩) :
    ∃ v, Sat .main v s ∧ allowed T a v ∧
      ∀ r s', tells T a v r → Sat .main (advance a v r) s' → (k r).Good T s' := by
  cases t with
  | top =>
    cases hn
    refine ⟨.idle, trivial, trivial, ?_⟩
    rintro (running : Bool) s' - -
    cases running with
    | true => trivial
    | false => exact close_good serverShutdown_meets
  | accepting =>
    cases hn
    refine ⟨.idle, trivial, rfl, ?_⟩
    rintro (_ | ⟨fd, id⟩) s' - hs
    · trivial
    · exact serve_good (v := .held fd id) nofun hs serveConnection_meets
  | serving p =>
    cases p with
    | ret => cases hn
    | act b kb =>
      cases hn
      obtain ⟨v, hv, hs, ⟨ha, hkeep⟩, hk⟩ := hg
      exact ⟨v, hs, ha, fun r s' ht hs' => serve_good (hkeep r hv) hs' (hk r _ ⟨rfl, ht⟩)⟩
  | closing p =>
    cases p with
    | ret => cases hn
    | act b kb =>
      cases hn
      obtain ⟨⟨ha, hkeep⟩, hk⟩ := hg
      refine ⟨.ending, trivial, ha, fun r s' ht _ => close_good ?_⟩
      have hm := hk r _ ⟨rfl, ht⟩
      rwa [hkeep r] at hm
  | done => cases hn

theorem Good.rely {s' : Server} (hrely : Rely .main s s') : ∀ {t : Acceptor}, t.Good T s → t.Good T s'
  | .serving _, ⟨v, hv, hs, hm⟩ => ⟨v, hv, hs.rely hrely, hm⟩
  | .closing _, hm => hm
  | .top, _ | .accepting, _ | .done, _ => trivial

end
end Acceptor

/-! ## The broadcaster -/

namespace Broadcaster

def Good (T : Prop) : Broadcaster → Prop
  | .first _ line | .stepping _ line _ => ¬ IsPm line
  | .sending _ line _ p => ¬ IsPm line ∧ Meets (contract T Steady) (fun _ _ => True) p .casting
  | _ => True

section
variable {T : Prop} {P : Platform}

theorem eventLine_isPm {msg : MqMessage} {line : Bytes} (h : eventLine P msg = some line) : ¬ IsPm line := by
  unfold eventLine at h
  cases htype : msg.type with
  | chat =>
    rw [htype] at h
    simp only [Option.ite_none_right_eq_some, Option.some.injEq] at h
    rw [← h.2]
    exact broadcast_isPm _ _ _ _
  | join | roomJoin =>
    rw [htype] at h
    simp only [Option.ite_none_right_eq_some, Option.some.injEq] at h
    rw [← h.2]
    exact userJoin_isPm _ _
  | leave | roomLeave =>
    rw [htype] at h
    simp only [Option.ite_none_right_eq_some, Option.some.injEq] at h
    rw [← h.2]
    exact userLeft_isPm _ _
  | shutdown =>
    rw [htype] at h
    cases h

theorem sendToClient_meets {room line : Bytes} (hl : ¬ IsPm line) (node : ClientNode) :
    Meets (contract T Steady) (fun _ _ => True) (sendToClient room line node) .casting := by
  unfold sendToClient
  split
  · trivial
  refine Keeps.bind (sendAll_keeps (steady_refl _) fun _ => hl) fun rc => ?_
  split <;> trivial

theorem afterCallback_good {room line : Bytes} {cur : Nat} (hl : ¬ IsPm line) :
    ∀ {p : Cmd ChatStatus}, Meets (contract T Steady) (fun _ _ => True) p .casting →
      (afterCallback room line cur p).Good T
  | .ret rc, _ => by
    show Good T (if rc ≠ .ok then .top else .stepping room line cur)
    split
    · trivial
    · exact hl
  | .act _ _, hp => ⟨hl, hp⟩

theorem visit_good {room line : Bytes} (hl : ¬ IsPm line) : ∀ node, (visit room line node).Good T
  | none => trivial
  | some node => afterCallback_good hl (sendToClient_meets hl node)

theorem onEvent_good (msg : MqMessage) : (onEvent P msg).Good T := by
  unfold onEvent
  split
  · trivial
  split
  · trivial
  · rename_i line h
    exact eventLine_isPm h

theorem good_next {t : Broadcaster} (hg : t.Good T) {a : Act} {k : a.Ret → Broadcaster}
    (hn : t.next P = some ⟨a, k⟩) : allowed T a .casting ∧ ∀ r, tells T a .casting r → (k r).Good T := by
  cases t with
  | top =>
    cases hn
    refine ⟨trivial, ?_⟩
    rintro (running : Bool) -
    cases running <;> trivial
  | popping =>
    cases hn
    refine ⟨rfl, ?_⟩
    rintro ⟨rc, msg⟩ -
    cases rc with
    | ok =>
      cases msg with
      | some msg => exact onEvent_good msg
      | none => trivial
    | _ => trivial
  | first room line => cases hn; exact ⟨trivial, fun node _ => visit_good hg node⟩
  | stepping room line cur => cases hn; exact ⟨trivial, fun node _ => visit_good hg node⟩
  | sending room line cur p =>
    cases p with
    | ret => cases hn
    | act b kb =>
      cases hn
      obtain ⟨hl, ⟨ha, hkeep⟩, hk⟩ := hg
      refine ⟨ha, fun r ht => afterCallback_good hl ?_⟩
      have hm := hk r _ ⟨rfl, ht⟩
      rwa [hkeep r] at hm
  | done => cases hn

end
end Broadcaster

/-! ## All threads -/

namespace Thread

def Good (T : Prop) : Tid → Thread → Server → Prop
  | .main, .main t, s => t.Good T s
  | .broadcaster, .broadcaster t, _ => t.Good T
  | .signal, .signal, _ => True
  | .handler i, .handler h, s => h.Good T i s
  | _, _, _ => False

section
variable {T : Prop} {P : Platform} {tid : Tid} {t : Thread} {s s' : Server}

theorem good_next (hg : t.Good T tid s) {a : Act} {k : a.Ret → Thread} (hn : t.next P = some ⟨a, k⟩) :
    ∃ v, Sat tid v s ∧ allowed T a v ∧
      ∀ r s', tells T a v r → Sat tid (advance a v r) s' → (k r).Good T tid s' := by
  cases t with
  | main t =>
    cases tid with
    | main =>
      obtain ⟨⟨b, kb⟩, hb, he⟩ := Option.map_eq_some_iff.mp hn
      cases he
      exact Acceptor.good_next hg hb
    | _ => cases hg
  | broadcaster t =>
    cases tid with
    | broadcaster =>
      obtain ⟨⟨b, kb⟩, hb, he⟩ := Option.map_eq_some_iff.mp hn
      cases he
      obtain ⟨ha, hk⟩ := Broadcaster.good_next hg hb
      exact ⟨.casting, trivial, ha, fun r _ ht _ => hk r ht⟩
    | _ => cases hg
  | signal =>
    cases tid with
    | signal => cases hn; exact ⟨.ending, trivial, trivial, fun _ _ _ _ => trivial⟩
    | _ => cases hg
  | handler h =>
    cases tid with
    | handler i =>
      obtain ⟨⟨b, kb⟩, hb, he⟩ := Option.map_eq_some_iff.mp hn
      cases he
      exact Handler.good_next hg hb
    | _ => cases hg

theorem Good.rely (hrely : Rely tid s s') (hg : t.Good T tid s) : t.Good T tid s' := by
  cases t with
  | main t =>
    cases tid with
    | main => exact Acceptor.Good.rely hrely hg
    | _ => cases hg
  | broadcaster t =>
    cases tid with
    | broadcaster => exact hg
    | _ => cases hg
  | signal =>
    cases tid with
    | signal => trivial
    | _ => cases hg
  | handler h =>
    cases tid with
    | handler i => exact Handler.Good.rely hrely hg
    | _ => cases hg

end
end Thread

/-! ## Every run -/

section
variable {P : Platform} {T : Prop} {ok : Env → Prop}

/-- Every step is the execution of an action that its thread is allowed. -/
theorem step_allowed {c c' : System} {l : Label Tid Act.Ret} (hc : Holds (Inv T) (fun tid t => t.Good T tid) c)
    (hs : System.Step P ok c l c') :
    ∃ v e, Sat l.tid v c.shared ∧ allowed T l.act v ∧ exec P l.tid l.act e c.shared = some (l.ret, c'.shared) := by
  cases hs with
  | @mk tid a k e r s' hn he hx =>
    obtain ⟨v, hs, ha, -⟩ := Thread.good_next (hc.2 tid) hn
    exact ⟨v, e, hs, ha, hx⟩

theorem init_holds (db : AuthDb) : Holds (Inv T) (fun tid t => t.Good T tid) (System.init db) := by
  refine ⟨⟨⟨.nil, .nil, nofun, .nil, .nil, nofun⟩, fun _ => ⟨nofun, .nil⟩⟩, fun tid => ?_⟩
  cases tid with
  | main | broadcaster | signal => trivial
  | handler i => exact ⟨nofun, rfl, rfl, nofun⟩

variable (hok : ∀ e, ok e → T → e.Terminated)
include hok

theorem outline : Outline (Thread.next P) (exec P) ok (Inv T) fun tid t => t.Good T tid where
  own := by
    intro tid t s a k e r s' hi hg hn he hx
    obtain ⟨v, hs, ha, hk⟩ := Thread.good_next hg hn
    obtain ⟨hi', hs', -⟩ := exec_moves hi hs ha (hok e he) hx
    exact ⟨hi', hk r s' (exec_tells hi hs (hok e he) hx) hs'⟩
  frame := by
    intro tid tid' t u s a k e r s' hi hg hn he hx hne hu
    obtain ⟨v, hs, ha, -⟩ := Thread.good_next hg hn
    obtain ⟨-, -, hrely⟩ := exec_moves hi hs ha (hok e he) hx
    exact hu.rely (hrely tid' hne)

theorem run_holds {db : AuthDb} {tr : List (Label Tid Act.Ret)} {c : System}
    (hr : Run (System.Step P ok) (System.init db) tr c) : Holds (Inv T) (fun tid t => t.Good T tid) c :=
  (outline hok).run (init_holds db) hr

end

end ChatServer

import ChatServer.PeerReads
import ChatServer.Presence
import ChatServer.Rights

/-!
# What a client has been told

The names of a client's session come from the lines it was sent. Two kinds of
lines change them, and only the handler of its own connection sends those:
right behind its change of the registry, and before it announces that.
-/

namespace ChatServer

open CStr Interleave Prog

/-! ## A handler and its client -/

/-- Where a handler stands, and the session of its client. -/
structure Hearing where
  stage : Stage
  heard : Session

/-- The session behind an action of the handler of `own`. -/
def Session.after (own : Int) (s : Session) : (a : Act) → a.Ret → Session
  | .send fd buf sent, (r : Option Nat) => if fd = own ∧ r.any (fun n => decide (buf.length ≤ sent + n)) = true then s.hear buf else s
  | _, _ => s

theorem Session.after_nameless {buf : Bytes} (h : Nameless buf) (own fd : Int) (s : Session) (sent : Nat) (r : Option Nat) :
    s.after own (.send fd buf sent) r = s := by
  show (if _ then s.hear buf else s) = s
  rw [hear_nameless h, ite_self]

/-- What the client has to know before the handler announces the change. -/
def Phase.due : Phase → Option Session
  | .entered _ u => some ⟨u, defaultRoom⟩
  | .moved _ u room => some ⟨u, room⟩
  | _ => none

namespace Hearing

def permits (v : Hearing) : Act → Prop
  | .send fd buf _ => Nameless buf ∨ (fd = v.stage.phase.fd ∧ v.stage.phase.due.isSome = true)
  | .mqPush msg => msg.type = .join → ∀ s, v.stage.phase.due = some s → v.heard = s
  | _ => True

def InTune (v : Hearing) : Prop := ∀ fd u room, v.stage.phase = .present fd u room → v.heard = ⟨u, room⟩

end Hearing

/-- What an answer promises where no `send` fails and lines and names are read as they were written. -/
def Faithful : (a : Act) → a.Ret → Prop
  | .send .., (r : Option Nat) => ∃ n, r = some n ∧ 0 < n
  | .recvLine _, (r : Option Bytes) => ∀ line, r = some line → Last line
  | .authVerify u _, (rc : ChatStatus) => rc = .ok → Last u
  | _, _ => True

/-- Actions behind which the thread has another client, or none. -/
def Switches : Act → Prop
  | .start | .close _ => True
  | _ => False

def hearingContract : Contract Act.Ret Hearing where
  pre a v := v.permits a
  post a v r v' := v'.stage = v.stage.next a r ∧ v.stage.tells True a r ∧ Faithful a r ∧
    (¬ Switches a → v'.heard = v.heard.after v.stage.phase.fd a r)

/-! ## Commands -/

abbrev Heedful {α : Type} (p : Cmd α) (v : Hearing) : Prop := Meets hearingContract (fun _ _ => True) p v

/-- What changes no client's session and announces none. -/
def Bland : Act → Prop
  | .send _ buf _ => Nameless buf
  | .mqPush msg => msg.type ≠ .join
  | _ => True

theorem Routine.Line.nameless {buf : Bytes} (h : Routine.Line buf) : Nameless buf := fun c hc => (h c hc).2

theorem Routine.bland {a : Act} (h : Routine a) : Bland a := by
  cases a with
  | send => exact h.nameless
  | mqPush msg =>
    have htype : msg.type = .chat := h
    show msg.type ≠ .join
    rw [htype]
    nofun
  | _ => trivial

theorem Bland.permits {a : Act} (h : Bland a) (v : Hearing) : v.permits a := by
  cases a with
  | send => exact Or.inl h
  | mqPush => exact fun he => absurd he h
  | _ => trivial

section
variable {α β : Type} {v : Hearing} {fd : Int}

theorem heedful_of_bland {x : Cmd α} (hx : Only Bland x) (v : Hearing) : Heedful x v := hx.meets fun _ v ha => ha.permits v

theorem heedful_of_everyday {x : Cmd α} (hx : Only Everyday x) (v : Hearing) : Heedful x v :=
  heedful_of_bland (hx.mono fun _ h => h.routine.bland) v

theorem refused_heedful {rc : ChatStatus} (msg : String) (v : Hearing) : Heedful (respondErr fd msg >>= fun _ => pure rc) v :=
  heedful_of_everyday (Only.bind (fun _ => only_ret _) (respondErr_only fd msg)) v

theorem disconnectClient_bland (username : Bytes) (authenticated : Bool) : Only Bland (disconnectClient fd username authenticated) := by
  have hend : Only Bland (Sys.close fd) := ⟨trivial, fun _ => trivial⟩
  have hrest : Only Bland (do let _ ← Sys.registryRemove fd; let _ ← Sys.registryCount; Sys.close fd) :=
    only_act trivial fun _ => only_act trivial fun _ => hend
  refine Only.bind (fun _ => only_act trivial fun _ => only_ret _) ?_
  unfold cmdDisconnectClient
  split
  · refine only_act trivial fun ⟨rc, room⟩ => ?_
    show Only Bland (if rc = .ok then _ else _)
    split
    · exact Only.bind (fun _ => hrest) (enqueueRoomEvent_only trivial trivial fun _ _ => nofun)
    · exact hrest
  · exact hend

theorem cmdHandleKick_bland (target : Bytes) : Only Bland (cmdHandleKick fd target) :=
  cmdHandleKick_only (fun _ h => h.routine.bland) (fun _ _ c hc => by cases hc; decide) (fun _ => trivial) target

/-! ### Step by step -/

/-- The handler is in the phase, and its client has the session. -/
def Heard (p : Phase) (s : Session) (v : Hearing) : Prop := v.stage.phase = p ∧ v.heard = s

variable {p : Phase} {s : Session} {Q : β → Hearing → Prop}

theorem heard_op {a : Act} {k : a.Ret → Cmd β} (hv : Heard p s v) (ha : v.permits a) (hsend : ∀ fd buf sent, a ≠ .send fd buf sent)
    (hswitch : ¬ Switches a) (h : ∀ r v', Heard (p.next a r) s v' → v.stage.tells True a r → Faithful a r →
      Meets hearingContract Q (k r) v') : Meets hearingContract Q (op a >>= k) v := by
  refine meets_op ha ?_
  rintro r v' ⟨hstage, htells, hfaith, hheard⟩
  refine h r v' ⟨?_, ?_⟩ htells hfaith
  · rw [hstage, ← hv.1]
    rfl
  · have hsame : v.heard.after v.stage.phase.fd a r = v.heard := by
      cases a with
      | send fd buf sent => exact absurd rfl (hsend fd buf sent)
      | _ => rfl
    rw [hheard hswitch, hsame, hv.2]

theorem Heard.bind {R : α → Prop} {s' : Session} {p' : Phase} {x : Cmd α} {f : α → Cmd β}
    (hx : Meets hearingContract (fun y v => R y ∧ Heard p' s' v) x v)
    (hf : ∀ y v, R y → Heard p' s' v → Meets hearingContract Q (f y) v) : Meets hearingContract Q (x >>= f) v :=
  Meets.bind (hx.mono fun y v h => hf y v h.1 h.2)

variable {buf : Bytes}

/-- No `send` fails, so the line goes through, and then the client has heard it. -/
theorem sendLoop_heard (hfd : p.fd = fd) (hline : Nameless buf ∨ p.due.isSome = true) : ∀ (fuel sent : Nat) {v : Hearing}, Heard p s v →
    sent < buf.length → buf.length ≤ sent + fuel →
    Meets hearingContract (fun rc v => rc = ChatStatus.ok ∧ Heard p (s.hear buf) v) (sendLoop fd buf fuel sent) v
  | 0, sent, v, _, hlt, hle => by omega
  | fuel + 1, sent, v, hv, hlt, hle => by
    unfold sendLoop
    rw [if_neg (Nat.not_le.mpr hlt)]
    refine meets_op (hline.imp id fun hdue => ⟨?_, ?_⟩) ?_
    · rw [hv.1, hfd]
    · rw [hv.1]
      exact hdue
    rintro r v' ⟨hstage, -, ⟨n, rfl, hn⟩, hheard⟩
    have hphase : v'.stage.phase = p := by
      rw [hstage, ← hv.1]
      rfl
    obtain ⟨n, rfl⟩ := Nat.exists_eq_succ_of_ne_zero hn.ne'
    have hheard : v'.heard = if fd = fd ∧ (some (n + 1)).any (fun n => decide (buf.length ≤ sent + n)) = true then s.hear buf else s := by
      rw [hheard id, hv.1, hv.2, ← hfd]
      rfl
    show Meets _ _ (sendLoop fd buf fuel (sent + (n + 1))) v'
    by_cases hmore : sent + (n + 1) < buf.length
    · rw [if_neg (by simp; omega)] at hheard
      exact sendLoop_heard hfd hline fuel _ ⟨hphase, hheard⟩ hmore (by omega)
    · rw [if_pos (by simp; omega)] at hheard
      rw [sendLoop_done (Nat.not_lt.mp hmore)]
      exact ⟨rfl, hphase, hheard⟩

theorem sendAll_heard (hv : Heard p s v) (hfd : p.fd = fd) (hline : Nameless buf ∨ p.due.isSome = true) (hne : 0 < buf.length) :
    Meets hearingContract (fun rc v => rc = ChatStatus.ok ∧ Heard p (s.hear buf) v) (sendAll fd buf) v :=
  sendLoop_heard hfd hline buf.length 0 hv hne (by omega)

/-- A line that names nothing leaves the client as it is. -/
theorem reply_heard (hv : Heard p s v) (hfd : p.fd = fd) (hline : Nameless buf) (hne : 0 < buf.length) :
    Meets hearingContract (fun rc v => rc = ChatStatus.ok ∧ Heard p s v) (cmdSendResponse fd buf) v := by
  have h := sendAll_heard hv hfd (Or.inl hline) hne
  rwa [hear_nameless hline] at h

theorem respondOk_heard (hv : Heard p s v) (hfd : p.fd = fd) (msg : String) :
    Meets hearingContract (fun rc v => rc = ChatStatus.ok ∧ Heard p s v) (respondOk fd msg) v :=
  reply_heard hv hfd (ok_routine _).nameless (ok_reply _).nonempty

theorem roomHistory_heard (hv : Heard p s v) (hfd : p.fd = fd) (room : Bytes) :
    Meets hearingContract (fun _ v => True ∧ Heard p s v) (roomHistorySendToClient room fd cmdSendResponse) v := by
  unfold roomHistorySendToClient
  refine heard_op hv trivial (fun _ _ _ => nofun) id ?_
  rintro ⟨rc, payload⟩ v' hv' - -
  show Meets _ _ (if rc ≠ .ok then pure ChatStatus.err else if (protocolBuildServerHistory maxLineLen payload).1 ≠ .ok then
    pure ChatStatus.err else cmdSendResponse fd (protocolBuildServerHistory maxLineLen payload).2) v'
  split
  · exact ⟨trivial, hv'⟩
  split
  · exact ⟨trivial, hv'⟩
  · exact (reply_heard hv' hfd (history_routine _).nameless (history_reply _).nonempty).mono fun _ _ h => ⟨trivial, h.2⟩

theorem roomEvent_heard (hv : Heard p s v) {type : MqEventType} (htype : type = .join → ∀ s', p.due = some s' → s = s') (u room : Bytes) :
    Meets hearingContract (fun _ v => True ∧ Heard (p.onPush type) s v) (enqueueRoomEvent type u room) v := by
  unfold enqueueRoomEvent
  refine heard_op hv trivial (fun _ _ _ => nofun) id fun evt v₁ hv₁ _ _ => ?_
  refine heard_op hv₁ trivial (fun _ _ _ => nofun) id fun now v₂ hv₂ _ _ => ?_
  have hpush : v₂.permits (.mqPush (roomEvent evt type u room now)) := by
    intro ht s' hs'
    rw [hv₂.1] at hs'
    rw [hv₂.2]
    exact htype ht s' hs'
  refine ⟨hpush, ?_⟩
  rintro rc v' ⟨hstage, -, -, hheard⟩
  refine ⟨trivial, ?_, ?_⟩
  · rw [hstage]
    exact congrArg (Phase.onPush type) hv₂.1
  · rw [hheard id, ← hv₂.2]
    rfl

/-! ### The commands that name -/

/-- `AUTH` tells the client the name and the room under which the registry has it. -/
theorem cmdHandleAuth_heedful {u : Bytes} (hu : Word maxUsernameLen u) (password : Bytes) (hv : Heard (.fresh fd) s v) :
    Heedful (cmdHandleAuth fd u password) v := by
  unfold cmdHandleAuth
  split
  · exact refused_heedful _ v
  refine heard_op hv trivial (fun _ _ _ => nofun) id ?_
  rintro (rc : ChatStatus) v₁ hv₁ - hlast
  split
  · exact refused_heedful _ v₁
  rename_i hrc
  obtain rfl : rc = .ok := Classical.not_not.mp hrc
  have hlast : Last u := hlast rfl
  refine heard_op hv₁ trivial (fun _ _ _ => nofun) id ?_
  rintro (online : Bool) v₂ hv₂ - -
  split
  · exact refused_heedful _ v₂
  refine heard_op hv₂ trivial (fun _ _ _ => nofun) id ?_
  rintro (admin : Bool) v₃ hv₃ - -
  refine heard_op hv₃ trivial (fun _ _ _ => nofun) id ?_
  rintro (rc : ChatStatus) v₄ hv₄ - -
  split
  · exact refused_heedful _ v₄
  rename_i hrc
  obtain rfl : rc = .ok := Classical.not_not.mp hrc
  have hv₄ : Heard (.entered fd u) s v₄ := hv₄
  refine Heard.bind (sendAll_heard hv₄ rfl (Or.inr rfl) (welcome_reply u).nonempty) fun rc v₅ hok hv₅ => ?_
  rw [if_neg (not_not_intro hok)]
  refine Heard.bind (sendAll_heard hv₅ rfl (Or.inr rfl) (roomJoined_reply _).nonempty) fun _ v₆ _ hv₆ => ?_
  have htold : ((s.hear (protocolBuildServerWelcome maxLineLen u).2).hear (protocolBuildServerRoomJoined maxLineLen defaultRoom).2) =
      ⟨u, defaultRoom⟩ := by
    rw [hear_welcome s hu hlast, hear_roomJoined _ (by decide) ⟨⟨⟨by decide, by decide⟩, by decide⟩, by decide⟩]
  rw [htold] at hv₆
  refine Heard.bind (roomHistory_heard hv₆ rfl _) fun _ v₇ _ hv₇ => ?_
  refine Heard.bind (respondOk_heard hv₇ rfl _) fun _ v₈ _ hv₈ => ?_
  refine Heard.bind (roomEvent_heard hv₈ (fun _ s' hs' => Option.some.inj hs') u defaultRoom) fun _ _ _ _ => ?_
  trivial

/-- `JOIN_ROOM` tells the client its new room. -/
theorem cmdHandleJoinRoom_heedful {u old room : Bytes} (hr : room ≠ [] → Tail maxRoomNameLen room)
    (hv : Heard (.present fd u old) ⟨u, old⟩ v) : Heedful (cmdHandleJoinRoom fd room) v := by
  unfold cmdHandleJoinRoom
  split
  · exact heedful_of_everyday (respondErr_only fd _) v
  rename_i hne
  refine heard_op hv trivial (fun _ _ _ => nofun) id ?_
  rintro ⟨rc, username⟩ v₁ hv₁ hname -
  obtain ⟨rfl, rfl⟩ := Prod.mk.inj (hname u (by rw [hv.1]; rfl))
  refine heard_op hv₁ trivial (fun _ _ _ => nofun) id ?_
  rintro ⟨rc, oldRoom⟩ v₂ hv₂ - -
  show Heedful (if rc ≠ .ok then _ else _) v₂
  split
  · trivial
  split
  · exact heedful_of_everyday (respondErr_only fd _) v₂
  refine Heard.bind (roomEvent_heard hv₂ (fun ht => by cases ht) username oldRoom) fun _ v₃ _ hv₃ => ?_
  refine heard_op hv₃ trivial (fun _ _ _ => nofun) id ?_
  rintro _ v₄ hv₄ - -
  have hv₄ : Heard (.moved fd username room) ⟨username, old⟩ v₄ := hv₄
  refine Heard.bind (sendAll_heard hv₄ rfl (Or.inr rfl) (roomJoined_reply _).nonempty) fun _ v₅ _ hv₅ => ?_
  have htold : (Session.mk username old).hear (protocolBuildServerRoomJoined maxLineLen room).2 = ⟨username, room⟩ := by
    rw [hear_roomJoined _ hne (hr hne)]
  rw [htold] at hv₅
  refine Heard.bind (roomHistory_heard hv₅ rfl _) fun _ v₆ _ hv₆ => ?_
  refine Heard.bind (roomEvent_heard hv₆ (fun _ s' hs' => Option.some.inj hs') username room) fun _ v₇ _ _ => ?_
  exact heedful_of_everyday (respondOk_only fd _) v₇

end

/-! ## The handler -/

theorem last_behind {word t : Bytes} (h : Last (word ++ sp :: t)) : Last t := by
  refine ⟨⟨fun hm => h.noNul (by simp [hm]), fun hm => h.noLf (by simp [hm])⟩, fun hcr => h.noCr ?_⟩
  rw [List.getLast?_append, List.getLast?_cons, hcr]
  rfl

namespace Handler

/-- What the running command still sends and announces keeps the client in tune. -/
def Heeds (h : Handler) (v : Hearing) : Prop :=
  match h.point with
  | .busy _ p => Heedful p v
  | _ => True

section
variable {h : Handler} {v : Hearing}

theorem leave_heeds : h.leave.Heeds v := heedful_of_bland (disconnectClient_bland ..) v

theorem enter_heeds (cont : Cont) : ∀ {p : Cmd ChatStatus}, Heedful p v → (h.enter cont p).Heeds v
  | .act _ _, hp => hp
  | .ret rc, _ => by
    cases cont with
    | leave => trivial
    | command =>
      show (if rc ≠ .ok then h.leave else { h with point := .top }).Heeds v
      split
      · exact leave_heeds
      · trivial
    | auth u =>
      show (if rc ≠ .ok then h.leave else _).Heeds v
      split
      · exact leave_heeds
      · trivial

theorem dispatch_heeds (P : Platform) {line : Bytes} (hl : Last line) (hh : h.Home v.stage) (htune : v.InTune) :
    (h.dispatch P line).Heeds v := by
  have routine : ∀ {x : Cmd ChatStatus}, Only Everyday x → (h.enter .command x).Heeds v :=
    fun hx => enter_heeds _ (heedful_of_everyday hx v)
  have refused : ∀ msg, (h.refuse msg).Heeds v := fun msg => routine (respondErr_only h.fd msg)
  have hphase := hh.1
  unfold dispatch
  rcases hparse : protocolParseClientLine line with ⟨rc, cmd⟩
  simp only
  split
  · exact refused _
  rename_i hrc
  rw [Classical.not_not] at hrc
  subst hrc
  have hreq := parse_client_sound hl.noNul hparse
  split
  · rename_i hauth
    have ha : h.authenticated = false := by simpa using hauth
    rw [ha] at hphase
    have hphase : v.stage.phase = .fresh h.fd := hphase
    split
    · exact refused _
    · rename_i hcmd
      rw [Classical.not_not] at hcmd
      rw [hcmd] at hreq
      have h0 : 0 ∉ cstr cmd.arg1 := nul_not_mem_cstr _
      have hlf : lf ∉ cstr cmd.arg1 := (request_noLf hreq hl.noLf).1
      have hu : Word maxUsernameLen (cstr cmd.arg1) := by
        cases hreq with
        | auth hn _ => exact ⟨⟨hn.ne_nil, hn.length_lt⟩, ⟨h0, hlf⟩, hn.noSp⟩
      exact enter_heeds _ (cmdHandleAuth_heedful hu _ ⟨hphase, rfl⟩)
  rename_i hauth
  have ha : h.authenticated = true := by simpa using hauth
  rw [if_pos ha] at hphase
  obtain ⟨room, hphase⟩ := hphase
  split
  · rename_i hcmd
    rw [hcmd] at hreq
    generalize cstr cmd.arg2 = arg2 at hreq
    have hroom : Tail maxRoomNameLen (cstr cmd.arg1) := by
      cases hreq with
      | joinRoom hf => exact ⟨last_behind hl, hf.length_lt⟩
    exact enter_heeds _ (cmdHandleJoinRoom_heedful (fun _ => hroom) ⟨hphase, htune _ _ _ hphase⟩)
  · exact routine (cmdHandleMsg_only h.fd _)
  · exact routine (cmdHandlePm_only h.fd P _ _)
  · exact routine (cmdHandleList_only h.fd)
  · exact routine (cmdHandleHistory_only h.fd)
  · exact enter_heeds _ (heedful_of_bland (cmdHandleKick_bland _) v)
  · exact leave_heeds
  · exact refused _

theorem heeds_next {P : Platform} (hat : h.At True v.stage) (htune : v.InTune) (hh : h.Heeds v) {a : Act} {k : a.Ret → Handler}
    (hn : h.next P = some ⟨a, k⟩) : v.permits a ∧ ∀ r v', hearingContract.post a v r v' → (k r).Heeds v' := by
  obtain ⟨-, hp⟩ := hat
  unfold next at hn
  unfold Heeds at hh
  cases hpoint : h.point with
  | unborn =>
    rw [hpoint] at hn
    cases hn
    exact ⟨trivial, fun _ _ _ => trivial⟩
  | top =>
    rw [hpoint] at hn
    cases hn
    refine ⟨trivial, fun (running : Bool) _ _ => ?_⟩
    cases running with
    | true => trivial
    | false => exact leave_heeds
  | reading =>
    rw [hpoint] at hn hp
    cases hn
    refine ⟨trivial, ?_⟩
    rintro (line : Option Bytes) v' ⟨hstage, -, hlast, hheard⟩
    cases line with
    | none => exact leave_heeds
    | some line =>
      have hphase : v'.stage.phase = v.stage.phase := by rw [hstage]; rfl
      have hhome : h.Home v'.stage := ⟨by rw [hphase]; exact hp.1, by rw [hstage]; exact heard_open (some line)⟩
      refine dispatch_heeds (h := { h with target := none }) P (hlast line rfl) hhome fun fd u room he => ?_
      rw [hheard id]
      exact htune fd u room (hphase ▸ he)
  | done => rw [hpoint] at hn; cases hn
  | busy cont p =>
    cases p with
    | ret => rw [hpoint] at hn; cases hn
    | act b kb =>
      rw [hpoint] at hn hh
      cases hn
      obtain ⟨hpermits, hk⟩ := hh
      refine ⟨hpermits, fun r v' hpost => ?_⟩
      show Heeds ((h.note a r).enter cont (kb r)) v'
      obtain ⟨t, he⟩ := h.note_eq a r
      rw [he]
      exact enter_heeds (h := { h with target := t }) cont (hk r v' hpost)

end
end Handler

/-- The client knows its name and room whenever the registry and the events do. -/
theorem Hearing.InTune.next {v v' : Hearing} (h : v.InTune) {a : Act} {r : a.Ret} (hp : v.stage.permits True a) (ha : v.permits a)
    (hpost : hearingContract.post a v r v') : v'.InTune := by
  obtain ⟨⟨p, q⟩, s⟩ := v
  obtain ⟨hstage, -, -, hheard⟩ := hpost
  intro fd u room hnew
  rw [hstage] at hnew
  by_cases hpush : ∃ msg, a = .mqPush msg
  · obtain ⟨msg, rfl⟩ := hpush
    rw [hheard id]
    have hphase := hp.phase
    cases p with
    | entered fd' u' =>
      cases hnew
      exact ha hphase.1 _ rfl
    | moved fd' u' room' =>
      cases hnew
      exact ha hphase.1 _ rfl
    | present fd' u' room' =>
      change (if msg.type = .leave then Phase.left fd' u' room' else .present fd' u' room') = _ at hnew
      split at hnew
      · cases hnew
      · cases hnew
        exact h fd u room rfl
    | _ => cases hnew
  · have hnotPush : ∀ msg, a ≠ .mqPush msg := fun msg he => hpush ⟨msg, he⟩
    have hold : p = .present fd u room := ((Phase.next_same hnotPush hp.allowed hp.phase r u).present fd room).mp hnew
    subst hold
    have hsame : s.after fd a r = s := by
      cases a with
      | send fd' buf sent =>
        rcases ha with hline | ⟨-, hdue⟩
        · exact Session.after_nameless hline fd fd' s sent r
        · cases hdue
      | _ => rfl
    have hstays : ¬ Switches a := by
      intro hsw
      cases a with
      | start => cases hp.allowed
      | close => cases hp.phase
      | _ => exact hsw
    rw [hheard hstays]
    exact hsame.trans (h fd u room rfl)

end ChatServer

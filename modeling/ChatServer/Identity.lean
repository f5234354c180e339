import ChatServer.Agreement

/-!
# Who speaks

A connection acts on the server in the name that its own `AUTH` proved, and
before that on nobody but itself. The trace of the run is the witness of what
has been proved.
-/

namespace ChatServer

open CStr Interleave

/-- In the trace, an `AUTH` of session `i` passed `auth_verify` as `username`. -/
def Proved (tr : List (Label Tid Act.Ret)) (i : Nat) (username : Bytes) : Prop :=
  ∃ password, ⟨.handler i, .authVerify username password, ChatStatus.ok⟩ ∈ tr

def SameChat (s s' : Server) : Prop := s'.registry = s.registry ∧ s'.rooms = s.rooms ∧ s'.queue = s.queue

/-- What an action of handler `i` after the trace `tr` does to the rest of the server. -/
structure SpeaksFor (P : Platform) (tr : List (Label Tid Act.Ret)) (i : Nat) (a : Act) (s s' : Server) : Prop where
  silent : (∀ u, ¬ Proved tr i u) →
    SameChat s s' ∧ ∀ fd buf sent, a = .send fd buf sent → ∃ c ∈ s.conns, c.fd = fd ∧ c.id = i
  history : s'.rooms = s.rooms ∨ ∃ mem room u content ts, s'.rooms = (roomHistoryAdd P s.rooms mem room u content ts).2 ∧
    Proved tr i u ∧ ∀ entry, cstr (fillEntry P u content ts entry).username.bytes = u
  events : s'.queue = s.queue ∨ ∃ msg, s'.queue.msgs = s.queue.msgs ++ [msg] ∧ Proved tr i (cstr msg.username)
  pm : ∀ fd buf sent, a = .send fd buf sent → IsPm buf → ∃ u, Proved tr i u ∧ PmFrom u buf

/-! ## One action -/

def Act.chats : Act → Bool
  | .registryAdd .. | .registryRemove _ | .registrySetRoom .. | .roomHistoryAdd .. => true
  | .mqPush _ | .mqPop | .mqSignalShutdown => true
  | _ => false

section
variable {P : Platform} {T : Prop} {tid : Tid} {e : Env} {s s' : Server} {v : View} {a : Act} {r : a.Ret}

def View.Quiet : View → Prop
  | .checked .. | .online .. | .casting | .ending => False
  | _ => True

theorem exec_sameChat (ha : a.chats = false) (hx : exec P tid a e s = some (r, s')) : SameChat s s' := by
  cases a with
  | registryAdd | registryRemove | registrySetRoom | roomHistoryAdd | mqPush | mqPop | mqSignalShutdown => cases ha
  | start =>
    obtain ⟨rfl, -⟩ := exec_start hx
    exact ⟨rfl, rfl, rfl⟩
  | authVerify =>
    cases hx
    refine ⟨?_, ?_, ?_⟩ <;> split <;> rfl
  | accept =>
    rcases exec_accept hx with ⟨-, rfl⟩ | ⟨fd, -, -, rfl⟩
    · exact ⟨rfl, rfl, rfl⟩
    · exact ⟨rfl, rfl, rfl⟩
  | connTrackDecrement =>
    cases hx
    refine ⟨?_, ?_, ?_⟩ <;> split <;> rfl
  | spawn =>
    rcases exec_spawn hx with ⟨-, rfl⟩ | ⟨-, rfl⟩
    · exact ⟨rfl, rfl, rfl⟩
    · exact ⟨rfl, rfl, rfl⟩
  | _ => cases hx; exact ⟨rfl, rfl, rfl⟩

theorem quiet_sameChat (hq : v.Quiet) (ha : allowed T a v) (hx : exec P tid a e s = some (r, s')) : SameChat s s' := by
  cases a with
  | registryAdd => obtain ⟨rfl, -⟩ := ha; cases hq
  | registryRemove => obtain ⟨_, rfl⟩ := ha; cases hq
  | registrySetRoom => obtain ⟨_, rfl⟩ := ha; cases hq
  | roomHistoryAdd => obtain ⟨-, _, rfl⟩ := ha; cases hq
  | mqPush =>
    cases v with
    | checked | online | casting | ending => cases hq
    | _ => cases ha
  | mqPop => obtain rfl : v = .casting := ha; cases hq
  | mqSignalShutdown => obtain rfl : v = .ending := ha; cases hq
  | _ => exact exec_sameChat rfl hx

theorem quiet_send {fd : Int} {buf : Bytes} {sent : Nat} (hq : v.Quiet) (hs : Sat tid v s)
    (ha : allowed T (.send fd buf sent) v) : ∃ c ∈ s.conns, c.fd = fd ∧ Owns tid c := by
  cases v with
  | held fd' id =>
    cases tid with
    | main => exact ⟨_, hs, ha.1.symm, rfl⟩
    | _ => cases hs
  | fresh fd' =>
    cases tid with
    | handler i => exact ⟨_, hs.1, ha.1.symm, rfl, rfl⟩
    | _ => cases hs
  | casting | ending | checked | online => cases hq
  | _ => cases ha

theorem quiet_of_unverified {i : Nat} (hs : Sat (.handler i) v s) (hnone : s.verified i = none) : v.Quiet := by
  cases v with
  | casting | ending => cases hs
  | checked | online => rw [hs.2.1] at hnone; cases hnone
  | _ => trivial

theorem send_isPm {fd : Int} {buf : Bytes} {sent : Nat} (hs : Sat tid v s) (ha : allowed T (.send fd buf sent) v)
    (hpm : IsPm buf) : ∃ i u, tid = .handler i ∧ s.verified i = some u ∧ PmFrom u buf := by
  cases v with
  | online fd' u =>
    cases tid with
    | handler i => exact ⟨i, u, rfl, hs.2.1, ha hpm⟩
    | _ => cases hs
  | held | fresh | checked => exact absurd hpm ha.2
  | casting => exact absurd hpm ha
  | _ => cases ha

theorem exec_history {i : Nat} (hs : Sat (.handler i) v s) (ha : allowed T a v)
    (hx : exec P (.handler i) a e s = some (r, s')) :
    s'.rooms = s.rooms ∨ ∃ mem room u content ts, s'.rooms = (roomHistoryAdd P s.rooms mem room u content ts).2 ∧
      s.verified i = some u ∧ ∀ entry, cstr (fillEntry P u content ts entry).username.bytes = u := by
  cases a with
  | roomHistoryAdd room u content ts =>
    obtain ⟨⟨h0, hl⟩, fd, rfl⟩ := ha
    cases hx
    exact Or.inr ⟨e.malloc, room, u, content, ts, rfl, hs.2.1, fun entry => entry.username.cstr_copy h0 (Nat.le_pred_of_lt hl)⟩
  | registryAdd => exact Or.inl (exec_registryAdd hx).1
  | mqPop => obtain rfl : v = .casting := ha; cases hs
  | registryRemove | registrySetRoom | mqPush | mqSignalShutdown => cases hx; exact Or.inl rfl
  | _ => exact Or.inl (exec_sameChat rfl hx).2.1

theorem mqPush_cases (q : MessageQueue) (node : Bool) (msg : MqMessage) :
    (mqPush q node msg).2 = q ∨ (mqPush q node msg).2.msgs = q.msgs ++ [msg] := by
  unfold mqPush
  split
  · exact Or.inl rfl
  split
  · exact Or.inl rfl
  · exact Or.inr rfl

theorem exec_events {i : Nat} (hT : T) (hs : Sat (.handler i) v s) (ha : allowed T a v)
    (hx : exec P (.handler i) a e s = some (r, s')) :
    s'.queue = s.queue ∨ ∃ msg, s'.queue.msgs = s.queue.msgs ++ [msg] ∧ s.verified i = some (cstr msg.username) := by
  cases a with
  | mqPush msg =>
    cases v with
    | online fd u =>
      cases hx
      refine (mqPush_cases s.queue e.malloc msg).imp_right fun h => ⟨msg, h, ?_⟩
      rw [ha hT]
      exact hs.2.1
    | ending => cases hs
    | _ => cases ha
  | registryAdd => exact Or.inl (exec_registryAdd hx).2.1
  | mqPop => obtain rfl : v = .casting := ha; cases hs
  | mqSignalShutdown => obtain rfl : v = .ending := ha; cases hs
  | registryRemove | registrySetRoom | roomHistoryAdd => cases hx; exact Or.inl rfl
  | _ => exact Or.inl (exec_sameChat rfl hx).2.2

theorem authVerify_unverified {i : Nat} {u p : Bytes} (hs : Sat (.handler i) v s) (ha : allowed T (.authVerify u p) v) :
    s.verified i = none := by
  obtain ⟨fd, rfl⟩ := ha
  exact hs.2.1

def Act.verifies : Act → Bool
  | .authVerify .. => true
  | _ => false

theorem exec_verified (hs : Sat tid v s) (ha : allowed T a v) (hx : exec P tid a e s = some (r, s')) {i : Nat} {u : Bytes} :
    s'.verified i = some u ↔ s.verified i = some u ∨
      ∃ p, (⟨tid, a, r⟩ : Label Tid Act.Ret) = ⟨.handler i, .authVerify u p, ChatStatus.ok⟩ := by
  have other : a.verifies = false → s'.verified = s.verified → (s'.verified i = some u ↔ s.verified i = some u ∨
      ∃ p, (⟨tid, a, r⟩ : Label Tid Act.Ret) = ⟨.handler i, .authVerify u p, ChatStatus.ok⟩) := by
    intro hne hv
    rw [hv, or_iff_left]
    rintro ⟨p, h⟩
    rw [show a = .authVerify u p from congrArg Label.act h] at hne
    cases hne
  cases a with
  | authVerify u' p' =>
    cases tid with
    | main | broadcaster | signal =>
      obtain ⟨_, rfl⟩ := ha
      cases hs
    | handler j =>
      have hnone := authVerify_unverified hs ha
      rcases exec_authVerify hx with ⟨rfl, rfl⟩ | ⟨hrc, rfl⟩
      · by_cases hij : i = j
        · subst hij
          simp only [Server.passed, Function.update_self, hnone]
          constructor
          · intro h; cases h; exact Or.inr ⟨p', rfl⟩
          · rintro (h | ⟨p, h⟩)
            · cases h
            · cases h; rfl
        · simp only [Server.passed, Function.update_of_ne hij]
          rw [or_iff_left]
          rintro ⟨p, h⟩
          cases h
          exact hij rfl
      · rw [or_iff_left]
        rintro ⟨p, h⟩
        cases h
        exact hrc rfl
  | registryAdd => exact other rfl (exec_registryAdd hx).2.2.2
  | accept =>
    apply other rfl
    rcases exec_accept hx with ⟨-, rfl⟩ | ⟨fd, -, -, rfl⟩
    · rfl
    · rfl
  | spawn =>
    apply other rfl
    rcases exec_spawn hx with ⟨-, rfl⟩ | ⟨-, rfl⟩
    · rfl
    · rfl
  | close | registryRemove | registrySetRoom => exact other rfl (by cases hx; rfl)
  | _ => exact other rfl (exec_unmoved rfl hx).verified

end

/-! ## Every run -/

section
variable {P : Platform} {db : AuthDb} {tr : List (Label Tid Act.Ret)} {c : System}

/-- The history variable is what the trace says. -/
theorem verified_iff {ok : Env → Prop} (hr : Run (System.Step P ok) (System.init db) tr c) {i : Nat} {u : Bytes} :
    c.shared.verified i = some u ↔ Proved tr i u := by
  induction hr with
  | nil =>
    refine iff_of_false nofun ?_
    rintro ⟨_, h⟩
    cases h
  | @snoc c c' tr l hr hs ih =>
    obtain ⟨v, e, hsat, ha, hx⟩ := step_allowed (run_holds (T := False) (fun _ _ => False.elim) hr) hs
    rw [exec_verified hsat ha hx, ih]
    constructor
    · rintro (⟨p, hp⟩ | ⟨p, hl⟩)
      · exact ⟨p, List.mem_append_left _ hp⟩
      · exact ⟨p, List.mem_append_right _ (by rw [← hl]; exact List.mem_singleton_self _)⟩
    · rintro ⟨p, hp⟩
      rcases List.mem_append.mp hp with hp | hp
      · exact Or.inl ⟨p, hp⟩
      · exact Or.inr ⟨p, (List.mem_singleton.mp hp).symm⟩

theorem serving_silent {T : Prop} {ok : Env → Prop} {c' : System} {l : Label Tid Act.Ret}
    (hc : Holds (Inv T) (fun tid t => t.Good T tid) c) (hs : System.Step P ok c l c') {p : Cmd Unit}
    (hp : c.loc .main = .main (.serving p)) (htid : l.tid = .main) :
    SameChat c.shared c'.shared ∧
      ∀ fd buf sent, l.act = .send fd buf sent → ∃ d ∈ c.shared.conns, d.fd = fd ∧ d.spawned = false := by
  cases hs with
  | @mk tid a k e r s' hn he hx =>
    obtain rfl : tid = .main := htid
    have hg := hc.2 .main
    rw [hp] at hn hg
    obtain ⟨v, hv, hs, ha⟩ : ∃ v, v ≠ .ending ∧ Sat .main v c.shared ∧ allowed T a v := by
      cases p with
      | ret => cases hn
      | act b kb =>
        cases hn
        obtain ⟨v, hv, hs, ⟨ha, -⟩, -⟩ := hg
        exact ⟨v, hv, hs, ha⟩
    have hq : v.Quiet := by
      cases v with
      | ending => exact hv rfl
      | checked | online | casting => cases hs
      | _ => trivial
    refine ⟨quiet_sameChat hq ha hx, ?_⟩
    rintro fd buf sent rfl
    exact quiet_send hq hs ha

/-- The authentication gate and the identity of the senders, at any step of any run. -/
theorem speaks_as_proved (hr : Run (System.Step P Env.Terminated) (System.init db) tr c) {l : Label Tid Act.Ret}
    {c' : System} (hs : System.Step P Env.Terminated c l c') :
    (∀ i, l.tid = .handler i → SpeaksFor P tr i l.act c.shared c'.shared) ∧
    (∀ p, c.loc .main = .main (.serving p) → l.tid = .main → SameChat c.shared c'.shared ∧
      ∀ fd buf sent, l.act = .send fd buf sent → ∃ d ∈ c.shared.conns, d.fd = fd ∧ d.spawned = false) ∧
    ∀ fd buf sent, l.act = .send fd buf sent → IsPm buf → ∃ i, l.tid = .handler i := by
  have hholds : Holds (Inv True) (fun tid t => t.Good True tid) c := run_holds (fun _ he _ => he) hr
  obtain ⟨v, e, hsat, ha, hx⟩ := step_allowed hholds hs
  obtain ⟨tid, a, r⟩ := l
  refine ⟨?_, fun p hp htid => serving_silent hholds hs hp htid, ?_⟩
  · rintro i rfl
    refine ⟨fun hno => ?_, ?_, ?_, ?_⟩
    · have hnone : c.shared.verified i = none := by
        cases hv : c.shared.verified i with
        | none => rfl
        | some u => exact absurd ((verified_iff hr).mp hv) (hno u)
      have hq := quiet_of_unverified hsat hnone
      refine ⟨quiet_sameChat hq ha hx, ?_⟩
      rintro fd buf sent rfl
      obtain ⟨d, hd, hfd, hid, -⟩ := quiet_send hq hsat ha
      exact ⟨d, hd, hfd, hid⟩
    · refine (exec_history hsat ha hx).imp_right ?_
      rintro ⟨mem, room, u, content, ts, hrooms, hu, hentry⟩
      exact ⟨mem, room, u, content, ts, hrooms, (verified_iff hr).mp hu, hentry⟩
    · refine (exec_events trivial hsat ha hx).imp_right ?_
      rintro ⟨msg, hqueue, hu⟩
      exact ⟨msg, hqueue, (verified_iff hr).mp hu⟩
    · rintro fd buf sent rfl hpm
      obtain ⟨j, u, hj, hu, hfrom⟩ := send_isPm hsat ha hpm
      cases hj
      exact ⟨u, (verified_iff hr).mp hu, hfrom⟩
  · rintro fd buf sent rfl hpm
    obtain ⟨j, u, hj, -⟩ := send_isPm hsat ha hpm
    exact ⟨j, hj⟩

end

theorem speaks_as_proved_bob : ∃ tr c l c', Run (System.Step passPlatform Env.Terminated) (System.init passDb) tr c ∧
    System.Step passPlatform Env.Terminated c l c' ∧ SpeaksFor passPlatform tr 0 l.act c.shared c'.shared ∧
    c'.shared.queue.msgs.map (fun msg => cstr msg.username) = [lit "bob"] ∧ Proved tr 0 (lit "bob") := by
  have hsunny := sunny_logIn 0 5 "bob"
  obtain ⟨tr, c, hr, hp⟩ := System.exists_run passPlatform Env.Terminated (System.init passDb) ((logIn 0 5 "bob").take 20)
    (fun q hq => hsunny q (List.mem_of_mem_take hq))
    (p := fun q => q.2.shared.queue.msgs.isEmpty &&
      (stepWith (Thread.next passPlatform) (exec passPlatform) q.2 (.handler 0) (sunny "" 5 1)).any fun q =>
        q.1.tid == .handler 0 && q.2.shared.queue.msgs.map (fun msg => cstr msg.username) == [lit "bob"]) (by decide +kernel)
  rw [Bool.and_eq_true, Option.any_eq_true] at hp
  obtain ⟨hempty, ⟨l, c'⟩, hstep, hp⟩ := hp
  rw [Bool.and_eq_true, beq_iff_eq, beq_iff_eq] at hp
  obtain ⟨htid, hmsgs⟩ := hp
  have hs : System.Step passPlatform Env.Terminated c l c' := step_of_stepWith (sunny_terminated "" 5 1) hstep
  have hspeaks := (speaks_as_proved hr hs).1 0 htid
  refine ⟨tr, c, l, c', hr, hs, hspeaks, hmsgs, ?_⟩
  have hnil : c.shared.queue.msgs = [] := List.isEmpty_iff.mp hempty
  rcases hspeaks.events with hsame | ⟨msg, hadd, hproved⟩
  · rw [hsame, hnil] at hmsgs
    cases hmsgs
  · rw [hadd, hnil] at hmsgs
    have hname : cstr msg.username = lit "bob" := by simpa using hmsgs
    rwa [hname] at hproved

end ChatServer

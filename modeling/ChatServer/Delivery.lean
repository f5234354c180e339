import ChatServer.Identity

/-!
# Lines for one user

`PM` and `KICK` look a descriptor up and use it later. In between its
connection may be closed, and `accept` may hand the number out again; that is
the only way to reach somebody else.
-/

namespace ChatServer

open CStr Interleave

def Touches (fd : Int) : Act → Prop
  | .send fd' _ _ => fd' = fd
  | .shutdown fd' => fd' = fd
  | _ => False

/-- The running command has looked up `username`, found `fd`, and may still touch it. -/
def Handler.Aims (h : Handler) (username : Bytes) (fd : Int) : Prop :=
  h.target = some (username, fd) ∧ ∃ cont p, h.point = .busy cont p ∧ Prog.Ahead (Touches fd) p

/-- `accept` hands out no descriptor that a running command aims at. -/
def Spares (c : System) (l : Label Tid Act.Ret) : Prop :=
  ∀ tid fd id, l = ⟨tid, .accept, some (fd, id)⟩ → ∀ i h username, c.handler i = some h → ¬ h.Aims username fd

/-- After the trace `tr`, a step of a command on the descriptor that it looked
up reaches a session that has proved the name. -/
def ReachesTarget (tr : List (Label Tid Act.Ret)) (c : System) (l : Label Tid Act.Ret) : Prop :=
  ∀ i h username fd, l.tid = .handler i → c.handler i = some h → h.target = some (username, fd) → Touches fd l.act →
    ∀ d ∈ c.shared.conns, d.fd = fd → Proved tr d.id username

def Held (s : Server) (username : Bytes) (fd : Int) : Prop :=
  ∀ d ∈ s.conns, d.fd = fd → s.verified d.id = some username

def Aimed (c : System) : Prop :=
  ∀ i h username fd, c.handler i = some h → h.Aims username fd → Held c.shared username fd

/-! ## One action -/

section
variable {P : Platform} {T : Prop} {tid : Tid} {e : Env} {s s' : Server} {v : View} {a : Act} {r : a.Ret}

theorem exec_conns (hx : exec P tid a e s = some (r, s')) {d : Conn} (hd : d ∈ s'.conns) :
    (∃ d' ∈ s.conns, d'.fd = d.fd ∧ d'.id = d.id) ∨
      (⟨tid, a, r⟩ : Label Tid Act.Ret) = ⟨tid, .accept, some (d.fd, d.id)⟩ := by
  cases a with
  | close fd =>
    cases hx
    exact Or.inl ⟨d, (List.mem_filter.mp hd).1, rfl, rfl⟩
  | authVerify u p =>
    cases hx
    refine Or.inl ⟨d, ?_, rfl, rfl⟩
    split at hd <;> exact hd
  | registryAdd => rw [(exec_registryAdd hx).2.2.1] at hd; exact Or.inl ⟨d, hd, rfl, rfl⟩
  | registryRemove | registrySetRoom => cases hx; exact Or.inl ⟨d, hd, rfl, rfl⟩
  | accept =>
    rcases exec_accept hx with ⟨-, rfl⟩ | ⟨fd, rfl, -, rfl⟩
    · exact Or.inl ⟨d, hd, rfl, rfl⟩
    · rcases List.mem_cons.mp hd with rfl | hd
      · exact Or.inr rfl
      · exact Or.inl ⟨d, hd, rfl, rfl⟩
  | spawn fd id =>
    rcases exec_spawn hx with ⟨-, rfl⟩ | ⟨-, rfl⟩
    · exact Or.inl (of_mem_spawned hd)
    · exact Or.inl ⟨d, hd, rfl, rfl⟩
  | _ => rw [(exec_unmoved rfl hx).conns] at hd; exact Or.inl ⟨d, hd, rfl, rfl⟩

theorem Held.exec {username : Bytes} {fd : Int} (h : Held s username fd) (hs : Sat tid v s) (ha : allowed T a v)
    (hx : exec P tid a e s = some (r, s'))
    (hno : ∀ id, (⟨tid, a, r⟩ : Label Tid Act.Ret) ≠ ⟨tid, .accept, some (fd, id)⟩) : Held s' username fd := by
  rintro d hd rfl
  rcases exec_conns hx hd with ⟨d', hd', hfd, hid⟩ | hacc
  · refine (exec_verified hs ha hx).mpr (Or.inl ?_)
    rw [← hid]
    exact h d' hd' hfd
  · exact absurd hacc (hno d.id)

/-- The lookup finds the connection of a session that proved the name. -/
theorem lookup_held (hi : Inv T s) {username : Bytes} (hu : NameLike username) {fd : Int} (hfd : 0 ≤ fd)
    (hlook : registryGetSockfdByUsername s.registry username = fd) : Held s username fd := by
  unfold registryGetSockfdByUsername at hlook
  split at hlook
  · subst hlook; cases hfd
  · rename_i n hfind
    have hn := List.mem_of_find?_eq_some hfind
    have hstr : streq n.username username = true := by simpa using List.find?_some hfind
    have hname : n.name = username := by
      rw [ClientNode.name, streq_iff.mp hstr, cstr_of_nulFree hu.1]
      exact List.take_of_length_le (Nat.le_pred_of_lt hu.2)
    obtain ⟨hc, hv⟩ := hi.1.owned n hn
    intro d hd he
    have hd' := hi.1.conn_fd hd hc (he.trans hlook.symm)
    rw [hd', ← hname]
    exact hv

end

/-! ## What a handler aims at -/

namespace Handler

section
variable {h : Handler} {username : Bytes} {fd : Int}

theorem not_aims_of_target (ht : h.target = none) : ¬ h.Aims username fd := by
  rintro ⟨he, -⟩
  rw [ht] at he
  cases he

theorem enter_target (ht : h.target = none) (cont : Cont) : ∀ p, (h.enter cont p).target = none
  | .act _ _ => ht
  | .ret rc => by
    show (h.after cont rc).target = none
    unfold after
    split
    · exact ht
    · split
      · rfl
      · exact ht
    · split
      · rfl
      · exact ht

theorem dispatch_target (ht : h.target = none) (P : Platform) (line : Bytes) : (h.dispatch P line).target = none := by
  unfold dispatch
  rcases protocolParseClientLine line with ⟨rc, cmd⟩
  simp only
  split
  · exact enter_target ht _ _
  split
  · split
    · exact enter_target ht _ _
    · exact enter_target ht _ _
  split
  · exact enter_target ht _ _
  · exact enter_target ht _ _
  · exact enter_target ht _ _
  · exact enter_target ht _ _
  · exact enter_target ht _ _
  · exact enter_target ht _ _
  · rfl
  · exact enter_target ht _ _

theorem enter_aims (cont : Cont) : ∀ p, (h.enter cont p).Aims username fd →
    h.target = some (username, fd) ∧ Prog.Ahead (Touches fd) p
  | .act a k, ⟨ht, _, _, hp, hah⟩ => by cases hp; exact ⟨ht, hah⟩
  | .ret rc, ha => by
    exfalso
    change (h.after cont rc).Aims username fd at ha
    unfold after at ha
    split at ha
    · obtain ⟨-, _, _, hp, -⟩ := ha; cases hp
    · split at ha
      · exact not_aims_of_target rfl ha
      · obtain ⟨-, _, _, hp, -⟩ := ha; cases hp
    · split at ha
      · exact not_aims_of_target rfl ha
      · obtain ⟨-, _, _, hp, -⟩ := ha; cases hp

theorem note_target (a : Act) (r : a.Ret) (ht : (h.note a r).target = some (username, fd)) :
    h.target = some (username, fd) ∨
      (0 ≤ fd ∧ (⟨a, r⟩ : (a : Act) × a.Ret) = ⟨.registryGetSockfdByUsername username, fd⟩) := by
  cases a with
  | registryGetSockfdByUsername username' =>
    change (h.aim username' r).target = _ at ht
    unfold aim at ht
    split at ht
    · exact Or.inl ht
    · rename_i hr
      cases ht
      exact Or.inr ⟨Int.not_lt.mp hr, rfl⟩
  | _ => exact Or.inl ht

theorem next_aims {P : Platform} {a : Act} {k : a.Ret → Handler} (hn : h.next P = some ⟨a, k⟩) {r : a.Ret}
    (ha : (k r).Aims username fd) :
    h.Aims username fd ∨ (0 ≤ fd ∧ (⟨a, r⟩ : (a : Act) × a.Ret) = ⟨.registryGetSockfdByUsername username, fd⟩) := by
  unfold next at hn
  cases hpoint : h.point with
  | unborn =>
    rw [hpoint] at hn
    cases hn
    obtain ⟨-, _, _, hp, -⟩ := ha
    cases hp
  | top =>
    rw [hpoint] at hn
    cases hn
    change Bool at r
    cases r with
    | true => obtain ⟨-, _, _, hp, -⟩ := ha; cases hp
    | false => exact absurd ha (not_aims_of_target rfl)
  | reading =>
    rw [hpoint] at hn
    cases hn
    change Option Bytes at r
    cases r with
    | none => exact absurd ha (not_aims_of_target rfl)
    | some line => exact absurd ha (not_aims_of_target (dispatch_target rfl P line))
  | done => rw [hpoint] at hn; cases hn
  | busy cont p =>
    cases p with
    | ret => rw [hpoint] at hn; cases hn
    | act b kb =>
      rw [hpoint] at hn
      cases hn
      obtain ⟨ht, hah⟩ := enter_aims cont (kb r) ha
      refine (note_target _ r ht).imp_left fun ht => ⟨ht, cont, _, hpoint, .later r hah⟩

theorem aims_of_touches {P : Platform} {a : Act} {k : a.Ret → Handler} (hn : h.next P = some ⟨a, k⟩)
    (ht : h.target = some (username, fd)) (ha : Touches fd a) : h.Aims username fd := by
  unfold next at hn
  cases hpoint : h.point with
  | busy cont p =>
    cases p with
    | ret => rw [hpoint] at hn; cases hn
    | act b kb =>
      rw [hpoint] at hn
      cases hn
      exact ⟨ht, cont, _, hpoint, .here ha⟩
  | done => rw [hpoint] at hn; cases hn
  | unborn | top | reading => rw [hpoint] at hn; cases hn; cases ha

end
end Handler

/-! ## Every run -/

section
variable {P : Platform} {ok : Env → Prop} {c c' : System} {l : Label Tid Act.Ret}

/-- What a thread aims at after a step it aimed at before, or has just looked up. -/
theorem step_aims (hs : System.Step P ok c l c') {i : Nat} {h' : Handler} (hh' : c'.handler i = some h')
    {username : Bytes} {fd : Int} (ha : h'.Aims username fd) :
    (∃ h, c.handler i = some h ∧ h.Aims username fd) ∨
      (0 ≤ fd ∧ l = ⟨.handler i, .registryGetSockfdByUsername username, fd⟩) := by
  cases hs with
  | @mk tid a k e r s' hn he hx =>
    replace hh' : Function.update c.loc tid (k r) (.handler i) = .handler h' := System.handler_eq.mp hh'
    by_cases hi : tid = .handler i
    · subst hi
      rw [Function.update_self] at hh'
      cases ht : c.loc (.handler i) with
      | handler h =>
        rw [ht] at hn
        obtain ⟨⟨b, kb⟩, hb, heq⟩ := Option.map_eq_some_iff.mp hn
        cases heq
        cases hh'
        refine (Handler.next_aims hb ha).imp (fun haim => ⟨h, System.handler_eq.mpr ht, haim⟩) ?_
        rintro ⟨hfd, hlook⟩
        cases hlook
        exact ⟨hfd, rfl⟩
      | signal => rw [ht] at hn; cases hn; cases hh'
      | main | broadcaster =>
        rw [ht] at hn
        obtain ⟨_, -, heq⟩ := Option.map_eq_some_iff.mp hn
        cases heq
        cases hh'
    · rw [Function.update_of_ne (Ne.symm hi)] at hh'
      exact Or.inl ⟨h', System.handler_eq.mpr hh', ha⟩

theorem Aimed.step (hc : Holds (Inv False) (fun tid t => t.Good False tid) c) (hA : Aimed c)
    (hs : System.Step P ok c l c') (hsp : Spares c l) : Aimed c' := by
  intro i h' username fd hh' haim'
  obtain ⟨v, e, hsat, ha, hx⟩ := step_allowed hc hs
  rcases step_aims hs hh' haim' with ⟨h, hh, haim⟩ | ⟨hfd, rfl⟩
  · exact (hA i h username fd hh haim).exec hsat ha hx fun id he => hsp l.tid fd id he i h username hh haim
  · obtain ⟨hlook, hsame⟩ := Prod.mk.inj (Option.some.inj hx)
    rw [← hsame]
    exact lookup_held hc.1 ha.2 hfd hlook

def Unaimed (c : System) : Prop := ∀ i h username fd, c.handler i = some h → ¬ h.Aims username fd

theorem unaimed_init (db : AuthDb) : Unaimed (System.init db) := by
  intro i h username fd hh
  obtain rfl : h = .unborn := (Thread.handler.inj (System.handler_eq.mp hh)).symm
  exact Handler.not_aims_of_target rfl

/-- In the runs in which no `accept` hands out a descriptor that a command aims
at, every line and every `shutdown` for a user reaches a session of that user. -/
theorem reaches_target {db : AuthDb} {tr : List (Label Tid Act.Ret)}
    (hr : Run (fun c l c' => System.Step P (fun _ => True) c l c' ∧ Spares c l) (System.init db) tr c)
    (hs : System.Step P (fun _ => True) c l c') : ReachesTarget tr c l := by
  obtain ⟨hc, hA⟩ : Holds (Inv False) (fun tid t => t.Good False tid) c ∧ Aimed c := by
    refine hr.invariant (I := fun c => Holds (Inv False) (fun tid t => t.Good False tid) c ∧ Aimed c) ?_ ⟨init_holds db, ?_⟩
    · rintro c l c' ⟨hc, hA⟩ ⟨hs, hsp⟩
      exact ⟨(outline fun _ _ => False.elim).step hc hs, hA.step hc hs hsp⟩
    · exact fun i h username fd hh ha => absurd ha (unaimed_init db i h username fd hh)
  intro i h username fd htid hh ht hto d hd hfd
  rw [← verified_iff (hr.mono fun _ _ _ h => h.1)]
  refine hA i h username fd hh ?_ d hd hfd
  cases hs with
  | @mk tid a k e r s' hn he hx =>
    obtain rfl : tid = .handler i := htid
    rw [System.handler_eq.mp hh] at hn
    obtain ⟨⟨b, kb⟩, hb, heq⟩ := Option.map_eq_some_iff.mp hn
    cases heq
    exact Handler.aims_of_touches hb ht hto

/-! ### `alice` writes to `bob` -/

def looksUp : Act → Bool
  | .registryGetSockfdByUsername _ => true
  | _ => false

theorem spares_of_unaimed {tr : List (Label Tid Act.Ret)} (hr : Run (System.Step P ok) c tr c') (hc : Unaimed c)
    (htr : ∀ l ∈ tr, looksUp l.act = false) :
    Run (fun c l c' => System.Step P ok c l c' ∧ Spares c l) c tr c' := by
  refine (?_ : _ ∧ Unaimed c').1
  induction hr with
  | nil => exact ⟨.nil, hc⟩
  | @snoc c₁ c₂ tr l _ hs ih =>
    obtain ⟨hr₁, hc₁⟩ := ih fun l hl => htr l (List.mem_append_left _ hl)
    refine ⟨.snoc hr₁ ⟨hs, fun _ fd _ _ i h username hh => hc₁ i h username fd hh⟩, ?_⟩
    intro i h username fd hh ha
    rcases step_aims hs hh ha with ⟨h₁, hh₁, ha₁⟩ | ⟨-, rfl⟩
    · exact hc₁ i h₁ username fd hh₁ ha₁
    · cases htr _ (List.mem_append_right _ (List.mem_singleton_self _))

theorem spares_of_no_accept {tr : List (Label Tid Act.Ret)} (hr : Run (System.Step P ok) c tr c')
    (htr : ∀ l ∈ tr, l.act ≠ .accept) : Run (fun c l c' => System.Step P ok c l c' ∧ Spares c l) c tr c' := by
  induction hr with
  | nil => exact .nil
  | @snoc c₁ c₂ tr l _ hs ih =>
    refine .snoc (ih fun l hl => htr l (List.mem_append_left _ hl)) ⟨hs, ?_⟩
    rintro tid fd id rfl
    exact absurd rfl (htr _ (List.mem_append_right _ (List.mem_singleton_self _)))

end

def sendsPm (fd : Int) : Act → Bool
  | .send fd' buf _ => fd' == fd && decide (IsPm buf)
  | _ => false

theorem sendsPm_touches {fd : Int} : ∀ {a : Act}, sendsPm fd a = true → Touches fd a
  | .send fd' buf sent, h => by
    rw [sendsPm, Bool.and_eq_true, beq_iff_eq] at h
    exact h.1

def bothIn : List (Tid × Env) := logIn 0 5 "alice" ++ logIn 1 6 "bob"

theorem sunny_bothIn : ∀ p ∈ bothIn, p.2.Terminated := by
  intro p hp
  rcases List.mem_append.mp hp with hp | hp
  · exact sunny_logIn 0 5 "alice" p hp
  · exact sunny_logIn 1 6 "bob" p hp

def lookUp : List (Tid × Env) := List.replicate 3 (.handler 0, sunny "PM bob hi" 0 0)

/-- `bob` leaves, and `accept` hands his descriptor out again. -/
def replaced : List (Tid × Env) :=
  List.replicate 8 (.handler 1, { sunny "" 0 0 with line := none }) ++ List.replicate 2 (.main, sunny "" 6 0)

def deliver (c : System) : Option (Label Tid Act.Ret × System) :=
  stepWith (Thread.next passPlatform) (exec passPlatform) c (.handler 0) (sunny "" 0 0)

theorem reaches_target_bob : ∃ tr c l c',
    Run (fun c l c' => System.Step passPlatform (fun _ => True) c l c' ∧ Spares c l) (System.init passDb) tr c ∧
    System.Step passPlatform (fun _ => True) c l c' ∧ sendsPm 6 l.act = true ∧
    ∃ d ∈ c.shared.conns, d.fd = 6 ∧ Proved tr d.id (lit "bob") := by
  obtain ⟨tr₁, c₁, hr₁, hp⟩ := System.exists_run passPlatform (fun _ => True) (System.init passDb) bothIn (fun _ _ => trivial)
    (p := fun q => q.1.all (fun l => looksUp l.act == false) &&
      (schedule (Thread.next passPlatform) (exec passPlatform) q.2 (lookUp ++ [(.handler 0, sunny "" 0 0)])).any fun q =>
        q.1.all (fun l => l.act != .accept) && (q.2.shared.conns.any fun d => d.fd == 6) &&
        ((System.handler q.2 0).any fun h => h.target == some (lit "bob", 6)) &&
        (deliver q.2).any fun r => r.1.tid == .handler 0 && sendsPm 6 r.1.act) (by decide +kernel)
  obtain ⟨hlook, hp⟩ := (Bool.and_eq_true _ _).mp hp
  obtain ⟨tr₂, c, hr₂, hp⟩ := System.exists_run passPlatform (fun _ => True) c₁ _ (fun _ _ => trivial) hp
  simp only [Bool.and_eq_true, List.any_eq_true, List.all_eq_true, Option.any_eq_true, beq_iff_eq, bne_iff_ne] at hlook hp
  obtain ⟨⟨⟨hacc, d, hd, hfd⟩, h, hh, ht⟩, ⟨l, c'⟩, hstep, htid, hpm⟩ := hp
  have hr := (spares_of_unaimed hr₁ (unaimed_init passDb) hlook).trans (spares_of_no_accept hr₂ hacc)
  have hs : System.Step passPlatform (fun _ => True) c l c' := step_of_stepWith trivial hstep
  have hreach := reaches_target hr hs 0 h (lit "bob") 6 htid hh ht (sendsPm_touches hpm) d hd hfd
  exact ⟨tr₁ ++ tr₂, c, l, c', hr, hs, hpm, d, hd, hfd, hreach⟩

/-- The `PM` line for `bob` is sent to a connection that has not logged in. -/
theorem pm_reaches_stranger : ∃ tr c l c', Run (System.Step passPlatform fun _ => True) (System.init passDb) tr c ∧
    System.Step passPlatform (fun _ => True) c l c' ∧ sendsPm 6 l.act = true ∧ ¬ ReachesTarget tr c l := by
  obtain ⟨tr, c, hr, hp⟩ := System.exists_run passPlatform (fun _ => True) (System.init passDb)
    (bothIn ++ lookUp ++ replaced ++ [(.handler 0, sunny "" 0 0)]) (fun _ _ => trivial)
    (p := fun q => (q.2.shared.conns.any fun d => d.fd == 6 && q.2.shared.verified d.id == none) &&
      ((q.2.handler 0).any fun h => h.target == some (lit "bob", 6)) &&
      (deliver q.2).any fun r => r.1.tid == .handler 0 && sendsPm 6 r.1.act) (by decide +kernel)
  simp only [Bool.and_eq_true, List.any_eq_true, Option.any_eq_true, beq_iff_eq] at hp
  obtain ⟨⟨⟨d, hd, hfd, hv⟩, h, hh, ht⟩, ⟨l, c'⟩, hstep, htid, hpm⟩ := hp
  refine ⟨tr, c, l, c', hr, step_of_stepWith trivial hstep, hpm, fun hreach => ?_⟩
  have hproved := hreach 0 h (lit "bob") 6 htid hh ht (sendsPm_touches hpm) d hd hfd
  rw [← verified_iff hr, hv] at hproved
  cases hproved

end ChatServer

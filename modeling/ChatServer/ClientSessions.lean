import ChatServer.Hearing

/-!
# Client and server agree on the session

Each handler's client, over a whole run: what it has heard on its connection
follows its handler, whatever else is sent there.
-/

namespace ChatServer

open CStr Interleave Prog

/-! ## The connection of a handler -/

namespace Phase

/-- The handler has its connection. -/
def talks : Phase → Bool
  | .fresh _ | .checked .. | .entered .. | .present .. | .left .. | .moved .. | .removed .. => true
  | _ => false

theorem conn_of_talks {p : Phase} (h : p.talks = true) {i : Nat} {s : Server} (hs : Sat (.handler i) p.view s) :
    ⟨p.fd, i, true⟩ ∈ s.conns := by
  cases p with
  | fresh | checked | entered | present | left | moved | removed => exact hs.1
  | _ => cases h

theorem talks_of_send {T : Prop} {p : Phase} {fd : Int} {buf : Bytes} {sent : Nat} (ha : allowed T (.send fd buf sent) p.view) {i : Nat}
    {s : Server} (hs : Sat (.handler i) p.view s) : p.talks = true := by
  cases p with
  | fresh | checked | entered | present | left | moved | removed => rfl
  | idle | accepted | refused | cleared | counted | dropped | ending | casting => cases hs
  | unborn | closed | ended => cases ha

theorem next_talks {T : Prop} {p : Phase} {a : Act} (hsw : ¬ Switches a) (ha : allowed T a p.view) (hp : p.permits T a) (r : a.Ret) :
    (p.next a r).talks = p.talks ∧ (p.talks = true → (p.next a r).fd = p.fd) := by
  have aside : ∀ {p p' : Phase}, p.talks = false → p'.talks = false → p'.talks = p.talks ∧ (p.talks = true → p'.fd = p.fd) :=
    fun h h' => ⟨h'.trans h.symm, fun ht => absurd (ht.symm.trans h) nofun⟩
  cases a with
  | start | close => exact absurd trivial hsw
  | running =>
    change Bool at r
    cases p with
    | idle => cases r <;> exact aside rfl rfl
    | _ => exact ⟨rfl, fun _ => rfl⟩
  | accept =>
    obtain rfl : p = .idle := hp
    change Option (Int × Nat) at r
    cases r <;> exact aside rfl rfl
  | connAtCapacity =>
    obtain ⟨fd, id, rfl⟩ := hp
    change Bool at r
    cases r <;> exact aside rfl rfl
  | connTrackIncrement =>
    obtain ⟨fd, id, rfl⟩ := hp
    exact aside rfl rfl
  | spawn fd id =>
    obtain rfl : p = .counted fd id := hp
    change Bool at r
    cases r <;> exact aside rfl rfl
  | connTrackDecrement => rcases hp with rfl | ⟨id, rfl⟩ <;> exact aside rfl rfl
  | authVerify u password =>
    obtain ⟨fd, h⟩ := ha
    obtain rfl := fresh_of_view h
    change ChatStatus at r
    show (if r = .ok then Phase.checked fd u else .fresh fd).talks = true ∧ (_ → (if r = .ok then Phase.checked fd u else .fresh fd).fd = fd)
    split <;> exact ⟨rfl, fun _ => rfl⟩
  | registryAdd fd u =>
    obtain ⟨rfl, -⟩ := hp
    change ChatStatus at r
    show (if r = .ok then Phase.entered fd u else .checked fd u).talks = true ∧ (_ → (if r = .ok then Phase.entered fd u else .checked fd u).fd = fd)
    split <;> exact ⟨rfl, fun _ => rfl⟩
  | registryRemove => obtain ⟨fd, u, rfl | ⟨room, rfl⟩⟩ := hp <;> exact ⟨rfl, fun _ => rfl⟩
  | registrySetRoom => obtain ⟨-, fd, u, old, rfl⟩ := hp; exact ⟨rfl, fun _ => rfl⟩
  | mqPush msg =>
    cases p with
    | present fd u room =>
      show (if msg.type = .leave then Phase.left fd u room else .present fd u room).talks = true ∧
        (_ → (if msg.type = .leave then Phase.left fd u room else .present fd u room).fd = fd)
      split <;> exact ⟨rfl, fun _ => rfl⟩
    | _ => exact ⟨rfl, fun _ => rfl⟩
  | _ => exact ⟨rfl, fun _ => rfl⟩

end Phase

/-- The session of the client, which had `s₀` before it read a line, behind all the lines on its connection. -/
def hearingOf (s₀ : Session) (tr : List (Label Tid Act.Ret)) (i : Nat) : Hearing where
  stage := stageOf tr (.handler i)
  heard :=
    let p := (stageOf tr (.handler i)).phase
    if p.talks then (received p.fd tr).lines.foldl Session.hear s₀ else s₀

section
variable {P : Platform} {ok : Env → Prop} {s₀ : Session} {tr : List (Label Tid Act.Ret)} {c c' : System}

/-! ## One step -/

theorem authVerify_known {db : AuthDb} {evp : Bool} {u password : Bytes} (h : authVerify P evp db u password = .ok) :
    ∃ rec ∈ db, rec.username = u := by
  unfold authVerify at h
  split at h
  · cases h
  · split at h
    · cases h
    · rename_i cur hfind
      exact ⟨cur, List.mem_of_find?_eq_some hfind, by simpa using List.find?_some hfind⟩

theorem Loaded.last {rec : UserRecord} (h : Loaded rec) : Last rec.username :=
  ⟨⟨h.username_noNul, h.username_noLf⟩, fun hcr => h.username_noCr (List.mem_of_getLast? hcr)⟩

theorem exec_faithful {tid : Tid} {e : Env} {s s' : Server} {a : Act} {r : a.Ret} (he : e.Proper) (hnames : ∀ rec ∈ s.auth, Last rec.username)
    (hd : Delivers ⟨tid, a, r⟩) (hx : exec P tid a e s = some (r, s')) : Faithful a r := by
  cases a with
  | send fd buf sent => exact hd tid fd buf sent r rfl
  | recvLine fd =>
    cases hx
    intro line hline
    obtain ⟨read, hread, rfl⟩ := Option.map_eq_some_iff.mp hline
    have hlast := (he.line read hread).last
    rw [cstr_of_nulFree hlast.noNul]
    exact hlast
  | authVerify u password =>
    cases hx
    intro hok
    obtain ⟨rec, hrec, rfl⟩ := authVerify_known hok
    exact hnames rec hrec
  | _ => trivial

/-- What the other threads send to the connection of a handler names nothing. -/
theorem hearingOf_other {i : Nat} {l : Label Tid Act.Ret} (hc : Staged True tr c) (hs : System.Step P ok c l c') (hne : l.tid ≠ .handler i)
    (hsend : ∀ fd buf sent, l.act = .send fd buf sent → Nameless buf ∨ ∃ d ∈ c.shared.conns, Owns l.tid d ∧ d.fd = fd) :
    hearingOf s₀ (tr ++ [l]) i = hearingOf s₀ tr i := by
  obtain ⟨-, e, -, hx⟩ := hc.step hs
  have hsat := (hc.relies (.handler i)).sat
  obtain ⟨tid, a, r⟩ := l
  unfold hearingOf
  simp only
  rw [stageOf_other hne]
  cases ht : (stageOf tr (.handler i)).phase.talks with
  | false => rfl
  | true =>
    have hconn := Phase.conn_of_talks ht hsat
    generalize (stageOf tr (.handler i)).phase.fd = own at hconn
    have hlines : (received own (tr ++ [⟨tid, a, r⟩])).lines.foldl Session.hear s₀ = (received own tr).lines.foldl Session.hear s₀ := by
      rw [received_snoc]
      cases a with
      | send fd buf sent =>
        change Option Nat at r
        show (if fd = own then (received own tr).onSend buf sent r else received own tr).lines.foldl _ _ = _
        by_cases hfd : fd = own
        · have hline : Nameless buf := by
            rcases hsend fd buf sent rfl with hline | ⟨d, hd, hown, hdfd⟩
            · exact hline
            · exact absurd (hdfd.trans hfd) (fd_ne_of_owns hc.shared hne hconn hd ⟨rfl, rfl⟩ hown)
          rw [if_pos hfd]
          cases r with
          | none => rfl
          | some n =>
            show (if buf.length ≤ sent + n then (received own tr).lines ++ [buf] else (received own tr).lines).foldl _ _ = _
            split
            · rw [List.foldl_concat, hear_nameless hline]
            · rfl
        · rw [if_neg hfd]
      | accept =>
        change Option (Int × Nat) at r
        show (if r.any (·.1 == own) then (⟨[], []⟩ : Received) else received own tr).lines.foldl _ _ = _
        rcases exec_accept hx with ⟨hr, -⟩ | ⟨fd, hr, hfree, -⟩
        · obtain rfl : r = none := hr
          rfl
        · -- the descriptor of a connection that is open is not handed out
          obtain rfl : r = some (fd, c.shared.nextId) := hr
          have hother : fd ≠ own := by
            rintro rfl
            exact absurd (List.any_eq_true.mpr ⟨_, hconn, beq_self_eq_true fd⟩) (by rw [← Server.holds, hfree]; exact Bool.false_ne_true)
          rw [if_neg (by simpa using hother)]
      | _ => rfl
    rw [hlines]

/-- What the handler does itself, its client hears. -/
theorem hearingOf_own {i : Nat} {a : Act} {r : a.Ret} (hc : Staged True tr c) (hs : System.Step P ok c ⟨.handler i, a, r⟩ c')
    (htells : (stageOf tr (.handler i)).tells True a r) (hfaith : Faithful a r) :
    hearingContract.post a (hearingOf s₀ tr i) r (hearingOf s₀ (tr ++ [⟨.handler i, a, r⟩]) i) := by
  obtain ⟨hp, e, -, hx⟩ := hc.step hs
  have hsat := (hc.relies (.handler i)).sat
  have hstage : stageOf (tr ++ [⟨.handler i, a, r⟩]) (.handler i) = (stageOf tr (.handler i)).next a r := stageOf_own ..
  refine ⟨hstage, htells, hfaith, fun hsw => ?_⟩
  obtain ⟨hallowed, hpermits, -⟩ : (stageOf tr (.handler i)).permits True a := hp
  obtain ⟨htalks, hfd⟩ := Phase.next_talks hsw hallowed hpermits r
  unfold hearingOf
  simp only
  rw [hstage]
  generalize hp' : (stageOf tr (.handler i)).phase = p at hallowed hpermits hsat htalks hfd ⊢
  have hnext : ((stageOf tr (.handler i)).next a r).phase = p.next a r := by rw [← hp']; rfl
  rw [hnext, htalks]
  cases ht : p.talks with
  | false =>
    cases a with
    | send => exact absurd ((Phase.talks_of_send hallowed hsat).symm.trans ht) Bool.noConfusion
    | _ => rfl
  | true =>
    rw [hfd ht, received_snoc]
    cases a with
    | accept =>
      obtain rfl : p = .idle := hpermits
      cases ht
    | send fd buf sent =>
      change Option Nat at r
      show (if fd = p.fd then (received p.fd tr).onSend buf sent r else received p.fd tr).lines.foldl _ _ =
        if fd = p.fd ∧ r.any (fun n => decide (buf.length ≤ sent + n)) = true then _ else _
      by_cases hown : fd = p.fd
      · rw [if_pos hown]
        cases r with
        | none => rw [if_neg fun h => Bool.false_ne_true h.2]; rfl
        | some n =>
          show (if buf.length ≤ sent + n then (received p.fd tr).lines ++ [buf] else (received p.fd tr).lines).foldl _ _ = _
          by_cases hend : buf.length ≤ sent + n
          · rw [if_pos hend, if_pos ⟨hown, decide_eq_true hend⟩, List.foldl_concat]
            rfl
          · rw [if_neg hend, if_neg fun h => hend (of_decide_eq_true h.2)]
            rfl
      · rw [if_neg hown, if_neg fun h => hown h.1]
        rfl
    | _ => rfl

/-! ## Runs -/

/-- Every handler heeds what its client has heard. -/
structure Tuned (s₀ : Session) (tr : List (Label Tid Act.Ret)) (c : System) : Prop where
  heeds : ∀ i h, c.handler i = some h → h.Heeds (hearingOf s₀ tr i)
  inTune : ∀ i, (hearingOf s₀ tr i).InTune

theorem init_tuned (s₀ : Session) (db : AuthDb) : Tuned s₀ [] (System.init db) where
  heeds i h hh := by
    cases System.handler_eq.mp hh
    trivial
  inTune _ _ _ _ hp := by cases hp

variable {db : AuthDb}

theorem Tuned.handler (hc : Staged True tr c) (ht : Tuned s₀ tr c) {i : Nat} {a : Act} {k : a.Ret → Thread}
    (hn : (c.loc (.handler i)).next P = some ⟨a, k⟩) : (hearingOf s₀ tr i).permits a ∧
      ∃ kh : a.Ret → Handler, (∀ r, k r = .handler (kh r)) ∧
        ∀ r v, hearingContract.post a (hearingOf s₀ tr i) r v → (kh r).Heeds v := by
  have hat := hc.loc (.handler i)
  cases hthread : c.loc (.handler i) with
  | handler h =>
    rw [hthread] at hn hat
    obtain ⟨⟨b, kb⟩, hb, he⟩ := Option.map_eq_some_iff.mp hn
    cases he
    have hheeds := ht.heeds i h (System.handler_eq.mpr hthread)
    obtain ⟨hpermits, hk⟩ := Handler.heeds_next (v := hearingOf s₀ tr i) hat (ht.inTune i) hheeds hb
    exact ⟨hpermits, kb, fun _ => rfl, hk⟩
  | _ => rw [hthread] at hat; cases hat

/-- A line that names someone goes to a connection of the thread that sends it. -/
theorem Tuned.naming {l : Label Tid Act.Ret} (hc : Staged True tr c) (hpriv : Privileged db tr c) (ht : Tuned s₀ tr c)
    (hs : System.Step P ok c l c') {fd : Int} {buf : Bytes} {sent : Nat} (hact : l.act = .send fd buf sent) :
    Nameless buf ∨ ∃ d ∈ c.shared.conns, Owns l.tid d ∧ d.fd = fd := by
  have hallowed := (hc.step hs).1.allowed
  rw [hact] at hallowed
  cases hs with
  | @mk tid a k e r s' hn he hx =>
    obtain rfl : a = .send fd buf sent := hact
    have hsat := (hc.relies tid).sat
    have hat := hc.loc tid
    cases tid with
    | main =>
      change allowed True (.send fd buf sent) (stageOf tr .main).phase.view at hallowed
      generalize (stageOf tr .main).phase.view = view at hsat hallowed
      cases view with
      | held fd' id =>
        obtain ⟨rfl, -⟩ := hallowed
        exact Or.inr ⟨_, hsat, rfl, rfl⟩
      | idle | ending => cases hallowed
      | _ => cases hsat
    | signal =>
      change allowed True (.send fd buf sent) (stageOf tr .signal).phase.view at hallowed
      generalize (stageOf tr .signal).phase.view = view at hsat hallowed
      cases view with
      | ending => cases hallowed
      | _ => cases hsat
    | broadcaster =>
      have hrights := hpriv.rights .broadcaster
      cases hthread : c.loc .broadcaster with
      | broadcaster t =>
        rw [hthread] at hn hrights
        obtain ⟨⟨b, kb⟩, hb, he⟩ := Option.map_eq_some_iff.mp hn
        cases he
        exact Or.inl (Broadcaster.rights_next hrights hb).1.nameless
      | _ => rw [hthread] at hat; cases hat
    | handler j =>
      rcases (ht.handler hc hn).1 with hline | ⟨rfl, -⟩
      · exact Or.inl hline
      · have htalks : (stageOf tr (.handler j)).phase.talks = true := Phase.talks_of_send hallowed hsat
        exact Or.inr ⟨_, Phase.conn_of_talks htalks hsat, ⟨rfl, rfl⟩, rfl⟩

theorem Tuned.step {l : Label Tid Act.Ret} (hnames : ∀ rec ∈ db, Last rec.username) (hc : Staged True tr c) (hpriv : Privileged db tr c)
    (ht : Tuned s₀ tr c) (hs : System.Step P Env.Proper c l c') (hd : Delivers l) : Tuned s₀ (tr ++ [l]) c' := by
  have hother : ∀ i, l.tid ≠ .handler i → hearingOf s₀ (tr ++ [l]) i = hearingOf s₀ tr i := fun i hne =>
    hearingOf_other hc hs hne fun fd buf sent hact => ht.naming hc hpriv hs hact
  have htells := hc.tells (fun e he _ => Env.Proper.toTerminated he) hs
  have hstep := hs
  cases hs with
  | @mk tid a k e r s' hn he hx =>
    have hfaith : Faithful a r := exec_faithful he (by rw [hpriv.granted.auth]; exact hnames) hd hx
    have hpost : ∀ i, tid = .handler i → hearingContract.post a (hearingOf s₀ tr i) r (hearingOf s₀ (tr ++ [⟨tid, a, r⟩]) i) := by
      rintro i rfl
      exact hearingOf_own hc hstep htells hfaith
    constructor
    · intro i h hh
      have hloc : Function.update c.loc tid (k r) (.handler i) = .handler h := System.handler_eq.mp hh
      by_cases htid : tid = .handler i
      · subst htid
        obtain ⟨-, kh, hk, hheeds⟩ := ht.handler hc hn
        rw [Function.update_self, hk] at hloc
        cases hloc
        exact hheeds r _ (hpost i rfl)
      · rw [Function.update_of_ne (Ne.symm htid)] at hloc
        rw [hother i htid]
        exact ht.heeds i h (System.handler_eq.mpr hloc)
    · intro i
      by_cases htid : tid = .handler i
      · subst htid
        exact (ht.inTune i).next (hc.step hstep).1 (ht.handler hc hn).1 (hpost i rfl)
      · rw [hother i htid]
        exact ht.inTune i

theorem run_tuned {mem : Nat → Bool} {file : Option Bytes} (hload : authInit mem file = (.ok, db))
    (hr : Run (fun c l c' => System.Step P Env.Proper c l c' ∧ Delivers l) (System.init db) tr c) (s₀ : Session) : Tuned s₀ tr c := by
  have hnames : ∀ rec ∈ db, Last rec.username := fun rec hrec => (authInit_loaded hload rec hrec).last
  refine hr.traced (I := fun tr c => Tuned s₀ tr c) ?_ (init_tuned s₀ db)
  intro tr c c' l hr' ht ⟨hs, hd⟩
  have hrun : Run (System.Step P Env.Terminated) (System.init db) tr c := hr'.mono fun _ _ _ h => h.1.mono fun _ he => he.toTerminated
  exact ht.step hnames (run_staged (fun _ he _ => he) hrun) (run_privileged hrun) hs hd

/-- **Client and server agree on the session**: where every line arrives whole
and in order and no line is read behind the end of a stream, a client that has read
all its lines has the name and the room of its node, whenever its handler is not
inside `AUTH`, `JOIN_ROOM` or the disconnect. -/
theorem client_agrees {mem : Nat → Bool} {file : Option Bytes} (hload : authInit mem file = (.ok, db))
    (hr : Run (fun c l c' => System.Step P Env.Proper c l c' ∧ Delivers l ∧ Undivided P c l) (System.init db) tr c)
    {d : Conn} (hd : d ∈ c.shared.conns) {h : Handler} (hh : c.handler d.id = some h) (hm : ¬ h.Moving)
    {n : ClientNode} (hn : n ∈ c.shared.registry.nodes) (hfd : n.sockfd = d.fd)
    {rx : Receiver} (he : .error ∉ rx.sock) (hline : rx.line.length = maxLineLen) (hb : bytesOf rx.sock = (received d.fd tr).bytes)
    {k : Nat} (hall : lf ∉ bytesOf (Receiver.round^[k] rx).sock) :
    (Receiver.round^[k] rx).cli.session = ⟨cstr n.username, cstr n.room⟩ := by
  have hrun : Run (System.Step P Env.Terminated) (System.init db) tr c := hr.mono fun _ _ _ h => h.1.mono fun _ he => he.toTerminated
  have hc : Staged True tr c := run_staged (fun _ he _ => he) hrun
  have hi := hc.shared
  -- the handler of the connection is in the room of the node
  obtain ⟨hconn, hver⟩ := hi.1.owned n hn
  obtain rfl : (⟨n.sockfd, c.shared.owner n.addr, true⟩ : Conn) = d := hi.1.conn_fd hconn hd hfd
  obtain ⟨hsat, hseat⟩ := hc.relies (.handler (c.shared.owner n.addr))
  have hon : (stageOf tr (.handler (c.shared.owner n.addr))).phase.view.IsOnline :=
    Classical.byContradiction fun hoff => owner_ne_of_offline hi hoff hsat n hn rfl
  obtain ⟨fd, u, hv⟩ := hon
  rw [hv] at hsat
  obtain ⟨hconn', hver', -⟩ := hsat
  obtain rfl : n.sockfd = fd := congrArg Conn.fd (hi.1.conn_id hconn hconn' rfl)
  obtain rfl : n.name = u := Option.some.inj (hver.symm.trans hver')
  have hat := hc.loc (.handler (c.shared.owner n.addr))
  rw [System.handler_eq.mp hh] at hat
  obtain ⟨room, hp⟩ := Handler.present_of_placed hat (run_placed hrun hh) hm hv
  have hroom : cstr n.room = room := (hseat n.sockfd room (by rw [hp]; rfl)).2 n hn rfl
  -- and its client has heard so
  have htold := (run_tuned hload (hr.mono fun _ _ _ h => ⟨h.1, h.2.1⟩) rx.cli.session).inTune _ _ _ _ hp
  obtain ⟨ws, part, hws, hlines, hbytes, hlf, hlen⟩ := received_split hr n.sockfd
  rw [Receiver.rounds_heard he hline hws hlf hlen (hb.trans hbytes) hall, ← hlines, (hi.2 trivial).exact n hn, hroom, ← htold]
  unfold hearingOf
  simp only [hp]
  rfl

end

/-! ### `bob` moves to another room -/

def passFile : Bytes :=
  lit ("bob:d74ff0ee8da3b9806b18c877dbf29bbde50b5bd8e4dad7a3a725000feb82e8f1:0\n" ++
    "alice:d74ff0ee8da3b9806b18c877dbf29bbde50b5bd8e4dad7a3a725000feb82e8f1:0\n")

theorem proper_movesToDen : ∀ p ∈ logIn 0 5 "bob" ++ movesToDen, p.2.Proper := by
  intro p hp
  rcases List.mem_append.mp hp with hp | hp
  · exact proper_logIn p hp
  · rw [(List.mem_replicate.mp hp).2]
    exact sunny_proper ⟨by decide, by decide, by decide⟩ (by decide) 0 0

/-- A client that has not read a line yet. -/
def freshReceiver (bytes : Bytes) : Receiver where
  cli := { username := zeros _, currentRoom := zeros _, running := true, authenticated := false, joined := false,
           username_length := zeros_length _, currentRoom_length := zeros_length _ }
  sock := recvs [.segment bytes]
  line := zeros maxLineLen

theorem client_agrees_bob : ∃ tr c, Run (fun c l c' => System.Step passPlatform Env.Proper c l c' ∧ Delivers l ∧ Undivided passPlatform c l)
      (System.init passDb) tr c ∧ (∃ n ∈ c.shared.registry.nodes, n.sockfd = 5 ∧ cstr n.username = lit "bob" ∧ cstr n.room = lit "den") ∧
    (Receiver.round^[7] (freshReceiver (received 5 tr).bytes)).cli.session = ⟨lit "bob", lit "den"⟩ := by
  obtain ⟨tr, c, hr, hp⟩ := System.exists_run passPlatform Env.Proper (System.init passDb) _ proper_movesToDen
    (p := fun q => orderly q.1 &&
      decide (⟨5, 0, true⟩ ∈ q.2.shared.conns) && (System.handler q.2 0).any Handler.waits &&
      (q.2.shared.registry.nodes.any fun n => n.sockfd == 5 && cstr n.username == lit "bob" && cstr n.room == lit "den") &&
      decide (lf ∉ bytesOf (Receiver.round^[7] (freshReceiver (received 5 q.1).bytes)).sock)) (by decide +kernel)
  simp only [Bool.and_eq_true, List.any_eq_true, decide_eq_true_eq, beq_iff_eq, Option.any_eq_true] at hp
  obtain ⟨⟨⟨⟨horderly, hd⟩, h, hh, hwaits⟩, n, hn, ⟨hfd, hname⟩, hroom⟩, hall⟩ := hp
  have hrun := run_orderly (P := passPlatform) (fun _ _ _ h => h) hr horderly
  have hload : authInit (fun _ => true) (some passFile) = (.ok, passDb) := by decide +kernel
  have hb : bytesOf (freshReceiver (received 5 tr).bytes).sock = (received 5 tr).bytes := by
    simp [freshReceiver, bytesOf_recvs, stream, Arrival.bytes]
  refine ⟨tr, c, hrun, ⟨n, hn, hfd, hname, hroom⟩, ?_⟩
  rw [client_agrees hload hrun hd hh (Handler.not_moving_of_waits hwaits) hn hfd (by simp [freshReceiver, recvs, Arrival.recvs])
    (zeros_length _) hb hall, hname, hroom]

/-- `bob` ends his stream behind a carriage return. -/
def cutJoin : List (Tid × Env) := List.replicate 14 (Tid.handler 0, sunny "JOIN_ROOM den\r" 0 0)

theorem terminated_cutJoin : ∀ p ∈ logIn 0 5 "bob" ++ cutJoin, p.2.Terminated := by
  intro p hp
  rcases List.mem_append.mp hp with hp | hp
  · exact sunny_logIn 0 5 "bob" p hp
  · rw [(List.mem_replicate.mp hp).2]
    exact sunny_terminated _ _ _

/-- At the end of the stream `server_recv_line` trims nothing: the node is in the
room `den` with a carriage return, and the client hears of `den`. -/
theorem cut_join_disagrees :
    recvLines serverRecvLine 3 (recvs [.segment (lit "AUTH bob pass\nJOIN_ROOM den\r")]) (zeros maxLineLen) =
      [lit "AUTH bob pass", lit "JOIN_ROOM den\r"] ∧
    ¬ ∀ (P : Platform) (db : AuthDb) (mem : Nat → Bool) (file : Option Bytes), authInit mem file = (.ok, db) →
      ∀ (tr : List (Label Tid Act.Ret)) (c : System),
        Run (fun c l c' => System.Step P Env.Terminated c l c' ∧ Delivers l ∧ Undivided P c l) (System.init db) tr c →
        ∀ d ∈ c.shared.conns, ∀ h, c.handler d.id = some h → ¬ h.Moving →
        ∀ n ∈ c.shared.registry.nodes, n.sockfd = d.fd →
        ∀ rx : Receiver, .error ∉ rx.sock → rx.line.length = maxLineLen → bytesOf rx.sock = (received d.fd tr).bytes →
        ∀ k, lf ∉ bytesOf (Receiver.round^[k] rx).sock →
          (Receiver.round^[k] rx).cli.session = ⟨cstr n.username, cstr n.room⟩ := by
  refine ⟨by decide +kernel, fun hagree => ?_⟩
  obtain ⟨tr, c, hr, hp⟩ := System.exists_run passPlatform Env.Terminated (System.init passDb) _ terminated_cutJoin
    (p := fun q => orderly q.1 &&
      decide (⟨5, 0, true⟩ ∈ q.2.shared.conns) && (System.handler q.2 0).any Handler.waits &&
      (q.2.shared.registry.nodes.any fun n => n.sockfd == 5 && cstr n.room == lit "den\r") &&
      decide (lf ∉ bytesOf (Receiver.round^[7] (freshReceiver (received 5 q.1).bytes)).sock) &&
      decide ((Receiver.round^[7] (freshReceiver (received 5 q.1).bytes)).cli.session = ⟨lit "bob", lit "den"⟩)) (by decide +kernel)
  simp only [Bool.and_eq_true, List.any_eq_true, decide_eq_true_eq, beq_iff_eq, Option.any_eq_true] at hp
  obtain ⟨⟨⟨⟨⟨horderly, hd⟩, h, hh, hwaits⟩, n, hn, hfd, hroom⟩, hall⟩, hsession⟩ := hp
  have hrun := run_orderly (P := passPlatform) (fun _ _ _ h => h) hr horderly
  have hload : authInit (fun _ => true) (some passFile) = (.ok, passDb) := by decide +kernel
  have hb : bytesOf (freshReceiver (received 5 tr).bytes).sock = (received 5 tr).bytes := by
    simp [freshReceiver, bytesOf_recvs, stream, Arrival.bytes]
  have hsame := hagree passPlatform passDb _ _ hload tr c hrun _ hd h hh (Handler.not_moving_of_waits hwaits) n hn hfd _
    (by simp [freshReceiver, recvs, Arrival.recvs]) (zeros_length _) hb 7 hall
  rw [hsession, hroom] at hsame
  have htrimmed : lit "den" = lit "den\r" := congrArg Session.room hsame
  exact absurd htrimmed (by decide)

end ChatServer

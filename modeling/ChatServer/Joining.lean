import ChatServer.FanOut

/-!
# What a joiner gets to read

A client enters the room in the registry before its `HISTORY` line is built.
A message that comes too late for the line is pushed, and so popped, while the
client is a member already.
-/

namespace ChatServer

open CStr Interleave Prog

/-! ## The seat of the joiner -/

theorem fd_of_seat {p : Phase} {fd : Int} {room : Bytes} (h : p.seat = some (fd, room)) : p.fd = fd := by
  cases p with
  | entered | present | left | moved => cases h; rfl
  | _ => cases h

theorem member_of_seat {tid : Tid} {σ : Stage} {s : Server} (hrel : Relies tid σ s) {fd : Int} {room : Bytes}
    (h : σ.phase.seat = some (fd, room)) : Member s fd room := by
  obtain ⟨u, hview⟩ := Phase.view_of_seat h
  have hsat := hrel.sat
  rw [hview] at hsat
  cases tid with
  | main | broadcaster | signal => cases hsat
  | handler i =>
    obtain ⟨-, -, n, hn, hfd, -⟩ := hsat
    exact ⟨n, hn, hfd, (hrel.seat fd room h).2 n hn hfd⟩

/-- A seat is given up through the registry only. -/
theorem next_seated {T : Prop} {p : Phase} {a : Act} (hp : p.permits T a) {fd : Int} {room : Bytes} (h : p.seat = some (fd, room))
    (r : a.Ret) : (∃ room', (p.next a r).seat = some (fd, room')) ∨ ∃ u, p.next a r = .removed fd u := by
  have stay : p.next a r = p → (∃ room', (p.next a r).seat = some (fd, room')) ∨ ∃ u, p.next a r = .removed fd u := by
    intro he
    exact Or.inl ⟨room, by rw [he, h]⟩
  cases a with
  | registryRemove =>
    obtain ⟨fd', u, rfl | ⟨_, rfl⟩⟩ := hp
    · cases h
      exact Or.inr ⟨u, rfl⟩
    · cases h
      exact Or.inr ⟨u, rfl⟩
  | registrySetRoom _ room' =>
    obtain ⟨-, fd', u, old, rfl⟩ := hp
    cases h
    exact Or.inl ⟨room', rfl⟩
  | mqPush msg =>
    change (∃ room', (p.onPush msg.type).seat = some (fd, room')) ∨ ∃ u, p.onPush msg.type = .removed fd u
    cases p with
    | entered fd' u | moved fd' u _ => cases h; exact Or.inl ⟨_, rfl⟩
    | present fd' u room' =>
      refine Or.inl ⟨room, ?_⟩
      show (if msg.type = .leave then Phase.left fd' u room' else .present fd' u room').seat = _
      split <;> exact h
    | left => exact Or.inl ⟨_, h⟩
    | _ => cases h
  | close =>
    cases p with
    | entered | present | left | moved => cases hp
    | _ => cases h
  | accept =>
    obtain rfl : p = .idle := hp
    cases h
  | start | running | connAtCapacity | connTrackIncrement | spawn | connTrackDecrement | authVerify | registryAdd =>
    apply stay
    cases p with
    | entered | present | left | moved => rfl
    | _ => cases h
  | _ => exact stay rfl

section
variable {P : Platform} {T : Prop} {ok : Env → Prop} {tr : List (Label Tid Act.Ret)} {c c' : System} {l : Label Tid Act.Ret} {j : Nat}
  {fd : Int} {room : Bytes}

/-- Whoever stays in the room keeps the seat. -/
theorem seat_stays (hc : Staged T tr c) (hc' : Staged T (tr ++ [l]) c') (hs : System.Step P ok c l c')
    (hseat : (stageOf tr (.handler j)).phase.seat = some (fd, room)) (hm : Member c'.shared fd room) :
    (stageOf (tr ++ [l]) (.handler j)).phase.seat = some (fd, room) := by
  by_cases htid : l.tid = .handler j
  · obtain ⟨n, hn, hfd, hroom⟩ := hm
    have hrel := hc'.relies (.handler j)
    have hp := (hc.step hs).1.phase
    obtain ⟨tid, a, r⟩ := l
    obtain rfl : tid = .handler j := htid
    have hnext : (stageOf (tr ++ [⟨.handler j, a, r⟩]) (.handler j)).phase = (stageOf tr (.handler j)).phase.next a r :=
      congrArg Stage.phase (stageOf_own tr (.handler j) a r)
    rcases next_seated hp hseat r with ⟨room', h⟩ | ⟨u, h⟩
    · rw [hnext, h]
      rw [← hnext] at h
      obtain rfl : room = room' := hroom.symm.trans ((hrel.seat fd room' h).2 n hn hfd)
      rfl
    · have hsat := hrel.sat
      rw [hnext, h] at hsat
      exact absurd hfd (hsat.2.2 n hn)
  · rwa [stageOf_other htid]

end

/-! ## The line that is sent -/

theorem permits_quoting {T : Prop} {σ : Stage} {a : Act} (hp : σ.permits T a) {fd : Int} {line : Bytes}
    (hq : σ.errand = .quoting fd line) : a = .send fd line 0 := by
  have he := hp.errand
  rw [hq] at he
  cases a with
  | send fd' buf sent =>
    obtain ⟨-, h | ⟨rfl, h | h⟩⟩ := he
    · cases h
    · cases h
    · cases h; rfl
  | stackEvent =>
    rcases he with h | ⟨_, _, _, _, h⟩
    · cases h
    · cases h
  | mqPush msg =>
    change if msg.type = .chat then _ else _ at he
    split at he <;> cases he
  | _ => cases he

/-- The handler has sent the line to its end, or it has done nothing but sending it. -/
def Tells (j : Nat) (fd : Int) (line : Bytes) (tr : List (Label Tid Act.Ret)) : Prop :=
  line ∈ written (.handler j) fd tr ∨ ∀ l ∈ tr, l.tid = .handler j → ∃ n, l.act = .send fd line n

def Quotes (j : Nat) (fd : Int) (line : Bytes) (tr : List (Label Tid Act.Ret)) (q : Errand) : Prop :=
  line ∈ written (.handler j) fd tr ∨
    (∀ l ∈ tr, l.tid = .handler j → ∃ n, l.act = .send fd line n) ∧ (q = .quoting fd line ∨ ∃ n, q = .sending fd line n)

section
variable {P : Platform} {T : Prop} {ok : Env → Prop} {tr₀ tr : List (Label Tid Act.Ret)} {c c' : System} {l : Label Tid Act.Ret} {j : Nat}
  {fd : Int} {line : Bytes}

theorem Quotes.step (hc : Staged T tr₀ c) (hs : System.Step P ok c l c') (hd : Delivers l)
    (h : Quotes j fd line tr (stageOf tr₀ (.handler j)).errand) :
    Quotes j fd line (tr ++ [l]) (stageOf (tr₀ ++ [l]) (.handler j)).errand := by
  rcases h with hdone | ⟨hsends, hq⟩
  · exact Or.inl (by rw [written_snoc]; exact List.mem_append_left _ hdone)
  by_cases htid : l.tid = .handler j
  · have hp := (hc.step hs).1
    obtain ⟨tid, a, r⟩ := l
    obtain rfl : tid = .handler j := htid
    have hact : ∃ n, a = .send fd line n := by
      rcases hq with hq | ⟨n, hq⟩
      · exact ⟨0, permits_quoting hp hq⟩
      · exact ⟨n, permits_sending hp hq⟩
    obtain ⟨n, rfl⟩ := hact
    have hr : ∃ m, r = (some m : Option Nat) ∧ 0 < m := hd _ _ _ _ r rfl
    obtain ⟨m, rfl, hpos⟩ := hr
    have hnext : (stageOf (tr₀ ++ [⟨.handler j, .send fd line n, (some m : Option Nat)⟩]) (.handler j)).errand =
        if m ≠ 0 ∧ n + m < line.length then .sending fd line (n + m) else .none :=
      congrArg Stage.errand (stageOf_own tr₀ (.handler j) (Act.send fd line n) (some m : Option Nat))
    by_cases hmore : n + m < line.length
    · rw [if_pos ⟨Nat.ne_of_gt hpos, hmore⟩] at hnext
      refine Or.inr ⟨fun l hl htid => ?_, Or.inr ⟨n + m, hnext⟩⟩
      rcases List.mem_append.mp hl with hl | hl
      · exact hsends l hl htid
      · obtain rfl := List.mem_singleton.mp hl
        exact ⟨n, rfl⟩
    · refine Or.inl ?_
      have hof : writtenOf (.handler j) fd ⟨.handler j, .send fd line n, (some m : Option Nat)⟩ = some line :=
        if_pos ⟨rfl, rfl, by simpa using Nat.not_lt.mp hmore⟩
      rw [written_snoc]
      refine List.mem_append_right _ ?_
      rw [hof]
      exact List.mem_singleton_self _
  · refine Or.inr ⟨fun l' hl' htid' => ?_, ?_⟩
    · rcases List.mem_append.mp hl' with hl' | hl'
      · exact hsends l' hl' htid'
      · obtain rfl := List.mem_singleton.mp hl'
        exact absurd htid' htid
    · rw [stageOf_other htid]
      exact hq

end

/-! ## The event of a message -/

/-- From the store to the push the handler carries the message and nothing else. -/
def Bears (username room content : Bytes) (ts : Int) (q : Errand) : Prop :=
  q = .stored room username content ts ∨ ∃ evt, Stage.Ending evt ∧ q = .ready (chatEvent evt username room content ts)

theorem bears_not_open {username room content : Bytes} {ts : Int} {q : Errand} (h : Bears username room content ts q) :
    ¬ q.Open := by
  rcases h with rfl | ⟨evt, -, rfl⟩
  · exact id
  · exact id

theorem next_bears {σ : Stage} {a : Act} {r : a.Ret} {username room content : Bytes} {ts : Int}
    (h : Bears username room content ts σ.errand) (hp : σ.permits True a) (ht : σ.tells True a r) (hno : ∀ msg, a ≠ .mqPush msg) :
    Bears username room content ts (σ.next a r).errand := by
  have hperm := hp.errand
  have hnot := bears_not_open h
  cases a with
  | stackEvent =>
    rcases h with h | ⟨evt, hend, h⟩
    · refine Or.inr ⟨r, ht trivial, ?_⟩
      show σ.errand.found r = _
      rw [h]
      rfl
    · refine Or.inr ⟨evt, hend, ?_⟩
      show σ.errand.found r = _
      rw [h]
      rfl
  | mqPush msg => exact absurd rfl (hno msg)
  | send fd buf sent =>
    obtain ⟨-, hq | ⟨-, hq | hq⟩⟩ := hperm
    · rcases h with h | ⟨_, -, h⟩ <;> rw [h] at hq <;> cases hq
    · exact absurd hq hnot
    · rcases h with h | ⟨_, -, h⟩ <;> rw [h] at hq <;> cases hq
  | roomHistoryAdd room' u content' ts' =>
    rw [show σ.errand = .asked content' from hperm] at hnot
    exact absurd trivial hnot
  | _ => exact absurd hperm hnot

section
variable {P : Platform} {db : AuthDb} {tr₀ tr : List (Label Tid Act.Ret)} {c c' : System}

theorem run_bears (hr₀ : Run (System.Step P Env.Terminated) (System.init db) tr₀ c) {tid : Tid} {username room content : Bytes}
    {ts : Int} (h : Bears username room content ts (stageOf tr₀ tid).errand) (hr : Run (System.Step P Env.Terminated) c tr c')
    (hno : ∀ l ∈ tr, l.tid = tid → ∀ msg, l.act ≠ .mqPush msg) :
    Bears username room content ts (stageOf (tr₀ ++ tr) tid).errand := by
  have hlabelled := hr.labelled (p := fun l => l.tid = tid → ∀ msg, l.act ≠ .mqPush msg) hno
  refine hlabelled.traced (I := fun tr _ => Bears username room content ts (stageOf (tr₀ ++ tr) tid).errand) ?_ ?_
  · intro tr s' s'' l hr' hI ⟨hs, hl⟩
    have hc : Staged True (tr₀ ++ tr) s' := run_staged (fun _ he _ => he) (hr₀.trans (hr'.mono fun _ _ _ h => h.1))
    rw [← List.append_assoc]
    by_cases htid : l.tid = tid
    · subst htid
      have hnext := next_bears hI (hc.step hs).1 (hc.tells (fun _ he _ => he) hs) (hl rfl)
      rwa [← stageOf_own] at hnext
    · rw [stageOf_other htid]
      exact hI
  · rw [List.append_nil]
    exact h

/-- What the handler pushes next is the event of the message. -/
theorem push_bears (hc : Staged True tr c) {tid : Tid} {msg : MqMessage} {rc : ChatStatus} {ok : Env → Prop}
    (hs : System.Step P ok c ⟨tid, .mqPush msg, rc⟩ c') {username room content : Bytes} {ts : Int}
    (h : Bears username room content ts (stageOf tr tid).errand) :
    ∃ evt, Stage.Ending evt ∧ msg = chatEvent evt username room content ts := by
  have hq := (hc.step hs).1.errand
  change if msg.type = .chat then (stageOf tr tid).errand = .ready msg else (stageOf tr tid).errand.Open at hq
  by_cases hchat : msg.type = .chat
  · rw [if_pos hchat] at hq
    rcases h with h | ⟨evt, hend, h⟩
    · rw [h] at hq
      cases hq
    · rw [h] at hq
      cases hq
      exact ⟨evt, hend, rfl⟩
  · rw [if_neg hchat] at hq
    exact absurd hq (bears_not_open h)

end

/-! ## The fan-out of an event -/

theorem filterMap_split {α β : Type} {f : α → Option β} : ∀ {xs : List α} {p : Nat} {y : β}, (xs.filterMap f)[p]? = some y →
    ∃ before x after, xs = before ++ x :: after ∧ f x = some y ∧ (before.filterMap f).length = p
  | [], p, y, h => by cases h
  | x :: xs, p, y, h => by
    cases hx : f x with
    | none =>
      rw [List.filterMap_cons_none hx] at h
      obtain ⟨before, x', after, rfl, hf, hp⟩ := filterMap_split h
      exact ⟨x :: before, x', after, rfl, hf, by rw [List.filterMap_cons_none hx, hp]⟩
    | some z =>
      rw [List.filterMap_cons_some hx] at h
      cases p with
      | zero =>
        cases h
        exact ⟨[], x, xs, rfl, hx, rfl⟩
      | succ p =>
        obtain ⟨before, x', after, rfl, hf, hp⟩ := filterMap_split (p := p) h
        exact ⟨x :: before, x', after, rfl, hf, by rw [List.filterMap_cons_some hx, List.length_cons, hp]⟩

/-- The broadcaster is done with the event at position `p` of the queue's whole history. -/
def FannedOut (tr : List (Label Tid Act.Ret)) (c : System) (p : Nat) : Prop :=
  p + 1 < (popped tr).length ∨ (p < (popped tr).length ∧ c.Idle)

section
variable {P : Platform} {ok : Env → Prop} {tr : List (Label Tid Act.Ret)} {c c' : System} {room : Bytes} {fd : Int}

theorem idle_of_pop {db : AuthDb} (hr : Run (System.Step P ok) (System.init db) tr c) {l : Label Tid Act.Ret}
    (hs : System.Step P ok c l c') {msg : MqMessage} (h : popOf l = some msg) : c.Idle := by
  have htid : l.tid = .broadcaster := by
    by_contra hne
    rw [popOf_tid (run_staged (T := False) (fun _ _ => False.elim) hr) hs hne] at h
    cases h
  have hact : l.act = .mqPop := by
    obtain ⟨tid, a, r⟩ := l
    cases a with
    | mqPop => rfl
    | _ => cases h
  obtain ⟨b, hb, hcast⟩ := run_casts hr
  cases hs with
  | @mk tid a k e r s' hn he hx =>
    obtain rfl : tid = .broadcaster := htid
    obtain rfl : a = .mqPop := hact
    rw [hb] at hn
    obtain ⟨⟨a', k'⟩, hb', heq⟩ := Option.map_eq_some_iff.mp hn
    cases heq
    cases b with
    | popping => exact ⟨.popping, hb, trivial⟩
    | sending evtRoom line cur p =>
      obtain ⟨-, fd', fuel, sent, rfl, hs', hf⟩ := hcast
      obtain ⟨k'', hact, -⟩ := castLoop_act fd' hs' (show 0 < fuel by omega)
      rw [hact] at hb'
      cases hb'
    | _ => cases hb'

theorem Serves.mem (h : Serves P room fd tr c) {msg : MqMessage} {rest : List MqMessage} (hpop : popped tr = msg :: rest)
    (hover : rest ≠ [] ∨ c.Idle) {line : Bytes} (hline : lineFor P room msg = some line) : line ∈ aired fd tr := by
  have hfirst : ∀ more, line ∈ linesFor P room (msg :: more) :=
    fun more => List.mem_filterMap.mpr ⟨msg, List.mem_cons_self .., hline⟩
  have told : ∀ {evtRoom l : Bytes} {waiting : Prop}, rest ≠ [] → Told P room fd tr evtRoom l waiting → line ∈ aired fd tr := by
    rintro evtRoom l waiting hne ⟨old, last, hp, -, -, hw, hn⟩
    rw [hpop] at hp
    obtain ⟨old', rfl⟩ : ∃ old', old = msg :: old' := by
      cases old with
      | nil =>
        obtain ⟨-, hrest⟩ := List.cons.inj hp
        exact absurd hrest hne
      | cons x old' =>
        obtain ⟨rfl, -⟩ := List.cons.inj hp
        exact ⟨old', rfl⟩
    by_cases h : waiting
    · rw [hw h]
      exact hfirst old'
    · rw [hn h]
      exact hfirst (old' ++ [last])
  by_cases hidle : c.Idle
  · rw [h.idle hidle, hpop]
    exact hfirst rest
  · have hne := hover.resolve_right hidle
    obtain ⟨b, hb, hair⟩ := h
    cases b with
    | top | popping | done => exact absurd ⟨_, hb, trivial⟩ hidle
    | first => exact told hne hair
    | sending =>
      obtain ⟨_, _, _, _, _, -, -, -, -, -, ht⟩ := hair
      exact told hne ht
    | stepping =>
      obtain ⟨_, _, _, -, ht⟩ := hair
      exact told hne ht

end

/-! ## After the join -/

/-- A step during which the client stays in the room, no `send` fails and
nobody is removed during a fan-out. -/
structure Attending (P : Platform) (fd : Int) (room : Bytes) (c : System) (l : Label Tid Act.Ret) (c' : System) : Prop where
  step : System.Step P Env.Terminated c l c'
  delivers : Delivers l
  calm : Calm c l
  member : Member c'.shared fd room

/-- The handler puts its client into the room, by `JOIN_ROOM` or by `AUTH`. -/
def Joins (j : Nat) (fd : Int) (room : Bytes) (l : Label Tid Act.Ret) : Prop :=
  (∃ rc : ChatStatus, l = ⟨.handler j, .registrySetRoom fd room, rc⟩) ∨
    room = defaultRoom ∧ ∃ username isAdmin, l = ⟨.handler j, .registryAdd fd username defaultRoom isAdmin, ChatStatus.ok⟩

def broadcastOf (P : Platform) (username room content : Bytes) (ts : Int) : Bytes :=
  (protocolBuildServerBroadcast maxLineLen username (formatTimestamp P.localtimeR ts) room content).2

section
variable {P : Platform} {username room content : Bytes} {evt : MqMessage} (h : Errand.Proper username room content)
  (he : Stage.Ending evt) (ts : Int)
include h he

theorem chatEvent_room : cstr (chatEvent evt username room content ts).room = room :=
  cstr_strncpy_ending (n := 31) evt.room_length he.room h.room.1 (Nat.le_pred_of_lt h.room.2)

theorem chatEvent_broadcastLine :
    broadcastLine P (chatEvent evt username room content ts) = broadcastOf P username room content ts := by
  have hu : cstr (chatEvent evt username room content ts).username = username :=
    cstr_strncpy_ending (n := 31) evt.username_length he.username h.username.1 (Nat.le_pred_of_lt h.username.2)
  rw [broadcastLine, hu, chatEvent_room h he, chatEvent_content he h.content]
  rfl

end

theorem mem_lastN {α : Type} {l : List α} {n k : Nat} {x : α} (h : l[k]? = some x) (hk : l.length ≤ k + n) : x ∈ lastN n l := by
  have hdrop : (l.drop (l.length - n))[k - (l.length - n)]? = some x := by
    rw [List.getElem?_drop, Nat.add_sub_cancel' (by omega), h]
  exact List.mem_of_getElem? hdrop

section
variable {P : Platform} {db : AuthDb} {tr₀ tr : List (Label Tid Act.Ret)} {c₀ c c' : System} {j : Nat} {fd : Int} {room : Bytes}

theorem join_seat (hr : Run (System.Step P Env.Terminated) (System.init db) tr c) {l : Label Tid Act.Ret}
    (hs : System.Step P Env.Terminated c l c') (hj : Joins j fd room l) :
    (stageOf (tr ++ [l]) (.handler j)).phase.seat = some (fd, room) := by
  have hc : Staged True tr c := run_staged (fun _ he _ => he) hr
  have hp := (hc.step hs).1
  rcases hj with ⟨rc, rfl⟩ | ⟨rfl, u, isAdmin, rfl⟩
  · have hnext : (stageOf (tr ++ [⟨.handler j, .registrySetRoom fd room, rc⟩]) (.handler j)).phase =
        (stageOf tr (.handler j)).phase.onSetRoom room :=
      congrArg Stage.phase (stageOf_own tr (.handler j) (Act.registrySetRoom fd room) rc)
    obtain ⟨-, fd', u, old, hleft⟩ := hp.phase
    obtain ⟨u', hview⟩ := hp.allowed
    rw [hleft] at hnext hview
    cases hview
    rw [hnext]
    rfl
  · have hnext : (stageOf (tr ++ [⟨.handler j, .registryAdd fd u defaultRoom isAdmin, ChatStatus.ok⟩]) (.handler j)).phase =
        (stageOf tr (.handler j)).phase.onAdd .ok :=
      congrArg Stage.phase (stageOf_own tr (.handler j) (Act.registryAdd fd u defaultRoom isAdmin) ChatStatus.ok)
    rw [hnext, show (stageOf tr (.handler j)).phase = .checked fd u from hp.phase.1]
    rfl

section
variable (hr₀ : Run (System.Step P Env.Terminated) (System.init db) tr₀ c₀)
  (hseat : (stageOf tr₀ (.handler j)).phase.seat = some (fd, room)) (hr : Run (Attending P fd room) c₀ tr c)
include hr₀ hseat hr

theorem attending_seat : (stageOf (tr₀ ++ tr) (.handler j)).phase.seat = some (fd, room) := by
  refine hr.traced (I := fun tr _ => (stageOf (tr₀ ++ tr) (.handler j)).phase.seat = some (fd, room)) ?_ (by rwa [List.append_nil])
  intro tr s' s'' l hr' hI h
  have hrun := hr₀.trans (hr'.mono fun _ _ _ h => h.step)
  have hc : Staged True (tr₀ ++ tr) s' := run_staged (fun _ he _ => he) hrun
  have hc' : Staged True (tr₀ ++ tr ++ [l]) s'' := run_staged (fun _ he _ => he) (hrun.snoc h.step)
  rw [← List.append_assoc]
  exact seat_stays hc hc' h.step hI h.member

theorem attending_member : Member c.shared fd room := by
  have hc : Staged True (tr₀ ++ tr) c := run_staged (fun _ he _ => he) (hr₀.trans (hr.mono fun _ _ _ h => h.step))
  exact member_of_seat (hc.relies (.handler j)) (attending_seat hr₀ hseat hr)

end

/-- The `HISTORY` line holds the last messages stored before it is built. -/
theorem format_entries (hr : Run (System.Step P Env.Terminated) (System.init db) tr c)
    (hseat : (stageOf tr (.handler j)).phase.seat = some (fd, room)) {room' payload line : Bytes}
    (hs : System.Step P Env.Terminated c ⟨.handler j, .roomHistoryFormat room' maxLineLen, (ChatStatus.ok, payload)⟩ c')
    (hline : protocolBuildServerHistory maxLineLen payload = (.ok, line)) :
    line = lit "HISTORY " ++ joinWith (lit "||") (lastN maxRoomHistory (stored P tr room)) ++ lit "\n" ∧
      (stageOf (tr ++ [⟨.handler j, .roomHistoryFormat room' maxLineLen, (ChatStatus.ok, payload)⟩]) (.handler j)).errand =
        .quoting fd line := by
  have hc : Staged True tr c := run_staged (fun _ he _ => he) hr
  obtain ⟨hp, e, -, hx⟩ := hc.step hs
  have hroom : room' = room := by
    obtain ⟨fd', h⟩ := hp.phase
    rw [hseat] at h
    cases h
    rfl
  subst hroom
  constructor
  · have hlike := ((hc.relies (.handler j)).seat fd room' hseat).1
    have hform : roomHistoryFormat c.shared.rooms room' maxLineLen = (.ok, payload) :=
      (Prod.mk.inj (Option.some.inj hx)).1
    rw [roomHistoryFormat_eq (rooms_hold hr) hlike.1 (by decide)] at hform
    have hfits : (joinWith (lit "||") (lastN maxRoomHistory (stored P tr room'))).length < maxLineLen := by
      by_contra hlong
      have herr := appendJoined_overflows (show 0 < maxLineLen by decide) (Nat.not_lt.mp hlong)
      rw [hform] at herr
      cases herr
    rw [appendJoined_fits hfits] at hform
    obtain rfl := (Prod.mk.inj hform).2
    unfold protocolBuildServerHistory at hline
    by_cases hlen : (lit "HISTORY " ++ joinWith (lit "||") (lastN maxRoomHistory (stored P tr room')) ++ lit "\n").length < maxLineLen
    · rw [buildLine_fits hlen] at hline
      exact (Prod.mk.inj hline).2.symm
    · rw [buildLine_overflows (Nat.not_lt.mp hlen)] at hline
      cases hline
  · have hnext : (stageOf (tr ++ [⟨.handler j, .roomHistoryFormat room' maxLineLen, (ChatStatus.ok, payload)⟩]) (.handler j)).errand =
        (stageOf tr (.handler j)).errand.quoted (stageOf tr (.handler j)).phase.fd (.ok, payload) :=
      congrArg Stage.errand (stageOf_own tr (.handler j) (Act.roomHistoryFormat room' maxLineLen) (ChatStatus.ok, payload))
    rw [hnext, fd_of_seat hseat, Errand.quoted, hline, if_pos ⟨rfl, rfl⟩]

theorem event_of_store {before between after : List (Label Tid Act.Ret)} {tid : Tid} {username content : Bytes} {ts : Int} {rc rc' : ChatStatus}
    {msg : MqMessage} (hr : Run (System.Step P Env.Terminated) (System.init db)
      (before ++ ⟨tid, .roomHistoryAdd room username content ts, rc⟩ :: (between ++ ⟨tid, .mqPush msg, rc'⟩ :: after)) c)
    (hno : ∀ l ∈ between, l.tid = tid → ∀ msg, l.act ≠ .mqPush msg) :
    Errand.Proper username room content ∧ ∃ evt, Stage.Ending evt ∧ msg = chatEvent evt username room content ts := by
  have hok : ∀ e, Env.Terminated e → True → e.Terminated := fun _ he _ => he
  obtain ⟨c₁, hr₁, hr⟩ := hr.split
  obtain ⟨c₂, hstore, hr⟩ := hr.uncons
  obtain ⟨c₃, hr₃, hr⟩ := hr.split
  obtain ⟨c₄, hpush, -⟩ := hr.uncons
  have hr₂ := hr₁.snoc hstore
  have herrand : (stageOf (before ++ [⟨tid, .roomHistoryAdd room username content ts, rc⟩]) tid).errand =
      .stored room username content ts :=
    congrArg Stage.errand (stageOf_own before tid (Act.roomHistoryAdd room username content ts) rc)
  have hsound := stage_sound hok hr₂ tid
  rw [herrand] at hsound
  exact ⟨hsound, push_bears (run_staged hok (hr₂.trans hr₃)) hpush (run_bears hr₂ (Or.inl herrand) hr₃ hno)⟩

/-- An event that is pushed while the client is in the room reaches it. -/
theorem event_heard (hr₀ : Run (System.Step P Env.Terminated) (System.init db) tr₀ c₀)
    (hseat : (stageOf tr₀ (.handler j)).phase.seat = some (fd, room)) (hr : Run (Attending P fd room) c₀ tr c) {p : Nat} {msg : MqMessage}
    (hpush : ((pushed (tr₀ ++ tr)).map Prod.snd)[p]? = some msg) (hp : (pushed tr₀).length ≤ p) (hover : FannedOut (tr₀ ++ tr) c p)
    {line : Bytes} (hline : lineFor P room msg = some line) : line ∈ aired fd tr := by
  have hpopped : popped (tr₀ ++ tr) = popped tr₀ ++ popped tr := List.filterMap_append
  have hbefore : (popped tr₀).length ≤ p := by
    have h := congrArg List.length (pushed_eq hr₀)
    rw [List.length_map, List.length_append] at h
    omega
  have hlt : p < (popped (tr₀ ++ tr)).length := hover.elim (by omega) And.left
  -- the pop of the event, which lies behind the join
  have hpop : (popped tr)[p - (popped tr₀).length]? = some msg := by
    rw [pushed_eq (hr₀.trans (hr.mono fun _ _ _ h => h.step)), List.getElem?_append_left hlt, hpopped,
      List.getElem?_append_right hbefore] at hpush
    exact hpush
  obtain ⟨waited, l, heard, rfl, hl, hlen⟩ := filterMap_split hpop
  obtain ⟨c₁, hr₁, hr₂⟩ := hr.split
  have hrun₁ := hr₀.trans (hr₁.mono fun _ _ _ h => h.step)
  obtain ⟨c₂, hs, -⟩ := hr₂.uncons
  have hserves := (fan_out hrun₁ (idle_of_pop hrun₁ hs.step hl) (attending_member hr₀ hseat hr₁)
    (hr₂.mono fun _ _ _ h => ⟨h.step, h.delivers, h.calm, h.member⟩)).1
  have hcons : popped (l :: heard) = msg :: popped heard := List.filterMap_cons_some hl
  have htail : popped heard ≠ [] ∨ c.Idle := by
    refine hover.imp (fun h hnil => ?_) And.right
    rw [hpopped, List.length_append, show popped (waited ++ l :: heard) = popped waited ++ popped (l :: heard) from List.filterMap_append,
      List.length_append, hcons, hnil, show (popped waited).length = _ from hlen, List.length_singleton] at h
    omega
  have hmem := hserves.mem hcons htail hline
  rw [aired, written, List.filterMap_append]
  exact List.mem_append_right _ hmem

/-- A message that is stored while the client is in the room reaches it. -/
theorem late_message_heard (hr₀ : Run (System.Step P Env.Terminated) (System.init db) tr₀ c₀)
    (hseat : (stageOf tr₀ (.handler j)).phase.seat = some (fd, room)) (hr : Run (Attending P fd room) c₀ tr c)
    {tid : Tid} {username content : Bytes} {ts : Int} {msg : MqMessage} {before between after : List (Label Tid Act.Ret)}
    (htr : tr = before ++ ⟨tid, .roomHistoryAdd room username content ts, ChatStatus.ok⟩ ::
      (between ++ ⟨tid, .mqPush msg, ChatStatus.ok⟩ :: after))
    (hno : ∀ l ∈ between, l.tid = tid → ∀ msg, l.act ≠ .mqPush msg)
    (hover : FannedOut (tr₀ ++ tr) c (pushed (tr₀ ++ before ++ between)).length) :
    broadcastOf P username room content ts ∈ aired fd tr := by
  have hrun := hr₀.trans (hr.mono fun _ _ _ h => h.step)
  have hpushed : pushed (tr₀ ++ tr) = pushed (tr₀ ++ before ++ between) ++ (tid, msg) :: pushed after := by
    have hstore : pushOf ⟨tid, .roomHistoryAdd room username content ts, ChatStatus.ok⟩ = none := rfl
    have hpush : pushOf ⟨tid, .mqPush msg, ChatStatus.ok⟩ = some (tid, msg) := rfl
    rw [htr]
    simp only [pushed, List.filterMap_append, List.filterMap_cons_none hstore, List.filterMap_cons_some hpush, List.append_assoc]
  have hrun' := hrun
  rw [htr, ← List.append_assoc] at hrun'
  obtain ⟨hproper, evt, hend, rfl⟩ := event_of_store hrun' hno
  have hline : lineFor P room (chatEvent evt username room content ts) = some (broadcastOf P username room content ts) := by
    rw [lineFor_room (chatEvent_room hproper hend ts) (eventLine_chat rfl), chatEvent_broadcastLine hproper hend]
  refine event_heard hr₀ hseat hr ?_ ?_ hover hline
  · rw [hpushed, List.map_append, List.getElem?_append_right (by rw [List.length_map]), List.length_map, Nat.sub_self]
    rfl
  · simp only [pushed, List.filterMap_append, List.length_append]
    omega

/-- **A joiner misses nothing.** Behind the join a `HISTORY` line is built and
sent; every message of the room stands in it, or has a full history of later
ones before it, or is broadcast to the joiner by the time its event is fanned
out. -/
theorem joiner_misses_nothing {tr₁ tr₂ tr₃ : List (Label Tid Act.Ret)} {c₁ c₂ c₃ c₄ : System} {join : Label Tid Act.Ret}
    {room' payload line : Bytes} (hr₁ : Run (System.Step P Env.Terminated) (System.init db) tr₁ c₁)
    (hjoin : System.Step P Env.Terminated c₁ join c₂) (hj : Joins j fd room join) (hr₂ : Run (Attending P fd room) c₂ tr₂ c₃)
    (hformat : System.Step P Env.Terminated c₃ ⟨.handler j, .roomHistoryFormat room' maxLineLen, (ChatStatus.ok, payload)⟩ c₄)
    (hline : protocolBuildServerHistory maxLineLen payload = (.ok, line)) (hr₃ : Run (Attending P fd room) c₄ tr₃ c) :
    Tells j fd line tr₃ ∧
    (∃ entries, line = lit "HISTORY " ++ joinWith (lit "||") entries ++ lit "\n" ∧
      ∀ k msg, (stored P (tr₁ ++ [join] ++ tr₂) room)[k]? = some msg →
        msg ∈ entries ∨ k + maxRoomHistory < (stored P (tr₁ ++ [join] ++ tr₂) room).length) ∧
    ∀ tid username content ts msg before between after,
      tr₃ = before ++ ⟨tid, .roomHistoryAdd room username content ts, ChatStatus.ok⟩ ::
        (between ++ ⟨tid, .mqPush msg, ChatStatus.ok⟩ :: after) →
      (∀ l ∈ between, l.tid = tid → ∀ msg, l.act ≠ .mqPush msg) →
      FannedOut (tr₁ ++ [join] ++ tr₂ ++ [⟨.handler j, .roomHistoryFormat room' maxLineLen, (ChatStatus.ok, payload)⟩] ++ tr₃) c
        (pushed (tr₁ ++ [join] ++ tr₂ ++ before ++ between)).length →
      broadcastOf P username room content ts ∈ aired fd tr₃ := by
  have hrun₂ := hr₁.snoc hjoin
  have hseat₂ := join_seat hr₁ hjoin hj
  have hrun₃ := hrun₂.trans (hr₂.mono fun _ _ _ h => h.step)
  have hseat₃ := attending_seat hrun₂ hseat₂ hr₂
  have hrun₄ := hrun₃.snoc hformat
  obtain ⟨hentries, hquoting⟩ := format_entries hrun₃ hseat₃ hformat hline
  have hseat₄ : (stageOf (tr₁ ++ [join] ++ tr₂ ++ [⟨.handler j, .roomHistoryFormat room' maxLineLen, (ChatStatus.ok, payload)⟩])
      (.handler j)).phase.seat = some (fd, room) := by
    have hown := stageOf_own (tr₁ ++ [join] ++ tr₂) (.handler j) (.roomHistoryFormat room' maxLineLen) (ChatStatus.ok, payload)
    exact (congrArg (fun σ : Stage => σ.phase.seat) hown).trans hseat₃
  refine ⟨?_, ⟨_, hentries, fun k msg hk => ?_⟩, ?_⟩
  · have hquotes : Quotes j fd line tr₃ (stageOf (tr₁ ++ [join] ++ tr₂ ++
        [⟨.handler j, .roomHistoryFormat room' maxLineLen, (ChatStatus.ok, payload)⟩] ++ tr₃) (.handler j)).errand := by
      refine hr₃.traced (I := fun tr _ => Quotes j fd line tr (stageOf (tr₁ ++ [join] ++ tr₂ ++
        [⟨.handler j, .roomHistoryFormat room' maxLineLen, (ChatStatus.ok, payload)⟩] ++ tr) (.handler j)).errand) ?_ ?_
      · intro tr s' s'' l hr' hI h
        have hc : Staged True _ s' := run_staged (fun _ he _ => he) (hrun₄.trans (hr'.mono fun _ _ _ h => h.step))
        rw [← List.append_assoc]
        exact hI.step hc h.step h.delivers
      · rw [List.append_nil]
        exact Or.inr ⟨fun l hl => absurd hl List.not_mem_nil, Or.inl hquoting⟩
    exact hquotes.imp_right And.left
  · by_cases hlen : (stored P (tr₁ ++ [join] ++ tr₂) room).length ≤ k + maxRoomHistory
    · exact Or.inl (mem_lastN hk hlen)
    · exact Or.inr (Nat.lt_of_not_le hlen)
  · intro tid username content ts msg before between after htr hno hover
    refine late_message_heard hrun₄ hseat₄ hr₃ htr hno ?_
    have hsame : pushed (tr₁ ++ [join] ++ tr₂ ++ [⟨.handler j, .roomHistoryFormat room' maxLineLen, (ChatStatus.ok, payload)⟩] ++
        before ++ between) = pushed (tr₁ ++ [join] ++ tr₂ ++ before ++ between) := by
      simp only [pushed, List.filterMap_append, List.append_assoc]
      rfl
    rw [hsame]
    exact hover

end

/-! ### `bob` joins while `alice` speaks -/

/-- The answer to an action that returns a status. -/
def outcome (l : Label Tid Act.Ret) : Option (ChatStatus × Bytes) :=
  match l with
  | ⟨_, .registryAdd .., (rc : ChatStatus)⟩ => some (rc, [])
  | ⟨_, .roomHistoryAdd .., (rc : ChatStatus)⟩ => some (rc, [])
  | ⟨_, .mqPush _, (rc : ChatStatus)⟩ => some (rc, [])
  | ⟨_, .roomHistoryFormat .., (r : ChatStatus × Bytes)⟩ => some r
  | _ => none

section
variable {l : Label Tid Act.Ret} {tid : Tid} {rc : ChatStatus} {text : Bytes}

theorem label_registryAdd {fd : Int} {u room : Bytes} {isAdmin : Bool} (htid : l.tid = tid) (ha : l.act = .registryAdd fd u room isAdmin)
    (ho : outcome l = some (rc, text)) : l = ⟨tid, .registryAdd fd u room isAdmin, rc⟩ := by
  obtain ⟨tid', a, r⟩ := l
  obtain rfl : tid' = tid := htid
  obtain rfl : a = .registryAdd fd u room isAdmin := ha
  cases ho
  rfl

theorem label_roomHistoryAdd {room u content : Bytes} {ts : Int} (htid : l.tid = tid) (ha : l.act = .roomHistoryAdd room u content ts)
    (ho : outcome l = some (rc, text)) : l = ⟨tid, .roomHistoryAdd room u content ts, rc⟩ := by
  obtain ⟨tid', a, r⟩ := l
  obtain rfl : tid' = tid := htid
  obtain rfl : a = .roomHistoryAdd room u content ts := ha
  cases ho
  rfl

theorem label_mqPush {msg : MqMessage} (htid : l.tid = tid) (ha : l.act = .mqPush msg) (ho : outcome l = some (rc, text)) :
    l = ⟨tid, .mqPush msg, rc⟩ := by
  obtain ⟨tid', a, r⟩ := l
  obtain rfl : tid' = tid := htid
  obtain rfl : a = .mqPush msg := ha
  cases ho
  rfl

theorem label_roomHistoryFormat {room : Bytes} {buflen : Nat} (htid : l.tid = tid) (ha : l.act = .roomHistoryFormat room buflen)
    (ho : outcome l = some (rc, text)) : l = ⟨tid, .roomHistoryFormat room buflen, (rc, text)⟩ := by
  obtain ⟨tid', a, r⟩ := l
  obtain rfl : tid' = tid := htid
  obtain rfl : a = .roomHistoryFormat room buflen := ha
  cases ho
  rfl

end

def attends (_ : System) (l : Label Tid Act.Ret) (c : System) : Bool :=
  !fails l && !removes l.act && decide (Member c.shared 6 defaultRoom)

theorem attending_of_attends {c c' : System} {l : Label Tid Act.Ret}
    (h : System.Step passPlatform Env.Terminated c l c' ∧ attends c l c' = true) : Attending passPlatform 6 defaultRoom c l c' := by
  simp only [attends, Bool.and_eq_true, Bool.not_eq_true', decide_eq_true_eq] at h
  exact ⟨h.1, delivers_of_not_fails h.2.1.1, calm_of_not_removes h.2.1.2, h.2.2⟩

/-- `alice` has said something, and `bob` is about to be registered. -/
def arriving : List (Tid × Env) :=
  logIn 0 5 "alice" ++ List.replicate 8 (Tid.handler 0, sunny "MSG hi" 0 0) ++ (logIn 1 6 "bob").take 12

theorem sunny_arriving : ∀ q ∈ arriving, q.2.Terminated := by
  intro q hq
  simp only [arriving, List.mem_append] at hq
  rcases hq with (hq | hq) | hq
  · exact sunny_logIn 0 5 "alice" q hq
  · rw [(List.mem_replicate.mp hq).2]; exact sunny_terminated _ _ _
  · exact sunny_logIn 1 6 "bob" q (List.mem_of_mem_take hq)

/-- She goes on while he is sent the history, and the broadcaster passes on what there is. -/
def meanwhile : List (Tid × Env) :=
  [(.handler 1, sunny "" 6 2)] ++ List.replicate 8 (Tid.handler 0, sunny "MSG yo" 0 0) ++ List.replicate 21 (Tid.broadcaster, sunny "" 0 0)

theorem sunny_meanwhile : ∀ q ∈ meanwhile, q.2.Terminated := by
  intro q hq
  simp only [meanwhile, List.mem_append, List.mem_replicate, List.mem_singleton] at hq
  rcases hq with (rfl | ⟨-, rfl⟩) | ⟨-, rfl⟩ <;> exact sunny_terminated _ _ _

def bobSteps (c : System) : Option (Label Tid Act.Ret × System) :=
  stepWith (Thread.next passPlatform) (exec passPlatform) c (.handler 1) (sunny "" 6 2)

def storesYo (l : Label Tid Act.Ret) : Bool :=
  l.tid == .handler 0 && l.act == .roomHistoryAdd defaultRoom (lit "alice") (lit "yo") 0 && outcome l == some (.ok, [])

def pushEvent (l : Label Tid Act.Ret) : Option MqMessage :=
  match l with
  | ⟨.handler 0, .mqPush msg, _⟩ => some msg
  | _ => none

/-- She stores the message, and pushes its event later. -/
def storesAndPushes (tr : List (Label Tid Act.Ret)) : Bool :=
  match tr.dropWhile fun l => !storesYo l with
  | [] => false
  | l :: after => storesYo l &&
    match after.dropWhile fun l => (pushEvent l).isNone with
    | [] => false
    | l' :: _ => (pushEvent l').isSome && outcome l' == some (.ok, [])

theorem split_of_storesAndPushes {tr : List (Label Tid Act.Ret)} (h : storesAndPushes tr = true) : ∃ before between after msg,
    tr = before ++ ⟨.handler 0, .roomHistoryAdd defaultRoom (lit "alice") (lit "yo") 0, ChatStatus.ok⟩ ::
      (between ++ ⟨.handler 0, .mqPush msg, ChatStatus.ok⟩ :: after) ∧
    ∀ l ∈ between, l.tid = .handler 0 → ∀ msg, l.act ≠ .mqPush msg := by
  unfold storesAndPushes at h
  split at h
  · cases h
  rename_i l rest hl
  rw [Bool.and_eq_true] at h
  obtain ⟨hstore, h⟩ := h
  split at h
  · cases h
  rename_i l' after hl'
  simp only [storesYo, Bool.and_eq_true, beq_iff_eq, Option.isSome_iff_exists] at hstore h
  obtain ⟨⟨htid, hact⟩, hout⟩ := hstore
  obtain ⟨⟨msg, hmsg⟩, hout'⟩ := h
  have hpush : l'.tid = .handler 0 ∧ l'.act = .mqPush msg := by
    unfold pushEvent at hmsg
    split at hmsg
    · cases hmsg
      exact ⟨rfl, rfl⟩
    · cases hmsg
  have htr : tr = (tr.takeWhile fun l => !storesYo l) ++ l :: rest := by rw [← hl, List.takeWhile_append_dropWhile]
  have hrest : rest = (rest.takeWhile fun l => (pushEvent l).isNone) ++ l' :: after := by rw [← hl', List.takeWhile_append_dropWhile]
  refine ⟨tr.takeWhile fun l => !storesYo l, rest.takeWhile fun l => (pushEvent l).isNone, after, msg, ?_, fun x hx htid msg hact => ?_⟩
  · rw [← label_roomHistoryAdd htid hact hout, ← label_mqPush hpush.1 hpush.2 hout', ← hrest]
    exact htr
  · have hnone := List.all_eq_true.mp List.all_takeWhile x hx
    obtain ⟨tid, a, r⟩ := x
    obtain rfl : tid = .handler 0 := htid
    obtain rfl : a = .mqPush msg := hact
    cases hnone

theorem joiner_misses_nothing_bob : ∃ tr₁ join tr₂ tr₃ c₁ c₂ c₃ c₄ c payload,
    Run (System.Step passPlatform Env.Terminated) (System.init passDb) tr₁ c₁ ∧
    System.Step passPlatform Env.Terminated c₁ join c₂ ∧ Joins 1 6 defaultRoom join ∧
    Run (Attending passPlatform 6 defaultRoom) c₂ tr₂ c₃ ∧
    System.Step passPlatform Env.Terminated c₃ ⟨.handler 1, .roomHistoryFormat defaultRoom maxLineLen, (ChatStatus.ok, payload)⟩ c₄ ∧
    Run (Attending passPlatform 6 defaultRoom) c₄ tr₃ c ∧
    Tells 1 6 (lit "HISTORY alice|1970-01-01T00:00:00|hi\n") tr₃ ∧
    broadcastOf passPlatform (lit "alice") defaultRoom (lit "yo") 0 ∈ aired 6 tr₃ := by
  obtain ⟨tr₁, c₁, hr₁, hp⟩ := System.exists_run passPlatform Env.Terminated (System.init passDb) arriving sunny_arriving
    (p := fun q => (bobSteps q.2).any fun j => j.1.tid == .handler 1 &&
      j.1.act == .registryAdd 6 (lit "bob") defaultRoom false && outcome j.1 == some (.ok, []) &&
      (guarded (Thread.next passPlatform) (exec passPlatform) attends j.2 (List.replicate 2 (Tid.handler 1, sunny "" 6 2))).any fun q₂ =>
        (bobSteps q₂.2).any fun f => f.1.tid == .handler 1 && f.1.act == .roomHistoryFormat defaultRoom maxLineLen &&
          outcome f.1 == some (.ok, lit "alice|1970-01-01T00:00:00|hi") &&
          (guarded (Thread.next passPlatform) (exec passPlatform) attends f.2 meanwhile).any fun q₃ =>
            atTop q₃.2 && (popped (q.1 ++ [j.1] ++ q₂.1 ++ [f.1] ++ q₃.1)).length == 3 &&
              (pushed (q.1 ++ [j.1] ++ q₂.1 ++ [f.1] ++ q₃.1)).length == 3 && storesAndPushes q₃.1) (by decide +kernel)
  simp only [Option.any_eq_true, Bool.and_eq_true, beq_iff_eq] at hp
  obtain ⟨⟨join, c₂⟩, hjoin, ⟨⟨htid, hact⟩, hout⟩, ⟨tr₂, c₃⟩, hr₂, ⟨format, c₄⟩, hformat, ⟨⟨htid', hact'⟩, hout'⟩, ⟨tr₃, c⟩, hr₃,
    ⟨⟨htop, hpopped⟩, hpushed⟩, hsays⟩ := hp
  obtain rfl := label_registryAdd htid hact hout
  obtain rfl := label_roomHistoryFormat htid' hact' hout'
  have hj : Joins 1 6 defaultRoom ⟨.handler 1, .registryAdd 6 (lit "bob") defaultRoom false, ChatStatus.ok⟩ :=
    Or.inr ⟨rfl, lit "bob", false, rfl⟩
  have hs₁ := step_of_stepWith (sunny_terminated "" 6 2) hjoin
  have hs₂ := step_of_stepWith (sunny_terminated "" 6 2) hformat
  have hsunny : ∀ q ∈ List.replicate 2 (Tid.handler 1, sunny "" 6 2), q.2.Terminated := by
    intro q hq
    rw [(List.mem_replicate.mp hq).2]
    exact sunny_terminated _ _ _
  have hrun₂ : Run (Attending passPlatform 6 defaultRoom) c₂ tr₂ c₃ :=
    (run_of_guarded hsunny hr₂).mono fun _ _ _ => attending_of_attends
  have hrun₃ : Run (Attending passPlatform 6 defaultRoom) c₄ tr₃ c :=
    (run_of_guarded sunny_meanwhile hr₃).mono fun _ _ _ => attending_of_attends
  obtain ⟨before, between, after, msg, rfl, hno⟩ := split_of_storesAndPushes hsays
  obtain ⟨htells, -, hheard⟩ := joiner_misses_nothing hr₁ hs₁ hj hrun₂ hs₂
    (show protocolBuildServerHistory maxLineLen (lit "alice|1970-01-01T00:00:00|hi") =
      (.ok, lit "HISTORY alice|1970-01-01T00:00:00|hi\n") by decide +kernel) hrun₃
  refine ⟨tr₁, _, tr₂, _, c₁, c₂, c₃, c₄, c, _, hr₁, hs₁, hj, hrun₂, hs₂, hrun₃, htells, ?_⟩
  refine hheard (.handler 0) (lit "alice") (lit "yo") 0 msg before between after rfl hno (Or.inr ⟨?_, idle_of_atTop htop⟩)
  have hstore : pushOf ⟨.handler 0, .roomHistoryAdd defaultRoom (lit "alice") (lit "yo") 0, ChatStatus.ok⟩ = none := rfl
  have hpush : pushOf ⟨.handler 0, .mqPush msg, ChatStatus.ok⟩ = some (.handler 0, msg) := rfl
  rw [hpopped]
  simp only [pushed, List.filterMap_append, List.filterMap_cons_none hstore, List.filterMap_cons_some hpush, List.length_append,
    List.length_cons] at hpushed ⊢
  omega

end ChatServer

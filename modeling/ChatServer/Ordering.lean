import ChatServer.FanOut

/-!
# The order of a room

`cmd_handle_msg` stores a message and pushes its event in two critical
sections. The history of the room and the queue agree on the order as long as
no handler stores a message there while another one stands between the two.
-/

namespace ChatServer

open CStr Interleave Prog

/-! ## Messages by their texts -/

/-- A copy bounded by `n`, read back with the same bound. -/
theorem take_cstr_strncpy {src : Bytes} {n : Nat} (h0 : 0 ∉ src) (hl : src.length ≤ n) (dst : Bytes) :
    (cstr (strncpy dst src n)).take n = src := by
  rw [cstr_strncpy, cstr_of_nulFree h0]
  split
  · exact List.take_of_length_le hl
  · have hlen : src.length = n := by omega
    rw [List.take_of_length_le hl, ← hlen]
    exact List.take_left

def MqMessage.roomName (msg : MqMessage) : Bytes := (cstr msg.room).take (maxRoomNameLen - 1)

/-- The message of the event, as a history has it. -/
def MqMessage.text (P : Platform) (msg : MqMessage) : Bytes :=
  formatEntry ((cstr msg.username).take (maxUsernameLen - 1)) (formatTimestamp P.localtimeR msg.timestamp)
    ((cstr msg.content).take (maxMsgLen - 1))

def textIn (P : Platform) (room : Bytes) (msg : MqMessage) : Option Bytes :=
  if msg.type = .chat ∧ msg.roomName = room then some (msg.text P) else none

/-- The messages of the room among these events. -/
def spoken (P : Platform) (room : Bytes) (msgs : List MqMessage) : List Bytes := msgs.filterMap (textIn P room)

section
variable {username room content : Bytes} (h : Errand.Proper username room content) (evt : MqMessage) (ts : Int)
include h

theorem chatEvent_roomName : (chatEvent evt username room content ts).roomName = room :=
  take_cstr_strncpy h.room.1 (Nat.le_pred_of_lt h.room.2) evt.room

theorem chatEvent_text (P : Platform) :
    (chatEvent evt username room content ts).text P = formatEntry username (formatTimestamp P.localtimeR ts) content := by
  have hu : (cstr (strncpy evt.username username (maxUsernameLen - 1))).take (maxUsernameLen - 1) = username :=
    take_cstr_strncpy h.username.1 (Nat.le_pred_of_lt h.username.2) evt.username
  have hc : (cstr (strncpy evt.content content (maxMsgLen - 1))).take (maxMsgLen - 1) = content :=
    take_cstr_strncpy h.content.1 (Nat.le_pred_of_lt h.content.2.2) evt.content
  show formatEntry ((cstr (strncpy evt.username username (maxUsernameLen - 1))).take (maxUsernameLen - 1)) _
    ((cstr (strncpy evt.content content (maxMsgLen - 1))).take (maxMsgLen - 1)) = _
  rw [hu, hc]
  rfl

end

/-! ## Between the two steps -/

/-- The handler has stored a message in the room, and pushes its event next. -/
def Between (P : Platform) (c : System) (tid : Tid) (room : Bytes) : Prop :=
  ∃ t, (t = c.loc tid ∨ ∃ k evt, (c.loc tid).next P = some ⟨.stackEvent, k⟩ ∧ t = k evt) ∧
    ∃ msg k, t.next P = some ⟨.mqPush msg, k⟩ ∧ msg.type = .chat ∧ msg.roomName = room

/-- Nothing is stored in a room while another handler stands between its own two steps there. -/
def Exclusive (P : Platform) (c : System) (l : Label Tid Act.Ret) : Prop :=
  ∀ room username content ts, l.act = .roomHistoryAdd room username content ts → ∀ tid, tid ≠ l.tid → ¬ Between P c tid room

/-- Every `room_history_add` and every push of a message succeeds. -/
structure Succeeds (l : Label Tid Act.Ret) : Prop where
  add : ∀ tid room username content ts rc, l = ⟨tid, .roomHistoryAdd room username content ts, rc⟩ → rc = ChatStatus.ok
  push : ∀ tid msg rc, l = ⟨tid, .mqPush msg, rc⟩ → msg.type = .chat → rc = ChatStatus.ok

/-- The message that is stored in the room and not pushed. -/
def Errand.owes (P : Platform) (room : Bytes) : Errand → Option Bytes
  | .stored room' username content ts =>
    if room' = room then some (formatEntry username (formatTimestamp P.localtimeR ts) content) else Option.none
  | .ready msg => if msg.roomName = room then some (msg.text P) else Option.none
  | _ => Option.none

theorem owes_of_open {q : Errand} (h : q.Open) (P : Platform) (room : Bytes) : q.owes P room = none := by
  cases q with
  | none | asked => rfl
  | _ => cases h

section
variable (P : Platform) {tid : Tid} (room : Bytes) {σ : Stage} {a : Act} {r : a.Ret}

/-- What a handler stores it owes, and what it pushes it has owed. -/
theorem step_owes (hq : σ.errand.Sound False) (hp : σ.permits False a) (hs : Succeeds ⟨tid, a, r⟩) :
    ((pushOf ⟨tid, a, r⟩).bind fun q => textIn P room q.2).toList ++ ((σ.next a r).errand.owes P room).toList =
      (σ.errand.owes P room).toList ++ (storeOf P room ⟨tid, a, r⟩).toList := by
  obtain ⟨p, q⟩ := σ
  have hperm := hp.errand
  cases a with
  | recvLine fd =>
    change Option Bytes at r
    rw [show (Stage.next ⟨p, q⟩ (.recvLine fd) r).errand.owes P room = none from
      owes_of_open (Handler.heard_open r) P room, show q.owes P room = none from owes_of_open hperm P room]
    rfl
  | send fd buf n =>
    change Option Nat at r
    have hnext : (Errand.sent fd buf n r).owes P room = none := by
      unfold Errand.sent
      split
      · split <;> rfl
      · rfl
    have hnow : q.owes P room = none := by
      obtain ⟨-, rfl | ⟨-, h | rfl⟩⟩ := hperm
      · rfl
      · exact owes_of_open h P room
      · rfl
    rw [show (Stage.next ⟨p, q⟩ (.send fd buf n) r).errand.owes P room = none from hnext, hnow]
    rfl
  | stackEvent =>
    change MqMessage at r
    cases q with
    | stored room' u content ts =>
      show [] ++ (if (chatEvent r u room' content ts).roomName = room then some ((chatEvent r u room' content ts).text P)
        else none).toList = (if room' = room then some (formatEntry u (formatTimestamp P.localtimeR ts) content) else none).toList ++ []
      rw [chatEvent_roomName hq, chatEvent_text hq, List.append_nil, List.nil_append]
    | _ => exact (List.append_nil _).symm
  | roomHistoryAdd room' u content ts =>
    obtain rfl : q = .asked content := hperm
    obtain rfl : r = ChatStatus.ok := hs.add tid room' u content ts r rfl
    show [] ++ (if room' = room then some (formatEntry u (formatTimestamp P.localtimeR ts) content) else none).toList =
      [] ++ (if room' = room ∧ ChatStatus.ok = .ok then some (formatEntry u (formatTimestamp P.localtimeR ts) content) else none).toList
    simp only [and_true]
  | roomHistoryFormat =>
    change ChatStatus × Bytes at r
    have hnext : (q.quoted p.fd r).owes P room = none := by
      unfold Errand.quoted
      split
      · rfl
      · exact owes_of_open hperm P room
    show [] ++ ((q.quoted p.fd r).owes P room).toList = (q.owes P room).toList ++ []
    rw [hnext, show q.owes P room = none from owes_of_open hperm P room]
    rfl
  | mqPush msg =>
    change ChatStatus at r
    change if msg.type = .chat then q = .ready msg else q.Open at hperm
    by_cases hchat : msg.type = .chat
    · rw [if_pos hchat] at hperm
      subst hperm
      obtain rfl : r = .ok := hs.push tid msg r rfl hchat
      show (if msg.type = .chat ∧ msg.roomName = room then some (msg.text P) else none).toList ++ [] =
        (if msg.roomName = room then some (msg.text P) else none).toList ++ []
      simp only [hchat, true_and, List.append_nil]
    · rw [if_neg hchat] at hperm
      have hnone : (pushOf ⟨tid, .mqPush msg, r⟩).bind (fun q => textIn P room q.2) = none := by
        show (if r = .ok then some (tid, msg) else none).bind (fun q => textIn P room q.2) = _
        split
        · exact if_neg fun h => hchat h.1
        · rfl
      rw [hnone]
      show [] ++ (q.pushed.owes P room).toList = (q.owes P room).toList ++ []
      rw [Errand.pushed_open hperm, List.append_nil, List.nil_append]
  | _ => exact (List.append_nil _).symm

end

section
variable {P : Platform} {ok : Env → Prop} {db : AuthDb} {tid : Tid} {tr : List (Label Tid Act.Ret)} {c c' : System} {room : Bytes}

theorem permits_ready {T : Prop} {σ : Stage} {a : Act} (hp : σ.permits T a) {msg : MqMessage} (hq : σ.errand = .ready msg) :
    a = .mqPush msg := by
  have he := hp.errand
  rw [hq] at he
  cases a with
  | mqPush msg' =>
    change if msg'.type = .chat then _ else _ at he
    split at he
    · cases he; rfl
    · cases he
  | send =>
    obtain ⟨-, h | ⟨-, h | h⟩⟩ := he
    · cases h
    · cases h
    · cases h
  | stackEvent =>
    rcases he with h | ⟨_, _, _, _, h⟩
    · cases h
    · cases h
  | _ => cases he

theorem permits_stored {T : Prop} {σ : Stage} {a : Act} (hp : σ.permits T a) {room' u content : Bytes} {ts : Int}
    (hq : σ.errand = .stored room' u content ts) : a = .stackEvent := by
  have he := hp.errand
  rw [hq] at he
  cases a with
  | mqPush msg' =>
    change if msg'.type = .chat then _ else _ at he
    split at he
    · cases he
    · cases he
  | send =>
    obtain ⟨-, h | ⟨-, h | h⟩⟩ := he
    · cases h
    · cases h
    · cases h
  | stackEvent => rfl
  | _ => cases he

/-- A handler that holds an event pushes it next. -/
theorem at_ready {σ : Stage} {t : Thread} (hat : t.At False tid σ) {msg : MqMessage} (hq : σ.errand = .ready msg) :
    ∃ k, t.next P = some ⟨.mqPush msg, k⟩ := by
  obtain ⟨a, k, hn⟩ := at_busy (P := P) hat (by rw [hq]; exact id)
  obtain rfl := permits_ready (Thread.at_next hat hn).1 hq
  exact ⟨k, hn⟩

theorem between_iff (hr : Run (System.Step P ok) (System.init db) tr c) :
    Between P c tid room ↔ (stageOf tr tid).errand.owes P room ≠ none := by
  have hc : Staged False tr c := run_staged (fun _ _ => False.elim) hr
  have hsound := stage_sound (T := False) (fun _ _ => False.elim) hr tid
  constructor
  · rintro ⟨t, rfl | ⟨k, evt, hn, rfl⟩, msg, k', hn', hchat, hroom⟩
    · have hq := (Thread.at_next (hc.loc tid) hn').1.errand
      change if msg.type = .chat then _ else _ at hq
      rw [if_pos hchat] at hq
      rw [hq, Errand.owes, if_pos hroom]
      nofun
    · obtain ⟨hp, hk⟩ := Thread.at_next (hc.loc tid) hn
      have hq := (Thread.at_next (hk evt False.elim) hn').1.errand
      change if msg.type = .chat then (stageOf tr tid).errand.found evt = _ else _ at hq
      rw [if_pos hchat] at hq
      rcases hp.errand with hopen | ⟨room', u, content, ts, hstored⟩
      · cases he : (stageOf tr tid).errand with
        | none | asked => rw [he] at hq; cases hq
        | _ => rw [he] at hopen; cases hopen
      · rw [hstored] at hq hsound ⊢
        cases hq
        have hroom' := (chatEvent_roomName hsound evt ts).symm.trans hroom
        rw [Errand.owes, if_pos hroom']
        nofun
  · intro h
    cases hq : (stageOf tr tid).errand with
    | none | asked | quoting | sending => rw [hq] at h; exact absurd rfl h
    | ready msg =>
      rw [hq, Errand.owes] at h
      have hroom : msg.roomName = room := by
        by_contra hne
        exact h (if_neg hne)
      have hchat : msg.type = .chat := by
        rw [hq] at hsound
        obtain ⟨evt, u, room', content, ts, -, -, rfl⟩ := hsound
        rfl
      obtain ⟨k, hn⟩ := at_ready (P := P) (hc.loc tid) hq
      exact ⟨_, Or.inl rfl, msg, k, hn, hchat, hroom⟩
    | stored room' u content ts =>
      rw [hq] at h hsound
      rw [Errand.owes] at h
      have hroom : room' = room := by
        by_contra hne
        exact h (if_neg hne)
      obtain ⟨a, k, hn⟩ := at_busy (P := P) (hc.loc tid) (by rw [hq]; exact id)
      obtain ⟨hp, hk⟩ := Thread.at_next (hc.loc tid) hn
      obtain rfl := permits_stored hp hq
      have hready : ((stageOf tr tid).next .stackEvent (default : MqMessage)).errand = .ready (chatEvent default u room' content ts) := by
        show (stageOf tr tid).errand.found default = _
        rw [hq]
        rfl
      obtain ⟨k', hn'⟩ := at_ready (P := P) (hk (default : MqMessage) False.elim) hready
      exact ⟨_, Or.inr ⟨k, (default : MqMessage), hn, rfl⟩, _, k', hn', rfl, (chatEvent_roomName hsound _ _).trans hroom⟩

/-! ## Every run -/

/-- At most one handler owes a message to the room, and the rest is pushed in
the order of the history. -/
def Aligned (P : Platform) (room : Bytes) (tr : List (Label Tid Act.Ret)) : Prop :=
  ∃ tid, (∀ tid', tid' ≠ tid → (stageOf tr tid').errand.owes P room = none) ∧
    stored P tr room = spoken P room ((pushed tr).map Prod.snd) ++ ((stageOf tr tid).errand.owes P room).toList

theorem stored_snoc (P : Platform) (tr : List (Label Tid Act.Ret)) (l : Label Tid Act.Ret) (room : Bytes) :
    stored P (tr ++ [l]) room = stored P tr room ++ (storeOf P room l).toList := filterMap_snoc _ _ _

theorem spoken_snoc (P : Platform) (room : Bytes) (tr : List (Label Tid Act.Ret)) (l : Label Tid Act.Ret) :
    spoken P room ((pushed (tr ++ [l])).map Prod.snd) =
      spoken P room ((pushed tr).map Prod.snd) ++ ((pushOf l).bind fun q => textIn P room q.2).toList := by
  rw [pushed, filterMap_snoc, List.map_append, spoken, List.filterMap_append]
  refine congrArg (_ ++ ·) ?_
  cases pushOf l with
  | none => rfl
  | some q =>
    show List.filterMap (textIn P room) [q.2] = (textIn P room q.2).toList
    cases h : textIn P room q.2 <;> simp [h]

theorem Aligned.step (hr : Run (System.Step P ok) (System.init db) tr c) (h : Aligned P room tr) {l : Label Tid Act.Ret}
    (hs : System.Step P ok c l c') (hsucc : Succeeds l) (hex : Exclusive P c l) : Aligned P room (tr ++ [l]) := by
  obtain ⟨tid, hothers, hlog⟩ := h
  have hc : Staged False tr c := run_staged (fun _ _ => False.elim) hr
  obtain ⟨hp, -⟩ := hc.step hs
  have hsound := stage_sound (T := False) (fun _ _ => False.elim) hr l.tid
  obtain ⟨tid₁, a, r⟩ := l
  have hstep := step_owes P room hsound hp hsucc
  have hown : (stageOf (tr ++ [⟨tid₁, a, r⟩]) tid₁).errand = ((stageOf tr tid₁).next a r).errand :=
    congrArg Stage.errand (stageOf_own tr tid₁ a r)
  have hother : ∀ tid', tid' ≠ tid₁ → stageOf (tr ++ [⟨tid₁, a, r⟩]) tid' = stageOf tr tid' :=
    fun tid' hne => stageOf_other (Ne.symm hne) tr
  -- either the owing handler moves, or nobody owes anything, or the step is none of the two
  by_cases hfree : tid₁ = tid ∨ (stageOf tr tid).errand.owes P room = none
  · refine ⟨tid₁, fun tid' hne => ?_, ?_⟩
    · rw [hother tid' hne]
      by_cases htid : tid' = tid
      · subst htid
        exact hfree.resolve_left (Ne.symm hne)
      · exact hothers tid' htid
    · have hsame : (stageOf tr tid).errand.owes P room = (stageOf tr tid₁).errand.owes P room := by
        by_cases htid : tid₁ = tid
        · rw [htid]
        · rw [hfree.resolve_left htid, hothers tid₁ htid]
      rw [stored_snoc, hlog, spoken_snoc, hown, List.append_assoc, List.append_assoc, hsame, hstep]
  · rw [not_or] at hfree
    obtain ⟨htid, howes⟩ := hfree
    rw [hothers tid₁ htid, Option.toList_none, List.nil_append] at hstep
    have hstore : storeOf P room ⟨tid₁, a, r⟩ = none := by
      cases a with
      | roomHistoryAdd room' u content ts =>
        refine if_neg fun hroom => ?_
        obtain ⟨rfl, -⟩ := hroom
        exact hex room' u content ts rfl tid (Ne.symm htid) ((between_iff hr).mpr howes)
      | _ => rfl
    rw [hstore, Option.toList_none, List.append_eq_nil_iff] at hstep
    refine ⟨tid, fun tid' hne => ?_, ?_⟩
    · by_cases htid' : tid' = tid₁
      · subst htid'
        rw [hown]
        exact Option.toList_eq_nil_iff.mp hstep.2
      · rw [hother tid' htid']
        exact hothers tid' hne
    · rw [stored_snoc, hstore, hlog, spoken_snoc, hstep.1, hother tid (Ne.symm htid), Option.toList_none, List.append_nil, List.append_nil]

/-- **One order for the history and the broadcasts** in the runs in which no
handler stores a message while another one has stored one and not pushed it. -/
theorem history_order (hr : Run (fun c l c' => System.Step P ok c l c' ∧ Succeeds l ∧ Exclusive P c l) (System.init db) tr c)
    (h0 : 0 ∉ room) :
    historyEntries c.shared.rooms room = lastN maxRoomHistory (stored P tr room) ∧
    spoken P room (popped tr) <+: stored P tr room ∧
    ∀ l c' fd buf sent, System.Step P ok c l c' → l.tid = .broadcaster → l.act = .send fd buf sent → Latest P tr buf := by
  have hrun : Run (System.Step P ok) (System.init db) tr c := hr.mono fun _ _ _ h => h.1
  refine ⟨historyEntries_of_holds (rooms_hold hrun) h0, ?_, fun l c' fd buf sent hs htid hl => sends_latest hrun hs htid hl⟩
  obtain ⟨tid, -, hlog⟩ : Aligned P room tr := by
    refine hr.traced (I := fun tr _ => Aligned P room tr) ?_ ⟨.main, fun tid _ => by cases tid <;> rfl, rfl⟩
    intro tr s' s'' l hr' hI ⟨hs, hsucc, hex⟩
    exact hI.step (hr'.mono fun _ _ _ h => h.1) hs hsucc hex
  rw [hlog, pushed_eq hrun, spoken, spoken, List.filterMap_append, List.append_assoc]
  exact List.prefix_append _ _

end

/-! ### `alice` and `bob` speak at once -/

def rejects (l : Label Tid Act.Ret) : Bool :=
  match l with
  | ⟨_, .roomHistoryAdd .., (rc : ChatStatus)⟩ => rc != .ok
  | ⟨_, .mqPush msg, (rc : ChatStatus)⟩ => msg.type == .chat && rc != .ok
  | _ => false

theorem succeeds_of_not_rejects {l : Label Tid Act.Ret} (h : rejects l = false) : Succeeds l where
  add := by
    rintro tid room u content ts rc rfl
    change ChatStatus at rc
    have hrc : rc = .ok := by simpa [rejects] using h
    exact hrc
  push := by
    rintro tid msg rc rfl hchat
    change ChatStatus at rc
    have hrc : rc = .ok := by simpa [rejects, hchat] using h
    exact hrc

section
variable {P : Platform} {ok : Env → Prop} {db : AuthDb} {tr : List (Label Tid Act.Ret)} {c : System}

def Errand.Laden : Errand → Prop
  | .stored .. | .ready _ => True
  | _ => False

theorem not_laden_of_open {q : Errand} (h : q.Open) : ¬ q.Laden := by
  cases q with
  | none | asked => exact id
  | _ => cases h

theorem laden_of_owes {q : Errand} (h : q.owes P room ≠ none) : q.Laden := by
  cases q with
  | stored | ready => trivial
  | _ => exact absurd rfl h

/-- A handler stores its message, or goes on to push it. -/
theorem next_laden {σ : Stage} {a : Act} {r : a.Ret} (hp : σ.permits False a) (h : (σ.next a r).errand.Laden) :
    (∃ room u content ts, a = .roomHistoryAdd room u content ts) ∨ σ.errand.Laden ∧ a = .stackEvent := by
  obtain ⟨p, q⟩ := σ
  cases q with
  | stored => exact Or.inr ⟨trivial, permits_stored hp rfl⟩
  | ready =>
    obtain rfl := permits_ready hp rfl
    cases h
  | none | asked | quoting | sending =>
    cases a with
    | roomHistoryAdd room u content ts => exact Or.inl ⟨room, u, content, ts, rfl⟩
    | recvLine =>
      change Option Bytes at r
      exact absurd h (fun hl => not_laden_of_open (Handler.heard_open r) hl)
    | send fd' buf n =>
      change Option Nat at r
      change (Errand.sent fd' buf n r).Laden at h
      unfold Errand.sent at h
      split at h
      · split at h <;> cases h
      · cases h
    | roomHistoryFormat =>
      change ChatStatus × Bytes at r
      change (Errand.quoted p.fd r _).Laden at h
      unfold Errand.quoted at h
      split at h <;> cases h
    | _ => cases h

/-- The handler that has stored a message and not pushed it yet; no other one stores meanwhile. -/
def turn (busy : Option Tid) : Label Tid Act.Ret → Option (Option Tid)
  | ⟨tid, .roomHistoryAdd .., _⟩ => if busy = none ∨ busy = some tid then some (some tid) else none
  | ⟨tid, .mqPush _, _⟩ => some (if busy = some tid then none else busy)
  | _ => some busy

/-- Whoever has a message to push has the turn. -/
def LadenTurn (tr : List (Label Tid Act.Ret)) (b : Option Tid) : Prop := ∀ tid, (stageOf tr tid).errand.Laden → b = some tid

theorem LadenTurn.exclusive {b busy : Option Tid} {l : Label Tid Act.Ret} (hb : LadenTurn tr b)
    (hr : Run (System.Step P ok) (System.init db) tr c) (h : turn b l = some busy) : Exclusive P c l := by
  intro room u content ts hl tid' hne hbetween
  obtain rfl := hb tid' (laden_of_owes ((between_iff hr).mp hbetween))
  obtain ⟨tid, a, r⟩ := l
  obtain rfl : a = .roomHistoryAdd room u content ts := hl
  change (if some tid' = none ∨ some tid' = some tid then some (some tid) else none) = some busy at h
  rw [if_neg (by simpa using hne)] at h
  cases h

theorem LadenTurn.next {b busy : Option Tid} {l : Label Tid Act.Ret} (hb : LadenTurn tr b) (hp : (stageOf tr l.tid).permits False l.act)
    (h : turn b l = some busy) : LadenTurn (tr ++ [l]) busy := by
  intro tid' hl
  obtain ⟨tid, a, r⟩ := l
  by_cases htid : tid = tid'
  · subst htid
    rw [stageOf_own] at hl
    rcases next_laden hp hl with ⟨room, u, content, ts, rfl⟩ | ⟨hq, rfl⟩
    · change (if b = none ∨ b = some tid then some (some tid) else none) = some busy at h
      split at h
      · exact (Option.some.inj h).symm
      · cases h
    · rw [← Option.some.inj h]
      exact hb tid hq
  · rw [stageOf_other htid] at hl
    obtain rfl := hb tid' hl
    have hne : ¬ (some tid' = none ∨ some tid' = some tid) := by simp [Ne.symm htid]
    cases a with
    | roomHistoryAdd => exact absurd h (by rw [turn, if_neg hne]; nofun)
    | mqPush =>
      rw [turn, if_neg fun h => hne (Or.inr h)] at h
      exact (Option.some.inj h).symm
    | _ => exact (Option.some.inj h).symm

/-- Handlers that take turns in storing and pushing keep out of each other's way. -/
theorem exclusive_of_turns (hr : Run (System.Step P ok) (System.init db) tr c) {busy : Option Tid} (h : tr.foldlM turn none = some busy) :
    Run (fun c l c' => System.Step P ok c l c' ∧ Exclusive P c l) (System.init db) tr c := by
  refine (hr.checked (I := LadenTurn) ?_ (fun tid h => by cases tid <;> cases h) h).1
  intro tr c c' l b busy hr hs hturn hnext
  have hp := ((run_staged (T := False) (fun _ _ => False.elim) hr).step hs).1
  exact ⟨hturn.exclusive hr hnext, hturn.next hp hnext⟩

end

theorem history_order_lobby : ∃ tr c, Run (fun c l c' => System.Step passPlatform Env.Terminated c l c' ∧ Succeeds l ∧
      Exclusive passPlatform c l) (System.init passDb) tr c ∧
    spoken passPlatform defaultRoom (popped tr) =
      [lit "alice|1970-01-01T00:00:00|hi", lit "bob|1970-01-01T00:00:00|hello", lit "alice|1970-01-01T00:00:00|bye"] ∧
    spoken passPlatform defaultRoom (popped tr) <+: stored passPlatform tr defaultRoom := by
  have hsunny : ∀ q ∈ bothIn ++ takeTurns, q.2.Terminated :=
    fun q hq => (List.mem_append.mp hq).elim (sunny_bothIn q) (sunny_takeTurns q)
  obtain ⟨tr, c, hr, hp⟩ := System.exists_run passPlatform Env.Terminated (System.init passDb) (bothIn ++ takeTurns) hsunny
    (p := fun q => q.1.all (fun l => !rejects l) && q.1.foldlM turn none == some none &&
      spoken passPlatform defaultRoom (popped q.1) ==
        [lit "alice|1970-01-01T00:00:00|hi", lit "bob|1970-01-01T00:00:00|hello", lit "alice|1970-01-01T00:00:00|bye"])
    (by decide +kernel)
  simp only [Bool.and_eq_true, List.all_eq_true, beq_iff_eq, Bool.not_eq_true'] at hp
  obtain ⟨⟨hsucc, hturns⟩, hspoken⟩ := hp
  have hex := exclusive_of_turns hr hturns
  have hrun := (hex.labelled fun l hl => succeeds_of_not_rejects (hsucc l hl)).mono fun c l c'
    (h : (System.Step passPlatform Env.Terminated c l c' ∧ Exclusive passPlatform c l) ∧ Succeeds l) =>
      (⟨h.1.1, h.2, h.1.2⟩ : System.Step passPlatform Env.Terminated c l c' ∧ Succeeds l ∧ Exclusive passPlatform c l)
  exact ⟨tr, c, hrun, hspoken, (history_order hrun (show 0 ∉ defaultRoom by decide)).2.1⟩

/-- Both store their messages, and the one who stored last pushes first. -/
def crossing : List (Tid × Env) :=
  List.replicate 5 (Tid.handler 0, sunny "MSG A" 0 0) ++ List.replicate 7 (Tid.handler 1, sunny "MSG B" 0 0) ++
    List.replicate 2 (Tid.handler 0, sunny "" 0 0) ++ List.replicate 23 (Tid.broadcaster, sunny "" 0 0)

theorem sunny_crossing : ∀ q ∈ crossing, q.2.Terminated := by
  intro q hq
  simp only [crossing, List.mem_append, List.mem_replicate] at hq
  rcases hq with ((⟨-, rfl⟩ | ⟨-, rfl⟩) | ⟨-, rfl⟩) | ⟨-, rfl⟩ <;> exact sunny_terminated _ _ _

/-- The history has `alice` first, and the members hear `bob` first. -/
theorem history_reordered : ∃ tr c, Run (fun c l c' => System.Step passPlatform Env.Terminated c l c' ∧ Succeeds l)
      (System.init passDb) tr c ∧
    historyEntries c.shared.rooms defaultRoom = [lit "alice|1970-01-01T00:00:00|A", lit "bob|1970-01-01T00:00:00|B"] ∧
    spoken passPlatform defaultRoom (popped tr) = [lit "bob|1970-01-01T00:00:00|B", lit "alice|1970-01-01T00:00:00|A"] ∧
    ¬ spoken passPlatform defaultRoom (popped tr) <+: historyEntries c.shared.rooms defaultRoom := by
  have hsunny : ∀ q ∈ bothIn ++ crossing, q.2.Terminated :=
    fun q hq => (List.mem_append.mp hq).elim (sunny_bothIn q) (sunny_crossing q)
  obtain ⟨tr, c, hr, hp⟩ := System.exists_run passPlatform Env.Terminated (System.init passDb) (bothIn ++ crossing) hsunny
    (p := fun q => q.1.all (fun l => !rejects l) &&
      historyEntries q.2.shared.rooms defaultRoom == [lit "alice|1970-01-01T00:00:00|A", lit "bob|1970-01-01T00:00:00|B"] &&
      spoken passPlatform defaultRoom (popped q.1) == [lit "bob|1970-01-01T00:00:00|B", lit "alice|1970-01-01T00:00:00|A"])
    (by decide +kernel)
  simp only [Bool.and_eq_true, List.all_eq_true, beq_iff_eq, Bool.not_eq_true'] at hp
  obtain ⟨⟨hsucc, hhist⟩, hspoken⟩ := hp
  refine ⟨tr, c, hr.labelled fun l hl => succeeds_of_not_rejects (hsucc l hl), hhist, hspoken, ?_⟩
  rw [hhist, hspoken]
  decide

end ChatServer

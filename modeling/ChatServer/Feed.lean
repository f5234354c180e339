import ChatServer.Identity
import ChatServer.RoomsSound
import ChatServer.ThreadStages

/-!
# What goes through the queue and the histories

The events pushed and popped and the messages stored in the course of a run,
read off its trace. The queue is what was pushed and not popped yet, and each
history holds the last messages stored in its room. A handler pushes the
event of the message that it stored last, and of the `MSG` line that it read
last.
-/

namespace ChatServer

open CStr Interleave

/-! ## Reading the trace -/

def pushOf (l : Label Tid Act.Ret) : Option (Tid × MqMessage) :=
  match l with
  | ⟨tid, .mqPush msg, (rc : ChatStatus)⟩ => if rc = .ok then some (tid, msg) else none
  | _ => none

def popOf (l : Label Tid Act.Ret) : Option MqMessage :=
  match l with
  | ⟨_, .mqPop, (r : ChatStatus × Option MqMessage)⟩ => r.2
  | _ => none

def storeOf (P : Platform) (room : Bytes) (l : Label Tid Act.Ret) : Option Bytes :=
  match l with
  | ⟨_, .roomHistoryAdd room' username content ts, (rc : ChatStatus)⟩ =>
    if room' = room ∧ rc = .ok then some (formatEntry username (formatTimestamp P.localtimeR ts) content) else none
  | _ => none

/-- The text of the `MSG` line that the handler has read. -/
def askOf (i : Nat) (l : Label Tid Act.Ret) : Option Bytes :=
  match l with
  | ⟨tid, .recvLine _, (line : Option Bytes)⟩ =>
    if tid = .handler i then
      match Errand.heard line with
      | .asked content => some content
      | _ => none
    else none
  | _ => none

def pushed (tr : List (Label Tid Act.Ret)) : List (Tid × MqMessage) := tr.filterMap pushOf

def popped (tr : List (Label Tid Act.Ret)) : List MqMessage := tr.filterMap popOf

def stored (P : Platform) (tr : List (Label Tid Act.Ret)) (room : Bytes) : List Bytes := tr.filterMap (storeOf P room)

def asked (i : Nat) (tr : List (Label Tid Act.Ret)) : List Bytes := tr.filterMap (askOf i)

theorem filterMap_snoc {α β : Type} (f : α → Option β) (l : List α) (x : α) :
    (l ++ [x]).filterMap f = l.filterMap f ++ (f x).toList := by
  rw [List.filterMap_append]
  cases h : f x <;> simp [h]

/-! ## First in, first out -/

section
variable {P : Platform} {tid : Tid} {e : Env} {s s' : Server} {a : Act} {r : a.Ret}

theorem exec_queue (hx : exec P tid a e s = some (r, s')) :
    s.queue.msgs ++ (pushOf ⟨tid, a, r⟩).toList.map Prod.snd = (popOf ⟨tid, a, r⟩).toList ++ s'.queue.msgs := by
  have other : s'.queue = s.queue → pushOf ⟨tid, a, r⟩ = none → popOf ⟨tid, a, r⟩ = none →
      s.queue.msgs ++ (pushOf ⟨tid, a, r⟩).toList.map Prod.snd = (popOf ⟨tid, a, r⟩).toList ++ s'.queue.msgs := by
    intro hq hpush hpop
    rw [hpush, hpop, hq]
    exact List.append_nil _
  cases a with
  | mqPush msg =>
    change ChatStatus at r
    have hx' : some ((mqPush s.queue e.malloc msg).1, { s with queue := (mqPush s.queue e.malloc msg).2 }) = some (r, s') := hx
    obtain ⟨rfl, rfl⟩ := Prod.mk.inj (Option.some.inj hx')
    show s.queue.msgs ++ (if (mqPush s.queue e.malloc msg).1 = .ok then some (tid, msg) else none).toList.map Prod.snd =
      (mqPush s.queue e.malloc msg).2.msgs
    unfold mqPush
    split
    · exact List.append_nil _
    split
    · exact List.append_nil _
    · rfl
  | mqPop =>
    simp only [exec] at hx
    cases hmsgs : s.queue.msgs with
    | cons msg rest =>
      simp only [mqPop, hmsgs] at hx
      cases hx
      exact List.append_nil (msg :: rest)
    | nil =>
      simp only [mqPop, hmsgs] at hx
      cases hsd : s.queue.shutdown with
      | true =>
        simp only [hsd, ite_true] at hx
        cases hx
        exact hmsgs.symm
      | false => simp only [hsd, Bool.false_eq_true, ite_false] at hx; cases hx
  | registryAdd => exact other (exec_registryAdd hx).2.1 rfl rfl
  | registryRemove | registrySetRoom | roomHistoryAdd | mqSignalShutdown => cases hx; exact List.append_nil _
  | _ => exact other (exec_sameChat rfl hx).2.2 rfl rfl

end

section
variable {P : Platform} {ok : Env → Prop} {db : AuthDb} {tr : List (Label Tid Act.Ret)} {c c' : System} {l : Label Tid Act.Ret}

theorem step_queue (hs : System.Step P ok c l c') :
    c.shared.queue.msgs ++ (pushOf l).toList.map Prod.snd = (popOf l).toList ++ c'.shared.queue.msgs := by
  cases hs with
  | mk hn he hx => exact exec_queue hx

/-- The queue holds what was pushed and has not been popped. -/
theorem pushed_eq (hr : Run (System.Step P ok) (System.init db) tr c) :
    (pushed tr).map Prod.snd = popped tr ++ c.shared.queue.msgs := by
  induction hr with
  | nil => rfl
  | @snoc c c' tr l _ hs ih =>
    rw [pushed, popped, filterMap_snoc, filterMap_snoc, List.map_append, List.append_assoc, ← step_queue hs, ← List.append_assoc]
    exact congrArg (· ++ _) ih

/-! ## The histories -/

theorem step_rooms {T : Prop} (hc : Staged T tr c) (hs : System.Step P ok c l c') {log : Bytes → List Bytes}
    (h : RoomsHold c.shared.rooms.rooms log) :
    RoomsHold c'.shared.rooms.rooms fun room => log room ++ (storeOf P room l).toList := by
  obtain ⟨hp, e, -, hx⟩ := hc.step hs
  obtain ⟨tid, a, r⟩ := l
  have same : c'.shared.rooms = c.shared.rooms → (∀ room, storeOf P room ⟨tid, a, r⟩ = none) →
      RoomsHold c'.shared.rooms.rooms fun room => log room ++ (storeOf P room ⟨tid, a, r⟩).toList := by
    intro hrooms hnone
    rw [hrooms]
    simpa only [hnone, Option.toList_none, List.append_nil] using h
  cases a with
  | roomHistoryAdd room u content ts =>
    change ChatStatus at r
    obtain ⟨hroom, htext, -⟩ := hp.phase
    obtain ⟨hu, -⟩ := hp.allowed
    have hok : Add.Ok ⟨e.malloc, room, u, content, ts⟩ := ⟨hroom.1, Nat.le_pred_of_lt hroom.2, hu.1, Nat.le_pred_of_lt hu.2,
      htext.1, htext.2.1, Nat.le_pred_of_lt htext.2.2⟩
    rcases hadd : roomHistoryAdd P c.shared.rooms e.malloc room u content ts with ⟨rc, mgr⟩
    have hx' : some ((roomHistoryAdd P c.shared.rooms e.malloc room u content ts).1,
        { c.shared with rooms := (roomHistoryAdd P c.shared.rooms e.malloc room u content ts).2 }) = some (r, c'.shared) := hx
    rw [hadd] at hx'
    obtain ⟨rfl, hs'⟩ := Prod.mk.inj (Option.some.inj hx')
    have hrooms : c'.shared.rooms = mgr := by rw [← hs']
    have hholds := roomHistoryAdd_holds h hok hadd
    rw [hrooms]
    intro room' h0
    have hthis := hholds room' h0
    by_cases hrc : rc = .ok
    · rw [if_pos hrc] at hthis
      by_cases hr' : room = room'
      · subst hr'
        rw [Function.update_self] at hthis
        show HoldsLog (log room ++ (if room = room ∧ rc = .ok then some _ else none).toList) _
        rw [if_pos ⟨rfl, hrc⟩]
        exact hthis
      · rw [Function.update_of_ne (Ne.symm hr')] at hthis
        show HoldsLog (log room' ++ (if room = room' ∧ rc = .ok then some _ else none).toList) _
        rw [if_neg fun h => hr' h.1]
        simpa using hthis
    · rw [if_neg hrc] at hthis
      show HoldsLog (log room' ++ (if room = room' ∧ rc = .ok then some _ else none).toList) _
      rw [if_neg fun h => hrc h.2]
      simpa using hthis
  | registryAdd => exact same (exec_registryAdd hx).1 fun _ => rfl
  | registryRemove | registrySetRoom | mqPush | mqSignalShutdown =>
    apply same _ fun _ => rfl
    have hs' := congrArg Server.rooms (Prod.mk.inj (Option.some.inj hx)).2
    exact hs'.symm
  | mqPop =>
    apply same _ fun _ => rfl
    simp only [exec] at hx
    split at hx
    · cases hx
    · exact (congrArg Server.rooms (Prod.mk.inj (Option.some.inj hx)).2).symm
  | _ => exact same (exec_sameChat rfl hx).2.1 fun _ => rfl

theorem rooms_hold (hr : Run (System.Step P ok) (System.init db) tr c) : RoomsHold c.shared.rooms.rooms (stored P tr) := by
  induction hr with
  | nil => exact roomManagerInit_holds
  | @snoc c c' tr l hr hs ih =>
    have h := step_rooms (run_staged (T := False) (fun _ _ => False.elim) hr) hs ih
    intro room h0
    rw [stored, filterMap_snoc]
    exact h room h0

end

/-! ## From the line to the event -/

namespace Errand

/-- What is stored or pushed are strings that fit their fields. -/
structure Proper (username room content : Bytes) : Prop where
  username : NameLike username
  room : RoomLike room
  content : TextLike content

def Sound (T : Prop) : Errand → Prop
  | .stored room username content _ => Proper username room content
  | .ready msg => ∃ evt username room content ts, Proper username room content ∧ (T → Stage.Ending evt) ∧
      msg = chatEvent evt username room content ts
  | _ => True

theorem sound_of_open {T : Prop} {q : Errand} (h : q.Open) : q.Sound T := by
  cases q with
  | none | asked => trivial
  | _ => cases h

theorem next_sound {T : Prop} {σ : Stage} {a : Act} {r : a.Ret} (hq : σ.errand.Sound T) (hp : σ.permits T a) (ht : σ.tells T a r) :
    (σ.next a r).errand.Sound T := by
  obtain ⟨p, q⟩ := σ
  cases a with
  | recvLine => exact sound_of_open (Handler.heard_open r)
  | send fd buf n =>
    change Option Nat at r
    show (Errand.sent fd buf n r).Sound T
    unfold Errand.sent
    split
    · split <;> trivial
    · trivial
  | stackEvent =>
    cases q with
    | stored room u content ts => exact ⟨r, u, room, content, ts, hq, ht, rfl⟩
    | _ => exact hq
  | roomHistoryAdd room u content ts => exact ⟨hp.allowed.1, hp.phase.1, hp.phase.2.1⟩
  | roomHistoryFormat =>
    change ChatStatus × Bytes at r
    show (q.quoted p.fd r).Sound T
    unfold Errand.quoted
    split
    · trivial
    · exact hq
  | mqPush =>
    cases q with
    | ready => trivial
    | _ => exact hq
  | _ => exact hq

end Errand

section
variable {P : Platform} {T : Prop} {ok : Env → Prop} {db : AuthDb} {tr : List (Label Tid Act.Ret)} {c : System}

theorem stage_sound (hok : ∀ e, ok e → T → e.Terminated) (hr : Run (System.Step P ok) (System.init db) tr c) (tid : Tid) :
    (stageOf tr tid).errand.Sound T := by
  induction hr with
  | nil => cases tid <;> trivial
  | @snoc c c' tr l hr hs ih =>
    have hc : Staged T tr c := run_staged hok hr
    by_cases htid : l.tid = tid
    · subst htid
      have h := Errand.next_sound ih (hc.step hs).1 (hc.tells hok hs)
      rwa [← stageOf_own] at h
    · rw [stageOf_other htid]
      exact ih

end

/-! ## The order of one sender -/

/-- The texts that the handler has taken up and not pushed yet. -/
def Errand.due : Errand → List Bytes
  | .asked content => [content]
  | .stored _ _ content _ => [content]
  | .ready msg => [cstr msg.content]
  | _ => []

def chatBy (i : Nat) (q : Tid × MqMessage) : Option Bytes :=
  if q.1 = .handler i ∧ q.2.type = .chat then some (cstr q.2.content) else none

theorem cstr_strncpy_ending {dst src : Bytes} {n : Nat} (hd : dst.length = n + 1) (hlast : dst[n]? = some 0) (h0 : 0 ∉ src)
    (hl : src.length ≤ n) : cstr (strncpy dst src n) = src := by
  have hc := cstr_of_nulFree h0
  have h : cstr (strncpy dst src n) = cstr src := cstr_strncpy_of_le (by rwa [hc]) (Or.inr ((cstr_drop_nil_iff hd).mpr hlast))
  rwa [hc] at h

theorem chatEvent_content {evt : MqMessage} (he : Stage.Ending evt) {content : Bytes} (hc : TextLike content) (username room : Bytes)
    (now : Int) : cstr (chatEvent evt username room content now).content = content := by
  have hl := hc.2.2
  simp only [maxMsgLen] at hl
  exact cstr_strncpy_ending (n := 511) evt.content_length he.content hc.1 (by omega)

section
variable {T : Prop} {i : Nat} {σ : Stage} {a : Act} {r : a.Ret}

/-- Texts are pushed in the order in which they are read. -/
theorem step_due (hT : T) (hq : σ.errand.Sound T) (hp : σ.permits T a) (ht : σ.tells T a r) :
    (((pushOf ⟨.handler i, a, r⟩).bind (chatBy i)).toList ++ (σ.next a r).errand.due).Sublist
      (σ.errand.due ++ (askOf i ⟨.handler i, a, r⟩).toList) := by
  obtain ⟨p, q⟩ := σ
  have hperm := hp.errand
  cases a with
  | recvLine fd =>
    change Option Bytes at r
    show ((Errand.heard r).due).Sublist (q.due ++ (askOf i ⟨.handler i, .recvLine fd, r⟩).toList)
    have hask : (askOf i ⟨.handler i, .recvLine fd, r⟩).toList = (Errand.heard r).due := by
      have hopen := Handler.heard_open r
      show (if Tid.handler i = .handler i then match Errand.heard r with | .asked content => some content | _ => none
        else none).toList = _
      rw [if_pos rfl]
      cases hh : Errand.heard r with
      | none | asked => rfl
      | _ => rw [hh] at hopen; cases hopen
    rw [hask]
    exact List.sublist_append_right _ _
  | send fd buf n =>
    change Option Nat at r
    have hnil : (Errand.sent fd buf n r).due = [] := by
      unfold Errand.sent
      split
      · split <;> rfl
      · rfl
    show ((Errand.sent fd buf n r).due).Sublist _
    rw [hnil]
    exact List.nil_sublist _
  | stackEvent =>
    cases q with
    | stored room u content ts =>
      show [cstr (chatEvent r u room content ts).content].Sublist [content]
      rw [chatEvent_content (ht hT) hq.content]
    | _ => exact List.sublist_append_left _ _
  | roomHistoryAdd room u content ts =>
    obtain rfl : q = .asked content := hperm
    exact List.Sublist.refl _
  | roomHistoryFormat =>
    change ChatStatus × Bytes at r
    show ((q.quoted p.fd r).due).Sublist (q.due ++ [])
    unfold Errand.quoted
    split
    · exact List.nil_sublist _
    · exact List.sublist_append_left _ _
  | mqPush msg =>
    change ChatStatus at r
    change if msg.type = .chat then q = .ready msg else q.Open at hperm
    by_cases hchat : msg.type = .chat
    · rw [if_pos hchat] at hperm
      subst hperm
      have hthis : ((pushOf ⟨.handler i, .mqPush msg, r⟩).bind (chatBy i)).toList.Sublist [cstr msg.content] := by
        show ((if r = .ok then some (Tid.handler i, msg) else none).bind (chatBy i)).toList.Sublist _
        split
        · show (if Tid.handler i = .handler i ∧ msg.type = .chat then some (cstr msg.content) else none).toList.Sublist _
          rw [if_pos ⟨rfl, hchat⟩]
          exact List.Sublist.refl _
        · exact List.nil_sublist _
      exact hthis.append (List.Sublist.refl [])
    · rw [if_neg hchat] at hperm
      have hnone : (pushOf ⟨.handler i, .mqPush msg, r⟩).bind (chatBy i) = none := by
        show (if r = .ok then some (Tid.handler i, msg) else none).bind (chatBy i) = _
        split
        · exact if_neg fun h => hchat h.2
        · rfl
      rw [hnone]
      show (q.pushed.due).Sublist (q.due ++ [])
      rw [Errand.pushed_open hperm]
      exact List.sublist_append_left _ _
  | _ => exact List.sublist_append_left _ _

end

theorem asked_other {i : Nat} {l : Label Tid Act.Ret} (h : l.tid ≠ .handler i) : askOf i l = none := by
  obtain ⟨tid, a, r⟩ := l
  cases a with
  | recvLine => exact if_neg h
  | _ => rfl

theorem pushOf_tid {l : Label Tid Act.Ret} {q : Tid × MqMessage} (h : pushOf l = some q) : q.1 = l.tid := by
  obtain ⟨tid, a, r⟩ := l
  cases a with
  | mqPush msg =>
    change ChatStatus at r
    change (if r = .ok then some (tid, msg) else none) = some q at h
    split at h
    · cases h; rfl
    · cases h
  | _ => cases h

theorem chats_asked {P : Platform} {db : AuthDb} {tr : List (Label Tid Act.Ret)} {c : System}
    (hr : Run (System.Step P Env.Terminated) (System.init db) tr c) (i : Nat) :
    ((pushed tr).filterMap (chatBy i) ++ (stageOf tr (.handler i)).errand.due).Sublist (asked i tr) := by
  induction hr with
  | nil => exact List.Sublist.refl []
  | @snoc c c' tr l hr hs ih =>
    have hok : ∀ e, Env.Terminated e → True → e.Terminated := fun _ he _ => he
    have hc : Staged True tr c := run_staged hok hr
    have hpush : (pushed (tr ++ [l])).filterMap (chatBy i) =
        (pushed tr).filterMap (chatBy i) ++ ((pushOf l).bind (chatBy i)).toList := by
      rw [pushed, filterMap_snoc, List.filterMap_append]
      congr 1
      cases pushOf l with
      | none => rfl
      | some q =>
        show List.filterMap (chatBy i) [q] = (chatBy i q).toList
        cases h : chatBy i q <;> simp [h]
    rw [hpush, asked, filterMap_snoc]
    by_cases htid : l.tid = .handler i
    · obtain ⟨tid, a, r⟩ := l
      obtain rfl : tid = .handler i := htid
      have hstep := step_due (i := i) trivial (stage_sound hok hr (.handler i)) (hc.step hs).1 (hc.tells hok hs)
      rw [stageOf_own, List.append_assoc]
      refine ((List.Sublist.refl _).append hstep).trans ?_
      rw [← List.append_assoc]
      exact ih.append (List.Sublist.refl _)
    · have hnone : (pushOf l).bind (chatBy i) = none := by
        cases hq : pushOf l with
        | none => rfl
        | some q => exact if_neg fun h => htid ((pushOf_tid hq).symm.trans h.1)
      rw [hnone, asked_other htid, stageOf_other htid, Option.toList_none, List.append_nil, List.append_nil]
      exact ih

end ChatServer

import ChatServer.ProtocolSound
import ChatServer.Sending

/-!
# What a room history holds and what is sent of it

A run of `room_history_add` calls leaves in each room the last entries added
to it. `room_history_send_to_client` sends them as one line, unless they do
not fit the buffers it builds the line in.
-/

namespace ChatServer

open CStr

/-! ## Joining -/

def joinWith (sep : Bytes) : List Bytes → Bytes
  | [] => []
  | item :: items => item ++ (items.map (sep ++ ·)).flatten

theorem not_mem_joinWith {c : UInt8} {sep : Bytes} (hsep : c ∉ sep) : ∀ {items : List Bytes}, (∀ item ∈ items, c ∉ item) →
    c ∉ joinWith sep items
  | [], _ => List.not_mem_nil
  | item :: items, h => by
    rw [joinWith, List.mem_append, not_or]
    refine ⟨h item (List.mem_cons_self ..), fun hc => ?_⟩
    obtain ⟨piece, hpiece, hc⟩ := List.mem_flatten.mp hc
    obtain ⟨item', hitem', rfl⟩ := List.mem_map.mp hpiece
    rcases List.mem_append.mp hc with hc | hc
    · exact hsep hc
    · exact h item' (List.mem_cons_of_mem _ hitem') hc

theorem joinWith_snoc (sep item : Bytes) {items : List Bytes} (h : items ≠ []) :
    joinWith sep (items ++ [item]) = joinWith sep items ++ (sep ++ item) := by
  obtain ⟨a, items, rfl⟩ := List.exists_cons_of_ne_nil h
  simp [joinWith]

/-- The bytes by which the items grow are those by which the text does. -/
theorem joinWith_grown {α : Type} (sep : Bytes) (f g : α → Bytes) (xs : List α) :
    (joinWith sep (xs.map fun x => f x ++ g x)).Perm (joinWith sep (xs.map f) ++ (xs.map g).flatten) := by
  have hrest : ∀ ys : List α, ((ys.map fun y => f y ++ g y).map (sep ++ ·)).flatten.Perm
      (((ys.map f).map (sep ++ ·)).flatten ++ (ys.map g).flatten) := by
    intro ys
    induction ys with
    | nil => exact List.Perm.refl _
    | cons y ys ih =>
      simp only [List.map_cons, List.flatten_cons, List.append_assoc]
      exact (((ih.append_left (g y)).trans (List.perm_append_comm_assoc ..)).append_left (f y)).append_left sep
  cases xs with
  | nil => exact List.Perm.refl _
  | cons x xs =>
    simp only [List.map_cons, joinWith, List.flatten_cons, List.append_assoc]
    exact (((hrest xs).append_left (g x)).trans (List.perm_append_comm_assoc ..)).append_left (f x)

theorem appendJoined_fits {buflen : Nat} {sep : Bytes} : ∀ {items : List Bytes},
    (joinWith sep items).length < buflen → appendJoined buflen sep items [] true = (.ok, joinWith sep items)
  | [], _ => rfl
  | item :: items, h => by
    have hi : item.length < buflen := by
      rw [joinWith, List.length_append] at h; omega
    have ht : item.take (buflen - 1) = item := List.take_of_length_le (by omega)
    have hn : ¬ item.length ≥ buflen := by omega
    simp only [appendJoined, snprintf, ite_true, List.length_nil, Nat.sub_zero, List.nil_append, ht, hn, ite_false]
    exact (appendJoined_tail buflen sep items item hi).1 h

theorem appendJoined_overflows {buflen : Nat} (hb : 0 < buflen) {sep : Bytes} : ∀ {items : List Bytes},
    buflen ≤ (joinWith sep items).length → (appendJoined buflen sep items [] true).1 = .err
  | [], h => absurd h (by simp [joinWith]; omega)
  | item :: items, h => by
    by_cases hi : item.length < buflen
    · have ht : item.take (buflen - 1) = item := List.take_of_length_le (by omega)
      have hn : ¬ item.length ≥ buflen := by omega
      simp only [appendJoined, snprintf, ite_true, List.length_nil, Nat.sub_zero, List.nil_append, ht, hn, ite_false]
      exact (appendJoined_tail buflen sep items item hi).2 h
    · have hp : item.length ≥ buflen := by omega
      simp only [appendJoined, snprintf, ite_true, List.length_nil, Nat.sub_zero, hp]

theorem appendJoined_text (buflen : Nat) (sep : Bytes) : ∀ (items : List Bytes) {buf : Bytes}, buf.length < buflen →
    (appendJoined buflen sep items buf false).2 = (buf ++ (items.map (sep ++ ·)).flatten).take (buflen - 1)
  | [], buf, hb => by
    rw [List.map_nil, List.flatten_nil, List.append_nil, List.take_of_length_le (by omega)]
    rfl
  | item :: items, buf, hb => by
    rw [List.map_cons, List.flatten_cons, ← List.append_assoc]
    by_cases hfit : (sep ++ item).length < buflen - buf.length
    · have hs : (sep ++ item).take (buflen - buf.length - 1) = sep ++ item := List.take_of_length_le (by omega)
      have hstep : appendJoined buflen sep (item :: items) buf false = appendJoined buflen sep items (buf ++ (sep ++ item)) false := by
        simp only [appendJoined, snprintf, Bool.false_eq_true, if_false, hs]
        rw [if_neg (by omega)]
      rw [hstep]
      exact appendJoined_text buflen sep items (by rw [List.length_append]; omega)
    · have hstop : appendJoined buflen sep (item :: items) buf false = (.err, buf ++ (sep ++ item).take (buflen - buf.length - 1)) := by
        simp only [appendJoined, snprintf, Bool.false_eq_true, if_false]
        rw [if_pos (by omega)]
      have hcut : buflen - buf.length - 1 = buflen - 1 - buf.length := by omega
      have hpast : ((buf ++ (sep ++ item)) ++ (items.map (sep ++ ·)).flatten).take (buflen - 1) = (buf ++ (sep ++ item)).take (buflen - 1) :=
        List.take_append_of_le_length (by rw [List.length_append]; omega)
      have hall : buf.take (buflen - 1) = buf := List.take_of_length_le (by omega)
      have hkept : (buf ++ (sep ++ item)).take (buflen - 1) = buf ++ (sep ++ item).take (buflen - 1 - buf.length) :=
        List.take_append.trans (by rw [hall])
      rw [hstop, hpast, hkept, hcut]

/-- What a buffer takes of a text, and whether that is all of it. -/
def fitted (buflen : Nat) (text : Bytes) : ChatStatus × Bytes :=
  (if text.length < buflen then .ok else .err, text.take (buflen - 1))

theorem fitted_ok_iff {buflen : Nat} {text : Bytes} : (fitted buflen text).1 = .ok ↔ text.length < buflen := by
  unfold fitted
  by_cases h : text.length < buflen
  · rw [if_pos h]
    exact iff_of_true rfl h
  · rw [if_neg h]
    exact iff_of_false nofun h

theorem appendJoined_fitted {buflen : Nat} (hb : 0 < buflen) (sep : Bytes) (items : List Bytes) :
    appendJoined buflen sep items [] true = fitted buflen (joinWith sep items) := by
  refine Prod.ext ?_ ?_
  · by_cases h : (joinWith sep items).length < buflen
    · rw [appendJoined_fits h, fitted, if_pos h]
    · rw [appendJoined_overflows hb (Nat.not_lt.mp h), fitted, if_neg h]
  · cases items with
    | nil => exact List.take_nil.symm
    | cons item items =>
      simp only [appendJoined, snprintf, if_true, List.length_nil, Nat.sub_zero, List.nil_append, joinWith, fitted]
      split
      · rw [List.take_append_of_le_length (by omega)]
      · rw [appendJoined_text _ _ _ (by rw [List.length_take]; omega), List.take_of_length_le (show item.length ≤ buflen - 1 by omega)]

/-! ## Runs of `room_history_add` -/

/-- The arguments of one call, and whether `calloc` would return a block. -/
structure Add where
  mem : Bool
  room : Bytes
  username : Bytes
  content : Bytes
  ts : Int

structure Add.Ok (a : Add) : Prop where
  room_noNul : 0 ∉ a.room
  room_le : a.room.length ≤ maxRoomNameLen - 1
  username_noNul : 0 ∉ a.username
  username_le : a.username.length ≤ maxUsernameLen - 1
  content_noNul : 0 ∉ a.content
  content_pos : 0 < a.content.length
  content_le : a.content.length ≤ maxMsgLen - 1

instance (a : Add) : Decidable a.Ok :=
  decidable_of_iff (0 ∉ a.room ∧ a.room.length ≤ maxRoomNameLen - 1 ∧ 0 ∉ a.username ∧
      a.username.length ≤ maxUsernameLen - 1 ∧ 0 ∉ a.content ∧ 0 < a.content.length ∧ a.content.length ≤ maxMsgLen - 1)
    ⟨fun ⟨h1, h2, h3, h4, h5, h6, h7⟩ => ⟨h1, h2, h3, h4, h5, h6, h7⟩,
      fun h => ⟨h.1, h.2, h.3, h.4, h.5, h.6, h.7⟩⟩

def Add.text (P : Platform) (a : Add) : Bytes := formatEntry a.username (formatTimestamp P.localtimeR a.ts) a.content

def roomHistoryAdds (P : Platform) (mgr : RoomManager) : List Add → List ChatStatus × RoomManager
  | [] => ([], mgr)
  | a :: adds =>
    let (rc, mgr) := roomHistoryAdd P mgr a.mem a.room a.username a.content a.ts
    let (rcs, mgr) := roomHistoryAdds P mgr adds
    (rc :: rcs, mgr)

def HoldsLog (msgs : List Bytes) : Option RoomNode → Prop
  | none => msgs = []
  | some cur => cur.history.Holds HistoryEntry.format msgs

/-- Each room holds the last entries of its log. -/
def RoomsHold (rooms : List RoomNode) (log : Bytes → List Bytes) : Prop :=
  ∀ room, 0 ∉ room → HoldsLog (log room) (rooms.find? fun cur => cur.named room)

theorem named_iff {rn : RoomNode} {room : Bytes} (h0 : 0 ∉ room) : rn.named room = true ↔ cstr rn.name.bytes = room := by
  rw [RoomNode.named, streq_iff, cstr_of_nulFree h0]

theorem newRoom_named {name : Bytes} (h0 : 0 ∉ name) (hl : name.length ≤ maxRoomNameLen - 1) {room : Bytes}
    (hr : 0 ∉ room) : (newRoom name).named room = true ↔ name = room := by
  rw [named_iff hr]
  exact Eq.congr_left (Terminated.cstr_copy _ h0 hl)

theorem find?_modify_first {α : Type} {p q : α → Bool} {f : α → α} (hp : ∀ x, p (f x) = p x) (hq : ∀ x, q (f x) = q x) :
    ∀ {l : List α} {i : Nat}, l.findIdx? p = some i →
      ((l.modify i f).find? p = (l.find? p).map f) ∧
      ((∀ x, p x = true → q x = false) → (l.modify i f).find? q = l.find? q)
  | [], i, h => by cases h
  | x :: l, i, h => by
    rw [List.findIdx?_cons] at h
    by_cases hx : p x = true
    · rw [if_pos hx] at h
      cases h
      refine ⟨?_, fun hd => ?_⟩
      · simp [List.modify_zero_cons, hp, hx]
      · simp [List.modify_zero_cons, hq, hd x hx]
    · rw [if_neg hx, Option.map_eq_some_iff] at h
      obtain ⟨j, hj, rfl⟩ := h
      obtain ⟨h1, h2⟩ := find?_modify_first hp hq hj
      refine ⟨?_, fun hd => ?_⟩
      · rw [List.modify_succ_cons, List.find?_cons_of_neg hx, List.find?_cons_of_neg hx, h1]
      · rw [List.modify_succ_cons, List.find?_cons, List.find?_cons, h2 hd]

theorem RoomsHold.newRoom {rooms : List RoomNode} {log : Bytes → List Bytes} (h : RoomsHold rooms log) {name : Bytes}
    (h0 : 0 ∉ name) (hl : name.length ≤ maxRoomNameLen - 1)
    (hnone : (rooms.find? fun cur => cur.named name) = none) : RoomsHold (newRoom name :: rooms) log := by
  intro room hr
  rw [List.find?_cons]
  cases hn : (ChatServer.newRoom name).named room with
  | true =>
    obtain rfl := (newRoom_named h0 hl hr).mp hn
    have hlog := h name hr
    rw [hnone] at hlog
    simp only
    rw [show log name = [] from hlog]
    exact RingBuffer.holds_replicate _ _ _
  | false => exact h room hr

theorem roomManagerInit_holds : RoomsHold roomManagerInit.rooms fun _ => [] :=
  RoomsHold.newRoom (show RoomsHold [] fun _ => [] from fun _ _ => rfl) (by decide) (by decide) rfl

section
variable {P : Platform} {mgr mgr' : RoomManager} {log : Bytes → List Bytes}

theorem roomFindOrCreate_holds (hmgr : RoomsHold mgr.rooms log) {mem : Bool} {name : Bytes} (h0 : 0 ∉ name)
    (hl : name.length ≤ maxRoomNameLen - 1) {i : Nat} (h : roomFindOrCreate mgr mem name = some (i, mgr')) :
    RoomsHold mgr'.rooms log ∧ (mgr'.rooms.findIdx? fun cur => cur.named name) = some i := by
  unfold roomFindOrCreate at h
  split at h
  · rename_i hi
    cases h
    exact ⟨hmgr, hi⟩
  · rename_i hnone
    split at h
    · cases h
    split at h
    · cases h
    cases h
    refine ⟨hmgr.newRoom h0 hl ?_, ?_⟩
    · rw [List.find?_eq_none]; simpa [List.findIdx?_eq_none_iff] using hnone
    · rw [List.findIdx?_cons, (newRoom_named h0 hl h0).mpr rfl]; rfl

theorem fillEntry_format {a : Add} (ha : a.Ok) (entry : HistoryEntry) :
    (fillEntry P a.username a.content a.ts entry).format = a.text P := by
  rw [HistoryEntry.format, fillEntry, Terminated.cstr_copy _ ha.username_noNul ha.username_le,
    Terminated.cstr_copy _ ha.content_noNul ha.content_le]
  rfl

/-- One call appends to the log of its room, or fails and changes nothing. -/
theorem roomHistoryAdd_holds (hmgr : RoomsHold mgr.rooms log) {a : Add} (ha : a.Ok) {rc : ChatStatus}
    (h : roomHistoryAdd P mgr a.mem a.room a.username a.content a.ts = (rc, mgr')) :
    RoomsHold mgr'.rooms (if rc = .ok then Function.update log a.room (log a.room ++ [a.text P]) else log) := by
  unfold roomHistoryAdd at h
  split at h
  · cases h
    exact hmgr
  · rename_i i mgr₁ hfind
    cases h
    obtain ⟨h₁, hi⟩ := roomFindOrCreate_holds hmgr ha.room_noNul ha.room_le hfind
    rw [if_pos rfl]
    intro room hr
    have hmod := find?_modify_first (p := fun cur : RoomNode => cur.named a.room) (q := fun cur => cur.named room)
      (f := fun rn => { rn with history := rn.history.push (fillEntry P a.username a.content a.ts) })
      (fun _ => rfl) (fun _ => rfl) hi
    by_cases hroom : room = a.room
    · subst hroom
      have hlog := h₁ a.room ha.room_noNul
      simp only [hmod.1, Function.update_self]
      cases hcur : mgr₁.rooms.find? fun cur => cur.named a.room with
      | none =>
        rw [List.find?_eq_none] at hcur
        obtain ⟨hlt, hx, -⟩ := List.findIdx?_eq_some_iff_getElem.mp hi
        exact absurd hx (hcur _ (List.getElem_mem hlt))
      | some cur =>
        rw [hcur] at hlog
        exact hlog.push _ (fillEntry_format ha _)
    · have hdisj : ∀ x : RoomNode, x.named a.room = true → x.named room = false := by
        intro x hx
        rw [named_iff ha.room_noNul] at hx
        rw [Bool.eq_false_iff, ne_eq, named_iff hr, hx]
        exact fun e => hroom e.symm
      rw [hmod.2 hdisj, Function.update_of_ne hroom]
      exact h₁ room hr

/-- **A run of calls**: a room all of whose calls succeeded holds the last
entries added to it. -/
theorem roomHistoryAdds_holds : ∀ (adds : List Add) {mgr : RoomManager} {log : Bytes → List Bytes}, RoomsHold mgr.rooms log →
    (∀ a ∈ adds, a.Ok) → ∃ log', RoomsHold (roomHistoryAdds P mgr adds).2.rooms log' ∧
      ∀ room, (∀ p ∈ adds.zip (roomHistoryAdds P mgr adds).1, p.1.room = room → p.2 = .ok) →
        log' room = log room ++ (adds.filter fun a => a.room = room).map (Add.text P)
  | [], mgr, log, hmgr, _ => ⟨log, hmgr, fun room _ => by simp⟩
  | a :: adds, mgr, log, hmgr, hok => by
    rcases hadd : roomHistoryAdd P mgr a.mem a.room a.username a.content a.ts with ⟨rc, mgr₁⟩
    have h₁ := roomHistoryAdd_holds hmgr (hok a (List.mem_cons_self ..)) hadd
    obtain ⟨log', hlog', hrun⟩ := roomHistoryAdds_holds adds h₁ fun b hb => hok b (List.mem_cons_of_mem _ hb)
    simp only [roomHistoryAdds, hadd]
    refine ⟨log', hlog', fun room hall => ?_⟩
    rw [hrun room fun p hp => hall p (List.mem_cons_of_mem _ hp)]
    by_cases hroom : a.room = room
    · have hrc : rc = .ok := hall (a, rc) (List.mem_cons_self ..) hroom
      subst hroom
      rw [if_pos hrc, Function.update_self, List.filter_cons_of_pos (by simp), List.map_cons, List.append_assoc]
      rfl
    · have hlog : (if rc = .ok then Function.update log a.room (log a.room ++ [a.text P]) else log) room = log room := by
        split
        · exact Function.update_of_ne (Ne.symm hroom) _ _
        · rfl
      rw [hlog, List.filter_cons_of_neg (by simpa using hroom)]

/-- The messages of a room, oldest first. -/
def historyEntries (mgr : RoomManager) (room : Bytes) : List Bytes :=
  match mgr.rooms.find? fun cur => cur.named room with
  | none => []
  | some cur => cur.history.toList.map HistoryEntry.format

theorem historyEntries_holds (mgr : RoomManager) : RoomsHold mgr.rooms (historyEntries mgr) := by
  intro room _
  unfold historyEntries
  cases mgr.rooms.find? fun cur => cur.named room with
  | none => exact rfl
  | some cur =>
    have hl : (cur.history.toList.map HistoryEntry.format).length ≤ maxRoomHistory := by
      rw [List.length_map, RingBuffer.toList_length]
      exact cur.history.count_le
    show _ = lastN maxRoomHistory _
    rw [lastN, Nat.sub_eq_zero_of_le hl, List.drop_zero]

theorem historyEntries_of_holds {mgr : RoomManager} {log : Bytes → List Bytes} (h : RoomsHold mgr.rooms log) {room : Bytes}
    (h0 : 0 ∉ room) : historyEntries mgr room = lastN maxRoomHistory (log room) := by
  have hlog := h room h0
  unfold historyEntries
  cases hf : mgr.rooms.find? fun cur => cur.named room with
  | none =>
    rw [hf] at hlog
    rw [show log room = [] from hlog]
    rfl
  | some cur =>
    rw [hf] at hlog
    exact hlog

/-! ## Sending the history -/

theorem roomHistoryFormat_eq (hmgr : RoomsHold mgr.rooms log) {room : Bytes} (hr : 0 ∉ room) {buflen : Nat} (hb : 0 < buflen) :
    roomHistoryFormat mgr room buflen = appendJoined buflen (lit "||") (lastN maxRoomHistory (log room)) [] true := by
  have hlog := hmgr room hr
  unfold roomHistoryFormat
  rw [if_neg (Nat.ne_of_gt hb)]
  split
  · rename_i hnone
    rw [hnone] at hlog
    rw [show log room = [] from hlog]; rfl
  · rename_i cur hcur
    rw [hcur] at hlog
    rw [show cur.history.toList.map HistoryEntry.format = lastN maxRoomHistory (log room) from hlog]

end

/-- One complete `HISTORY` line with the last messages, oldest first. -/
def HistorySent (fd : Int) (msgs : List Bytes) (rc : ChatStatus) (tr : List ((a : Act) × a.Ret)) : Prop :=
  rc = .ok ∧ delivered tr fd = lit "HISTORY " ++ joinWith (lit "||") (lastN maxRoomHistory msgs) ++ lit "\n"

theorem roomHistorySend_iff {works : Int → Bool} {mgr : RoomManager} {log : Bytes → List Bytes}
    (hmgr : RoomsHold mgr.rooms log) {room : Bytes} (hr : 0 ∉ room) {fd : Int} (hw : works fd = true)
    {tr : List ((a : Act) × a.Ret)} {rc : ChatStatus}
    (h : Prog.Exec (Wire works mgr) (roomHistorySendToClient room fd cmdSendResponse) () tr rc ()) :
    HistorySent fd (log room) rc tr ↔
      (joinWith (lit "||") (lastN maxRoomHistory (log room))).length + 9 < maxLineLen := by
  obtain ⟨⟨rc₁, text⟩, ⟨⟩, tr₁, rfl, hform, h⟩ := h
  replace hform : (rc₁, text) = _ := hform
  replace h : Prog.Exec (Wire works mgr) (if rc₁ ≠ .ok then pure .err
      else if (protocolBuildServerHistory maxLineLen text).1 ≠ .ok then pure .err
      else cmdSendResponse fd (protocolBuildServerHistory maxLineLen text).2) () tr₁ rc () := h
  rw [roomHistoryFormat_eq hmgr hr (by decide)] at hform
  unfold HistorySent
  have hline : (lit "HISTORY " ++ text ++ lit "\n").length = text.length + 9 := by
    simp only [List.length_append, show (lit "HISTORY ").length = 8 by decide, show (lit "\n").length = 1 by decide]
    omega
  by_cases hpay : (joinWith (lit "||") (lastN maxRoomHistory (log room))).length < maxLineLen
  · rw [appendJoined_fits hpay] at hform
    generalize joinWith (lit "||") (lastN maxRoomHistory (log room)) = payload at *
    obtain ⟨rfl, rfl⟩ := Prod.mk.inj hform
    rw [if_neg (by decide)] at h
    by_cases hlen : text.length + 9 < maxLineLen
    · rw [protocolBuildServerHistory, buildLine_fits (by omega), if_neg (not_not_intro rfl)] at h
      obtain ⟨rfl, hd, -⟩ := sendAll_works hw h
      exact iff_of_true ⟨rfl, hd⟩ hlen
    · rw [protocolBuildServerHistory, buildLine_overflows (by omega), if_pos nofun] at h
      obtain ⟨rfl, rfl, -⟩ := h
      exact iff_of_false (fun hs => nomatch hs.1) hlen
  · have herr : rc₁ = .err :=
      (congrArg Prod.fst hform).trans (appendJoined_overflows (by decide) (Nat.not_lt.mp hpay))
    rw [herr, if_pos (by decide)] at h
    obtain ⟨rfl, rfl, -⟩ := h
    exact iff_of_false (fun hs => nomatch hs.1) (by omega)

theorem roomHistorySend_err {works : Int → Bool} {mgr : RoomManager} {room : Bytes}
    (hf : (roomHistoryFormat mgr room maxLineLen).1 ≠ .ok) (fd : Int) :
    Prog.Exec (Wire works mgr) (roomHistorySendToClient room fd cmdSendResponse) ()
      [⟨.roomHistoryFormat room maxLineLen, roomHistoryFormat mgr room maxLineLen⟩] .err () := by
  refine ⟨roomHistoryFormat mgr room maxLineLen, (), [], rfl, rfl, ?_⟩
  show Prog.Exec _ (if (roomHistoryFormat mgr room maxLineLen).1 ≠ .ok then pure ChatStatus.err else _) () [] _ ()
  rw [if_pos hf]
  exact ⟨rfl, rfl, rfl⟩

/-- **The history is available** exactly when its last messages fit one line. -/
theorem history_sent_iff {P : Platform} {adds : List Add} (hadds : ∀ a ∈ adds, a.Ok) {room : Bytes} (hr : 0 ∉ room)
    (hok : ∀ p ∈ adds.zip (roomHistoryAdds P roomManagerInit adds).1, p.1.room = room → p.2 = .ok)
    {works : Int → Bool} {fd : Int} (hw : works fd = true) {tr : List ((a : Act) × a.Ret)} {rc : ChatStatus}
    (h : Prog.Exec (Wire works (roomHistoryAdds P roomManagerInit adds).2)
      (roomHistorySendToClient room fd cmdSendResponse) () tr rc ()) :
    HistorySent fd ((adds.filter fun a => a.room = room).map (Add.text P)) rc tr ↔
      (joinWith (lit "||") (lastN maxRoomHistory ((adds.filter fun a => a.room = room).map (Add.text P)))).length + 9 <
        maxLineLen := by
  obtain ⟨log, hlog, hrun⟩ := roomHistoryAdds_holds (P := P) adds roomManagerInit_holds hadds
  have hroom := hrun room hok
  rw [List.nil_append] at hroom
  rw [← hroom]
  exact roomHistorySend_iff hlog hr hw h

def noZone : Platform := { sha256 := id, localtimeR := fun _ => none }

def addBob (content : Bytes) : Add := { mem := true, room := defaultRoom, username := lit "bob", content := content, ts := 0 }

theorem history_sent_short :
    HistorySent 5 (([addBob (lit "hi"), addBob (lit "you")].filter fun a => a.room = defaultRoom).map (Add.text noZone))
      .ok [⟨.roomHistoryFormat defaultRoom maxLineLen, (.ok, lit "bob|unknown|hi||bob|unknown|you")⟩,
        ⟨.send 5 (lit "HISTORY bob|unknown|hi||bob|unknown|you\n") 0, some 40⟩] := by
  have hform : (ChatStatus.ok, lit "bob|unknown|hi||bob|unknown|you") = roomHistoryFormat
      (roomHistoryAdds noZone roomManagerInit [addBob (lit "hi"), addBob (lit "you")]).2 defaultRoom maxLineLen := by
    decide +kernel
  have hexec : Prog.Exec (Wire (fun _ => true)
      (roomHistoryAdds noZone roomManagerInit [addBob (lit "hi"), addBob (lit "you")]).2)
      (roomHistorySendToClient defaultRoom 5 cmdSendResponse) ()
      [⟨.roomHistoryFormat defaultRoom maxLineLen, (.ok, lit "bob|unknown|hi||bob|unknown|you")⟩,
        ⟨.send 5 (lit "HISTORY bob|unknown|hi||bob|unknown|you\n") 0, some 40⟩] .ok () :=
    ⟨(.ok, lit "bob|unknown|hi||bob|unknown|you"), (), _, rfl, hform, some 40, (), [], rfl,
      ⟨40, rfl, by decide, by decide⟩, rfl, rfl, rfl⟩
  exact (history_sent_iff (by decide +kernel) (by decide) (by decide +kernel) rfl hexec).mpr (by decide +kernel)

/-- Five messages of 500 bytes: `HISTORY` is not available. -/
theorem history_not_sent :
    let adds := List.replicate 5 (addBob (List.replicate 500 97))
    let mgr := (roomHistoryAdds noZone roomManagerInit adds).2
    (∀ a ∈ adds, a.Ok) ∧ (∀ p ∈ adds.zip (roomHistoryAdds noZone roomManagerInit adds).1, p.2 = .ok) ∧
      Prog.Exec (Wire (fun _ => true) mgr) (roomHistorySendToClient defaultRoom 5 cmdSendResponse) ()
        [⟨.roomHistoryFormat defaultRoom maxLineLen, roomHistoryFormat mgr defaultRoom maxLineLen⟩] .err () ∧
      ¬ HistorySent 5 ((adds.filter fun a => a.room = defaultRoom).map (Add.text noZone)) .err
        [⟨.roomHistoryFormat defaultRoom maxLineLen, roomHistoryFormat mgr defaultRoom maxLineLen⟩] := by
  intro adds mgr
  have herr : (roomHistoryFormat mgr defaultRoom maxLineLen).1 = .err := by decide +kernel
  exact ⟨by decide +kernel, by decide +kernel, roomHistorySend_err (by rw [herr]; nofun) 5, fun h => nomatch h.1⟩

end ChatServer

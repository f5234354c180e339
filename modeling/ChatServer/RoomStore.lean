import ChatServer.Forgery

/-!
# The rooms as bounded logs

A run of `room_history_add` calls, each with arguments that a room's fields
hold. The list of rooms is a map from names to logs: a room's ring holds the
last entries of the calls for it that succeeded, and a call fails only for a new
room when the list is full.
-/

namespace ChatServer

open CStr

structure Add.Fits (a : Add) : Prop extends a.Called where
  username_noNul : 0 ∉ a.username
  username_le : a.username.length ≤ maxUsernameLen - 1
  content_noNul : 0 ∉ a.content
  content_le : a.content.length ≤ maxMsgLen - 1

/-- The calls of a run that added an entry to the room, oldest first. -/
def added (P : Platform) (mgr : RoomManager) (room : Bytes) (adds : List Add) : List Add :=
  ((adds.zip (roomHistoryAdds P mgr adds).1).filter fun p => p.1.room = room ∧ p.2 = .ok).map Prod.fst

/-- The rooms are the logs `log`, each cut to its last entries. -/
structure RoomManager.Stores (P : Platform) (mgr : RoomManager) (log : Bytes → List Add) : Prop where
  count_eq : mgr.roomCount = mgr.rooms.length
  count_le : mgr.roomCount ≤ maxRooms
  nodup : mgr.names.Nodup
  lobby : defaultRoom ∈ mgr.names
  holds : ∀ rn ∈ mgr.rooms, rn.history.Holds HistoryEntry.record ((log (cstr rn.name.bytes)).map (Add.record P))
  absent : ∀ room, room ∉ mgr.names → log room = []

/-- All that the store needs of a call; `calloc` may fail, and the name of the room may be empty. -/
structure Add.Kept (a : Add) : Prop where
  room_noNul : 0 ∉ a.room
  room_le : a.room.length ≤ maxRoomNameLen - 1
  username_noNul : 0 ∉ a.username
  username_le : a.username.length ≤ maxUsernameLen - 1
  content_noNul : 0 ∉ a.content
  content_le : a.content.length ≤ maxMsgLen - 1

theorem Add.Fits.kept {a : Add} (ha : a.Fits) : a.Kept :=
  ⟨ha.room.noNul, ha.room.le, ha.username_noNul, ha.username_le, ha.content_noNul, ha.content_le⟩

theorem Add.Kept.filled {P : Platform} {a : Add} (ha : a.Kept) (entry : HistoryEntry) :
    (fillEntry P a.username a.content a.ts entry).record = a.record P :=
  fillEntry_record ha.username_noNul ha.username_le ha.content_noNul ha.content_le _ _

section
variable {P : Platform} {mgr : RoomManager} {a : Add} {log : Bytes → List Add}

/-! ## One call -/

theorem roomHistoryAdd_rc (h0 : 0 ∉ a.room) : (roomHistoryAdd P mgr a.mem a.room a.username a.content a.ts).1 =
    if a.room ∉ mgr.names ∧ (maxRooms ≤ mgr.roomCount ∨ a.mem = false) then .errFull else .ok := by
  have hnew : a.room ∉ mgr.names ↔ (mgr.rooms.findIdx? fun cur => cur.named a.room) = none := by
    rw [← room?_eq_none h0, RoomManager.room?, List.find?_eq_none, List.findIdx?_eq_none_iff]
    simp only [Bool.not_eq_true]
  unfold roomHistoryAdd roomFindOrCreate
  cases hi : mgr.rooms.findIdx? fun cur => cur.named a.room with
  | some i =>
    rw [hi] at hnew
    exact (if_neg fun h => Option.some_ne_none i (hnew.mp h.1)).symm
  | none =>
    rw [hi] at hnew
    by_cases hfull : mgr.roomCount ≥ maxRooms
    · simp only [if_pos hfull]
      exact (if_pos ⟨hnew.mpr rfl, Or.inl hfull⟩).symm
    · simp only [if_neg hfull]
      cases hmem : a.mem with
      | false => exact (if_pos ⟨hnew.mpr rfl, Or.inr rfl⟩).symm
      | true => exact (if_neg fun h => h.2.elim hfull Bool.noConfusion).symm

theorem roomHistoryAdd_status (ha : a.Called) : (roomHistoryAdd P mgr a.mem a.room a.username a.content a.ts).1 =
    if a.room ∉ mgr.names ∧ maxRooms ≤ mgr.roomCount then .errFull else .ok := by
  rw [roomHistoryAdd_rc ha.room.noNul, ha.mem]
  simp only [Bool.true_eq_false, or_false]

/-- A failed call changes nothing. -/
theorem roomHistoryAdd_failed (h : (roomHistoryAdd P mgr a.mem a.room a.username a.content a.ts).1 ≠ .ok) :
    (roomHistoryAdd P mgr a.mem a.room a.username a.content a.ts).2 = mgr := by
  unfold roomHistoryAdd at h ⊢
  split
  · rfl
  · rename_i hfind
    rw [hfind] at h
    exact absurd rfl h

/-- An entry written into the room at `i`. -/
theorem RoomManager.Stores.push (h : mgr.Stores P log) (ha : a.Kept) {i : Nat}
    (hi : (mgr.rooms.findIdx? fun cur => cur.named a.room) = some i) :
    RoomManager.Stores P { mgr with rooms := mgr.rooms.modify i (a.apply P ·) }
      (Function.update log a.room (log a.room ++ [a])) := by
  obtain ⟨hlt, hnamed, -⟩ := List.findIdx?_eq_some_iff_getElem.mp hi
  have hname : cstr (mgr.rooms[i]).name.bytes = a.room := (named_iff ha.room_noNul).mp hnamed
  have hnames : RoomManager.names { mgr with rooms := mgr.rooms.modify i (a.apply P ·) } = mgr.names :=
    names_modify (a.apply P ·) (fun _ => rfl) i
  refine ⟨?_, h.count_le, hnames ▸ h.nodup, hnames ▸ h.lobby, fun rn hrn => ?_, fun room hroom => ?_⟩
  · rw [List.length_modify]
    exact h.count_eq
  · obtain ⟨j, hj⟩ := List.mem_iff_getElem?.mp hrn
    by_cases hij : i = j
    · -- the room written to
      subst hij
      rw [List.getElem?_modify_eq, List.getElem?_eq_getElem hlt] at hj
      obtain rfl := Option.some.inj hj
      have hold := h.holds _ (List.getElem_mem hlt)
      have hown : cstr (a.apply P mgr.rooms[i]).name.bytes = a.room := hname
      rw [hname] at hold
      rw [hown, Function.update_self, List.map_append, List.map_singleton]
      exact hold.push _ (ha.filled _)
    · rw [List.getElem?_modify_ne _ _ hij] at hj
      have hrn' : rn ∈ mgr.rooms := List.mem_of_getElem? hj
      have hother : cstr rn.name.bytes ≠ a.room := by
        intro he
        obtain ⟨hjlt, hjeq⟩ := List.getElem?_eq_some_iff.mp hj
        have hi' : i < mgr.names.length := by rwa [RoomManager.names, List.length_map]
        have hj' : j < mgr.names.length := by rwa [RoomManager.names, List.length_map]
        have hsame : mgr.names[i] = mgr.names[j] := by
          simp only [RoomManager.names, List.getElem_map, hname, hjeq, he]
        exact hij (h.nodup.getElem_inj_iff.mp hsame)
      rw [Function.update_of_ne hother]
      exact h.holds rn hrn'
  · rw [hnames] at hroom
    have hne : room ≠ a.room := by
      rintro rfl
      exact hroom (List.mem_map.mpr ⟨_, List.getElem_mem hlt, hname⟩)
    rw [Function.update_of_ne hne]
    exact h.absent room hroom

/-- A room made for its first entry. -/
theorem RoomManager.Stores.make (h : mgr.Stores P log) (ha : a.Kept) (hnew : a.room ∉ mgr.names)
    (hlt : mgr.roomCount < maxRooms) :
    RoomManager.Stores P { rooms := a.apply P (newRoom a.room) :: mgr.rooms, roomCount := mgr.roomCount + 1 }
      (Function.update log a.room (log a.room ++ [a])) := by
  have hname : cstr (a.apply P (newRoom a.room)).name.bytes = a.room := Terminated.cstr_copy _ ha.room_noNul ha.room_le
  have hnames : RoomManager.names { rooms := a.apply P (newRoom a.room) :: mgr.rooms, roomCount := mgr.roomCount + 1 } =
      a.room :: mgr.names := by
    rw [RoomManager.names, List.map_cons, hname]
    rfl
  refine ⟨?_, hlt, ?_, ?_, fun rn hrn => ?_, fun room hroom => ?_⟩
  · rw [List.length_cons, h.count_eq]
  · rw [hnames]
    exact List.nodup_cons.mpr ⟨hnew, h.nodup⟩
  · rw [hnames]
    exact List.mem_cons_of_mem _ h.lobby
  · rcases List.mem_cons.mp hrn with rfl | hrn
    · rw [hname, Function.update_self, h.absent a.room hnew]
      exact (newRoom_holds a.room).push _ (ha.filled _)
    · have hother : cstr rn.name.bytes ≠ a.room := fun he => hnew (List.mem_map.mpr ⟨rn, hrn, he⟩)
      rw [Function.update_of_ne hother]
      exact h.holds rn hrn
  · rw [hnames, List.mem_cons, not_or] at hroom
    rw [Function.update_of_ne hroom.1]
    exact h.absent room hroom.2

theorem RoomManager.Stores.add (h : mgr.Stores P log) (ha : a.Kept) :
    RoomManager.Stores P (roomHistoryAdd P mgr a.mem a.room a.username a.content a.ts).2
      (if (roomHistoryAdd P mgr a.mem a.room a.username a.content a.ts).1 = .ok then
        Function.update log a.room (log a.room ++ [a]) else log) := by
  have hrc := @roomHistoryAdd_rc P mgr a ha.room_noNul
  by_cases hfail : a.room ∉ mgr.names ∧ (maxRooms ≤ mgr.roomCount ∨ a.mem = false)
  · -- no room, and no entry
    rw [if_pos hfail] at hrc
    have hne : (roomHistoryAdd P mgr a.mem a.room a.username a.content a.ts).1 ≠ .ok := by
      rw [hrc]
      exact ChatStatus.noConfusion
    rw [if_neg hne, roomHistoryAdd_failed hne]
    exact h
  · rw [if_neg hfail] at hrc
    rw [if_pos hrc]
    rcases roomHistoryAdd_cases P mgr a with ⟨i, hi, he⟩ | ⟨hnone, hfull, -⟩ | ⟨hnone, hlt, he⟩
    · rw [he]
      exact h.push ha hi
    · exact absurd ⟨(room?_eq_none ha.room_noNul).mp hnone, hfull⟩ hfail
    · rw [he]
      exact h.make ha ((room?_eq_none ha.room_noNul).mp hnone) hlt

theorem RoomManager.Stores.add_ok (h : mgr.Stores P log) (ha : a.Kept) {mgr' : RoomManager}
    (hcall : roomHistoryAdd P mgr a.mem a.room a.username a.content a.ts = (.ok, mgr')) :
    mgr'.Stores P (Function.update log a.room (log a.room ++ [a])) := by
  have hadd := h.add ha
  rw [hcall, if_pos rfl] at hadd
  exact hadd

end

/-! ## A run of calls -/

section
variable {P : Platform}

theorem roomManagerInit_stores : RoomManager.Stores P roomManagerInit fun _ => [] where
  count_eq := rfl
  count_le := by decide
  nodup := List.nodup_singleton _
  lobby := List.mem_singleton.mpr (by decide)
  holds rn hrn := by
    rw [List.mem_singleton.mp hrn]
    exact newRoom_holds defaultRoom
  absent _ _ := rfl

theorem added_cons (mgr : RoomManager) (room : Bytes) (a : Add) (adds : List Add) :
    let r := roomHistoryAdd P mgr a.mem a.room a.username a.content a.ts
    added P mgr room (a :: adds) = (if a.room = room ∧ r.1 = .ok then [a] else []) ++ added P r.2 room adds := by
  intro r
  have hrun : (roomHistoryAdds P mgr (a :: adds)).1 = r.1 :: (roomHistoryAdds P r.2 adds).1 := rfl
  rw [added, hrun, List.zip_cons_cons, List.filter_cons]
  by_cases h : a.room = room ∧ r.1 = .ok
  · rw [if_pos (decide_eq_true h), if_pos h]
    rfl
  · rw [if_neg (by simpa using h), if_neg h]
    rfl

theorem log_after (log : Bytes → List Add) (a : Add) (room : Bytes) (rc : ChatStatus) :
    (if rc = .ok then Function.update log a.room (log a.room ++ [a]) else log) room =
      log room ++ if a.room = room ∧ rc = .ok then [a] else [] := by
  by_cases hok : rc = .ok
  · rw [if_pos hok]
    by_cases hroom : a.room = room
    · rw [if_pos ⟨hroom, hok⟩, hroom, Function.update_self]
    · rw [if_neg fun h => hroom h.1, List.append_nil, Function.update_of_ne (Ne.symm hroom)]
  · rw [if_neg hok, if_neg fun h => hok h.2, List.append_nil]

theorem RoomManager.Stores.adds : ∀ (adds : List Add) {mgr : RoomManager} {log : Bytes → List Add}, mgr.Stores P log →
    (∀ a ∈ adds, a.Kept) → (roomHistoryAdds P mgr adds).2.Stores P fun room => log room ++ added P mgr room adds
  | [], mgr, log, h, _ => by
    have hlog : (fun room => log room ++ added P mgr room []) = log := funext fun room => List.append_nil _
    rwa [hlog]
  | a :: adds, mgr, log, h, hadds => by
    have hstep := h.add (hadds a (List.mem_cons_self ..))
    have hrun := RoomManager.Stores.adds adds hstep fun b hb => hadds b (List.mem_cons_of_mem _ hb)
    have hlog : (fun room => log room ++ added P mgr room (a :: adds)) = fun room =>
        (if (roomHistoryAdd P mgr a.mem a.room a.username a.content a.ts).1 = .ok then
          Function.update log a.room (log a.room ++ [a]) else log) room ++
          added P (roomHistoryAdd P mgr a.mem a.room a.username a.content a.ts).2 room adds := by
      funext room
      rw [added_cons, ← List.append_assoc]
      congr 1
      exact (log_after _ _ _ _).symm
    rw [hlog]
    exact hrun

theorem RoomManager.Stores.records {mgr : RoomManager} {log : Bytes → List Add} (h : mgr.Stores P log) {room : Bytes} (h0 : 0 ∉ room) :
    records mgr room = (lastN maxRoomHistory (log room)).map (Add.record P) := by
  unfold ChatServer.records
  cases hroom : mgr.room? room with
  | none =>
    rw [h.absent room ((room?_eq_none h0).mp hroom)]
    rfl
  | some rn =>
    have hnamed := List.find?_some (p := fun cur : RoomNode => cur.named room) hroom
    have hname : cstr rn.name.bytes = room := (named_iff h0).mp hnamed
    have hold := h.holds rn (List.mem_of_find?_eq_some hroom)
    rw [hname] at hold
    rw [lastN_map]
    exact hold

theorem RoomManager.Stores.format {mgr : RoomManager} {log : Bytes → List Add} (h : mgr.Stores P log) {room : Bytes} (h0 : 0 ∉ room)
    (buflen : Nat) : roomHistoryFormat mgr room buflen =
      fitted buflen (joinWith (lit "||") ((lastN maxRoomHistory (log room)).map (Add.text P))) := by
  rcases Nat.eq_zero_or_pos buflen with rfl | hb
  · rw [roomHistoryFormat, if_pos rfl, fitted, if_neg (Nat.not_lt_zero _)]
    rfl
  · rw [roomHistoryFormat_records mgr room hb, appendJoined_fitted hb, h.records h0, List.map_map]
    rfl

/-- The slots in the order of the ring. -/
theorem RoomManager.Stores.slots {mgr : RoomManager} {log : Bytes → List Add} (h : mgr.Stores P log) {rn : RoomNode}
    (hrn : rn ∈ mgr.rooms) : rn.history.count = min (log (cstr rn.name.bytes)).length maxRoomHistory ∧
      ∀ i < rn.history.count, (rn.history.slots[(rn.history.start + i) % maxRoomHistory]?).map HistoryEntry.record =
        ((lastN maxRoomHistory (log (cstr rn.name.bytes))).map (Add.record P))[i]? := by
  have hold : rn.history.toList.map HistoryEntry.record = _ := h.holds rn hrn
  refine ⟨?_, fun i hi => ?_⟩
  · have hlen := congrArg List.length hold
    rwa [List.length_map, RingBuffer.toList_length, lastN_length, List.length_map] at hlen
  · rw [← RingBuffer.getElem?_toList _ hi, ← List.getElem?_map, hold, lastN_map]

/-- **The rooms are exact** after every run: distinct names, a true count, rings
within their bounds; a call fails exactly for a new room when the list is full, and
then changes nothing; the slots hold the last entries added, oldest first; and a
history is the beginning of their joined text, reported whole when it fits. -/
theorem rooms_exact {adds : List Add} (hadds : ∀ a ∈ adds, a.Fits) :
    let mgr := (roomHistoryAdds P roomManagerInit adds).2
    (mgr.names.Nodup ∧ mgr.roomCount = mgr.rooms.length ∧ mgr.roomCount ≤ maxRooms ∧ defaultRoom ∈ mgr.names) ∧
    (∀ rn ∈ mgr.rooms, rn.history.count ≤ maxRoomHistory ∧ rn.history.start < maxRoomHistory ∧
      (rn.history.count < maxRoomHistory → rn.history.start = 0)) ∧
    (∀ a : Add, a.Fits →
      let r := roomHistoryAdd P mgr a.mem a.room a.username a.content a.ts
      (r.1 = .ok ∨ r.1 = .errFull) ∧ (r.1 = .errFull ↔ a.room ∉ mgr.names ∧ mgr.roomCount = maxRooms) ∧
        (r.1 = .errFull → r.2 = mgr)) ∧
    (∀ room, room ∉ mgr.names → added P roomManagerInit room adds = []) ∧
    (∀ rn ∈ mgr.rooms,
      let log := added P roomManagerInit (cstr rn.name.bytes) adds
      rn.history.count = min log.length maxRoomHistory ∧
        ∀ i < rn.history.count, (rn.history.slots[(rn.history.start + i) % maxRoomHistory]?).map HistoryEntry.record =
          ((lastN maxRoomHistory log).map (Add.record P))[i]?) ∧
    ∀ room, 0 ∉ room → ∀ buflen,
      let text := joinWith (lit "||") ((lastN maxRoomHistory (added P roomManagerInit room adds)).map (Add.text P))
      (roomHistoryFormat mgr room buflen).2 = text.take (buflen - 1) ∧
        ((roomHistoryFormat mgr room buflen).1 = .ok ↔ text.length < buflen) := by
  intro mgr
  have h : mgr.Stores P fun room => added P roomManagerInit room adds :=
    roomManagerInit_stores.adds adds fun a ha => (hadds a ha).kept
  refine ⟨⟨h.nodup, h.count_eq, h.count_le, h.lobby⟩, ?_, ?_, h.absent, fun rn hrn => h.slots hrn, ?_⟩
  · intro rn _
    exact ⟨rn.history.count_le, rn.history.start_lt, rn.history.start_eq⟩
  · intro a ha r
    have hstatus : r.1 = if a.room ∉ mgr.names ∧ maxRooms ≤ mgr.roomCount then .errFull else .ok := roomHistoryAdd_status ha.toCalled
    have hfull : maxRooms ≤ mgr.roomCount ↔ mgr.roomCount = maxRooms := ⟨fun hle => le_antisymm h.count_le hle, Eq.ge⟩
    rw [← hfull]
    refine ⟨?_, ?_, fun herr => roomHistoryAdd_failed fun hok => ChatStatus.noConfusion (herr.symm.trans hok)⟩
    · rw [hstatus]
      split
      · exact Or.inr rfl
      · exact Or.inl rfl
    · rw [hstatus]
      split
      · rename_i hnew
        exact iff_of_true rfl hnew
      · rename_i hnew
        exact iff_of_false ChatStatus.noConfusion hnew
  · intro room h0 buflen text
    rw [h.format h0 buflen]
    exact ⟨rfl, fitted_ok_iff⟩

theorem rooms_exact_den :
    (roomHistoryFormat (roomHistoryAdds noZone roomManagerInit [addIn (lit "den"), addIn (lit "hall")]).2 (lit "den") 64).2 =
      lit "bob|unknown|hi" := by
  have hfits : ∀ a ∈ [addIn (lit "den"), addIn (lit "hall")], a.Fits := by
    intro a ha
    rcases List.mem_pair.mp ha with rfl | rfl
    · exact ⟨⟨rfl, by decide, by decide, by decide⟩, by decide, by decide, by decide, by decide⟩
    · exact ⟨⟨rfl, by decide, by decide, by decide⟩, by decide, by decide, by decide, by decide⟩
  obtain ⟨-, -, -, -, -, hformat⟩ := rooms_exact (P := noZone) hfits
  rw [(hformat (lit "den") (by decide) 64).1]
  decide +kernel

end

end ChatServer

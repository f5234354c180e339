import ChatServer.RoomsSound

/-!
# Rooms and the limit they share

A room sees the calls for other rooms only through its admission: its first
call finds the room, makes it, or finds `maxRooms` others. A room that is there
stays, and a full list stays full, so what `room_history_format` gives depends
on the room's own calls and on that one question.
-/

namespace ChatServer

open CStr

structure IsRoomName (name : Bytes) : Prop where
  noNul : 0 ∉ name
  pos : 0 < name.length
  le : name.length ≤ maxRoomNameLen - 1

/-- A call whose `calloc` returns a block and whose room name fits. -/
structure Add.Called (a : Add) : Prop where
  mem : a.mem = true
  room : IsRoomName a.room

def callsFor (room : Bytes) (adds : List Add) : List Add := adds.filter fun a => a.room = room

def namesBefore (room : Bytes) (adds : List Add) : List Bytes := (adds.takeWhile fun a => a.room ≠ room).map Add.room

/-- The room's first call comes while it can be made, or the room is the lobby. -/
def Admitted (room : Bytes) (adds : List Add) : Prop :=
  room = defaultRoom ∨ (defaultRoom :: namesBefore room adds).toFinset.card < maxRooms

instance (room : Bytes) (adds : List Add) : Decidable (Admitted room adds) := inferInstanceAs (Decidable (_ ∨ _))

def RoomManager.room? (mgr : RoomManager) (room : Bytes) : Option RoomNode := mgr.rooms.find? fun cur => cur.named room

def RoomManager.names (mgr : RoomManager) : List Bytes := mgr.rooms.map fun rn => cstr rn.name.bytes

def Add.apply (P : Platform) (rn : RoomNode) (a : Add) : RoomNode :=
  { rn with history := rn.history.push (fillEntry P a.username a.content a.ts) }

theorem room?_eq_none {mgr : RoomManager} {room : Bytes} (h0 : 0 ∉ room) : mgr.room? room = none ↔ room ∉ mgr.names := by
  rw [RoomManager.room?, List.find?_eq_none, RoomManager.names, List.mem_map]
  constructor
  · intro h ⟨rn, hrn, hname⟩
    exact h rn hrn ((named_iff h0).mpr hname)
  · intro h rn hrn hname
    exact h ⟨rn, hrn, (named_iff h0).mp hname⟩

section
variable {P : Platform} {mgr : RoomManager} {a : Add} {room : Bytes}

/-! ## One call -/

/-- The result of a call: the room it wrote to, in front where it was made. -/
theorem roomHistoryAdd_cases (P : Platform) (mgr : RoomManager) (a : Add) :
    (∃ i, (mgr.rooms.findIdx? fun cur => cur.named a.room) = some i ∧
      (roomHistoryAdd P mgr a.mem a.room a.username a.content a.ts).2 =
        { mgr with rooms := mgr.rooms.modify i (a.apply P ·) }) ∨
    (mgr.room? a.room = none ∧ (maxRooms ≤ mgr.roomCount ∨ a.mem = false) ∧
      (roomHistoryAdd P mgr a.mem a.room a.username a.content a.ts).2 = mgr) ∨
    (mgr.room? a.room = none ∧ mgr.roomCount < maxRooms ∧
      (roomHistoryAdd P mgr a.mem a.room a.username a.content a.ts).2 =
        { rooms := a.apply P (newRoom a.room) :: mgr.rooms, roomCount := mgr.roomCount + 1 }) := by
  unfold roomHistoryAdd roomFindOrCreate
  cases hi : mgr.rooms.findIdx? fun cur => cur.named a.room with
  | some i => exact Or.inl ⟨i, rfl, rfl⟩
  | none =>
    have hnone : mgr.room? a.room = none := by
      rw [RoomManager.room?, List.find?_eq_none]
      simpa [List.findIdx?_eq_none_iff] using hi
    by_cases hfull : mgr.roomCount ≥ maxRooms
    · exact Or.inr (Or.inl ⟨hnone, Or.inl hfull, by simp only [if_pos hfull]⟩)
    · cases hmem : a.mem with
      | false => exact Or.inr (Or.inl ⟨hnone, Or.inr rfl, by simp only [if_neg hfull, Bool.not_false, ite_true]⟩)
      | true =>
        refine Or.inr (Or.inr ⟨hnone, Nat.not_le.mp hfull, ?_⟩)
        simp only [if_neg hfull, Bool.not_true, Bool.false_eq_true, ite_false, List.modify_zero_cons]
        rfl

theorem newRoom_empty (name : Bytes) : (newRoom name).history.toList = [] :=
  List.length_eq_zero_iff.mp (RingBuffer.toList_length _)

/-- What holds of every entry stored so far and of the one that a call fills holds of all entries behind the call. -/
theorem forall_entries_add {P : Platform} {p : HistoryEntry → Prop} {mgr : RoomManager} {a : Add}
    (h : ∀ rn ∈ mgr.rooms, ∀ e ∈ rn.history.toList, p e) (hfill : ∀ entry, p (fillEntry P a.username a.content a.ts entry)) :
    ∀ rn ∈ (roomHistoryAdd P mgr a.mem a.room a.username a.content a.ts).2.rooms, ∀ e ∈ rn.history.toList, p e := by
  have pushed : ∀ rn : RoomNode, (∀ e ∈ rn.history.toList, p e) → ∀ e ∈ (a.apply P rn).history.toList, p e := by
    intro rn hrn e he
    rw [Add.apply, RingBuffer.toList_push] at he
    rcases List.mem_append.mp (List.mem_of_mem_drop he) with he | he
    · exact hrn e he
    · rw [List.mem_singleton.mp he]
      exact hfill _
  rcases roomHistoryAdd_cases P mgr a with ⟨i, -, he⟩ | ⟨-, -, he⟩ | ⟨-, -, he⟩
  · rw [he]
    intro rn hrn
    obtain ⟨j, hj, rfl⟩ := List.getElem_of_mem hrn
    simp only [List.length_modify] at hj
    simp only [List.getElem_modify]
    split
    · exact pushed _ (h _ (List.getElem_mem hj))
    · exact h _ (List.getElem_mem hj)
  · rw [he]
    exact h
  · rw [he]
    intro rn hrn
    rcases List.mem_cons.mp hrn with rfl | hrn
    · refine pushed _ fun e he => ?_
      rw [newRoom_empty] at he
      cases he
    · exact h rn hrn

theorem Add.Called.full_of {a : Add} (ha : a.Called) {n : Nat} (h : maxRooms ≤ n ∨ a.mem = false) : maxRooms ≤ n :=
  h.resolve_right (by rw [ha.mem]; decide)

theorem room?_modify_own {i : Nat} (hi : (mgr.rooms.findIdx? fun cur => cur.named room) = some i) (f : RoomNode → RoomNode)
    (hf : ∀ rn, (f rn).name = rn.name) :
    (RoomManager.room? { mgr with rooms := mgr.rooms.modify i f } room) = (mgr.room? room).map f :=
  (find?_modify_first (p := fun cur : RoomNode => cur.named room) (q := fun _ => false)
    (fun x => by simp only [RoomNode.named, hf]) (fun _ => rfl) hi).1

theorem room?_modify_other (h0 : 0 ∉ room) (ha : 0 ∉ a.room) (hne : a.room ≠ room) {i : Nat}
    (hi : (mgr.rooms.findIdx? fun cur => cur.named a.room) = some i) (f : RoomNode → RoomNode)
    (hf : ∀ rn, (f rn).name = rn.name) :
    (RoomManager.room? { mgr with rooms := mgr.rooms.modify i f } room) = mgr.room? room := by
  refine (find?_modify_first (p := fun cur : RoomNode => cur.named a.room) (q := fun cur => cur.named room)
    (fun x => by simp only [RoomNode.named, hf]) (fun x => by simp only [RoomNode.named, hf]) hi).2 fun x hx => ?_
  rw [named_iff ha] at hx
  rw [Bool.eq_false_iff, ne_eq, named_iff h0, hx]
  exact hne

theorem applyNew_named (ha : a.Called) (h0 : 0 ∉ room) :
    (a.apply P (newRoom a.room)).named room = true ↔ a.room = room :=
  newRoom_named ha.room.noNul ha.room.le h0

/-- A call for another room leaves this one as it is. -/
theorem roomHistoryAdd_other (ha : a.Called) (h0 : 0 ∉ room) (hne : a.room ≠ room) :
    (roomHistoryAdd P mgr a.mem a.room a.username a.content a.ts).2.room? room = mgr.room? room := by
  rcases roomHistoryAdd_cases P mgr a with ⟨i, hi, h⟩ | ⟨-, -, h⟩ | ⟨-, -, h⟩
  · rw [h]
    exact room?_modify_other h0 ha.room.noNul hne hi _ fun _ => rfl
  · rw [h]
  · rw [h, RoomManager.room?, List.find?_cons_of_neg]
    · rfl
    · rw [applyNew_named ha h0]
      exact hne

theorem roomHistoryAdd_found (hroom : a.room = room) {rn : RoomNode} (hrn : mgr.room? room = some rn) :
    (roomHistoryAdd P mgr a.mem a.room a.username a.content a.ts).2.room? room = some (a.apply P rn) := by
  subst hroom
  rcases roomHistoryAdd_cases P mgr a with ⟨i, hi, h⟩ | ⟨hnone, -⟩ | ⟨hnone, -⟩
  · rw [h, room?_modify_own hi, hrn]
    · rfl
    · exact fun _ => rfl
  · rw [hnone] at hrn
    cases hrn
  · rw [hnone] at hrn
    cases hrn

theorem roomHistoryAdd_made (ha : a.Called) (hroom : a.room = room) (hnone : mgr.room? room = none)
    (hc : mgr.roomCount < maxRooms) :
    (roomHistoryAdd P mgr a.mem a.room a.username a.content a.ts).2.room? room = some (a.apply P (newRoom room)) := by
  subst hroom
  rcases roomHistoryAdd_cases P mgr a with ⟨i, hi, -⟩ | ⟨-, hfull, -⟩ | ⟨-, -, h⟩
  · rw [RoomManager.room?, List.find?_eq_none] at hnone
    obtain ⟨hlt, hx, -⟩ := List.findIdx?_eq_some_iff_getElem.mp hi
    exact absurd hx (hnone _ (List.getElem_mem hlt))
  · exact absurd hc (Nat.not_lt.mpr (ha.full_of hfull))
  · rw [h, RoomManager.room?, List.find?_cons_of_pos]
    rw [applyNew_named ha ha.room.noNul]

theorem roomHistoryAdd_noroom (hroom : a.room = room) (hnone : mgr.room? room = none)
    (hc : maxRooms ≤ mgr.roomCount) : (roomHistoryAdd P mgr a.mem a.room a.username a.content a.ts).2 = mgr := by
  subst hroom
  rcases roomHistoryAdd_cases P mgr a with ⟨i, hi, -⟩ | ⟨-, -, h⟩ | ⟨-, hlt, -⟩
  · rw [RoomManager.room?, List.find?_eq_none] at hnone
    obtain ⟨hlt, hx, -⟩ := List.findIdx?_eq_some_iff_getElem.mp hi
    exact absurd hx (hnone _ (List.getElem_mem hlt))
  · exact h
  · omega

theorem roomCount_le_add :
    mgr.roomCount ≤ (roomHistoryAdd P mgr a.mem a.room a.username a.content a.ts).2.roomCount := by
  rcases roomHistoryAdd_cases P mgr a with ⟨i, -, h⟩ | ⟨-, -, h⟩ | ⟨-, -, h⟩
  · rw [h]
  · rw [h]
  · rw [h]
    exact Nat.le_succ _

/-! ## The names the list holds -/

/-- The names in the list are distinct and were asked for, and until the list is
full they are all that were. -/
structure NamesSeen (mgr : RoomManager) (seen : List Bytes) : Prop where
  count_eq : mgr.roomCount = mgr.names.length
  nodup : mgr.names.Nodup
  seen_of_name : ∀ name ∈ mgr.names, name ∈ seen
  name_of_seen : mgr.roomCount < maxRooms → ∀ name ∈ seen, name ∈ mgr.names

theorem NamesSeen.init : NamesSeen roomManagerInit [defaultRoom] where
  count_eq := rfl
  nodup := List.nodup_singleton _
  seen_of_name _ h := h
  name_of_seen _ _ h := h

theorem names_modify (f : RoomNode → RoomNode) (hf : ∀ rn, (f rn).name = rn.name) (i : Nat) :
    RoomManager.names { mgr with rooms := mgr.rooms.modify i f } = mgr.names := by
  rw [RoomManager.names, RoomManager.names]
  refine List.ext_getElem (by simp) fun j h₁ h₂ => ?_
  simp only [List.getElem_map, List.getElem_modify]
  split
  · rw [hf]
  · rfl

theorem NamesSeen.add {seen : List Bytes} (h : NamesSeen mgr seen) (ha : a.Called) :
    NamesSeen (roomHistoryAdd P mgr a.mem a.room a.username a.content a.ts).2 (a.room :: seen) := by
  rcases roomHistoryAdd_cases P mgr a with ⟨i, hi, he⟩ | ⟨-, hfull, he⟩ | ⟨hnone, -, he⟩
  · obtain ⟨hlt, hx, -⟩ := List.findIdx?_eq_some_iff_getElem.mp hi
    have hin : a.room ∈ mgr.names :=
      List.mem_map.mpr ⟨_, List.getElem_mem hlt, (named_iff ha.room.noNul).mp hx⟩
    have hnames : RoomManager.names { mgr with rooms := mgr.rooms.modify i (a.apply P) } = mgr.names :=
      names_modify (a.apply P) (fun _ => rfl) i
    rw [he]
    refine ⟨?_, ?_, ?_, ?_⟩
    · rw [hnames]
      exact h.count_eq
    · rw [hnames]
      exact h.nodup
    · intro name hname
      rw [hnames] at hname
      exact List.mem_cons_of_mem _ (h.seen_of_name name hname)
    · intro hc name hname
      rw [hnames]
      rcases List.mem_cons.mp hname with rfl | hname
      · exact hin
      · exact h.name_of_seen hc name hname
  · rw [he]
    exact ⟨h.count_eq, h.nodup, fun name hname => List.mem_cons_of_mem _ (h.seen_of_name name hname),
      fun hc => absurd hc (Nat.not_lt.mpr (ha.full_of hfull))⟩
  · have hname : cstr (a.apply P (newRoom a.room)).name.bytes = a.room :=
      Terminated.cstr_copy _ ha.room.noNul ha.room.le
    have hnames : RoomManager.names { rooms := a.apply P (newRoom a.room) :: mgr.rooms, roomCount := mgr.roomCount + 1 } =
        a.room :: mgr.names := by
      rw [RoomManager.names, List.map_cons, hname]
      rfl
    have hout : a.room ∉ mgr.names := (room?_eq_none ha.room.noNul).mp hnone
    rw [he]
    refine ⟨?_, ?_, ?_, ?_⟩
    · rw [hnames, List.length_cons, ← h.count_eq]
    · rw [hnames]
      exact List.nodup_cons.mpr ⟨hout, h.nodup⟩
    · intro name hn
      rw [hnames] at hn
      rcases List.mem_cons.mp hn with rfl | hn
      · exact List.mem_cons_self ..
      · exact List.mem_cons_of_mem _ (h.seen_of_name name hn)
    · intro hc name hn
      rw [hnames]
      rcases List.mem_cons.mp hn with rfl | hn
      · exact List.mem_cons_self ..
      · exact List.mem_cons_of_mem _ (h.name_of_seen (Nat.lt_of_succ_lt hc) name hn)

theorem NamesSeen.lt_iff {seen : List Bytes} (h : NamesSeen mgr seen) :
    mgr.roomCount < maxRooms ↔ seen.toFinset.card < maxRooms := by
  have hcard : mgr.names.toFinset.card = mgr.roomCount := by
    rw [List.toFinset_card_of_nodup h.nodup, h.count_eq]
  have hsub : mgr.names.toFinset ⊆ seen.toFinset := by
    intro name hname
    exact List.mem_toFinset.mpr (h.seen_of_name name (List.mem_toFinset.mp hname))
  constructor
  · intro hc
    have hsup : seen.toFinset ⊆ mgr.names.toFinset := by
      intro name hname
      exact List.mem_toFinset.mpr (h.name_of_seen hc name (List.mem_toFinset.mp hname))
    have := Finset.card_le_card hsup
    omega
  · intro hc
    have := Finset.card_le_card hsub
    omega

/-! ## Runs of calls -/

theorem callsFor_cons_own (hroom : a.room = room) (adds : List Add) :
    callsFor room (a :: adds) = a :: callsFor room adds :=
  List.filter_cons_of_pos (by simpa using hroom)

theorem callsFor_cons_other (hroom : a.room ≠ room) (adds : List Add) :
    callsFor room (a :: adds) = callsFor room adds :=
  List.filter_cons_of_neg (by simpa using hroom)

/-- A room that is there takes its own calls and no others. -/
theorem roomHistoryAdds_found (h0 : 0 ∉ room) : ∀ (adds : List Add) {mgr : RoomManager} {rn : RoomNode},
    (∀ a ∈ adds, a.Called) → mgr.room? room = some rn →
      (roomHistoryAdds P mgr adds).2.room? room = some ((callsFor room adds).foldl (Add.apply P) rn)
  | [], _, _, _, hrn => hrn
  | a :: adds, mgr, rn, hadds, hrn => by
    have ha := hadds a (List.mem_cons_self ..)
    have hrest : ∀ b ∈ adds, b.Called := fun b hb => hadds b (List.mem_cons_of_mem _ hb)
    by_cases hroom : a.room = room
    · rw [callsFor_cons_own hroom, List.foldl_cons]
      exact roomHistoryAdds_found h0 adds hrest (roomHistoryAdd_found hroom hrn)
    · rw [callsFor_cons_other hroom]
      exact roomHistoryAdds_found h0 adds hrest ((roomHistoryAdd_other ha h0 hroom).trans hrn)

/-- A room that found the list full is never made. -/
theorem roomHistoryAdds_noroom (h0 : 0 ∉ room) : ∀ (adds : List Add) {mgr : RoomManager},
    (∀ a ∈ adds, a.Called) → mgr.room? room = none → maxRooms ≤ mgr.roomCount →
      (roomHistoryAdds P mgr adds).2.room? room = none
  | [], _, _, hnone, _ => hnone
  | a :: adds, mgr, hadds, hnone, hc => by
    have ha := hadds a (List.mem_cons_self ..)
    have hrest : ∀ b ∈ adds, b.Called := fun b hb => hadds b (List.mem_cons_of_mem _ hb)
    refine roomHistoryAdds_noroom h0 adds hrest ?_ (hc.trans (roomCount_le_add))
    by_cases hroom : a.room = room
    · exact (congrArg (RoomManager.room? · room) (roomHistoryAdd_noroom hroom hnone hc)).trans hnone
    · exact (roomHistoryAdd_other ha h0 hroom).trans hnone

/-- A room that is not there yet: made at its first call if the list has space then. -/
theorem roomHistoryAdds_absent (h0 : 0 ∉ room) : ∀ (adds : List Add) {mgr : RoomManager} {seen : List Bytes},
    (∀ a ∈ adds, a.Called) → NamesSeen mgr seen → mgr.room? room = none →
      (roomHistoryAdds P mgr adds).2.room? room =
        if callsFor room adds ≠ [] ∧ ((namesBefore room adds).reverse ++ seen).toFinset.card < maxRooms then
          some ((callsFor room adds).foldl (Add.apply P) (newRoom room))
        else none
  | [], _, _, _, _, hnone => hnone
  | a :: adds, mgr, seen, hadds, hseen, hnone => by
    have ha := hadds a (List.mem_cons_self ..)
    have hrest : ∀ b ∈ adds, b.Called := fun b hb => hadds b (List.mem_cons_of_mem _ hb)
    by_cases hroom : a.room = room
    · have hbefore : namesBefore room (a :: adds) = [] := by simp [namesBefore, hroom]
      rw [callsFor_cons_own hroom, hbefore, List.reverse_nil, List.nil_append, List.foldl_cons]
      by_cases hc : mgr.roomCount < maxRooms
      · rw [if_pos ⟨List.cons_ne_nil _ _, hseen.lt_iff.mp hc⟩]
        exact roomHistoryAdds_found h0 adds hrest (roomHistoryAdd_made ha hroom hnone hc)
      · rw [if_neg fun h => hc (hseen.lt_iff.mpr h.2)]
        have hfull := Nat.not_lt.mp hc
        have hsame := congrArg (RoomManager.room? · room) (roomHistoryAdd_noroom (P := P) hroom hnone hfull)
        exact roomHistoryAdds_noroom h0 adds hrest (hsame.trans hnone) (hfull.trans (roomCount_le_add))
    · have hbefore : namesBefore room (a :: adds) = a.room :: namesBefore room adds := by
        simp [namesBefore, hroom]
      rw [callsFor_cons_other hroom, hbefore, List.reverse_cons, List.append_assoc, List.singleton_append]
      exact roomHistoryAdds_absent h0 adds hrest (hseen.add ha) ((roomHistoryAdd_other ha h0 hroom).trans hnone)

/-- **What a run leaves of a room** depends on its own calls and its admission. -/
theorem roomHistoryAdds_room? (h0 : 0 ∉ room) {adds : List Add} (hadds : ∀ a ∈ adds, a.Called) :
    (roomHistoryAdds P roomManagerInit adds).2.room? room =
      if room = defaultRoom ∨ callsFor room adds ≠ [] ∧ Admitted room adds then
        some ((callsFor room adds).foldl (Add.apply P) (newRoom room))
      else none := by
  by_cases hroom : room = defaultRoom
  · subst hroom
    rw [if_pos (Or.inl rfl)]
    exact roomHistoryAdds_found h0 adds hadds rfl
  · have hnone : roomManagerInit.room? room = none := by
      rw [room?_eq_none h0]
      exact fun h => hroom (List.mem_singleton.mp h)
    have hcard : ((namesBefore room adds).reverse ++ [defaultRoom]).toFinset =
        (defaultRoom :: namesBefore room adds).toFinset := by
      ext name
      simp only [List.mem_toFinset, List.mem_append, List.mem_reverse, List.mem_cons, List.not_mem_nil, or_false]
      exact or_comm
    rw [roomHistoryAdds_absent h0 adds hadds NamesSeen.init hnone, hcard]
    simp only [Admitted, hroom, false_or]

/-! ## What is formatted -/

theorem foldl_apply_count : ∀ (calls : List Add) {rn : RoomNode}, calls ≠ [] ∨ 0 < rn.history.count →
    0 < (calls.foldl (Add.apply P) rn).history.count
  | [], _, h => h.resolve_left (absurd rfl)
  | a :: calls, rn, _ => by
    refine foldl_apply_count calls (Or.inr ?_)
    have hlt := rn.history.start_lt
    rw [Add.apply, RingBuffer.push]
    simp only
    split <;> omega

theorem joinWith_length_le (sep item : Bytes) (items : List Bytes) : item.length ≤ (joinWith sep (item :: items)).length := by
  rw [joinWith, List.length_append]
  omega

/-- A room with an entry gives some text, or an error. -/
theorem roomHistoryFormat_ne_empty {rn : RoomNode} (hrn : mgr.room? room = some rn) (hc : 0 < rn.history.count)
    {buflen : Nat} (hb : 0 < buflen) : roomHistoryFormat mgr room buflen ≠ (.ok, []) := by
  have hform : roomHistoryFormat mgr room buflen =
      appendJoined buflen (lit "||") (rn.history.toList.map HistoryEntry.format) [] true := by
    rw [roomHistoryFormat, if_neg (Nat.ne_of_gt hb), show (mgr.rooms.find? fun cur => cur.named room) = some rn from hrn]
  rw [hform]
  cases hl : rn.history.toList with
  | nil =>
    have := rn.history.toList_length
    rw [hl, List.length_nil] at this
    omega
  | cons e es =>
    rw [List.map_cons]
    by_cases hfit : (joinWith (lit "||") (e.format :: es.map HistoryEntry.format)).length < buflen
    · rw [appendJoined_fits hfit]
      intro he
      have htext : joinWith (lit "||") (e.format :: es.map HistoryEntry.format) = [] := congrArg Prod.snd he
      have hle := joinWith_length_le (lit "||") e.format (es.map HistoryEntry.format)
      have hbar : (lit "|").length = 1 := by decide
      rw [htext, HistoryEntry.format, formatEntry] at hle
      simp only [List.length_append, hbar, List.length_nil] at hle
      omega
    · intro he
      have herr := appendJoined_overflows hb (Nat.not_lt.mp hfit)
      rw [he] at herr
      cases herr

theorem roomHistoryFormat_none (hnone : mgr.room? room = none) {buflen : Nat} (hb : 0 < buflen) :
    roomHistoryFormat mgr room buflen = (.ok, []) := by
  rw [roomHistoryFormat, if_neg (Nat.ne_of_gt hb), show (mgr.rooms.find? fun cur => cur.named room) = none from hnone]

theorem roomHistoryFormat_congr {mgr' : RoomManager} (h : mgr.room? room = mgr'.room? room) (buflen : Nat) :
    roomHistoryFormat mgr room buflen = roomHistoryFormat mgr' room buflen := by
  rw [roomHistoryFormat, roomHistoryFormat, show (mgr.rooms.find? fun cur => cur.named room) =
    mgr'.rooms.find? fun cur => cur.named room from h]

/-- A run that admits the room and one that does not are told apart. -/
theorem roomHistoryFormat_ne_of_admitted {adds adds' : List Add} (hadds : ∀ a ∈ adds, a.Called)
    (hadds' : ∀ a ∈ adds', a.Called) (h0 : 0 ∉ room) (hcalls : callsFor room adds ≠ []) {buflen : Nat} (hb : 0 < buflen)
    (h : Admitted room adds) (h' : ¬ Admitted room adds') :
    roomHistoryFormat (roomHistoryAdds P roomManagerInit adds).2 room buflen ≠
      roomHistoryFormat (roomHistoryAdds P roomManagerInit adds').2 room buflen := by
  have hsome := roomHistoryAdds_room? (P := P) h0 hadds
  rw [if_pos (Or.inr ⟨hcalls, h⟩)] at hsome
  have hnone := roomHistoryAdds_room? (P := P) h0 hadds'
  rw [if_neg fun hor => h' (hor.elim Or.inl And.right)] at hnone
  rw [roomHistoryFormat_none hnone hb]
  exact roomHistoryFormat_ne_empty hsome (foldl_apply_count _ (Or.inl hcalls)) hb

end

/-- **Rooms do not interfere** beyond admission: two sequences with the same calls
for a room give it the same history exactly when the room has no calls, or is
admitted in both or in neither. -/
theorem rooms_apart_iff {P : Platform} {adds adds' : List Add} (hadds : ∀ a ∈ adds, a.Called)
    (hadds' : ∀ a ∈ adds', a.Called) {room : Bytes} (hroom : IsRoomName room)
    (hcalls : callsFor room adds = callsFor room adds') {buflen : Nat} (hb : 0 < buflen) :
    roomHistoryFormat (roomHistoryAdds P roomManagerInit adds).2 room buflen =
        roomHistoryFormat (roomHistoryAdds P roomManagerInit adds').2 room buflen ↔
      callsFor room adds = [] ∨ (Admitted room adds ↔ Admitted room adds') := by
  constructor
  · intro h
    by_cases hnil : callsFor room adds = []
    · exact Or.inl hnil
    · refine Or.inr ⟨fun ha => ?_, fun ha => ?_⟩
      · by_contra hn
        exact roomHistoryFormat_ne_of_admitted hadds hadds' hroom.noNul hnil hb ha hn h
      · by_contra hn
        rw [hcalls] at hnil
        exact roomHistoryFormat_ne_of_admitted hadds' hadds hroom.noNul hnil hb ha hn h.symm
  · intro h
    refine roomHistoryFormat_congr ?_ buflen
    have h₁ := roomHistoryAdds_room? (P := P) hroom.noNul hadds
    have h₂ := roomHistoryAdds_room? (P := P) hroom.noNul hadds'
    rw [h₁, h₂, ← hcalls]
    rcases h with hnil | hiff
    · simp only [hnil, ne_eq, not_true_eq_false, false_and, or_false]
    · simp only [hiff]

def addIn (room : Bytes) : Add := { mem := true, room := room, username := lit "bob", content := lit "hi", ts := 0 }

theorem rooms_apart_iff_den :
    roomHistoryFormat (roomHistoryAdds noZone roomManagerInit [addIn (lit "den"), addIn (lit "hall")]).2 (lit "den") 64 =
      roomHistoryFormat (roomHistoryAdds noZone roomManagerInit [addIn (lit "den")]).2 (lit "den") 64 := by
  have hden : IsRoomName (lit "den") := ⟨by decide, by decide, by decide⟩
  have hhall : IsRoomName (lit "hall") := ⟨by decide, by decide, by decide⟩
  have hadds : ∀ a ∈ [addIn (lit "den"), addIn (lit "hall")], a.Called := by
    intro a ha
    rcases List.mem_pair.mp ha with rfl | rfl
    · exact ⟨rfl, hden⟩
    · exact ⟨rfl, hhall⟩
  have hadds' : ∀ a ∈ [addIn (lit "den")], a.Called := by
    intro a ha
    rw [List.mem_singleton.mp ha]
    exact ⟨rfl, hden⟩
  refine (rooms_apart_iff hadds hadds' hden rfl (by decide)).mpr (Or.inr ?_)
  have hbefore : namesBefore (lit "den") [addIn (lit "den"), addIn (lit "hall")] = [] := by decide
  have hbefore' : namesBefore (lit "den") [addIn (lit "den")] = [] := by decide
  rw [Admitted, Admitted, hbefore, hbefore']

/-- As many other rooms as fill the list. -/
def otherRooms : List Add := (List.range (maxRooms - 1)).map fun i => addIn [120, (48 + i).toUInt8]

theorem rooms_not_apart : ¬ ∀ (P : Platform) (adds adds' : List Add), (∀ a ∈ adds, a.Called) → (∀ a ∈ adds', a.Called) →
    ∀ room, IsRoomName room → callsFor room adds = callsFor room adds' → ∀ buflen,
      roomHistoryFormat (roomHistoryAdds P roomManagerInit adds).2 room buflen =
        roomHistoryFormat (roomHistoryAdds P roomManagerInit adds').2 room buflen := by
  intro h
  have hden : IsRoomName (lit "den") := ⟨by decide, by decide, by decide⟩
  have hcalled : ∀ a ∈ otherRooms ++ [addIn (lit "den")], a.Called := by
    intro a ha
    have hall : ∀ a ∈ otherRooms ++ [addIn (lit "den")],
        a.mem = true ∧ 0 ∉ a.room ∧ 0 < a.room.length ∧ a.room.length ≤ maxRoomNameLen - 1 := by decide +kernel
    obtain ⟨h1, h2, h3, h4⟩ := hall a ha
    exact ⟨h1, h2, h3, h4⟩
  have hcalls : callsFor (lit "den") (otherRooms ++ [addIn (lit "den")]) = callsFor (lit "den") [addIn (lit "den")] := by
    have hothers : callsFor (lit "den") otherRooms = [] := by
      rw [callsFor, List.filter_eq_nil_iff]
      decide +kernel
    rw [callsFor, List.filter_append]
    exact (congrArg (· ++ _) hothers).trans (List.nil_append _)
  have halone : ∀ a ∈ [addIn (lit "den")], a.Called := fun a ha => hcalled a (List.mem_append_right _ ha)
  refine roomHistoryFormat_ne_of_admitted (P := noZone) halone hcalled hden.noNul (by decide)
    (show 0 < 64 by decide) ?_ ?_ (h noZone _ _ hcalled halone (lit "den") hden hcalls 64).symm
  · have hbefore : namesBefore (lit "den") [addIn (lit "den")] = [] := by decide
    rw [Admitted, hbefore]
    exact Or.inr (by decide)
  · have hcard : (defaultRoom :: namesBefore (lit "den") (otherRooms ++ [addIn (lit "den")])).toFinset.card = maxRooms := by
      decide +kernel
    rw [Admitted, hcard]
    decide

end ChatServer

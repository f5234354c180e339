import ChatServer.RoomsApart
import ChatServer.Separators

/-!
# Histories that read as other conversations

`room_history_format` writes the texts of the members as they are between its
separators. A payload gives the entries back as long as no text goes on, behind
something of its own, with a doubled separator, a name and a timestamp; and
every text that does is part of two histories with one payload.
-/

namespace ChatServer

open CStr

def bar : UInt8 := 124

structure Record where
  username : Bytes
  timestamp : Bytes
  content : Bytes
  deriving DecidableEq

def Record.text (r : Record) : Bytes := formatEntry r.username r.timestamp r.content

def HistoryEntry.record (e : HistoryEntry) : Record :=
  { username := cstr e.username.bytes, timestamp := e.timestamp, content := cstr e.content.bytes }

/-- The entries a room holds, oldest first. -/
def records (mgr : RoomManager) (room : Bytes) : List Record :=
  match mgr.room? room with
  | none => []
  | some rn => rn.history.toList.map HistoryEntry.record

/-- The payload of a history that fits its buffer. -/
def payload (rs : List Record) : Bytes := joinWith (lit "||") (rs.map Record.text)

/-- The text of an entry that begins another one behind its first bytes. -/
def Forging (P : Platform) (content : Bytes) : Prop :=
  ∃ x u t y, content = x ++ (lit "||" ++ u ++ lit "|" ++ formatTimestamp P.localtimeR t ++ y) ∧ x ≠ [] ∧ u ≠ [] ∧
    u.length ≤ maxUsernameLen - 1 ∧ bar ∉ u ∧ (y = [] ∨ ∃ y', y = bar :: y')

/-- A call that `cmd_handle_msg` can make for a user whose name has no separator. -/
structure Add.Said (a : Add) : Prop extends a.Ok where
  username_ne : a.username ≠ []
  username_noBar : bar ∉ a.username

structure Record.Storable (P : Platform) (r : Record) : Prop where
  username_ne : r.username ≠ []
  username_le : r.username.length ≤ maxUsernameLen - 1
  username_noBar : bar ∉ r.username
  stamp : ∃ t, formatTimestamp P.localtimeR t = r.timestamp
  content_ne : r.content ≠ []

section
variable {P : Platform}

/-! ## Reading a payload -/

/-- What stands behind an entry. -/
def behind (rs : List Record) : Bytes := ((rs.map Record.text).map (lit "||" ++ ·)).flatten

@[simp] theorem behind_nil : behind [] = [] := rfl

theorem behind_cons (r : Record) (rs : List Record) :
    behind (r :: rs) = bar :: bar :: r.username ++ bar :: r.timestamp ++ bar :: (r.content ++ behind rs) := by
  have hbar : lit "|" = [bar] := by decide
  have hbars : lit "||" = [bar, bar] := by decide
  simp only [behind, List.map_cons, List.flatten_cons, Record.text, formatEntry, hbar, hbars, List.append_assoc,
    List.cons_append, List.nil_append]

theorem payload_cons (r : Record) (rs : List Record) :
    payload (r :: rs) = r.username ++ bar :: (r.timestamp ++ bar :: (r.content ++ behind rs)) := by
  have hbar : lit "|" = [bar] := by decide
  simp only [payload, joinWith, behind, List.map_cons, Record.text, formatEntry, hbar, List.append_assoc,
    List.cons_append, List.nil_append]

theorem bar_not_mem_stamp (t : Int) : bar ∉ formatTimestamp P.localtimeR t :=
  not_mem_formatTimestamp _ _ (Or.inr (by decide))

theorem Record.Storable.stamp_noBar {r : Record} (h : r.Storable P) : bar ∉ r.timestamp := by
  obtain ⟨t, ht⟩ := h.stamp
  rw [← ht]
  exact bar_not_mem_stamp t

theorem Record.Storable.stamp_ne {r : Record} (h : r.Storable P) : r.timestamp ≠ [] := by
  obtain ⟨t, ht⟩ := h.stamp
  rw [← ht]
  exact formatTimestamp_ne_nil _ t

/-- A text that reaches into what stands behind another reading of it is forging. -/
theorem forging_of_behind {rs rs' : List Record} (hrs : ∀ r ∈ rs, r.Storable P) {x z : Bytes} (hx : x ≠ []) (hz : z ≠ [])
    (h : behind rs = z ++ behind rs') : Forging P (x ++ z) := by
  have hbar : lit "|" = [bar] := by decide
  have hbars : lit "||" = [bar, bar] := by decide
  cases rs with
  | nil => exact absurd (List.append_eq_nil_iff.mp h.symm).1 hz
  | cons r rs =>
    have hr := hrs r (List.mem_cons_self ..)
    obtain ⟨t, ht⟩ := hr.stamp
    rw [behind_cons] at h
    have hcut : ∃ y, z = bar :: bar :: r.username ++ bar :: r.timestamp ++ y ∧ (y = [] ∨ ∃ y', y = bar :: y') := by
      cases rs' with
      | nil => exact ⟨_, by rw [h, behind_nil, List.append_nil], Or.inr ⟨_, rfl⟩⟩
      | cons r' rs' =>
        rw [behind_cons, List.cons_append, List.cons_append, List.cons_append, List.cons_append] at h
        exact Separators.head_cut hr.username_noBar hr.username_ne hr.stamp_noBar hr.stamp_ne hz h
    obtain ⟨y, rfl, hy⟩ := hcut
    refine ⟨x, r.username, t, y, ?_, hx, hr.username_ne, hr.username_le, hr.username_noBar, hy⟩
    rw [ht, hbar, hbars]
    simp only [List.append_assoc, List.cons_append, List.nil_append]

/-- Two readings of a text and what follows it agree, or the longer text is forging. -/
theorem contents_eq_or {rs rs' : List Record} (hrs : ∀ r ∈ rs, r.Storable P) (hrs' : ∀ r ∈ rs', r.Storable P)
    {c c' : Bytes} (hc : c ≠ []) (hc' : c' ≠ []) (h : c ++ behind rs = c' ++ behind rs') :
    (c = c' ∧ behind rs = behind rs') ∨ Forging P c ∨ Forging P c' := by
  rcases List.append_eq_append_iff.mp h with ⟨z, rfl, hz⟩ | ⟨z, rfl, hz⟩
  · by_cases hnil : z = []
    · subst hnil
      exact Or.inl ⟨(List.append_nil c).symm, hz⟩
    · exact Or.inr (Or.inr (forging_of_behind hrs hc hnil hz))
  · by_cases hnil : z = []
    · subst hnil
      exact Or.inl ⟨List.append_nil c', hz.symm⟩
    · exact Or.inr (Or.inl (forging_of_behind hrs' hc' hnil hz))

/-- The head of an entry is read in one way, and its text as far as it is not forging. -/
theorem heads_eq_or {r r' : Record} {rs rs' : List Record} (hrs : ∀ e ∈ r :: rs, e.Storable P)
    (hrs' : ∀ e ∈ r' :: rs', e.Storable P) (h : payload (r :: rs) = payload (r' :: rs')) :
    (r = r' ∧ behind rs = behind rs') ∨ Forging P r.content ∨ Forging P r'.content := by
  have hr := hrs r (List.mem_cons_self ..)
  have hr' := hrs' r' (List.mem_cons_self ..)
  rw [payload_cons, payload_cons] at h
  obtain ⟨hu, h⟩ := Separators.split_first hr.username_noBar hr'.username_noBar h
  obtain ⟨ht, h⟩ := Separators.split_first hr.stamp_noBar hr'.stamp_noBar h
  rcases contents_eq_or (fun e he => hrs e (List.mem_cons_of_mem _ he)) (fun e he => hrs' e (List.mem_cons_of_mem _ he))
    hr.content_ne hr'.content_ne h with ⟨hc, hb⟩ | hf
  · refine Or.inl ⟨?_, hb⟩
    obtain ⟨u, t, c⟩ := r
    obtain ⟨u', t', c'⟩ := r'
    simp only at hu ht hc
    rw [hu, ht, hc]
  · exact Or.inr hf

theorem behind_eq_payload (r : Record) (rs : List Record) : behind (r :: rs) = bar :: bar :: payload (r :: rs) := by
  rw [behind_cons, payload_cons]
  simp only [List.append_assoc, List.cons_append]

/-- By recursion on both readings, entry by entry. -/
theorem behind_inj : ∀ {rs rs' : List Record}, (∀ r ∈ rs, r.Storable P) → (∀ r ∈ rs', r.Storable P) →
    behind rs = behind rs' → rs = rs' ∨ ∃ r ∈ rs ++ rs', Forging P r.content
  | [], [], _, _, _ => Or.inl rfl
  | [], r' :: rs', _, _, h => by
    rw [behind_nil, behind_eq_payload] at h
    cases h
  | r :: rs, [], _, _, h => by
    rw [behind_nil, behind_eq_payload] at h
    cases h
  | r :: rs, r' :: rs', hrs, hrs', h => by
    rw [behind_eq_payload, behind_eq_payload] at h
    rcases heads_eq_or hrs hrs' (List.cons.inj (List.cons.inj h).2).2 with ⟨rfl, hb⟩ | hf | hf
    · rcases behind_inj (fun e he => hrs e (List.mem_cons_of_mem _ he)) (fun e he => hrs' e (List.mem_cons_of_mem _ he))
        hb with rfl | ⟨e, he, hf⟩
      · exact Or.inl rfl
      · refine Or.inr ⟨e, ?_, hf⟩
        rcases List.mem_append.mp he with he | he
        · exact List.mem_append_left _ (List.mem_cons_of_mem _ he)
        · exact List.mem_append_right _ (List.mem_cons_of_mem _ he)
    · exact Or.inr ⟨r, List.mem_append_left _ (List.mem_cons_self ..), hf⟩
    · exact Or.inr ⟨r', List.mem_append_right _ (List.mem_cons_self ..), hf⟩

theorem payload_inj {rs rs' : List Record} (hrs : ∀ r ∈ rs, r.Storable P) (hrs' : ∀ r ∈ rs', r.Storable P)
    (h : payload rs = payload rs') : rs = rs' ∨ ∃ r ∈ rs ++ rs', Forging P r.content := by
  have hnonempty : ∀ (r : Record) (rs : List Record), payload (r :: rs) ≠ [] := by
    intro r rs he
    rw [payload_cons] at he
    exact List.cons_ne_nil _ _ (List.append_eq_nil_iff.mp he).2
  refine behind_inj hrs hrs' ?_
  cases rs with
  | nil =>
    cases rs' with
    | nil => rfl
    | cons r' rs' => exact absurd h.symm (hnonempty r' rs')
  | cons r rs =>
    cases rs' with
    | nil => exact absurd h (hnonempty r rs)
    | cons r' rs' => rw [behind_eq_payload, behind_eq_payload, h]

/-! ## What the rooms hold -/

theorem appendJoined_ok {buflen : Nat} {sep : Bytes} {items : List Bytes}
    (h : (appendJoined buflen sep items [] true).1 = .ok) :
    (appendJoined buflen sep items [] true).2 = joinWith sep items := by
  by_cases hfit : (joinWith sep items).length < buflen
  · rw [appendJoined_fits hfit]
  · by_cases hb : 0 < buflen
    · rw [appendJoined_overflows hb (Nat.not_lt.mp hfit)] at h
      cases h
    · cases items with
      | nil => rfl
      | cons item items =>
        have hn : item.length ≥ buflen := by omega
        simp only [appendJoined, snprintf, ite_true, List.length_nil, Nat.sub_zero, hn] at h
        cases h

theorem roomHistoryFormat_records (mgr : RoomManager) (room : Bytes) {buflen : Nat} (hb : 0 < buflen) :
    roomHistoryFormat mgr room buflen = appendJoined buflen (lit "||") ((records mgr room).map Record.text) [] true := by
  unfold roomHistoryFormat records RoomManager.room?
  rw [if_neg (Nat.ne_of_gt hb)]
  cases mgr.rooms.find? fun cur => cur.named room with
  | none => rfl
  | some rn => rw [List.map_map]; rfl

theorem roomHistoryFormat_payload {mgr : RoomManager} {room : Bytes} {buflen : Nat}
    (h : (roomHistoryFormat mgr room buflen).1 = .ok) :
    (roomHistoryFormat mgr room buflen).2 = payload (records mgr room) := by
  have hb : 0 < buflen := by
    refine Nat.pos_of_ne_zero fun hz => ?_
    rw [roomHistoryFormat, if_pos hz] at h
    cases h
  rw [roomHistoryFormat_records mgr room hb] at h ⊢
  exact appendJoined_ok h

def Add.record (P : Platform) (a : Add) : Record :=
  { username := a.username, timestamp := formatTimestamp P.localtimeR a.ts, content := a.content }

theorem fillEntry_record {username content : Bytes} (hu0 : 0 ∉ username) (hu : username.length ≤ maxUsernameLen - 1)
    (hc0 : 0 ∉ content) (hc : content.length ≤ maxMsgLen - 1) (ts : Int) (entry : HistoryEntry) :
    (fillEntry P username content ts entry).record =
      { username := username, timestamp := formatTimestamp P.localtimeR ts, content := content } := by
  rw [HistoryEntry.record, fillEntry, Terminated.cstr_copy _ hu0 hu, Terminated.cstr_copy _ hc0 hc]

theorem Add.Ok.filled {a : Add} (ha : a.Ok) (entry : HistoryEntry) :
    (fillEntry P a.username a.content a.ts entry).record = a.record P :=
  fillEntry_record ha.username_noNul ha.username_le ha.content_noNul ha.content_le _ _

theorem Add.Said.storable {a : Add} (ha : a.Said) : (a.record P).Storable P where
  username_ne := ha.username_ne
  username_le := ha.username_le
  username_noBar := ha.username_noBar
  stamp := ⟨a.ts, rfl⟩
  content_ne := List.ne_nil_of_length_pos ha.content_pos

/-- Every entry of every room came from a call. -/
def AllStorable (P : Platform) (mgr : RoomManager) : Prop :=
  ∀ rn ∈ mgr.rooms, ∀ e ∈ rn.history.toList, e.record.Storable P

theorem AllStorable.init : AllStorable P roomManagerInit := by
  intro rn hrn e he
  rw [List.mem_singleton.mp hrn, newRoom_empty] at he
  cases he

theorem AllStorable.add {mgr : RoomManager} (h : AllStorable P mgr) {a : Add} (ha : a.Said) :
    AllStorable P (roomHistoryAdd P mgr a.mem a.room a.username a.content a.ts).2 :=
  forall_entries_add h fun entry => by
    rw [ha.toOk.filled]
    exact ha.storable

theorem allStorable_adds : ∀ (adds : List Add) {mgr : RoomManager}, AllStorable P mgr → (∀ a ∈ adds, a.Said) →
    AllStorable P (roomHistoryAdds P mgr adds).2
  | [], _, h, _ => h
  | a :: adds, _, h, hadds => by
    have hrest : ∀ b ∈ adds, b.Said := fun b hb => hadds b (List.mem_cons_of_mem _ hb)
    exact allStorable_adds adds (h.add (hadds a (List.mem_cons_self ..))) hrest

theorem records_storable {mgr : RoomManager} (h : AllStorable P mgr) (room : Bytes) :
    ∀ r ∈ records mgr room, r.Storable P := by
  intro r hr
  unfold records at hr
  split at hr
  · cases hr
  · rename_i rn hrn
    obtain ⟨e, he, rfl⟩ := List.mem_map.mp hr
    exact h rn (List.mem_of_find?_eq_some hrn) e he

/-! ## Forging texts -/

theorem foldl_apply_holds : ∀ (calls : List Add) {rn : RoomNode} {rs : List Record}, (∀ a ∈ calls, a.Ok) →
    rn.history.Holds HistoryEntry.record rs →
      (calls.foldl (Add.apply P) rn).history.Holds HistoryEntry.record (rs ++ calls.map (Add.record P))
  | [], _, rs, _, h => by rwa [List.map_nil, List.append_nil]
  | a :: calls, rn, rs, hcalls, h => by
    have ha := (hcalls a (List.mem_cons_self ..)).filled (P := P) rn.history.written
    rw [List.foldl_cons, List.map_cons, List.append_cons]
    exact foldl_apply_holds calls (fun b hb => hcalls b (List.mem_cons_of_mem _ hb)) (h.push _ ha)

theorem newRoom_holds (name : Bytes) : (newRoom name).history.Holds HistoryEntry.record [] :=
  RingBuffer.holds_replicate _ _ _

/-- The lobby holds the last of the calls for it. -/
theorem records_lobby {adds : List Add} (hadds : ∀ a ∈ adds, a.Ok ∧ a.mem = true ∧ a.room = defaultRoom) :
    records (roomHistoryAdds P roomManagerInit adds).2 defaultRoom = lastN maxRoomHistory (adds.map (Add.record P)) := by
  have hcalled : ∀ a ∈ adds, a.Called := by
    intro a ha
    obtain ⟨-, hmem, hroom⟩ := hadds a ha
    exact ⟨hmem, by rw [hroom]; exact ⟨by decide, by decide, by decide⟩⟩
  have hcalls : callsFor defaultRoom adds = adds := by
    rw [callsFor, List.filter_eq_self]
    intro a ha
    exact decide_eq_true (hadds a ha).2.2
  have hroom := roomHistoryAdds_room? (P := P) (show 0 ∉ defaultRoom by decide) hcalled
  rw [if_pos (Or.inl rfl), hcalls] at hroom
  unfold records
  rw [hroom]
  have h := foldl_apply_holds (P := P) adds (fun a ha => (hadds a ha).1) (newRoom_holds defaultRoom)
  rwa [List.nil_append] at h

def sayAt (t : Int) (username content : Bytes) : Add :=
  { mem := true, room := defaultRoom, username := username, content := content, ts := t }

theorem sayAt_said {t : Int} {u c : Bytes} (hu0 : 0 ∉ u) (hu : u ≠ []) (hul : u.length ≤ maxUsernameLen - 1)
    (hub : bar ∉ u) (hc0 : 0 ∉ c) (hc : c ≠ []) (hcl : c.length ≤ maxMsgLen - 1) : (sayAt t u c).Said where
  room_noNul := show 0 ∉ defaultRoom by decide
  room_le := show defaultRoom.length ≤ maxRoomNameLen - 1 by decide
  username_noNul := hu0
  username_le := hul
  content_noNul := hc0
  content_pos := List.length_pos_iff.mpr hc
  content_le := hcl
  username_ne := hu
  username_noBar := hub

theorem records_pair {a b : Add} (ha : a.Said ∧ a.mem = true ∧ a.room = defaultRoom)
    (hb : b.Said ∧ b.mem = true ∧ b.room = defaultRoom) :
    records (roomHistoryAdds P roomManagerInit [a, b]).2 defaultRoom = [a.record P, b.record P] := by
  rw [records_lobby]
  · rfl
  · intro c hc
    rcases List.mem_pair.mp hc with rfl | rfl
    · exact ⟨ha.1.toOk, ha.2⟩
    · exact ⟨hb.1.toOk, hb.2⟩

theorem payload_pair (r s : Record) :
    payload [r, s] = r.username ++ bar :: (r.timestamp ++ bar :: (r.content ++ (bar :: bar :: (s.username ++
      bar :: (s.timestamp ++ bar :: s.content))))) := by
  rw [payload_cons, behind_cons, behind_nil]
  simp only [List.append_nil, List.append_assoc, List.cons_append]

/-- Two histories in the lobby: the forging text and a short one behind it, or the
text up to the forged entry and that entry with all that follows. -/
theorem forging_collides {c : Bytes} (h0 : 0 ∉ c) (hl : c.length ≤ maxMsgLen - 1) (hf : Forging P c) :
    ∃ adds adds' : List Add, (∀ a ∈ adds, a.Said) ∧ (∀ a ∈ adds', a.Said) ∧
      records (roomHistoryAdds P roomManagerInit adds).2 defaultRoom ≠
        records (roomHistoryAdds P roomManagerInit adds').2 defaultRoom ∧
      (∃ r ∈ records (roomHistoryAdds P roomManagerInit adds).2 defaultRoom, r.content = c) ∧
      (roomHistoryFormat (roomHistoryAdds P roomManagerInit adds).2 defaultRoom maxLineLen).1 = .ok ∧
      roomHistoryFormat (roomHistoryAdds P roomManagerInit adds).2 defaultRoom maxLineLen =
        roomHistoryFormat (roomHistoryAdds P roomManagerInit adds').2 defaultRoom maxLineLen := by
  obtain ⟨x, u, t, y, hc, hx, hu, hul, hub, hy⟩ := hf
  have hlineLen : 0 < maxLineLen := by decide
  have hbar : lit "|" = [bar] := by decide
  have hbars : lit "||" = [bar, bar] := by decide
  have hb : lit "b" = [98] := by decide
  have ha : lit "a" = [97] := by decide
  have hstamp0 : (0 : UInt8) ∉ formatTimestamp P.localtimeR t := not_mem_formatTimestamp _ _ (Or.inl (by decide))
  have hstamp : (formatTimestamp P.localtimeR t).length < timestampLen := formatTimestamp_length _ t
  rw [hbar, hbars] at hc
  generalize hts : formatTimestamp P.localtimeR t = ts at *
  -- what stands behind the forged head, up to the end of the second entry
  obtain ⟨rest, hrest⟩ : ∃ rest, y ++ bar :: bar :: (lit "b" ++ bar :: (ts ++ bar :: lit "a")) = bar :: rest := by
    rcases hy with rfl | ⟨y', rfl⟩
    · exact ⟨_, rfl⟩
    · exact ⟨_, rfl⟩
  have hlen := congrArg List.length hrest
  have hclen := congrArg List.length hc
  have hxpos := List.length_pos_iff.mpr hx
  have hupos := List.length_pos_iff.mpr hu
  simp only [List.length_append, List.length_cons, List.length_nil, hb, ha] at hlen hclen
  simp only [maxMsgLen, timestampLen] at hl hstamp
  obtain ⟨hx0, hu0, hy0⟩ : 0 ∉ x ∧ 0 ∉ u ∧ 0 ∉ y := by
    simp only [hc, List.mem_append, not_or] at h0
    exact ⟨h0.1, h0.2.1.1.1.2, h0.2.2⟩
  have hrest0 : (0 : UInt8) ∉ bar :: rest := by
    rw [← hrest, hb, ha]
    simp only [List.mem_append, List.mem_cons, List.not_mem_nil, or_false, not_or]
    exact ⟨hy0, by decide, by decide, by decide, by decide, hstamp0, by decide, by decide⟩
  have hforged : (sayAt t (lit "b") c).Said := by
    refine sayAt_said (by decide) (by decide) (by decide) (by decide) h0 ?_ hl
    intro hnil
    rw [hnil, List.length_nil] at hclen
    omega
  have hshort : (sayAt t (lit "b") (lit "a")).Said :=
    sayAt_said (by decide) (by decide) (by decide) (by decide) (by decide) (by decide) (by decide)
  have hbegun : (sayAt t (lit "b") x).Said := by
    refine sayAt_said (by decide) (by decide) (by decide) (by decide) hx0 hx ?_
    simp only [maxMsgLen]
    omega
  have hmade : (sayAt t u rest).Said := by
    refine sayAt_said hu0 hu hul hub (fun h => hrest0 (List.mem_cons_of_mem _ h)) ?_ ?_
    · intro hnil
      rw [hnil, List.length_nil] at hlen
      omega
    · simp only [maxMsgLen]
      omega
  have hrecords := records_pair (P := P) ⟨hforged, rfl, rfl⟩ ⟨hshort, rfl, rfl⟩
  have hrecords' := records_pair (P := P) ⟨hbegun, rfl, rfl⟩ ⟨hmade, rfl, rfl⟩
  have hsame : payload [(sayAt t (lit "b") c).record P, (sayAt t (lit "b") (lit "a")).record P] =
      payload [(sayAt t (lit "b") x).record P, (sayAt t u rest).record P] := by
    rw [payload_pair, payload_pair]
    simp only [Add.record, sayAt, hts, ← hrest, hc, List.append_assoc, List.cons_append, List.nil_append]
  have hfit : (payload [(sayAt t (lit "b") c).record P, (sayAt t (lit "b") (lit "a")).record P]).length < maxLineLen := by
    rw [payload_pair]
    simp only [Add.record, sayAt, hts, hb, ha, List.length_append, List.length_cons, List.length_nil, maxLineLen]
    omega
  refine ⟨[sayAt t (lit "b") c, sayAt t (lit "b") (lit "a")], [sayAt t (lit "b") x, sayAt t u rest], ?_, ?_, ?_,
    ⟨(sayAt t (lit "b") c).record P, ?_, rfl⟩, ?_, ?_⟩
  · intro a ha
    rcases List.mem_pair.mp ha with rfl | rfl
    · exact hforged
    · exact hshort
  · intro a ha
    rcases List.mem_pair.mp ha with rfl | rfl
    · exact hbegun
    · exact hmade
  · rw [hrecords, hrecords']
    intro h
    have hcontent : c = x := congrArg Record.content (List.cons.inj h).1
    rw [hcontent] at hclen
    omega
  · rw [hrecords]
    exact List.mem_cons_self ..
  · rw [roomHistoryFormat_records _ _ hlineLen, hrecords, appendJoined_fits hfit]
  · have hfit' := hfit
    rw [hsame] at hfit'
    rw [roomHistoryFormat_records _ _ hlineLen, roomHistoryFormat_records _ _ hlineLen, hrecords, hrecords',
      appendJoined_fits hfit, appendJoined_fits hfit']
    exact congrArg (Prod.mk _) hsame

end

/-- **Histories are read back** unless a text in them is forging: two different
lists of entries that both fit have different payloads. And every forging text is
part of a history that has the payload of another one. -/
theorem histories_apart (P : Platform) :
    (∀ adds adds' : List Add, (∀ a ∈ adds, a.Said) → (∀ a ∈ adds', a.Said) → ∀ room room' buflen,
      let mgr := (roomHistoryAdds P roomManagerInit adds).2
      let mgr' := (roomHistoryAdds P roomManagerInit adds').2
      records mgr room ≠ records mgr' room' →
      (roomHistoryFormat mgr room buflen).1 = .ok → (roomHistoryFormat mgr' room' buflen).1 = .ok →
      (∀ r ∈ records mgr room ++ records mgr' room', ¬ Forging P r.content) →
        (roomHistoryFormat mgr room buflen).2 ≠ (roomHistoryFormat mgr' room' buflen).2) ∧
    ∀ content, 0 ∉ content → content.length ≤ maxMsgLen - 1 → Forging P content → ∃ adds adds' : List Add,
      (∀ a ∈ adds, a.Said) ∧ (∀ a ∈ adds', a.Said) ∧
      records (roomHistoryAdds P roomManagerInit adds).2 defaultRoom ≠
        records (roomHistoryAdds P roomManagerInit adds').2 defaultRoom ∧
      (∃ r ∈ records (roomHistoryAdds P roomManagerInit adds).2 defaultRoom, r.content = content) ∧
      (roomHistoryFormat (roomHistoryAdds P roomManagerInit adds).2 defaultRoom maxLineLen).1 = .ok ∧
      roomHistoryFormat (roomHistoryAdds P roomManagerInit adds).2 defaultRoom maxLineLen =
        roomHistoryFormat (roomHistoryAdds P roomManagerInit adds').2 defaultRoom maxLineLen := by
  refine ⟨?_, fun content h0 hl hf => forging_collides h0 hl hf⟩
  intro adds adds' hadds hadds' room room' buflen mgr mgr' hne hok hok' hplain he
  rw [roomHistoryFormat_payload hok, roomHistoryFormat_payload hok'] at he
  have hrs : ∀ r ∈ records mgr room, r.Storable P :=
    records_storable (allStorable_adds adds AllStorable.init hadds) room
  have hrs' : ∀ r ∈ records mgr' room', r.Storable P :=
    records_storable (allStorable_adds adds' AllStorable.init hadds') room'
  rcases payload_inj hrs hrs' he with heq | ⟨r, hr, hf⟩
  · exact hne heq
  · exact hplain r hr hf

theorem not_forging_of_short {P : Platform} {content : Bytes} (h : content.length ≤ 5) : ¬ Forging P content := by
  intro ⟨x, u, t, y, hc, hx, hu, _⟩
  have hlen := congrArg List.length hc
  have hbar : (lit "|").length = 1 := by decide
  have hbars : (lit "||").length = 2 := by decide
  have hxpos := List.length_pos_iff.mpr hx
  have hupos := List.length_pos_iff.mpr hu
  have htpos := List.length_pos_iff.mpr (formatTimestamp_ne_nil P.localtimeR t)
  simp only [List.length_append, hbar, hbars] at hlen
  omega

theorem said_by {u c : Bytes} (hu : u = lit "bob" ∨ u = lit "eve") (h0 : 0 ∉ c) (hc : c ≠ [])
    (hl : c.length ≤ maxMsgLen - 1) : (sayAt 0 u c).Said := by
  rcases hu with rfl | rfl
  · exact sayAt_said (by decide) (by decide) (by decide) (by decide) h0 hc hl
  · exact sayAt_said (by decide) (by decide) (by decide) (by decide) h0 hc hl

def saidTwice : List Add := [sayAt 0 (lit "bob") (lit "hi"), sayAt 0 (lit "eve") (lit "bye")]

def saidOnce : List Add := [sayAt 0 (lit "bob") (lit "hi||eve|unknown|bye")]

theorem saidTwice_said : ∀ a ∈ saidTwice, a.Said := by
  intro a ha
  rcases List.mem_pair.mp ha with rfl | rfl
  · exact said_by (Or.inl rfl) (by decide) (by decide) (by decide)
  · exact said_by (Or.inr rfl) (by decide) (by decide) (by decide)

theorem saidOnce_said : ∀ a ∈ saidOnce, a.Said := by
  intro a ha
  rw [List.mem_singleton.mp ha]
  exact said_by (Or.inl rfl) (by decide) (by decide) (by decide)

theorem histories_apart_hi :
    (roomHistoryFormat (roomHistoryAdds noZone roomManagerInit saidTwice).2 defaultRoom 64).2 ≠
      (roomHistoryFormat (roomHistoryAdds noZone roomManagerInit []).2 defaultRoom 64).2 ∧
    ∃ adds adds' : List Add, (∀ a ∈ adds, a.Said) ∧ (∀ a ∈ adds', a.Said) ∧
      records (roomHistoryAdds noZone roomManagerInit adds).2 defaultRoom ≠
        records (roomHistoryAdds noZone roomManagerInit adds').2 defaultRoom ∧
      (∃ r ∈ records (roomHistoryAdds noZone roomManagerInit adds).2 defaultRoom,
        r.content = lit "hi||eve|unknown|bye") ∧
      (roomHistoryFormat (roomHistoryAdds noZone roomManagerInit adds).2 defaultRoom maxLineLen).1 = .ok ∧
      roomHistoryFormat (roomHistoryAdds noZone roomManagerInit adds).2 defaultRoom maxLineLen =
        roomHistoryFormat (roomHistoryAdds noZone roomManagerInit adds').2 defaultRoom maxLineLen := by
  refine ⟨?_, ?_⟩
  · refine (histories_apart noZone).1 saidTwice [] saidTwice_said (fun a ha => absurd ha List.not_mem_nil) defaultRoom
      defaultRoom 64 (by decide +kernel) (by decide +kernel) (by decide +kernel) fun r hr => not_forging_of_short ?_
    have hshort : ∀ r ∈ records (roomHistoryAdds noZone roomManagerInit saidTwice).2 defaultRoom ++
        records (roomHistoryAdds noZone roomManagerInit []).2 defaultRoom, r.content.length ≤ 5 := by decide +kernel
    exact hshort r hr
  · exact (histories_apart noZone).2 _ (by decide) (by decide)
      ⟨lit "hi", lit "eve", 0, lit "|bye", by decide, by decide, by decide, by decide, by decide, Or.inr ⟨_, rfl⟩⟩

/-- One message of bob reads as a conversation with eve. -/
theorem history_forged : ¬ ∀ (P : Platform) (adds adds' : List Add), (∀ a ∈ adds, a.Said) → (∀ a ∈ adds', a.Said) →
    ∀ room buflen,
      records (roomHistoryAdds P roomManagerInit adds).2 room ≠ records (roomHistoryAdds P roomManagerInit adds').2 room →
      (roomHistoryFormat (roomHistoryAdds P roomManagerInit adds).2 room buflen).1 = .ok →
      (roomHistoryFormat (roomHistoryAdds P roomManagerInit adds').2 room buflen).1 = .ok →
        (roomHistoryFormat (roomHistoryAdds P roomManagerInit adds).2 room buflen).2 ≠
          (roomHistoryFormat (roomHistoryAdds P roomManagerInit adds').2 room buflen).2 := by
  intro h
  exact h noZone saidOnce saidTwice saidOnce_said saidTwice_said defaultRoom maxLineLen (by decide +kernel)
    (by decide +kernel) (by decide +kernel) (by decide +kernel)

end ChatServer

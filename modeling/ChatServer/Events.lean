import ChatServer.Queue
import ChatServer.RegistrySound

/-!
# Events from the handlers to the broadcaster

What the broadcaster reads in the event a handler pushed. Each field arrives
as it was exactly when its copy is terminated, by the padding of a shorter
string or by a NUL that the stack happened to hold behind a longest one.
-/

namespace ChatServer

open CStr

/-- The first byte that a copy of `n` bytes leaves as it was. -/
def Ends (field s : Bytes) (n : Nat) : Prop := s.length < n ∨ field[n]? = some 0

instance (field s : Bytes) (n : Nat) : Decidable (Ends field s n) := inferInstanceAs (Decidable (_ ∨ _))

theorem cstr_copy_iff {field s : Bytes} {n : Nat} (hf : field.length = n + 1) (h0 : 0 ∉ s) (hl : s.length ≤ n) :
    cstr (strncpy field s n) = s ↔ Ends field s n := by
  have hs := cstr_of_nulFree h0
  have h : cstr (strncpy field s n) = cstr s ↔ (cstr s).length < n ∨ cstr (field.drop n) = [] :=
    cstr_strncpy_eq_iff (by rwa [hs])
  rwa [hs, cstr_drop_nil_iff hf] at h

/-- The event `evt`, pushed on `q`, is handed out by `mq_pop` behind the events
before it, with these strings in its fields, and the room of a member of
`room` compares equal to its room. -/
def ReadBack (q : MessageQueue) (evt : MqMessage) (username room content : Bytes) : Prop :=
  ∃ msg, (mqPops (q.msgs.length + 1) (mqPush q true evt).2).getLast? = some msg ∧ msg.type = evt.type ∧
    cstr msg.username = username ∧ cstr msg.room = room ∧ cstr msg.content = content ∧
    ∀ cur : ClientNode, streq (cur.setRoom room).room msg.room = true

theorem readBack_iff {q : MessageQueue} (hq : q.shutdown = false) {evt : MqMessage} {username room content : Bytes}
    (hroom : room.length < maxRoomNameLen) :
    ReadBack q evt username room content ↔
      cstr evt.username = username ∧ cstr evt.room = room ∧ cstr evt.content = content := by
  unfold ReadBack
  rw [mqPops_push hq, List.getLast?_concat]
  constructor
  · rintro ⟨msg, hm, -, hu, hr, hc, -⟩
    cases hm
    exact ⟨hu, hr, hc⟩
  · rintro ⟨hu, hr, hc⟩
    refine ⟨evt, rfl, rfl, hu, hr, hc, fun cur => ?_⟩
    have h0 : 0 ∉ room := hr ▸ nul_not_mem_cstr evt.room
    simp only [maxRoomNameLen] at hroom
    have hset : cstr (cur.setRoom room).room = (cstr room).take 31 :=
      cstr_copyField (n := 31) (by rw [cur.room_length]; rfl) room
    rw [streq_iff, hr, hset, cstr_of_nulFree h0, List.take_of_length_le (by omega)]

/-- **Events reach the broadcaster unaltered** exactly when every copy is
terminated. -/
theorem events_read_back_iff {lu lr lm : Bytes} {cu cr cm : ParsedCmd} (hu : Accepts lu cu) (hcu : cu.cmd = .auth)
    (hr : Accepts lr cr) (hcr : cr.cmd = .joinRoom) (hm : Accepts lm cm) (hcm : cm.cmd = .msg)
    (evt : MqMessage) (now : Int) {q : MessageQueue} (hq : q.shutdown = false) :
    (ReadBack q (chatEvent evt (cstr cu.arg1) (cstr cr.arg1) (cstr cm.arg2) now) (cstr cu.arg1) (cstr cr.arg1)
        (cstr cm.arg2) ↔
      Ends evt.username (cstr cu.arg1) (maxUsernameLen - 1) ∧ Ends evt.room (cstr cr.arg1) (maxRoomNameLen - 1) ∧
        Ends evt.content (cstr cm.arg2) (maxMsgLen - 1)) ∧
    ∀ type, type = .join ∨ type = .leave →
      (ReadBack q (roomEvent evt type (cstr cu.arg1) (cstr cr.arg1) now) (cstr cu.arg1) (cstr cr.arg1) [] ↔
        Ends evt.username (cstr cu.arg1) (maxUsernameLen - 1) ∧ Ends evt.room (cstr cr.arg1) (maxRoomNameLen - 1)) := by
  have hul := (accepts_auth hu hcu).1.length_lt
  have hrl := (accepts_joinRoom hr hcr).length_lt
  have hml := (accepts_msg hm hcm).1.length_lt
  have hu' := cstr_copy_iff evt.username_length (nul_not_mem_cstr cu.arg1) (Nat.le_of_lt_succ hul)
  have hr' := cstr_copy_iff evt.room_length (nul_not_mem_cstr cr.arg1) (Nat.le_of_lt_succ hrl)
  have hm' := cstr_copy_iff evt.content_length (nul_not_mem_cstr cm.arg2) (Nat.le_of_lt_succ hml)
  constructor
  · rw [readBack_iff hq hrl]
    exact and_congr hu' (and_congr hr' hm')
  · intro type _
    have hempty : cstr (setNul evt.content 0) = [] := by
      rw [cstr_setNul (by rw [evt.content_length]; decide)]; rfl
    rw [readBack_iff hq hrl]
    exact and_congr hu' ((and_iff_left hempty).trans hr')

def filledEvent (c : UInt8) : MqMessage :=
  { type := .chat, username := List.replicate maxUsernameLen c, room := List.replicate maxRoomNameLen c,
    content := List.replicate maxMsgLen c, timestamp := 0, username_length := List.length_replicate,
    room_length := List.length_replicate, content_length := List.length_replicate }

theorem events_read_back_den :
    ReadBack mqInit (chatEvent (filledEvent 88) (cstr (parsedClient (lit "AUTH bob pw")).arg1)
      (cstr (parsedClient (lit "JOIN_ROOM den")).arg1) (cstr (parsedClient (lit "MSG hi all")).arg2) 0)
      (cstr (parsedClient (lit "AUTH bob pw")).arg1) (cstr (parsedClient (lit "JOIN_ROOM den")).arg1)
      (cstr (parsedClient (lit "MSG hi all")).arg2) :=
  (@events_read_back_iff (lit "AUTH bob pw") (lit "JOIN_ROOM den") (lit "MSG hi all") _ _ _ (by decide +kernel)
    (by decide +kernel) (by decide +kernel) (by decide +kernel) (by decide +kernel) (by decide +kernel)
    (filledEvent 88) 0 mqInit rfl).1.mpr (by decide +kernel)

/-- A room name of 31 bytes over a stack of other bytes: the event's room is
nobody's room. -/
theorem events_long_room :
    let line := lit "JOIN_ROOM abcdefghijklmnopqrstuvwxyz01234"
    let room := cstr (parsedClient line).arg1
    let evt := roomEvent (filledEvent 88) .join (lit "bob") room 0
    Accepts line (parsedClient line) ∧ (parsedClient line).cmd = .joinRoom ∧
      mqPop (mqPush mqInit true evt).2 = some (.ok, some evt, mqInit) ∧ cstr evt.room ≠ room ∧
      streq ((newNode (filledBlock 1 0) 5 (lit "bob") defaultRoom false).setRoom room).room evt.room = false := by
  decide +kernel

end ChatServer

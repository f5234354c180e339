import ChatServer.Auth
import ChatServer.RingBuffer

/-!
# Room histories

`room_manager.c`. A room is allocated by `calloc`, and no copy into an entry
reaches its last byte, so every field of an entry stays terminated; the
structures carry that.
-/

namespace ChatServer

open CStr

/-- An array of `n + 1` bytes whose last byte is NUL. -/
structure Terminated (n : Nat) where
  bytes : Bytes
  length_eq : bytes.length = n + 1
  last_eq : bytes[n]? = some 0
  deriving DecidableEq

namespace Terminated

def zeroed (n : Nat) : Terminated n :=
  { bytes := List.replicate (n + 1) 0, length_eq := List.length_replicate
    last_eq := by rw [List.getElem?_replicate]; simp }

theorem strncpy_length_eq {n : Nat} (field : Terminated n) (src : Bytes) : (strncpy field.bytes src n).length = n + 1 := by
  rw [strncpy_length (by rw [field.length_eq]; omega), field.length_eq]

theorem strncpy_last_eq {n : Nat} (field : Terminated n) (src : Bytes) : (strncpy field.bytes src n)[n]? = some 0 := by
  rw [← cstr_drop_nil_iff (field.strncpy_length_eq src), strncpy, List.drop_left' (by simp; omega),
    cstr_drop_nil_iff field.length_eq]
  exact field.last_eq

def copy {n : Nat} (field : Terminated n) (src : Bytes) : Terminated n :=
  { bytes := strncpy field.bytes src n, length_eq := field.strncpy_length_eq src, last_eq := field.strncpy_last_eq src }

theorem cstr_copy {n : Nat} (field : Terminated n) {src : Bytes} (h0 : 0 ∉ src) (hl : src.length ≤ n) :
    cstr (field.copy src).bytes = src := by
  have hs := cstr_of_nulFree h0
  rw [copy, cstr_strncpy_of_le (by rwa [hs]) (Or.inr ((cstr_drop_nil_iff field.length_eq).mpr field.last_eq)), hs]

end Terminated

structure HistoryEntry where
  username : Terminated (maxUsernameLen - 1)
  content : Terminated (maxMsgLen - 1)
  timestamp : Bytes
  deriving DecidableEq

structure RoomNode where
  name : Terminated (maxRoomNameLen - 1)
  history : RingBuffer HistoryEntry maxRoomHistory

structure RoomManager where
  rooms : List RoomNode
  roomCount : Nat

def HistoryEntry.zeroed : HistoryEntry := { username := .zeroed _, content := .zeroed _, timestamp := [] }

def newRoom (name : Bytes) : RoomNode :=
  { name := (Terminated.zeroed _).copy name, history := RingBuffer.replicate maxRoomHistory .zeroed (by decide) }

def RoomNode.named (rn : RoomNode) (name : Bytes) : Bool := streq rn.name.bytes name

/-- `room_find_or_create`: the position of the room in the list; `mem` says
whether `calloc` returned a block. -/
def roomFindOrCreate (mgr : RoomManager) (mem : Bool) (name : Bytes) : Option (Nat × RoomManager) :=
  match mgr.rooms.findIdx? fun cur => cur.named name with
  | some i => some (i, mgr)
  | none =>
    if mgr.roomCount ≥ maxRooms then none
    else if !mem then none
    else some (0, { rooms := newRoom name :: mgr.rooms, roomCount := mgr.roomCount + 1 })

def roomManagerInit : RoomManager := { rooms := [newRoom defaultRoom], roomCount := 1 }

/-- The entry of `room_history_add`, written over what the slot held. -/
def fillEntry (P : Platform) (username content : Bytes) (ts : Int) (entry : HistoryEntry) : HistoryEntry :=
  { username := entry.username.copy username, content := entry.content.copy content,
    timestamp := formatTimestamp P.localtimeR ts }

def roomHistoryAdd (P : Platform) (mgr : RoomManager) (mem : Bool) (room username content : Bytes) (ts : Int) :
    ChatStatus × RoomManager :=
  match roomFindOrCreate mgr mem room with
  | none => (.errFull, mgr)
  | some (i, mgr) =>
    (.ok, { mgr with rooms := mgr.rooms.modify i fun rn =>
      { rn with history := rn.history.push (fillEntry P username content ts) } })

def formatEntry (username timestamp content : Bytes) : Bytes :=
  username ++ lit "|" ++ timestamp ++ lit "|" ++ content

def HistoryEntry.format (e : HistoryEntry) : Bytes :=
  formatEntry (cstr e.username.bytes) e.timestamp (cstr e.content.bytes)

def roomHistoryFormat (mgr : RoomManager) (room : Bytes) (buflen : Nat) : ChatStatus × Bytes :=
  if buflen = 0 then (.err, [])
  else
    match mgr.rooms.find? fun cur => cur.named room with
    | none => (.ok, [])
    | some cur => appendJoined buflen (lit "||") (cur.history.toList.map HistoryEntry.format) [] true

end ChatServer

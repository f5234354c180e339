import Mathlib.Data.List.TakeWhile
import ChatServer.RoomsSound

/-!
# The client's display of a history

`print_history_payload`. The delimiters of `strtok_r` are a set of bytes, so
the outer tokenizer cuts at every single `|` already, and the inner one never
finds three fields.
-/

namespace ChatServer

open CStr

def colour (enabled : Bool) (code : Bytes) : Bytes := if enabled then 27 :: 91 :: code ++ lit "m" else []

def historyLine (colors : Bool) (ts user msg : Bytes) : Bytes :=
  colour colors (lit "36") ++ lit "[history " ++ ts ++ lit "] " ++ colour colors (lit "1") ++ user ++
    colour colors (lit "0") ++ lit ": " ++ msg ++ lit "\n"

def prompt : Bytes := lit "> "

def noHistory (colors : Bool) : Bytes :=
  colour colors (lit "33") ++ lit "(no history)" ++ colour colors (lit "0") ++ lit "\n> "

def printEntry (colors : Bool) (entry : Bytes) : List Bytes :=
  match strtokR entry (lit "|") with
  | none => []
  | some (tok, s2) =>
    let user := tok.take (maxUsernameLen - 1)
    match strtokR s2 (lit "|") with
    | none => []
    | some (tok, s2) =>
      let ts := tok.take (timestampLen - 1)
      match strtokR s2 (lit "|") with
      | none => []
      | some (msg, _) => [historyLine colors ts user msg]

/-- The outer loop; every round consumes a byte, so the length is fuel enough. -/
def printEntries (colors : Bool) : Nat → Bytes → List Bytes
  | 0, _ => []
  | fuel + 1, save =>
    match strtokR save (lit "||") with
    | none => []
    | some (entry, save) => printEntry colors entry ++ printEntries colors fuel save

/-- The texts passed to `client_print`, in order. -/
def printHistoryPayload (colors : Bool) (payload : Bytes) : List Bytes :=
  if payload = [] then [noHistory colors]
  else
    let buf := payload.take (maxLineLen - 1)
    printEntries colors buf.length buf ++ [prompt]

def HistoryShown (colors : Bool) (entries : List HistoryEntry) (output : List Bytes) : Prop :=
  output = entries.map (fun e => historyLine colors e.timestamp (cstr e.username.bytes) (cstr e.content.bytes)) ++ [prompt]

/-! ## Tokens -/

theorem strtokR_token {s delims tok save : Bytes} (h : strtokR s delims = some (tok, save)) :
    ∀ c ∈ tok, c ∉ delims := by
  unfold strtokR at h
  split at h
  · cases h
  · rename_i c t _
    obtain ⟨rfl, -⟩ := Prod.mk.inj (Option.some.inj h)
    intro d hd
    simpa using List.mem_takeWhile_imp hd

theorem strtokR_whole {s delims tok save : Bytes} (hs : ∀ c ∈ s, c ∉ delims) (h : strtokR s delims = some (tok, save)) :
    save = [] := by
  unfold strtokR at h
  split at h
  · cases h
  · rename_i c t hct
    obtain ⟨-, rfl⟩ := Prod.mk.inj (Option.some.inj h)
    have hsub : ∀ d ∈ c :: t, d ∈ s := fun d hd => (List.dropWhile_suffix _).subset (hct ▸ hd)
    rw [List.dropWhile_eq_nil_iff.mpr, List.drop_nil]
    intro d hd
    simpa using hs d (hsub d hd)

theorem printEntry_token (colors : Bool) {entry : Bytes} (h : ∀ c ∈ entry, c ∉ lit "|") : printEntry colors entry = [] := by
  unfold printEntry
  split
  · rfl
  · rename_i tok s2 htok
    rw [strtokR_whole h htok]
    rfl

theorem printEntries_eq_nil (colors : Bool) : ∀ (fuel : Nat) (save : Bytes), printEntries colors fuel save = []
  | 0, _ => rfl
  | fuel + 1, save => by
    unfold printEntries
    split
    · rfl
    · rename_i entry save' htok
      rw [printEntries_eq_nil colors fuel save', List.append_nil]
      refine printEntry_token colors fun c hc hbar => strtokR_token htok c hc ?_
      simpa [lit] using hbar

theorem printHistoryPayload_eq (colors : Bool) (payload : Bytes) :
    printHistoryPayload colors payload = [if payload = [] then noHistory colors else prompt] := by
  unfold printHistoryPayload
  split
  · rfl
  · simp only [printEntries_eq_nil, List.nil_append]

def historyOf (mgr : RoomManager) (room : Bytes) : List HistoryEntry :=
  match mgr.rooms.find? fun cur => cur.named room with
  | none => []
  | some cur => cur.history.toList

/-- **No history is ever shown**: whatever the entries are, the payload that
`room_history_format` makes of them prints no history line. -/
theorem history_never_shown (colors : Bool) {mgr : RoomManager} {room : Bytes} (hne : historyOf mgr room ≠ []) :
    ¬ HistoryShown colors (historyOf mgr room)
      (printHistoryPayload colors (roomHistoryFormat mgr room maxLineLen).2) := by
  intro h
  have hlen := congrArg List.length h
  rw [printHistoryPayload_eq, List.length_singleton, List.length_append, List.length_map, List.length_singleton] at hlen
  exact hne (List.length_eq_zero_iff.mp (by omega))

def lobbyHi : RoomManager := (roomHistoryAdd noZone roomManagerInit true defaultRoom (lit "bob") (lit "hi") 0).2

theorem history_never_shown_hi : ¬ HistoryShown true (historyOf lobbyHi defaultRoom)
    (printHistoryPayload true (roomHistoryFormat lobbyHi defaultRoom maxLineLen).2) :=
  history_never_shown true (by decide +kernel)

theorem history_hi_not_shown :
    roomHistoryFormat lobbyHi defaultRoom maxLineLen = (.ok, lit "bob|unknown|hi") ∧
    (historyOf lobbyHi defaultRoom).map HistoryEntry.format = [lit "bob|unknown|hi"] ∧
    printHistoryPayload false (lit "bob|unknown|hi") = [lit "> "] ∧
    [lit "> "] ≠ (historyOf lobbyHi defaultRoom).map
      (fun e => historyLine false e.timestamp (cstr e.username.bytes) (cstr e.content.bytes)) ++ [prompt] := by
  decide +kernel

end ChatServer

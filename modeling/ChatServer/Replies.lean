import Mathlib.Data.List.DropRight
import ChatServer.FramingSound

/-!
# The responses that arrive

The other direction of the wire: the eleven lines a server builds come back
from `client_recv_line` and `protocol_parse_server_line`, and a line that was
parsed into fields alone is built again from them.
-/

namespace ChatServer

open CStr

/-- A response as the server builds it. -/
inductive ServerLine where
  | ok (msg : Bytes)
  | err (msg : Bytes)
  | welcome (username : Bytes)
  | broadcast (username timestamp room message : Bytes)
  | pm (fromUser timestamp message : Bytes)
  | userJoin (username room : Bytes)
  | userLeft (username room : Bytes)
  | roomJoined (room : Bytes)
  | history (payload : Bytes)
  | kicked (reason : Bytes)
  | list (userList : Bytes)
  deriving DecidableEq

/-- The strings in the fields of a parsed response. -/
def ParsedResp.strings (r : ParsedResp) : ParsedResp :=
  { type := r.type, username := cstr r.username, room := cstr r.room, message := cstr r.message,
    timestamp := cstr r.timestamp, userList := cstr r.userList, historyPayload := cstr r.historyPayload,
    fromUser := cstr r.fromUser }

def ParsedResp.empty (type : ServerResp) : ParsedResp :=
  { type := type, username := [], room := [], message := [], timestamp := [], userList := [], historyPayload := [],
    fromUser := [] }

namespace ServerLine

def build (buflen : Nat) : ServerLine → ChatStatus × Bytes
  | .ok msg => protocolBuildServerOk buflen msg
  | .err msg => protocolBuildServerErr buflen msg
  | .welcome username => protocolBuildServerWelcome buflen username
  | .broadcast username timestamp room message => protocolBuildServerBroadcast buflen username timestamp room message
  | .pm fromUser timestamp message => protocolBuildServerPm buflen fromUser timestamp message
  | .userJoin username room => protocolBuildServerUserJoin buflen username room
  | .userLeft username room => protocolBuildServerUserLeft buflen username room
  | .roomJoined room => protocolBuildServerRoomJoined buflen room
  | .history payload => protocolBuildServerHistory buflen payload
  | .kicked reason => protocolBuildServerKicked buflen reason
  | .list userList => protocolBuildServerList buflen userList

/-- What stands for a response after parsing; the fields it does not use are empty. -/
def fields : ServerLine → ParsedResp
  | .ok msg => { ParsedResp.empty .ok with message := msg }
  | .err msg => { ParsedResp.empty .err with message := msg }
  | .welcome username => { ParsedResp.empty .welcome with username := username }
  | .broadcast username timestamp room message =>
    { ParsedResp.empty .broadcast with username := username, timestamp := timestamp, room := room, message := message }
  | .pm fromUser timestamp message =>
    { ParsedResp.empty .pm with fromUser := fromUser, timestamp := timestamp, message := message }
  | .userJoin username room => { ParsedResp.empty .userJoin with username := username, room := room }
  | .userLeft username room => { ParsedResp.empty .userLeft with username := username, room := room }
  | .roomJoined room => { ParsedResp.empty .roomJoined with room := room }
  | .history payload => { ParsedResp.empty .history with historyPayload := payload }
  | .kicked reason => { ParsedResp.empty .kicked with message := reason }
  | .list userList => { ParsedResp.empty .list with userList := userList }

end ServerLine

/-- A field that the parser takes up to the next blank. -/
structure Word (n : Nat) (s : Bytes) : Prop extends Field n s, Plain s where
  noSp : sp ∉ s

/-- The last field of a line, of fewer than `n` bytes. -/
structure Tail (n : Nat) (s : Bytes) : Prop extends Last s where
  length_lt : s.length < n

namespace ServerLine

def Valid : ServerLine → Prop
  | .ok msg | .err msg | .kicked msg | .list msg => Tail maxMsgLen msg
  | .welcome username => Word maxUsernameLen username ∧ Last username
  | .broadcast username timestamp room message =>
    Word maxUsernameLen username ∧ Word timestampLen timestamp ∧ Word maxRoomNameLen room ∧ message ≠ [] ∧
      Tail maxMsgLen message
  | .pm fromUser timestamp message =>
    Word maxUsernameLen fromUser ∧ Word timestampLen timestamp ∧ message ≠ [] ∧ Tail maxMsgLen message
  | .userJoin username room | .userLeft username room =>
    Word maxUsernameLen username ∧ room ≠ [] ∧ Tail maxRoomNameLen room
  | .roomJoined room => room ≠ [] ∧ Tail maxRoomNameLen room
  | .history payload => Tail 2039 payload

/-- The word that a line begins with. -/
def word : ServerLine → Bytes
  | .ok _ => lit "OK"
  | .err _ => lit "ERR"
  | .welcome _ => lit "WELCOME"
  | .broadcast .. => lit "BROADCAST"
  | .pm .. => lit "PM"
  | .userJoin .. => lit "USER_JOIN"
  | .userLeft .. => lit "USER_LEFT"
  | .roomJoined _ => lit "ROOM_JOINED"
  | .history _ => lit "HISTORY"
  | .kicked _ => lit "KICKED"
  | .list _ => lit "LIST"

/-- What stands behind the word. -/
def rest : ServerLine → Bytes
  | .ok msg | .err msg | .kicked msg | .list msg => msg
  | .welcome username => username
  | .broadcast username timestamp room message => username ++ sp :: (timestamp ++ sp :: (room ++ sp :: message))
  | .pm fromUser timestamp message => fromUser ++ sp :: (timestamp ++ sp :: message)
  | .userJoin username room | .userLeft username room => username ++ sp :: room
  | .roomJoined room => room
  | .history payload => payload

theorem build_eq (n : Nat) (r : ServerLine) : r.build n = buildLine n (r.word ++ sp :: r.rest ++ [lf]) := by
  have hsp : lit " " = [sp] := by decide
  have hlf : lit "\n" = [lf] := by decide
  cases r with
  | ok m =>
    simp only [build, protocolBuildServerOk, word, rest, show lit "OK " = lit "OK" ++ [sp] by decide, hlf,
      List.append_assoc, List.nil_append, List.cons_append]
  | err m =>
    simp only [build, protocolBuildServerErr, word, rest, show lit "ERR " = lit "ERR" ++ [sp] by decide, hlf,
      List.append_assoc, List.nil_append, List.cons_append]
  | welcome u =>
    simp only [build, protocolBuildServerWelcome, word, rest, show lit "WELCOME " = lit "WELCOME" ++ [sp] by decide, hlf,
      List.append_assoc, List.nil_append, List.cons_append]
  | broadcast u t r m =>
    simp only [build, protocolBuildServerBroadcast, word, rest,
      show lit "BROADCAST " = lit "BROADCAST" ++ [sp] by decide, hsp, hlf, List.append_assoc, List.nil_append,
      List.cons_append]
  | pm u t m =>
    simp only [build, protocolBuildServerPm, word, rest, show lit "PM " = lit "PM" ++ [sp] by decide, hsp, hlf,
      List.append_assoc, List.nil_append, List.cons_append]
  | userJoin u r =>
    simp only [build, protocolBuildServerUserJoin, word, rest,
      show lit "USER_JOIN " = lit "USER_JOIN" ++ [sp] by decide, hsp, hlf, List.append_assoc, List.nil_append,
      List.cons_append]
  | userLeft u r =>
    simp only [build, protocolBuildServerUserLeft, word, rest,
      show lit "USER_LEFT " = lit "USER_LEFT" ++ [sp] by decide, hsp, hlf, List.append_assoc, List.nil_append,
      List.cons_append]
  | roomJoined r =>
    simp only [build, protocolBuildServerRoomJoined, word, rest,
      show lit "ROOM_JOINED " = lit "ROOM_JOINED" ++ [sp] by decide, hlf, List.append_assoc, List.nil_append,
      List.cons_append]
  | history p =>
    simp only [build, protocolBuildServerHistory, word, rest, show lit "HISTORY " = lit "HISTORY" ++ [sp] by decide, hlf,
      List.append_assoc, List.nil_append, List.cons_append]
  | kicked m =>
    simp only [build, protocolBuildServerKicked, word, rest, show lit "KICKED " = lit "KICKED" ++ [sp] by decide, hlf,
      List.append_assoc, List.nil_append, List.cons_append]
  | list m =>
    simp only [build, protocolBuildServerList, word, rest, show lit "LIST " = lit "LIST" ++ [sp] by decide, hlf,
      List.append_assoc, List.nil_append, List.cons_append]

theorem word_plain (r : ServerLine) : Plain r.word ∧ sp ∉ r.word ∧ r.word.length < 12 := by
  have h : 0 ∉ r.word ∧ lf ∉ r.word ∧ sp ∉ r.word ∧ r.word.length < 12 := by
    cases r <;> simp only [word] <;> decide
  exact ⟨⟨h.1, h.2.1⟩, h.2.2⟩

/-- The last field of the line, with the blank before it. -/
theorem rest_last {r : ServerLine} (h : r.Valid) : ∃ s t, r.word ++ sp :: r.rest = s ++ sp :: t ∧ Last t ∧ Plain r.rest := by
  cases r with
  | ok m | err m | kicked m | list m | history m => exact ⟨_, m, rfl, h.toLast, h.toPlain⟩
  | welcome u => exact ⟨_, u, rfl, h.2, h.2.toPlain⟩
  | broadcast u t r m =>
    refine ⟨lit "BROADCAST" ++ sp :: (u ++ sp :: (t ++ sp :: r)), m, ?_, h.2.2.2.2.toLast, ?_⟩
    · simp only [word, rest, List.append_assoc, List.cons_append]
    · exact h.1.toPlain.join (h.2.1.toPlain.join (h.2.2.1.toPlain.join h.2.2.2.2.toPlain))
  | pm u t m =>
    refine ⟨lit "PM" ++ sp :: (u ++ sp :: t), m, ?_, h.2.2.2.toLast, ?_⟩
    · simp only [word, rest, List.append_assoc, List.cons_append]
    · exact h.1.toPlain.join (h.2.1.toPlain.join h.2.2.2.toPlain)
  | userJoin u r =>
    refine ⟨lit "USER_JOIN" ++ sp :: u, r, ?_, h.2.2.toLast, h.1.toPlain.join h.2.2.toPlain⟩
    simp only [word, rest, List.append_assoc, List.cons_append]
  | userLeft u r =>
    refine ⟨lit "USER_LEFT" ++ sp :: u, r, ?_, h.2.2.toLast, h.1.toPlain.join h.2.2.toPlain⟩
    simp only [word, rest, List.append_assoc, List.cons_append]
  | roomJoined r => exact ⟨_, r, rfl, h.2.toLast, h.2.toPlain⟩

theorem rest_length {r : ServerLine} (h : r.Valid) : r.word.length + r.rest.length ≤ 2045 := by
  obtain ⟨-, -, hw⟩ := word_plain r
  cases r with
  | ok m | err m | kicked m | list m =>
    have hm := h.length_lt
    rw [maxMsgLen] at hm
    simp only [rest]
    omega
  | welcome u =>
    have hu := h.1.length_lt
    rw [maxUsernameLen] at hu
    simp only [rest]
    omega
  | broadcast u t r m =>
    have hu := h.1.length_lt
    have ht := h.2.1.length_lt
    have hr := h.2.2.1.length_lt
    have hm := h.2.2.2.2.length_lt
    simp only [maxUsernameLen, timestampLen, maxRoomNameLen, maxMsgLen] at hu ht hr hm
    simp only [rest, List.length_append, List.length_cons]
    omega
  | pm u t m =>
    have hu := h.1.length_lt
    have ht := h.2.1.length_lt
    have hm := h.2.2.2.length_lt
    simp only [maxUsernameLen, timestampLen, maxMsgLen] at hu ht hm
    simp only [rest, List.length_append, List.length_cons]
    omega
  | userJoin u r | userLeft u r =>
    have hu := h.1.length_lt
    have hr := h.2.2.length_lt
    simp only [maxUsernameLen, maxRoomNameLen] at hu hr
    simp only [rest, List.length_append, List.length_cons]
    omega
  | roomJoined r =>
    have hr := h.2.length_lt
    rw [maxRoomNameLen] at hr
    simp only [rest]
    omega
  | history p =>
    have hp := h.length_lt
    simp only [rest, word, show (lit "HISTORY").length = 7 by decide]
    omega

/-- The line without its newline. -/
def text (r : ServerLine) : Bytes := r.word ++ sp :: r.rest

theorem text_wholeLine {r : ServerLine} (h : r.Valid) : WholeLine r.text := by
  obtain ⟨-, -, -, -, hp⟩ := rest_last h
  have hj := (word_plain r).1.join hp
  have hlen := rest_length h
  refine ⟨hj.noNul, hj.noLf, ?_⟩
  rw [text, List.length_append, List.length_cons, maxLineLen]
  omega

theorem text_trimmed {r : ServerLine} (h : r.Valid) : trimNewline r.text = r.text := by
  obtain ⟨s, t, he, ht, -⟩ := rest_last h
  rw [text, he, trimNewline_last ht]

theorem parse_text {r : ServerLine} (h : r.Valid) :
    protocolParseServerLine r.text = parseServerArgs r.word r.rest .zeroed := by
  have hlen := (text_wholeLine h).length_lt
  obtain ⟨-, hsp, hl⟩ := word_plain r
  rw [protocolParseServerLine, List.take_of_length_le (by omega), text_trimmed h, text,
    splitFirstToken_append hsp (by omega)]

end ServerLine

/-! ## The response parser -/

theorem parseTwoFields_append (f2 : Bytes) {u r f1 : Bytes} {n1 n2 : Nat} (l1 : f1.length = n1) (hu : Word n1 u) (hne : r ≠ [])
    (hr : r.length < n2) :
    ∃ g, parseTwoFields (u ++ sp :: r) f1 n1 f2 n2 = (.ok, g, strncpy f2 r (n2 - 1)) ∧ cstr g = u := by
  obtain ⟨g, e, c⟩ := takeField_append l1 hu.noNul hu.noSp hu.ne_nil hu.length_lt r
  refine ⟨g, ?_, c⟩
  simp only [parseTwoFields, strchr_append hu.noSp, e]
  rw [if_pos (restFits_iff.mpr ⟨hne, hr⟩)]

theorem parseThreeFields_append (f3 : Bytes) {u t m f1 f2 : Bytes} {n1 n2 n3 : Nat} (l1 : f1.length = n1) (l2 : f2.length = n2)
    (hu : Word n1 u) (ht : Word n2 t) (hne : m ≠ []) (hm : m.length < n3) :
    ∃ g1 g2, parseThreeFieldsMsg (u ++ sp :: (t ++ sp :: m)) f1 n1 f2 n2 f3 n3 =
      (.ok, g1, g2, strncpy f3 m (n3 - 1)) ∧ cstr g1 = u ∧ cstr g2 = t := by
  obtain ⟨g1, e1, c1⟩ := takeField_append l1 hu.noNul hu.noSp hu.ne_nil hu.length_lt (t ++ sp :: m)
  obtain ⟨g2, e2, c2⟩ := takeField_append l2 ht.noNul ht.noSp ht.ne_nil ht.length_lt m
  refine ⟨g1, g2, ?_, c1, c2⟩
  simp only [parseThreeFieldsMsg, e1, e2]
  rw [if_pos (restFits_iff.mpr ⟨hne, hm⟩)]

theorem parseServerArgs_complete {r : ServerLine} (h : r.Valid) :
    ∃ out, parseServerArgs r.word r.rest .zeroed = (.ok, out) ∧ out.strings = r.fields := by
  have z : ∀ n, cstr (zeros n) = [] := fun n => cstr_replicate_nul n
  have last : ∀ {s : Bytes} {n : Nat}, Tail n s → ∀ k, cstr (strncpy (zeros k) s (n - 1)) = s := by
    intro s n hs k
    exact cstr_strncpy_zeros hs.noNul (by have := hs.length_lt; omega) k
  cases r with
  | ok m =>
    refine ⟨{ ParsedResp.zeroed with type := .ok, message := strncpy (zeros maxMsgLen) m (maxMsgLen - 1) }, ?_, ?_⟩
    · simp +decide only [parseServerArgs, ServerLine.word, ServerLine.rest, ite_true, ite_false, ParsedResp.zeroed]
    · simp only [ParsedResp.strings, ParsedResp.zeroed, z, last h, ServerLine.fields, ParsedResp.empty]
  | err m =>
    refine ⟨{ ParsedResp.zeroed with type := .err, message := strncpy (zeros maxMsgLen) m (maxMsgLen - 1) }, ?_, ?_⟩
    · simp +decide only [parseServerArgs, ServerLine.word, ServerLine.rest, ite_true, ite_false, ParsedResp.zeroed]
    · simp only [ParsedResp.strings, ParsedResp.zeroed, z, last h, ServerLine.fields, ParsedResp.empty]
  | welcome u =>
    refine ⟨{ ParsedResp.zeroed with type := .welcome, username := strncpy (zeros maxUsernameLen) u (maxUsernameLen - 1) }, ?_, ?_⟩
    · simp +decide only [parseServerArgs, ServerLine.word, ServerLine.rest, ite_true, ite_false, ParsedResp.zeroed]
    · simp only [ParsedResp.strings, ParsedResp.zeroed, z, last ⟨h.2, h.1.length_lt⟩, ServerLine.fields, ParsedResp.empty]
  | broadcast u t r m =>
    obtain ⟨hu, ht, hr, hne, hm⟩ := h
    obtain ⟨g1, g2, g3, g4, e, c1, c2, c3, c4⟩ := parseFourFields_append (zeros_length maxUsernameLen)
      (zeros_length timestampLen) (zeros_length maxRoomNameLen) (zeros_length maxMsgLen)
      ⟨hu.ne_nil, hu.length_lt, hu.noSp, hu.noNul⟩ ⟨ht.ne_nil, ht.length_lt, ht.noSp, ht.noNul⟩
      ⟨hr.ne_nil, hr.length_lt, hr.noSp, hr.noNul⟩ ⟨hne, hm.length_lt, hm.noNul⟩
    refine ⟨{ ParsedResp.zeroed with type := .broadcast, username := g1, timestamp := g2, room := g3, message := g4 },
      ?_, ?_⟩
    · simp +decide only [parseServerArgs, ServerLine.word, ServerLine.rest, ite_true, ite_false, ParsedResp.zeroed, e]
    · simp only [ParsedResp.strings, ParsedResp.zeroed, z, c1, c2, c3, c4, ServerLine.fields, ParsedResp.empty]
  | pm u t m =>
    obtain ⟨hu, ht, hne, hm⟩ := h
    obtain ⟨g1, g2, e, c1, c2⟩ := parseThreeFields_append (zeros maxMsgLen) (zeros_length maxUsernameLen)
      (zeros_length timestampLen) hu ht hne hm.length_lt
    refine ⟨{ ParsedResp.zeroed with
      type := .pm, fromUser := g1, timestamp := g2, message := strncpy (zeros maxMsgLen) m (maxMsgLen - 1) }, ?_, ?_⟩
    · simp +decide only [parseServerArgs, ServerLine.word, ServerLine.rest, ite_true, ite_false, ParsedResp.zeroed, e]
    · simp only [ParsedResp.strings, ParsedResp.zeroed, z, c1, c2, last hm, ServerLine.fields, ParsedResp.empty]
  | userJoin u r =>
    obtain ⟨hu, hne, hr⟩ := h
    obtain ⟨g, e, c⟩ := parseTwoFields_append (zeros maxRoomNameLen) (zeros_length maxUsernameLen) hu hne
      hr.length_lt
    refine ⟨{ ParsedResp.zeroed with
      type := .userJoin, username := g, room := strncpy (zeros maxRoomNameLen) r (maxRoomNameLen - 1) }, ?_, ?_⟩
    · simp +decide only [parseServerArgs, ServerLine.word, ServerLine.rest, ite_true, ite_false, ParsedResp.zeroed, e]
    · simp only [ParsedResp.strings, ParsedResp.zeroed, z, c, last hr, ServerLine.fields, ParsedResp.empty]
  | userLeft u r =>
    obtain ⟨hu, hne, hr⟩ := h
    obtain ⟨g, e, c⟩ := parseTwoFields_append (zeros maxRoomNameLen) (zeros_length maxUsernameLen) hu hne
      hr.length_lt
    refine ⟨{ ParsedResp.zeroed with
      type := .userLeft, username := g, room := strncpy (zeros maxRoomNameLen) r (maxRoomNameLen - 1) }, ?_, ?_⟩
    · simp +decide only [parseServerArgs, ServerLine.word, ServerLine.rest, ite_true, ite_false, ParsedResp.zeroed, e]
    · simp only [ParsedResp.strings, ParsedResp.zeroed, z, c, last hr, ServerLine.fields, ParsedResp.empty]
  | roomJoined r =>
    refine ⟨{ ParsedResp.zeroed with type := .roomJoined, room := strncpy (zeros maxRoomNameLen) r (maxRoomNameLen - 1) }, ?_, ?_⟩
    · simp +decide only [parseServerArgs, ServerLine.word, ServerLine.rest, ite_true, ite_false, ParsedResp.zeroed]
    · simp only [ParsedResp.strings, ParsedResp.zeroed, z, last h.2, ServerLine.fields, ParsedResp.empty]
  | history p =>
    have hp : Tail maxLineLen p := ⟨h.toLast, by have := h.length_lt; rw [maxLineLen]; omega⟩
    refine ⟨{ ParsedResp.zeroed with type := .history, historyPayload := strncpy (zeros maxLineLen) p (maxLineLen - 1) }, ?_, ?_⟩
    · simp +decide only [parseServerArgs, ServerLine.word, ServerLine.rest, ite_true, ite_false, ParsedResp.zeroed]
    · simp only [ParsedResp.strings, ParsedResp.zeroed, z, last hp, ServerLine.fields, ParsedResp.empty]
  | kicked m =>
    refine ⟨{ ParsedResp.zeroed with type := .kicked, message := strncpy (zeros maxMsgLen) m (maxMsgLen - 1) }, ?_, ?_⟩
    · simp +decide only [parseServerArgs, ServerLine.word, ServerLine.rest, ite_true, ite_false, ParsedResp.zeroed]
    · simp only [ParsedResp.strings, ParsedResp.zeroed, z, last h, ServerLine.fields, ParsedResp.empty]
  | list m =>
    refine ⟨{ ParsedResp.zeroed with type := .list, userList := strncpy (zeros maxMsgLen) m (maxMsgLen - 1) }, ?_, ?_⟩
    · simp +decide only [parseServerArgs, ServerLine.word, ServerLine.rest, ite_true, ite_false, ParsedResp.zeroed]
    · simp only [ParsedResp.strings, ParsedResp.zeroed, z, last h, ServerLine.fields, ParsedResp.empty]

/-! ## Lines built again -/

theorem restFits_cstr {rest dst : Bytes} {n m : Nat} (h0 : 0 ∉ rest) (hf : restFits rest n = true)
    (hd : dst = strncpy (zeros m) rest (n - 1)) : cstr dst = rest ∧ rest.length < n := by
  have hl := (restFits_iff.mp hf).2
  rw [hd, cstr_strncpy_zeros h0 (by omega)]
  exact ⟨rfl, hl⟩

theorem parseFourFields_inv {rest f1 f2 f3 g1 g2 g3 g4 : Bytes} {n1 n2 n3 n4 m : Nat} (h0 : 0 ∉ rest)
    (l1 : f1.length = n1) (l2 : f2.length = n2) (l3 : f3.length = n3) (hm : n4 = m + 1)
    (h : parseFourFieldsRestMsg rest f1 n1 f2 n2 f3 n3 (zeros n4) n4 = (.ok, g1, g2, g3, g4)) :
    rest = cstr g1 ++ sp :: (cstr g2 ++ sp :: (cstr g3 ++ sp :: cstr g4)) ∧ (cstr g1).length < n1 ∧
      (cstr g2).length < n2 ∧ (cstr g3).length < n3 ∧ (cstr g4).length < n4 := by
  unfold parseFourFieldsRestMsg at h
  split at h
  · cases h
  · rename_i f1' rest1 e1
    obtain ⟨s1, -, -, h1⟩ := takeField_inv l1 h0 e1
    have z1 : 0 ∉ rest1 := fun hm => h0 (by rw [s1]; simp [hm])
    split at h
    · cases h
    · rename_i f2' rest2 e2
      obtain ⟨s2, -, -, h2⟩ := takeField_inv l2 z1 e2
      have z2 : 0 ∉ rest2 := fun hm => z1 (by rw [s2]; simp [hm])
      split at h
      · cases h
      · rename_i f3' msg e3
        obtain ⟨s3, -, -, h3⟩ := takeField_inv l3 z2 e3
        have z3 : 0 ∉ msg := fun hm => z2 (by rw [s3]; simp [hm])
        split at h
        · rename_i hfit
          cases h
          have hl := (restFits_iff.mp hfit).2
          have hc : cstr (setNul (strncpy (zeros n4) msg (n4 - 1)) (n4 - 1)) = msg := by
            rw [cstr_setNul_strncpy (by rw [zeros_length]; omega), cstr_of_nulFree z3, List.take_of_length_le (by omega)]
          refine ⟨?_, h1, h2, h3, by rw [hc]; exact hl⟩
          rw [hc, ← s3, ← s2, ← s1]
        · cases h

theorem parseThreeFields_inv {rest f1 f2 g1 g2 g3 : Bytes} {n1 n2 n3 : Nat} (h0 : 0 ∉ rest)
    (l1 : f1.length = n1) (l2 : f2.length = n2)
    (h : parseThreeFieldsMsg rest f1 n1 f2 n2 (zeros n3) n3 = (.ok, g1, g2, g3)) :
    rest = cstr g1 ++ sp :: (cstr g2 ++ sp :: cstr g3) ∧ (cstr g1).length < n1 ∧ (cstr g2).length < n2 ∧
      (cstr g3).length < n3 := by
  unfold parseThreeFieldsMsg at h
  split at h
  · cases h
  · rename_i f1' rest1 e1
    obtain ⟨s1, -, -, h1⟩ := takeField_inv l1 h0 e1
    have z1 : 0 ∉ rest1 := fun hm => h0 (by rw [s1]; simp [hm])
    split at h
    · cases h
    · rename_i f2' msg e2
      obtain ⟨s2, -, -, h2⟩ := takeField_inv l2 z1 e2
      have z2 : 0 ∉ msg := fun hm => z1 (by rw [s2]; simp [hm])
      split at h
      · rename_i hfit
        cases h
        obtain ⟨hc, hl⟩ := restFits_cstr z2 hfit rfl
        refine ⟨?_, h1, h2, by rw [hc]; exact hl⟩
        rw [hc, ← s2, ← s1]
      · cases h

/-- The second field is empty exactly when the line has one field. -/
theorem parseTwoFields_inv {rest f1 g1 g2 : Bytes} {n1 n2 : Nat} (h0 : 0 ∉ rest) (l1 : f1.length = n1)
    (h : parseTwoFields rest f1 n1 (zeros n2) n2 = (.ok, g1, g2)) (hg : cstr g2 ≠ []) :
    rest = cstr g1 ++ sp :: cstr g2 ∧ (cstr g1).length < n1 ∧ (cstr g2).length < n2 := by
  unfold parseTwoFields at h
  split at h
  · split at h
    · cases h
      refine absurd ?_ hg
      cases n2 with
      | zero => rfl
      | succ n => rw [zeros, List.replicate_succ]; exact cstr_nul _
    · cases h
  · split at h
    · cases h
    · rename_i f1' msg e1
      obtain ⟨s1, -, -, h1⟩ := takeField_inv l1 h0 e1
      have z1 : 0 ∉ msg := fun hm => h0 (by rw [s1]; simp [hm])
      split at h
      · rename_i hfit
        cases h
        obtain ⟨hc, hl⟩ := restFits_cstr z1 hfit rfl
        refine ⟨?_, h1, by rw [hc]; exact hl⟩
        rw [hc, ← s1]
      · cases h

/-- The response as its builder would be given it again, where the parser took
the line apart into fields. -/
def ParsedResp.again (out : ParsedResp) : Option ServerLine :=
  match out.type with
  | .broadcast => some (.broadcast (cstr out.username) (cstr out.timestamp) (cstr out.room) (cstr out.message))
  | .pm => some (.pm (cstr out.fromUser) (cstr out.timestamp) (cstr out.message))
  | .userJoin => if cstr out.room = [] then none else some (.userJoin (cstr out.username) (cstr out.room))
  | .userLeft => if cstr out.room = [] then none else some (.userLeft (cstr out.username) (cstr out.room))
  | _ => none

theorem parseServerArgs_again {cmd rest : Bytes} {out : ParsedResp} {r : ServerLine} (h0 : 0 ∉ rest)
    (h : parseServerArgs cmd rest .zeroed = (.ok, out)) (hr : out.again = some r) :
    cmd = r.word ∧ rest = r.rest ∧ (r.word ++ sp :: r.rest).length + 1 < maxLineLen := by
  unfold parseServerArgs at h
  by_cases hc : cmd = lit "OK"
  · rw [if_pos hc] at h
    cases h
    cases hr
  rw [if_neg hc] at h
  by_cases hc : cmd = lit "ERR"
  · rw [if_pos hc] at h
    cases h
    cases hr
  rw [if_neg hc] at h
  by_cases hc : cmd = lit "WELCOME"
  · rw [if_pos hc] at h
    cases h
    cases hr
  rw [if_neg hc] at h
  by_cases hc : cmd = lit "BROADCAST"
  · rw [if_pos hc] at h
    rcases hp : parseFourFieldsRestMsg rest (zeros maxUsernameLen) maxUsernameLen (zeros timestampLen) timestampLen
      (zeros maxRoomNameLen) maxRoomNameLen (zeros maxMsgLen) maxMsgLen with ⟨rc, g1, g2, g3, g4⟩
    simp only [ParsedResp.zeroed, hp, Prod.mk.injEq] at h
    obtain ⟨rfl, rfl⟩ := h
    cases hr
    obtain ⟨hs, h1, h2, h3, h4⟩ := parseFourFields_inv h0 (zeros_length _) (zeros_length _) (zeros_length _)
      (show maxMsgLen = 511 + 1 from rfl) hp
    simp only [maxUsernameLen, timestampLen, maxRoomNameLen, maxMsgLen] at h1 h2 h3 h4
    refine ⟨hc, hs, ?_⟩
    simp only [ServerLine.word, ServerLine.rest, List.length_append, List.length_cons,
      show (lit "BROADCAST").length = 9 by decide, maxLineLen]
    omega
  rw [if_neg hc] at h
  by_cases hc : cmd = lit "PM"
  · rw [if_pos hc] at h
    rcases hp : parseThreeFieldsMsg rest (zeros maxUsernameLen) maxUsernameLen (zeros timestampLen) timestampLen
      (zeros maxMsgLen) maxMsgLen with ⟨rc, g1, g2, g3⟩
    simp only [ParsedResp.zeroed, hp, Prod.mk.injEq] at h
    obtain ⟨rfl, rfl⟩ := h
    cases hr
    obtain ⟨hs, h1, h2, h3⟩ := parseThreeFields_inv h0 (zeros_length _) (zeros_length _) hp
    simp only [maxUsernameLen, timestampLen, maxMsgLen] at h1 h2 h3
    refine ⟨hc, hs, ?_⟩
    simp only [ServerLine.word, ServerLine.rest, List.length_append, List.length_cons,
      show (lit "PM").length = 2 by decide, maxLineLen]
    omega
  rw [if_neg hc] at h
  by_cases hc : cmd = lit "USER_JOIN"
  · rw [if_pos hc] at h
    rcases hp : parseTwoFields rest (zeros maxUsernameLen) maxUsernameLen (zeros maxRoomNameLen) maxRoomNameLen with
      ⟨rc, g1, g2⟩
    simp only [ParsedResp.zeroed, hp, Prod.mk.injEq] at h
    obtain ⟨rfl, rfl⟩ := h
    simp only [ParsedResp.again] at hr
    split at hr
    · cases hr
    · rename_i hne
      cases hr
      obtain ⟨hs, h1, h2⟩ := parseTwoFields_inv h0 (zeros_length _) hp hne
      simp only [maxUsernameLen, maxRoomNameLen] at h1 h2
      refine ⟨hc, hs, ?_⟩
      simp only [ServerLine.word, ServerLine.rest, List.length_append, List.length_cons,
        show (lit "USER_JOIN").length = 9 by decide, maxLineLen]
      omega
  rw [if_neg hc] at h
  by_cases hc : cmd = lit "USER_LEFT"
  · rw [if_pos hc] at h
    rcases hp : parseTwoFields rest (zeros maxUsernameLen) maxUsernameLen (zeros maxRoomNameLen) maxRoomNameLen with
      ⟨rc, g1, g2⟩
    simp only [ParsedResp.zeroed, hp, Prod.mk.injEq] at h
    obtain ⟨rfl, rfl⟩ := h
    simp only [ParsedResp.again] at hr
    split at hr
    · cases hr
    · rename_i hne
      cases hr
      obtain ⟨hs, h1, h2⟩ := parseTwoFields_inv h0 (zeros_length _) hp hne
      simp only [maxUsernameLen, maxRoomNameLen] at h1 h2
      refine ⟨hc, hs, ?_⟩
      simp only [ServerLine.word, ServerLine.rest, List.length_append, List.length_cons,
        show (lit "USER_LEFT").length = 9 by decide, maxLineLen]
      omega
  rw [if_neg hc] at h
  by_cases hc : cmd = lit "ROOM_JOINED"
  · rw [if_pos hc] at h
    cases h
    cases hr
  rw [if_neg hc] at h
  by_cases hc : cmd = lit "HISTORY"
  · rw [if_pos hc] at h
    cases h
    cases hr
  rw [if_neg hc] at h
  by_cases hc : cmd = lit "KICKED"
  · rw [if_pos hc] at h
    cases h
    cases hr
  rw [if_neg hc] at h
  by_cases hc : cmd = lit "LIST"
  · rw [if_pos hc] at h
    cases h
    cases hr
  rw [if_neg hc] at h
  cases h

theorem again_rest {out : ParsedResp} {r : ServerLine} (h : out.again = some r) : r.rest ≠ [] := by
  have hj : ∀ s t : Bytes, s ++ sp :: t ≠ [] := by simp
  unfold ParsedResp.again at h
  split at h
  · cases h; exact hj _ _
  · cases h; exact hj _ _
  · split at h
    · cases h
    · cases h; exact hj _ _
  · split at h
    · cases h
    · cases h; exact hj _ _
  · cases h

/-- A response that was taken apart into fields is the line that its builder gives again. -/
theorem parse_server_again {line : Bytes} {out : ParsedResp} {r : ServerLine} (h0 : 0 ∉ line)
    (hlen : line.length < maxLineLen) (h : protocolParseServerLine line = (.ok, out)) (hr : out.again = some r) :
    r.build maxLineLen = (.ok, trimNewline line ++ [lf]) := by
  have htake : line.take (maxLineLen - 1) = line := List.take_of_length_le (by omega)
  have hz : 0 ∉ trimNewline line := fun hm => h0 ((trimNewline_initial line).subset hm)
  unfold protocolParseServerLine at h
  rw [htake] at h
  split at h
  · cases h
  · rename_i cmd rest hs
    obtain ⟨-, -, hline⟩ := splitFirstToken_inv hs
    have hrest : 0 ∉ rest := by
      rcases hline with he | ⟨-, rfl⟩
      · intro hm; rw [he] at hz; exact hz (by simp [hm])
      · simp
    obtain ⟨rfl, rfl, hfit⟩ := parseServerArgs_again hrest h hr
    have he : trimNewline line = r.word ++ sp :: r.rest := hline.resolve_right fun hnil => again_rest hr hnil.2
    rw [ServerLine.build_eq, he, buildLine_fits (by rw [List.length_append]; exact hfit)]

/-- Where the parser took a line apart into fields, their builder gives `text`. -/
structure ParsedResp.Builds (out : ParsedResp) (text : Bytes) : Prop where
  broadcast : out.type = .broadcast → protocolBuildServerBroadcast maxLineLen (cstr out.username) (cstr out.timestamp)
    (cstr out.room) (cstr out.message) = (.ok, text)
  pm : out.type = .pm →
    protocolBuildServerPm maxLineLen (cstr out.fromUser) (cstr out.timestamp) (cstr out.message) = (.ok, text)
  userJoin : out.type = .userJoin → cstr out.room ≠ [] →
    protocolBuildServerUserJoin maxLineLen (cstr out.username) (cstr out.room) = (.ok, text)
  userLeft : out.type = .userLeft → cstr out.room ≠ [] →
    protocolBuildServerUserLeft maxLineLen (cstr out.username) (cstr out.room) = (.ok, text)

theorem parse_server_builds {line : Bytes} {out : ParsedResp} (h0 : 0 ∉ line) (hlen : line.length < maxLineLen)
    (h : protocolParseServerLine line = (.ok, out)) : out.Builds (trimNewline line ++ [lf]) := by
  have hbuild : ∀ {r : ServerLine}, out.again = some r → r.build maxLineLen = (.ok, trimNewline line ++ [lf]) :=
    parse_server_again h0 hlen h
  refine ⟨fun ht => ?_, fun ht => ?_, fun ht hroom => ?_, fun ht hroom => ?_⟩
  · exact hbuild (r := .broadcast _ _ _ _) (by rw [ParsedResp.again, ht])
  · exact hbuild (r := .pm _ _ _) (by rw [ParsedResp.again, ht])
  · exact hbuild (r := .userJoin _ _) (by rw [ParsedResp.again, ht]; exact if_neg hroom)
  · exact hbuild (r := .userLeft _ _) (by rw [ParsedResp.again, ht]; exact if_neg hroom)

/-! ## Both directions over a stream -/

/-- `protocol_parse_server_line` on each line that `client_recv_line` returns. -/
def readResponses (fuel : Nat) (sock : List Recv) (buf : Bytes) : List (ChatStatus × ParsedResp) :=
  (recvLines clientRecvLine fuel sock buf).map fun line =>
    let (rc, resp) := protocolParseServerLine line
    (rc, resp.strings)

theorem readResponses_built {rs : List ServerLine} (hv : ∀ r ∈ rs, r.Valid) {arrivals : List Arrival}
    (hr : .reset ∉ arrivals) (hs : stream arrivals = (rs.map fun r => (r.build maxLineLen).2).flatten)
    {buf : Bytes} (hbuf : buf.length = maxLineLen) {fuel : Nat} (hfuel : rs.length < fuel) :
    readResponses fuel (recvs arrivals) buf = rs.map fun r => (.ok, r.fields) := by
  have hbuild : ∀ r ∈ rs, r.build maxLineLen = (.ok, r.text ++ [lf]) := by
    intro r hm
    have hlen := (ServerLine.text_wholeLine (hv r hm)).length_lt
    rw [ServerLine.build_eq, ← ServerLine.text, buildLine_fits (by rw [List.length_append]; exact hlen)]
  have hstream : bytesOf (recvs arrivals) = ((rs.map ServerLine.text).map (· ++ [lf])).flatten := by
    rw [bytesOf_recvs, hs, List.map_map]
    exact congrArg List.flatten (List.map_congr_left fun r hm => by rw [hbuild r hm]; rfl)
  have hlines := recvLines_lines clientRecvLine_framer (rs.map ServerLine.text)
    (fun w hw => by obtain ⟨r, hm, rfl⟩ := List.mem_map.mp hw; exact ServerLine.text_wholeLine (hv r hm))
    (error_not_mem_recvs hr) hstream hbuf (by rw [List.length_map]; exact hfuel)
  rw [readResponses, hlines, List.map_map, List.map_map]
  refine List.map_congr_left fun r hm => ?_
  obtain ⟨out, hp, hf⟩ := parseServerArgs_complete (hv r hm)
  simp only [Function.comp_apply]
  rw [ServerLine.text_trimmed (hv r hm), ServerLine.parse_text (hv r hm), hp, hf]

/-- A line that is read was ended in the buffer. -/
theorem recvLoop_ended {n : Nat} {buf' : Bytes} {sock' : List Recv} : ∀ (sock : List Recv) (pos : Nat) (buf : Bytes),
    pos ≤ n - 1 → n ≤ buf.length → recvLoop (fun _ => .errIo) n sock pos buf = (.ok, buf', sock') →
    ∃ b p, buf' = endLine b p ∧ p ≤ n - 1 ∧ n ≤ b.length
  | [], pos, buf, hpos, hbuf, h => by
    simp only [recvLoop] at h
    split at h
    · cases h
    · cases h
      exact ⟨buf, pos, rfl, hpos, hbuf⟩
  | r :: sock, pos, buf, hpos, hbuf, h => by
    simp only [recvLoop] at h
    split at h
    · cases r with
      | eintr => exact recvLoop_ended sock pos buf hpos hbuf h
      | error => cases h
      | byte c =>
        simp only at h
        split at h
        · cases h
          exact ⟨_, _, rfl, by omega, by rw [List.length_set]; exact hbuf⟩
        · exact recvLoop_ended sock (pos + 1) _ (by omega) (by rw [List.length_set]; exact hbuf) h
    · cases h
      exact ⟨buf, pos, rfl, hpos, hbuf⟩

theorem clientRecvLine_trimmed {sock sock' : List Recv} {buf buf' : Bytes} (hbuf : buf.length = maxLineLen)
    (h : clientRecvLine sock buf maxLineLen = (.ok, buf', sock')) :
    (cstr buf').length < maxLineLen ∧ trimNewline (cstr buf') = cstr buf' := by
  obtain ⟨b, p, rfl, hp, hb⟩ := recvLoop_ended sock 0 buf (Nat.zero_le _) (by omega) h
  have hpos : 0 < maxLineLen := by decide
  rw [endLine, cstr_trimBuffer]
  refine ⟨?_, trimNewline_idem _⟩
  have h₁ := (trimNewline_initial (cstr (setNul b p))).length_le
  have h₂ : (cstr (setNul b p)).length ≤ p := by
    rw [cstr_setNul (by omega), List.length_take]
    exact Nat.min_le_left ..
  omega

/-- **The response codec.** -/
theorem responses_round_trip :
    (∀ (rs : List ServerLine), (∀ r ∈ rs, r.Valid) →
      (∀ r ∈ rs, (r.build maxLineLen).1 = .ok ∧ ∃ line, lf ∉ line ∧ (r.build maxLineLen).2 = line ++ [lf]) ∧
      ∀ (arrivals : List Arrival), .reset ∉ arrivals →
        stream arrivals = (rs.map fun r => (r.build maxLineLen).2).flatten →
        ∀ (buf : Bytes), buf.length = maxLineLen → ∀ fuel, rs.length < fuel →
          readResponses fuel (recvs arrivals) buf = rs.map fun r => (.ok, r.fields)) ∧
    (∀ (line : Bytes) (out : ParsedResp), 0 ∉ line → line.length < maxLineLen →
      protocolParseServerLine line = (.ok, out) → out.Builds (trimNewline line ++ [lf])) ∧
    ∀ (sock : List Recv) (buf : Bytes), buf.length = maxLineLen →
      ∀ buf' sock', clientRecvLine sock buf maxLineLen = (.ok, buf', sock') →
        0 ∉ cstr buf' ∧ (cstr buf').length < maxLineLen ∧ trimNewline (cstr buf') = cstr buf' := by
  refine ⟨fun rs hv => ⟨fun r hr => ?_, fun arrivals hreset hs buf hbuf fuel hfuel =>
    readResponses_built hv hreset hs hbuf hfuel⟩, fun line out h0 hlen => parse_server_builds h0 hlen,
    fun sock buf hbuf buf' sock' h => ⟨nul_not_mem_cstr _, clientRecvLine_trimmed hbuf h⟩⟩
  have hw := ServerLine.text_wholeLine (hv r hr)
  have hlen := hw.length_lt
  rw [ServerLine.build_eq, ← ServerLine.text, buildLine_fits (by rw [List.length_append]; exact hlen)]
  exact ⟨rfl, r.text, hw.noLf, rfl⟩

/-- A room message and an empty history, cut inside the timestamp; the message is built again from its fields. -/
theorem responses_round_trip_two :
    readResponses 3 (recvs [.segment (lit "BROADCAST bob 2024-0"), .interrupt, .segment (lit "1-01 den hi all\nHISTORY \n")])
      (zeros maxLineLen) =
    [ServerLine.broadcast (lit "bob") (lit "2024-01-01") (lit "den") (lit "hi all"), .history []].map
      (fun r => (.ok, r.fields)) ∧
    (let out := (protocolParseServerLine (lit "BROADCAST bob 2024-01-01 den hi all\r")).2
     protocolBuildServerBroadcast maxLineLen (cstr out.username) (cstr out.timestamp) (cstr out.room) (cstr out.message) =
      (.ok, lit "BROADCAST bob 2024-01-01 den hi all\n")) ∧
    let out := (protocolParseServerLine (lit "USER_LEFT bob den\n")).2
    protocolBuildServerUserLeft maxLineLen (cstr out.username) (cstr out.room) = (.ok, lit "USER_LEFT bob den\n") := by
  refine ⟨(responses_round_trip.1 _ ?_).2 _ (by decide) (by decide +kernel) _ (zeros_length _) 3 (by decide), ?_, ?_⟩
  · intro r hr
    simp only [List.mem_cons, List.not_mem_nil, or_false] at hr
    rcases hr with rfl | rfl
    · exact ⟨⟨⟨by decide, by decide⟩, ⟨by decide, by decide⟩, by decide⟩,
        ⟨⟨by decide, by decide⟩, ⟨by decide, by decide⟩, by decide⟩,
        ⟨⟨by decide, by decide⟩, ⟨by decide, by decide⟩, by decide⟩, by decide,
        ⟨⟨⟨by decide, by decide⟩, by decide⟩, by decide⟩⟩
    · exact ⟨⟨⟨by decide, by decide⟩, by decide⟩, by decide⟩
  · have hparse : (protocolParseServerLine (lit "BROADCAST bob 2024-01-01 den hi all\r")).1 = .ok := by decide +kernel
    exact (responses_round_trip.2.1 _ _ (by decide) (by decide) (Prod.ext hparse rfl)).broadcast (by decide +kernel)
  · have hparse : (protocolParseServerLine (lit "USER_LEFT bob den\n")).1 = .ok := by decide +kernel
    exact (responses_round_trip.2.1 _ _ (by decide) (by decide) (Prod.ext hparse rfl)).userLeft (by decide +kernel)
      (by decide +kernel)

end ChatServer

import ChatServer.Protocol

/-!
# What the parsers accept

`Request` is the grammar of the client lines, `parse_client_sound` the
inversion of the request parser. `broadcast_carries_iff` puts the two
directions of the wire together: the fields of a room message survive the
four-field response line exactly when the room name has no blank.
-/

namespace ChatServer

open CStr

/-! ## Fields -/

theorem restFits_iff {rest : Bytes} {n : Nat} : restFits rest n = true ↔ rest ≠ [] ∧ rest.length < n := by
  simp [restFits]

theorem zeros_length (n : Nat) : (zeros n).length = n := List.length_replicate

theorem cstr_drop_zeros (n i : Nat) : cstr ((zeros n).drop i) = [] := by
  rw [zeros, List.drop_replicate]; exact cstr_replicate_nul _

theorem cstr_strncpy_zeros {s : Bytes} {n : Nat} (h0 : 0 ∉ s) (hn : s.length ≤ n) (m : Nat) :
    cstr (strncpy (zeros m) s n) = s := by
  have hs := cstr_of_nulFree h0
  rw [cstr_strncpy_of_le (by rwa [hs]) (Or.inr (cstr_drop_zeros m n)), hs]

theorem takeField_append {s f : Bytes} {fLen : Nat} (hf : f.length = fLen) (h0 : 0 ∉ s) (hs : sp ∉ s) (hne : s ≠ [])
    (hl : s.length < fLen) (t : Bytes) : ∃ f', takeField (s ++ sp :: t) f fLen = some (f', t) ∧ cstr f' = s := by
  have hpos : s.length ≠ 0 := by simpa using hne
  refine ⟨setNul (memcpy f (s ++ sp :: t) s.length) s.length, ?_, ?_⟩
  · simp only [takeField, strchr_append hs]
    rw [if_neg (by omega)]
    simp
  · rw [cstr_setNul_memcpy (by simpa using h0) (by simp) (by omega)]
    simp

theorem takeField_inv {rest f f' t : Bytes} {fLen : Nat} (hf : f.length = fLen) (h0 : 0 ∉ rest)
    (h : takeField rest f fLen = some (f', t)) :
    rest = cstr f' ++ sp :: t ∧ sp ∉ cstr f' ∧ cstr f' ≠ [] ∧ (cstr f').length < fLen := by
  unfold takeField at h
  split at h
  · cases h
  · rename_i len hc
    split at h
    · cases h
    · rename_i hlen
      obtain ⟨hlt, hsp, hsplit⟩ := strchr_some hc
      simp only [Option.some.injEq, Prod.mk.injEq] at h
      obtain ⟨rfl, rfl⟩ := h
      rw [cstr_setNul_memcpy (not_mem_take h0 len) (by omega) (by omega)]
      refine ⟨hsplit, hsp, ?_, by rw [List.length_take]; omega⟩
      intro hnil
      rw [← List.length_eq_zero_iff, List.length_take] at hnil
      omega

theorem splitFirstToken_inv {line cmd rest : Bytes} {n : Nat} (h : splitFirstToken line n = some (cmd, rest)) :
    sp ∉ cmd ∧ cmd.length < n ∧ (line = cmd ++ sp :: rest ∨ line = cmd ∧ rest = []) := by
  unfold splitFirstToken at h
  split at h
  · rename_i hc
    split at h
    · cases h
    · cases h
      exact ⟨strchr_none.mp hc, by omega, Or.inr ⟨rfl, rfl⟩⟩
  · rename_i k hc
    split at h
    · cases h
    · obtain ⟨hlt, hsp, hsplit⟩ := strchr_some hc
      cases h
      exact ⟨hsp, by rw [List.length_take]; omega, Or.inl hsplit⟩

theorem splitFirstToken_append {cmd : Bytes} {n : Nat} (hc : sp ∉ cmd) (hl : cmd.length < n) (rest : Bytes) :
    splitFirstToken (cmd ++ sp :: rest) n = some (cmd, rest) := by
  simp only [splitFirstToken, strchr_append hc]
  rw [if_neg (by omega)]
  simp

/-! ## The grammar of requests -/

structure Name (u : Bytes) : Prop where
  ne_nil : u ≠ []
  length_lt : u.length < maxUsernameLen
  noSp : sp ∉ u

structure Field (n : Nat) (s : Bytes) : Prop where
  ne_nil : s ≠ []
  length_lt : s.length < n

def Bare (word line : Bytes) : Prop := line = word ∨ ∃ t, line = word ++ sp :: t

inductive Request : ClientCmd → Bytes → Bytes → Bytes → Prop
  | auth {u p : Bytes} : Name u → Field maxMsgLen p → Request .auth u p (lit "AUTH" ++ sp :: (u ++ sp :: p))
  | joinRoom {r : Bytes} : Field maxRoomNameLen r → Request .joinRoom r [] (lit "JOIN_ROOM" ++ sp :: r)
  | msg {m : Bytes} : Field maxMsgLen m → Request .msg [] m (lit "MSG" ++ sp :: m)
  | pm {u m : Bytes} : Name u → Field maxMsgLen m → Request .pm u m (lit "PM" ++ sp :: (u ++ sp :: m))
  | kick {u : Bytes} : Field maxUsernameLen u → Request .kick u [] (lit "KICK" ++ sp :: u)
  | list {line : Bytes} : Bare (lit "LIST") line → Request .list [] [] line
  | history {line : Bytes} : Bare (lit "HISTORY") line → Request .history [] [] line
  | quit {line : Bytes} : Bare (lit "QUIT") line → Request .quit [] [] line

theorem parseTwoTokens_inv {rest a b a' b' : Bytes} {aLen bLen : Nat} (ha : a.length = aLen)
    (hb : b.length = bLen) (h0 : 0 ∉ rest) (h : parseTwoTokens rest a aLen b bLen = (.ok, a', b')) :
    rest = cstr a' ++ sp :: cstr b' ∧ sp ∉ cstr a' ∧ cstr a' ≠ [] ∧ (cstr a').length < aLen ∧ Field bLen (cstr b') := by
  unfold parseTwoTokens at h
  split at h
  · cases h
  · rename_i f msg hf
    split at h
    · rename_i hfit
      simp only [Prod.mk.injEq, true_and] at h
      obtain ⟨rfl, rfl⟩ := h
      obtain ⟨hsplit, hsp, hne, hlt⟩ := takeField_inv ha h0 hf
      rw [restFits_iff] at hfit
      have h0m : 0 ∉ msg := fun hm => h0 (by rw [hsplit]; simp [hm])
      have hcb : cstr (setNul (strncpy b msg (bLen - 1)) (bLen - 1)) = msg := by
        rw [cstr_setNul_strncpy (by omega), cstr_of_nulFree h0m, List.take_of_length_le (by omega)]
      rw [hcb]
      exact ⟨hsplit, hsp, hne, hlt, hfit.1, hfit.2⟩
    · cases h

theorem parseClientArgs_inv {cmd rest : Bytes} {out : ParsedCmd} (h0 : 0 ∉ rest)
    (h : parseClientArgs cmd rest .zeroed = (.ok, out)) {line : Bytes}
    (hline : line = cmd ++ sp :: rest ∨ line = cmd ∧ rest = []) :
    Request out.cmd (cstr out.arg1) (cstr out.arg2) line := by
  have z : ∀ n, cstr (zeros n) = [] := fun n => cstr_replicate_nul n
  have hl : rest ≠ [] → line = cmd ++ sp :: rest := fun hne => hline.resolve_right fun h => hne h.2
  have bare : Bare cmd line := hline.symm.imp And.left fun h => ⟨rest, h⟩
  have two : ∀ {a b : Bytes}, parseTwoTokens rest (zeros maxUsernameLen) maxUsernameLen (zeros maxMsgLen) maxMsgLen =
      (.ok, a, b) → line = cmd ++ sp :: (cstr a ++ sp :: cstr b) ∧ Name (cstr a) ∧ Field maxMsgLen (cstr b) := by
    intro a b hp
    obtain ⟨hs, hsp, hne, hlt, hb⟩ := parseTwoTokens_inv (zeros_length _) (zeros_length _) h0 hp
    exact ⟨by rw [← hs]; exact hl (by rw [hs]; simp), ⟨hne, hlt, hsp⟩, hb⟩
  have one : ∀ {n m : Nat}, restFits rest n = true → n ≤ m → cstr (strncpy (zeros m) rest (n - 1)) = rest ∧
      Field n rest ∧ line = cmd ++ sp :: rest := by
    intro n m hf _
    rw [restFits_iff] at hf
    exact ⟨cstr_strncpy_zeros h0 (by omega) m, ⟨hf.1, hf.2⟩, hl hf.1⟩
  unfold parseClientArgs at h
  split at h
  · rename_i hc
    rcases hp : parseTwoTokens rest (zeros maxUsernameLen) maxUsernameLen (zeros maxMsgLen) maxMsgLen with ⟨rc, a, b⟩
    simp only [ParsedCmd.zeroed, hp, Prod.mk.injEq] at h
    obtain ⟨rfl, rfl⟩ := h
    obtain ⟨hln, hn, hb⟩ := two hp
    rw [hln, hc]; exact .auth hn hb
  split at h
  · rename_i hc
    split at h
    · rename_i hf
      simp only [ParsedCmd.zeroed, Prod.mk.injEq, true_and] at h
      subst h
      obtain ⟨hs, hfl, hln⟩ := one (m := maxUsernameLen) hf (by simp)
      simp only [hs, z]; rw [hln, hc]; exact .joinRoom hfl
    · cases h
  split at h
  · rename_i hc
    split at h
    · rename_i hf
      simp only [ParsedCmd.zeroed, Prod.mk.injEq, true_and] at h
      subst h
      obtain ⟨hs, hfl, hln⟩ := one (m := maxMsgLen) hf (by simp)
      simp only [hs, z]; rw [hln, hc]; exact .msg hfl
    · cases h
  split at h
  · rename_i hc
    rcases hp : parseTwoTokens rest (zeros maxUsernameLen) maxUsernameLen (zeros maxMsgLen) maxMsgLen with ⟨rc, a, b⟩
    simp only [ParsedCmd.zeroed, hp, Prod.mk.injEq] at h
    obtain ⟨rfl, rfl⟩ := h
    obtain ⟨hln, hn, hb⟩ := two hp
    rw [hln, hc]; exact .pm hn hb
  split at h
  · rename_i hc
    simp only [ParsedCmd.zeroed, Prod.mk.injEq, true_and] at h
    subst h
    simp only [z]; exact .list (hc ▸ bare)
  split at h
  · rename_i hc
    simp only [ParsedCmd.zeroed, Prod.mk.injEq, true_and] at h
    subst h
    simp only [z]; exact .history (hc ▸ bare)
  split at h
  · rename_i hc
    split at h
    · rename_i hf
      simp only [ParsedCmd.zeroed, Prod.mk.injEq, true_and] at h
      subst h
      obtain ⟨hs, hfl, hln⟩ := one (m := maxUsernameLen) hf (by simp)
      simp only [hs, z]; rw [hln, hc]; exact .kick hfl
    · cases h
  split at h
  · rename_i hc
    simp only [ParsedCmd.zeroed, Prod.mk.injEq, true_and] at h
    subst h
    simp only [z]; exact .quit (hc ▸ bare)
  · cases h

/-- An accepted line is a request of the grammar, with the fields returned. -/
theorem parse_client_sound {line : Bytes} {out : ParsedCmd} (h0 : 0 ∉ line)
    (h : protocolParseClientLine line = (.ok, out)) : Request out.cmd (cstr out.arg1) (cstr out.arg2) line := by
  unfold protocolParseClientLine at h
  split at h
  · cases h
  · rename_i cmd rest hs
    obtain ⟨-, -, hline⟩ := splitFirstToken_inv hs
    refine parseClientArgs_inv ?_ h hline
    rcases hline with rfl | ⟨rfl, rfl⟩
    · exact fun hm => h0 (by simp [hm])
    · simp

theorem parseTwoTokens_append {a b f g : Bytes} {aLen bLen : Nat} (hf : f.length = aLen) (hg : g.length = bLen)
    (ha0 : 0 ∉ a) (has : sp ∉ a) (hane : a ≠ []) (hal : a.length < aLen) (hb0 : 0 ∉ b) (hb : Field bLen b) :
    ∃ f' g', parseTwoTokens (a ++ sp :: b) f aLen g bLen = (.ok, f', g') ∧ cstr f' = a ∧ cstr g' = b := by
  have hbl := hb.length_lt
  obtain ⟨f', hf', hc⟩ := takeField_append hf ha0 has hane hal b
  refine ⟨f', setNul (strncpy g b (bLen - 1)) (bLen - 1), ?_, hc, ?_⟩
  · simp only [parseTwoTokens, hf']
    rw [if_pos (restFits_iff.mpr ⟨hb.ne_nil, hbl⟩)]
  · rw [cstr_setNul_strncpy (by omega), cstr_of_nulFree hb0, List.take_of_length_le (by omega)]

theorem splitFirstToken_bare {word line : Bytes} {n : Nat} (hc : sp ∉ word) (hl : word.length < n)
    (h : Bare word line) : ∃ rest, splitFirstToken line n = some (word, rest) := by
  rcases h with rfl | ⟨t, rfl⟩
  · refine ⟨[], ?_⟩
    simp only [splitFirstToken, strchr_none.mpr hc]
    rw [if_neg (by omega)]
  · exact ⟨t, splitFirstToken_append hc hl t⟩

/-- Every request of the grammar is accepted, and its fields are returned. -/
theorem parse_client_complete {cmd : ClientCmd} {a b line : Bytes} (h0 : 0 ∉ line) (h : Request cmd a b line) :
    ∃ out, protocolParseClientLine line = (.ok, out) ∧ out.cmd = cmd ∧ cstr out.arg1 = a ∧ cstr out.arg2 = b := by
  have z : ∀ n, cstr (zeros n) = [] := fun n => cstr_replicate_nul n
  have split : ∀ {word rest : Bytes}, sp ∉ word → word.length < 16 →
      protocolParseClientLine (word ++ sp :: rest) = parseClientArgs word rest .zeroed := by
    intro word rest hs hl
    rw [protocolParseClientLine, splitFirstToken_append hs hl]
  have bare : ∀ {word : Bytes}, Bare word line → sp ∉ word → word.length < 16 →
      ∃ rest, protocolParseClientLine line = parseClientArgs word rest .zeroed := by
    intro word hb hs hl
    obtain ⟨rest, hr⟩ := splitFirstToken_bare hs hl hb
    exact ⟨rest, by rw [protocolParseClientLine, hr]⟩
  have two : ∀ {u m : Bytes}, 0 ∉ u ++ sp :: m → Name u → Field maxMsgLen m → ∃ f g,
      parseTwoTokens (u ++ sp :: m) (zeros maxUsernameLen) maxUsernameLen (zeros maxMsgLen) maxMsgLen = (.ok, f, g) ∧
        cstr f = u ∧ cstr g = m := by
    intro u m hum hu hm
    exact parseTwoTokens_append (zeros_length _) (zeros_length _) (fun h => hum (by simp [h])) hu.noSp hu.ne_nil
      hu.length_lt (fun h => hum (by simp [h])) hm
  have one : ∀ {n : Nat} {s : Bytes}, 0 ∉ s → Field n s → restFits s n = true ∧
      ∀ m, cstr (strncpy (zeros m) s (n - 1)) = s := by
    intro n s hs hf
    have hl := hf.length_lt
    exact ⟨restFits_iff.mpr ⟨hf.ne_nil, hl⟩, cstr_strncpy_zeros hs (by omega)⟩
  cases h with
  | auth hu hp =>
    obtain ⟨f, g, he, hf, hg⟩ := two (fun h => h0 (by simp [h])) hu hp
    exact ⟨_, by rw [split (by decide) (by decide), parseClientArgs, if_pos rfl, ParsedCmd.zeroed, he], rfl, hf, hg⟩
  | joinRoom hr =>
    obtain ⟨hfit, hc⟩ := one (fun h => h0 (by simp [h])) hr
    refine ⟨{ ParsedCmd.zeroed with cmd := .joinRoom, arg1 := strncpy (zeros maxUsernameLen) a (maxRoomNameLen - 1) },
      ?_, rfl, hc maxUsernameLen, z maxMsgLen⟩
    rw [split (by decide) (by decide), parseClientArgs, if_neg (by decide), if_pos rfl, if_pos hfit, ParsedCmd.zeroed]
  | msg hm =>
    obtain ⟨hfit, hc⟩ := one (fun h => h0 (by simp [h])) hm
    refine ⟨{ ParsedCmd.zeroed with cmd := .msg, arg2 := strncpy (zeros maxMsgLen) b (maxMsgLen - 1) },
      ?_, rfl, z maxUsernameLen, hc maxMsgLen⟩
    rw [split (by decide) (by decide), parseClientArgs, if_neg (by decide), if_neg (by decide), if_pos rfl, if_pos hfit,
      ParsedCmd.zeroed]
  | pm hu hm =>
    obtain ⟨f, g, he, hf, hg⟩ := two (fun h => h0 (by simp [h])) hu hm
    exact ⟨_, by rw [split (by decide) (by decide), parseClientArgs, if_neg (by decide), if_neg (by decide),
      if_neg (by decide), if_pos rfl, ParsedCmd.zeroed, he], rfl, hf, hg⟩
  | kick hu =>
    obtain ⟨hfit, hc⟩ := one (fun h => h0 (by simp [h])) hu
    refine ⟨{ ParsedCmd.zeroed with cmd := .kick, arg1 := strncpy (zeros maxUsernameLen) a (maxUsernameLen - 1) },
      ?_, rfl, hc maxUsernameLen, z maxMsgLen⟩
    rw [split (by decide) (by decide), parseClientArgs, if_neg (by decide), if_neg (by decide), if_neg (by decide),
      if_neg (by decide), if_neg (by decide), if_neg (by decide), if_pos rfl, if_pos hfit, ParsedCmd.zeroed]
  | list hb =>
    obtain ⟨rest, he⟩ := bare hb (by decide) (by decide)
    exact ⟨{ ParsedCmd.zeroed with cmd := .list }, by rw [he]; rfl, rfl, z maxUsernameLen, z maxMsgLen⟩
  | history hb =>
    obtain ⟨rest, he⟩ := bare hb (by decide) (by decide)
    exact ⟨{ ParsedCmd.zeroed with cmd := .history }, by rw [he]; rfl, rfl, z maxUsernameLen, z maxMsgLen⟩
  | quit hb =>
    obtain ⟨rest, he⟩ := bare hb (by decide) (by decide)
    exact ⟨{ ParsedCmd.zeroed with cmd := .quit }, by rw [he]; rfl, rfl, z maxUsernameLen, z maxMsgLen⟩

/-! ## Lines as the handler receives them -/

/-- A received line: no NUL, no newline, trailing CR trimmed. -/
structure WireLine (line : Bytes) : Prop where
  noNul : 0 ∉ line
  noLf : lf ∉ line
  noCr : line.getLast? ≠ some cr

instance (line : Bytes) : Decidable (WireLine line) :=
  decidable_of_iff (0 ∉ line ∧ lf ∉ line ∧ line.getLast? ≠ some cr)
    ⟨fun h => ⟨h.1, h.2.1, h.2.2⟩, fun h => ⟨h.noNul, h.noLf, h.noCr⟩⟩

/-- The request parser accepts the received line, and `out` is what it returns. -/
def Accepts (line : Bytes) (out : ParsedCmd) : Prop := WireLine line ∧ protocolParseClientLine line = (.ok, out)

instance (line : Bytes) (out : ParsedCmd) : Decidable (Accepts line out) := inferInstanceAs (Decidable (_ ∧ _))

section
variable {line : Bytes} {out : ParsedCmd} (h : Accepts line out)
include h

theorem accepts_auth (hc : out.cmd = .auth) : Name (cstr out.arg1) ∧ Field maxMsgLen (cstr out.arg2) := by
  have hr := parse_client_sound h.1.noNul h.2
  rw [hc] at hr
  cases hr with
  | auth hn hf => exact ⟨hn, hf⟩

theorem accepts_joinRoom (hc : out.cmd = .joinRoom) : Field maxRoomNameLen (cstr out.arg1) := by
  have hr := parse_client_sound h.1.noNul h.2
  rw [hc] at hr
  generalize cstr out.arg2 = a2 at hr
  cases hr with
  | joinRoom hf => exact hf

theorem accepts_msg (hc : out.cmd = .msg) : Field maxMsgLen (cstr out.arg2) ∧
    (cstr out.arg2).getLast? ≠ some lf ∧ (cstr out.arg2).getLast? ≠ some cr := by
  have hr := parse_client_sound h.1.noNul h.2
  have hlf := h.1.noLf
  have hcr := h.1.noCr
  rw [hc] at hr
  generalize cstr out.arg1 = a1 at hr
  generalize cstr out.arg2 = a2 at hr ⊢
  cases hr with
  | msg hf =>
    refine ⟨hf, fun e => hlf ?_, fun e => hcr ?_⟩
    · simp [List.mem_of_getLast? e]
    · rw [List.getLast?_append, List.getLast?_cons, e]; rfl

end

/-! ## A room message on the wire -/

theorem buildLine_fits {n : Nat} {text : Bytes} (h : text.length < n) : buildLine n text = (.ok, text) := by
  have ht : text.take (n - 1) = text := List.take_of_length_le (by omega)
  simp [buildLine, snprintf, ht, Nat.not_le.mpr h]

theorem buildLine_overflows {n : Nat} {text : Bytes} (h : n ≤ text.length) :
    buildLine n text = (.err, text.take (n - 1)) := by
  simp [buildLine, snprintf, h]

def Carries (res : ChatStatus × ParsedResp) (username timestamp room message : Bytes) : Prop :=
  res.1 = .ok ∧ res.2.type = .broadcast ∧ cstr res.2.username = username ∧ cstr res.2.timestamp = timestamp ∧
    cstr res.2.room = room ∧ cstr res.2.message = message

theorem parseFourFields_append {u ts r m f1 f2 f3 f4 : Bytes} {n1 n2 n3 n4 : Nat}
    (l1 : f1.length = n1) (l2 : f2.length = n2) (l3 : f3.length = n3) (l4 : f4.length = n4)
    (hu : u ≠ [] ∧ u.length < n1 ∧ sp ∉ u ∧ 0 ∉ u) (hts : ts ≠ [] ∧ ts.length < n2 ∧ sp ∉ ts ∧ 0 ∉ ts)
    (hr : r ≠ [] ∧ r.length < n3 ∧ sp ∉ r ∧ 0 ∉ r) (hm : m ≠ [] ∧ m.length < n4 ∧ 0 ∉ m) :
    ∃ g1 g2 g3 g4, parseFourFieldsRestMsg (u ++ sp :: (ts ++ sp :: (r ++ sp :: m))) f1 n1 f2 n2 f3 n3 f4 n4 =
      (.ok, g1, g2, g3, g4) ∧ cstr g1 = u ∧ cstr g2 = ts ∧ cstr g3 = r ∧ cstr g4 = m := by
  obtain ⟨g1, e1, c1⟩ := takeField_append l1 hu.2.2.2 hu.2.2.1 hu.1 hu.2.1 (ts ++ sp :: (r ++ sp :: m))
  obtain ⟨g2, e2, c2⟩ := takeField_append l2 hts.2.2.2 hts.2.2.1 hts.1 hts.2.1 (r ++ sp :: m)
  obtain ⟨g3, e3, c3⟩ := takeField_append l3 hr.2.2.2 hr.2.2.1 hr.1 hr.2.1 m
  refine ⟨g1, g2, g3, setNul (strncpy f4 m (n4 - 1)) (n4 - 1), ?_, c1, c2, c3, ?_⟩
  · simp only [parseFourFieldsRestMsg, e1, e2, e3]
    rw [if_pos (restFits_iff.mpr ⟨hm.1, hm.2.1⟩)]
  · rw [cstr_setNul_strncpy (by omega), cstr_of_nulFree hm.2.2, List.take_of_length_le (by omega)]

theorem parseFourFields_room {rest f1 f2 f3 f4 g1 g2 g3 g4 : Bytes} {n1 n2 n3 n4 : Nat} (h0 : 0 ∉ rest)
    (l1 : f1.length = n1) (l2 : f2.length = n2) (l3 : f3.length = n3)
    (h : parseFourFieldsRestMsg rest f1 n1 f2 n2 f3 n3 f4 n4 = (.ok, g1, g2, g3, g4)) : sp ∉ cstr g3 := by
  unfold parseFourFieldsRestMsg at h
  split at h
  · cases h
  · rename_i f1' rest1 e1
    obtain ⟨s1, -⟩ := takeField_inv l1 h0 e1
    have h1 : 0 ∉ rest1 := fun hm => h0 (by rw [s1]; simp [hm])
    split at h
    · cases h
    · rename_i f2' rest2 e2
      obtain ⟨s2, -⟩ := takeField_inv l2 h1 e2
      have h2 : 0 ∉ rest2 := fun hm => h1 (by rw [s2]; simp [hm])
      split at h
      · cases h
      · rename_i f3' msg e3
        split at h
        · cases h
          exact (takeField_inv l3 h2 e3).2.1
        · cases h

theorem parse_broadcast_line {rest m : Bytes} (hm : m ≠ []) (hlf : m.getLast? ≠ some lf) (hcr : m.getLast? ≠ some cr)
    (hlen : (lit "BROADCAST" ++ sp :: rest ++ m ++ [lf]).length < maxLineLen) :
    protocolParseServerLine (lit "BROADCAST" ++ sp :: rest ++ m ++ [lf]) =
      parseServerArgs (lit "BROADCAST") (rest ++ m) .zeroed := by
  unfold protocolParseServerLine
  rw [List.take_of_length_le (by omega), trimNewline_line hm hlf hcr, List.append_assoc, List.cons_append,
    splitFirstToken_append (by decide) (by decide)]

/-- **Room messages on the wire.** A name, a room and a text that the request
parser accepts come back from the broadcast line exactly when the room name
has no blank. -/
theorem broadcast_carries_iff {lu lr lm : Bytes} {cu cr cm : ParsedCmd} (hu : Accepts lu cu) (hcu : cu.cmd = .auth)
    (hr : Accepts lr cr) (hcr : cr.cmd = .joinRoom) (hm : Accepts lm cm) (hcm : cm.cmd = .msg) {ts : Bytes}
    (hts : ts ≠ [] ∧ ts.length < timestampLen ∧ sp ∉ ts ∧ 0 ∉ ts) :
    Carries (protocolParseServerLine (protocolBuildServerBroadcast maxLineLen (cstr cu.arg1) ts (cstr cr.arg1)
      (cstr cm.arg2)).2) (cstr cu.arg1) ts (cstr cr.arg1) (cstr cm.arg2) ↔ sp ∉ cstr cr.arg1 := by
  obtain ⟨hn, -⟩ := accepts_auth hu hcu
  have hrf := accepts_joinRoom hr hcr
  obtain ⟨hmf, hmlf, hmcr⟩ := accepts_msg hm hcm
  have u0 := nul_not_mem_cstr cu.arg1
  have r0 := nul_not_mem_cstr cr.arg1
  have m0 := nul_not_mem_cstr cm.arg2
  generalize cstr cu.arg1 = u at *
  generalize cstr cr.arg1 = r at *
  generalize cstr cm.arg2 = m at *
  have hul := hn.length_lt
  have hrl := hrf.length_lt
  have hml := hmf.length_lt
  have htl := hts.2.1
  simp only [maxUsernameLen, maxRoomNameLen, maxMsgLen, timestampLen] at hul hrl hml htl
  -- the line, split before the message
  let rest := u ++ sp :: (ts ++ sp :: (r ++ [sp]))
  have htext : lit "BROADCAST " ++ u ++ lit " " ++ ts ++ lit " " ++ r ++ lit " " ++ m ++ lit "\n" =
      lit "BROADCAST" ++ sp :: rest ++ m ++ [lf] := by
    simp only [rest, show lit "BROADCAST " = lit "BROADCAST" ++ [sp] by decide, show lit " " = [sp] by decide,
      show lit "\n" = [lf] by decide, List.append_assoc, List.cons_append, List.nil_append]
  have hlen : (lit "BROADCAST" ++ sp :: rest ++ m ++ [lf]).length < maxLineLen := by
    simp only [rest, List.length_append, List.length_cons, List.length_nil, show (lit "BROADCAST").length = 9 by decide,
      maxLineLen]
    omega
  have hparse := parse_broadcast_line hmf.ne_nil hmlf hmcr hlen
  have hrest : rest ++ m = u ++ sp :: (ts ++ sp :: (r ++ sp :: m)) := by simp [rest]
  rw [protocolBuildServerBroadcast, htext, buildLine_fits hlen]
  simp only
  rw [hparse, hrest]
  simp only [parseServerArgs, show lit "BROADCAST" ≠ lit "OK" by decide, show lit "BROADCAST" ≠ lit "ERR" by decide,
    show lit "BROADCAST" ≠ lit "WELCOME" by decide, ite_false, ite_true]
  constructor
  · rintro ⟨hok, -, -, -, hroom, -⟩ hsp
    rcases hp : parseFourFieldsRestMsg (u ++ sp :: (ts ++ sp :: (r ++ sp :: m))) ParsedResp.zeroed.username maxUsernameLen
      ParsedResp.zeroed.timestamp timestampLen ParsedResp.zeroed.room maxRoomNameLen ParsedResp.zeroed.message maxMsgLen
      with ⟨rc, g1, g2, g3, g4⟩
    simp only [hp] at hok hroom
    subst hok
    have h0 : 0 ∉ u ++ sp :: (ts ++ sp :: (r ++ sp :: m)) := by
      simp [u0, hts.2.2.2, r0, m0, sp]
    have := parseFourFields_room h0 (zeros_length _) (zeros_length _) (zeros_length _) hp
    rw [hroom] at this
    exact this hsp
  · intro hsp
    obtain ⟨g1, g2, g3, g4, hp, c1, c2, c3, c4⟩ := parseFourFields_append
      (show ParsedResp.zeroed.username.length = maxUsernameLen from zeros_length _)
      (show ParsedResp.zeroed.timestamp.length = timestampLen from zeros_length _)
      (show ParsedResp.zeroed.room.length = maxRoomNameLen from zeros_length _)
      (show ParsedResp.zeroed.message.length = maxMsgLen from zeros_length _)
      ⟨hn.ne_nil, hn.length_lt, hn.noSp, u0⟩ hts ⟨hrf.ne_nil, hrf.length_lt, hsp, r0⟩ ⟨hmf.ne_nil, hmf.length_lt, m0⟩
    rw [hp]
    exact ⟨rfl, rfl, c1, c2, c3, c4⟩

def parsedClient (line : Bytes) : ParsedCmd := (protocolParseClientLine line).2

instance (res : ChatStatus × ParsedResp) (username timestamp room message : Bytes) :
    Decidable (Carries res username timestamp room message) := inferInstanceAs (Decidable (_ ∧ _))

theorem broadcast_carries_lobby :
    Carries (protocolParseServerLine (protocolBuildServerBroadcast maxLineLen
      (cstr (parsedClient (lit "AUTH bob pw")).arg1) (lit "12:00") (cstr (parsedClient (lit "JOIN_ROOM den")).arg1)
      (cstr (parsedClient (lit "MSG hi all")).arg2)).2) (cstr (parsedClient (lit "AUTH bob pw")).arg1) (lit "12:00")
      (cstr (parsedClient (lit "JOIN_ROOM den")).arg1) (cstr (parsedClient (lit "MSG hi all")).arg2) :=
  (@broadcast_carries_iff (lit "AUTH bob pw") (lit "JOIN_ROOM den") (lit "MSG hi all") _ _ _ (by decide +kernel)
    (by decide +kernel) (by decide +kernel) (by decide +kernel) (by decide +kernel) (by decide +kernel) (lit "12:00")
    (by decide +kernel)).mpr (by decide +kernel)

/-- The room `a b` is accepted, and its messages are not read back. -/
theorem broadcast_blank_room :
    Accepts (lit "AUTH bob pw") (parsedClient (lit "AUTH bob pw")) ∧
    Accepts (lit "JOIN_ROOM a b") (parsedClient (lit "JOIN_ROOM a b")) ∧
    Accepts (lit "MSG hi all") (parsedClient (lit "MSG hi all")) ∧
    (parsedClient (lit "AUTH bob pw")).cmd = .auth ∧ cstr (parsedClient (lit "AUTH bob pw")).arg1 = lit "bob" ∧
    (parsedClient (lit "JOIN_ROOM a b")).cmd = .joinRoom ∧ cstr (parsedClient (lit "JOIN_ROOM a b")).arg1 = lit "a b" ∧
    (parsedClient (lit "MSG hi all")).cmd = .msg ∧ cstr (parsedClient (lit "MSG hi all")).arg2 = lit "hi all" ∧
    ¬ Carries (protocolParseServerLine (protocolBuildServerBroadcast maxLineLen (lit "bob") (lit "12:00") (lit "a b")
      (lit "hi all")).2) (lit "bob") (lit "12:00") (lit "a b") (lit "hi all") := by
  decide +kernel

end ChatServer

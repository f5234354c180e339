import ChatServer.FramingSound

/-!
# The grammar of requests is exact

`protocol_parse_client_line` accepts the requests of the grammar and no other
line, fills terminated fields, and what it returns for a command with
arguments is built back into the line.
-/

namespace ChatServer

open CStr

/-- The function that builds the line of a command with arguments. -/
def protocolBuildClient (buflen : Nat) (cmd : ClientCmd) (arg1 arg2 : Bytes) : Option (ChatStatus × Bytes) :=
  match cmd with
  | .auth => some (protocolBuildClientAuth buflen arg1 arg2)
  | .joinRoom => some (protocolBuildClientJoinRoom buflen arg1)
  | .msg => some (protocolBuildClientMsg buflen arg2)
  | .pm => some (protocolBuildClientPm buflen arg1 arg2)
  | .kick => some (protocolBuildClientKick buflen arg1)
  | .list | .history | .quit | .unknown => none

/-- The commands whose lines carry arguments. -/
def ClientCmd.HasArgs (cmd : ClientCmd) : Prop :=
  cmd = .auth ∨ cmd = .pm ∨ cmd = .joinRoom ∨ cmd = .kick ∨ cmd = .msg

/-! ## The fields -/

section
variable {n : Nat} {f s : Bytes}

theorem takeField_length {rest f' t : Bytes} (hf : f.length = n) (h : takeField rest f n = some (f', t)) : f'.length = n := by
  unfold takeField at h
  split at h
  · cases h
  · rename_i len hlen
    obtain ⟨hlt, -, -⟩ := strchr_some hlen
    split at h
    · cases h
    · rename_i hfit
      cases h
      rw [setNul_length, memcpy_length (by omega) (by omega), hf]

theorem parseTwoTokens_length {rest a b : Bytes} {m : Nat} (ha : a.length = n) (hb : b.length = m) :
    (parseTwoTokens rest a n b m).2.1.length = n ∧ (parseTwoTokens rest a n b m).2.2.length = m := by
  unfold parseTwoTokens
  split
  · exact ⟨ha, hb⟩
  · rename_i f msg hf
    split
    · exact ⟨takeField_length ha hf, by rw [setNul_length, strncpy_length (by omega), hb]⟩
    · exact ⟨takeField_length ha hf, hb⟩

theorem terminated_of_short (h : (cstr f).length < f.length) : 0 ∈ f := by
  by_contra h0
  rw [cstr_of_nulFree h0] at h
  exact Nat.lt_irrefl _ h

end

/-- The arrays of `parsed_cmd_t` keep their sizes. -/
theorem parse_client_length (line : Bytes) : (protocolParseClientLine line).2.arg1.length = maxUsernameLen ∧
    (protocolParseClientLine line).2.arg2.length = maxMsgLen := by
  have h₁ : (zeros maxUsernameLen).length = maxUsernameLen := zeros_length _
  have h₂ : (zeros maxMsgLen).length = maxMsgLen := zeros_length _
  have short : ∀ {n m : Nat} (s : Bytes), m ≤ n → (strncpy (zeros n) s m).length = n := by
    intro n m s h
    rw [strncpy_length (by rwa [zeros_length]), zeros_length]
  unfold protocolParseClientLine
  split
  · exact ⟨h₁, h₂⟩
  rename_i cmd rest _
  unfold parseClientArgs
  split
  · exact parseTwoTokens_length h₁ h₂
  split
  · split
    · exact ⟨short _ (by decide), h₂⟩
    · exact ⟨h₁, h₂⟩
  split
  · split
    · exact ⟨h₁, short _ (by decide)⟩
    · exact ⟨h₁, h₂⟩
  split
  · exact parseTwoTokens_length h₁ h₂
  split
  · exact ⟨h₁, h₂⟩
  split
  · exact ⟨h₁, h₂⟩
  split
  · split
    · exact ⟨short _ (by decide), h₂⟩
    · exact ⟨h₁, h₂⟩
  split
  · exact ⟨h₁, h₂⟩
  · exact ⟨h₁, h₂⟩

/-! ## Rejection -/

theorem parseTwoTokens_status (rest a : Bytes) (n : Nat) (b : Bytes) (m : Nat) :
    (parseTwoTokens rest a n b m).1 = .ok ∨ (parseTwoTokens rest a n b m).1 = .errProtocol := by
  unfold parseTwoTokens
  split
  · exact Or.inr rfl
  split
  · exact Or.inl rfl
  · exact Or.inr rfl

/-- A line that is not accepted is a protocol error. -/
theorem parse_client_status (line : Bytes) :
    (protocolParseClientLine line).1 = .ok ∨ (protocolParseClientLine line).1 = .errProtocol := by
  unfold protocolParseClientLine
  split
  · exact Or.inr rfl
  rename_i cmd rest _
  unfold parseClientArgs
  split
  · exact parseTwoTokens_status ..
  split
  · split
    · exact Or.inl rfl
    · exact Or.inr rfl
  split
  · split
    · exact Or.inl rfl
    · exact Or.inr rfl
  split
  · exact parseTwoTokens_status ..
  split
  · exact Or.inl rfl
  split
  · exact Or.inl rfl
  split
  · split
    · exact Or.inl rfl
    · exact Or.inr rfl
  split
  · exact Or.inl rfl
  · exact Or.inr rfl

/-! ## Building the line back -/

theorem Request.short {cmd : ClientCmd} {a b line : Bytes} (h : Request cmd a b line) : a.length < maxUsernameLen ∧ b.length < maxMsgLen := by
  have hnil : ([] : Bytes).length < maxUsernameLen ∧ ([] : Bytes).length < maxMsgLen := ⟨by decide, by decide⟩
  cases h with
  | auth hu hp => exact ⟨hu.length_lt, hp.length_lt⟩
  | joinRoom hr => exact ⟨hr.length_lt, hnil.2⟩
  | msg hm => exact ⟨hnil.1, hm.length_lt⟩
  | pm hu hm => exact ⟨hu.length_lt, hm.length_lt⟩
  | kick hu => exact ⟨hu.length_lt, hnil.2⟩
  | list | history | quit => exact hnil

theorem Request.rebuild {cmd : ClientCmd} {a b line : Bytes} (h : Request cmd a b line) (hargs : cmd.HasArgs) :
    protocolBuildClient maxLineLen cmd a b = some (.ok, line ++ lit "\n") := by
  have hlf : lit "\n" = [lf] := by decide
  have built : ∀ {c : ClientLine}, c.text = line → line.length + 1 < maxLineLen → c.build maxLineLen = (.ok, line ++ lit "\n") := by
    intro c hc hlen
    rw [ClientLine.build_eq, hc, buildLine_fits (by rw [List.length_append, List.length_singleton]; exact hlen), hlf]
  cases h with
  | auth hu hp =>
    have h₁ := hu.length_lt
    have h₂ := hp.length_lt
    simp only [maxUsernameLen, maxMsgLen] at h₁ h₂
    exact congrArg some (built (c := .auth a b) rfl (by simp [lit]; omega))
  | joinRoom hr =>
    have h₁ := hr.length_lt
    simp only [maxRoomNameLen] at h₁
    exact congrArg some (built (c := .joinRoom a) rfl (by simp [lit]; omega))
  | msg hm =>
    have h₁ := hm.length_lt
    simp only [maxMsgLen] at h₁
    exact congrArg some (built (c := .msg b) rfl (by simp [lit]; omega))
  | pm hu hm =>
    have h₁ := hu.length_lt
    have h₂ := hm.length_lt
    simp only [maxUsernameLen, maxMsgLen] at h₁ h₂
    exact congrArg some (built (c := .pm a b) rfl (by simp [lit]; omega))
  | kick hu =>
    have h₁ := hu.length_lt
    simp only [maxUsernameLen] at h₁
    exact congrArg some (built (c := .kick a) rfl (by simp [lit]; omega))
  | list | history | quit => simp [ClientCmd.HasArgs] at hargs

/-- **The grammar of requests is exact**: a line is accepted when and only when it
is a request, its parts are returned in terminated fields and built back into the
line, and every other line is a protocol error. -/
theorem requests_exact {line : Bytes} (h0 : 0 ∉ line) :
    ((protocolParseClientLine line).1 = .ok ↔ ∃ cmd a b, Request cmd a b line) ∧
      ((protocolParseClientLine line).1 ≠ .ok → (protocolParseClientLine line).1 = .errProtocol) ∧
      ∀ cmd a b, Request cmd a b line →
        ((protocolParseClientLine line).2.cmd = cmd ∧ cstr (protocolParseClientLine line).2.arg1 = a ∧
          cstr (protocolParseClientLine line).2.arg2 = b) ∧
        0 ∈ (protocolParseClientLine line).2.arg1 ∧ 0 ∈ (protocolParseClientLine line).2.arg2 ∧
        (cmd.HasArgs → protocolBuildClient maxLineLen cmd a b = some (.ok, line ++ lit "\n")) := by
  refine ⟨⟨fun hok => ?_, ?_⟩, fun hne => (parse_client_status line).resolve_left hne, fun cmd a b h => ?_⟩
  · exact ⟨_, _, _, parse_client_sound h0 (show protocolParseClientLine line = (.ok, (protocolParseClientLine line).2) from Prod.ext hok rfl)⟩
  · rintro ⟨cmd, a, b, h⟩
    obtain ⟨out, hout, -⟩ := parse_client_complete h0 h
    rw [hout]
  · obtain ⟨hl₁, hl₂⟩ := parse_client_length line
    obtain ⟨out, hout, hcmd, ha, hb⟩ := parse_client_complete h0 h
    rw [hout] at hl₁ hl₂ ⊢
    obtain ⟨hsa, hsb⟩ := h.short
    refine ⟨⟨hcmd, ha, hb⟩, terminated_of_short ?_, terminated_of_short ?_, h.rebuild⟩
    · rw [ha, hl₁]
      exact hsa
    · rw [hb, hl₂]
      exact hsb

theorem requests_exact_kick : (protocolParseClientLine (lit "KICK bob")).1 = .ok ∧
    protocolBuildClient maxLineLen .kick (lit "bob") [] = some (.ok, lit "KICK bob\n") ∧
    protocolBuildClient maxLineLen .pm (lit "ann") (lit "hi all") = some (.ok, lit "PM ann hi all\n") ∧
    (protocolParseClientLine (lit "AUTH bob")).1 = .errProtocol := by
  have hkick : Request .kick (lit "bob") [] (lit "KICK bob") := .kick ⟨by decide, by decide⟩
  have hpm : Request .pm (lit "ann") (lit "hi all") (lit "PM ann hi all") :=
    .pm ⟨by decide, by decide, by decide⟩ ⟨by decide, by decide⟩
  refine ⟨(requests_exact (by decide)).1.mpr ⟨_, _, _, hkick⟩, ?_, ?_, (requests_exact (by decide)).2.1 (by decide)⟩
  · exact ((requests_exact (by decide)).2.2 _ _ _ hkick).2.2.2 (by simp [ClientCmd.HasArgs])
  · exact ((requests_exact (by decide)).2.2 _ _ _ hpm).2.2.2 (by simp [ClientCmd.HasArgs])

end ChatServer

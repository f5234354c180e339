import ChatServer.FramingSound
import ChatServer.TextLines

/-!
# What a user types

The input loop of `client_run`. It reads standard input in pieces of at most
2047 bytes, takes each piece for a line and sends at most one line for it. A typed line
longer than a piece may so be sent as several commands, and a room name that
does not fit is sent without the newline.
-/

namespace ChatServer

open CStr

def parseAtPm (input : Bytes) (tlen mlen : Nat) : Option (Bytes × Bytes) :=
  if input.head? ≠ some 64 then none
  else
    match strchr (input.drop 1) sp with
    | none => none
    | some ulen =>
      if ulen = 0 ∨ ulen ≥ tlen then none
      else
        let body := input.drop (ulen + 2)
        if body = [] ∨ body.length ≥ mlen then none else some ((input.drop 1).take ulen, body)

/-- What an iteration does with its input: the string in `out` when it calls
`client_send_line`, and how it goes on. -/
inductive Turn where
  -- leaves the loop
  | quit (out : Bytes)
  -- goes on whatever the call returns
  | command (out : Bytes)
  -- leaves the loop where the call fails
  | message (out : Bytes)
  | skip
  deriving DecidableEq

def Turn.out : Turn → Option Bytes
  | quit out | command out | message out => some out
  | skip => none

def Turn.quits : Turn → Bool
  | quit _ => true
  | _ => false

def clientTurn (input : Bytes) : Turn :=
  if input = lit "/quit" ∨ input = lit "/exit" then .quit (protocolBuildClientQuit maxLineLen).2
  else if input = lit "/users" ∨ input = lit "/list" then .command (protocolBuildClientList maxLineLen).2
  else if lit "/join " <+: input then .command (protocolBuildClientJoinRoom maxLineLen (input.drop 6)).2
  else if input = lit "/history" then .command (protocolBuildClientHistory maxLineLen).2
  else if lit "/kick " <+: input then .command (protocolBuildClientKick maxLineLen (input.drop 6)).2
  else if input = [] then .skip
  else if input.head? = some 64 then
    match parseAtPm input maxUsernameLen maxMsgLen with
    | some (target, msg) => .command (protocolBuildClientPm maxLineLen target msg).2
    | none => .skip
  else if (protocolBuildClientMsg maxLineLen input).1 ≠ .ok then .skip
  else .message (protocolBuildClientMsg maxLineLen input).2

/-- What the loop meets in one iteration: whether the client is running, and what a call of `client_send_line` returns. -/
structure Moment where
  running : Bool
  sent : ChatStatus

def inputLen : Nat := maxLineLen - 1

/-- The string in `input` once it is trimmed. -/
def inputAt (stdin : Bytes) : Bytes := trimNewline (cstr (fgets inputLen stdin).1)

/-- The loop, with fuel for the iterations: the calls of `client_send_line`, each
with what was left of the input where its piece was read. -/
def clientLoop (env : Nat → Moment) : Nat → Nat → Bytes → List (Bytes × Bytes)
  | 0, _, _ => []
  | fuel + 1, i, stdin =>
    if (env i).running = false ∨ stdin = [] then []
    else
      let rest := (fgets inputLen stdin).2
      match clientTurn (inputAt stdin) with
      | .quit out => [(stdin, out)]
      | .command out => (stdin, out) :: clientLoop env fuel (i + 1) rest
      | .message out => (stdin, out) :: if (env i).sent = .ok then clientLoop env fuel (i + 1) rest else []
      | .skip => clientLoop env fuel (i + 1) rest

def clientSends (env : Nat → Moment) (stdin : Bytes) : List (Bytes × Bytes) := clientLoop env stdin.length 0 stdin

/-- One line, and all of it. -/
def CompleteLine (out : Bytes) : Prop := ∃ text, out = text ++ [lf] ∧ lf ∉ text

/-- Every call sends one whole line, each for a line typed, and there is at most one for a line. -/
def TypedExactly (stdin : Bytes) (sends : List (Bytes × Bytes)) : Prop :=
  (∀ x ∈ sends, CompleteLine x.2) ∧ (∀ x ∈ sends, ∃ start ∈ lineStarts stdin, x.1 ∈ lineReads inputLen start) ∧
    ∀ start ∈ lineStarts stdin, (sends.filter fun x => x.1 ∈ lineReads inputLen start).length ≤ 1

/-- The places up to the first one where the user leaves. -/
def untilQuit : List Bytes → List Bytes
  | [] => []
  | s :: starts => s :: if inputAt s = lit "/quit" ∨ inputAt s = lit "/exit" then [] else untilQuit starts

/-- The places where a run that nothing else ends reads its input. -/
def typed (stdin : Bytes) : List Bytes := untilQuit (reads inputLen stdin)

/-- A room that the buffer has no room for. -/
def LongJoin (input : Bytes) : Prop := lit "/join " <+: input ∧ 2036 < (input.drop 6).length

instance (input : Bytes) : Decidable (LongJoin input) := inferInstanceAs (Decidable (_ ∧ _))

/-! ## One line -/

theorem inputLen_pos : 0 < inputLen := by decide

theorem fgets_length (n : Nat) (s : Bytes) : (fgets n s).1.length ≤ n := by
  induction n generalizing s with
  | zero => exact Nat.le_refl _
  | succ n ih =>
    cases s with
    | nil => exact Nat.zero_le _
    | cons c s =>
      rw [fgets]
      split
      · exact Nat.succ_le_succ (Nat.zero_le _)
      · exact Nat.succ_le_succ (ih s)

/-- A piece has its newline at its end or none. -/
theorem fgets_newline (n : Nat) (s : Bytes) : ∃ w, lf ∉ w ∧ ((fgets n s).1 = w ∨ (fgets n s).1 = w ++ [lf]) := by
  induction n generalizing s with
  | zero => exact ⟨[], List.not_mem_nil, Or.inl rfl⟩
  | succ n ih =>
    cases s with
    | nil => exact ⟨[], List.not_mem_nil, Or.inl rfl⟩
    | cons c s =>
      rw [fgets]
      split
      · rename_i hc
        exact ⟨[], List.not_mem_nil, Or.inr (by rw [hc]; rfl)⟩
      · rename_i hc
        obtain ⟨w, hw, h⟩ := ih s
        have hcw : lf ∉ c :: w := by
          rw [List.mem_cons, not_or]
          exact ⟨Ne.symm hc, hw⟩
        exact ⟨c :: w, hcw, h.imp (congrArg (c :: ·)) (congrArg (c :: ·))⟩

theorem inputAt_spec (s : Bytes) : lf ∉ inputAt s ∧ (inputAt s).length ≤ inputLen := by
  obtain ⟨w, hw, h⟩ := fgets_newline inputLen s
  have hpre : ∀ {b : Bytes}, lf ∉ b → lf ∉ trimNewline (cstr b) := fun hb hl =>
    hb ((cstr_initial _).subset ((trimNewline_initial _).subset hl))
  refine ⟨?_, ?_⟩
  · rcases h with h | h
    · rw [inputAt, h]
      exact hpre hw
    · rw [inputAt, h]
      by_cases h0 : 0 ∈ w
      · rw [show cstr (w ++ [lf]) = cstr w from ?_]
        · exact hpre hw
        · obtain ⟨a, b, rfl, ha⟩ := List.eq_append_cons_of_mem h0
          rw [List.append_assoc, cstr_append ha, cstr_append ha, List.cons_append, cstr_nul, cstr_nul]
      · have hlf : cstr (w ++ [lf]) = w ++ [lf] := cstr_of_nulFree (by simp [h0, lf])
        rw [hlf, trimNewline_lf]
        exact fun hl => hw ((trimNewline_initial _).subset hl)
  · have h₁ := (trimNewline_initial (cstr (fgets inputLen s).1)).length_le
    have h₂ := (cstr_initial (fgets inputLen s).1).length_le
    exact h₁.trans (h₂.trans (fgets_length _ _))

theorem completeLine_build {c : ClientLine} (hfit : c.text.length + 1 < maxLineLen) (hlf : lf ∉ c.text) :
    CompleteLine (c.build maxLineLen).2 := by
  rw [ClientLine.build_eq, buildLine_fits (by rwa [List.length_append])]
  exact ⟨c.text, rfl, hlf⟩

/-- A line cut in the buffer has lost its newline. -/
theorem not_completeLine_build {c : ClientLine} (hlong : maxLineLen ≤ c.text.length + 1) (hlf : lf ∉ c.text) :
    ¬ CompleteLine (c.build maxLineLen).2 := by
  rw [ClientLine.build_eq, buildLine_overflows (by rwa [List.length_append])]
  rintro ⟨text, htext, -⟩
  have hcut : (c.text ++ [lf]).take (maxLineLen - 1) = c.text.take (maxLineLen - 1) := List.take_append_of_le_length (by omega)
  have hmem : lf ∈ c.text.take (maxLineLen - 1) := by
    rw [← hcut, show (c.text ++ [lf]).take (maxLineLen - 1) = text ++ [lf] from htext]
    exact List.mem_append_right _ (List.mem_singleton_self _)
  exact hlf (List.mem_of_mem_take hmem)

section
variable {input : Bytes} (hlf : lf ∉ input)
include hlf

theorem parseAtPm_fields {target msg : Bytes} (h : parseAtPm input maxUsernameLen maxMsgLen = some (target, msg)) :
    target.length < maxUsernameLen ∧ msg.length < maxMsgLen ∧ lf ∉ target ∧ lf ∉ msg := by
  unfold parseAtPm at h
  split at h
  · cases h
  split at h
  · cases h
  · split at h
    · cases h
    · rename_i hu
      simp only at h
      split at h
      · cases h
      · rename_i hb
        cases h
        rw [not_or] at hu hb
        refine ⟨?_, Nat.lt_of_not_le hb.2, fun hm => hlf (List.mem_of_mem_drop (List.mem_of_mem_take hm)),
          fun hm => hlf (List.mem_of_mem_drop hm)⟩
        rw [List.length_take]
        have := Nat.lt_of_not_le hu.2
        omega

/-- A turn sends one whole line unless a room does not fit. -/
theorem clientTurn_complete_iff (hlen : input.length ≤ inputLen) {out : Bytes} (hout : (clientTurn input).out = some out) :
    CompleteLine out ↔ ¬ LongJoin input := by
  simp only [inputLen, maxLineLen] at hlen
  have hdrop : lf ∉ input.drop 6 := fun h => hlf (List.mem_of_mem_drop h)
  have hjoin : (lit "JOIN_ROOM").length = 9 ∧ lf ∉ lit "JOIN_ROOM" := by decide
  have hkick : (lit "KICK").length = 4 ∧ lf ∉ lit "KICK" := by decide
  have hmsg : (lit "MSG").length = 3 ∧ lf ∉ lit "MSG" := by decide
  have hpm : (lit "PM").length = 2 ∧ lf ∉ lit "PM" := by decide
  have hsp : lf ≠ sp := by decide
  have hshort : ∀ {s : Bytes}, input = s → s.length ≤ 8 → ¬ LongJoin input := by
    rintro s rfl hs ⟨-, hl⟩
    rw [List.length_drop] at hl
    omega
  unfold clientTurn at hout
  split at hout
  · -- `/quit`
    rename_i hin
    cases hout
    refine iff_of_true (completeLine_build (c := .quit) (by decide) (by decide)) ?_
    rcases hin with hin | hin
    · exact hshort hin (by decide)
    · exact hshort hin (by decide)
  split at hout
  · -- `/users`
    rename_i hin
    cases hout
    refine iff_of_true (completeLine_build (c := .list) (by decide) (by decide)) ?_
    rcases hin with hin | hin
    · exact hshort hin (by decide)
    · exact hshort hin (by decide)
  split at hout
  · -- `/join`
    rename_i hin
    cases hout
    have htext : (ClientLine.joinRoom (input.drop 6)).text.length = (input.drop 6).length + 10 := by
      rw [ClientLine.text, List.length_append, List.length_cons, hjoin.1]
      omega
    have hroom : lf ∉ (ClientLine.joinRoom (input.drop 6)).text := by
      rw [ClientLine.text, List.mem_append, List.mem_cons, not_or, not_or]
      exact ⟨hjoin.2, hsp, hdrop⟩
    by_cases hlong : 2036 < (input.drop 6).length
    · exact iff_of_false (not_completeLine_build (by rw [htext, maxLineLen]; omega) hroom) fun h => h ⟨hin, hlong⟩
    · exact iff_of_true (completeLine_build (by rw [htext, maxLineLen]; omega) hroom) fun h => hlong h.2
  rename_i hnotJoin
  have hnot : ¬ LongJoin input := fun h => hnotJoin h.1
  split at hout
  · -- `/history`
    cases hout
    exact iff_of_true (completeLine_build (c := .history) (by decide) (by decide)) hnot
  split at hout
  · -- `/kick`
    cases hout
    refine iff_of_true (completeLine_build (c := .kick (input.drop 6)) ?_ ?_) hnot
    · rw [ClientLine.text, List.length_append, List.length_cons, hkick.1, List.length_drop, maxLineLen]
      omega
    · rw [ClientLine.text, List.mem_append, List.mem_cons, not_or, not_or]
      exact ⟨hkick.2, hsp, hdrop⟩
  split at hout
  · cases hout
  split at hout
  · -- `@user`
    split at hout
    · rename_i target msg hparse
      cases hout
      obtain ⟨htl, hml, htlf, hmlf⟩ := parseAtPm_fields hlf hparse
      simp only [maxUsernameLen, maxMsgLen] at htl hml
      refine iff_of_true (completeLine_build (c := .pm target msg) ?_ ?_) hnot
      · simp only [ClientLine.text, List.length_append, List.length_cons, hpm.1, maxLineLen]
        omega
      · simp only [ClientLine.text, List.mem_append, List.mem_cons, not_or]
        exact ⟨hpm.2, hsp, htlf, hsp, hmlf⟩
    · cases hout
  split at hout
  · cases hout
  · -- a message
    rename_i hok
    cases hout
    rw [not_not] at hok
    have hfit : (ClientLine.msg input).text.length + 1 < maxLineLen := by
      by_contra hover
      have herr : ((ClientLine.msg input).build maxLineLen).1 = .err := by
        rw [ClientLine.build_eq, buildLine_overflows (by rw [List.length_append]; exact Nat.le_of_not_lt hover)]
      exact ChatStatus.noConfusion (herr.symm.trans hok)
    refine iff_of_true (completeLine_build (c := .msg input) hfit ?_) hnot
    rw [ClientLine.text, List.mem_append, List.mem_cons, not_or, not_or]
    exact ⟨hmsg.2, hsp, hlf⟩

end

/-! ## Every run -/

theorem clientTurn_quits_iff (input : Bytes) :
    (clientTurn input).quits = true ↔ input = lit "/quit" ∨ input = lit "/exit" := by
  unfold clientTurn
  by_cases hquit : input = lit "/quit" ∨ input = lit "/exit"
  · rw [if_pos hquit]
    exact iff_of_true rfl hquit
  · rw [if_neg hquit]
    refine iff_of_false ?_ hquit
    split
    · exact Bool.false_ne_true
    split
    · exact Bool.false_ne_true
    split
    · exact Bool.false_ne_true
    split
    · exact Bool.false_ne_true
    split
    · exact Bool.false_ne_true
    split
    · split <;> exact Bool.false_ne_true
    split <;> exact Bool.false_ne_true

/-- The loop ends where the user leaves. -/
theorem untilQuit_cons (s : Bytes) (starts : List Bytes) :
    untilQuit (s :: starts) = s :: if (clientTurn (inputAt s)).quits then [] else untilQuit starts := by
  rw [untilQuit]
  exact congrArg _ (if_congr (clientTurn_quits_iff _).symm rfl rfl)

/-- What is sent for a piece, with the place it was read at. -/
def sendAt (s : Bytes) : Option (Bytes × Bytes) := (clientTurn (inputAt s)).out.map (Prod.mk s)

/-- The client runs, and every call of `client_send_line` succeeds. -/
def undisturbed : Nat → Moment := fun _ => { running := true, sent := .ok }

theorem clientLoop_undisturbed : ∀ (fuel i : Nat) {stdin : Bytes}, stdin.length ≤ fuel →
    clientLoop undisturbed fuel i stdin = (untilQuit (reads inputLen stdin)).filterMap sendAt
  | 0, i, stdin, hfuel => by
    rw [List.length_eq_zero_iff.mp (Nat.le_zero.mp hfuel), reads_nil]
    rfl
  | fuel + 1, i, stdin, hfuel => by
    rw [clientLoop]
    by_cases hnil : stdin = []
    · subst hnil
      rw [if_pos (Or.inr rfl), reads_nil]
      rfl
    have hgo : ¬ ((undisturbed i).running = false ∨ stdin = []) := fun h => h.elim Bool.noConfusion hnil
    have hlt := fgets_shorter inputLen_pos hnil
    have ih := clientLoop_undisturbed fuel (i + 1) (show (fgets inputLen stdin).2.length ≤ fuel by omega)
    rw [if_neg hgo, reads_eq inputLen_pos hnil, untilQuit_cons, List.filterMap_cons]
    cases hturn : clientTurn (inputAt stdin) with
    | quit out => simp only [sendAt, hturn, Turn.out, Turn.quits, Option.map_some, if_true, List.filterMap_nil]
    | command out =>
      simp only [sendAt, hturn, Turn.out, Turn.quits, Option.map_some, Bool.false_eq_true, if_false, ih]
    | message out =>
      simp only [sendAt, hturn, Turn.out, Turn.quits, Option.map_some, Bool.false_eq_true, if_false, undisturbed, if_true]
      exact congrArg _ ih
    | skip =>
      simp only [sendAt, hturn, Turn.out, Turn.quits, Option.map_none, Bool.false_eq_true, if_false, ih]

theorem TypedExactly.sublist {stdin : Bytes} {sends sends' : List (Bytes × Bytes)} (h : TypedExactly stdin sends)
    (hsub : sends'.Sublist sends) : TypedExactly stdin sends' :=
  ⟨fun x hx => h.1 x (hsub.subset hx), fun x hx => h.2.1 x (hsub.subset hx),
    fun start hstart => (hsub.filter _).length_le.trans (h.2.2 start hstart)⟩

theorem untilQuit_sublist : ∀ starts, (untilQuit starts).Sublist starts
  | [] => List.Sublist.refl _
  | s :: starts => by
    rw [untilQuit]
    refine List.Sublist.cons_cons _ ?_
    split
    · exact List.nil_sublist _
    · exact untilQuit_sublist starts

theorem mem_sends {starts : List Bytes} {x : Bytes × Bytes} :
    x ∈ starts.filterMap sendAt ↔ x.1 ∈ starts ∧ (clientTurn (inputAt x.1)).out = some x.2 := by
  rw [List.mem_filterMap]
  constructor
  · rintro ⟨s, hs, hx⟩
    obtain ⟨out, hout, rfl⟩ := Option.map_eq_some_iff.mp hx
    exact ⟨hs, hout⟩
  · rintro ⟨hs, hout⟩
    exact ⟨x.1, hs, Option.map_eq_some_iff.mpr ⟨x.2, hout, rfl⟩⟩

theorem LongJoin.sent {input : Bytes} (h : LongJoin input) :
    (clientTurn input).out = some (protocolBuildClientJoinRoom maxLineLen (input.drop 6)).2 := by
  have hshort : ∀ {s : Bytes}, s.length ≤ 8 → input ≠ s := by
    rintro s hs rfl
    have hl := h.2
    rw [List.length_drop] at hl
    omega
  rw [clientTurn, if_neg (not_or.mpr ⟨hshort (by decide), hshort (by decide)⟩),
    if_neg (not_or.mpr ⟨hshort (by decide), hshort (by decide)⟩), if_pos h.1]
  rfl

theorem complete_sends_iff (starts : List Bytes) :
    (∀ x ∈ starts.filterMap sendAt, CompleteLine x.2) ↔ ∀ s ∈ starts, ¬ LongJoin (inputAt s) := by
  constructor
  · intro h s hs hlong
    obtain ⟨hlf, hlen⟩ := inputAt_spec s
    have hcomplete := h (s, _) (mem_sends.mpr ⟨hs, hlong.sent⟩)
    exact (clientTurn_complete_iff hlf hlen hlong.sent).mp hcomplete hlong
  · intro h x hx
    obtain ⟨hs, hout⟩ := mem_sends.mp hx
    obtain ⟨hlf, hlen⟩ := inputAt_spec x.1
    exact (clientTurn_complete_iff hlf hlen hout).mpr (h x.1 hs)

theorem length_sends (p : Bytes → Bool) : ∀ starts : List Bytes, ((starts.filterMap sendAt).filter fun x => p x.1).length =
    (starts.filter fun s => p s && (clientTurn (inputAt s)).out.isSome).length
  | [] => rfl
  | s :: starts => by
    have ih := length_sends p starts
    rw [List.filterMap_cons, List.filter_cons]
    cases hout : (clientTurn (inputAt s)).out with
    | none =>
      simp only [sendAt, hout, Option.map_none, Option.isSome_none, Bool.and_false, Bool.false_eq_true, if_false]
      exact ih
    | some out =>
      simp only [sendAt, hout, Option.map_some, Option.isSome_some, Bool.and_true, List.filter_cons]
      split
      · rw [List.length_cons, List.length_cons]
        exact congrArg (· + 1) ih
      · exact ih

/-- The run that nothing else ends. -/
theorem undisturbed_iff {stdin : Bytes} : TypedExactly stdin (clientSends undisturbed stdin) ↔
    (∀ s ∈ typed stdin, ¬ LongJoin (inputAt s)) ∧
      ∀ start ∈ lineStarts stdin,
        ((typed stdin).filter fun s => decide (s ∈ lineReads inputLen start) && (clientTurn (inputAt s)).out.isSome).length ≤ 1 := by
  have hline : ∀ x ∈ (typed stdin).filterMap sendAt, ∃ start ∈ lineStarts stdin, x.1 ∈ lineReads inputLen start := fun x hx =>
    exists_line_of_read inputLen_pos ((untilQuit_sublist _).subset (mem_sends.mp hx).1)
  rw [clientSends, clientLoop_undisturbed _ _ (Nat.le_refl _), TypedExactly]
  refine and_congr (complete_sends_iff _) ?_
  refine (and_iff_right hline).trans (forall₂_congr fun start _ => ?_)
  rw [length_sends fun s => decide (s ∈ lineReads inputLen start)]
  rfl

end ChatServer

import ChatServer.Accounts
import ChatServer.Replies
import ChatServer.RequestGrammar
import ChatServer.Typing

/-!
# From the keyboard to the handler

What a typed line asks for, when it is sent as one line, and that the server is
asked for that: over a whole session the requests read off the stream are those
that were typed, in their order, each with its own fields, and the ones whose
fields are too long are refused one by one.
-/

namespace ChatServer

open CStr

/-- The room for the text of a message in the line that carries it. -/
def msgRoom : Nat := 2042

/-- The name and the text of `@name text`. -/
def privateTo (s : Bytes) : Option (Bytes × Bytes) :=
  let name := (s.drop 1).takeWhile (· ≠ sp)
  let text := s.drop (name.length + 2)
  if sp ∈ s.drop 1 ∧ name ≠ [] ∧ name.length < maxUsernameLen ∧ text ≠ [] ∧ text.length < maxMsgLen then some (name, text)
  else none

theorem privateTo_inv {s name text : Bytes} (h : privateTo s = some (name, text)) :
    name = (s.drop 1).takeWhile (· ≠ sp) ∧ text = s.drop (name.length + 2) ∧ name ≠ [] ∧ name.length < maxUsernameLen ∧
      text ≠ [] ∧ text.length < maxMsgLen := by
  simp only [privateTo] at h
  split at h
  · rename_i hfields
    cases h
    exact ⟨rfl, rfl, hfields.2⟩
  · cases h

/-- What a line asks for, as the help line of the client says it. -/
def meant (s : Bytes) : Option ClientLine :=
  if s = [] then none
  else if s = lit "/quit" ∨ s = lit "/exit" then some .quit
  else if s = lit "/users" ∨ s = lit "/list" then some .list
  else if s = lit "/history" then some .history
  else if lit "/join " <+: s then some (.joinRoom (s.drop 6))
  else if lit "/kick " <+: s then some (.kick (s.drop 6))
  else if s.head? = some 64 then (privateTo s).map fun p => .pm p.1 p.2
  else if s.length ≤ msgRoom then some (.msg s)
  else none

/-- The fields are as long as a request's may be. -/
def ClientLine.Fitting : ClientLine → Prop
  | .joinRoom room => room ≠ [] ∧ room.length < maxRoomNameLen
  | .kick username => username ≠ [] ∧ username.length < maxUsernameLen
  | .msg message => message ≠ [] ∧ message.length < maxMsgLen
  | .auth .. | .pm .. | .list | .history | .quit => True

instance : DecidablePred ClientLine.Fitting := fun c => by
  cases c <;> unfold ClientLine.Fitting <;> infer_instance

/-- The request as the server has it; `none` where it answers with an error. -/
def ClientLine.heard (c : ClientLine) : Option (ClientCmd × Bytes × Bytes) := if c.Fitting then some c.fields else none

/-- The request that came of one line of the stream. -/
def requestRead (p : ChatStatus × ClientCmd × Bytes × Bytes) : Option (ClientCmd × Bytes × Bytes) :=
  if p.1 = .ok then some p.2 else none

/-! ## One line -/

/-- A string is the bytes before its first blank, and what stands behind it. -/
theorem takeWhile_strchr {s : Bytes} {n : Nat} (h : strchr s sp = some n) :
    s.takeWhile (· ≠ sp) = s.take n ∧ sp ∈ s ∧ n < s.length := by
  obtain ⟨hlt, hsp, hsplit⟩ := strchr_some h
  refine ⟨?_, by rw [hsplit]; simp, hlt⟩
  have hall : ∀ c ∈ s.take n, decide (c ≠ sp) = true := fun c hc => decide_eq_true fun he => hsp (he ▸ hc)
  conv_lhs => rw [hsplit]
  rw [List.takeWhile_append_of_pos hall, List.takeWhile_cons_of_neg (by simp), List.append_nil]

theorem parseAtPm_eq {s : Bytes} (hat : s.head? = some 64) : parseAtPm s maxUsernameLen maxMsgLen = privateTo s := by
  unfold parseAtPm privateTo
  rw [if_neg (not_not.mpr hat)]
  cases hfind : strchr (s.drop 1) sp with
  | none =>
    have hno : sp ∉ s.drop 1 := strchr_none.mp hfind
    simp only [hno, false_and, if_false]
  | some n =>
    obtain ⟨htake, hmem, hlt⟩ := takeWhile_strchr hfind
    have hlen : ((s.drop 1).take n).length = n := by
      rw [List.length_take]
      omega
    simp only [htake, hlen, hmem, true_and]
    have hempty : (s.drop 1).take n ≠ [] ↔ n ≠ 0 := by
      rw [← List.length_pos_iff, hlen, Nat.pos_iff_ne_zero]
    by_cases hname : n = 0 ∨ n ≥ maxUsernameLen
    · rw [if_pos hname, if_neg]
      rintro ⟨hne, hle, -⟩
      exact hname.elim (hempty.mp hne) (Nat.not_le.mpr hle)
    · rw [if_neg hname]
      rw [not_or, Nat.not_le] at hname
      by_cases htext : s.drop (n + 2) = [] ∨ (s.drop (n + 2)).length ≥ maxMsgLen
      · rw [if_pos htext, if_neg]
        rintro ⟨-, -, hne, hle⟩
        exact htext.elim hne (Nat.not_le.mpr hle)
      · rw [if_neg htext]
        rw [not_or, Nat.not_le] at htext
        rw [if_pos ⟨hempty.mpr hname.1, hname.2, htext.1, htext.2⟩]

/-- An iteration of the input loop sends the line that builds what was meant. -/
theorem clientTurn_meant (s : Bytes) : (clientTurn s).out = (meant s).map fun c => (c.build maxLineLen).2 := by
  unfold clientTurn meant
  by_cases hquit : s = lit "/quit" ∨ s = lit "/exit"
  · have hne : s ≠ [] := by rcases hquit with rfl | rfl <;> decide
    rw [if_pos hquit, if_neg hne, if_pos hquit]
    rfl
  rw [if_neg hquit]
  by_cases hlist : s = lit "/users" ∨ s = lit "/list"
  · have hne : s ≠ [] := by rcases hlist with rfl | rfl <;> decide
    rw [if_pos hlist, if_neg hne, if_neg hquit, if_pos hlist]
    rfl
  rw [if_neg hlist]
  by_cases hjoin : lit "/join " <+: s
  · have hne : s ≠ [] := by
      rintro rfl
      exact absurd hjoin (by decide)
    have hhist : s ≠ lit "/history" := by
      rintro rfl
      exact absurd hjoin (by decide)
    rw [if_pos hjoin, if_neg hne, if_neg hquit, if_neg hlist, if_neg hhist, if_pos hjoin]
    rfl
  rw [if_neg hjoin]
  by_cases hhist : s = lit "/history"
  · have hne : s ≠ [] := by
      rw [hhist]
      decide
    rw [if_pos hhist, if_neg hne, if_neg hquit, if_neg hlist, if_pos hhist]
    rfl
  rw [if_neg hhist]
  by_cases hkick : lit "/kick " <+: s
  · have hne : s ≠ [] := by
      rintro rfl
      exact absurd hkick (by decide)
    rw [if_pos hkick, if_neg hne, if_neg hquit, if_neg hlist, if_neg hhist, if_neg hjoin, if_pos hkick]
    rfl
  rw [if_neg hkick]
  by_cases hne : s = []
  · rw [if_pos hne, if_pos hne]
    rfl
  rw [if_neg hne, if_neg hne, if_neg hquit, if_neg hlist, if_neg hhist, if_neg hjoin, if_neg hkick]
  by_cases hat : s.head? = some 64
  · rw [if_pos hat, if_pos hat, parseAtPm_eq hat]
    split
    · rename_i hpm
      rw [hpm]
      rfl
    · rename_i hpm
      rw [hpm]
      rfl
  · rw [if_neg hat, if_neg hat]
    have hbuild : protocolBuildClientMsg maxLineLen s = buildLine maxLineLen ((ClientLine.msg s).text ++ [lf]) :=
      ClientLine.build_eq maxLineLen (.msg s)
    have hlen : ((ClientLine.msg s).text ++ [lf]).length = s.length + 5 := by
      rw [ClientLine.text, List.length_append, List.length_append, List.length_cons, show (lit "MSG").length = 3 by decide]
      simp only [List.length_singleton]
      omega
    by_cases hfit : s.length ≤ msgRoom
    · have hok : (protocolBuildClientMsg maxLineLen s).1 = .ok := by
        rw [hbuild, buildLine_fits (by rw [hlen, maxLineLen]; simp only [msgRoom] at hfit; omega)]
      rw [if_neg (not_not.mpr hok), if_pos hfit]
      rfl
    · have herr : (protocolBuildClientMsg maxLineLen s).1 = .err := by
        rw [hbuild, buildLine_overflows (by rw [hlen, maxLineLen]; simp only [msgRoom] at hfit; omega)]
      rw [if_pos (by rw [herr]; exact ChatStatus.noConfusion), if_neg hfit]
      rfl

/-! ## One line for a line -/

/-- Nothing is sent for the piece: it is empty, it begins with `@` and is no
private message, or it is a message that its line has no room for. -/
def Mute (s : Bytes) : Prop :=
  s = [] ∨ (s.head? = some 64 ∧ privateTo s = none) ∨
    (s.head? ≠ some 64 ∧ ¬ lit "/join " <+: s ∧ ¬ lit "/kick " <+: s ∧ msgRoom < s.length)

instance (s : Bytes) : Decidable (Mute s) := inferInstanceAs (Decidable (_ ∨ _ ∨ _))

/-- A command with its argument is sent. -/
theorem not_mute_of_command {word s : Bytes} (hword : word = lit "/join " ∨ word = lit "/kick ") (h : word <+: s) : ¬ Mute s := by
  have hhead : s.head? = some 47 := by
    obtain ⟨rest, rfl⟩ := h
    rcases hword with rfl | rfl
    · exact List.head?_append_of_ne_nil _ (by decide)
    · exact List.head?_append_of_ne_nil _ (by decide)
  rintro (hne | ⟨hat, -⟩ | ⟨-, hjoin, hkick, -⟩)
  · rw [hne] at hhead
    cases hhead
  · rw [hat] at hhead
    exact absurd (Option.some.inj hhead) (by decide)
  · rcases hword with rfl | rfl
    · exact hjoin h
    · exact hkick h

theorem meant_none_iff (s : Bytes) : meant s = none ↔ Mute s := by
  unfold meant
  by_cases hne : s = []
  · rw [if_pos hne]
    exact iff_of_true rfl (Or.inl hne)
  rw [if_neg hne]
  by_cases hquit : s = lit "/quit" ∨ s = lit "/exit"
  · rw [if_pos hquit]
    refine iff_of_false (Option.some_ne_none _) ?_
    rcases hquit with rfl | rfl
    · decide
    · decide
  rw [if_neg hquit]
  by_cases hlist : s = lit "/users" ∨ s = lit "/list"
  · rw [if_pos hlist]
    refine iff_of_false (Option.some_ne_none _) ?_
    rcases hlist with rfl | rfl
    · decide
    · decide
  rw [if_neg hlist]
  by_cases hhist : s = lit "/history"
  · rw [if_pos hhist, hhist]
    exact iff_of_false (Option.some_ne_none _) (by decide)
  rw [if_neg hhist]
  by_cases hjoin : lit "/join " <+: s
  · rw [if_pos hjoin]
    exact iff_of_false (Option.some_ne_none _) (not_mute_of_command (Or.inl rfl) hjoin)
  rw [if_neg hjoin]
  by_cases hkick : lit "/kick " <+: s
  · rw [if_pos hkick]
    exact iff_of_false (Option.some_ne_none _) (not_mute_of_command (Or.inr rfl) hkick)
  rw [if_neg hkick]
  by_cases hat : s.head? = some 64
  · rw [if_pos hat, Option.map_eq_none_iff]
    simp [Mute, hne, hat]
  rw [if_neg hat]
  by_cases hfit : s.length ≤ msgRoom
  · rw [if_pos hfit]
    simp [Mute, hne, hat, hfit]
  · rw [if_neg hfit]
    simp [Mute, hne, hat, hjoin, hkick, Nat.lt_of_not_le hfit]

theorem clientTurn_isSome (s : Bytes) : (clientTurn s).out.isSome = !decide (Mute s) := by
  rw [clientTurn_meant, Option.isSome_map, Bool.eq_iff_iff, Bool.not_eq_true', decide_eq_false_iff_not, ← meant_none_iff,
    Option.isSome_iff_ne_none]

/-- What an iteration does depends on no moment but its own: a run that ends early sends the beginning. -/
theorem clientLoop_initial (env : Nat → Moment) : ∀ (fuel i : Nat) (stdin : Bytes),
    clientLoop env fuel i stdin <+: (untilQuit (reads inputLen stdin)).filterMap sendAt
  | 0, _, _ => List.nil_prefix
  | fuel + 1, i, stdin => by
    rw [clientLoop]
    by_cases hstop : (env i).running = false ∨ stdin = []
    · rw [if_pos hstop]
      exact List.nil_prefix
    rw [if_neg hstop, reads_eq inputLen_pos fun h => hstop (Or.inr h), untilQuit_cons, List.filterMap_cons]
    have ih := clientLoop_initial env fuel (i + 1) (fgets inputLen stdin).2
    cases hturn : clientTurn (inputAt stdin) with
    | quit out =>
      simp only [sendAt, hturn, Turn.out, Turn.quits, Option.map_some, if_true, List.filterMap_nil]
      exact List.prefix_rfl
    | command out =>
      simp only [sendAt, hturn, Turn.out, Turn.quits, Option.map_some, Bool.false_eq_true, if_false]
      exact List.cons_prefix_cons.mpr ⟨rfl, ih⟩
    | message out =>
      simp only [sendAt, hturn, Turn.out, Turn.quits, Option.map_some, Bool.false_eq_true, if_false]
      refine List.cons_prefix_cons.mpr ⟨rfl, ?_⟩
      split
      · exact ih
      · exact List.nil_prefix
    | skip =>
      simp only [sendAt, hturn, Turn.out, Turn.quits, Option.map_none, Bool.false_eq_true, if_false]
      exact ih

/-- **A typed line is sent as at most one whole line**, in every run, exactly when no
piece joins a room that does not fit and no line is read in two pieces of which
neither is mute. -/
theorem typed_exactly_iff {stdin : Bytes} : (∀ env, TypedExactly stdin (clientSends env stdin)) ↔
    (∀ s ∈ typed stdin, ¬ LongJoin (inputAt s)) ∧
      ∀ start ∈ lineStarts stdin,
        ((typed stdin).filter fun s => decide (s ∈ lineReads inputLen start) && !decide (Mute (inputAt s))).length ≤ 1 := by
  simp only [← clientTurn_isSome]
  rw [← undisturbed_iff]
  refine ⟨fun h => h undisturbed, fun h env => h.sublist ?_⟩
  rw [clientSends, clientSends, clientLoop_undisturbed _ _ (Nat.le_refl _)]
  exact (clientLoop_initial env _ _ _).sublist

/-- The first piece of the line is too long for a message, the second is sent. -/
def cutLine : Bytes := List.replicate 2047 120 ++ lit "hi\n"

theorem typed_exactly_iff_cut : TypedExactly cutLine (clientSends undisturbed cutLine) := by
  have hrest : (fgets inputLen cutLine).2 = lit "hi\n" := by decide +kernel
  have hnext : (fgets inputLen (lit "hi\n")).2 = [] := by decide +kernel
  have htyped : typed cutLine = [cutLine, lit "hi\n"] := by
    rw [typed, reads_eq inputLen_pos (by decide +kernel), hrest, reads_eq inputLen_pos (by decide), hnext, reads_nil, untilQuit,
      if_neg (by decide +kernel), untilQuit, if_neg (by decide +kernel), untilQuit]
  refine typed_exactly_iff.mpr ⟨?_, fun start _ => ?_⟩ undisturbed
  · rw [htyped, List.forall_mem_cons, List.forall_mem_singleton]
    exact ⟨by decide +kernel, by decide +kernel⟩
  · have hmute : Mute (inputAt cutLine) := by decide +kernel
    rw [htyped, List.filter_cons_of_neg (by simp [hmute])]
    exact List.length_filter_le _ [lit "hi\n"]

/-- `/join` with a room of 2037 bytes: the line is sent without its newline. -/
theorem long_join_sent : ¬ ∀ stdin env, 0 ∉ stdin → TypedExactly stdin (clientSends env stdin) := by
  intro h
  have hfit := (undisturbed_iff.mp (h (lit "/join " ++ List.replicate 2037 120 ++ [lf]) undisturbed (by decide +kernel))).1
  refine hfit (lit "/join " ++ List.replicate 2037 120 ++ [lf]) ?_ (by decide +kernel)
  rw [typed, reads_eq inputLen_pos (List.append_ne_nil_of_right_ne_nil _ (List.cons_ne_nil _ _)), untilQuit]
  exact List.mem_cons_self ..

/-! ## The requests that travel -/

/-- A request that travels as one line, however long its fields. -/
structure ClientLine.Sendable (c : ClientLine) : Prop where
  whole : WholeLine c.text
  trimmed : trimNewline c.text = c.text
  valid : c.Fitting → c.Valid

theorem last_drop {s : Bytes} (hs : WireLine s) (n : Nat) : Last (s.drop n) where
  noNul h := hs.noNul (List.mem_of_mem_drop h)
  noLf h := hs.noLf (List.mem_of_mem_drop h)
  noCr := by
    rw [List.getLast?_drop]
    split
    · exact (Option.some_ne_none _).symm
    · exact hs.noCr

theorem wholeLine_one {word t : Bytes} (hword : Plain word) (ht : Plain t) (hlen : word.length + t.length + 2 < maxLineLen) :
    WholeLine (word ++ sp :: t) where
  noNul := (hword.join ht).noNul
  noLf := (hword.join ht).noLf
  length_lt := by
    rw [List.length_append, List.length_cons]
    omega

theorem meant_sendable {s : Bytes} (hs : WireLine s) (hlen : s.length ≤ inputLen) (hjoin : ¬ LongJoin s) {c : ClientLine}
    (h : meant s = some c) : c.Sendable := by
  have hdrop : (s.drop 6).length = s.length - 6 := List.length_drop
  simp only [inputLen, maxLineLen] at hlen
  unfold meant at h
  split at h
  · cases h
  split at h
  · cases h
    exact ⟨⟨by decide, by decide, by decide⟩, by decide, fun _ => trivial⟩
  split at h
  · cases h
    exact ⟨⟨by decide, by decide, by decide⟩, by decide, fun _ => trivial⟩
  split at h
  · cases h
    exact ⟨⟨by decide, by decide, by decide⟩, by decide, fun _ => trivial⟩
  split at h
  · -- `/join`
    rename_i hpre
    cases h
    have hlast := last_drop hs 6
    have hroom : (s.drop 6).length ≤ 2036 := Nat.le_of_not_lt fun hlong => hjoin ⟨hpre, hlong⟩
    refine ⟨wholeLine_one ⟨by decide, by decide⟩ hlast.toPlain ?_, trimNewline_last hlast _, fun hfit => ⟨⟨hfit.1, hfit.2⟩, hlast⟩⟩
    rw [show (lit "JOIN_ROOM").length = 9 by decide, maxLineLen]
    omega
  split at h
  · -- `/kick`
    cases h
    have hlast := last_drop hs 6
    refine ⟨wholeLine_one ⟨by decide, by decide⟩ hlast.toPlain ?_, trimNewline_last hlast _, fun hfit => ⟨⟨hfit.1, hfit.2⟩, hlast⟩⟩
    rw [show (lit "KICK").length = 4 by decide, maxLineLen]
    omega
  split at h
  · -- `@name text`
    obtain ⟨⟨name, text⟩, hpm, rfl⟩ := Option.map_eq_some_iff.mp h
    obtain ⟨hname, htext, hne, hlt, hne', hlt'⟩ := privateTo_inv hpm
    have hstart := List.takeWhile_prefix (· ≠ sp) (l := s.drop 1)
    rw [← hname] at hstart
    have hplain : Plain name := ⟨fun hm => (last_drop hs 1).noNul (hstart.subset hm), fun hm => (last_drop hs 1).noLf (hstart.subset hm)⟩
    have hnosp : sp ∉ name := by
      intro hm
      rw [hname] at hm
      simpa using List.mem_takeWhile_imp hm
    have hlast : Last text := htext ▸ last_drop hs (name.length + 2)
    have hvalid : (ClientLine.pm name text).Valid := ⟨⟨hne, hlt, hnosp⟩, hplain, ⟨hne', hlt'⟩, hlast⟩
    exact ⟨ClientLine.text_wholeLine hvalid, ClientLine.text_trimmed hvalid, fun _ => hvalid⟩
  split at h
  · -- a message
    rename_i hfit
    cases h
    have hlast : Last s := last_drop hs 0
    refine ⟨wholeLine_one ⟨by decide, by decide⟩ hlast.toPlain ?_, trimNewline_last hlast _, fun hf => ⟨⟨hf.1, hf.2⟩, hlast⟩⟩
    rw [show (lit "MSG").length = 3 by decide, maxLineLen]
    simp only [msgRoom] at hfit
    omega
  · cases h

/-- The server accepts a line exactly when its fields fit, and then with these fields. -/
theorem parse_heard {c : ClientLine} (hc : c.Sendable) :
    (let (rc, out) := protocolParseClientLine c.text
     requestRead (rc, out.cmd, cstr out.arg1, cstr out.arg2)) = c.heard := by
  unfold ClientLine.heard
  by_cases hfit : c.Fitting
  · obtain ⟨out, hparse, hcmd, harg1, harg2⟩ := parse_client_complete hc.whole.noNul (ClientLine.text_request (hc.valid hfit))
    rw [hparse, if_pos hfit]
    show some (out.cmd, cstr out.arg1, cstr out.arg2) = _
    rw [hcmd, harg1, harg2]
  · have hrefused : ∀ {word t : Bytes}, sp ∉ word → word.length < 16 → c.text = word ++ sp :: t →
        (parseClientArgs word t .zeroed).1 = .errProtocol → (protocolParseClientLine c.text).1 = .errProtocol := by
      intro word t hsp hlen htext hargs
      rw [htext, protocolParseClientLine, splitFirstToken_append hsp hlen]
      exact hargs
    have herr : (protocolParseClientLine c.text).1 = .errProtocol := by
      cases c with
      | joinRoom room =>
        have hno : ¬ restFits room maxRoomNameLen = true := fun h => hfit (restFits_iff.mp h)
        refine hrefused (by decide) (by decide) rfl ?_
        rw [parseClientArgs, if_neg (by decide), if_pos rfl, if_neg hno]
      | msg message =>
        have hno : ¬ restFits message maxMsgLen = true := fun h => hfit (restFits_iff.mp h)
        refine hrefused (by decide) (by decide) rfl ?_
        rw [parseClientArgs, if_neg (by decide), if_neg (by decide), if_pos rfl, if_neg hno]
      | kick username =>
        have hno : ¬ restFits username maxUsernameLen = true := fun h => hfit (restFits_iff.mp h)
        refine hrefused (by decide) (by decide) rfl ?_
        rw [parseClientArgs, if_neg (by decide), if_neg (by decide), if_neg (by decide), if_neg (by decide), if_neg (by decide),
          if_neg (by decide), if_pos rfl, if_neg hno]
      | auth | pm | list | history | quit => exact absurd trivial hfit
    rw [if_neg hfit]
    show (if (protocolParseClientLine c.text).1 = .ok then _ else none) = none
    rw [herr]
    rfl

/-! ## A whole session -/

/-- The requests that the lines typed at these places ask for. -/
def requested (starts : List Bytes) : List ClientLine := starts.filterMap fun s => meant (inputAt s)

theorem inputAt_wireLine {s : Bytes} : WireLine (inputAt s) where
  noNul h := nul_not_mem_cstr (fgets inputLen s).1 ((trimNewline_initial _).subset h)
  noLf := (inputAt_spec s).1
  noCr := (trimNewline_eq_iff.mp (trimNewline_idem _)).1

theorem sends_asked (starts : List Bytes) :
    (starts.filterMap sendAt).map Prod.snd = (requested starts).map fun c => (c.build maxLineLen).2 := by
  rw [requested, List.map_filterMap, List.map_filterMap]
  refine List.filterMap_congr fun s _ => ?_
  rw [sendAt, clientTurn_meant]
  cases meant (inputAt s) with
  | none => rfl
  | some c => rfl

/-- The lines read off the stream are those that were sent. -/
theorem recvLines_requested {cmds : List ClientLine} (hcmds : ∀ c ∈ cmds, c.Sendable) {arrivals : List Arrival}
    (hr : .reset ∉ arrivals) (hs : stream arrivals = (cmds.map fun c => (c.build maxLineLen).2).flatten)
    {buf : Bytes} (hbuf : buf.length = maxLineLen) {fuel : Nat} (hfuel : cmds.length < fuel) :
    recvLines serverRecvLine fuel (recvs arrivals) buf = cmds.map ClientLine.text := by
  have hbuild : ∀ c ∈ cmds, (c.build maxLineLen).2 = c.text ++ [lf] := by
    intro c hc
    have hlen := (hcmds c hc).whole.length_lt
    rw [ClientLine.build_eq, buildLine_fits (by rw [List.length_append]; exact hlen)]
  have hstream : bytesOf (recvs arrivals) = ((cmds.map ClientLine.text).map (· ++ [lf])).flatten := by
    rw [bytesOf_recvs, hs, List.map_map]
    exact congrArg List.flatten (List.map_congr_left hbuild)
  have hwhole : ∀ w ∈ cmds.map ClientLine.text, WholeLine w := List.forall_mem_map.mpr fun c hc => (hcmds c hc).whole
  rw [recvLines_lines serverRecvLine_framer (cmds.map ClientLine.text) hwhole (error_not_mem_recvs hr) hstream hbuf
    (by rw [List.length_map]; exact hfuel), List.map_map]
  exact List.map_congr_left fun c hc => (hcmds c hc).trimmed

theorem readCommands_requested {cmds : List ClientLine} (hcmds : ∀ c ∈ cmds, c.Sendable) {arrivals : List Arrival}
    (hr : .reset ∉ arrivals) (hs : stream arrivals = (cmds.map fun c => (c.build maxLineLen).2).flatten)
    {buf : Bytes} (hbuf : buf.length = maxLineLen) {fuel : Nat} (hfuel : cmds.length < fuel) :
    (readCommands fuel (recvs arrivals) buf).map requestRead = cmds.map ClientLine.heard := by
  rw [readCommands, recvLines_requested hcmds hr hs hbuf hfuel, List.map_map, List.map_map]
  exact List.map_congr_left fun c hc => parse_heard (hcmds c hc)

/-- What the client sends are the first of the requests that the typed lines ask for, or all of them. -/
theorem clientSends_requested {stdin : Bytes} (hjoin : ∀ s ∈ typed stdin, ¬ LongJoin (inputAt s)) (env : Nat → Moment) :
    ∃ cmds, cmds <+: requested (typed stdin) ∧ (∀ c ∈ cmds, c.Sendable) ∧
      (clientSends env stdin).map Prod.snd = cmds.map fun c => (c.build maxLineLen).2 := by
  have hpre : (clientSends env stdin).map Prod.snd <+: (requested (typed stdin)).map fun c => (c.build maxLineLen).2 := by
    rw [← sends_asked]
    exact (clientLoop_initial env stdin.length 0 stdin).map Prod.snd
  refine ⟨_, List.take_prefix (clientSends env stdin).length _, fun c hc => ?_, ?_⟩
  · obtain ⟨s, hstart, hmeant⟩ := List.mem_filterMap.mp (List.mem_of_mem_take hc)
    exact meant_sendable inputAt_wireLine (inputAt_spec s).2 (hjoin s hstart) hmeant
  · rw [List.map_take, ← List.length_map Prod.snd]
    exact List.prefix_iff_eq_take.mp hpre

/-- **What is typed is what is asked of the server**, for every text on standard
input with no room too long for its line, and however the bytes are split on the
way: the handler reads the requests that the typed lines ask for, in their order,
with their own fields, and refuses exactly those whose fields are too long; and a
run that the client's other thread ends asks for the first of them. -/
theorem typed_asked {stdin : Bytes} (hjoin : ∀ s ∈ typed stdin, ¬ LongJoin (inputAt s)) (env : Nat → Moment)
    {arrivals : List Arrival} (hr : .reset ∉ arrivals)
    (hs : stream arrivals = ((clientSends env stdin).map Prod.snd).flatten)
    {buf : Bytes} (hbuf : buf.length = maxLineLen) {fuel : Nat} (hfuel : (clientSends env stdin).length < fuel) :
    (readCommands fuel (recvs arrivals) buf).map requestRead <+: (requested (typed stdin)).map ClientLine.heard ∧
      ((∀ i, env i = undisturbed i) →
        (readCommands fuel (recvs arrivals) buf).map requestRead = (requested (typed stdin)).map ClientLine.heard) := by
  obtain ⟨cmds, hcmds, hsendable, hsends⟩ := clientSends_requested hjoin env
  have hlen : cmds.length = (clientSends env stdin).length := by
    rw [← List.length_map (fun c : ClientLine => (c.build maxLineLen).2), ← hsends, List.length_map]
  rw [hsends] at hs
  have hread := readCommands_requested hsendable hr hs hbuf (by rw [hlen]; exact hfuel)
  refine ⟨?_, fun hall => ?_⟩
  · rw [hread]
    exact hcmds.map ClientLine.heard
  · obtain rfl : env = undisturbed := funext hall
    have hwhole : (clientSends undisturbed stdin).length = (requested (typed stdin)).length := by
      rw [clientSends, clientLoop_undisturbed _ _ (Nat.le_refl _), ← List.length_map Prod.snd]
      show ((typed stdin).filterMap sendAt |>.map Prod.snd).length = _
      rw [sends_asked, List.length_map]
    rw [hread, hcmds.eq_of_length (hlen.trans hwhole)]

theorem fgets_length_le : ∀ (n : Nat) (s : Bytes), (fgets n s).1.length ≤ s.length
  | 0, _ => Nat.zero_le _
  | _ + 1, [] => Nat.le_refl _
  | n + 1, c :: s => by
    rw [fgets]
    split
    · exact Nat.succ_le_succ (Nat.zero_le _)
    · exact Nat.succ_le_succ (fgets_length_le n s)

/-- A short text has no room that is too long. -/
theorem short_typed {stdin : Bytes} (h : stdin.length ≤ 2042) : ∀ s ∈ typed stdin, ¬ LongJoin (inputAt s) := by
  intro s hs hlong
  have hle := reads_length ((untilQuit_sublist _).subset hs)
  have hread : (inputAt s).length ≤ s.length := by
    have hpre := (trimNewline_initial (cstr (fgets inputLen s).1)).length_le
    have hstring := List.IsPrefix.length_le (List.takeWhile_prefix (· != 0) (l := (fgets inputLen s).1))
    exact hpre.trans (hstring.trans (fgets_length_le inputLen s))
  have hroom := hlong.2
  rw [List.length_drop] at hroom
  omega

def busyInput : Bytes := lit "hi all\n/join den\n\n@al yo\n@al\n/kick a-name-that-is-far-too-long-to-be-anybody\n/exit\nunsent\n"

theorem typed_asked_busy :
    let arrivals := [Arrival.segment (lit "MSG hi all\nJOIN_"), .interrupt, .segment (lit "ROOM den\nPM al yo\n"),
      .segment (lit "KICK a-name-that-is-far-too-long-to-be-anybody\nQUIT\n")]
    let read := (readCommands 9 (recvs arrivals) (zeros maxLineLen)).map requestRead
    read = (requested (typed busyInput)).map ClientLine.heard ∧
      read = [some (.msg, [], lit "hi all"), some (.joinRoom, lit "den", []), some (.pm, lit "al", lit "yo"), none,
        some (.quit, [], [])] := by
  have hstream : stream [Arrival.segment (lit "MSG hi all\nJOIN_"), .interrupt, .segment (lit "ROOM den\nPM al yo\n"),
      .segment (lit "KICK a-name-that-is-far-too-long-to-be-anybody\nQUIT\n")] =
      ((clientSends undisturbed busyInput).map Prod.snd).flatten := by decide +kernel
  have hall := (@typed_asked busyInput (short_typed (by decide)) undisturbed _ (by decide) hstream (zeros maxLineLen)
    (zeros_length _) 9 (by decide +kernel)).2 fun _ => rfl
  exact ⟨hall, by decide +kernel⟩

end ChatServer

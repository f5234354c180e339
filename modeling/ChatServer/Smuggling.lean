import Mathlib.Data.List.TakeWhile
import ChatServer.FramingSound
import ChatServer.Threads

/-!
# Over-long lines

`client_handler` over the bytes of one connection. A call of `server_recv_line`
takes at most one byte less than the buffer has, so a physical line is cut at
every multiple of that, and the handler treats each piece as a line. A piece
that the stream ends in is not terminated either: what the buffer still holds
is read on behind it.
-/

namespace ChatServer

open CStr

/-! ## The loop of the handler -/

/-- The `switch` of the handler has a case for the command. -/
def ClientCmd.runs : ClientCmd → Bool
  | .auth | .unknown => false
  | _ => true

/-- The lines that `client_handler` dispatches as commands, each with the number
of bytes that had arrived before it. `goesOn` says of each pass whether what it
called, and `running` behind it, let the loop go on. -/
def handlerLoop (goesOn : Nat → Bool) : Nat → Nat → Bool → Nat → List Recv → Bytes → List (Nat × Bytes)
  | 0, _, _, _, _, _ => []
  | fuel + 1, pass, authenticated, off, sock, buf =>
    match serverRecvLine sock buf maxLineLen with
    | (.ok, buf, sock') =>
      let again := fun authenticated =>
        if goesOn pass then
          handlerLoop goesOn fuel (pass + 1) authenticated (off + ((bytesOf sock).length - (bytesOf sock').length)) sock' buf
        else []
      let (rc, cmd) := protocolParseClientLine (cstr buf)
      if rc ≠ .ok then again authenticated
      else if !authenticated then
        if cmd.cmd ≠ .auth then again false else (off, cstr buf) :: again true
      else if cmd.cmd = .quit then [(off, cstr buf)]
      else if cmd.cmd.runs then (off, cstr buf) :: again true
      else again true
    | _ => []

/-- What is not dispatched is answered with an error. -/
theorem dispatch_refuses (P : Platform) (h : Handler) {line : Bytes}
    (hr : (protocolParseClientLine line).1 = .ok → if h.authenticated then (protocolParseClientLine line).2.cmd.runs = false
      else (protocolParseClientLine line).2.cmd ≠ .auth) : ∃ msg, h.dispatch P line = h.refuse msg := by
  unfold Handler.dispatch
  generalize protocolParseClientLine line = p at hr ⊢
  obtain ⟨rc, cmd⟩ := p
  simp only at hr ⊢
  by_cases hrc : rc = .ok
  · have hr := hr hrc
    by_cases ha : h.authenticated
    · simp only [ha, ite_true] at hr
      simp only [hrc, ha, ne_eq, not_true_eq_false, ite_false, Bool.not_true, Bool.false_eq_true]
      cases hc : cmd.cmd <;> rw [hc] at hr
      case unknown | auth => exact ⟨_, rfl⟩
      all_goals cases hr
    · simp only [ha, Bool.false_eq_true, ite_false] at hr
      simp only [hrc, ha, ne_eq, not_true_eq_false, ite_false, Bool.not_false, ite_true, hr, not_false_eq_true]
      exact ⟨_, rfl⟩
  · simp only [ne_eq, hrc, not_false_eq_true, ite_true]
    exact ⟨_, rfl⟩

/-! ## Cutting the stream -/

/-- How many bytes of its physical line stand before the offset. -/
def column (s : Bytes) (off : Nat) : Nat := ((s.take off).reverse.takeWhile (· != lf)).length

/-- What one call takes: a buffer full, or less with the newline or the end of the stream. -/
def piece (s : Bytes) : Bytes := (s.take (maxLineLen - 1)).take (((s.take (maxLineLen - 1)).takeWhile (· != lf)).length + 1)

/-- The piece of a line that begins at the offset. -/
structure Piece where
  off : Nat
  column : Nat
  bytes : Bytes
  deriving DecidableEq

def pieceAt (s : Bytes) (off : Nat) : Piece := { off := off, column := column s off, bytes := piece (s.drop off) }

/-- Where the buffer starts anew: a physical line is cut every 2047 bytes. -/
def Starts (s : Bytes) (off : Nat) : Prop := column s off % (maxLineLen - 1) = 0

instance (s : Bytes) (off : Nat) : Decidable (Starts s off) := inferInstanceAs (Decidable (_ = _))

def piecesFrom (s : Bytes) (off : Nat) : List Piece :=
  ((List.range' off (s.length - off)).filter fun o => decide (Starts s o)).map (pieceAt s)

def pieces (s : Bytes) : List Piece := piecesFrom s 0

theorem column_succ {s : Bytes} {o : Nat} (h : o < s.length) :
    column s (o + 1) = if s[o] = lf then 0 else column s o + 1 := by
  unfold column
  rw [List.take_succ_eq_append_getElem h, List.reverse_append, List.reverse_singleton, List.singleton_append,
    List.takeWhile_cons]
  by_cases hc : s[o] = lf
  · simp [hc]
  · simp [hc]

theorem column_zero (s : Bytes) : column s 0 = 0 := rfl

theorem column_eq_zero_iff {s : Bytes} {off : Nat} (h : off ≤ s.length) :
    column s off = 0 ↔ off = 0 ∨ s[off - 1]? = some lf := by
  cases off with
  | zero => simp [column_zero]
  | succ o =>
    have ho : o < s.length := h
    rw [column_succ ho, Nat.add_sub_cancel, List.getElem?_eq_getElem ho]
    by_cases hc : s[o] = lf
    · simp [hc]
    · simp [hc]

theorem column_add {s : Bytes} {off : Nat} : ∀ {j : Nat}, off + j ≤ s.length → lf ∉ (s.drop off).take j →
    column s (off + j) = column s off + j
  | 0, _, _ => rfl
  | j + 1, hj, hlf => by
    have hlt : off + j < s.length := by omega
    have hget : (s.drop off)[j]? = some s[off + j] := by rw [List.getElem?_drop, List.getElem?_eq_getElem hlt]
    rw [List.take_add_one, hget, List.mem_append, not_or] at hlf
    have hne : s[off + j] ≠ lf := fun h => hlf.2 (by simp [h])
    rw [← Nat.add_assoc, column_succ hlt, if_neg hne, column_add (by omega) hlf.1, Nat.add_assoc]

/-- The three ways in which a call ends. -/
theorem piece_cases (s : Bytes) :
    (∃ w t, s = w ++ lf :: t ∧ lf ∉ w ∧ w.length + 1 < maxLineLen ∧ piece s = w ++ [lf]) ∨
    (∃ t, s = piece s ++ t ∧ lf ∉ piece s ∧ (piece s).length + 1 = maxLineLen) ∨
    (piece s = s ∧ lf ∉ s ∧ s.length + 1 < maxLineLen) := by
  have hn : maxLineLen - 1 + 1 = maxLineLen := rfl
  have hsplit : s = s.take (maxLineLen - 1) ++ s.drop (maxLineLen - 1) := (List.take_append_drop _ s).symm
  have hlen : (s.take (maxLineLen - 1)).length ≤ maxLineLen - 1 := List.length_take_le ..
  unfold piece
  generalize hu : s.take (maxLineLen - 1) = u at hsplit hlen ⊢
  by_cases hlf : lf ∈ u
  · refine .inl ?_
    obtain ⟨k, hk⟩ : ∃ k, strchr u lf = some k := by
      rw [← Option.isSome_iff_exists, Option.isSome_iff_ne_none, ne_eq, strchr_none, not_not]
      exact hlf
    obtain ⟨hlt, hnot, hcut⟩ := strchr_some hk
    have hw : u.takeWhile (· != lf) = u.take k := by
      conv_lhs => rw [hcut]
      rw [List.takeWhile_append_of_pos (fun c hc => by simpa using fun h : c = lf => hnot (h ▸ hc))]
      simp
    have hkl : (u.take k).length = k := by rw [List.length_take]; omega
    refine ⟨u.take k, u.drop (k + 1) ++ s.drop (maxLineLen - 1), ?_, hnot, by omega, ?_⟩
    · conv_lhs => rw [hsplit, hcut]
      rw [List.append_assoc, List.cons_append]
    · rw [hw, hkl]
      conv_lhs => rw [hcut]
      rw [List.take_append, hkl, Nat.add_sub_cancel_left]
      simp
  · have hw : u.takeWhile (· != lf) = u := by
      rw [List.takeWhile_eq_self_iff]
      exact fun c hc => by simpa using fun h : c = lf => hlf (h ▸ hc)
    rw [hw, List.take_of_length_le (Nat.le_succ _)]
    by_cases hs : s.length < maxLineLen - 1
    · have hus : u = s := by rw [← hu, List.take_of_length_le (by omega)]
      exact .inr (.inr ⟨hus, hus ▸ hlf, by omega⟩)
    · refine .inr (.inl ⟨_, hsplit, hlf, ?_⟩)
      rw [← hu, List.length_take]
      omega

theorem piece_length_pos {s : Bytes} (h : s ≠ []) : 0 < (piece s).length := by
  rcases piece_cases s with ⟨w, t, -, -, -, hp⟩ | ⟨t, -, -, hl⟩ | ⟨hp, -, -⟩
  · rw [hp, List.length_append]; exact Nat.succ_pos _
  · rw [maxLineLen] at hl; omega
  · rw [hp]; exact List.length_pos_iff.mpr h

theorem piece_initial (s : Bytes) : piece s <+: s := (List.take_prefix ..).trans (List.take_prefix ..)

theorem piece_length_le (s : Bytes) : (piece s).length ≤ maxLineLen - 1 :=
  (List.length_take_le' ..).trans (List.length_take_le ..)

/-- A newline can only be the last byte of a piece. -/
theorem lf_not_mem_take_piece {s : Bytes} {j : Nat} (h : j < (piece s).length) : lf ∉ s.take j := by
  rcases piece_cases s with ⟨w, t, hs, hw, -, hp⟩ | ⟨t, hs, hlf, -⟩ | ⟨hp, hlf, -⟩
  · rw [hp, List.length_append, List.length_singleton] at h
    rw [hs, List.take_append_of_le_length (by omega)]
    exact not_mem_take hw j
  · rw [hs, List.take_append_of_le_length (by omega)]
    exact not_mem_take hlf j
  · exact not_mem_take hlf j

/-- Behind a piece the buffer starts anew, and nowhere within it. -/
theorem starts_piece {s : Bytes} {off : Nat} (hs : Starts s off) (hoff : off < s.length) :
    (∀ j, 0 < j → j < (piece (s.drop off)).length → ¬ Starts s (off + j)) ∧
      (off + (piece (s.drop off)).length < s.length → Starts s (off + (piece (s.drop off)).length)) := by
  have hle := piece_length_le (s.drop off)
  have hlen := (piece_initial (s.drop off)).length_le
  rw [List.length_drop] at hlen
  unfold Starts at hs ⊢
  simp only [maxLineLen] at hs hle ⊢
  refine ⟨fun j hj hlt => ?_, fun hnext => ?_⟩
  · rw [column_add (by omega) (lf_not_mem_take_piece hlt)]
    omega
  · rcases piece_cases (s.drop off) with ⟨w, t, hcut, -, -, hp⟩ | ⟨t, hcut, hlf, hl⟩ | ⟨hp, -, -⟩
    · -- the byte before the next piece is the newline
      have hget : s[off + w.length]? = some lf := by
        rw [← List.getElem?_drop, hcut, List.getElem?_append_right (Nat.le_refl _), Nat.sub_self, List.getElem?_cons_zero]
      rw [hp, List.length_append, List.length_singleton] at hnext ⊢
      rw [(column_eq_zero_iff (by omega)).mpr (.inr (by rw [← Nat.add_assoc, Nat.add_sub_cancel]; exact hget))]
    · rw [maxLineLen] at hl
      have hnot : lf ∉ (s.drop off).take (piece (s.drop off)).length := by
        rw [← List.prefix_iff_eq_take.mp (piece_initial _)]; exact hlf
      rw [column_add (by omega) hnot]
      omega
    · rw [hp, List.length_drop] at hnext
      omega

theorem piecesFrom_end {s : Bytes} {off : Nat} (h : s.length ≤ off) : piecesFrom s off = [] := by
  rw [piecesFrom, Nat.sub_eq_zero_of_le h]
  rfl

theorem piecesFrom_step {s : Bytes} {off : Nat} (hs : Starts s off) (hoff : off < s.length) :
    piecesFrom s off = pieceAt s off :: piecesFrom s (off + (piece (s.drop off)).length) := by
  have hk := piece_length_pos (List.ne_nil_of_length_pos (by rw [List.length_drop]; omega) : s.drop off ≠ [])
  have hlen := (piece_initial (s.drop off)).length_le
  rw [List.length_drop] at hlen
  have hin := (starts_piece hs hoff).1
  unfold piecesFrom
  generalize (piece (s.drop off)).length = k at hk hlen hin ⊢
  obtain ⟨m, rfl⟩ : ∃ m, k = m + 1 := ⟨k - 1, by omega⟩
  have hsplit : List.range' off (s.length - off) =
      off :: (List.range' (off + 1) m ++ List.range' (off + (m + 1)) (s.length - (off + (m + 1)))) := by
    rw [show s.length - off = (m + (s.length - (off + (m + 1)))) + 1 by omega, List.range'_succ,
      ← List.range'_append_1, show off + 1 + m = off + (m + 1) by omega]
  have hnone : (List.range' (off + 1) m).filter (fun o => decide (Starts s o)) = [] := by
    rw [List.filter_eq_nil_iff]
    intro o ho
    rw [List.mem_range'_1] at ho
    have := hin (o - off) (by omega) (by omega)
    rw [show off + (o - off) = o by omega] at this
    simpa using this
  rw [hsplit, List.filter_cons_of_pos (by simpa using hs), List.filter_append, hnone, List.nil_append, List.map_cons]

/-! ## What the parser is handed -/

/-- The piece fills the buffer or has the newline of its line. -/
def Piece.Ended (p : Piece) : Prop := p.bytes.length + 1 = maxLineLen ∨ p.bytes.getLast? = some lf

instance (p : Piece) : Decidable p.Ended := inferInstanceAs (Decidable (_ ∨ _))

/-- Each piece with the string handed over for it: the piece, trimmed, or, where
the stream ends in it, what the buffer held behind it as well. -/
def handed : Bytes → List Piece → List (Piece × Bytes)
  | _, [] => []
  | buf, p :: ps =>
    (p, if p.Ended then trimNewline p.bytes else p.bytes ++ cstr (buf.drop p.bytes.length)) ::
      handed (endLine (overwrite buf 0 p.bytes) p.bytes.length) ps

theorem serverRecvLine_piece {sock : List Recv} {buf s : Bytes} {off : Nat} (he : .error ∉ sock)
    (hb : bytesOf sock = s.drop off) (hoff : off < s.length) (h0 : 0 ∉ s) (hbuf : buf.length = maxLineLen) :
    ∃ buf' sock', serverRecvLine sock buf maxLineLen = (.ok, buf', sock') ∧ .error ∉ sock' ∧
      bytesOf sock' = s.drop (off + (piece (s.drop off)).length) ∧ buf'.length = maxLineLen ∧
      (Starts s off → handed buf (piecesFrom s off) =
        (pieceAt s off, cstr buf') :: handed buf' (piecesFrom s (off + (piece (s.drop off)).length))) := by
  have hz : 0 ∉ piece (s.drop off) := fun h => h0 (List.mem_of_mem_drop ((piece_initial _).subset h))
  have hle := piece_length_le (s.drop off)
  have hdrop : ∀ {t}, s.drop off = piece (s.drop off) ++ t → s.drop (off + (piece (s.drop off)).length) = t := by
    intro t ht
    rw [← List.drop_drop]
    generalize piece (s.drop off) = u at ht ⊢
    rw [ht, List.drop_left]
  have hfit : 0 + (piece (s.drop off)).length ≤ buf.length := by simp only [maxLineLen] at hle hbuf; omega
  have hlt : (piece (s.drop off)).length < buf.length := by simp only [maxLineLen] at hle hbuf; omega
  -- a piece that is ended in the buffer
  have hlen' : (endLine (overwrite buf 0 (piece (s.drop off))) (piece (s.drop off)).length).length = maxLineLen := by
    rw [endLine_length, overwrite_length hfit, hbuf]
  have hended : (pieceAt s off).Ended → Starts s off → handed buf (piecesFrom s off) =
      (pieceAt s off, cstr (endLine (overwrite buf 0 (piece (s.drop off))) (piece (s.drop off)).length)) ::
        handed (endLine (overwrite buf 0 (piece (s.drop off))) (piece (s.drop off)).length)
          (piecesFrom s (off + (piece (s.drop off)).length)) := by
    intro hend hs
    rw [piecesFrom_step hs hoff, handed, if_pos hend, cstr_endLine hz hlt]
    rfl
  rcases piece_cases (s.drop off) with ⟨w, t, hcut, hw, hlen, hp⟩ | ⟨t, hcut, hlf, hlen⟩ | ⟨hp, hlf, hlen⟩
  · obtain ⟨sock', hloop, he', hb'⟩ := recvLoop_newline (n := maxLineLen) 0 buf he (hb.trans hcut) hw (by omega) (by omega)
    have hpl : (piece (s.drop off)).length = w.length + 1 := by rw [hp, List.length_append, List.length_singleton]
    refine ⟨_, sock', ?_, he', ?_, hlen', hended (.inr ?_)⟩
    · rw [serverRecvLine, if_neg (by simp), hloop, hpl, hp, Nat.zero_add]
    · rw [hb', hdrop (by rw [hp, List.append_assoc]; exact hcut)]
    · show (piece (s.drop off)).getLast? = some lf
      rw [hp, List.getLast?_concat]
  · obtain ⟨sock', hloop, he', hb'⟩ := recvLoop_full (n := maxLineLen) 0 buf he (hb.trans hcut) hlf (by omega) (by omega)
      (by decide)
    refine ⟨_, sock', ?_, he', hb'.trans (hdrop hcut).symm, hlen', hended (.inl hlen)⟩
    rw [serverRecvLine, if_neg (by simp), hloop, show maxLineLen - 1 = (piece (s.drop off)).length by omega]
  · have hloop : recvLoop (fun pos => if pos = 0 then .errIo else .ok) maxLineLen sock 0 buf = _ :=
      recvLoop_eof 0 buf he hb hlf (by omega) (by omega)
    have hpos : (s.drop off).length ≠ 0 := by rw [List.length_drop]; omega
    have hend : off + (piece (s.drop off)).length = s.length := by rw [hp, List.length_drop]; omega
    have hopen : ¬ (pieceAt s off).Ended := by
      rintro (h | h)
      · have h : (piece (s.drop off)).length + 1 = maxLineLen := h
        rw [hp] at h
        omega
      · have h : (piece (s.drop off)).getLast? = some lf := h
        rw [hp] at h
        exact hlf (List.mem_of_getLast? h)
    refine ⟨overwrite buf 0 (s.drop off), [], ?_, by simp, ?_, ?_, fun hs => ?_⟩
    · rw [serverRecvLine, if_neg (by simp), hloop, if_neg (by omega)]
    · rw [hend, List.drop_length]
      rfl
    · rw [overwrite_length (by rw [← hp]; exact hfit), hbuf]
    · rw [piecesFrom_step hs hoff, handed, if_neg hopen, hend, piecesFrom_end (Nat.le_refl _), handed, handed,
        cstr_overwrite (by rw [← hp]; exact hz)]
      show (_, piece (s.drop off) ++ cstr (buf.drop (piece (s.drop off)).length)) :: _ = _
      rw [hp]

/-! ## Which of them are commands -/

def commands {α : Type} (reads : List (α × Bytes)) : List ((α × Bytes) × ClientCmd) :=
  reads.filterMap fun q =>
    match protocolParseClientLine q.2 with
    | (.ok, cmd) => some (q, cmd.cmd)
    | _ => none

/-- The commands behind a successful `AUTH`, up to the first `QUIT`. -/
def tillQuit {α : Type} (cmds : List ((α × Bytes) × ClientCmd)) : List (α × Bytes) :=
  ((cmds.takeWhile (·.2 ≠ .quit) ++ (cmds.dropWhile (·.2 ≠ .quit)).take 1).filter (·.2.runs)).map (·.1)

/-- The first `AUTH` and what follows it. -/
def session {α : Type} (cmds : List ((α × Bytes) × ClientCmd)) : List (α × Bytes) :=
  match cmds.dropWhile (·.2 ≠ .auth) with
  | [] => []
  | q :: cmds => q.1 :: tillQuit cmds

section
variable {α : Type} {q : α × Bytes} {reads : List (α × Bytes)}

theorem commands_rejected (h : (protocolParseClientLine q.2).1 ≠ .ok) : commands (q :: reads) = commands reads := by
  rw [commands, List.filterMap_cons_none, ← commands]
  generalize protocolParseClientLine q.2 = p at h
  obtain ⟨rc, cmd⟩ := p
  cases rc with
  | ok => exact absurd rfl h
  | _ => rfl

theorem commands_accepted (h : (protocolParseClientLine q.2).1 = .ok) :
    commands (q :: reads) = (q, (protocolParseClientLine q.2).2.cmd) :: commands reads := by
  have hp : protocolParseClientLine q.2 = (.ok, (protocolParseClientLine q.2).2) := Prod.ext h rfl
  rw [commands, List.filterMap_cons_some (b := (q, (protocolParseClientLine q.2).2.cmd)), ← commands]
  rw [hp]

variable {c : ClientCmd} {cmds : List ((α × Bytes) × ClientCmd)}

theorem tillQuit_quit : tillQuit ((q, .quit) :: cmds) = [q] := by
  simp [tillQuit, ClientCmd.runs]

theorem tillQuit_cons (h : c ≠ .quit) :
    tillQuit ((q, c) :: cmds) = if c.runs then q :: tillQuit cmds else tillQuit cmds := by
  unfold tillQuit
  rw [List.takeWhile_cons_of_pos (by simpa using h), List.dropWhile_cons_of_pos (by simpa using h), List.cons_append]
  by_cases hr : c.runs
  · rw [List.filter_cons_of_pos (by simpa using hr), if_pos hr, List.map_cons]
  · rw [List.filter_cons_of_neg (by simpa using hr), if_neg hr]

theorem session_auth : session ((q, .auth) :: cmds) = q :: tillQuit cmds := by
  simp [session]

theorem session_cons (h : c ≠ .auth) : session ((q, c) :: cmds) = session cmds := by
  unfold session
  rw [List.dropWhile_cons_of_pos (by simpa using h)]

end

/-- What the handler dispatches of the reads, with `authenticated` as it is. -/
def dispatched {α : Type} (authenticated : Bool) (reads : List (α × Bytes)) : List (α × Bytes) :=
  if authenticated then tillQuit (commands reads) else session (commands reads)

def offsets (reads : List (Piece × Bytes)) : List (Nat × Bytes) := reads.map fun q => (q.1.off, q.2)

/-- The handler dispatches an initial part of what the pieces give, and all of it while nothing fails. -/
theorem handlerLoop_pieces {s : Bytes} (h0 : 0 ∉ s) (goesOn : Nat → Bool) :
    ∀ (fuel pass : Nat) (authenticated : Bool) (off : Nat) {sock : List Recv} {buf : Bytes}, .error ∉ sock →
      bytesOf sock = s.drop off → off ≤ s.length → (off < s.length → Starts s off) → buf.length = maxLineLen →
      handlerLoop goesOn fuel pass authenticated off sock buf <+:
          offsets (dispatched authenticated (handed buf (piecesFrom s off))) ∧
        ((∀ k, goesOn k = true) → s.length - off < fuel →
          handlerLoop goesOn fuel pass authenticated off sock buf =
            offsets (dispatched authenticated (handed buf (piecesFrom s off))))
  | 0, _, _, _, _, _, _, _, _, _, _ => ⟨List.nil_prefix, fun _ h => absurd h (Nat.not_lt_zero _)⟩
  | fuel + 1, pass, authenticated, off, sock, buf, he, hb, hoff, hstart, hbuf => by
    by_cases hend : off < s.length
    · obtain ⟨buf', sock', hline, he', hb', hbuf', hhand⟩ := serverRecvLine_piece he hb hend h0 hbuf
      have hs := hstart hend
      have hk := piece_length_pos (List.ne_nil_of_length_pos (by rw [List.length_drop]; omega) : s.drop off ≠ [])
      have hkle := (piece_initial (s.drop off)).length_le
      have hnext := (starts_piece hs hend).2
      have hadv : off + ((bytesOf sock).length - (bytesOf sock').length) = off + (piece (s.drop off)).length := by
        rw [hb, hb', List.length_drop, List.length_drop]
        rw [List.length_drop] at hkle
        omega
      rw [List.length_drop] at hkle
      -- the passes that follow, if there are any
      have hagain : ∀ a,
          (if goesOn pass then handlerLoop goesOn fuel (pass + 1) a (off + (piece (s.drop off)).length) sock' buf' else []) <+:
            offsets (dispatched a (handed buf' (piecesFrom s (off + (piece (s.drop off)).length)))) ∧
          ((∀ k, goesOn k = true) → s.length - off < fuel + 1 →
            (if goesOn pass then handlerLoop goesOn fuel (pass + 1) a (off + (piece (s.drop off)).length) sock' buf' else []) =
              offsets (dispatched a (handed buf' (piecesFrom s (off + (piece (s.drop off)).length))))) := by
        intro a
        obtain ⟨hpre, hall⟩ := handlerLoop_pieces h0 goesOn fuel (pass + 1) a (off + (piece (s.drop off)).length) he' hb'
          (by omega) hnext hbuf'
        refine ⟨?_, fun hg hf => ?_⟩
        · by_cases hg : goesOn pass
          · rw [if_pos hg]; exact hpre
          · rw [if_neg hg]; exact List.nil_prefix
        · rw [if_pos (hg pass)]
          exact hall hg (by omega)
      rw [hhand hs]
      simp only [handlerLoop, hline, hadv]
      generalize handed buf' (piecesFrom s (off + (piece (s.drop off)).length)) = rest at hagain ⊢
      have hcons : ∀ {l all : List (Nat × Bytes)} {d : Nat × Bytes},
          l <+: all ∧ ((∀ k, goesOn k = true) → s.length - off < fuel + 1 → l = all) →
          d :: l <+: d :: all ∧ ((∀ k, goesOn k = true) → s.length - off < fuel + 1 → d :: l = d :: all) :=
        fun h => ⟨List.cons_prefix_cons.mpr ⟨rfl, h.1⟩, fun hg hf => by rw [h.2 hg hf]⟩
      by_cases hrc : (protocolParseClientLine (cstr buf')).1 = .ok
      · have hcmds : commands ((pieceAt s off, cstr buf') :: rest) = _ := commands_accepted hrc
        rw [if_neg (not_not.mpr hrc)]
        unfold dispatched
        rw [hcmds]
        generalize (protocolParseClientLine (cstr buf')).2.cmd = c
        cases authenticated with
        | false =>
          simp only [Bool.not_false, Bool.false_eq_true, ite_true, ite_false]
          by_cases hc : c = .auth
          · rw [if_neg (not_not.mpr hc), hc, session_auth]
            exact hcons (hagain true)
          · rw [if_pos hc, session_cons hc]
            exact hagain false
        | true =>
          simp only [Bool.not_true, Bool.false_eq_true, ite_true, ite_false]
          by_cases hq : c = .quit
          · rw [if_pos hq, hq, tillQuit_quit]
            exact ⟨List.prefix_refl _, fun _ _ => rfl⟩
          · rw [if_neg hq, tillQuit_cons hq]
            by_cases hr : c.runs
            · rw [if_pos hr, if_pos hr]
              exact hcons (hagain true)
            · rw [if_neg hr, if_neg hr]
              exact hagain true
      · have hcmds : commands ((pieceAt s off, cstr buf') :: rest) = commands rest := commands_rejected hrc
        rw [if_pos hrc]
        unfold dispatched at hagain ⊢
        rw [hcmds]
        exact hagain authenticated
    · have hnil : s.drop off = [] := List.drop_eq_nil_of_le (by omega)
      have hstop : handlerLoop goesOn (fuel + 1) pass authenticated off sock buf = [] := by
        simp only [handlerLoop, serverRecvLine_framer.stop he (hb.trans hnil) hbuf]
      have hnone : offsets (dispatched authenticated (handed buf (piecesFrom s off))) = [] := by
        rw [piecesFrom_end (by omega), handed]
        cases authenticated <;> rfl
      rw [hstop, hnone]
      exact ⟨List.prefix_refl _, fun _ _ => rfl⟩

/-! ## Connections that break -/

def faultless (sock : List Recv) : List Recv := sock.filter (· ≠ .error)

theorem bytesOf_faultless (sock : List Recv) : bytesOf (faultless sock) = bytesOf sock := by
  induction sock with
  | nil => rfl
  | cons r sock ih =>
    cases r with
    | byte c => exact congrArg (c :: ·) ih
    | eintr | error => exact ih

theorem error_not_mem_faultless (sock : List Recv) : .error ∉ faultless sock := by
  intro h
  simpa using (List.mem_filter.mp h).2

/-- A line that is read in spite of an error behind it is read without the error. -/
theorem recvLoop_faultless {eof : Nat → ChatStatus} {n : Nat} {b : Bytes} {sock' : List Recv} :
    ∀ (sock : List Recv) (pos : Nat) (buf : Bytes), recvLoop eof n sock pos buf = (.ok, b, sock') →
      recvLoop eof n (faultless sock) pos buf = (.ok, b, faultless sock')
  | [], pos, buf, h => by
    have hnil : sock' = [] := by
      simp only [recvLoop] at h
      split at h
      · exact (Prod.mk.inj (Prod.mk.inj h).2).2.symm
      · exact (Prod.mk.inj (Prod.mk.inj h).2).2.symm
    rw [hnil] at h ⊢
    exact h
  | r :: sock, pos, buf, h => by
    by_cases hp : pos < n - 1
    · simp only [recvLoop, if_pos hp] at h
      cases r with
      | error => cases h
      | eintr =>
        show recvLoop eof n (.eintr :: faultless sock) pos buf = _
        simp only [recvLoop, if_pos hp]
        exact recvLoop_faultless sock pos buf h
      | byte c =>
        show recvLoop eof n (.byte c :: faultless sock) pos buf = _
        simp only [recvLoop, if_pos hp]
        by_cases hc : c = lf
        · simp only [if_pos hc] at h ⊢
          cases h
          rfl
        · simp only [if_neg hc] at h ⊢
          exact recvLoop_faultless sock (pos + 1) _ h
    · simp only [recvLoop, if_neg hp] at h
      cases h
      generalize faultless (r :: sock) = rest
      cases rest with
      | nil => simp only [recvLoop, if_neg hp]
      | cons => simp only [recvLoop, if_neg hp]

theorem handlerLoop_faultless (goesOn : Nat → Bool) :
    ∀ (fuel pass : Nat) (authenticated : Bool) (off : Nat) (sock : List Recv) (buf : Bytes),
      handlerLoop goesOn fuel pass authenticated off sock buf <+:
        handlerLoop goesOn fuel pass authenticated off (faultless sock) buf
  | 0, _, _, _, _, _ => List.nil_prefix
  | fuel + 1, pass, authenticated, off, sock, buf => by
    rcases hline : serverRecvLine sock buf maxLineLen with ⟨rc, buf', sock'⟩
    by_cases hrc : rc = .ok
    · subst hrc
      have hdel : serverRecvLine (faultless sock) buf maxLineLen = (.ok, buf', faultless sock') := by
        rw [serverRecvLine, if_neg (by simp)] at hline ⊢
        exact recvLoop_faultless sock 0 buf hline
      have hagain : ∀ a off',
          (if goesOn pass then handlerLoop goesOn fuel (pass + 1) a off' sock' buf' else []) <+:
            if goesOn pass then handlerLoop goesOn fuel (pass + 1) a off' (faultless sock') buf' else [] := by
        intro a off'
        by_cases hg : goesOn pass
        · rw [if_pos hg, if_pos hg]
          exact handlerLoop_faultless goesOn fuel (pass + 1) a off' sock' buf'
        · rw [if_neg hg, if_neg hg]
      simp only [handlerLoop, hline, hdel, bytesOf_faultless]
      split
      · exact hagain ..
      · split
        · split
          · exact hagain ..
          · exact List.cons_prefix_cons.mpr ⟨rfl, hagain ..⟩
        · split
          · exact List.prefix_refl _
          · split
            · exact List.cons_prefix_cons.mpr ⟨rfl, hagain ..⟩
            · exact hagain ..
    · have hnil : handlerLoop goesOn (fuel + 1) pass authenticated off sock buf = [] := by
        simp only [handlerLoop, hline]
        cases rc with
        | ok => exact absurd rfl hrc
        | _ => rfl
      rw [hnil]
      exact List.nil_prefix

/-! ## When every command is a line -/

theorem stream_segment (s : Bytes) : stream [.segment s] = s := List.append_nil s

/-- The string is the beginning of the physical line that starts at the offset. -/
def Begins (s : Bytes) (off : Nat) (line : Bytes) : Prop :=
  (off = 0 ∨ s[off - 1]? = some lf) ∧ line <+: s.drop off ∧ lf ∉ line

/-- However the stream arrives, each dispatched command begins a physical line of its own. -/
def Framed (s buf : Bytes) : Prop :=
  ∀ arrivals, stream arrivals = s → ∀ goesOn fuel,
    (∀ d ∈ handlerLoop goesOn fuel 0 false 0 (recvs arrivals) buf, Begins s d.1 d.2) ∧
      ((handlerLoop goesOn fuel 0 false 0 (recvs arrivals) buf).map (·.1)).Pairwise (· < ·)

theorem commands_sublist {α : Type} (reads : List (α × Bytes)) : ((commands reads).map (·.1)).Sublist reads := by
  induction reads with
  | nil => exact List.Sublist.refl _
  | cons q reads ih =>
    by_cases h : (protocolParseClientLine q.2).1 = .ok
    · rw [commands_accepted h, List.map_cons]
      exact ih.cons_cons q
    · rw [commands_rejected h]
      exact ih.cons q

theorem tillQuit_sublist {α : Type} (cmds : List ((α × Bytes) × ClientCmd)) : (tillQuit cmds).Sublist (cmds.map (·.1)) := by
  refine List.Sublist.map _ ((List.filter_sublist ..).trans ?_)
  conv_rhs => rw [← List.takeWhile_append_dropWhile (p := fun q => decide (q.2 ≠ .quit)) (l := cmds)]
  exact (List.Sublist.refl _).append (List.take_sublist ..)

theorem session_sublist {α : Type} (cmds : List ((α × Bytes) × ClientCmd)) : (session cmds).Sublist (cmds.map (·.1)) := by
  have hd := (List.dropWhile_sublist (l := cmds) fun q => decide (q.2 ≠ .auth)).map (·.1)
  unfold session
  generalize cmds.dropWhile (fun q => decide (q.2 ≠ .auth)) = rest at hd
  cases rest with
  | nil => exact List.nil_sublist _
  | cons q rest => exact ((tillQuit_sublist rest).cons_cons q.1).trans hd

theorem handed_map : ∀ (buf : Bytes) (ps : List Piece), (handed buf ps).map (·.1) = ps
  | _, [] => rfl
  | buf, p :: ps => by rw [handed, List.map_cons, handed_map]

theorem handed_text : ∀ {buf : Bytes} {ps : List Piece} {q : Piece × Bytes}, q ∈ handed buf ps →
    (q.1.Ended → q.2 = trimNewline q.1.bytes) ∧ (¬ q.1.Ended → ∃ t, q.2 = q.1.bytes ++ t)
  | _, [], _, h => by cases h
  | buf, p :: ps, q, h => by
    rw [handed, List.mem_cons] at h
    rcases h with rfl | h
    · refine ⟨fun he => if_pos he, fun he => ⟨_, if_neg he⟩⟩
    · exact handed_text h

theorem begins_iff {s buf : Bytes} {q : Piece × Bytes} (hq : q ∈ handed buf (pieces s)) :
    Begins s q.1.off q.2 ↔ q.1.column = 0 ∧ q.2.length ≤ q.1.bytes.length := by
  have hp : q.1 ∈ pieces s := by
    rw [← handed_map buf (pieces s)]
    exact List.mem_map_of_mem hq
  obtain ⟨off, hoff, hat⟩ := List.mem_map.mp hp
  have hlt : off < s.length := by
    have := (List.mem_range'_1.mp (List.mem_filter.mp hoff).1).2
    omega
  obtain ⟨hend, hopen⟩ := handed_text hq
  rw [← hat] at hend hopen ⊢
  have hcol : (pieceAt s off).column = column s off := rfl
  have hoffs : (pieceAt s off).off = off := rfl
  have hbytes : (pieceAt s off).bytes = piece (s.drop off) := rfl
  rw [hbytes] at hend hopen
  rw [Begins, hcol, hoffs, hbytes, column_eq_zero_iff (Nat.le_of_lt hlt)]
  refine and_congr_right fun _ => ?_
  by_cases he : (pieceAt s off).Ended
  · -- a trimmed piece has no newline left
    have hpre := trimNewline_initial (piece (s.drop off))
    rw [hend he]
    refine iff_of_true ⟨hpre.trans (piece_initial _), fun hlf => ?_⟩ hpre.length_le
    rcases piece_cases (s.drop off) with ⟨w, t, -, hw, -, hcut⟩ | ⟨t, -, hnot, -⟩ | ⟨hcut, hnot, -⟩
    · rw [hcut, trimNewline_lf] at hlf
      exact hw ((trimNewline_initial w).subset hlf)
    · exact hnot (hpre.subset hlf)
    · exact hnot (hcut ▸ hpre.subset hlf)
  · obtain ⟨t, ht⟩ := hopen he
    rcases piece_cases (s.drop off) with ⟨w, t, -, -, -, hcut⟩ | ⟨t, -, -, hlen⟩ | ⟨hcut, hnot, -⟩
    · refine absurd (.inr ?_) he
      rw [hbytes, hcut, List.getLast?_concat]
    · exact absurd (.inl hlen) he
    · rw [hcut] at ht ⊢
      constructor
      · rintro ⟨hpre, -⟩
        exact hpre.length_le
      · intro hle
        have hnil : t = [] := by
          rw [ht, List.length_append] at hle
          exact List.eq_nil_of_length_eq_zero (by omega)
        rw [ht, hnil, List.append_nil]
        exact ⟨List.prefix_refl _, hnot⟩

theorem offsets_pairwise {buf s : Bytes} {reads : List (Piece × Bytes)} (h : reads.Sublist (handed buf (pieces s))) :
    ((offsets reads).map (·.1)).Pairwise (· < ·) := by
  have hmap : (offsets reads).map (·.1) = (reads.map (·.1)).map Piece.off := by
    rw [offsets, List.map_map, List.map_map]
    rfl
  have hsub : ((reads.map (·.1)).map Piece.off).Sublist ((pieces s).map Piece.off) := by
    rw [← handed_map buf (pieces s)]
    exact (h.map _).map _
  have hoffs : (pieces s).map Piece.off = (List.range' 0 (s.length - 0)).filter fun o => decide (Starts s o) := by
    rw [pieces, piecesFrom, List.map_map]
    exact List.map_id' _
  rw [hmap]
  refine List.Pairwise.sublist hsub ?_
  rw [hoffs]
  exact List.Pairwise.filter _ (List.pairwise_lt_range' ..)

/-- **One command a line.** The handler keeps to the lines of the stream exactly
when none of the commands of the session stands in a piece behind the first
2047 bytes of its line, or in a last piece with something left behind it in the
buffer. -/
theorem framed_iff {s buf : Bytes} (h0 : 0 ∉ s) (hbuf : buf.length = maxLineLen) :
    Framed s buf ↔ ∀ q ∈ session (commands (handed buf (pieces s))),
      q.1.column = 0 ∧ q.2.length ≤ q.1.bytes.length := by
  have hsub : (session (commands (handed buf (pieces s)))).Sublist (handed buf (pieces s)) :=
    (session_sublist _).trans (commands_sublist _)
  have hstart : 0 < s.length → Starts s 0 := fun _ => Nat.zero_mod _
  constructor
  · intro hf q hq
    have hs := stream_segment s
    have hb : bytesOf (recvs [.segment s]) = s.drop 0 := by rw [bytesOf_recvs, hs, List.drop_zero]
    have hall := (handlerLoop_pieces h0 (fun _ => true) (s.length + 1) 0 false 0
      (error_not_mem_recvs (by simp)) hb (Nat.zero_le _) hstart hbuf).2 (fun _ => rfl) (by omega)
    have hd : (q.1.off, q.2) ∈ handlerLoop (fun _ => true) (s.length + 1) 0 false 0 (recvs [.segment s]) buf := by
      rw [hall]
      exact List.mem_map_of_mem hq
    exact (begins_iff (hsub.subset hq)).mp ((hf _ hs _ _).1 _ hd)
  · intro hc arrivals hs goesOn fuel
    have hb : bytesOf (faultless (recvs arrivals)) = s.drop 0 := by
      rw [bytesOf_faultless, bytesOf_recvs, hs, List.drop_zero]
    have hpre := (handlerLoop_faultless goesOn fuel 0 false 0 (recvs arrivals) buf).trans
      (handlerLoop_pieces h0 goesOn fuel 0 false 0 (error_not_mem_faultless _) hb (Nat.zero_le _) hstart hbuf).1
    refine ⟨fun d hd => ?_, (offsets_pairwise hsub).sublist (hpre.sublist.map _)⟩
    obtain ⟨q, hq, rfl⟩ := List.mem_map.mp (hpre.subset hd)
    exact (begins_iff (hsub.subset hq)).mpr (hc q hq)

theorem framed_iff_three_lines : Framed (lit "AUTH bob pw\nMSG hi\nQUIT\n") (zeros maxLineLen) :=
  (framed_iff (by decide) (zeros_length _)).mpr (by decide +kernel)

/-- A request behind a buffer full of anything else is dispatched. -/
theorem handlerLoop_smuggles {x w buf : Bytes} (hx0 : 0 ∉ x) (hxlf : lf ∉ x) (hxlen : x.length + 1 = maxLineLen)
    (hx : (protocolParseClientLine (trimNewline x)).1 ≠ .ok) (hw0 : 0 ∉ w) (hwlf : lf ∉ w)
    (hwlen : w.length + 1 < maxLineLen) (hw : (protocolParseClientLine (trimNewline w)).1 = .ok)
    (hauth : (protocolParseClientLine (trimNewline w)).2.cmd = .auth) (hbuf : buf.length = maxLineLen) :
    (x.length, trimNewline w) ∈
      handlerLoop (fun _ => true) 2 0 false 0 (recvs [.segment (x ++ (w ++ [lf]))]) buf := by
  have hb : bytesOf (recvs [.segment (x ++ (w ++ [lf]))]) = x ++ (w ++ [lf]) := by
    rw [bytesOf_recvs, stream_segment]
  have hx' : x.length = maxLineLen - 1 := by omega
  obtain ⟨sock₁, hloop₁, he₁, hb₁⟩ := @recvLoop_full (fun pos => if pos = 0 then .errIo else .ok) maxLineLen _ x (w ++ [lf])
    0 buf (error_not_mem_recvs (by simp)) hb hxlf (by omega) (by omega) (by decide)
  have hline₁ : serverRecvLine (recvs [.segment (x ++ (w ++ [lf]))]) buf maxLineLen =
      (.ok, endLine (overwrite buf 0 x) x.length, sock₁) := by
    rw [serverRecvLine, if_neg (by simp), hloop₁, hx']
  have hbuf₁ : (endLine (overwrite buf 0 x) x.length).length = maxLineLen := by
    rw [endLine_length, overwrite_length (by omega), hbuf]
  obtain ⟨sock₂, hline₂, -, -⟩ := serverRecvLine_framer.line he₁ hb₁ hwlf hwlen hbuf₁
  have htext₁ : cstr (endLine (overwrite buf 0 x) x.length) = trimNewline x := cstr_endLine hx0 (by omega)
  have htext₂ : cstr (endLine (overwrite (endLine (overwrite buf 0 x) x.length) 0 (w ++ [lf])) (w.length + 1)) =
      trimNewline w := by
    have hw1 : (w ++ [lf]).length = w.length + 1 := List.length_append
    rw [← hw1, cstr_endLine (by simp [hw0, lf]) (by omega), trimNewline_lf]
  have hoff : 0 + ((bytesOf (recvs [.segment (x ++ (w ++ [lf]))])).length - (bytesOf sock₁).length) = x.length := by
    rw [hb, hb₁, List.length_append]
    omega
  simp only [handlerLoop, hline₁, htext₁, ne_eq, hx, not_false_eq_true, ite_true, hline₂, htext₂, hw, hauth,
    not_true_eq_false, ite_false, Bool.not_false, hoff]
  exact List.mem_cons_self ..

/-- An `AUTH` behind 2047 bytes of its line is dispatched as a line of its own. -/
theorem smuggled_auth : ¬ Framed (List.replicate 2047 120 ++ (lit "AUTH bob pw" ++ [lf])) (zeros maxLineLen) := by
  intro h
  have hd := @handlerLoop_smuggles (List.replicate 2047 120) (lit "AUTH bob pw") (zeros maxLineLen) (by decide +kernel)
    (by decide +kernel) (by rw [List.length_replicate]; rfl) (by decide +kernel) (by decide) (by decide) (by decide)
    (by decide +kernel) (by decide +kernel) (zeros_length _)
  have hb := ((h [.segment _] (stream_segment _) _ _).1 _ hd).1
  rw [List.length_replicate] at hb
  exact absurd hb (by decide +kernel)

end ChatServer

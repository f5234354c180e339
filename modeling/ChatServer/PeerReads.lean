import ChatServer.Client
import ChatServer.FanOut
import ChatServer.WholeSends

/-!
# What a peer reads

Where no thread sends between two parts of another's line, a peer that calls
`client_recv_line` again and again gets the lines that were sent, one a call.
-/

namespace ChatServer

open CStr Interleave

section
variable {P : Platform} {db : AuthDb} {tr : List (Label Tid Act.Ret)} {c : System}

theorem received_mem {fd : Int} {line : Bytes} (h : line ∈ (received fd tr).lines) : ∃ l ∈ tr, ∃ sent, l.act = .send fd line sent := by
  induction tr using List.reverseRecOn with
  | nil => exact absurd h List.not_mem_nil
  | append_singleton tr l ih =>
    rcases received_lines_snoc fd tr l with hlines | hlines
    · rw [hlines] at h
      rcases List.mem_append.mp h with h | h
      · obtain ⟨l', hl', hsent⟩ := ih h
        exact ⟨l', List.mem_append_left _ hl', hsent⟩
      · obtain ⟨-, hsent⟩ := writtenOf_some (Option.mem_toList.mp h)
        exact ⟨l, List.mem_append_right _ (List.mem_singleton_self l), hsent⟩
    · rw [hlines] at h
      exact absurd h List.not_mem_nil

/-- Half of a line was sent before, and it is not all of it. -/
theorem sending_sent {tid : Tid} {fd : Int} {buf : Bytes} {n : Nat} (h : (stageOf tr tid).errand = .sending fd buf n) :
    n < buf.length ∧ ∃ l ∈ tr, ∃ sent, l.act = .send fd buf sent := by
  induction tr using List.reverseRecOn generalizing n with
  | nil => cases tid <;> cases h
  | append_singleton tr l ih =>
    rw [stageOf, monitor_snoc] at h
    split at h
    · rcases errand_next_sending h with ⟨sent, m, hl, -, -, hlt⟩ | ⟨-, hq⟩
      · exact ⟨hlt, l, List.mem_append_right _ (List.mem_singleton_self _), sent, congrArg Sigma.fst hl⟩
      · obtain ⟨hlt, l', hl', hsent⟩ := ih hq
        exact ⟨hlt, l', List.mem_append_left _ hl', hsent⟩
    · obtain ⟨hlt, l', hl', hsent⟩ := ih h
      exact ⟨hlt, l', List.mem_append_left _ hl', hsent⟩

theorem exists_wholeLines : ∀ {lines : List Bytes}, (∀ line ∈ lines, OneLine line) →
    ∃ ws : List Bytes, (∀ w ∈ ws, WholeLine w) ∧ lines = ws.map (· ++ [lf])
  | [], _ => ⟨[], fun _ hw => absurd hw List.not_mem_nil, rfl⟩
  | line :: lines, h => by
    obtain ⟨w, rfl, hw⟩ := h line (List.mem_cons_self ..)
    obtain ⟨ws, hws, rfl⟩ := exists_wholeLines fun l hl => h l (List.mem_cons_of_mem _ hl)
    exact ⟨w :: ws, List.forall_mem_cons.mpr ⟨hw, hws⟩, rfl⟩

/-- A part of a line has no newline yet. -/
theorem part_of_oneLine {buf : Bytes} (h : OneLine buf) {n : Nat} (hn : n < buf.length) :
    lf ∉ buf.take n ∧ (buf.take n).length + 1 < maxLineLen := by
  obtain ⟨w, rfl, hw⟩ := h
  have hlen := hw.length_lt
  rw [List.length_append, List.length_singleton] at hn
  rw [List.take_append_of_le_length (by omega)]
  exact ⟨not_mem_take hw.noLf n, by rw [List.length_take]; omega⟩

/-- The threads that do not send on one descriptor at a time leave whole lines there, and a part of one at most. -/
theorem received_split (hr : Run (fun c l c' => System.Step P Env.Proper c l c' ∧ Delivers l ∧ Undivided P c l) (System.init db) tr c)
    (fd : Int) : ∃ (ws : List Bytes) (part : Bytes), (∀ w ∈ ws, WholeLine w) ∧ (received fd tr).lines = ws.map (· ++ [lf]) ∧
      (received fd tr).bytes = (ws.map (· ++ [lf])).flatten ++ part ∧ lf ∉ part ∧ part.length + 1 < maxLineLen := by
  have hwrites := run_writes (hr.mono fun _ _ _ h => h.1)
  have hwhole : Whole tr fd := by
    refine hr.traced (I := fun tr _ => Whole tr fd) ?_ (Or.inl ⟨fun tid _ _ => by cases tid <;> nofun, rfl⟩)
    intro tr s' s'' l hr' hI ⟨hs, hd, hu⟩
    exact hI.step (run_staged (fun _ _ => False.elim) (hr'.mono fun _ _ _ h => h.1)) hs hd hu
  have oneLine : ∀ {line : Bytes}, (∃ l ∈ tr, ∃ sent, l.act = .send fd line sent) → OneLine line := by
    rintro line ⟨l, hl, sent, hact⟩
    have hw := hwrites l hl
    rw [hact] at hw
    exact hw
  obtain ⟨ws, hws, hlines⟩ := exists_wholeLines fun line hm => oneLine (received_mem hm)
  rcases hwhole with ⟨-, hbytes⟩ | ⟨tid, buf, sent, hq, -, hbytes⟩
  · exact ⟨ws, [], hws, hlines, by rw [hbytes, hlines, List.append_nil], List.not_mem_nil, by decide⟩
  · obtain ⟨hlt, hsent⟩ := sending_sent hq
    obtain ⟨hlf, hlen⟩ := part_of_oneLine (oneLine hsent) hlt
    exact ⟨ws, buf.take sent, hws, hlines, by rw [hbytes, hlines], hlf, hlen⟩

theorem recvLines_received (hr : Run (fun c l c' => System.Step P Env.Proper c l c' ∧ Delivers l ∧ Undivided P c l) (System.init db) tr c)
    {fd : Int} {sock : List Recv} (he : .error ∉ sock) (hb : bytesOf sock = (received fd tr).bytes) {buf : Bytes}
    (hbuf : buf.length = maxLineLen) {fuel : Nat} (hfuel : (received fd tr).lines.length < fuel) :
    recvLines clientRecvLine fuel sock buf = (received fd tr).lines.map trimNewline := by
  obtain ⟨ws, part, hws, hlines, hbytes, hlf, hlen⟩ := received_split hr fd
  rw [hlines] at hfuel ⊢
  rw [List.length_map] at hfuel
  rw [hbytes] at hb
  have htrim : trimNewline ∘ (· ++ [lf]) = trimNewline := funext trimNewline_lf
  rw [recvLines_part ws he hws hb hlf hlen hbuf hfuel, List.map_map, htrim]

/-- **A peer reads what the threads sent, line by line**: each line was sent
whole, fits the peer's buffer, and is handed over once and in order. -/
theorem peer_reads (hr : Run (fun c l c' => System.Step P Env.Proper c l c' ∧ Delivers l ∧ Undivided P c l) (System.init db) tr c)
    {fd : Int} {sock : List Recv} (he : .error ∉ sock) (hb : bytesOf sock = (received fd tr).bytes) {buf : Bytes}
    (hbuf : buf.length = maxLineLen) {fuel : Nat} (hfuel : (received fd tr).lines.length < fuel) :
    recvLines clientRecvLine fuel sock buf = (received fd tr).lines.map trimNewline ∧ ∀ line ∈ (received fd tr).lines, OneLine line := by
  refine ⟨recvLines_received hr he hb hbuf hfuel, fun line hm => ?_⟩
  obtain ⟨ws, -, hws, hlines, -⟩ := received_split hr fd
  rw [hlines] at hm
  obtain ⟨w, hw, rfl⟩ := List.mem_map.mp hm
  exact ⟨w, rfl, hws w hw⟩

theorem proper_bob : ∀ p ∈ (logIn 0 5 "bob").take 13 ++ List.replicate 4 (Tid.handler 0, slow ""), p.2.Proper := by
  have hslow : (slow "").Proper := by
    have hempty : WholeLine (lit "") := ⟨by decide, by decide, by decide⟩
    obtain ⟨⟨hnode, hu, hr, hc⟩, hline⟩ := sunny_proper hempty (by decide) 0 0
    exact ⟨⟨hnode, hu, hr, hc⟩, hline⟩
  intro p hp
  rcases List.mem_append.mp hp with hp | hp
  · exact proper_logIn p (List.mem_of_mem_take hp)
  · rw [(List.mem_replicate.mp hp).2]
    exact hslow

theorem peer_reads_bob : ∃ tr c, Run (fun c l c' => System.Step passPlatform Env.Proper c l c' ∧ Delivers l ∧ Undivided passPlatform c l)
      (System.init passDb) tr c ∧ (received 5 tr).bytes = lit "WELCOME bob\nROOM_" ∧
    recvLines clientRecvLine 5 (recvs [.segment (received 5 tr).bytes]) (zeros maxLineLen) = [lit "WELCOME bob"] := by
  obtain ⟨tr, c, hr, hp⟩ := System.exists_run passPlatform Env.Proper (System.init passDb) _ proper_bob
    (p := fun q => orderly q.1 &&
      (received 5 q.1).lines == [lit "WELCOME bob\n"] && (received 5 q.1).bytes == lit "WELCOME bob\nROOM_") (by decide +kernel)
  simp only [Bool.and_eq_true, beq_iff_eq] at hp
  obtain ⟨⟨horderly, hlines⟩, hbytes⟩ := hp
  have hrun := run_orderly (P := passPlatform) (fun _ _ _ h => h) hr horderly
  have hsock : bytesOf (recvs [.segment (received 5 tr).bytes]) = (received 5 tr).bytes := by
    simp [bytesOf_recvs, stream, Arrival.bytes]
  refine ⟨tr, c, hrun, hbytes, ?_⟩
  rw [(peer_reads hrun (by simp [recvs, Arrival.recvs]) hsock (zeros_length _) (by rw [hlines]; decide)).1, hlines]
  decide

end

end ChatServer

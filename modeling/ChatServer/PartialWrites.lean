import ChatServer.Sending

/-!
# Partial writes

The loop that `utils.c`, `server.c` and `client.c` each have a copy of, over a
script of what `send` answers. `sent` and `handed` are followed answer by
answer; the loop of the command handlers is the same one on the answers that
are no `EINTR`.
-/

namespace ChatServer

open CStr

/-- What `send(fd, buf + sent, len - sent, 0)` returns; `eintr` and `error` are -1. -/
inductive SendOutcome where
  | count (n : Nat)
  | eintr
  | error
  deriving DecidableEq

structure Transmit where
  sent : Nat
  -- the bytes that the kernel has accepted
  handed : Bytes
  -- `none` while the loop goes on
  rc : Option ChatStatus
  deriving DecidableEq

namespace Transmit

/-- `while (sent < len)` -/
def loop (buf : Bytes) (t : Transmit) : Transmit := if t.sent < buf.length then t else { t with rc := some .ok }

def step (buf : Bytes) (t : Transmit) (outcome : SendOutcome) : Transmit :=
  match t.rc with
  | some _ => t
  | none =>
    match outcome with
    | .eintr => t
    | .error => { t with rc := some .errIo }
    | .count 0 => { t with rc := some .errIo }
    | .count (n + 1) =>
      loop buf { t with sent := t.sent + (n + 1), handed := t.handed ++ (buf.drop t.sent).take (n + 1) }

def run (buf : Bytes) (script : List SendOutcome) : Transmit := script.foldl (step buf) (loop buf ⟨0, [], none⟩)

end Transmit

/-! The three copies. -/

namespace Scripted

def sendAll (buf : Bytes) (script : List SendOutcome) : Transmit := Transmit.run buf script

def serverSendAll (buf : Bytes) (script : List SendOutcome) : Transmit := Transmit.run buf script

def clientSendAll (buf : Bytes) (script : List SendOutcome) : Transmit := Transmit.run buf script

end Scripted

/-- The answer makes the loop return `CHAT_ERR_IO`. -/
def SendOutcome.Fails (outcome : SendOutcome) : Prop := outcome = .error ∨ outcome = .count 0

/-- The bytes that a script accepts up to its first failure. -/
def takenBy : List SendOutcome → Nat
  | [] => 0
  | .eintr :: script => takenBy script
  | .error :: _ | .count 0 :: _ => 0
  | .count (n + 1) :: script => n + 1 + takenBy script

/-- The kernel accepts no more than it is offered. -/
def Possible (buf : Bytes) (script : List SendOutcome) : Prop :=
  ∀ pre n rest, script = pre ++ .count n :: rest → (Transmit.run buf pre).rc = none → n ≤ buf.length - (Transmit.run buf pre).sent

namespace Transmit

theorem run_snoc (buf : Bytes) (script : List SendOutcome) (outcome : SendOutcome) :
    run buf (script ++ [outcome]) = (run buf script).step buf outcome := List.foldl_concat ..

/-! ## The invariant -/

/-- What was handed over is the beginning of the buffer up to `sent`, all of it
when the loop has ended well and not all of it otherwise. -/
structure Exact (buf : Bytes) (t : Transmit) : Prop where
  handed_eq : t.handed = buf.take t.sent
  sent_le : t.sent ≤ buf.length
  going : t.rc = none → t.sent < buf.length
  done : ∀ rc, t.rc = some rc → rc = .ok ∧ t.sent = buf.length ∨ rc = .errIo ∧ t.sent < buf.length

variable {buf : Bytes} {t : Transmit} {script : List SendOutcome}

theorem loop_exact (hrc : t.rc = none) (hh : t.handed = buf.take t.sent) (hle : t.sent ≤ buf.length) : (loop buf t).Exact buf := by
  unfold loop
  split
  · rename_i hlt
    refine ⟨hh, hle, fun _ => hlt, fun rc h => ?_⟩
    rw [hrc] at h
    cases h
  · rename_i hge
    refine ⟨hh, hle, nofun, ?_⟩
    rintro rc ⟨⟩
    exact Or.inl ⟨rfl, Nat.le_antisymm hle (Nat.not_lt.mp hge)⟩

theorem Exact.fail (h : t.Exact buf) (hrc : t.rc = none) : Exact buf { t with rc := some .errIo } := by
  refine ⟨h.handed_eq, h.sent_le, nofun, ?_⟩
  rintro rc ⟨⟩
  exact Or.inr ⟨rfl, h.going hrc⟩

theorem Exact.step (h : t.Exact buf) {outcome : SendOutcome}
    (hn : ∀ n, outcome = .count n → t.rc = none → n ≤ buf.length - t.sent) : (t.step buf outcome).Exact buf := by
  unfold Transmit.step
  cases hrc : t.rc with
  | some => exact h
  | none =>
    cases outcome with
    | eintr => exact h
    | error => exact h.fail hrc
    | count n =>
      cases n with
      | zero => exact h.fail hrc
      | succ n =>
        have hle := hn (n + 1) rfl hrc
        have hsent := h.sent_le
        refine loop_exact rfl ?_ (show t.sent + (n + 1) ≤ buf.length by omega)
        show t.handed ++ (buf.drop t.sent).take (n + 1) = buf.take (t.sent + (n + 1))
        rw [h.handed_eq]
        exact List.take_add.symm

theorem possible_initial {pre : List SendOutcome} (h : Possible buf script) (hpre : pre <+: script) : Possible buf pre := by
  obtain ⟨more, rfl⟩ := hpre
  rintro pre n rest rfl
  exact h pre n (rest ++ more) (by rw [List.append_assoc, List.cons_append])

theorem run_exact (h : Possible buf script) : (run buf script).Exact buf := by
  induction script using List.reverseRecOn with
  | nil => exact loop_exact rfl (List.take_zero).symm (Nat.zero_le _)
  | append_singleton script outcome ih =>
    rw [run_snoc]
    refine (ih (possible_initial h (List.prefix_append ..))).step ?_
    rintro n rfl hrc
    exact h script n [] rfl hrc

/-! ## Interruptions -/

theorem step_eintr (buf : Bytes) (t : Transmit) : t.step buf .eintr = t := by
  unfold step
  cases t.rc <;> rfl

/-- Interrupted calls change nothing. -/
theorem run_uninterrupted (buf : Bytes) (script : List SendOutcome) : run buf (script.filter (· ≠ .eintr)) = run buf script := by
  induction script using List.reverseRecOn with
  | nil => rfl
  | append_singleton script outcome ih =>
    rw [List.filter_append, run_snoc]
    by_cases h : outcome = .eintr
    · subst h
      rw [step_eintr, ← ih]
      exact congrArg (run buf) (List.append_nil _)
    · rw [List.filter_cons_of_pos (by simpa using h), List.filter_nil, run_snoc, ih]

end Transmit

/-! ## The loop of the handlers -/

def outcomeOf : (a : Act) × a.Ret → Option SendOutcome
  | ⟨.send _ _ _, some n⟩ => some (.count n)
  | ⟨.send _ _ _, none⟩ => some .error
  | _ => none

def outcomes (tr : List ((a : Act) × a.Ret)) : List SendOutcome := tr.filterMap outcomeOf

section
variable {S : Type} {E : (a : Act) → S → a.Ret → S → Prop} {fd : Int}

theorem foldl_returned (buf : Bytes) : ∀ (script : List SendOutcome) {t : Transmit}, t.rc ≠ none →
    script.foldl (Transmit.step buf) t = t
  | [], _, _ => rfl
  | outcome :: script, t, h => by
    have hstep : t.step buf outcome = t := by
      unfold Transmit.step
      cases hrc : t.rc with
      | some => rfl
      | none => exact absurd hrc h
    rw [List.foldl_cons, hstep]
    exact foldl_returned buf script h

/-- The script alone decides what a loop that still goes on at `t` hands over and returns. -/
def Taken (buf : Bytes) (t : Transmit) (script : List SendOutcome) : Prop :=
  (script.foldl (Transmit.step buf) t).handed = buf.take (t.sent + takenBy script) ∧
    ((script.foldl (Transmit.step buf) t).rc = some .ok ↔ buf.length ≤ t.sent + takenBy script) ∧
    ((script.foldl (Transmit.step buf) t).rc = some .errIo ↔ t.sent + takenBy script < buf.length ∧ ∃ outcome ∈ script, outcome.Fails)

/-- Behind a failure nothing counts. -/
theorem taken_fails {buf : Bytes} {t : Transmit} {outcome : SendOutcome} (ho : outcome.Fails) (script : List SendOutcome)
    (hzero : takenBy (outcome :: script) = 0) (hstep : t.step buf outcome = { t with rc := some .errIo }) (hlt : t.sent < buf.length)
    (hh : t.handed = buf.take t.sent) : Taken buf t (outcome :: script) := by
  have hrun : (outcome :: script).foldl (Transmit.step buf) t = { t with rc := some .errIo } := by
    rw [List.foldl_cons, hstep]
    exact foldl_returned buf script (Option.some_ne_none _)
  rw [Taken, hrun, hzero]
  exact ⟨hh, iff_of_false (by simp) (Nat.not_le.mpr hlt), iff_of_true rfl ⟨hlt, outcome, List.mem_cons_self .., ho⟩⟩

theorem foldl_taken {buf : Bytes} : ∀ (script : List SendOutcome) {t : Transmit}, t.rc = none → t.sent < buf.length →
    t.handed = buf.take t.sent → Taken buf t script
  | [], t, hrc, hlt, hh => by
    refine ⟨hh, iff_of_false ?_ (Nat.not_le.mpr hlt), iff_of_false ?_ ?_⟩
    · exact fun h => Option.some_ne_none _ (h.symm.trans hrc)
    · exact fun h => Option.some_ne_none _ (h.symm.trans hrc)
    · rintro ⟨-, outcome, hmem, -⟩
      cases hmem
  | .eintr :: script, t, hrc, hlt, hh => by
    have ih := foldl_taken script hrc hlt hh
    have hmem : (∃ o ∈ SendOutcome.eintr :: script, o.Fails) ↔ ∃ o ∈ script, o.Fails := by simp [SendOutcome.Fails]
    rw [Taken, List.foldl_cons, Transmit.step_eintr, hmem]
    exact ih
  | .error :: script, t, hrc, hlt, hh => taken_fails (Or.inl rfl) script rfl (by simp only [Transmit.step, hrc]) hlt hh
  | .count 0 :: script, t, hrc, hlt, hh => taken_fails (Or.inr rfl) script rfl (by simp only [Transmit.step, hrc]) hlt hh
  | .count (n + 1) :: script, t, hrc, hlt, hh => by
    have hstep : t.step buf (.count (n + 1)) = Transmit.loop buf { t with
        sent := t.sent + (n + 1), handed := t.handed ++ (buf.drop t.sent).take (n + 1) } := by
      simp only [Transmit.step, hrc]
    have hnext : t.handed ++ (buf.drop t.sent).take (n + 1) = buf.take (t.sent + (n + 1)) := by
      rw [hh]
      exact List.take_add.symm
    have hmem : (∃ o ∈ SendOutcome.count (n + 1) :: script, o.Fails) ↔ ∃ o ∈ script, o.Fails := by simp [SendOutcome.Fails]
    have hsum : t.sent + takenBy (.count (n + 1) :: script) = t.sent + (n + 1) + takenBy script := (Nat.add_assoc ..).symm
    rw [Taken, List.foldl_cons, hstep, hnext, hmem, hsum, Transmit.loop]
    by_cases hmore : t.sent + (n + 1) < buf.length
    · rw [if_pos hmore]
      exact foldl_taken script hrc hmore rfl
    · rw [if_neg hmore, foldl_returned buf script (Option.some_ne_none _)]
      have hall : buf.take (t.sent + (n + 1)) = buf.take (t.sent + (n + 1) + takenBy script) := by
        rw [List.take_of_length_le (by omega), List.take_of_length_le (by omega)]
      exact ⟨hall, iff_of_true rfl (by omega), iff_of_false (by simp) (by omega)⟩

theorem Transmit.run_taken (buf : Bytes) (script : List SendOutcome) : (Transmit.run buf script).handed = buf.take (takenBy script) ∧
    ((Transmit.run buf script).rc = some .ok ↔ buf.length ≤ takenBy script) ∧
    ((Transmit.run buf script).rc = some .errIo ↔ takenBy script < buf.length ∧ ∃ outcome ∈ script, outcome.Fails) := by
  rw [Transmit.run, Transmit.loop]
  by_cases hlive : 0 < buf.length
  · rw [if_pos hlive]
    have h := foldl_taken script (t := ⟨0, [], none⟩) rfl hlive List.take_zero.symm
    simp only [Taken, Nat.zero_add] at h
    exact h
  · rw [if_neg hlive, foldl_returned buf script (Option.some_ne_none _)]
    have hnil : buf = [] := List.length_eq_zero_iff.mp (Nat.eq_zero_of_not_pos hlive)
    subst hnil
    exact ⟨List.take_nil.symm, iff_of_true rfl (Nat.zero_le _), iff_of_false (by simp) fun h => absurd h.1 (Nat.not_lt_zero _)⟩

/-- The fuel of the handlers' loop is never used up, and its calls of `send`
take the loop over the script through the same states. -/
theorem sendLoop_scripted (buf : Bytes) : ∀ (fuel sent : Nat) (handed : Bytes), buf.length ≤ sent + fuel →
    ∀ {s s' : S} {tr : List ((a : Act) × a.Ret)} {rc : ChatStatus}, Prog.Exec E (sendLoop fd buf fuel sent) s tr rc s' →
      let t := (outcomes tr).foldl (Transmit.step buf) (Transmit.loop buf ⟨sent, handed, none⟩)
      t.rc = some rc ∧ t.handed = handed ++ delivered tr fd
  | 0, sent, handed, hf, s, s', tr, rc, h => by
    obtain ⟨rfl, rfl, -⟩ := h
    have hloop : Transmit.loop buf ⟨sent, handed, none⟩ = ⟨sent, handed, some .ok⟩ := if_neg (show ¬ sent < buf.length by omega)
    exact ⟨by rw [hloop]; rfl, by rw [hloop]; exact (List.append_nil _).symm⟩
  | fuel + 1, sent, handed, hf, s, s', tr, rc, h => by
    unfold sendLoop at h
    split at h
    · rename_i hge
      obtain ⟨rfl, rfl, -⟩ := h
      have hloop : Transmit.loop buf ⟨sent, handed, none⟩ = ⟨sent, handed, some .ok⟩ := if_neg (Nat.not_lt.mpr hge)
      exact ⟨by rw [hloop]; rfl, by rw [hloop]; exact (List.append_nil _).symm⟩
    · rename_i hlt
      have hloop : Transmit.loop buf ⟨sent, handed, none⟩ = ⟨sent, handed, none⟩ := if_pos (Nat.not_le.mp hlt)
      obtain ⟨r, s₁, tr', rfl, -, h⟩ := h
      change Option Nat at r
      rw [hloop]
      cases r with
      | none =>
        obtain ⟨rfl, rfl, -⟩ := h
        exact ⟨rfl, (List.append_nil _).symm⟩
      | some n =>
        cases n with
        | zero =>
          obtain ⟨rfl, rfl, -⟩ := h
          refine ⟨rfl, ?_⟩
          show handed = handed ++ ((if fd = fd then (buf.drop sent).take 0 else []) ++ [])
          rw [if_pos rfl, List.take_zero, List.append_nil, List.append_nil]
        | succ n =>
          obtain ⟨hrc, hh⟩ := sendLoop_scripted buf fuel (sent + (n + 1)) (handed ++ (buf.drop sent).take (n + 1)) (by omega) h
          refine ⟨hrc, hh.trans ?_⟩
          show _ = handed ++ ((if fd = fd then (buf.drop sent).take (n + 1) else []) ++ delivered tr' fd)
          rw [if_pos rfl, List.append_assoc]

theorem sendAll_scripted {buf : Bytes} {s s' : S} {tr : List ((a : Act) × a.Ret)} {rc : ChatStatus}
    (h : Prog.Exec E (sendAll fd buf) s tr rc s') :
    (Scripted.sendAll buf (outcomes tr)).rc = some rc ∧ (Scripted.sendAll buf (outcomes tr)).handed = delivered tr fd :=
  sendLoop_scripted buf buf.length 0 [] (by omega) h

end

/-- **Sending is exact**: the three loops agree on every script; whoever returns
`CHAT_OK` has handed over the buffer, whoever returns an error a proper beginning
of it, and `sent` stays within the buffer all the way. The counts of the script say
which it is, and how much is handed over. -/
theorem sends_exact {buf : Bytes} {script : List SendOutcome} (h : Possible buf script)
    {send : Bytes → List SendOutcome → Transmit}
    (hsend : send = Scripted.sendAll ∨ send = Scripted.serverSendAll ∨ send = Scripted.clientSendAll) :
    ((send buf script).rc = some .ok → (send buf script).handed = buf) ∧
      ((send buf script).rc = some .errIo → (send buf script).handed <+: buf ∧ (send buf script).handed ≠ buf) ∧
      (∀ rc, (send buf script).rc = some rc → rc = .ok ∨ rc = .errIo) ∧
      (∀ pre, pre <+: script → (send buf pre).sent ≤ buf.length) ∧
      (∀ buf script, send buf script = Scripted.sendAll buf script) ∧
      (send buf script).handed = buf.take (takenBy script) ∧
      ((send buf script).rc = some .ok ↔ buf.length ≤ takenBy script) ∧
      ((send buf script).rc = some .errIo ↔ takenBy script < buf.length ∧ ∃ outcome ∈ script, outcome.Fails) := by
  have hsame : send = Transmit.run := by rcases hsend with rfl | rfl | rfl <;> rfl
  subst hsame
  have hx := Transmit.run_exact h
  refine ⟨fun hok => ?_, fun herr => ?_, fun rc hrc => ?_, fun pre hpre => ?_, fun _ _ => rfl, Transmit.run_taken buf script⟩
  · rcases hx.done _ hok with ⟨-, hlen⟩ | ⟨hne, -⟩
    · rw [hx.handed_eq, hlen, List.take_length]
    · cases hne
  · rcases hx.done _ herr with ⟨hne, -⟩ | ⟨-, hlt⟩
    · cases hne
    · rw [hx.handed_eq]
      refine ⟨List.take_prefix .., fun heq => ?_⟩
      have hlen := congrArg List.length heq
      rw [List.length_take] at hlen
      omega
  · exact (hx.done rc hrc).imp And.left And.left
  · exact (Transmit.run_exact (Transmit.possible_initial h hpre)).sent_le

/-- Seven bytes in three pieces, with an interruption and an answer that is not asked for any more. -/
theorem sends_exact_pieces :
    (Scripted.serverSendAll (lit "OK hi!\n") [.count 2, .eintr, .count 4, .count 1, .error]).handed = lit "OK hi!\n" := by
  have hrun : ∀ n pre rest, [SendOutcome.count 2, .eintr, .count 4, .count 1, .error] = pre ++ .count n :: rest →
      n ≤ (lit "OK hi!\n").length - (Transmit.run (lit "OK hi!\n") pre).sent := by
    intro n pre rest h
    rcases pre with _ | ⟨p₁, _ | ⟨p₂, _ | ⟨p₃, _ | ⟨p₄, _ | ⟨p₅, pre⟩⟩⟩⟩⟩
    all_goals
      simp only [List.nil_append, List.cons_append, List.cons.injEq, SendOutcome.count.injEq, reduceCtorEq, false_and, and_false,
        List.nil_eq, List.append_eq_nil_iff] at h
    · obtain ⟨rfl, -⟩ := h
      decide
    · obtain ⟨rfl, rfl, rfl, -⟩ := h
      decide
    · obtain ⟨rfl, rfl, rfl, rfl, -⟩ := h
      decide
  exact (sends_exact (fun pre n rest h _ => hrun n pre rest h) (Or.inr (Or.inl rfl))).1 (by decide)

end ChatServer

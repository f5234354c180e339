import ChatServer.Delivery
import ChatServer.ThreadStages

/-!
# Whole lines on a socket

`send_all` may need several `send` calls for one line, and nothing keeps
another thread from sending on the same descriptor between two of them. The
peer reads whole lines as long as no thread does.
-/

namespace ChatServer

open CStr Interleave

/-! ## What the peer gets -/

/-- The bytes of the connection that has the descriptor, and the lines that were sent to their end on it. -/
structure Received where
  bytes : Bytes
  lines : List Bytes

namespace Received

def onSend (buf : Bytes) (sent : Nat) (x : Received) : Option Nat → Received
  | none => x
  | some n =>
    { bytes := x.bytes ++ (buf.drop sent).take n
      lines := if buf.length ≤ sent + n then x.lines ++ [buf] else x.lines }

def step (fd : Int) (x : Received) (l : Label Tid Act.Ret) : Received :=
  match l with
  | ⟨_, .send fd' buf sent, (r : Option Nat)⟩ => if fd' = fd then x.onSend buf sent r else x
  | ⟨_, .accept, (r : Option (Int × Nat))⟩ => if r.any (·.1 == fd) then ⟨[], []⟩ else x
  | _ => x

end Received

def received (fd : Int) (tr : List (Label Tid Act.Ret)) : Received := tr.foldl (Received.step fd) ⟨[], []⟩

theorem received_snoc (fd : Int) (tr : List (Label Tid Act.Ret)) (l : Label Tid Act.Ret) :
    received fd (tr ++ [l]) = (received fd tr).step fd l := List.foldl_concat _ _ _ _

/-- No `send` fails. -/
def Delivers (l : Label Tid Act.Ret) : Prop :=
  ∀ tid fd buf sent (r : Option Nat), l = ⟨tid, .send fd buf sent, r⟩ → ∃ n, r = some n ∧ 0 < n

/-- The thread has sent a part of a line on `fd` and is about to go on. -/
def Amid (P : Platform) (c : System) (tid : Tid) (fd : Int) (buf : Bytes) (sent : Nat) : Prop :=
  0 < sent ∧ ∃ k, (c.loc tid).next P = some ⟨.send fd buf sent, k⟩

/-- A descriptor on which a line is half sent is neither sent on by another thread nor handed out again. -/
structure Undivided (P : Platform) (c : System) (l : Label Tid Act.Ret) : Prop where
  send : ∀ fd buf sent, l.act = .send fd buf sent → ∀ tid, tid ≠ l.tid → ∀ buf' sent', ¬ Amid P c tid fd buf' sent'
  accept : ∀ tid fd id, l = ⟨tid, .accept, some (fd, id)⟩ → ∀ tid' buf sent, ¬ Amid P c tid' fd buf sent

/-! ## Half sent lines and errands -/

theorem errand_next_sending {fd₀ fd : Int} {q : Errand} {a : Act} {r : a.Ret} {buf : Bytes} {n : Nat}
    (h : q.next fd₀ a r = .sending fd buf n) :
    (∃ sent m, (⟨a, r⟩ : (a : Act) × a.Ret) = ⟨.send fd buf sent, some m⟩ ∧ 0 < m ∧ n = sent + m ∧ n < buf.length) ∨
      ((∀ fd buf sent, a ≠ .send fd buf sent) ∧ q = .sending fd buf n) := by
  cases a with
  | send fd' buf' sent =>
    change Option Nat at r
    change Errand.sent fd' buf' sent r = _ at h
    cases r with
    | none => cases h
    | some m =>
      change (if m ≠ 0 ∧ sent + m < buf'.length then Errand.sending fd' buf' (sent + m) else .none) = _ at h
      split at h
      · rename_i hm
        cases h
        exact Or.inl ⟨sent, m, rfl, Nat.pos_of_ne_zero hm.1, rfl, hm.2⟩
      · cases h
  | recvLine =>
    change Option Bytes at r
    have hopen := Handler.heard_open r
    rw [show Errand.heard r = _ from h] at hopen
    exact hopen.elim
  | stackEvent =>
    refine Or.inr ⟨fun _ _ _ => nofun, ?_⟩
    cases q <;> first | exact h | cases h
  | mqPush =>
    refine Or.inr ⟨fun _ _ _ => nofun, ?_⟩
    cases q <;> first | exact h | cases h
  | roomHistoryAdd => cases h
  | roomHistoryFormat =>
    refine Or.inr ⟨fun _ _ _ => nofun, ?_⟩
    change q.quoted fd₀ r = _ at h
    unfold Errand.quoted at h
    split at h
    · cases h
    · exact h
  | _ => exact Or.inr ⟨fun _ _ _ => nofun, h⟩

theorem permits_sending {T : Prop} {σ : Stage} {a : Act} (hp : σ.permits T a) {fd : Int} {buf : Bytes} {sent : Nat}
    (hq : σ.errand = .sending fd buf sent) : a = .send fd buf sent := by
  have he := hp.errand
  rw [hq] at he
  cases a with
  | send fd' buf' sent' =>
    obtain ⟨-, h | ⟨-, h | h⟩⟩ := he
    · cases h; rfl
    · cases h
    · cases h
  | stackEvent =>
    rcases he with h | ⟨_, _, _, _, h⟩
    · cases h
    · cases h
  | mqPush msg =>
    change if msg.type = .chat then _ else _ at he
    split at he <;> cases he
  | _ => cases he

section
variable {T : Prop} {tid : Tid} {tr : List (Label Tid Act.Ret)} {c : System} {P : Platform}

theorem at_busy {σ : Stage} {t : Thread} (hat : t.At T tid σ) (hq : ¬ σ.errand.Open) : ∃ a k, t.next P = some ⟨a, k⟩ := by
  cases tid with
  | main =>
    cases t with
    | main t =>
      cases t with
      | top | accepting | done => exact absurd hat.2 hq
      | serving x | closing x =>
        cases x with
        | ret => exact absurd hat.2 hq
        | act a k => exact ⟨a, _, rfl⟩
    | _ => cases hat
  | broadcaster =>
    cases t with
    | broadcaster t =>
      cases t with
      | top | popping | done => exact absurd hat.2 hq
      | first | stepping => exact absurd hat.2.2 hq
      | sending room line cur x =>
        cases x with
        | ret => exact absurd hat.2.2 hq
        | act a k => exact ⟨a, _, rfl⟩
    | _ => cases hat
  | signal =>
    cases t with
    | signal => exact absurd hat.2 hq
    | _ => cases hat
  | handler i =>
    cases t with
    | handler h =>
      obtain ⟨-, hp⟩ := hat
      cases hpoint : h.point with
      | unborn => rw [hpoint] at hp; exact absurd hp.2.2 hq
      | top | reading | done => rw [hpoint] at hp; exact absurd hp.2 hq
      | busy cont x =>
        rw [hpoint] at hp
        cases x with
        | ret =>
          cases cont with
          | command | leave => exact absurd hp.2 hq
          | auth => exact absurd hp.2.2.errand hq
        | act a k =>
          refine ⟨a, fun r => .handler ((h.note a r).enter cont (k r)), ?_⟩
          show (h.next P).map _ = _
          rw [Handler.next, hpoint]
          rfl
    | _ => cases hat

theorem stage_sending_pos {fd : Int} {buf : Bytes} {sent : Nat} (h : (stageOf tr tid).errand = .sending fd buf sent) : 0 < sent := by
  induction tr using List.reverseRecOn with
  | nil => cases tid <;> cases h
  | append_singleton tr l ih =>
    rw [stageOf, monitor_snoc] at h
    split at h
    · rcases errand_next_sending h with ⟨n, m, -, hm, rfl, -⟩ | ⟨-, hq⟩
      · omega
      · exact ih hq
    · exact ih h

theorem amid_iff (hc : Staged T tr c) {fd : Int} {buf : Bytes} {sent : Nat} :
    Amid P c tid fd buf sent ↔ (stageOf tr tid).errand = .sending fd buf sent := by
  constructor
  · rintro ⟨hpos, k, hn⟩
    obtain ⟨-, h | ⟨rfl, -⟩⟩ := (Thread.at_next (hc.loc tid) hn).1.errand
    · exact h
    · exact absurd hpos (Nat.lt_irrefl 0)
  · intro hq
    obtain ⟨a, k, hn⟩ := at_busy (P := P) (hc.loc tid) (by rw [hq]; exact id)
    obtain rfl := permits_sending (Thread.at_next (hc.loc tid) hn).1 hq
    exact ⟨stage_sending_pos hq, k, hn⟩

end

/-! ## The stream -/

/-- Whole lines, and behind them what the one thread that is amid a line has sent of it. -/
def Whole (tr : List (Label Tid Act.Ret)) (fd : Int) : Prop :=
  ((∀ tid buf sent, (stageOf tr tid).errand ≠ .sending fd buf sent) ∧ (received fd tr).bytes = (received fd tr).lines.flatten) ∨
  ∃ tid buf sent, (stageOf tr tid).errand = .sending fd buf sent ∧
    (∀ tid' buf' sent', (stageOf tr tid').errand = .sending fd buf' sent' → tid' = tid) ∧
    (received fd tr).bytes = (received fd tr).lines.flatten ++ buf.take sent

section
variable {T : Prop} {P : Platform} {ok : Env → Prop} {tr : List (Label Tid Act.Ret)} {c c' : System} {fd : Int}

/-- Nobody begins or goes on with a line on `fd` in a step that is no `send` on it. -/
theorem sending_other {tid : Tid} {a : Act} {r : a.Ret} (hp : (stageOf tr tid).permits T a)
    (ha : ∀ buf sent, a ≠ .send fd buf sent) (tid' : Tid) (buf : Bytes) (sent : Nat) :
    (stageOf (tr ++ [⟨tid, a, r⟩]) tid').errand = .sending fd buf sent ↔ (stageOf tr tid').errand = .sending fd buf sent := by
  by_cases htid : tid' = tid
  · subst htid
    rw [stageOf_own]
    constructor
    · intro h
      rcases errand_next_sending h with ⟨n, m, hl, -⟩ | ⟨-, hq⟩
      · exact absurd (congrArg Sigma.fst hl) (ha buf n)
      · exact hq
    · intro h
      exact absurd (permits_sending hp h) (ha buf sent)
  · rw [stageOf_other (Ne.symm htid)]

theorem Whole.other (h : Whole tr fd) {tid : Tid} {a : Act} {r : a.Ret} (hp : (stageOf tr tid).permits T a)
    (ha : ∀ buf sent, a ≠ .send fd buf sent) (hsame : (received fd tr).step fd ⟨tid, a, r⟩ = received fd tr) :
    Whole (tr ++ [⟨tid, a, r⟩]) fd := by
  unfold Whole
  simp only [received_snoc, hsame, sending_other hp ha, ne_eq]
  exact h

/-- A thread that sends on `fd` while no other thread is amid a line on it goes
on where it stopped, or starts where whole lines have ended. -/
theorem Whole.before (h : Whole tr fd) {tid : Tid} {buf : Bytes} {sent : Nat}
    (hp : (stageOf tr tid).permits T (.send fd buf sent))
    (halone : ∀ tid', tid' ≠ tid → ∀ buf' sent', (stageOf tr tid').errand ≠ .sending fd buf' sent') :
    (received fd tr).bytes = (received fd tr).lines.flatten ++ buf.take sent := by
  rcases h with ⟨hnone, hbytes⟩ | ⟨tid', buf', sent', hq, -, hbytes⟩
  · obtain ⟨-, h | ⟨rfl, -⟩⟩ := hp.errand
    · exact absurd h (hnone tid buf sent)
    · rw [hbytes, List.take_zero, List.append_nil]
  · obtain rfl : tid' = tid := by
      by_contra hne
      exact halone tid' hne buf' sent' hq
    cases permits_sending hp hq
    exact hbytes

theorem Whole.send (h : Whole tr fd) {tid : Tid} {buf : Bytes} {sent n : Nat}
    (hp : (stageOf tr tid).permits T (.send fd buf sent)) (hn : 0 < n)
    (halone : ∀ tid', tid' ≠ tid → ∀ buf' sent', (stageOf tr tid').errand ≠ .sending fd buf' sent') :
    Whole (tr ++ [⟨tid, .send fd buf sent, some n⟩]) fd := by
  have hbefore := h.before hp halone
  have hbytes : (received fd (tr ++ [⟨tid, .send fd buf sent, some n⟩])).bytes =
      (received fd tr).lines.flatten ++ buf.take (sent + n) := by
    rw [received_snoc]
    show ((if fd = fd then Received.onSend buf sent _ (some n) else _) : Received).bytes = _
    rw [if_pos rfl, Received.onSend, hbefore, List.append_assoc, List.take_add]
  have hlines : (received fd (tr ++ [⟨tid, .send fd buf sent, some n⟩])).lines =
      if buf.length ≤ sent + n then (received fd tr).lines ++ [buf] else (received fd tr).lines := by
    rw [received_snoc]
    show ((if fd = fd then Received.onSend buf sent _ (some n) else _) : Received).lines = _
    rw [if_pos rfl]
    rfl
  have hown : (stageOf (tr ++ [⟨tid, .send fd buf sent, some n⟩]) tid).errand =
      if n ≠ 0 ∧ sent + n < buf.length then .sending fd buf (sent + n) else .none :=
    congrArg Stage.errand (stageOf_own tr tid (Act.send fd buf sent) (some n : Option Nat))
  have hother : ∀ tid' buf' sent', (stageOf (tr ++ [⟨tid, .send fd buf sent, some n⟩]) tid').errand = .sending fd buf' sent' →
      tid' = tid := by
    intro tid' buf' sent' hq
    by_contra hne
    rw [stageOf_other (Ne.symm hne)] at hq
    exact halone tid' hne buf' sent' hq
  by_cases hlt : sent + n < buf.length
  · rw [if_pos ⟨Nat.ne_of_gt hn, hlt⟩] at hown
    rw [if_neg (Nat.not_le.mpr hlt)] at hlines
    exact Or.inr ⟨tid, buf, sent + n, hown, hother, by rw [hbytes, hlines]⟩
  · rw [if_neg fun h => hlt h.2] at hown
    rw [if_pos (Nat.not_lt.mp hlt)] at hlines
    refine Or.inl ⟨fun tid' buf' sent' hq => ?_, ?_⟩
    · obtain rfl := hother tid' buf' sent' hq
      rw [hown] at hq
      cases hq
    · rw [hbytes, hlines, List.take_of_length_le (Nat.not_lt.mp hlt), List.flatten_append, List.flatten_singleton]

theorem Whole.step (hc : Staged T tr c) (h : Whole tr fd) {l : Label Tid Act.Ret} (hs : System.Step P ok c l c')
    (hd : Delivers l) (hu : Undivided P c l) : Whole (tr ++ [l]) fd := by
  obtain ⟨tid, a, r⟩ := l
  obtain ⟨hp, -⟩ := hc.step hs
  cases a with
  | send fd' buf sent =>
    by_cases hfd : fd' = fd
    · subst hfd
      obtain ⟨n, rfl, hn⟩ := hd tid fd' buf sent r rfl
      refine h.send hp hn fun tid' hne buf' sent' hq => ?_
      exact hu.send fd' buf sent rfl tid' hne buf' sent' ((amid_iff hc).mpr hq)
    · refine h.other hp (fun buf' sent' he => hfd (by cases he; rfl)) ?_
      exact if_neg hfd
  | accept =>
    change Option (Int × Nat) at r
    by_cases hr : (r.any (·.1 == fd)) = true
    · obtain ⟨⟨fd', id⟩, rfl, hfd⟩ := (Option.any_eq_true _ _).mp hr
      obtain rfl : fd' = fd := by simpa using hfd
      refine Or.inl ⟨fun tid' buf sent hq => ?_, ?_⟩
      · have hbefore := (sending_other hp (fun _ _ => nofun) tid' buf sent).mp hq
        exact hu.accept tid fd' id rfl tid' buf sent ((amid_iff hc).mpr hbefore)
      · rw [received_snoc]
        show ((if _ then (⟨[], []⟩ : Received) else _) : Received).bytes = ((if _ then (⟨[], []⟩ : Received) else _) : Received).lines.flatten
        rw [if_pos hr]
        rfl
    · exact h.other hp (fun _ _ => nofun) (if_neg hr)
  | _ => exact h.other hp (fun _ _ => nofun) rfl

/-- **Lines arrive whole** in the runs in which no descriptor is used while
another thread is amid a line on it. -/
theorem lines_whole {db : AuthDb}
    (hr : Run (fun c l c' => System.Step P ok c l c' ∧ Delivers l ∧ Undivided P c l) (System.init db) tr c) (fd : Int) :
    ∃ part, (received fd tr).bytes = (received fd tr).lines.flatten ++ part ∧
      (part = [] ∨ ∃ tid buf sent, Amid P c tid fd buf sent ∧ part = buf.take sent) := by
  have hrun : Run (System.Step P ok) (System.init db) tr c := hr.mono fun _ _ _ h => h.1
  have hstaged : Staged False tr c := run_staged (fun _ _ => False.elim) hrun
  have hwhole : Whole tr fd := by
    refine hr.traced (I := fun tr _ => Whole tr fd) ?_ (Or.inl ⟨fun tid _ _ => by cases tid <;> nofun, rfl⟩)
    intro tr s' s'' l hr' hI ⟨hs, hd, hu⟩
    have hc : Staged False tr s' := run_staged (fun _ _ => False.elim) (hr'.mono fun _ _ _ h => h.1)
    exact hI.step hc hs hd hu
  rcases hwhole with ⟨-, hbytes⟩ | ⟨tid, buf, sent, hq, -, hbytes⟩
  · exact ⟨[], by rw [List.append_nil, hbytes], Or.inl rfl⟩
  · exact ⟨buf.take sent, hbytes, Or.inr ⟨tid, buf, sent, (amid_iff hstaged).mpr hq, rfl⟩⟩

end

/-! ### `alice` and `bob` on one socket -/

def fails (l : Label Tid Act.Ret) : Bool :=
  match l with
  | ⟨_, .send .., (r : Option Nat)⟩ => r.getD 0 == 0
  | _ => false

theorem delivers_of_not_fails {l : Label Tid Act.Ret} (h : fails l = false) : Delivers l := by
  rintro tid fd buf sent r rfl
  cases r with
  | none => cases h
  | some n =>
    cases n with
    | zero => cases h
    | succ n => exact ⟨n + 1, rfl, Nat.succ_pos n⟩

section
variable {P : Platform} {ok : Env → Prop} {tr : List (Label Tid Act.Ret)} {c : System}

/-- The thread that is amid a line; no other one sends meanwhile, and no descriptor is handed out. -/
def lineTurn (busy : Option Tid) : Label Tid Act.Ret → Option (Option Tid)
  | ⟨tid, .send _ buf sent, (r : Option Nat)⟩ =>
    if busy = none ∨ busy = some tid then some (if r.any (fun n => decide (sent + n < buf.length)) then some tid else none) else none
  | ⟨_, .accept, _⟩ => if busy = none then some none else none
  | _ => some busy

/-- One send, accept or other action of a thread, where the check goes on. -/
theorem lineTurn_some {b busy : Option Tid} {l : Label Tid Act.Ret} (h : lineTurn b l = some busy) :
    (∃ tid fd buf sent r, l = ⟨tid, .send fd buf sent, r⟩ ∧ (b = none ∨ b = some tid) ∧
      busy = if r.any (fun n => decide (sent + n < buf.length)) then some tid else none) ∨
    (l.act = .accept ∧ b = none ∧ busy = none) ∨ ((∀ fd buf sent, l.act ≠ .send fd buf sent) ∧ l.act ≠ .accept ∧ busy = b) := by
  obtain ⟨tid, a, r⟩ := l
  cases a with
  | send fd buf sent =>
    change Option Nat at r
    change (if b = none ∨ b = some tid then some (if r.any (fun n => decide (sent + n < buf.length)) then some tid else none)
      else none) = some busy at h
    split at h
    · rename_i hturn
      exact Or.inl ⟨tid, fd, buf, sent, r, rfl, hturn, (Option.some.inj h).symm⟩
    · cases h
  | accept =>
    change (if b = none then some none else none) = some busy at h
    split at h
    · rename_i hfree
      exact Or.inr (Or.inl ⟨rfl, hfree, (Option.some.inj h).symm⟩)
    · cases h
  | _ => exact Or.inr (Or.inr ⟨fun _ _ _ => Act.noConfusion, Act.noConfusion, (Option.some.inj h).symm⟩)

/-- Whoever is amid a line has the turn. -/
def HasTurn (tr : List (Label Tid Act.Ret)) (b : Option Tid) : Prop :=
  ∀ tid fd buf n, (stageOf tr tid).errand = .sending fd buf n → b = some tid

theorem HasTurn.undivided {b busy : Option Tid} {l : Label Tid Act.Ret} (hb : HasTurn tr b) (hc : Staged False tr c)
    (h : lineTurn b l = some busy) : Undivided P c l where
  send := by
    intro fd buf sent hl tid hne buf' sent' hamid
    have hturn := hb _ _ _ _ ((amid_iff hc).mp hamid)
    rcases lineTurn_some h with ⟨tid', _, _, _, _, rfl, hfree, -⟩ | ⟨hact, -⟩ | ⟨hno, -⟩
    · rw [hturn] at hfree
      exact hfree.elim (Option.some_ne_none _) fun h => hne (Option.some.inj h)
    · rw [hl] at hact
      cases hact
    · exact hno _ _ _ hl
  accept := by
    rintro tid fd id rfl tid' buf sent hamid
    have hturn := hb _ _ _ _ ((amid_iff hc).mp hamid)
    rcases lineTurn_some h with ⟨_, _, _, _, _, hl, -⟩ | ⟨-, hfree, -⟩ | ⟨-, hno, -⟩
    · cases hl
    · exact Option.some_ne_none _ (hturn.symm.trans hfree)
    · exact hno rfl

/-- Who is amid a line behind the action has sent a part of it just now, or was amid it before. -/
theorem HasTurn.next {b busy : Option Tid} {l : Label Tid Act.Ret} (hb : HasTurn tr b) (h : lineTurn b l = some busy) :
    HasTurn (tr ++ [l]) busy := by
  intro tid fd buf n hq
  obtain ⟨tid', a, r⟩ := l
  by_cases htid : tid = tid'
  · subst htid
    rw [stageOf_own] at hq
    rcases errand_next_sending hq with ⟨sent, m, hl, -, rfl, hlt⟩ | ⟨hno, hold⟩
    · cases hl
      rcases lineTurn_some h with ⟨_, _, _, _, _, hl, -, rfl⟩ | ⟨hact, -⟩ | ⟨hno, -⟩
      · cases hl
        exact if_pos (by simpa using hlt)
      · cases hact
      · exact absurd rfl (hno fd buf sent)
    · have hturn := hb tid fd buf n hold
      rcases lineTurn_some h with ⟨_, _, _, _, _, hl, -⟩ | ⟨-, hfree, -⟩ | ⟨-, -, rfl⟩
      · cases hl
        exact absurd rfl (hno _ _ _)
      · exact absurd (hturn.symm.trans hfree) (Option.some_ne_none _)
      · exact hturn
  · rw [stageOf_other (Ne.symm htid)] at hq
    have hturn := hb tid fd buf n hq
    rcases lineTurn_some h with ⟨_, _, _, _, _, hl, hfree, -⟩ | ⟨-, hfree, -⟩ | ⟨-, -, rfl⟩
    · cases hl
      rw [hturn] at hfree
      exact (hfree.elim (Option.some_ne_none _) fun h => htid (Option.some.inj h)).elim
    · exact absurd (hturn.symm.trans hfree) (Option.some_ne_none _)
    · exact hturn

/-- No send fails, and threads take turns in sending whole lines. -/
def orderly (tr : List (Label Tid Act.Ret)) : Bool := tr.all (fun l => !fails l) && (tr.foldlM lineTurn none).isSome

theorem run_orderly {db : AuthDb} {step : System → Label Tid Act.Ret → System → Prop}
    (hstep : ∀ c l c', step c l c' → System.Step P ok c l c') (hr : Run step (System.init db) tr c) (h : orderly tr = true) :
    Run (fun c l c' => step c l c' ∧ Delivers l ∧ Undivided P c l) (System.init db) tr c := by
  rw [orderly, Bool.and_eq_true, List.all_eq_true] at h
  obtain ⟨hfails, hturns⟩ := h
  obtain ⟨busy, hbusy⟩ := Option.isSome_iff_exists.mp hturns
  have hundivided : Run (fun c l c' => step c l c' ∧ Undivided P c l) (System.init db) tr c := by
    refine (hr.checked (I := HasTurn) ?_ (fun tid _ _ _ h => by cases tid <;> cases h) hbusy).1
    intro tr c c' l b busy hr _ hturn hnext
    have hstaged : Staged False tr c := run_staged (fun _ _ => False.elim) (hr.mono hstep)
    exact ⟨hturn.undivided hstaged hnext, hturn.next hnext⟩
  have hdelivers : ∀ l ∈ tr, Delivers l := fun l hl => delivers_of_not_fails (by simpa using hfails l hl)
  exact (hundivided.labelled hdelivers).mono fun _ _ _ h => ⟨h.1.1, h.2, h.1.2⟩

end

def slow (line : String) : Env := { sunny line 0 0 with sent := some 5 }

/-- `alice` sends her `PM` to `bob` in two pieces, then `bob`'s own handler begins to answer him. -/
theorem lines_whole_bob : ∃ tr c, Run (fun c l c' => System.Step passPlatform (fun _ => True) c l c' ∧ Delivers l ∧
      Undivided passPlatform c l) (System.init passDb) tr c ∧
    (received 6 tr).lines.getLast? = some (lit "PM alice 1970-01-01T00:00:00 hi\n") ∧
    (received 6 tr).bytes = (received 6 tr).lines.flatten ++ lit "ERR i" ∧
    ∃ part, (received 6 tr).bytes = (received 6 tr).lines.flatten ++ part ∧
      (part = [] ∨ ∃ tid buf sent, Amid passPlatform c tid 6 buf sent ∧ part = buf.take sent) := by
  obtain ⟨tr, c, hr, hp⟩ := System.exists_run passPlatform (fun _ => True) (System.init passDb)
    (bothIn ++ List.replicate 5 (.handler 0, slow "PM bob hi") ++ [(.handler 0, sunny "" 0 0)] ++
      List.replicate 2 (.handler 1, slow "PONG")) (fun _ _ => trivial)
    (p := fun q => orderly q.1 &&
      (received 6 q.1).lines.getLast? == some (lit "PM alice 1970-01-01T00:00:00 hi\n") &&
      (received 6 q.1).bytes == (received 6 q.1).lines.flatten ++ lit "ERR i") (by decide +kernel)
  simp only [Bool.and_eq_true, beq_iff_eq] at hp
  obtain ⟨⟨horderly, hlast⟩, hbytes⟩ := hp
  have hrun := run_orderly (P := passPlatform) (fun _ _ _ h => h) hr horderly
  exact ⟨tr, c, hrun, hlast, hbytes, lines_whole hrun 6⟩

theorem exists_suffix {order : List Bytes} (h : order ≠ []) : ∃ line ∈ order, line <:+ order.flatten := by
  obtain ⟨init, line, rfl⟩ := List.eq_nil_or_concat order |>.resolve_left h
  refine ⟨line, by simp, init.flatten, by simp⟩

/-- `alice` sends her `PM` in two pieces, and `bob`'s own handler answers him in between. -/
theorem lines_torn : ∃ tr c, Run (fun c l c' => System.Step passPlatform (fun _ => True) c l c' ∧ Delivers l)
      (System.init passDb) tr c ∧
    ¬ ∃ order : List Bytes, order.Perm (received 6 tr).lines ∧ order.flatten <+: (received 6 tr).bytes := by
  obtain ⟨tr, c, hr, hp⟩ := System.exists_run passPlatform (fun _ => True) (System.init passDb)
    (bothIn ++ List.replicate 5 (.handler 0, slow "PM bob hi") ++ List.replicate 2 (.handler 1, sunny "PONG" 0 0) ++
      [(.handler 0, sunny "" 0 0)]) (fun _ _ => trivial)
    (p := fun q => q.1.all (fun l => !fails l) && (received 6 q.1).lines != [] &&
      (received 6 q.1).lines.flatten.length == (received 6 q.1).bytes.length &&
      (received 6 q.1).lines.all fun line => !line.isSuffixOf (received 6 q.1).bytes) (by decide +kernel)
  simp only [Bool.and_eq_true, List.all_eq_true, beq_iff_eq, bne_iff_ne, Bool.not_eq_true'] at hp
  obtain ⟨⟨⟨hfails, hne⟩, hlen⟩, htorn⟩ := hp
  refine ⟨tr, c, hr.labelled fun l hl => delivers_of_not_fails (hfails l hl), ?_⟩
  rintro ⟨order, hperm, hprefix⟩
  have heq : order.flatten = (received 6 tr).bytes := hprefix.eq_of_length (by rw [← hlen]; exact hperm.flatten.length_eq)
  obtain ⟨line, hline, hsuffix⟩ := exists_suffix fun he => hne (List.perm_nil.mp (he ▸ hperm.symm))
  rw [heq] at hsuffix
  have hfalse := htorn line (hperm.mem_iff.mp hline)
  rw [List.isSuffixOf_iff_suffix.mpr hsuffix] at hfalse
  cases hfalse

end ChatServer

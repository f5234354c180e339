import ChatServer.Agreement
import ChatServer.Routine
import ChatServer.ThreadStages

/-!
# Counting the connections

The trace keeps the books: which sessions `conn_track_increment` has counted,
which of them the accept loop has given up again, and whose descriptors have
been closed. `active_connections` is the number of sessions that are counted
and not over, and every registry node belongs to one of them, so the registry
is never full when a session is added.
-/

namespace ChatServer

open CStr Interleave Prog

/-! ## The books -/

/-- How far a handler's thread has come. -/
inductive Stand where
  | unborn
  | running
  | returned
  deriving DecidableEq

def Handler.stand (h : Handler) : Stand :=
  match h.point with
  | .unborn => .unborn
  | .done => .returned
  | _ => .running

def Thread.stand : Thread → Stand
  | .handler h => h.stand
  | _ => .unborn

def System.stand (c : System) (i : Nat) : Stand := (c.loc (.handler i)).stand

structure Ledger where
  -- the session that the accept loop has accepted last
  current : Option Nat
  counted : Finset Nat
  -- given up by the accept loop when it could not start a thread
  dropped : Finset Nat
  -- the sessions whose descriptors were closed, in order
  closed : List Nat

namespace Ledger

def empty : Ledger := { current := none, counted := ∅, dropped := ∅, closed := [] }

def next (L : Ledger) : Label Tid Act.Ret → Ledger
  | ⟨.main, .accept, (r : Option (Int × Nat))⟩ =>
    match r with
    | none => L
    | some (_, id) => { L with current := some id }
  | ⟨.main, .connTrackIncrement, _⟩ => { L with counted := L.current.toFinset ∪ L.counted }
  | ⟨.main, .connTrackDecrement, _⟩ => { L with dropped := L.current.toFinset ∪ L.dropped }
  | ⟨.main, .close _, _⟩ => { L with closed := L.closed ++ L.current.toList }
  | ⟨.handler i, .close _, _⟩ => { L with closed := L.closed ++ [i] }
  | _ => L

/-- The sessions that are counted and not over. -/
def active (L : Ledger) (stand : Nat → Stand) : Finset Nat :=
  L.counted.filter fun i => i ∉ L.dropped ∧ stand i ≠ .returned

variable {L : Ledger} {stand : Nat → Stand} {i j : Nat}

theorem mem_active : i ∈ L.active stand ↔ i ∈ L.counted ∧ i ∉ L.dropped ∧ stand i ≠ .returned := Finset.mem_filter

theorem active_count (hd : i ∉ L.dropped) (hs : stand i ≠ .returned) :
    ({ L with counted := {i} ∪ L.counted } : Ledger).active stand = insert i (L.active stand) := by
  ext j
  simp only [mem_active, Finset.mem_union, Finset.mem_singleton, Finset.mem_insert]
  constructor
  · rintro ⟨rfl | hj, hrest⟩
    · exact Or.inl rfl
    · exact Or.inr ⟨hj, hrest⟩
  · rintro (rfl | ⟨hj, hrest⟩)
    · exact ⟨Or.inl rfl, hd, hs⟩
    · exact ⟨Or.inr hj, hrest⟩

theorem active_drop : ({ L with dropped := {i} ∪ L.dropped } : Ledger).active stand = (L.active stand).erase i := by
  ext j
  simp only [mem_active, Finset.mem_union, Finset.mem_singleton, Finset.mem_erase, not_or]
  constructor
  · rintro ⟨hc, ⟨hne, hd⟩, hs⟩
    exact ⟨hne, hc, hd, hs⟩
  · rintro ⟨hne, hc, hd, hs⟩
    exact ⟨hc, ⟨hne, hd⟩, hs⟩

theorem active_return : L.active (Function.update stand i .returned) = (L.active stand).erase i := by
  ext j
  rw [Finset.mem_erase, mem_active, mem_active]
  by_cases h : j = i
  · subst h
    rw [Function.update_self]
    exact iff_of_false (fun hj => hj.2.2 rfl) fun hj => hj.1 rfl
  · rw [Function.update_of_ne h]
    exact ⟨fun hj => ⟨h, hj⟩, fun hj => hj.2⟩

theorem active_congr {stand' : Nat → Stand} (h : ∀ j, stand' j = .returned ↔ stand j = .returned) :
    L.active stand' = L.active stand := by
  ext j
  rw [mem_active, mem_active, ne_eq, ne_eq, h]

end Ledger

def ledger (tr : List (Label Tid Act.Ret)) : Ledger := tr.foldl Ledger.next .empty

theorem ledger_snoc (tr : List (Label Tid Act.Ret)) (l : Label Tid Act.Ret) : ledger (tr ++ [l]) = (ledger tr).next l := by
  rw [ledger, List.foldl_append]
  rfl

/-- The sessions after the trace that are counted and not over. -/
def sessions (tr : List (Label Tid Act.Ret)) (c : System) : Finset Nat := (ledger tr).active c.stand

/-! ## What the books say -/

/-- The session that the accept loop works for. -/
def Ledger.Serves (L : Ledger) (s : Server) (stand : Nat → Stand) : Phase → Prop
  | .accepted _ i | .refused _ i => L.current = some i ∧ i ∉ L.counted
  | .cleared _ i => L.current = some i ∧ i ∉ L.counted ∧ s.activeConnections < maxClients
  | .counted _ i => L.current = some i ∧ i ∈ L.counted ∧ i ∉ L.dropped ∧ stand i = .unborn
  | .dropped i => L.current = some i ∧ i ∈ L.counted ∧ i ∉ L.dropped ∧ stand i = .unborn ∧ ∀ d ∈ s.conns, d.id ≠ i
  | _ => True

/-- `p` is the phase of the accept loop. -/
structure Books (L : Ledger) (p : Phase) (s : Server) (stand : Nat → Stand) : Prop where
  counted_lt : ∀ i ∈ L.counted, i < s.nextId
  dropped : L.dropped ⊆ L.counted
  exact : s.activeConnections = (L.active stand).card
  bound : s.activeConnections ≤ maxClients
  serves : L.Serves s stand p
  held : ∀ d ∈ s.conns, d.spawned = false → p.view = .held d.fd d.id
  ran : ∀ d ∈ s.conns, d.spawned = true → d.id ∈ L.counted ∧ d.id ∉ L.dropped
  started : ∀ i, stand i ≠ .unborn → i ∈ L.counted ∧ i ∉ L.dropped
  once : L.closed.Nodup
  closed : ∀ i, i ∈ L.closed ↔ i < s.nextId ∧ ∀ d ∈ s.conns, d.id ≠ i

theorem Books.init (db : AuthDb) : Books .empty .idle (serverInit db) fun _ => .unborn where
  counted_lt := nofun
  dropped := Finset.Subset.refl _
  exact := rfl
  bound := Int.natCast_nonneg _
  serves := trivial
  held := nofun
  ran := nofun
  started := fun _ h => absurd rfl h
  once := List.nodup_nil
  closed := fun _ => iff_of_false nofun fun h => absurd h.1 (Nat.not_lt_zero _)

section
variable {P : Platform} {T : Prop} {tid : Tid} {e : Env} {s s' : Server} {a : Act} {r : a.Ret} {L : Ledger} {p : Phase}
variable {stand : Nat → Stand} {i : Nat}

/-- The actions that the books take note of. -/
def Act.booked : Act → Bool
  | .accept | .spawn .. | .close _ | .connTrackIncrement | .connTrackDecrement => true
  | _ => false

theorem exec_unbooked (ha : a.booked = false) (hx : exec P tid a e s = some (r, s')) :
    s'.conns = s.conns ∧ s'.nextId = s.nextId ∧ s'.activeConnections = s.activeConnections := by
  cases a with
  | accept | spawn | close | connTrackIncrement | connTrackDecrement => cases ha
  | start =>
    obtain ⟨rfl, -⟩ := exec_start hx
    exact ⟨rfl, rfl, rfl⟩
  | authVerify =>
    cases hx
    refine ⟨?_, ?_, ?_⟩ <;> split <;> rfl
  | registryAdd =>
    simp only [exec] at hx
    split at hx
    · cases hx; exact ⟨rfl, rfl, rfl⟩
    · split at hx
      · cases hx
      · cases hx; exact ⟨rfl, rfl, rfl⟩
  | mqPop =>
    simp only [exec] at hx
    split at hx
    · cases hx
    · cases hx; exact ⟨rfl, rfl, rfl⟩
  | _ => cases hx; exact ⟨rfl, rfl, rfl⟩

theorem next_unbooked (ha : a.booked = false) : L.next ⟨tid, a, r⟩ = L := by
  cases a with
  | accept | spawn | close | connTrackIncrement | connTrackDecrement => cases ha
  | _ => cases tid <;> rfl

theorem Ledger.Serves.congr (hc : ∀ d ∈ s'.conns, d ∈ s.conns) (ha : s'.activeConnections ≤ s.activeConnections) (h : L.Serves s stand p) :
    L.Serves s' stand p := by
  cases p with
  | cleared fd i => exact ⟨h.1, h.2.1, lt_of_le_of_lt ha h.2.2⟩
  | dropped i => exact ⟨h.1, h.2.1, h.2.2.1, h.2.2.2.1, fun d hd => h.2.2.2.2 d (hc d hd)⟩
  | _ => exact h

theorem Books.quiet (h : Books L p s stand) (hc : s'.conns = s.conns) (hn : s'.nextId = s.nextId)
    (ha : s'.activeConnections = s.activeConnections) : Books L p s' stand where
  counted_lt := by rw [hn]; exact h.counted_lt
  dropped := h.dropped
  exact := ha.trans h.exact
  bound := ha.trans_le h.bound
  serves := h.serves.congr (fun d hd => hc ▸ hd) ha.le
  held := by rw [hc]; exact h.held
  ran := by rw [hc]; exact h.ran
  started := h.started
  once := h.once
  closed := by rw [hc, hn]; exact h.closed

/-! ## The accept loop -/

theorem Books.accept (h : Books L .idle s stand) (fd : Int) :
    Books { L with current := some s.nextId } (.accepted fd s.nextId) (s.accepted fd) stand where
  counted_lt := fun i hi => Nat.lt_succ_of_lt (h.counted_lt i hi)
  dropped := h.dropped
  exact := h.exact
  bound := h.bound
  serves := ⟨rfl, fun hmem => Nat.lt_irrefl _ (h.counted_lt _ hmem)⟩
  held := by
    intro d hd hsp
    rcases List.mem_cons.mp hd with rfl | hd
    · rfl
    · cases h.held d hd hsp
  ran := by
    intro d hd hsp
    rcases List.mem_cons.mp hd with rfl | hd
    · cases hsp
    · exact h.ran d hd hsp
  started := h.started
  once := h.once
  closed := by
    intro i
    show i ∈ L.closed ↔ i < s.nextId + 1 ∧ ∀ d ∈ _ :: s.conns, d.id ≠ i
    rw [h.closed, List.forall_mem_cons]
    constructor
    · rintro ⟨hlt, hno⟩
      exact ⟨Nat.lt_succ_of_lt hlt, fun he => Nat.lt_irrefl _ (lt_of_eq_of_lt he hlt), hno⟩
    · rintro ⟨hlt, hne, hno⟩
      exact ⟨lt_of_le_of_ne (Nat.le_of_lt_succ hlt) (Ne.symm hne), hno⟩

theorem Books.capacity {fd : Int} (h : Books L (.accepted fd i) s stand) :
    Books L (Phase.onCapacity (decide (s.activeConnections ≥ maxClients)) (.accepted fd i)) s stand := by
  by_cases hfull : s.activeConnections ≥ maxClients
  · rw [decide_eq_true hfull]
    exact { h with }
  · rw [decide_eq_false hfull]
    exact { h with serves := ⟨h.serves.1, h.serves.2, not_le.mp hfull⟩ }

theorem Books.count {fd : Int} (h : Books L (.cleared fd i) s stand) (hlt : i < s.nextId) :
    Books (L.next ⟨.main, .connTrackIncrement, ()⟩) (.counted fd i) { s with activeConnections := s.activeConnections + 1 } stand := by
  obtain ⟨hcur, hnew, hroom⟩ := h.serves
  have hfresh : stand i = .unborn := by
    by_contra hne
    exact hnew (h.started i hne).1
  have hdropped : i ∉ L.dropped := fun hd => hnew (h.dropped hd)
  have hL : L.next ⟨.main, .connTrackIncrement, ()⟩ = { L with counted := {i} ∪ L.counted } := by
    show ({ L with counted := L.current.toFinset ∪ L.counted } : Ledger) = _
    rw [hcur]
    rfl
  have hactive : ({ L with counted := {i} ∪ L.counted } : Ledger).active stand = insert i (L.active stand) :=
    Ledger.active_count hdropped (by rw [hfresh]; nofun)
  have hnot : i ∉ L.active stand := fun hm => hnew (Ledger.mem_active.mp hm).1
  rw [hL]
  refine ⟨?_, h.dropped.trans Finset.subset_union_right, ?_, ?_, ?_, h.held, ?_, ?_, h.once, h.closed⟩
  · intro j hj
    rcases Finset.mem_union.mp hj with hj | hj
    · rw [Finset.mem_singleton.mp hj]
      exact hlt
    · exact h.counted_lt j hj
  · rw [hactive, Finset.card_insert_of_notMem hnot, h.exact]
    rfl
  · exact Int.add_one_le_of_lt hroom
  · exact ⟨hcur, Finset.mem_union_left _ (Finset.mem_singleton_self i), hdropped, hfresh⟩
  · exact fun d hd hsp => ⟨Finset.mem_union_right _ (h.ran d hd hsp).1, (h.ran d hd hsp).2⟩
  · exact fun j hj => ⟨Finset.mem_union_right _ (h.started j hj).1, (h.started j hj).2⟩

theorem Books.drop (h : Books L (.dropped i) s stand) :
    s.activeConnections > 0 ∧ Books (L.next ⟨.main, .connTrackDecrement, ()⟩) .idle { s with activeConnections := s.activeConnections - 1 }
      stand := by
  obtain ⟨hcur, hcounted, hdropped, hfresh, hgone⟩ := h.serves
  have hL : L.next ⟨.main, .connTrackDecrement, ()⟩ = { L with dropped := {i} ∪ L.dropped } := by
    show ({ L with dropped := L.current.toFinset ∪ L.dropped } : Ledger) = _
    rw [hcur]
    rfl
  have hmem : i ∈ L.active stand := Ledger.mem_active.mpr ⟨hcounted, hdropped, by rw [hfresh]; nofun⟩
  have hcard := Finset.card_erase_add_one hmem
  have hexact := h.exact
  have hbound := h.bound
  rw [hL]
  refine ⟨by omega, h.counted_lt, ?_, ?_, ?_, trivial, ?_, ?_, ?_, h.once, h.closed⟩
  · exact Finset.union_subset (Finset.singleton_subset_iff.mpr hcounted) h.dropped
  · show s.activeConnections - 1 = _
    rw [Ledger.active_drop]
    omega
  · show s.activeConnections - 1 ≤ _
    omega
  · intro d hd hsp
    cases h.held d hd hsp
  · intro d hd hsp
    refine ⟨(h.ran d hd hsp).1, fun hm => ?_⟩
    rcases Finset.mem_union.mp hm with hm | hm
    · exact hgone d hd (Finset.mem_singleton.mp hm)
    · exact (h.ran d hd hsp).2 hm
  · intro j hj
    refine ⟨(h.started j hj).1, fun hm => ?_⟩
    rcases Finset.mem_union.mp hm with hm | hm
    · rw [Finset.mem_singleton.mp hm] at hj
      exact hj hfresh
    · exact (h.started j hj).2 hm

/-- A thread has been started for the session. -/
theorem Books.spawn {fd : Int} (h : Books L (.counted fd i) s stand) :
    Books L .idle (s.spawned fd i) stand := by
  obtain ⟨-, hcounted, hdropped, -⟩ := h.serves
  have hof : ∀ d ∈ (s.spawned fd i).conns, (d.id = i ∧ d.spawned = true) ∨ (d ∈ s.conns ∧ d.id ≠ i) := by
    intro d hd
    obtain ⟨c, hc, rfl⟩ := List.mem_map.mp hd
    by_cases hci : c.id = i
    · cases hsp : c.spawned with
      | true => split <;> exact Or.inl ⟨hci, by simp [hsp]⟩
      | false =>
        have hview : (View.held fd i) = .held c.fd c.id := h.held c hc hsp
        cases hview
        rw [if_pos ⟨rfl, rfl⟩]
        exact Or.inl ⟨rfl, rfl⟩
    · rw [if_neg fun h => hci h.2]
      exact Or.inr ⟨hc, hci⟩
  have hids : ∀ j, (∀ d ∈ (s.spawned fd i).conns, d.id ≠ j) ↔ ∀ d ∈ s.conns, d.id ≠ j := by
    intro j
    constructor
    · intro hno d hd
      refine fun hj => hno _ (List.mem_map_of_mem hd) ?_
      split <;> exact hj
    · intro hno d hd
      obtain ⟨c, hc, -, hid⟩ := of_mem_spawned hd
      rw [← hid]
      exact hno c hc
  refine ⟨h.counted_lt, h.dropped, h.exact, h.bound, trivial, ?_, ?_, h.started, h.once, ?_⟩
  · intro d hd hsp
    rcases hof d hd with ⟨-, hsp'⟩ | ⟨hd', hne⟩
    · rw [hsp'] at hsp
      cases hsp
    · have hview : (View.held fd i) = .held d.fd d.id := h.held d hd' hsp
      cases hview
      exact absurd rfl hne
  · intro d hd hsp
    rcases hof d hd with ⟨hid, -⟩ | ⟨hd', -⟩
    · rw [hid]
      exact ⟨hcounted, hdropped⟩
    · exact h.ran d hd' hsp
  · intro j
    rw [hids]
    exact h.closed j

/-- After the close of a session's descriptor. -/
theorem closed_snoc (hi : Consistent s) {c : Conn} (hc : c ∈ s.conns)
    (hclosed : ∀ j, j ∈ L.closed ↔ j < s.nextId ∧ ∀ d ∈ s.conns, d.id ≠ j) (honce : L.closed.Nodup) :
    (L.closed ++ [c.id]).Nodup ∧ ∀ j, j ∈ L.closed ++ [c.id] ↔ j < s.nextId ∧ ∀ d ∈ (s.closed c.fd).conns, d.id ≠ j := by
  have hnot : c.id ∉ L.closed := fun hm => ((hclosed c.id).mp hm).2 c hc rfl
  refine ⟨List.nodup_append'.mpr ⟨honce, List.nodup_singleton _, ?_⟩, fun j => ?_⟩
  · intro j hj hj'
    rw [List.mem_singleton.mp hj'] at hj
    exact hnot hj
  · rw [List.mem_append, List.mem_singleton, hclosed]
    constructor
    · rintro (⟨hlt, hno⟩ | rfl)
      · exact ⟨hlt, fun d hd => hno d (mem_closed.mp hd).1⟩
      · refine ⟨hi.ids_lt c hc, fun d hd he => ?_⟩
        exact (mem_closed.mp hd).2 (congrArg Conn.fd (hi.conn_id (mem_closed.mp hd).1 hc he))
    · rintro ⟨hlt, hno⟩
      by_cases hj : j = c.id
      · exact Or.inr hj
      · refine Or.inl ⟨hlt, fun d hd he => ?_⟩
        refine hno d (mem_closed.mpr ⟨hd, fun hfd => ?_⟩) he
        rw [hi.conn_fd hd hc hfd] at he
        exact hj he.symm

theorem Books.close {fd : Int} (hi : Consistent s) (hc : ⟨fd, i, false⟩ ∈ s.conns) (hview : p.view = .held fd i)
    (hcloses : p.closes = true) (h : Books L p s stand) :
    Books (L.next ⟨.main, .close fd, ()⟩) p.onClose (s.closed fd) stand := by
  have hcur : L.current = some i := by
    have hserves := h.serves
    cases p with
    | refused fd' i' | counted fd' i' => cases hview; exact hserves.1
    | accepted | cleared => cases hcloses
    | _ => cases hview
  have hL : L.next ⟨.main, .close fd, ()⟩ = { L with closed := L.closed ++ [i] } := by
    show ({ L with closed := L.closed ++ L.current.toList } : Ledger) = _
    rw [hcur]
    rfl
  obtain ⟨honce, hclosed⟩ := closed_snoc hi hc h.closed h.once
  have hgone : ∀ d ∈ (s.closed fd).conns, d.id ≠ i := fun d hd he =>
    (mem_closed.mp hd).2 (congrArg Conn.fd (hi.conn_id (mem_closed.mp hd).1 hc he))
  rw [hL]
  refine ⟨h.counted_lt, h.dropped, h.exact, h.bound, ?_, ?_, ?_, h.started, honce, hclosed⟩
  · have hserves := h.serves
    cases p with
    | refused fd' i' => trivial
    | counted fd' i' =>
      cases hview
      exact ⟨hserves.1, hserves.2.1, hserves.2.2.1, hserves.2.2.2, hgone⟩
    | accepted | cleared => cases hcloses
    | _ => cases hview
  · intro d hd hsp
    have hheld := h.held d (mem_closed.mp hd).1 hsp
    rw [hview] at hheld
    cases hheld
    exact absurd rfl (mem_closed.mp hd).2
  · exact fun d hd hsp => h.ran d (mem_closed.mp hd).1 hsp

/-- The accept loop keeps the books, and drops nobody while nobody is counted. -/
theorem Books.main (hi : Consistent s) (hsat : Sat .main p.view s) (hp : p.permits T a) (ha : allowed T a p.view)
    (hx : exec P .main a e s = some (r, s')) (h : Books L p s stand) :
    Books (L.next ⟨.main, a, r⟩) (p.next a r) s' stand ∧ (a = .connTrackDecrement → s.activeConnections > 0) := by
  have still : a.booked = false → p.next a r = p → Books (L.next ⟨.main, a, r⟩) (p.next a r) s' stand ∧
      (a = .connTrackDecrement → s.activeConnections > 0) := by
    intro hb hsame
    obtain ⟨hc, hn, hact⟩ := exec_unbooked hb hx
    rw [next_unbooked hb, hsame]
    refine ⟨h.quiet hc hn hact, ?_⟩
    rintro rfl
    cases hb
  cases a with
  | accept =>
    obtain rfl : p = .idle := hp
    rcases exec_accept hx with ⟨rfl, rfl⟩ | ⟨fd, rfl, -, rfl⟩
    · exact ⟨h, nofun⟩
    · exact ⟨h.accept fd, nofun⟩
  | connAtCapacity =>
    obtain ⟨fd, i, rfl⟩ := hp
    cases hx
    exact ⟨h.capacity, nofun⟩
  | connTrackIncrement =>
    obtain ⟨fd, i, rfl⟩ := hp
    cases hx
    exact ⟨h.count (hi.ids_lt _ hsat), nofun⟩
  | spawn fd i =>
    obtain rfl : p = .counted fd i := hp
    rcases exec_spawn hx with ⟨rfl, rfl⟩ | ⟨rfl, rfl⟩
    · exact ⟨h.spawn, nofun⟩
    · exact ⟨h, nofun⟩
  | close fd =>
    cases hx
    cases hview : p.view with
    | held fd' i =>
      rw [hview] at hsat ha
      obtain rfl : fd = fd' := ha
      exact ⟨h.close hi hsat hview hp, nofun⟩
    | fresh | checked =>
      rw [hview] at hsat
      cases hsat
    | _ =>
      rw [hview] at ha
      cases ha
  | connTrackDecrement =>
    rcases hp with rfl | ⟨i, rfl⟩
    · cases hsat
    · obtain ⟨hpos, hbooks⟩ := h.drop
      cases hx
      rw [if_pos hpos]
      exact ⟨hbooks, fun _ => hpos⟩
  | running =>
    change Bool at r
    cases r with
    | true => exact still rfl (by cases p <;> rfl)
    | false =>
      cases p with
      | idle =>
        obtain ⟨-, rfl⟩ := Prod.mk.inj (Option.some.inj hx)
        exact ⟨{ h with serves := trivial, held := fun d hd hsp => (by cases h.held d hd hsp) }, nofun⟩
      | _ => exact still rfl rfl
  | start | authVerify | registryAdd | registryRemove | registrySetRoom | mqPush =>
    refine still rfl ?_
    cases p with
    | unborn | fresh | checked | entered | present | left | moved | removed | closed | ended | casting => cases hsat
    | _ => rfl
  | _ => exact still rfl rfl

/-! ## Handlers -/

def Stand.next (x : Stand) : Act → Stand
  | .start => .running
  | .connTrackDecrement => .returned
  | _ => x

/-- The thread of session `i` has been started. -/
theorem Books.start (hi : Consistent s) (hsat : Sat .main p.view s) {d : Conn} (hd : d ∈ s.conns) (hsp : d.spawned = true)
    (hnew : stand d.id = .unborn) (h : Books L p s stand) : Books L p s (Function.update stand d.id .running) := by
  have hsame : ∀ j, Function.update stand d.id .running j = .returned ↔ stand j = .returned := by
    intro j
    by_cases hj : j = d.id
    · subst hj
      rw [Function.update_self, hnew]
      exact iff_of_false nofun nofun
    · rw [Function.update_of_ne hj]
  have hother : ∀ j, j ≠ d.id → stand j = .unborn → Function.update stand d.id .running j = .unborn := by
    intro j hj hu
    rwa [Function.update_of_ne hj]
  refine { h with exact := ?_, serves := ?_, started := ?_ }
  · rw [Ledger.active_congr hsame]
    exact h.exact
  · have hserves := h.serves
    cases p with
    | counted fd j =>
      refine ⟨hserves.1, hserves.2.1, hserves.2.2.1, hother j (fun he => ?_) hserves.2.2.2⟩
      have hconn : (⟨fd, j, false⟩ : Conn) = d := hi.conn_id hsat hd he
      rw [← hconn] at hsp
      cases hsp
    | dropped j =>
      refine ⟨hserves.1, hserves.2.1, hserves.2.2.1, hother j (fun he => ?_) hserves.2.2.2.1, hserves.2.2.2.2⟩
      exact hserves.2.2.2.2 d hd he.symm
    | _ => exact hserves
  · intro j hj
    by_cases he : j = d.id
    · rw [he]
      exact h.ran d hd hsp
    · rw [Function.update_of_ne he] at hj
      exact h.started j hj

theorem Books.hangUp {fd : Int} (hi : Consistent s) (hc : ⟨fd, i, true⟩ ∈ s.conns) (h : Books L p s stand) :
    Books (L.next ⟨.handler i, .close fd, ()⟩) p (s.closed fd) stand := by
  obtain ⟨honce, hclosed⟩ := closed_snoc hi hc h.closed h.once
  have hsub : ∀ d ∈ (s.closed fd).conns, d ∈ s.conns := fun d hd => (mem_closed.mp hd).1
  exact ⟨h.counted_lt, h.dropped, h.exact, h.bound, h.serves.congr hsub le_rfl, fun d hd => h.held d (hsub d hd),
    fun d hd => h.ran d (hsub d hd), h.started, honce, hclosed⟩

/-- The thread of session `i` is through. -/
theorem Books.finish (hrun : stand i = .running) (h : Books L p s stand) : s.activeConnections > 0 ∧
    Books L p { s with activeConnections := s.activeConnections - 1 } (Function.update stand i .returned) := by
  obtain ⟨hcounted, hdropped⟩ := h.started i (by rw [hrun]; nofun)
  have hmem : i ∈ L.active stand := Ledger.mem_active.mpr ⟨hcounted, hdropped, by rw [hrun]; nofun⟩
  have hcard := Finset.card_erase_add_one hmem
  have hexact := h.exact
  have hbound := h.bound
  have hunborn : ∀ j, stand j = .unborn → Function.update stand i .returned j = .unborn := by
    intro j hj
    rw [Function.update_of_ne]
    · exact hj
    · rintro rfl
      rw [hrun] at hj
      cases hj
  refine ⟨by omega, h.counted_lt, h.dropped, ?_, ?_, ?_, h.held, h.ran, ?_, h.once, h.closed⟩
  · show s.activeConnections - 1 = _
    rw [Ledger.active_return]
    omega
  · show s.activeConnections - 1 ≤ _
    omega
  · have hserves := h.serves
    cases p with
    | cleared fd j => exact ⟨hserves.1, hserves.2.1, show s.activeConnections - 1 < _ by omega⟩
    | counted fd j => exact ⟨hserves.1, hserves.2.1, hserves.2.2.1, hunborn j hserves.2.2.2⟩
    | dropped j => exact ⟨hserves.1, hserves.2.1, hserves.2.2.1, hunborn j hserves.2.2.2.1, hserves.2.2.2.2⟩
    | _ => exact hserves
  · intro j hj
    by_cases hji : j = i
    · rw [hji]
      exact ⟨hcounted, hdropped⟩
    · rw [Function.update_of_ne hji] at hj
      exact h.started j hj

/-- A handler at phase `q` keeps the books. -/
theorem Books.handler {q : Phase} (hi : Consistent s) (hmain : Sat .main p.view s) (hsat : Sat (.handler i) q.view s)
    (hp : q.permits T a) (ha : allowed T a q.view) (hx : exec P (.handler i) a e s = some (r, s'))
    (hstand : stand i = if a = .start then .unborn else .running) (h : Books L p s stand) :
    Books (L.next ⟨.handler i, a, r⟩) p s' (Function.update stand i ((stand i).next a)) ∧
      (a = .connTrackDecrement → s.activeConnections > 0) := by
  have still : a.booked = false → (stand i).next a = stand i →
      Books (L.next ⟨.handler i, a, r⟩) p s' (Function.update stand i ((stand i).next a)) ∧
        (a = .connTrackDecrement → s.activeConnections > 0) := by
    intro hb hsame
    obtain ⟨hc, hn, hact⟩ := exec_unbooked hb hx
    rw [next_unbooked hb, hsame, Function.update_eq_self]
    refine ⟨h.quiet hc hn hact, ?_⟩
    rintro rfl
    cases hb
  cases a with
  | start =>
    obtain ⟨rfl, d, hd, -, hsp, htid⟩ := exec_start hx
    obtain rfl := Tid.handler.inj htid
    exact ⟨h.start hi hmain hd hsp hstand, nofun⟩
  | close fd =>
    have hc : ⟨fd, i, true⟩ ∈ s.conns := by
      cases hview : q.view with
      | fresh | checked =>
        rw [hview] at hsat ha
        cases ha
        exact hsat.1
      | held =>
        rw [hview] at hsat
        cases hsat
      | _ =>
        rw [hview] at ha
        cases ha
    cases hx
    rw [show (stand i).next (.close fd) = stand i from rfl, Function.update_eq_self]
    exact ⟨h.hangUp hi hc, nofun⟩
  | connTrackDecrement =>
    obtain ⟨hpos, hbooks⟩ := h.finish (i := i) hstand
    cases hx
    rw [if_pos hpos]
    exact ⟨hbooks, fun _ => hpos⟩
  | accept =>
    obtain rfl : q = .idle := hp
    cases hsat
  | connTrackIncrement =>
    obtain ⟨fd, j, rfl⟩ := hp
    cases hsat
  | spawn fd j =>
    obtain rfl : q = .counted fd j := hp
    cases hsat
  | _ => exact still rfl rfl

/-- Nobody else touches them. -/
theorem Books.other {q : Phase} (hsat : Sat tid q.view s) (htid : tid = .broadcaster ∨ tid = .signal) (hp : q.permits T a)
    (ha : allowed T a q.view) (hx : exec P tid a e s = some (r, s')) (h : Books L p s stand) :
    Books (L.next ⟨tid, a, r⟩) p s' stand ∧ (a = .connTrackDecrement → s.activeConnections > 0) := by
  have hview : q = .casting ∨ q = .ending := by
    rcases htid with rfl | rfl
    · cases q <;> first | exact Or.inl rfl | cases hsat
    · cases q <;> first | exact Or.inr rfl | cases hsat
  have hb : a.booked = false := by
    cases a with
    | accept => rcases hview with rfl | rfl <;> cases hp
    | spawn => rcases hview with rfl | rfl <;> cases hp
    | close => rcases hview with rfl | rfl <;> cases hp
    | connTrackIncrement => rcases hview with rfl | rfl <;> obtain ⟨_, _, hp⟩ := hp <;> cases hp
    | connTrackDecrement => rcases hview with rfl | rfl <;> rcases hp with hp | ⟨_, hp⟩ <;> cases hp
    | _ => rfl
  obtain ⟨hc, hn, hact⟩ := exec_unbooked hb hx
  rw [next_unbooked hb]
  refine ⟨h.quiet hc hn hact, ?_⟩
  rintro rfl
  cases hb

end

/-! ## The end of a handler -/

/-- Actions after which the thread goes on. -/
def Lasting (a : Act) : Prop := a ≠ .start ∧ a ≠ .connTrackDecrement

theorem Everyday.lasting {a : Act} (h : Everyday a) : Lasting a := by
  constructor
  · rintro rfl
    exact h
  · rintro rfl
    exact h

/-- Whatever the answers are, the program ends with its only `conn_track_decrement`. -/
def Uncounts : Cmd ChatStatus → Prop
  | .ret _ => False
  | .act a k => if a = .connTrackDecrement then ∀ r, ∃ rc, k r = .ret rc else a ≠ .start ∧ ∀ r, Uncounts (k r)

theorem uncounts_behind {α : Type} : ∀ {p : Cmd α}, Only Lasting p →
    Uncounts (p >>= fun _ => do Sys.connTrackDecrement; return ChatStatus.ok)
  | .ret _, _ => by
    show if Act.connTrackDecrement = .connTrackDecrement then ∀ r : Unit, ∃ rc, Prog.ret ChatStatus.ok = .ret rc else _
    rw [if_pos rfl]
    exact fun _ => ⟨.ok, rfl⟩
  | .act a k, hp => by
    show if a = .connTrackDecrement then _ else _
    rw [if_neg hp.1.2]
    exact ⟨hp.1.1, fun r => uncounts_behind (hp.2 r)⟩

theorem disconnectClient_uncounts (fd : Int) (username : Bytes) (authenticated : Bool) :
    Uncounts (disconnectClient fd username authenticated) :=
  uncounts_behind (cmdDisconnectClient_only (fun _ => Everyday.lasting) (fun _ => ⟨nofun, nofun⟩) ⟨nofun, nofun⟩ ⟨nofun, nofun⟩ ..)

namespace Handler

def Ends (h : Handler) : Prop :=
  match h.point with
  | .busy .leave p => Uncounts p
  | .busy _ p => Only Lasting p
  | _ => True

def Going (h : Handler) : Prop := h.Ends ∧ h.stand = .running

section
variable {h : Handler}

theorem leave_going : h.leave.Going := ⟨disconnectClient_uncounts .., rfl⟩

theorem enter_going {cont : Cont} (hcont : cont ≠ .leave) : ∀ {p : Cmd ChatStatus}, Only Lasting p → (h.enter cont p).Going
  | .act _ _, hp => by
    cases cont with
    | leave => exact absurd rfl hcont
    | command | auth => exact ⟨hp, rfl⟩
  | .ret rc, _ => by
    cases cont with
    | leave => exact absurd rfl hcont
    | command =>
      show (if rc ≠ .ok then h.leave else { h with point := .top }).Going
      split
      · exact leave_going
      · exact ⟨trivial, rfl⟩
    | auth u =>
      show (if rc ≠ .ok then h.leave else _).Going
      split
      · exact leave_going
      · exact ⟨trivial, rfl⟩

theorem enter_leave_going : ∀ {p : Cmd ChatStatus}, Uncounts p → (h.enter .leave p).Going
  | .act _ _, hp => ⟨hp, rfl⟩

theorem dispatch_going (P : Platform) (line : Bytes) : (h.dispatch P line).Going := by
  have hcmd : Cont.command ≠ .leave := nofun
  have hauth : ∀ {u}, Cont.auth u ≠ .leave := nofun
  have routine : ∀ {x : Cmd ChatStatus}, Only Everyday x → (h.enter .command x).Going :=
    fun hx => enter_going hcmd (hx.mono fun _ => Everyday.lasting)
  have refused : ∀ msg, (h.refuse msg).Going := fun msg => routine (respondErr_only h.fd msg)
  have plain : ∀ {fd buf} sent, Lasting (.send fd buf sent) := fun _ => ⟨nofun, nofun⟩
  unfold dispatch
  rcases protocolParseClientLine line with ⟨rc, cmd⟩
  simp only
  split
  · exact refused _
  split
  · split
    · exact refused _
    · exact enter_going hauth (cmdHandleAuth_only (fun _ => Everyday.lasting) (fun _ => ⟨nofun, nofun⟩) ⟨nofun, nofun⟩
        ⟨nofun, nofun⟩ (fun _ => ⟨nofun, nofun⟩) ⟨nofun, nofun⟩ plain plain)
  split
  · exact enter_going hcmd (cmdHandleJoinRoom_only (fun _ => Everyday.lasting) (fun _ => ⟨nofun, nofun⟩) ⟨nofun, nofun⟩ plain)
  · exact routine (cmdHandleMsg_only h.fd _)
  · exact routine (cmdHandlePm_only h.fd P _ _)
  · exact routine (cmdHandleList_only h.fd)
  · exact routine (cmdHandleHistory_only h.fd)
  · exact enter_going hcmd (cmdHandleKick_only (fun _ => Everyday.lasting) (fun _ => plain) (fun _ => ⟨nofun, nofun⟩) _)
  · exact leave_going
  · exact refused _

/-- A handler returns with its `conn_track_decrement` and not before. -/
theorem ends_next {P : Platform} (hends : h.Ends) {a : Act} {k : a.Ret → Handler} (hn : h.next P = some ⟨a, k⟩) :
    (h.stand = if a = .start then .unborn else .running) ∧ ∀ r, (k r).Ends ∧ (k r).stand = h.stand.next a := by
  unfold next at hn
  unfold Ends at hends
  unfold stand
  cases hpoint : h.point with
  | unborn =>
    rw [hpoint] at hn
    cases hn
    exact ⟨rfl, fun _ => ⟨trivial, rfl⟩⟩
  | top =>
    rw [hpoint] at hn
    cases hn
    refine ⟨rfl, fun (running : Bool) => ?_⟩
    cases running with
    | true => exact ⟨trivial, rfl⟩
    | false => exact leave_going
  | reading =>
    rw [hpoint] at hn
    cases hn
    refine ⟨rfl, fun (line : Option Bytes) => ?_⟩
    cases line with
    | none => exact leave_going
    | some line => exact dispatch_going P line
  | done => rw [hpoint] at hn; cases hn
  | busy cont p =>
    cases p with
    | ret => rw [hpoint] at hn; cases hn
    | act b kb =>
      rw [hpoint] at hn hends
      cases hn
      have going : ∀ {cont}, cont ≠ .leave → (Lasting a ∧ ∀ r, Only Lasting (kb r)) →
          (Stand.running = if a = .start then .unborn else .running) ∧
          ∀ r, ((h.note a r).enter cont (kb r)).Ends ∧ ((h.note a r).enter cont (kb r)).stand = Stand.running.next a := by
        intro cont hcont hp
        refine ⟨(if_neg hp.1.1).symm, fun r => ?_⟩
        obtain ⟨hends', hstand⟩ := enter_going (h := h.note a r) hcont (hp.2 r)
        refine ⟨hends', hstand.trans ?_⟩
        have hlast := hp.1
        cases a with
        | start => exact absurd rfl hlast.1
        | connTrackDecrement => exact absurd rfl hlast.2
        | _ => rfl
      cases cont with
      | auth u => exact going nofun hends
      | command => exact going nofun hends
      | leave =>
        change if a = .connTrackDecrement then ∀ r, ∃ rc, kb r = .ret rc else a ≠ .start ∧ ∀ r, Uncounts (kb r) at hends
        by_cases hdec : a = .connTrackDecrement
        · subst hdec
          rw [if_pos rfl] at hends
          refine ⟨rfl, fun r => ?_⟩
          obtain ⟨rc, hrc⟩ := hends r
          show (enter _ .leave (kb r)).Ends ∧ (enter _ .leave (kb r)).stand = _
          rw [hrc]
          exact ⟨trivial, rfl⟩
        · rw [if_neg hdec] at hends
          refine ⟨(if_neg hends.1).symm, fun r => ?_⟩
          obtain ⟨hends', hstand⟩ := enter_leave_going (h := h.note a r) (hends.2 r)
          refine ⟨hends', hstand.trans ?_⟩
          have hstart := hends.1
          cases a with
          | start => exact absurd rfl hstart
          | connTrackDecrement => exact absurd rfl hdec
          | _ => rfl

end
end Handler

/-! ## Every run -/

section
variable {P : Platform} {ok : Env → Prop} {db : AuthDb} {tr : List (Label Tid Act.Ret)} {c c' : System} {l : Label Tid Act.Ret}

structure Kept (tr : List (Label Tid Act.Ret)) (c : System) : Prop where
  books : Books (ledger tr) (stageOf tr .main).phase c.shared c.stand
  ends : ∀ i h, c.handler i = some h → h.Ends
  loop : ∀ x, c.loc .main = .main (.closing x) → (stageOf tr .main).phase = .ending

theorem ending_next (a : Act) (r : a.Ret) : Phase.ending.next a r = .ending := by
  cases a with
  | accept => change Option (Int × Nat) at r; cases r <;> rfl
  | _ => rfl

theorem stand_update (c : System) (s : Server) (i : Nat) (h : Handler) :
    System.stand ⟨s, Function.update c.loc (.handler i) (.handler h)⟩ = Function.update c.stand i h.stand := by
  funext j
  show (Function.update c.loc (.handler i) (.handler h) (.handler j)).stand = _
  by_cases hj : j = i
  · subst hj
    rw [Function.update_self, Function.update_self]
    rfl
  · rw [Function.update_of_ne hj, Function.update_of_ne fun he => hj (Tid.handler.inj he)]
    rfl

theorem stand_same (c : System) (s : Server) {tid : Tid} (htid : ∀ i, tid ≠ .handler i) (t : Thread) :
    System.stand ⟨s, Function.update c.loc tid t⟩ = c.stand := by
  funext j
  show (Function.update c.loc tid t (.handler j)).stand = _
  rw [Function.update_of_ne (Ne.symm (htid j))]
  rfl

theorem Kept.step (hc : Staged False tr c) (h : Kept tr c) (hs : System.Step P ok c l c') :
    Kept (tr ++ [l]) c' ∧ (l.act = .connTrackDecrement → c.shared.activeConnections > 0) := by
  obtain ⟨hp, -⟩ := hc.step hs
  cases hs with
  | @mk tid a k e r s' hn he hx =>
    have hmain := (hc.relies .main).sat
    have hsat := (hc.relies tid).sat
    have hat := hc.loc tid
    have handlers : ∀ {t : Thread}, (∀ i, tid ≠ .handler i) → ∀ i h', System.handler ⟨s', Function.update c.loc tid t⟩ i = some h' →
        Handler.Ends h' := by
      intro t htid i h' hh'
      refine h.ends i h' ?_
      rw [System.handler_eq] at hh' ⊢
      rwa [← show Function.update c.loc tid t (.handler i) = c.loc (.handler i) from Function.update_of_ne (Ne.symm (htid i)) ..]
    have unmoved : tid ≠ .main → stageOf (tr ++ [⟨tid, a, r⟩]) .main = stageOf tr .main :=
      fun htid => stageOf_other (show (Label.mk tid a r).tid ≠ .main from htid) tr
    have others : tid ≠ .main → ∀ x, Function.update c.loc tid (k r) .main = .main (.closing x) →
        (stageOf (tr ++ [⟨tid, a, r⟩]) .main).phase = .ending := by
      intro htid x hx'
      rw [Function.update_of_ne (Ne.symm htid)] at hx'
      rw [unmoved htid]
      exact h.loop x hx'
    cases tid with
    | main =>
      obtain ⟨hbooks, hpos⟩ := h.books.main hc.shared.1 hmain hp.phase hp.allowed hx
      refine ⟨⟨?_, handlers (fun _ => nofun), fun x hx' => ?_⟩, hpos⟩
      · rw [ledger_snoc, stageOf_own, @stand_same c s' .main (fun _ => nofun)]
        exact hbooks
      · rw [stageOf_own]
        change Function.update c.loc .main (k r) .main = _ at hx'
        rw [Function.update_self] at hx'
        cases hloc : c.loc .main with
        | main t =>
          rw [hloc] at hn hat
          obtain ⟨⟨b, kb⟩, hb, heq⟩ := Option.map_eq_some_iff.mp hn
          cases heq
          have hclosing : kb r = .closing x := Thread.main.inj hx'
          cases t with
          | top =>
            cases hb
            change Bool at r
            obtain ⟨hidle, -⟩ : (stageOf tr .main).phase = .idle ∧ _ := hat
            cases r with
            | true => cases hclosing
            | false =>
              show (stageOf tr .main).phase.onRunning false = .ending
              rw [hidle]
              rfl
          | accepting =>
            cases hb
            change Option (Int × Nat) at r
            cases r with
            | none => cases hclosing
            | some r =>
              change Acceptor.serve (serveConnection r.1 r.2) = _ at hclosing
              cases hclosing
          | serving p =>
            cases p with
            | ret => cases hb
            | act a' k' =>
              cases hb
              change Acceptor.serve (k' r) = _ at hclosing
              cases hk : k' r <;> rw [hk] at hclosing <;> cases hclosing
          | closing p =>
            show (stageOf tr .main).phase.next _ r = .ending
            rw [h.loop p hloc, ending_next]
          | done => cases hb
        | _ => rw [hloc] at hat; cases hat
    | handler i =>
      cases hloc : c.loc (.handler i) with
      | handler hd =>
        rw [hloc] at hn
        obtain ⟨⟨b, kb⟩, hb, heq⟩ := Option.map_eq_some_iff.mp hn
        cases heq
        obtain ⟨hstand, hk⟩ := Handler.ends_next (h.ends i hd (System.handler_eq.mpr hloc)) hb
        have hci : c.stand i = hd.stand := congrArg Thread.stand hloc
        obtain ⟨hbooks, hpos⟩ := h.books.handler hc.shared.1 hmain hsat hp.phase hp.allowed hx (hci.trans hstand)
        refine ⟨⟨?_, fun j h' hh' => ?_, others nofun⟩, hpos⟩
        · rw [ledger_snoc, unmoved nofun, stand_update c s' i (kb r), (hk r).2, ← hci]
          exact hbooks
        · rw [System.handler_eq] at hh'
          change Function.update c.loc (.handler i) (.handler (kb r)) (.handler j) = _ at hh'
          by_cases hj : j = i
          · subst hj
            rw [Function.update_self] at hh'
            rw [← Thread.handler.inj hh']
            exact (hk r).1
          · rw [Function.update_of_ne fun he => hj (Tid.handler.inj he)] at hh'
            exact h.ends j h' (System.handler_eq.mpr hh')
      | _ => rw [hloc] at hat; cases hat
    | broadcaster =>
      obtain ⟨hbooks, hpos⟩ := h.books.other hsat (Or.inl rfl) hp.phase hp.allowed hx
      refine ⟨⟨?_, handlers (fun _ => nofun), others nofun⟩, hpos⟩
      rw [ledger_snoc, unmoved nofun, @stand_same c s' .broadcaster (fun _ => nofun)]
      exact hbooks
    | signal =>
      obtain ⟨hbooks, hpos⟩ := h.books.other hsat (Or.inr rfl) hp.phase hp.allowed hx
      refine ⟨⟨?_, handlers (fun _ => nofun), others nofun⟩, hpos⟩
      rw [ledger_snoc, unmoved nofun, @stand_same c s' .signal (fun _ => nofun)]
      exact hbooks

theorem run_kept (hr : Run (System.Step P ok) (System.init db) tr c) : Kept tr c := by
  refine hr.traced (fun hr hc hs => (Kept.step (run_staged (fun _ _ => False.elim) hr) hc hs).1) ?_
  refine ⟨Books.init db, fun i h hh => ?_, nofun⟩
  cases hh
  trivial

theorem mem_sessions {i : Nat} : i ∈ sessions tr c ↔ i ∈ (ledger tr).counted ∧ i ∉ (ledger tr).dropped ∧ c.stand i ≠ .returned :=
  Ledger.mem_active

/-- A handler that has returned has no connection left. -/
theorem returned_gone (hc : Staged False tr c) {i : Nat} (hi : c.stand i = .returned) : ∀ d ∈ c.shared.conns, d.id ≠ i := by
  have hat := hc.loc (.handler i)
  have hsat := (hc.relies (.handler i)).sat
  cases hloc : c.loc (.handler i) with
  | handler h =>
    rw [hloc] at hat
    have hdone : h.stand = .returned := (congrArg Thread.stand hloc).symm.trans hi
    unfold Handler.stand at hdone
    cases hpoint : h.point with
    | done =>
      obtain ⟨-, hat⟩ := hat
      rw [hpoint] at hat
      obtain ⟨hphase, -⟩ : Settled .ended () _ := hat
      rw [hphase] at hsat
      exact hsat.2
    | _ => rw [hpoint] at hdone; cases hdone
  | _ => rw [hloc] at hat; cases hat

theorem spawned_counted (hc : Staged False tr c) (h : Kept tr c) {d : Conn} (hd : d ∈ c.shared.conns) (hsp : d.spawned = true) :
    d.id ∈ sessions tr c :=
  mem_sessions.mpr ⟨(h.books.ran d hd hsp).1, (h.books.ran d hd hsp).2, fun hret => returned_gone hc hret d hd rfl⟩

/-- The accept loop has accepted session `i` and is not yet back at its top. -/
def System.Serving (c : System) (L : Ledger) (i : Nat) : Prop := L.current = some i ∧ ∃ p, c.loc .main = .main (.serving p)

theorem unspawned_serving (hc : Staged False tr c) (h : Kept tr c) {d : Conn} (hd : d ∈ c.shared.conns) (hsp : d.spawned = false) :
    c.Serving (ledger tr) d.id := by
  have hview := h.books.held d hd hsp
  have hserves := h.books.serves
  refine ⟨?_, ?_⟩
  · cases hphase : (stageOf tr .main).phase with
    | accepted | refused | cleared | counted =>
      rw [hphase] at hview hserves
      cases hview
      exact hserves.1
    | _ => rw [hphase] at hview; cases hview
  · have hat := hc.loc .main
    cases hloc : c.loc .main with
    | main t =>
      rw [hloc] at hat
      cases t with
      | serving p => exact ⟨p, rfl⟩
      | closing p =>
        rw [h.loop p hloc] at hview
        cases hview
      | top | accepting | done =>
        obtain ⟨hphase, -⟩ := hat
        rw [hphase] at hview
        cases hview
    | _ => rw [hloc] at hat; cases hat

theorem closed_of_over (hc : Staged False tr c) (h : Kept tr c) {i : Nat} (hi : i < c.shared.nextId) (hover : i ∉ sessions tr c) :
    i ∈ (ledger tr).closed ∨ c.Serving (ledger tr) i := by
  by_cases hopen : ∃ d ∈ c.shared.conns, d.id = i
  · obtain ⟨d, hd, rfl⟩ := hopen
    cases hsp : d.spawned with
    | true => exact absurd (spawned_counted hc h hd hsp) hover
    | false => exact Or.inr (unspawned_serving hc h hd hsp)
  · exact Or.inl ((h.books.closed i).mpr ⟨hi, fun d hd he => hopen ⟨d, hd, he⟩⟩)

/-- Every close is of the descriptor of an open connection, by the thread that works for it. -/
theorem closes_own (hc : Staged False tr c) (h : Kept tr c) (hs : System.Step P ok c l c') {fd : Int} (hl : l.act = .close fd) :
    ∃ d ∈ c.shared.conns, d.fd = fd ∧ (l.tid = .handler d.id ∨ l.tid = .main ∧ (ledger tr).current = some d.id) := by
  obtain ⟨⟨hallowed, -, -⟩, -⟩ := hc.step hs
  have hsat := (hc.relies l.tid).sat
  rw [hl] at hallowed
  cases htid : l.tid with
  | main =>
    rw [htid] at hsat hallowed
    cases hview : (stageOf tr .main).phase.view with
    | held fd' i =>
      rw [hview] at hsat hallowed
      obtain rfl : fd = fd' := hallowed
      exact ⟨_, hsat, rfl, Or.inr ⟨rfl, (unspawned_serving hc h hsat rfl).1⟩⟩
    | fresh | checked => rw [hview] at hsat; cases hsat
    | _ => rw [hview] at hallowed; cases hallowed
  | handler i =>
    rw [htid] at hsat hallowed
    cases hview : (stageOf tr (.handler i)).phase.view with
    | fresh | checked =>
      rw [hview] at hsat hallowed
      cases hallowed
      exact ⟨_, hsat.1, rfl, Or.inl rfl⟩
    | held => rw [hview] at hsat; cases hsat
    | _ => rw [hview] at hallowed; cases hallowed
  | broadcaster | signal =>
    rw [htid] at hsat hallowed
    cases hview : (stageOf tr _).phase.view with
    | held | fresh | checked => rw [hview] at hsat; cases hsat
    | _ => rw [hview] at hallowed; cases hallowed

/-! ## The registry -/

/-- The sessions that are in the registry. -/
def owners (s : Server) : Finset Nat := (s.registry.nodes.map fun n => s.owner n.addr).toFinset

theorem mem_owners {s : Server} {i : Nat} : i ∈ owners s ↔ ∃ n ∈ s.registry.nodes, s.owner n.addr = i := by
  rw [owners, List.mem_toFinset, List.mem_map]

/-- Every node is that of a session of its own. -/
theorem owners_card {s : Server} (hi : Consistent s) : (owners s).card = s.registry.count := by
  have hown : ∀ n ∈ s.registry.nodes, ∀ m ∈ s.registry.nodes, s.owner n.addr = s.owner m.addr → n = m := by
    intro n hn m hm he
    have hconn := hi.conn_id (hi.owned n hn).1 (hi.owned m hm).1 he
    exact List.inj_on_of_nodup_map hi.nodeFds hn hm (congrArg Conn.fd hconn)
  rw [owners, List.toFinset_card_of_nodup (List.Nodup.map_on hown (List.Nodup.of_map _ hi.nodeFds)), List.length_map,
    s.registry.count_eq]

theorem owners_sessions (hc : Staged False tr c) (h : Kept tr c) : owners c.shared ⊆ sessions tr c := by
  intro i hmem
  obtain ⟨n, hn, rfl⟩ := mem_owners.mp hmem
  exact spawned_counted hc h (hc.shared.1.owned n hn).1 rfl

theorem registry_le (hc : Staged False tr c) (h : Kept tr c) : c.shared.registry.count ≤ c.shared.activeConnections := by
  rw [h.books.exact, ← owners_card hc.shared.1]
  exact Int.ofNat_le.mpr (Finset.card_le_card (owners_sessions hc h))

/-- A session that is not in the registry finds room there. -/
theorem registry_room (hc : Staged False tr c) (h : Kept tr c) {i : Nat} (hi : i ∈ sessions tr c) (hnew : i ∉ owners c.shared) :
    c.shared.registry.count < maxClients := by
  have hcard : (owners c.shared).card < (sessions tr c).card :=
    Finset.card_lt_card (Finset.ssubset_iff_subset_ne.mpr ⟨owners_sessions hc h, fun he => hnew (he ▸ hi)⟩)
  have hexact : c.shared.activeConnections = (sessions tr c).card := h.books.exact
  have hbound := h.books.bound
  rw [owners_card hc.shared.1] at hcard
  omega

theorem registryAdd_not_full {reg : ClientRegistry} (h : reg.count < maxClients) (mem : Option Fresh) (sockfd : Int)
    (username room : Bytes) (isAdmin : Bool) : (registryAdd reg mem sockfd username room isAdmin).1 ≠ .errFull := by
  unfold registryAdd
  cases mem with
  | none =>
    intro hrc
    cases hrc
  | some m =>
    simp only
    rw [if_neg (Nat.not_le.mpr h)]
    split
    · intro hrc
      cases hrc
    · intro hrc
      cases hrc

theorem add_not_full (hc : Staged False tr c) (h : Kept tr c) (hs : System.Step P ok c l c') {fd : Int} {username room : Bytes}
    {isAdmin : Bool} {rc : ChatStatus} (hl : l = ⟨l.tid, .registryAdd fd username room isAdmin, rc⟩) : rc ≠ .errFull := by
  obtain ⟨⟨hallowed, -, -⟩, e, -, hx⟩ := hc.step hs
  have hsat := (hc.relies l.tid).sat
  generalize l.tid = tid at hl hsat hallowed hx
  subst hl
  have hview : (stageOf tr tid).phase.view = .checked fd username := hallowed.1
  rw [hview] at hsat
  cases tid with
  | handler i =>
    have hmem : i ∈ sessions tr c := spawned_counted hc h hsat.1 rfl
    have hnew : i ∉ owners c.shared := by
      intro hmem
      obtain ⟨n, hn, he⟩ := mem_owners.mp hmem
      exact owner_ne_of_offline hc.shared (v := .checked fd username) nofun hsat n hn he
    have hroom := registry_room hc h hmem hnew
    change exec P (.handler i) (.registryAdd fd username room isAdmin) e c.shared = some (rc, c'.shared) at hx
    generalize c'.shared = s' at hx
    simp only [exec] at hx
    split at hx
    · cases hx
      exact registryAdd_not_full hroom _ _ _ _ _
    · split at hx
      · cases hx
      · cases hx
        exact registryAdd_not_full hroom _ _ _ _ _
  | _ => cases hsat

/-- **Every connection is counted once and closed once.** In every run
`active_connections` is the number of the sessions that are counted and not
over, it stays within its bounds, and the registry holds no more clients than
it says, so that `registry_add` always finds room. -/
theorem connections_accounted (hr : Run (System.Step P ok) (System.init db) tr c) :
    c.shared.activeConnections = (sessions tr c).card ∧ c.shared.activeConnections ≤ maxClients ∧
    (ledger tr).closed.Nodup ∧
    (∀ i < c.shared.nextId, i ∉ sessions tr c → i ∈ (ledger tr).closed ∨ c.Serving (ledger tr) i) ∧
    c.shared.registry.count ≤ c.shared.activeConnections ∧
    ∀ l c', System.Step P ok c l c' →
      (l.act = .connTrackDecrement → c.shared.activeConnections > 0) ∧
      (∀ fd, l.act = .close fd →
        ∃ d ∈ c.shared.conns, d.fd = fd ∧ (l.tid = .handler d.id ∨ l.tid = .main ∧ (ledger tr).current = some d.id)) ∧
      ∀ fd username room isAdmin (rc : ChatStatus), l = ⟨l.tid, .registryAdd fd username room isAdmin, rc⟩ → rc ≠ .errFull := by
  have hc : Staged False tr c := run_staged (fun _ _ => False.elim) hr
  have h := run_kept hr
  refine ⟨h.books.exact, h.books.bound, h.books.once, fun i => closed_of_over hc h, registry_le hc h, fun l c' hs => ?_⟩
  exact ⟨(h.step hc hs).2, fun fd => closes_own hc h hs, fun fd username room isAdmin rc => add_not_full hc h hs⟩

end

theorem connections_accounted_bob : ∃ tr c, Run (System.Step passPlatform Env.Terminated) (System.init passDb) tr c ∧
    c.shared.registry.count = 1 ∧ c.shared.activeConnections = 1 ∧ (sessions tr c).card = 1 := by
  obtain ⟨tr, c, hr, hp⟩ := System.exists_run passPlatform Env.Terminated (System.init passDb) _ (sunny_logIn 0 5 "bob")
    (p := fun q => decide (q.2.shared.registry.count = 1 ∧ q.2.shared.activeConnections = 1)) (by decide +kernel)
  obtain ⟨hcount, hactive⟩ := of_decide_eq_true hp
  exact ⟨tr, c, hr, hcount, hactive, by rw [← Int.ofNat_inj, ← (connections_accounted hr).1, hactive]; rfl⟩

end ChatServer

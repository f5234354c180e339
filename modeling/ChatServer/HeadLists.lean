import ChatServer.LinkedList

/-!
# Singly linked lists with a head pointer

Lists whose head is kept by their user: a new cell goes in front, a walk
follows the links until it is done, the cell it stops at is written or
unlinked, and at the end every cell is freed. Reading, linking or freeing what
is no cell is a fault, and so is a walk of more rounds than allowed.
-/

namespace LinkedList

inductive Fault where
  | wild
  | endless
  deriving DecidableEq

namespace Heap
variable {α σ β : Type}

def read (h : Heap α) (a : Nat) : Except Fault (Cell α) :=
  match h a with
  | none => .error .wild
  | some c => .ok c

/-- `free(a)`; a fault where `a` is no allocated cell, as after a first `free`. -/
def release (h : Heap α) (a : Nat) : Except Fault (Heap α) :=
  match h a with
  | none => .error .wild
  | some _ => .ok (h.free a)

/-- The link that leads here, `*head` or the one of the cell before, set to `p`. -/
def relink (h : Heap α) (head prev p : Option Nat) : Except Fault (Heap α × Option Nat) :=
  match prev with
  | none => .ok (h, p)
  | some b =>
    match h.setNext b p with
    | none => .error .wild
    | some h => .ok (h, head)

/-- `while (cur != NULL)`: a round ends the walk with a result or passes its state on. -/
def follow (h : Heap α) (round : σ → Nat → Cell α → β ⊕ σ) (last : σ → β) : Nat → Option Nat → σ → Except Fault β
  | _, none, s => .ok (last s)
  | 0, some _, _ => .error .endless
  | fuel + 1, some a, s =>
    match h a with
    | none => .error .wild
    | some c =>
      match round s a c with
      | .inl r => .ok r
      | .inr s => follow h round last fuel c.next s

/-- The first cell that `q` holds of, and the one before it. -/
def search (h : Heap α) (q : α → Bool) (fuel : Nat) (head : Option Nat) : Except Fault (Option (Option Nat × Nat × Cell α)) :=
  h.follow (fun prev cur c => if q c.val then .inl (some (prev, cur, c)) else .inr (some cur)) (fun _ => none) fuel head none

/-- Every cell from here on freed, its link read before. -/
def freeAll : Nat → Heap α → Option Nat → Except Fault (Heap α)
  | _, h, none => .ok h
  | 0, _, some _ => .error .endless
  | fuel + 1, h, some a => do
    let c ← h.read a
    let h ← h.release a
    freeAll fuel h c.next

theorem read_of_some {h : Heap α} {a : Nat} {c : Cell α} (ha : h a = some c) : h.read a = .ok c := by
  unfold read
  rw [ha]

theorem release_of_some {h : Heap α} {a : Nat} {c : Cell α} (ha : h a = some c) : h.release a = .ok (h.free a) := by
  unfold release
  rw [ha]

end Heap

section
variable {α σ β : Type} {h : Heap α} {p : Option Nat} {l : List (Nat × α)}

/-- The pointer to the first of these cells. -/
def headPtr (l : List (Nat × α)) : Option Nat := l.head?.map Prod.fst

/-- The pointer to the last of these cells. -/
def lastPtr (l : List (Nat × α)) : Option Nat := l.getLast?.map Prod.fst

/-! ## Walks -/

theorem Chain.ptr_eq (hc : Chain h p l) : p = headPtr l := by
  cases l with
  | nil => exact hc
  | cons c l => exact hc.1

/-- The walk over the cells themselves. -/
def walk (round : σ → Nat → Cell α → β ⊕ σ) (last : σ → β) : List (Nat × α) → σ → β
  | [], s => last s
  | (a, x) :: l, s =>
    match round s a { val := x, next := headPtr l } with
    | .inl r => r
    | .inr s => walk round last l s

theorem Chain.follow (round : σ → Nat → Cell α → β ⊕ σ) (last : σ → β) : ∀ {l : List (Nat × α)} {p : Option Nat},
    Chain h p l → ∀ {fuel : Nat}, l.length ≤ fuel → ∀ s, h.follow round last fuel p s = .ok (walk round last l s)
  | [], p, hc, fuel, _, s => by
    obtain rfl : p = none := hc
    cases fuel <;> rfl
  | (a, x) :: l, p, hc, fuel, hfuel, s => by
    obtain ⟨rfl, next, ha, hrest⟩ := hc
    obtain rfl := hrest.ptr_eq
    cases fuel with
    | zero => exact absurd hfuel (Nat.not_succ_le_zero _)
    | succ fuel =>
      simp only [Heap.follow, walk, ha]
      cases round s a { val := x, next := headPtr l } with
      | inl r => rfl
      | inr s => exact hrest.follow round last (Nat.le_of_succ_le_succ hfuel) s

theorem walk_search (q : α → Bool) : ∀ (l : List (Nat × α)) (prev : Option Nat),
    let found := walk (fun prev cur c => if q c.val then .inl (some (prev, cur, c)) else .inr (some cur)) (fun _ => none) l prev
    (found = none ∧ ∀ c ∈ l, q c.2 = false) ∨
    ∃ before a x after, l = before ++ (a, x) :: after ∧ (∀ c ∈ before, q c.2 = false) ∧ q x = true ∧
      found = some ((lastPtr before).or prev, a, { val := x, next := headPtr after })
  | [], _ => Or.inl ⟨rfl, fun _ hc => absurd hc List.not_mem_nil⟩
  | (a, x) :: l, prev => by
    intro found
    by_cases hx : q x = true
    · refine Or.inr ⟨[], a, x, l, rfl, fun _ hc => absurd hc List.not_mem_nil, hx, ?_⟩
      simp only [found, walk, if_pos hx]
      rfl
    · have hstep : found =
          walk (fun prev cur c => if q c.val then .inl (some (prev, cur, c)) else .inr (some cur)) (fun _ => none) l (some a) := by
        simp only [found, walk, if_neg hx]
      have hno : q x = false := Bool.eq_false_iff.mpr hx
      rw [hstep]
      rcases walk_search q l (some a) with ⟨hnone, hall⟩ | ⟨before, b, y, after, rfl, hall, hy, hfound⟩
      · exact Or.inl ⟨hnone, List.forall_mem_cons.mpr ⟨hno, hall⟩⟩
      · refine Or.inr ⟨(a, x) :: before, b, y, after, rfl, List.forall_mem_cons.mpr ⟨hno, hall⟩, hy, ?_⟩
        rw [hfound]
        cases before with
        | nil => rfl
        | cons c before =>
          rw [lastPtr, lastPtr, List.getLast?_cons_cons, List.getLast?_cons]
          rfl

/-- A search ends at the first cell that fits, or behind the last one. -/
theorem Chain.search (hc : Chain h p l) (q : α → Bool) {fuel : Nat} (hfuel : l.length ≤ fuel) :
    (h.search q fuel p = .ok none ∧ ∀ c ∈ l, q c.2 = false) ∨
    ∃ before a x after, l = before ++ (a, x) :: after ∧ (∀ c ∈ before, q c.2 = false) ∧ q x = true ∧
      h.search q fuel p = .ok (some (lastPtr before, a, { val := x, next := headPtr after })) := by
  unfold Heap.search
  rw [hc.follow _ _ hfuel]
  rcases walk_search q l none with ⟨hnone, hall⟩ | ⟨before, a, x, after, hl, hall, hx, hfound⟩
  · exact Or.inl ⟨congrArg Except.ok hnone, hall⟩
  · rw [Option.or_none] at hfound
    exact Or.inr ⟨before, a, x, after, hl, hall, hx, congrArg Except.ok hfound⟩

theorem find?_none {q : α → Bool} {xs : List α} (hall : ∀ x ∈ xs, q x = false) : xs.find? q = none :=
  List.find?_eq_none.mpr fun x hx => by rw [hall x hx]; exact Bool.false_ne_true

theorem find?_behind {q : α → Bool} {before after : List α} {x : α} (hall : ∀ y ∈ before, q y = false) (hx : q x = true) :
    (before ++ x :: after).find? q = some x :=
  List.find?_eq_some_iff_append.mpr ⟨hx, before, after, rfl, fun y hy => by rw [hall y hy]; rfl⟩

/-! ## The list a head pointer holds -/

/-- `head` leads through the cells of `l`, and the heap holds no others. -/
structure Rooted (h : Heap α) (head : Option Nat) (l : List (Nat × α)) : Prop where
  chain : Chain h head l
  nodup : (addresses l).Nodup
  mem_of_allocated : ∀ a, h a ≠ none → a ∈ addresses l

theorem Rooted.nil : Rooted (fun _ => none : Heap α) none [] where
  chain := rfl
  nodup := List.nodup_nil
  mem_of_allocated _ ha := absurd rfl ha

theorem Rooted.fresh (hl : Rooted h p l) {a : Nat} (ha : h a = none) : a ∉ addresses l := by
  intro hmem
  obtain ⟨c, hc⟩ := hl.chain.allocated a hmem
  rw [ha] at hc
  cases hc

theorem Rooted.unique {l' : List (Nat × α)} (hl : Rooted h p l) (hl' : Rooted h p l') : l = l' := hl.chain.unique hl'.chain

/-- A fresh cell in front. -/
theorem Rooted.push (hl : Rooted h p l) {a : Nat} (ha : h a = none) (x : α) :
    Rooted (h.write a { val := x, next := p }) (some a) ((a, x) :: l) := by
  have hfresh := hl.fresh ha
  refine ⟨⟨rfl, p, Function.update_self .., hl.chain.update hfresh _⟩, List.nodup_cons.mpr ⟨hfresh, hl.nodup⟩, fun b hb => ?_⟩
  by_cases hba : b = a
  · exact hba ▸ List.mem_cons_self ..
  · rw [Heap.write, Function.update_of_ne hba] at hb
    exact List.mem_cons_of_mem _ (hl.mem_of_allocated b hb)

/-- The cell met behind those of `before`. -/
theorem Chain.cell {a : Nat} {x : α} {after : List (Nat × α)} : ∀ {before : List (Nat × α)} {p : Option Nat},
    Chain h p (before ++ (a, x) :: after) →
      h a = some { val := x, next := headPtr after } ∧ Chain h (headPtr after) after
  | [], _, ⟨_, next, ha, hrest⟩ => by
    obtain rfl := hrest.ptr_eq
    exact ⟨ha, hrest⟩
  | _ :: _, _, ⟨_, _, _, hrest⟩ => hrest.cell

/-- A cell written anew, with a link to other cells. -/
theorem Chain.splice {a : Nat} {x y : α} {next : Option Nat} {after after' : List (Nat × α)} :
    ∀ {before : List (Nat × α)} {p : Option Nat}, Chain h p (before ++ (a, x) :: after) → a ∉ addresses before →
      Chain (h.write a { val := y, next := next }) next after' →
      Chain (h.write a { val := y, next := next }) p (before ++ (a, y) :: after')
  | [], _, ⟨hp, _⟩, _, hafter => ⟨hp, next, Function.update_self .., hafter⟩
  | (b, z) :: before, _, ⟨hp, link, hb, hrest⟩, hnot, hafter => by
    rw [addresses_cons, List.mem_cons, not_or] at hnot
    have hchain : Chain h link (before ++ (a, x) :: after) := hrest
    exact ⟨hp, link, by rw [Heap.write, Function.update_of_ne (Ne.symm hnot.1), hb], hchain.splice hnot.2 hafter⟩

section
variable {a : Nat} {x : α} {before after : List (Nat × α)} (hl : Rooted h p (before ++ (a, x) :: after))
include hl

theorem Rooted.notMem : a ∉ addresses before ∧ a ∉ addresses after := by
  have hnodup := hl.nodup
  rw [addresses_append, addresses_cons] at hnodup
  obtain ⟨-, hafter, hdisj⟩ := List.nodup_append.mp hnodup
  exact ⟨fun hmem => hdisj a hmem a (List.mem_cons_self ..) rfl, (List.nodup_cons.mp hafter).1⟩

/-- The value of a cell written in place. -/
theorem Rooted.write (y : α) : Rooted (h.write a { val := y, next := headPtr after }) p (before ++ (a, y) :: after) := by
  have haddr : addresses (before ++ (a, y) :: after) = addresses (before ++ (a, x) :: after) := by
    rw [addresses_append, addresses_append, addresses_cons, addresses_cons]
  refine ⟨hl.chain.splice hl.notMem.1 (hl.chain.cell.2.update hl.notMem.2 _), haddr ▸ hl.nodup, fun b hb => ?_⟩
  rw [haddr]
  by_cases hba : b = a
  · subst hba
    rw [addresses_append]
    exact List.mem_append_right _ (List.mem_cons_self ..)
  · rw [Heap.write, Function.update_of_ne hba] at hb
    exact hl.mem_of_allocated b hb

theorem Rooted.unlinked_nodup : (addresses (before ++ after)).Nodup := by
  have hnodup := hl.nodup
  rw [addresses_append, addresses_cons] at hnodup
  rw [addresses_append]
  exact hnodup.sublist ((List.sublist_cons_self ..).append_left _)

theorem Rooted.mem_unlinked {b : Nat} (hb : h b ≠ none) (hne : b ≠ a) : b ∈ addresses (before ++ after) := by
  have hmem := hl.mem_of_allocated b hb
  rw [addresses_append, addresses_cons, List.mem_append, List.mem_cons] at hmem
  rw [addresses_append, List.mem_append]
  exact hmem.imp_right fun hor => hor.resolve_left hne

/-- A cell unlinked and freed. -/
theorem Rooted.unlink : ∃ h₁ h₂ head, h.relink p (lastPtr before) (headPtr after) = .ok (h₁, head) ∧ h₁.release a = .ok h₂ ∧
    Rooted h₂ head (before ++ after) := by
  obtain ⟨ha, hafter⟩ := hl.chain.cell
  obtain ⟨hbefore, hnot⟩ := hl.notMem
  rcases List.eq_nil_or_concat before with rfl | ⟨before, ⟨b, y⟩, rfl⟩
  · -- the first cell
    refine ⟨h, h.free a, headPtr after, rfl, Heap.release_of_some ha, hafter.update hnot none, hl.unlinked_nodup, fun c hc => ?_⟩
    by_cases hca : c = a
    · rw [hca, Heap.free, Function.update_self] at hc
      exact absurd rfl hc
    · rw [Heap.free, Function.update_of_ne hca] at hc
      exact hl.mem_unlinked hc hca
  · -- the cell behind that of `b`
    have hchain := hl.chain
    rw [List.concat_eq_append, List.append_assoc] at hchain
    obtain ⟨hb, -⟩ := hchain.cell
    have hnodup := hl.unlinked_nodup
    rw [List.concat_eq_append, List.append_assoc, addresses_append, List.singleton_append, addresses_cons] at hnodup
    obtain ⟨-, hbafter, hbbefore⟩ := List.nodup_append.mp hnodup
    have hba : a ≠ b := by
      rintro rfl
      exact hbefore (by rw [List.concat_eq_append, addresses_append]; exact List.mem_append_right _ (List.mem_cons_self ..))
    have hlink : h.setNext b (headPtr after) = some (h.write b { val := y, next := headPtr after }) := by
      rw [Heap.setNext, hb]
      rfl
    have hlast : lastPtr (before.concat (b, y)) = some b := by
      rw [lastPtr, List.concat_eq_append, List.getLast?_concat]
      rfl
    have ha' : (h.write b { val := y, next := headPtr after }) a = some { val := x, next := headPtr after } := by
      rw [Heap.write, Function.update_of_ne hba, ha]
    refine ⟨_, _, p, ?_, Heap.release_of_some ha', ?_, hl.unlinked_nodup, fun c hc => ?_⟩
    · rw [hlast]
      simp only [Heap.relink, hlink]
    · have hspliced : Chain (h.write b { val := y, next := headPtr after }) p (before ++ (b, y) :: after) :=
        hchain.splice (fun hmem => hbbefore b hmem b (List.mem_cons_self ..) rfl)
          (hafter.update (List.nodup_cons.mp hbafter).1 _)
      rw [List.concat_eq_append, List.append_assoc]
      refine hspliced.update ?_ none
      rw [List.concat_eq_append] at hbefore
      rw [addresses_append, List.mem_append] at hbefore
      rw [addresses_append, addresses_cons, List.mem_append, List.mem_cons]
      rintro (hmem | rfl | hmem)
      · exact hbefore (Or.inl hmem)
      · exact hba rfl
      · exact hnot hmem
    · by_cases hca : c = a
      · rw [hca, Heap.free, Function.update_self] at hc
        exact absurd rfl hc
      · refine hl.mem_unlinked (fun hnone => hc ?_) hca
        have hcb : c ≠ b := by
          rintro rfl
          rw [hb] at hnone
          cases hnone
        rw [Heap.free, Function.update_of_ne hca, Heap.write, Function.update_of_ne hcb, hnone]

end

/-- Every cell is freed, each once. -/
theorem Rooted.freeAll : ∀ {l : List (Nat × α)} {h : Heap α} {p : Option Nat}, Rooted h p l → ∀ {fuel : Nat}, l.length ≤ fuel →
    Heap.freeAll fuel h p = .ok fun _ => none
  | [], h, p, hl, fuel, _ => by
    obtain rfl : p = none := hl.chain
    have hempty : h = fun _ => none := by
      funext a
      by_contra ha
      exact List.not_mem_nil (hl.mem_of_allocated a ha)
    rw [hempty]
    cases fuel <;> rfl
  | (a, x) :: l, h, p, hl, fuel, hfuel => by
    obtain rfl := hl.chain.ptr_eq
    have hfirst : Rooted h (headPtr ((a, x) :: l)) ([] ++ (a, x) :: l) := hl
    obtain ⟨ha, -⟩ := hfirst.chain.cell
    obtain ⟨h₁, h₂, head, hrelink, hrelease, hrooted⟩ := hfirst.unlink
    cases hrelink
    cases fuel with
    | zero => exact absurd hfuel (Nat.not_succ_le_zero _)
    | succ fuel =>
      have hgo := hrooted.freeAll (Nat.le_of_succ_le_succ hfuel)
      show (h.read a >>= fun c => h.release a >>= fun h => Heap.freeAll fuel h c.next) = _
      rw [Heap.read_of_some ha, hrelease]
      exact hgo

end

end LinkedList

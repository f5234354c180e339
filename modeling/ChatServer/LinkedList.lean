import Mathlib.Data.List.Nodup
import Mathlib.Logic.Function.Basic
import Mathlib.Tactic

/-!
# Singly linked lists with a tail pointer

A heap of cells under addresses, `none` as the null pointer. `Chain` follows
the links, and `Linked` says that a head and a tail pointer hold a list of
cells and that the heap holds no other ones. Linking a fresh cell behind the
tail appends, and moving the head on takes the first cell off.
-/

namespace LinkedList

structure Cell (α : Type) where
  val : α
  next : Option Nat
  deriving DecidableEq

abbrev Heap (α : Type) := Nat → Option (Cell α)

namespace Heap
variable {α : Type}

def write (h : Heap α) (a : Nat) (c : Cell α) : Heap α := Function.update h a (some c)

def free (h : Heap α) (a : Nat) : Heap α := Function.update h a none

/-- `a->next = p`; `none` where `a` is no allocated cell. -/
def setNext (h : Heap α) (a : Nat) (p : Option Nat) : Option (Heap α) :=
  (h a).map fun c => h.write a { c with next := p }

theorem free_write {h : Heap α} {a : Nat} (ha : h a = none) (c : Cell α) : (h.write a c).free a = h := by
  unfold free write
  rw [Function.update_idem, ← ha, Function.update_eq_self]

end Heap

section
variable {α : Type} {h : Heap α} {p : Option Nat} {l : List (Nat × α)}

def addresses (l : List (Nat × α)) : List Nat := l.map Prod.fst

@[simp] theorem addresses_nil : addresses ([] : List (Nat × α)) = [] := rfl

@[simp] theorem addresses_cons (c : Nat × α) (l : List (Nat × α)) : addresses (c :: l) = c.1 :: addresses l := rfl

@[simp] theorem addresses_append (l l' : List (Nat × α)) : addresses (l ++ l') = addresses l ++ addresses l' :=
  List.map_append

/-- From the pointer `p` the cells of `l` are met in order, and then the null pointer. -/
def Chain (h : Heap α) : Option Nat → List (Nat × α) → Prop
  | p, [] => p = none
  | p, (a, x) :: l => p = some a ∧ ∃ next, h a = some { val := x, next := next } ∧ Chain h next l

theorem Chain.allocated : ∀ {l : List (Nat × α)} {p : Option Nat}, Chain h p l → ∀ a ∈ addresses l, ∃ c, h a = some c
  | [], _, _, _, ha => absurd ha List.not_mem_nil
  | (b, x) :: l, _, ⟨_, next, hb, hrest⟩, a, ha => by
    rcases List.mem_cons.mp ha with rfl | ha
    · exact ⟨_, hb⟩
    · exact hrest.allocated a ha

/-- A write elsewhere leaves the chain. -/
theorem Chain.update : ∀ {l : List (Nat × α)} {p : Option Nat}, Chain h p l → ∀ {a : Nat}, a ∉ addresses l →
    ∀ c, Chain (Function.update h a c) p l
  | [], _, hp, _, _, _ => hp
  | (b, x) :: l, _, ⟨hp, next, hb, hrest⟩, a, ha, c => by
    rw [addresses_cons, List.mem_cons, not_or] at ha
    exact ⟨hp, next, by rw [Function.update_of_ne (Ne.symm ha.1), hb], hrest.update ha.2 c⟩

/-- The list that a pointer leads through is determined by the heap. -/
theorem Chain.unique : ∀ {l l' : List (Nat × α)} {p : Option Nat}, Chain h p l → Chain h p l' → l = l'
  | [], [], _, _, _ => rfl
  | [], _ :: _, _, hp, ⟨hp', _⟩ => by
    rw [show _ = none from hp] at hp'
    cases hp'
  | _ :: _, [], _, ⟨hp, _⟩, hp' => by
    rw [show _ = none from hp'] at hp
    cases hp
  | (a, x) :: l, (b, y) :: l', _, ⟨hp, next, ha, hrest⟩, ⟨hp', next', hb, hrest'⟩ => by
    obtain rfl := Option.some.inj (hp.symm.trans hp')
    rw [ha] at hb
    cases hb
    rw [hrest.unique hrest']

/-- Linking a cell behind the last one; by recursion up to that one. -/
theorem Chain.link : ∀ {l : List (Nat × α)} {p : Option Nat} {t : Nat} {x : α}, Chain h p (l ++ [(t, x)]) →
    (addresses (l ++ [(t, x)])).Nodup → ∀ {a : Nat} {y : α}, h a = some { val := y, next := none } →
      a ∉ addresses (l ++ [(t, x)]) →
      Chain (h.write t { val := x, next := some a }) p (l ++ [(t, x), (a, y)])
  | [], _, t, x, ⟨hp, _, _, _⟩, _, a, y, ha, hfresh => by
    have hne : a ≠ t := fun e => hfresh (by rw [e]; exact List.mem_cons_self ..)
    refine ⟨hp, some a, Function.update_self .., rfl, none, ?_, rfl⟩
    rw [Heap.write, Function.update_of_ne hne, ha]
  | (b, z) :: l, _, t, x, ⟨hp, next, hb, hrest⟩, hnodup, a, y, ha, hfresh => by
    rw [List.cons_append, addresses_cons, List.nodup_cons] at hnodup
    rw [List.cons_append, addresses_cons, List.mem_cons, not_or] at hfresh
    have hne : b ≠ t := by
      rintro rfl
      exact hnodup.1 (by rw [addresses_append]; exact List.mem_append_right _ (List.mem_cons_self ..))
    refine ⟨hp, next, ?_, hrest.link hnodup.2 ha hfresh.2⟩
    rw [Heap.write, Function.update_of_ne hne, hb]

/-- `head` and `tail` hold the cells of `l`, and the heap holds no others. -/
structure Linked (h : Heap α) (head tail : Option Nat) (l : List (Nat × α)) : Prop where
  chain : Chain h head l
  tail_eq : tail = l.getLast?.map Prod.fst
  nodup : (addresses l).Nodup
  mem_of_allocated : ∀ a, h a ≠ none → a ∈ addresses l

theorem Linked.nil : Linked (fun _ => none : Heap α) none none [] where
  chain := rfl
  tail_eq := rfl
  nodup := List.nodup_nil
  mem_of_allocated _ ha := absurd rfl ha

variable {head tail : Option Nat}

theorem Linked.head_none_iff (hl : Linked h head tail l) : head = none ↔ l = [] := by
  cases l with
  | nil => exact iff_of_true hl.chain rfl
  | cons c l =>
    have hhead : head = some c.1 := hl.chain.1
    rw [hhead]
    exact iff_of_false (Option.some_ne_none _) (List.cons_ne_nil _ _)

theorem Linked.tail_none_iff (hl : Linked h head tail l) : tail = none ↔ l = [] := by
  rw [hl.tail_eq, Option.map_eq_none_iff, List.getLast?_eq_none_iff]

theorem Linked.tail_mem (hl : Linked h head tail l) {t : Nat} (ht : tail = some t) :
    ∃ l' x, l = l' ++ [(t, x)] := by
  rcases List.eq_nil_or_concat l with rfl | ⟨l', c, rfl⟩
  · rw [hl.tail_eq] at ht
    cases ht
  · rw [hl.tail_eq, List.concat_eq_append, List.getLast?_concat] at ht
    obtain rfl := Option.some.inj ht
    exact ⟨l', c.2, List.concat_eq_append⟩

theorem Linked.fresh (hl : Linked h head tail l) {a : Nat} (ha : h a = none) : a ∉ addresses l := by
  intro hmem
  obtain ⟨c, hc⟩ := hl.chain.allocated a hmem
  rw [ha] at hc
  cases hc

/-- A first cell. -/
theorem Linked.first (hl : Linked h head none l) (a : Nat) (y : α) :
    Linked (h.write a { val := y, next := none }) (some a) (some a) (l ++ [(a, y)]) := by
  obtain rfl := hl.tail_none_iff.mp rfl
  refine ⟨⟨rfl, none, Function.update_self .., rfl⟩, rfl, List.nodup_singleton _, fun b hb => ?_⟩
  by_cases hab : b = a
  · exact List.mem_singleton.mpr hab
  · rw [Heap.write, Function.update_of_ne hab] at hb
    exact absurd (hl.mem_of_allocated b hb) List.not_mem_nil

/-- A fresh cell behind the last one. -/
theorem Linked.append {t : Nat} (hl : Linked h head (some t) l) {a : Nat} (ha : h a = none) (y : α) :
    ∃ h', (h.write a { val := y, next := none }).setNext t (some a) = some h' ∧
      Linked h' head (some a) (l ++ [(a, y)]) := by
  obtain ⟨l', x, rfl⟩ := hl.tail_mem rfl
  have hfresh := hl.fresh ha
  have hne : t ≠ a := fun e => hfresh (by rw [← e, addresses_append]; exact List.mem_append_right _ (List.mem_cons_self ..))
  have hwrite : (h.write a { val := y, next := none }) t = h t := Function.update_of_ne hne _ _
  -- the last cell is the one the chain ends in
  obtain ⟨next, hlast⟩ : ∃ next, h t = some { val := x, next := next } := by
    have hlast : ∀ {l : List (Nat × α)} {p : Option Nat}, Chain h p (l ++ [(t, x)]) →
        ∃ next, h t = some { val := x, next := next } := by
      intro l
      induction l with
      | nil => exact fun ⟨_, next, ht, _⟩ => ⟨next, ht⟩
      | cons c l ih => exact fun ⟨_, _, _, hrest⟩ => ih hrest
    exact hlast hl.chain
  refine ⟨(h.write a { val := y, next := none }).write t { val := x, next := some a }, ?_, ?_⟩
  · rw [Heap.setNext, hwrite, hlast]
    rfl
  · refine ⟨?_, ?_, ?_, fun b hb => ?_⟩
    · rw [List.append_assoc]
      exact (hl.chain.update hfresh _).link hl.nodup (Function.update_self ..) hfresh
    · rw [List.getLast?_concat]
      rfl
    · rw [addresses_append]
      exact List.nodup_append.mpr ⟨hl.nodup, List.nodup_singleton _, fun b hb c hc e =>
        hfresh (by rw [← show c = a from List.mem_singleton.mp hc, ← e]; exact hb)⟩
    · rw [addresses_append, List.mem_append]
      by_cases hba : b = a
      · exact Or.inr (List.mem_singleton.mpr hba)
      · refine Or.inl ?_
        by_cases hbt : b = t
        · rw [hbt, addresses_append]
          exact List.mem_append_right _ (List.mem_cons_self ..)
        · rw [Heap.write, Function.update_of_ne hbt, Heap.write, Function.update_of_ne hba] at hb
          exact hl.mem_of_allocated b hb

/-- The first cell taken off and freed. -/
theorem Linked.rest {a : Nat} (hl : Linked h (some a) tail l) :
    ∃ y next l', l = (a, y) :: l' ∧ h a = some { val := y, next := next } ∧
      Linked (h.free a) next (if next = none then none else tail) l' := by
  cases l with
  | nil => cases (show some a = none from hl.chain)
  | cons c l =>
    obtain ⟨b, y⟩ := c
    obtain ⟨hp, next, hb, hrest⟩ := hl.chain
    obtain rfl := Option.some.inj hp
    have hnodup := hl.nodup
    rw [addresses_cons, List.nodup_cons] at hnodup
    refine ⟨y, next, l, rfl, hb, hrest.update hnodup.1 none, ?_, hnodup.2, fun d hd => ?_⟩
    · cases l with
      | nil =>
        rw [show next = none from hrest]
        rfl
      | cons c l =>
        have hnext : next = some c.1 := hrest.1
        rw [hnext, if_neg (Option.some_ne_none _), hl.tail_eq, List.getLast?_cons_cons]
    · by_cases hda : d = a
      · rw [hda, Heap.free, Function.update_self] at hd
        exact absurd rfl hd
      · rw [Heap.free, Function.update_of_ne hda] at hd
        exact (List.mem_cons.mp (hl.mem_of_allocated d hd)).resolve_left hda

end

end LinkedList

import Mathlib.Tactic

/-!
# Ring buffers that overwrite their oldest entry

A ring of `cap` slots with a count and a start index. A push edits the slot it
takes in place, so the entry written may depend on what the slot held. Seen as
a list, oldest entry first, a ring holds the last `cap` entries pushed.
-/

def lastN {α : Type} (n : Nat) (l : List α) : List α := l.drop (l.length - n)

section
variable {α β : Type}

theorem lastN_length (n : Nat) (l : List α) : (lastN n l).length = min l.length n := by
  rw [lastN, List.length_drop]; omega

theorem lastN_lastN_append (n : Nat) (l : List α) (x : α) : lastN n (lastN n l ++ [x]) = lastN n (l ++ [x]) := by
  have hl := lastN_length n l
  simp only [lastN, List.length_append, List.length_drop, List.length_singleton] at *
  by_cases h : l.length ≤ n
  · rw [Nat.sub_eq_zero_of_le h, List.drop_zero, Nat.sub_zero]
  · rw [List.drop_append, List.drop_append, List.drop_drop, List.length_drop]
    congr 2
    · omega
    · omega

theorem lastN_map (n : Nat) (g : α → β) (l : List α) : (lastN n l).map g = lastN n (l.map g) := by
  rw [lastN, lastN, List.map_drop, List.length_map]

end

structure RingBuffer (α : Type) (cap : Nat) where
  slots : List α
  count : Nat
  start : Nat
  slots_length : slots.length = cap
  count_le : count ≤ cap
  start_lt : start < cap
  start_eq : count < cap → start = 0

namespace RingBuffer
variable {α β : Type} {cap : Nat}

def slot (r : RingBuffer α cap) : Nat := if r.count < cap then r.count else r.start

theorem slot_lt (r : RingBuffer α cap) : r.slot < r.slots.length := by
  have := r.start_lt
  rw [r.slots_length, slot]
  split <;> omega

def push (f : α → α) (r : RingBuffer α cap) : RingBuffer α cap where
  slots := r.slots.modify r.slot f
  count := if r.count < cap then r.count + 1 else r.count
  start := if r.count < cap then r.start else (r.start + 1) % cap
  slots_length := by rw [List.length_modify, r.slots_length]
  count_le := by have := r.count_le; split <;> omega
  start_lt := by
    have := r.start_lt
    split
    · exact this
    · exact Nat.mod_lt _ (by omega)
  start_eq := by
    have := r.count_le
    split
    · intro _; exact r.start_eq ‹_›
    · intro h; exact absurd h ‹_›

theorem index_lt (r : RingBuffer α cap) (i : Nat) : (r.start + i) % cap < r.slots.length := by
  have := r.start_lt
  rw [r.slots_length]; exact Nat.mod_lt _ (by omega)

def toList (r : RingBuffer α cap) : List α :=
  (List.range r.count).map fun i => r.slots.get ⟨(r.start + i) % cap, r.index_lt i⟩

def written (r : RingBuffer α cap) : α := r.slots.get ⟨r.slot, r.slot_lt⟩

theorem toList_length (r : RingBuffer α cap) : r.toList.length = r.count := by
  rw [toList, List.length_map, List.length_range]

theorem getElem?_toList (r : RingBuffer α cap) {i : Nat} (hi : i < r.count) :
    r.toList[i]? = r.slots[(r.start + i) % cap]? := by
  rw [toList, List.getElem?_map, List.getElem?_range hi, Option.map_some, List.getElem?_eq_getElem (r.index_lt i)]
  rfl

theorem getElem?_written (r : RingBuffer α cap) : r.slots[r.slot]? = some r.written := List.getElem?_eq_getElem r.slot_lt

/-- **A push** drops the oldest entry once the ring is full. -/
theorem toList_push (f : α → α) (r : RingBuffer α cap) :
    (r.push f).toList = lastN cap (r.toList ++ [f r.written]) := by
  have hcount := r.count_le
  have hstart := r.start_lt
  have hlen : (lastN cap (r.toList ++ [f r.written])).length = (r.push f).count := by
    rw [lastN_length, List.length_append, toList_length, List.length_singleton, push]
    simp only
    split <;> omega
  refine List.ext_getElem? fun i => ?_
  by_cases hi : i < (r.push f).count
  swap
  · rw [List.getElem?_eq_none (by rw [toList_length]; omega), List.getElem?_eq_none (by rw [hlen]; omega)]
  rw [getElem?_toList _ hi, lastN, List.getElem?_drop, List.length_append, toList_length, List.length_singleton]
  simp only [push] at hi ⊢
  by_cases hc : r.count < cap
  · -- the entries stay where they are, and the new one follows them
    have hs := r.start_eq hc
    have hslot : r.slot = r.count := if_pos hc
    rw [if_pos hc] at hi
    rw [if_pos hc, hslot, hs, Nat.zero_add, Nat.mod_eq_of_lt (by omega), Nat.sub_eq_zero_of_le (by omega), Nat.zero_add]
    by_cases hlast : i = r.count
    · subst hlast
      rw [List.getElem?_append_right (by rw [toList_length]), toList_length, Nat.sub_self, ← hslot, List.getElem?_modify_eq,
        getElem?_written]
      rfl
    · have hlt : i < r.count := by omega
      rw [List.getElem?_append_left (by rw [toList_length]; exact hlt), getElem?_toList r hlt, hs, Nat.zero_add,
        Nat.mod_eq_of_lt (by omega), List.getElem?_modify_ne f _ (by omega)]
  · -- the oldest entry is overwritten, and the start moves on
    have hcap : r.count = cap := by omega
    have hslot : r.slot = r.start := if_neg hc
    rw [if_neg hc] at hi
    rw [if_neg hc, hslot, Nat.mod_add_mod, show r.count + 1 - cap + i = i + 1 by omega]
    by_cases hlast : i + 1 = r.count
    · have hidx : (r.start + 1 + i) % cap = r.start := by
        rw [show r.start + 1 + i = r.start + cap by omega, Nat.add_mod_right, Nat.mod_eq_of_lt hstart]
      rw [List.getElem?_append_right (by rw [toList_length]; omega), toList_length, hlast, Nat.sub_self, hidx, ← hslot,
        List.getElem?_modify_eq, getElem?_written]
      rfl
    · have hlt : i + 1 < r.count := by omega
      have hne : r.start ≠ (r.start + 1 + i) % cap := by
        intro he
        have hd := (Nat.modEq_iff_dvd' (show r.start ≤ r.start + 1 + i by omega)).mp
          ((Nat.mod_eq_of_lt hstart).trans he)
        rw [show r.start + 1 + i - r.start = i + 1 by omega] at hd
        exact absurd (Nat.le_of_dvd (by omega) hd) (by omega)
      rw [List.getElem?_append_left (by rw [toList_length]; exact hlt), getElem?_toList r hlt,
        List.getElem?_modify_ne f _ hne, show r.start + (i + 1) = r.start + 1 + i by omega]

/-- `r` holds the last entries of `xs`, seen through `g`. -/
def Holds (g : α → β) (r : RingBuffer α cap) (xs : List β) : Prop := r.toList.map g = lastN cap xs

theorem Holds.push {g : α → β} {r : RingBuffer α cap} {xs : List β} (h : r.Holds g xs) (f : α → α) {x : β}
    (hf : g (f r.written) = x) : (r.push f).Holds g (xs ++ [x]) := by
  rw [Holds, toList_push, lastN_map, List.map_append, h, List.map_singleton, hf, lastN_lastN_append]

def replicate (cap : Nat) (x : α) (hcap : 0 < cap) : RingBuffer α cap where
  slots := List.replicate cap x
  count := 0
  start := 0
  slots_length := List.length_replicate
  count_le := Nat.zero_le _
  start_lt := hcap
  start_eq _ := rfl

theorem holds_replicate (g : α → β) (x : α) (hcap : 0 < cap) : (replicate cap x hcap).Holds g [] := by
  simp [Holds, toList, replicate, lastN]

end RingBuffer

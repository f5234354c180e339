import Mathlib.Data.List.Basic
import Mathlib.Tactic

/-!
# Fields between separators

Lists of two fields and a text, each entry behind a doubled separator. The
fields are free of the separator and not empty, the texts are anything, and
two readings of one such list part at a text that goes on with the next entry.
-/

namespace Separators

section
variable {α : Type} {bar : α}

theorem split_first {a b r s : List α} (ha : bar ∉ a) (hb : bar ∉ b) (h : a ++ bar :: r = b ++ bar :: s) :
    a = b ∧ r = s := by
  rcases List.append_eq_append_iff.mp h with ⟨m, rfl, hm⟩ | ⟨m, rfl, hm⟩
  · cases m with
    | nil => exact ⟨(List.append_nil a).symm, (List.cons.inj hm).2⟩
    | cons c m =>
      obtain ⟨rfl, -⟩ := List.cons.inj hm
      exact absurd (List.mem_append_right a (List.mem_cons_self ..)) hb
  · cases m with
    | nil => exact ⟨List.append_nil b, (List.cons.inj hm).2.symm⟩
    | cons c m =>
      obtain ⟨rfl, -⟩ := List.cons.inj hm
      exact absurd (List.mem_append_right b (List.mem_cons_self ..)) ha

/-- A part of a field from its middle on does not begin with the separator. -/
theorem suffix_of_field {t m k : List α} (ht : bar ∉ t) (h : t = m ++ bar :: k) : False :=
  ht (h ▸ List.mem_append_right m (List.mem_cons_self ..))

/-- Where one separator stands alone and behind it a field begins, two do not stand. -/
theorem not_doubled {t r s : List α} (ht : bar ∉ t) (hne : t ≠ []) : bar :: (t ++ r) ≠ bar :: bar :: s := by
  intro h
  cases t with
  | nil => exact hne rfl
  | cons c t =>
    obtain ⟨rfl, -⟩ := List.cons.inj (List.cons.inj h).2
    exact ht (List.mem_cons_self ..)

/-- What a doubled separator can end in the head of an entry: nothing but the whole of it. -/
theorem head_cut {u t z r s : List α} (hu : bar ∉ u) (hu0 : u ≠ []) (ht : bar ∉ t) (ht0 : t ≠ []) (hz : z ≠ [])
    (h : bar :: bar :: u ++ bar :: t ++ bar :: r = z ++ bar :: bar :: s) :
    ∃ y, z = bar :: bar :: u ++ bar :: t ++ y ∧ (y = [] ∨ ∃ y', y = bar :: y') := by
  rcases List.append_eq_append_iff.mp h with ⟨y, rfl, hy⟩ | ⟨k, hk, hr⟩
  · refine ⟨y, rfl, ?_⟩
    cases y with
    | nil => exact Or.inl rfl
    | cons c y =>
      obtain ⟨rfl, -⟩ := List.cons.inj hy
      exact Or.inr ⟨y, rfl⟩
  · -- `z` would end inside the head of the entry
    cases k with
    | nil => exact ⟨[], by rw [hk, List.append_nil, List.append_nil], Or.inl rfl⟩
    | cons c k =>
      obtain ⟨rfl, hs⟩ := List.cons.inj hr
      obtain ⟨d, z, rfl⟩ := List.exists_cons_of_ne_nil hz
      rw [List.cons_append, List.cons_append, List.cons_append] at hk
      obtain ⟨rfl, htail⟩ := List.cons.inj hk
      have hdouble : ∀ t' : List α, bar ∉ t' → t' ≠ [] → ∀ r', k ++ bar :: r ≠ t' ++ r' := by
        intro t' ht' hne r' he
        exact not_doubled ht' hne (congrArg (bar :: ·) (he.symm.trans hs.symm))
      rw [← List.cons_append] at htail
      rcases List.append_eq_append_iff.mp htail with ⟨m, rfl, hm⟩ | ⟨m, hm, hm'⟩
      · cases m with
        | nil => exact absurd (congrArg (· ++ bar :: r) (List.cons.inj hm).2.symm) (hdouble t ht ht0 _)
        | cons e m =>
          obtain ⟨rfl, htm⟩ := List.cons.inj hm
          exact (suffix_of_field ht htm).elim
      · cases z with
        | nil =>
          rw [List.nil_append] at hm
          subst hm
          obtain ⟨-, hk⟩ := List.cons.inj hm'
          refine absurd ?_ (hdouble u hu hu0 (bar :: t ++ bar :: r))
          rw [hk]
          exact List.append_assoc u (bar :: t) (bar :: r)
        | cons e z =>
          rw [List.cons_append] at hm
          obtain ⟨rfl, hum⟩ := List.cons.inj hm
          cases m with
          | nil => exact absurd (congrArg (· ++ bar :: r) (List.cons.inj hm').2) (hdouble t ht ht0 _)
          | cons e m =>
            obtain ⟨rfl, -⟩ := List.cons.inj hm'
            exact (suffix_of_field hu hum).elim

end

end Separators

import Mathlib.Logic.Function.Basic
import Mathlib.Tactic

/-!
# Logs of visits

A log of entries and exits. Replaying it leaves each key at the place that it
entered last, if it has not left it again. `Alternates` is what the log of one
key looks like when its visits follow each other, whichever sessions make
them.
-/

/-- A session enters or leaves a place under a key. -/
structure Visit (ι κ α : Type) where
  session : ι
  key : κ
  place : α
  enters : Bool
  deriving DecidableEq

namespace Visit

variable {ι κ α : Type}

/-- Where the key is after the visit. -/
def result (v : Visit ι κ α) : Option α := if v.enters then some v.place else none

/-! ## Replaying -/

section
variable [DecidableEq κ]

def replay (log : List (Visit ι κ α)) : κ → Option α := log.foldl (fun m v => Function.update m v.key v.result) fun _ => none

def ofKey (log : List (Visit ι κ α)) (k : κ) : List (Visit ι κ α) := log.filter fun v => v.key = k

theorem replay_snoc (log : List (Visit ι κ α)) (v : Visit ι κ α) :
    replay (log ++ [v]) = Function.update (replay log) v.key v.result := by
  rw [replay, List.foldl_append]
  rfl

theorem ofKey_snoc (log : List (Visit ι κ α)) (v : Visit ι κ α) (k : κ) :
    ofKey (log ++ [v]) k = ofKey log k ++ if v.key = k then [v] else [] := by
  rw [ofKey, List.filter_append, ← ofKey]
  by_cases h : v.key = k <;> simp [h]

/-- Only the last visit of a key counts. -/
theorem replay_apply (log : List (Visit ι κ α)) (k : κ) : replay log k = (ofKey log k).getLast?.bind result := by
  induction log using List.reverseRecOn with
  | nil => rfl
  | append_singleton log v ih =>
    rw [replay_snoc, ofKey_snoc]
    by_cases h : v.key = k
    · subst h
      rw [Function.update_self, if_pos rfl, List.getLast?_concat]
      rfl
    · rw [Function.update_of_ne (Ne.symm h), if_neg h, List.append_nil]
      exact ih

end

/-! ## Alternation -/

/-- Each entry is followed by the exit of the same session from the same
place, and the first entry of a session is at `home`. The option is the visit
that goes on. -/
inductive Alternates (home : α) : List (Visit ι κ α) → Option (Visit ι κ α) → Prop
  | nil : Alternates home [] none
  | arrive {vs : List (Visit ι κ α)} {v : Visit ι κ α} : Alternates home vs none → (∀ w ∈ vs, w.session ≠ v.session) →
      v.enters = true → v.place = home → Alternates home (vs ++ [v]) (some v)
  | move {vs : List (Visit ι κ α)} {v w : Visit ι κ α} : Alternates home vs none → vs.getLast? = some w →
      w.session = v.session → v.enters = true → Alternates home (vs ++ [v]) (some v)
  | leave {vs : List (Visit ι κ α)} {v w : Visit ι κ α} : Alternates home vs (some w) → v.session = w.session →
      v.place = w.place → v.enters = false → Alternates home (vs ++ [v]) none

theorem Alternates.last {home : α} {vs : List (Visit ι κ α)} {now : Option (Visit ι κ α)} (h : Alternates home vs now) :
    vs.getLast?.bind result = now.map place := by
  cases h with
  | nil => rfl
  | arrive _ _ henters _ =>
    rw [List.getLast?_concat]
    exact if_pos henters
  | move _ _ _ henters =>
    rw [List.getLast?_concat]
    exact if_pos henters
  | leave _ _ _ hexit =>
    rw [List.getLast?_concat]
    exact if_neg (by rw [hexit]; nofun)

/-- Where the visits of a key alternate, the replay finds the one that goes on. -/
theorem Alternates.replay [DecidableEq κ] {home : α} {log : List (Visit ι κ α)} {k : κ} {now : Option (Visit ι κ α)}
    (h : Alternates home (ofKey log k) now) : Visit.replay log k = now.map place := (replay_apply log k).trans h.last

end Visit

import Mathlib.Data.Set.Basic
import Mathlib.Tactic

/-!
# A mutex with a condition variable

The operations that POSIX gives: `wait` releases the mutex and blocks in one
step, `signal` wakes at least one of the threads that wait, and a thread may
wake up for no reason. A thread that was woken takes the mutex again before it
goes on.
-/

/-- The thread that holds the mutex, and those blocked on the condition. -/
structure Monitor (T : Type) where
  owner : Option T
  waiters : Set T

namespace Monitor

inductive Op where
  | lock
  | unlock
  | wait
  | signal
  | broadcast
  deriving DecidableEq

section
variable {T : Type}

def init : Monitor T := { owner := none, waiters := ∅ }

/-- One operation of thread `t`. -/
inductive Step (t : T) : Op → Monitor T → Monitor T → Prop
  | lock {m : Monitor T} : m.owner = none → t ∉ m.waiters → Step t .lock m { m with owner := some t }
  | unlock {m : Monitor T} : m.owner = some t → Step t .unlock m { m with owner := none }
  | wait {m : Monitor T} : m.owner = some t → Step t .wait m { owner := none, waiters := insert t m.waiters }
  | signal {m : Monitor T} {rest : Set T} : rest ⊆ m.waiters → (m.waiters.Nonempty → rest ≠ m.waiters) →
      Step t .signal m { m with waiters := rest }
  | broadcast {m : Monitor T} : Step t .broadcast m { m with waiters := ∅ }

/-- A wake-up without a signal. -/
def wake (m : Monitor T) (t : T) : Monitor T := { m with waiters := m.waiters \ {t} }

variable {t u : T} {m m' : Monitor T}

theorem Step.lock_free (h : Step t .lock m m') : m.owner = none := by
  cases h
  assumption

theorem Step.lock_owner (h : Step t .lock m m') : m'.owner = some t := by
  cases h
  rfl

theorem Step.lock_waiters (h : Step t .lock m m') : m'.waiters = m.waiters := by
  cases h
  rfl

theorem Step.unlock_owner (h : Step t .unlock m m') : m'.owner = none := by
  cases h
  rfl

theorem Step.unlock_waiters (h : Step t .unlock m m') : m'.waiters = m.waiters := by
  cases h
  rfl

theorem Step.wait_owner (h : Step t .wait m m') : m'.owner = none := by
  cases h
  rfl

theorem Step.wait_waiters (h : Step t .wait m m') : m'.waiters = insert t m.waiters := by
  cases h
  rfl

theorem Step.signal_owner (h : Step t .signal m m') : m'.owner = m.owner := by
  cases h
  rfl

theorem Step.broadcast_owner (h : Step t .broadcast m m') : m'.owner = m.owner := by
  cases h
  rfl

theorem Step.broadcast_waiters (h : Step t .broadcast m m') : m'.waiters = ∅ := by
  cases h
  rfl

/-- Where one thread at most waits, a signal leaves none. -/
theorem Step.signal_waiters (h : Step t .signal m m') (hone : ∀ v ∈ m.waiters, v = u) : m'.waiters = ∅ := by
  cases h with
  | signal hsub hne =>
    rw [Set.eq_empty_iff_forall_notMem]
    intro v hv
    have hvu := hone v (hsub hv)
    subst hvu
    refine hne ⟨v, hsub hv⟩ (Set.Subset.antisymm hsub fun w hw => ?_)
    rw [hone w hw]
    exact hv

theorem mem_wake (m : Monitor T) (t u : T) : u ∈ (m.wake t).waiters ↔ u ∈ m.waiters ∧ u ≠ t := Iff.rfl

end

end Monitor

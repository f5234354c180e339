import ChatServer.Interleave
import ChatServer.Prog
import Mathlib.Logic.Relation

/-!
# Threads under mutexes

Programs that lock and unlock, over any mutexes and any other actions, for any
number of threads. `may` says for each action which mutex, if any, its thread
may hold meanwhile. A thread's code is a chart of programs, each of which ends
at the control point where the next one starts, so a loop is a control point
that its own program comes back to. A thread that keeps to the contract holds
one mutex at most, and then there is no deadlock.
-/

namespace Mutexes

open Prog Interleave

inductive Op (M A : Type) where
  | lock (m : M)
  | unlock (m : M)
  -- the two halves of a wait on a condition: the mutex is released, and taken again
  | sleep (m : M)
  | wake (m : M)
  | act (a : A)

section
variable {ι M A S E Pt : Type} {R : A → Type}

def Op.Ret (R : A → Type) : Op M A → Type
  | .act a => R a
  | _ => Unit

abbrev Code (M : Type) {A : Type} (R : A → Type) (α : Type) := Prog (@Op.Ret M A R) α

/-! ## The contract -/

/-- What the thread holds after the operation. -/
def Op.after : Op M A → Option M → Option M
  | .lock m, _ | .wake m, _ => some m
  | .unlock _, _ | .sleep _, _ => none
  | .act _, v => v

/-- When a thread that holds `v` may go on with the operation. -/
def Op.fits (may : A → Option M → Prop) : Op M A → Option M → Prop
  | .lock _, v | .wake _, v => v = none
  | .unlock m, v | .sleep m, v => v = some m
  | .act a, v => may a v

def contract (may : A → Option M → Prop) : Contract (@Op.Ret M A R) (Option M) where
  pre o v := o.fits may v
  post o v _ v' := v' = o.after v

section
variable {may : A → Option M → Prop} {α β : Type} {Q : β → Option M → Prop} {m : M} {v : Option M}

theorem meets_lock {f : Unit → Code M R β} (hf : Meets (contract may) Q (f ()) (some m)) :
    Meets (contract may) Q (.act (.lock m) f) none := by
  refine ⟨rfl, ?_⟩
  rintro ⟨⟩ v' rfl
  exact hf

theorem meets_wake {f : Unit → Code M R β} (hf : Meets (contract may) Q (f ()) (some m)) :
    Meets (contract may) Q (.act (.wake m) f) none := by
  refine ⟨rfl, ?_⟩
  rintro ⟨⟩ v' rfl
  exact hf

theorem meets_unlock {f : Unit → Code M R β} (hf : Meets (contract may) Q (f ()) none) :
    Meets (contract may) Q (.act (.unlock m) f) (some m) := by
  refine ⟨rfl, ?_⟩
  rintro ⟨⟩ v' rfl
  exact hf

theorem meets_sleep {f : Unit → Code M R β} (hf : Meets (contract may) Q (f ()) none) :
    Meets (contract may) Q (.act (.sleep m) f) (some m) := by
  refine ⟨rfl, ?_⟩
  rintro ⟨⟩ v' rfl
  exact hf

theorem meets_plain {a : A} {f : R a → Code M R β} (ha : may a v) (hf : ∀ r, Meets (contract may) Q (f r) v) :
    Meets (contract may) Q (.act (.act a) f) v := by
  refine ⟨ha, ?_⟩
  rintro r v' rfl
  exact hf r

end

/-! ## Running alone -/

/-- The code with every mutex at hand. -/
def alone {α : Type} (x : (a : A) → S → Option (R a × S)) : Code M R α → S → Option (α × S)
  | .ret y, s => some (y, s)
  | .act (.act a) k, s => (x a s).bind fun q => alone x (k q.1) q.2
  | .act (.lock _) k, s | .act (.unlock _) k, s | .act (.sleep _) k, s | .act (.wake _) k, s => alone x (k ()) s

theorem alone_bind {α β : Type} (x : (a : A) → S → Option (R a × S)) (f : α → Code M R β) : ∀ (p : Code M R α) (s : S),
    alone x (p >>= f) s = (alone x p s).bind fun q => alone x (f q.1) q.2
  | .ret _, _ => rfl
  | .act (.act a) k, s => by
    show (x a s).bind (fun q => alone x (k q.1 >>= f) q.2) = ((x a s).bind fun q => alone x (k q.1) q.2).bind _
    rw [Option.bind_assoc]
    exact congrArg _ (funext fun q => alone_bind x f (k q.1) q.2)
  | .act (.lock _) k, s | .act (.unlock _) k, s | .act (.sleep _) k, s | .act (.wake _) k, s => alone_bind x f (k ()) s

/-! ## The threads -/

/-- The thread that holds each mutex, and everything else. -/
structure Shared (ι M S : Type) where
  held : M → Option ι
  data : S

def take [DecidableEq M] (s : Shared ι M S) (m : M) (i : ι) : Option (Unit × Shared ι M S) :=
  match s.held m with
  | none => some ((), { s with held := Function.update s.held m (some i) })
  | some _ => none

def drop [DecidableEq M] (s : Shared ι M S) (m : M) : Option (Unit × Shared ι M S) :=
  some ((), { s with held := Function.update s.held m none })

/-- One operation; `none` while the thread waits for a mutex. -/
def exec [DecidableEq M] (x : ι → (a : A) → E → S → Option (R a × S)) (i : ι) : (o : Op M A) → E → Shared ι M S →
    Option (o.Ret R × Shared ι M S)
  | .lock m, _, s | .wake m, _, s => take s m i
  | .unlock m, _, s | .sleep m, _, s => drop s m
  | .act a, e, s => (x i a e s.data).map fun q => (q.1, { s with data := q.2 })

def settle (code : Pt → Code M R Pt) : Code M R Pt → Code M R Pt
  | .ret p => code p
  | .act o k => .act o k

def next (code : Pt → Code M R Pt) : Code M R Pt → Option ((o : Op M A) × (o.Ret R → Code M R Pt))
  | .ret _ => none
  | .act o k => some ⟨o, fun r => settle code (k r)⟩

abbrev Threads (ι M S Pt : Type) {A : Type} (R : A → Type) := Conf ι (Shared ι M S) (Code M R Pt)

/-- The thread is about to take `m`. -/
def Wants (c : Threads ι M S Pt R) (i : ι) (m : M) : Prop := ∃ k, c.loc i = .act (.lock m) k ∨ c.loc i = .act (.wake m) k

/-- Thread `i` is blocked on a mutex that `j` holds. -/
def Awaits (c : Threads ι M S Pt R) (i j : ι) : Prop := ∃ m, Wants c i m ∧ c.shared.held m = some j

/-! ## The discipline -/

/-- Every program of the chart starts and ends with what `At` says of its
control points, and a thread does not end at a point where it holds something. -/
structure Chart (may : A → Option M → Prop) (code : Pt → Code M R Pt) (At : Pt → Option M → Prop) : Prop where
  meets : ∀ p v, At p v → Meets (contract may) At (code p) v
  goes : ∀ p m, At p (some m) → ∃ o k, code p = .act o k

/-- Thread `i` holds `v i`, and keeps to the contract from there. -/
structure Disciplined (may : A → Option M → Prop) (At : Pt → Option M → Prop) (c : Threads ι M S Pt R) (v : ι → Option M) :
    Prop where
  loc : ∀ i, Meets (contract may) At (c.loc i) (v i)
  held : ∀ m i, c.shared.held m = some i ↔ v i = some m
  rest : ∀ i p, c.loc i = .ret p → v i = none

section
variable {may : A → Option M → Prop} {code : Pt → Code M R Pt} {At : Pt → Option M → Prop}
variable {x : ι → (a : A) → E → S → Option (R a × S)} {ok : E → Prop} {c c' : Threads ι M S Pt R} {v : ι → Option M} {i j : ι}

theorem settle_meets (hcode : Chart may code At) : ∀ {p : Code M R Pt} {w : Option M}, Meets (contract may) At p w →
    Meets (contract may) At (settle code p) w
  | .ret p, w, hp => hcode.meets p w hp
  | .act _ _, _, hp => hp

theorem settle_rest (hcode : Chart may code At) {q : Pt} : ∀ {p : Code M R Pt} {w : Option M}, Meets (contract may) At p w →
    settle code p = .ret q → w = none
  | .ret p, w, hp, hq => by
    cases w with
    | none => rfl
    | some m =>
      obtain ⟨o, k, hgo⟩ := hcode.goes p m hp
      have hact : code p = .ret q := hq
      rw [hgo] at hact
      cases hact

theorem Disciplined.one (h : Disciplined may At c v) {m n : M} (hm : c.shared.held m = some i) (hn : c.shared.held n = some i) :
    m = n := Option.some.inj (((h.held m i).mp hm).symm.trans ((h.held n i).mp hn))

theorem Disciplined.fits (h : Disciplined may At c v) {o : Op M A} {k : o.Ret R → Code M R Pt} (hi : c.loc i = .act o k) :
    o.fits may (v i) := by
  have hmeets := h.loc i
  rw [hi] at hmeets
  exact hmeets.1

/-- A thread that is about to take a mutex holds none. -/
theorem Disciplined.wants (h : Disciplined may At c v) {m : M} (hw : Wants c i m) (n : M) : c.shared.held n ≠ some i := by
  have hv : v i = none := by
    obtain ⟨k, hk | hk⟩ := hw
    · exact h.fits hk
    · exact h.fits hk
  rw [ne_eq, h.held, hv]
  nofun

/-- A thread that holds a mutex has a next operation, and does not wait for it. -/
theorem Disciplined.proceeds (h : Disciplined may At c v) {m : M} (hm : c.shared.held m = some i) :
    ∃ o k, c.loc i = .act o k ∧ ∀ n, o ≠ .lock n ∧ o ≠ .wake n := by
  have hv := (h.held m i).mp hm
  cases hloc : c.loc i with
  | ret p =>
    rw [h.rest i p hloc] at hv
    cases hv
  | act o k =>
    refine ⟨o, k, rfl, fun n => ⟨?_, ?_⟩⟩
    · rintro rfl
      exact h.wants ⟨k, Or.inl hloc⟩ m hm
    · rintro rfl
      exact h.wants ⟨k, Or.inr hloc⟩ m hm

/-- Nobody waits for a thread that itself waits. -/
theorem Disciplined.no_chain (h : Disciplined may At c v) {k : ι} (hij : Awaits c i j) (hjk : Awaits c j k) : False := by
  obtain ⟨m, -, hm⟩ := hij
  obtain ⟨n, hn, -⟩ := hjk
  exact h.wants hn m hm

theorem Disciplined.no_cycle (h : Disciplined may At c v) : ¬ Relation.TransGen (Awaits c) i i := by
  intro hcycle
  obtain ⟨j, hij, -⟩ := Relation.TransGen.head'_iff.mp hcycle
  obtain ⟨k, -, hki⟩ := Relation.TransGen.tail'_iff.mp hcycle
  exact h.no_chain hki hij

section
variable [DecidableEq M] [DecidableEq ι]

/-- What the thread holds is what is held by it. -/
theorem held_after {held : M → Option ι} (h : ∀ m i, held m = some i ↔ v i = some m) {o : Op M A} (hfit : o.fits may (v i))
    {e : E} {s s' : Shared ι M S} {r : o.Ret R} (hs : s.held = held) (hx : exec x i o e s = some (r, s')) (m : M) (j : ι) :
    s'.held m = some j ↔ Function.update v i (o.after (v i)) j = some m := by
  have taken : ∀ {n : M}, v i = none → take s n i = some ((), s') →
      (s'.held m = some j ↔ Function.update v i (some n) j = some m) := by
    intro n hv ht
    unfold take at ht
    split at ht
    · rename_i hfree
      cases ht
      simp only
      by_cases hm : m = n
      · subst hm
        rw [Function.update_self]
        by_cases hj : j = i
        · subst hj
          rw [Function.update_self]
          exact iff_of_true rfl rfl
        · rw [Function.update_of_ne hj, ← h, ← hs, hfree]
          exact iff_of_false (fun he => hj (Option.some.inj he).symm) nofun
      · rw [Function.update_of_ne hm, hs, h]
        by_cases hj : j = i
        · subst hj
          rw [Function.update_self, hv]
          exact iff_of_false nofun fun he => hm (Option.some.inj he).symm
        · rw [Function.update_of_ne hj]
    · cases ht
  have dropped : ∀ {n : M}, v i = some n → drop s n = some ((), s') →
      (s'.held m = some j ↔ Function.update v i none j = some m) := by
    intro n hv hd
    cases hd
    simp only
    by_cases hj : j = i
    · subst hj
      rw [Function.update_self]
      refine iff_of_false (fun he => ?_) nofun
      by_cases hm : m = n
      · subst hm
        rw [Function.update_self] at he
        cases he
      · rw [Function.update_of_ne hm, hs, h, hv] at he
        exact hm (Option.some.inj he).symm
    · rw [Function.update_of_ne hj, ← h, ← hs]
      by_cases hm : m = n
      · subst hm
        rw [Function.update_self, hs, (h m i).mpr hv]
        exact iff_of_false nofun fun he => hj (Option.some.inj he).symm
      · rw [Function.update_of_ne hm]
  cases o with
  | lock n | wake n => exact taken hfit hx
  | unlock n | sleep n => exact dropped hfit hx
  | act a =>
    obtain ⟨q, -, he⟩ := Option.map_eq_some_iff.mp hx
    cases he
    show s.held m = some j ↔ Function.update v i (v i) j = some m
    rw [Function.update_eq_self, hs]
    exact h m j

theorem Disciplined.step (hcode : Chart may code At) (h : Disciplined may At c v) {l : Label ι (@Op.Ret M A R)}
    (hs : Step (next code) (exec x) ok c l c') : ∃ v', Disciplined may At c' v' := by
  cases hs with
  | @mk i o k e r s' hn he hx =>
    cases hloc : c.loc i with
    | ret p => rw [hloc] at hn; cases hn
    | act o' k' =>
      rw [hloc] at hn
      cases hn
      have hmeets := h.loc i
      rw [hloc] at hmeets
      obtain ⟨hfit, hgo⟩ := hmeets
      refine ⟨Function.update v i (o.after (v i)), fun j => ?_, held_after h.held hfit rfl hx, fun j p hp => ?_⟩
      · show Meets (contract may) At (Function.update c.loc i (settle code (k' r)) j) _
        by_cases hj : j = i
        · subst hj
          rw [Function.update_self, Function.update_self]
          exact settle_meets hcode (hgo r _ rfl)
        · rw [Function.update_of_ne hj, Function.update_of_ne hj]
          exact h.loc j
      · change Function.update c.loc i (settle code (k' r)) j = _ at hp
        by_cases hj : j = i
        · subst hj
          rw [Function.update_self] at hp ⊢
          exact settle_rest hcode (hgo r _ rfl) hp
        · rw [Function.update_of_ne hj] at hp ⊢
          exact h.rest j p hp

/-- The discipline holds in every run. -/
theorem Disciplined.run (hcode : Chart may code At) (h : Disciplined may At c v) {tr : List (Label ι (@Op.Ret M A R))}
    (hr : Run (Step (next code) (exec x) ok) c tr c') : ∃ v', Disciplined may At c' v' := by
  refine hr.invariant (I := fun c => ∃ v, Disciplined may At c v) ?_ ⟨v, h⟩
  rintro c₁ l c₂ ⟨w, hw⟩ hs
  exact hw.step hcode hs

end

end

end

end Mutexes

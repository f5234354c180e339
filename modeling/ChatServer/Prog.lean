import Mathlib.Tactic

/-!
# Programs as trees of atomic actions

A program issues an action and goes on from its answer; what an action does
to the state it runs on is left to the system that executes it. `Exec` runs
a program alone, `Meets` checks it against a contract for each action, over
what the running thread knows of the state.
-/

inductive Prog {A : Type} (R : A → Type) (α : Type) where
  | ret (x : α)
  | act (a : A) (k : R a → Prog R α)

namespace Prog

variable {A : Type} {R : A → Type} {α β γ : Type}

protected def bind : Prog R α → (α → Prog R β) → Prog R β
  | .ret x, f => f x
  | .act a k, f => .act a fun r => Prog.bind (k r) f

instance : Monad (Prog R) where
  pure := .ret
  bind := Prog.bind

def op (a : A) : Prog R (R a) := .act a .ret

@[simp] theorem pure_eq (x : α) : (pure x : Prog R α) = .ret x := rfl

@[simp] theorem ret_bind (x : α) (f : α → Prog R β) : (Prog.ret x >>= f) = f x := rfl

@[simp] theorem act_bind (a : A) (k : R a → Prog R α) (f : α → Prog R β) :
    (Prog.act a k >>= f) = .act a fun r => k r >>= f := rfl

@[simp] theorem op_bind (a : A) (f : R a → Prog R β) : (op a >>= f) = .act a f := rfl

/-! ## Solo executions -/

section
variable {S : Type} (E : (a : A) → S → R a → S → Prop)

/-- `p`, run alone from `s`, issues the actions of the trace with their
answers, and returns `x` in state `s'`. -/
def Exec : Prog R α → S → List ((a : A) × R a) → α → S → Prop
  | .ret y, s, tr, x, s' => tr = [] ∧ x = y ∧ s' = s
  | .act a k, s, tr, x, s' => ∃ r s₁ tr₁, tr = ⟨a, r⟩ :: tr₁ ∧ E a s r s₁ ∧ Exec (k r) s₁ tr₁ x s'

theorem exec_bind (f : α → Prog R β) : ∀ (p : Prog R α) (s s'' : S) (tr : List ((a : A) × R a)) (y : β),
    Exec E (p >>= f) s tr y s'' ↔
      ∃ tr₁ x s' tr₂, tr = tr₁ ++ tr₂ ∧ Exec E p s tr₁ x s' ∧ Exec E (f x) s' tr₂ y s''
  | .ret z, s, s'', tr, y => by
    constructor
    · intro h; exact ⟨[], z, s, tr, rfl, ⟨rfl, rfl, rfl⟩, h⟩
    · rintro ⟨tr₁, x, s', tr₂, rfl, ⟨rfl, rfl, rfl⟩, h⟩; exact h
  | .act a k, s, s'', tr, y => by
    rw [act_bind]
    simp only [Exec]
    constructor
    · rintro ⟨r, s₁, tr', rfl, he, h⟩
      obtain ⟨tr₁, x, s', tr₂, rfl, h₁, h₂⟩ := (exec_bind f (k r) s₁ s'' tr' y).mp h
      exact ⟨⟨a, r⟩ :: tr₁, x, s', tr₂, rfl, ⟨r, s₁, tr₁, rfl, he, h₁⟩, h₂⟩
    · rintro ⟨_, x, s', tr₂, rfl, ⟨r, s₁, tr₁, rfl, he, h₁⟩, h₂⟩
      exact ⟨r, s₁, tr₁ ++ tr₂, rfl, he, (exec_bind f (k r) s₁ s'' _ y).mpr ⟨tr₁, x, s', tr₂, rfl, h₁, h₂⟩⟩

end

/-! ## Contracts -/

/-- For each action, when it may be issued and what its answer tells, both in
terms of the issuing thread's knowledge `V`. -/
structure Contract (R : A → Type) (V : Type) where
  pre : A → V → Prop
  post : (a : A) → V → R a → V → Prop

section
variable {V : Type} (C : Contract R V)

/-- Every action of the program is issued under its precondition, whatever the
earlier answers were, and `Q` holds of the result. -/
def Meets (Q : α → V → Prop) : Prog R α → V → Prop
  | .ret x, v => Q x v
  | .act a k, v => C.pre a v ∧ ∀ r v', C.post a v r v' → Meets Q (k r) v'

variable {C}

theorem Meets.mono {Q Q' : α → V → Prop} (h : ∀ x v, Q x v → Q' x v) :
    ∀ {p : Prog R α} {v : V}, Meets C Q p v → Meets C Q' p v
  | .ret x, v, hp => h x v hp
  | .act _ _, _, hp => ⟨hp.1, fun r v' hr => (hp.2 r v' hr).mono h⟩

theorem Meets.bind {Q : β → V → Prop} {f : α → Prog R β} :
    ∀ {p : Prog R α} {v : V}, Meets C (fun x v => Meets C Q (f x) v) p v → Meets C Q (p >>= f) v
  | .ret _, _, hp => hp
  | .act _ _, _, hp => ⟨hp.1, fun r v' hr => (hp.2 r v' hr).bind⟩

theorem meets_op {Q : β → V → Prop} {a : A} {k : R a → Prog R β} {v : V} (hp : C.pre a v)
    (hk : ∀ r v', C.post a v r v' → Meets C Q (k r) v') : Meets C Q (op a >>= k) v := ⟨hp, hk⟩

end

/-! ## What is left of a program -/

/-- The program comes to `q` after some of its actions, with some answers. -/
inductive Leads : Prog R α → Prog R α → Prop
  | refl (p : Prog R α) : Leads p p
  | step {p : Prog R α} {a : A} {k : R a → Prog R α} : Leads p (.act a k) → (r : R a) → Leads p (k r)

theorem Leads.behind {q : Prog R α} {a : A} {k : R a → Prog R α} (r : R a) (h : Leads (k r) q) : Leads (.act a k) q := by
  induction h with
  | refl => exact .step (.refl _) r
  | step _ r' ih => exact ih.step r'

theorem leads_bind {p q : Prog R α} (f : α → Prog R β) (h : Leads p q) : Leads (p >>= f) (q >>= f) := by
  induction h with
  | refl => exact .refl _
  | step _ r ih => exact ih.step r

/-! ## Actions still ahead -/

/-- Some answers lead the program to an action in `φ`. -/
inductive Ahead (φ : A → Prop) : Prog R α → Prop
  | here {a : A} {k : R a → Prog R α} : φ a → Ahead φ (.act a k)
  | later {a : A} {k : R a → Prog R α} (r : R a) : Ahead φ (k r) → Ahead φ (.act a k)

section
variable {φ : A → Prop}

theorem Ahead.of_leads {p q : Prog R α} (h : Leads p q) (hq : Ahead φ q) : Ahead φ p := by
  induction h with
  | refl => exact hq
  | step _ r ih => exact ih (.later r hq)

/-- What a sequence has ahead: what its first part has, and what stands behind some result of that. -/
theorem ahead_bind_iff {f : α → Prog R β} : ∀ {p : Prog R α},
    Ahead φ (p >>= f) ↔ Ahead φ p ∨ ∃ x, Leads p (.ret x) ∧ Ahead φ (f x)
  | .ret x => by
    constructor
    · exact fun h => Or.inr ⟨x, .refl _, h⟩
    · rintro (h | ⟨y, hy, h⟩)
      · cases h
      · exact Ahead.of_leads (leads_bind f hy) h
  | .act a k => by
    constructor
    · intro h
      cases h with
      | here ha => exact Or.inl (.here ha)
      | later r h =>
        rcases ahead_bind_iff.mp h with h | ⟨x, hx, h⟩
        · exact Or.inl (.later r h)
        · exact Or.inr ⟨x, hx.behind r, h⟩
    · rintro (h | ⟨x, hx, h⟩)
      · cases h with
        | here ha => exact .here ha
        | later r h => exact .later r (ahead_bind_iff.mpr (Or.inl h))
      · exact Ahead.of_leads (leads_bind f hx) h

theorem Ahead.behind {p : Prog R α} {f : α → Prog R β} {x : α} (hp : Leads p (.ret x)) (hf : Ahead φ (f x)) : Ahead φ (p >>= f) :=
  ahead_bind_iff.mpr (Or.inr ⟨x, hp, hf⟩)

theorem not_ahead_ret (x : α) : ¬ Ahead φ (.ret x : Prog R α) := by
  intro h
  cases h

theorem not_ahead_cons {a : A} {k : R a → Prog R α} (h : ¬ Ahead φ (.act a k)) : ¬ φ a ∧ ∀ r, ¬ Ahead φ (k r) :=
  ⟨fun ha => h (.here ha), fun r hr => h (.later r hr)⟩

theorem not_ahead_act {a : A} {k : R a → Prog R α} (ha : ¬ φ a) (hk : ∀ r, ¬ Ahead φ (k r)) : ¬ Ahead φ (op a >>= k) := by
  intro h
  cases h with
  | here h => exact ha h
  | later r h => exact hk r h

theorem not_ahead_bind {p : Prog R α} {f : α → Prog R β} (hp : ¬ Ahead φ p) (hf : ∀ x, ¬ Ahead φ (f x)) : ¬ Ahead φ (p >>= f) := by
  intro h
  rcases ahead_bind_iff.mp h with h | ⟨x, -, h⟩
  · exact hp h
  · exact hf x h

end

/-! ## All that a program may issue -/

def Only (φ : A → Prop) : Prog R α → Prop
  | .ret _ => True
  | .act a k => φ a ∧ ∀ r, Only φ (k r)

section
variable {φ ψ : A → Prop}

theorem Only.mono (h : ∀ a, φ a → ψ a) : ∀ {p : Prog R α}, Only φ p → Only ψ p
  | .ret _, _ => trivial
  | .act a _, hp => ⟨h a hp.1, fun r => (hp.2 r).mono h⟩

theorem Only.not_ahead (h : ∀ a, φ a → ¬ ψ a) : ∀ {p : Prog R α}, Only φ p → ¬ Ahead ψ p
  | .ret x, _ => not_ahead_ret x
  | .act a _, hp => fun ha => by
    cases ha with
    | here ha => exact h a hp.1 ha
    | later r hr => exact (hp.2 r).not_ahead h hr

theorem only_ret (x : α) : Only φ (.ret x : Prog R α) := trivial

theorem only_act {a : A} {k : R a → Prog R α} (ha : φ a) (hk : ∀ r, Only φ (k r)) : Only φ (op a >>= k) := ⟨ha, hk⟩

theorem Only.bind {f : α → Prog R β} (hf : ∀ x, Only φ (f x)) : ∀ {p : Prog R α}, Only φ p → Only φ (p >>= f)
  | .ret x, _ => hf x
  | .act _ _, hp => ⟨hp.1, fun r => (hp.2 r).bind hf⟩

/-- What may always be issued needs no knowledge. -/
theorem Only.meets {V : Type} {C : Contract R V} (h : ∀ a v, φ a → C.pre a v) :
    ∀ {p : Prog R α} {v : V}, Only φ p → Meets C (fun _ _ => True) p v
  | .ret _, _, _ => trivial
  | .act a _, v, hp => ⟨h a v hp.1, fun r _ _ => (hp.2 r).meets h⟩

end

/-! ## How long a program runs -/

/-- Whatever the answers are, the program issues at most `n` actions, all in `φ`. -/
def Within (φ : A → Prop) : Nat → Prog R α → Prop
  | _, .ret _ => True
  | 0, .act _ _ => False
  | n + 1, .act a k => φ a ∧ ∀ r, Within φ n (k r)

section
variable {φ : A → Prop} {m n : Nat}

@[simp] theorem within_ret (x : α) : Within φ n (.ret x : Prog R α) := by
  cases n <;> trivial

theorem Within.pos {a : A} {k : R a → Prog R α} (h : Within φ n (.act a k)) : φ a ∧ ∃ m, n = m + 1 ∧ ∀ r, Within φ m (k r) := by
  cases n with
  | zero => cases h
  | succ m => exact ⟨h.1, m, rfl, h.2⟩

theorem Within.mono : ∀ {p : Prog R α} {m n : Nat}, m ≤ n → Within φ m p → Within φ n p
  | .ret x, _, _, _, _ => within_ret x
  | .act _ _, _, _, hmn, h => by
    obtain ⟨ha, m', rfl, hk⟩ := h.pos
    obtain ⟨n', rfl⟩ := Nat.exists_eq_add_of_le' (Nat.lt_of_lt_of_le m'.succ_pos hmn)
    exact ⟨ha, fun r => Within.mono (Nat.le_of_succ_le_succ hmn) (hk r)⟩

theorem within_act {a : A} {k : R a → Prog R α} (ha : φ a) (hk : ∀ r, Within φ n (k r)) : Within φ (n + 1) (op a >>= k) := ⟨ha, hk⟩

theorem Within.bind {f : α → Prog R β} (hf : ∀ x, Within φ n (f x)) :
    ∀ {m : Nat} {p : Prog R α}, Within φ m p → Within φ (m + n) (p >>= f)
  | _, .ret x, _ => Within.mono (Nat.le_add_left ..) (hf x)
  | _, .act _ _, h => by
    obtain ⟨ha, m', rfl, hk⟩ := h.pos
    rw [act_bind, Nat.add_right_comm]
    exact ⟨ha, fun r => Within.bind hf (hk r)⟩

end

end Prog

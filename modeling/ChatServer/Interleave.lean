import Mathlib.Logic.Function.Basic
import Mathlib.Tactic

/-!
# Runs and interleavings

`Run` is a finite run of a labelled transition system, its last step last.
An interleaving system has threads that each offer at most one atomic action
at a time (`next`) and one shared state on which the action is executed
(`exec`), the environment's part of the answer being chosen freely. `Outline`
is the proof rule for such systems: an assertion for each thread that its own
actions carry from point to point and that no other thread disturbs.
-/

/-! ## Runs -/

section
variable {σ ℓ : Type}

inductive Run (step : σ → ℓ → σ → Prop) (s : σ) : List ℓ → σ → Prop
  | nil : Run step s [] s
  | snoc {s' s'' : σ} {tr : List ℓ} {l : ℓ} : Run step s tr s' → step s' l s'' → Run step s (tr ++ [l]) s''

namespace Run
variable {step step' : σ → ℓ → σ → Prop} {s s' : σ} {tr : List ℓ}

theorem invariant {I : σ → Prop} (hstep : ∀ s l s', I s → step s l s' → I s') (h : Run step s tr s') (hs : I s) :
    I s' := by
  induction h with
  | nil => exact hs
  | snoc _ hst ih => exact hstep _ _ _ ih hst

theorem mono (hsub : ∀ s l s', step s l s' → step' s l s') (h : Run step s tr s') : Run step' s tr s' := by
  induction h with
  | nil => exact .nil
  | snoc _ hst ih => exact .snoc ih (hsub _ _ _ hst)

theorem labelled {p : ℓ → Prop} (h : Run step s tr s') (htr : ∀ l ∈ tr, p l) : Run (fun s l s' => step s l s' ∧ p l) s tr s' := by
  induction h with
  | nil => exact .nil
  | snoc _ hst ih =>
    refine .snoc (ih fun l hl => htr l (List.mem_append_left _ hl)) ⟨hst, ?_⟩
    exact htr _ (List.mem_append_right _ (List.mem_singleton_self _))

/-- An invariant that may speak of the trace so far. -/
theorem traced {I : List ℓ → σ → Prop}
    (hstep : ∀ {tr : List ℓ} {s' s'' : σ} {l : ℓ}, Run step s tr s' → I tr s' → step s' l s'' → I (tr ++ [l]) s'')
    (h : Run step s tr s') (hs : I [] s) : I tr s' := by
  induction h with
  | nil => exact hs
  | snoc hr hst ih => exact hstep hr ih hst

/-- A check along the trace that passes keeps an invariant of its own, and says something of each step it saw. -/
theorem checked {β : Type} {next : β → ℓ → Option β} {I : List ℓ → β → Prop} {ψ : σ → ℓ → Prop}
    (hnext : ∀ {tr : List ℓ} {s' s'' : σ} {l : ℓ} {b b' : β}, Run step s tr s' → step s' l s'' → I tr b → next b l = some b' →
      ψ s' l ∧ I (tr ++ [l]) b')
    (h : Run step s tr s') {b₀ : β} (hs : I [] b₀) :
    ∀ {b : β}, tr.foldlM next b₀ = some b → Run (fun s l s' => step s l s' ∧ ψ s l) s tr s' ∧ I tr b := by
  induction h with
  | nil =>
    intro b hb
    cases hb
    exact ⟨.nil, hs⟩
  | snoc hr hst ih =>
    intro b hb
    rw [List.foldlM_append, Option.bind_eq_bind, Option.bind_eq_some_iff] at hb
    obtain ⟨b₁, hb₁, hb⟩ := hb
    obtain ⟨hrun, hI⟩ := ih hb₁
    obtain ⟨hψ, hI'⟩ := hnext hr hst hI (show next b₁ _ = some b by simpa using hb)
    exact ⟨.snoc hrun ⟨hst, hψ⟩, hI'⟩

theorem split {tr₁ tr₂ : List ℓ} (h : Run step s (tr₁ ++ tr₂) s') : ∃ s₁, Run step s tr₁ s₁ ∧ Run step s₁ tr₂ s' := by
  induction tr₂ using List.reverseRecOn generalizing s' with
  | nil => exact ⟨s', by rwa [List.append_nil] at h, .nil⟩
  | append_singleton tr₂ l ih =>
    rw [← List.append_assoc] at h
    generalize htr : tr₁ ++ tr₂ ++ [l] = tr at h
    cases h with
    | nil => exact absurd htr (by simp)
    | snoc h hst =>
      obtain ⟨rfl, hl⟩ := List.append_inj' htr rfl
      cases hl
      obtain ⟨s₁, h₁, h₂⟩ := ih h
      exact ⟨s₁, h₁, h₂.snoc hst⟩

theorem eq_of_nil (h : Run step s [] s') : s' = s := by
  generalize htr : ([] : List ℓ) = tr' at h
  cases h with
  | nil => rfl
  | snoc => exact absurd htr (by simp)

theorem uncons {l : ℓ} (h : Run step s (l :: tr) s') : ∃ s₁, step s l s₁ ∧ Run step s₁ tr s' := by
  obtain ⟨s₁, h₁, h₂⟩ := split (show Run step s ([l] ++ tr) s' from h)
  refine ⟨s₁, ?_, h₂⟩
  generalize htr : [l] = tr' at h₁
  cases h₁ with
  | nil => cases htr
  | snoc h hst =>
    obtain ⟨rfl, hl⟩ := List.append_inj' (show [] ++ [l] = _ from htr) rfl
    cases hl
    rwa [eq_of_nil h] at hst

/-- A step seen as the event `x` from `a`, or not seen at all. -/
def Seen {α ε : Type} (astep : α → ε → α → Prop) (Rel : σ → α → Prop) (a : α) (s : σ) : Option ε → Prop
  | none => Rel s a
  | some x => ∃ a', astep a x a' ∧ Rel s a'

/-- Forward simulation, step by step: what is seen of a run is a run. -/
theorem simulates {α ε : Type} {astep : α → ε → α → Prop} {Rel : σ → α → Prop} {event : ℓ → Option ε} {a₀ : α}
    (hstep : ∀ {tr : List ℓ} {s' s'' : σ} {l : ℓ} {a : α}, Run step s tr s' → Rel s' a → step s' l s'' → Seen astep Rel a s'' (event l))
    (h : Run step s tr s') (hs : Rel s a₀) : ∃ a, Run astep a₀ (tr.filterMap event) a ∧ Rel s' a := by
  induction h with
  | nil => exact ⟨a₀, .nil, hs⟩
  | @snoc s' s'' tr l hr hst ih =>
    obtain ⟨a, har, hrel⟩ := ih
    have hseen := hstep hr hrel hst
    rw [List.filterMap_append, List.filterMap_cons, List.filterMap_nil]
    cases hev : event l with
    | none =>
      rw [hev] at hseen
      rw [List.append_nil]
      exact ⟨a, har, hseen⟩
    | some x =>
      rw [hev] at hseen
      obtain ⟨a', hst', hrel'⟩ := hseen
      exact ⟨a', .snoc har hst', hrel'⟩

theorem trans {s'' : σ} {tr' : List ℓ} (h : Run step s tr s') (h' : Run step s' tr' s'') :
    Run step s (tr ++ tr') s'' := by
  induction h' with
  | nil => rwa [List.append_nil]
  | snoc _ hst ih => rw [← List.append_assoc]; exact .snoc ih hst

end Run
end

/-! ## Interleaving systems -/

namespace Interleave

structure Conf (ι S T : Type) where
  shared : S
  loc : ι → T

structure Label (ι : Type) {A : Type} (R : A → Type) where
  tid : ι
  act : A
  ret : R act

section
variable {ι A S T E : Type} {R : A → Type} [DecidableEq ι]
variable (next : T → Option ((a : A) × (R a → T)))
variable (exec : ι → (a : A) → E → S → Option (R a × S))

/-- One atomic action of one thread, under an environment choice in `ok`. -/
inductive Step (ok : E → Prop) : Conf ι S T → Label ι R → Conf ι S T → Prop
  | mk {c : Conf ι S T} {i : ι} {a : A} {k : R a → T} {e : E} {r : R a} {s' : S} :
    next (c.loc i) = some ⟨a, k⟩ → ok e → exec i a e c.shared = some (r, s') →
    Step ok c ⟨i, a, r⟩ ⟨s', Function.update c.loc i (k r)⟩

def stepWith (c : Conf ι S T) (i : ι) (e : E) : Option (Label ι R × Conf ι S T) :=
  match next (c.loc i) with
  | none => none
  | some ⟨a, k⟩ =>
    match exec i a e c.shared with
    | none => none
    | some (r, s') => some (⟨i, a, r⟩, ⟨s', Function.update c.loc i (k r)⟩)

def schedule (c : Conf ι S T) : List (ι × E) → Option (List (Label ι R) × Conf ι S T)
  | [] => some ([], c)
  | (i, e) :: es =>
    match stepWith next exec c i e with
    | none => none
    | some (l, c') => (schedule c' es).map fun q => (l :: q.1, q.2)

variable {next exec} {ok : E → Prop}

theorem Step.mono {ok' : E → Prop} {c c' : Conf ι S T} {l : Label ι R} (hs : Step next exec ok c l c') (h : ∀ e, ok e → ok' e) :
    Step next exec ok' c l c' := by
  cases hs with
  | mk hn he hx => exact .mk hn (h _ he) hx

theorem step_of_stepWith {c c' : Conf ι S T} {i : ι} {e : E} {l : Label ι R} (he : ok e)
    (h : stepWith next exec c i e = some (l, c')) : Step next exec ok c l c' := by
  unfold stepWith at h
  split at h
  · cases h
  · rename_i a k hn
    split at h
    · cases h
    · rename_i r s' hx
      cases h
      exact .mk hn he hx

theorem run_of_schedule : ∀ {es : List (ι × E)} {c c' : Conf ι S T} {tr : List (Label ι R)}, (∀ p ∈ es, ok p.2) →
    schedule next exec c es = some (tr, c') → Run (Step next exec ok) c tr c'
  | [], c, _, _, _, h => by cases h; exact .nil
  | (i, e) :: es, c, c', tr, hok, h => by
    simp only [schedule] at h
    split at h
    · cases h
    · rename_i l c₁ hs
      obtain ⟨⟨tr', c₂⟩, hes, he⟩ := Option.map_eq_some_iff.mp h
      cases he
      have htr := run_of_schedule (fun p hp => hok p (List.mem_cons_of_mem _ hp)) hes
      have h₁ : Run (Step next exec ok) c [l] c₁ := .snoc .nil (step_of_stepWith (hok (i, e) (List.mem_cons_self ..)) hs)
      exact h₁.trans htr

theorem loc_of_silent {c c' : Conf ι S T} {tr : List (Label ι R)} (hr : Run (Step next exec ok) c tr c') {i : ι}
    (hi : ∀ l ∈ tr, l.tid ≠ i) : c'.loc i = c.loc i := by
  induction hr with
  | nil => rfl
  | @snoc c₁ c₂ tr l _ hs ih =>
    have hl : l.tid ≠ i := hi l (List.mem_append_right _ (List.mem_singleton_self l))
    rw [← ih fun l hl => hi l (List.mem_append_left _ hl)]
    cases hs with
    | mk => exact Function.update_of_ne (Ne.symm hl) ..

/-- A schedule whose every step passes the check. -/
def guarded (next : T → Option ((a : A) × (R a → T))) (exec : ι → (a : A) → E → S → Option (R a × S))
    (check : Conf ι S T → Label ι R → Conf ι S T → Bool) (c : Conf ι S T) : List (ι × E) → Option (List (Label ι R) × Conf ι S T)
  | [] => some ([], c)
  | (i, e) :: es =>
    match stepWith next exec c i e with
    | none => none
    | some (l, c') => if check c l c' then (guarded next exec check c' es).map fun q => (l :: q.1, q.2) else none

theorem run_of_guarded {check : Conf ι S T → Label ι R → Conf ι S T → Bool} : ∀ {es : List (ι × E)} {c c' : Conf ι S T}
    {tr : List (Label ι R)}, (∀ p ∈ es, ok p.2) → guarded next exec check c es = some (tr, c') →
      Run (fun c l c' => Step next exec ok c l c' ∧ check c l c' = true) c tr c'
  | [], c, _, _, _, h => by cases h; exact .nil
  | (i, e) :: es, c, c', tr, hok, h => by
    simp only [guarded] at h
    split at h
    · cases h
    · rename_i l c₁ hs
      split at h
      · rename_i hchk
        obtain ⟨⟨tr', c₂⟩, hes, he⟩ := Option.map_eq_some_iff.mp h
        cases he
        have htr := run_of_guarded (fun p hp => hok p (List.mem_cons_of_mem _ hp)) hes
        have hs' := step_of_stepWith (hok (i, e) (List.mem_cons_self ..)) hs
        have h₁ : Run (fun c l c' => Step next exec ok c l c' ∧ check c l c' = true) c [l] c₁ := .snoc .nil ⟨hs', hchk⟩
        exact h₁.trans htr
      · cases h

/-- A thread that runs alone, with answers in `E`. -/
inductive Solo (next : T → Option ((a : A) × (R a → T))) (E : (a : A) → R a → Prop) : T → List ((a : A) × R a) → T → Prop
  | nil {t : T} : Solo next E t [] t
  | cons {t t' : T} {a : A} {k : R a → T} {r : R a} {tr : List ((a : A) × R a)} : next t = some ⟨a, k⟩ → E a r →
      Solo next E (k r) tr t' → Solo next E t (⟨a, r⟩ :: tr) t'

/-! ### Proof outlines -/

/-- `J` is an invariant of the shared state and `G i` the assertion of thread
`i`: kept by the thread's own actions and left alone by everyone else's. -/
structure Outline (next : T → Option ((a : A) × (R a → T))) (exec : ι → (a : A) → E → S → Option (R a × S))
    (ok : E → Prop) (J : S → Prop) (G : ι → T → S → Prop) : Prop where
  own : ∀ {i : ι} {t : T} {s : S} {a : A} {k : R a → T} {e : E} {r : R a} {s' : S}, J s → G i t s →
    next t = some ⟨a, k⟩ → ok e → exec i a e s = some (r, s') → J s' ∧ G i (k r) s'
  frame : ∀ {i j : ι} {t u : T} {s : S} {a : A} {k : R a → T} {e : E} {r : R a} {s' : S}, J s → G i t s →
    next t = some ⟨a, k⟩ → ok e → exec i a e s = some (r, s') → j ≠ i → G j u s → G j u s'

def Holds (J : S → Prop) (G : ι → T → S → Prop) (c : Conf ι S T) : Prop :=
  J c.shared ∧ ∀ i, G i (c.loc i) c.shared

variable {J : S → Prop} {G : ι → T → S → Prop}

theorem Outline.step (h : Outline next exec ok J G) {c c' : Conf ι S T} {l : Label ι R}
    (hc : Holds J G c) (hs : Step next exec ok c l c') : Holds J G c' := by
  cases hs with
  | @mk i a k e r s' hn he hx =>
    obtain ⟨hJ, hG⟩ := hc
    obtain ⟨hJ', hG'⟩ := h.own hJ (hG i) hn he hx
    refine ⟨hJ', fun j => ?_⟩
    simp only
    by_cases hj : j = i
    · subst hj; rw [Function.update_self]; exact hG'
    · rw [Function.update_of_ne hj]; exact h.frame hJ (hG i) hn he hx hj (hG j)

theorem Outline.run (h : Outline next exec ok J G) {c c' : Conf ι S T} {tr : List (Label ι R)}
    (hc : Holds J G c) (hr : Run (Step next exec ok) c tr c') : Holds J G c' :=
  hr.invariant (fun _ _ _ hi hs => h.step hi hs) hc

/-! ### Monitors -/

variable {M : Type} {upd : M → (a : A) → R a → M}

/-- What a monitor of thread `i` has reached after the trace, from `m` on. -/
def monitor (upd : M → (a : A) → R a → M) (i : ι) (m : M) (tr : List (Label ι R)) : M :=
  tr.foldl (fun m l => if l.tid = i then upd m l.act l.ret else m) m

@[simp] theorem monitor_nil (i : ι) (m : M) : monitor (R := R) upd i m [] = m := rfl

theorem monitor_snoc (i : ι) (m : M) (tr : List (Label ι R)) (l : Label ι R) : monitor upd i m (tr ++ [l]) =
    if l.tid = i then upd (monitor upd i m tr) l.act l.ret else monitor upd i m tr := by
  rw [monitor, List.foldl_append]
  rfl

theorem monitor_own (i : ι) (m : M) (tr : List (Label ι R)) (a : A) (r : R a) :
    monitor upd i m (tr ++ [⟨i, a, r⟩]) = upd (monitor upd i m tr) a r := by
  rw [monitor_snoc, if_pos rfl]

theorem monitor_other {i : ι} {l : Label ι R} (h : l.tid ≠ i) (m : M) (tr : List (Label ι R)) :
    monitor upd i m (tr ++ [l]) = monitor upd i m tr := by
  rw [monitor_snoc, if_neg h]

/-- An outline that also reads a monitor of each thread: `At` says where the
thread stands, `G` what it may rely on in the shared state. -/
structure Watch (next : T → Option ((a : A) × (R a → T))) (exec : ι → (a : A) → E → S → Option (R a × S))
    (ok : E → Prop) (upd : M → (a : A) → R a → M) (J : S → Prop) (At : ι → M → T → Prop) (G : ι → M → S → Prop) : Prop where
  own : ∀ {i : ι} {m : M} {t : T} {s : S} {a : A} {k : R a → T} {e : E} {r : R a} {s' : S}, J s → G i m s → At i m t →
    next t = some ⟨a, k⟩ → ok e → exec i a e s = some (r, s') → J s' ∧ G i (upd m a r) s' ∧ At i (upd m a r) (k r)
  frame : ∀ {i j : ι} {m n : M} {t : T} {s : S} {a : A} {k : R a → T} {e : E} {r : R a} {s' : S}, J s → G i m s →
    At i m t → next t = some ⟨a, k⟩ → ok e → exec i a e s = some (r, s') → j ≠ i → G j n s → G j n s'

structure Watched (J : S → Prop) (At : ι → M → T → Prop) (G : ι → M → S → Prop) (m : ι → M) (c : Conf ι S T) : Prop where
  shared : J c.shared
  loc : ∀ i, At i (m i) (c.loc i)
  relies : ∀ i, G i (m i) c.shared

variable {At : ι → M → T → Prop} {W : ι → M → S → Prop}

theorem Watch.step (h : Watch next exec ok upd J At W) {m : ι → M} {tr : List (Label ι R)} {c c' : Conf ι S T} {l : Label ι R}
    (hc : Watched J At W (fun i => monitor upd i (m i) tr) c) (hs : Step next exec ok c l c') :
    Watched J At W (fun i => monitor upd i (m i) (tr ++ [l])) c' := by
  cases hs with
  | @mk i a k e r s' hn he hx =>
    obtain ⟨hJ, hat, hG⟩ := hc
    obtain ⟨hJ', hG', hat'⟩ := h.own hJ (hG i) (hat i) hn he hx
    refine ⟨hJ', fun j => ?_, fun j => ?_⟩
    · show At j _ (Function.update c.loc i (k r) j)
      by_cases hj : j = i
      · subst hj
        rw [monitor_own, Function.update_self]
        exact hat'
      · rw [monitor_other (Ne.symm hj), Function.update_of_ne hj]
        exact hat j
    · by_cases hj : j = i
      · subst hj
        rw [monitor_own]
        exact hG'
      · rw [monitor_other (Ne.symm hj)]
        exact h.frame hJ (hG i) (hat i) hn he hx hj (hG j)

theorem Watch.run (h : Watch next exec ok upd J At W) {m : ι → M} {c c' : Conf ι S T} {tr : List (Label ι R)}
    (hc : Watched J At W m c) (hr : Run (Step next exec ok) c tr c') :
    Watched J At W (fun i => monitor upd i (m i) tr) c' := by
  induction hr with
  | nil => exact hc
  | snoc _ hs ih => exact h.step ih hs

/-- What every action of a thread keeps, whatever its answer. -/
theorem loc_invariant {I : T → Prop} (hstep : ∀ {t : T} {a : A} {k : R a → T} (r : R a), I t → next t = some ⟨a, k⟩ → I (k r))
    {c c' : Conf ι S T} {tr : List (Label ι R)} {i : ι} (hr : Run (Step next exec ok) c tr c') (hi : I (c.loc i)) : I (c'.loc i) := by
  induction hr with
  | nil => exact hi
  | @snoc c₁ c₂ tr l _ hs ih =>
    cases hs with
    | @mk j a k e r s' hn he hx =>
      show I (Function.update c₁.loc j (k r) i)
      by_cases hij : i = j
      · subst hij
        rw [Function.update_self]
        exact hstep r ih hn
      · rwa [Function.update_of_ne hij]

/-! ### Budgets -/

/-- What thread `i` has spent in the trace, at the price `w`. -/
def spent (w : A → Nat) (i : ι) (tr : List (Label ι R)) : Nat := ((tr.filter fun l => l.tid = i).map fun l => w l.act).sum

@[simp] theorem spent_nil (w : A → Nat) (i : ι) : spent w i ([] : List (Label ι R)) = 0 := rfl

theorem spent_own (w : A → Nat) (i : ι) (tr : List (Label ι R)) (a : A) (r : R a) : spent w i (tr ++ [⟨i, a, r⟩]) = spent w i tr + w a := by
  simp [spent, List.filter_append]

theorem spent_other (w : A → Nat) {i : ι} {l : Label ι R} (h : l.tid ≠ i) (tr : List (Label ι R)) : spent w i (tr ++ [l]) = spent w i tr := by
  simp [spent, List.filter_append, h]

theorem spent_mul (n : Nat) (w : A → Nat) (i : ι) (tr : List (Label ι R)) : spent (fun a => n * w a) i tr = n * spent w i tr :=
  List.sum_map_mul_left ..

theorem spent_zero (i : ι) (tr : List (Label ι R)) : spent (fun _ => 0) i tr = 0 := by
  simp [spent]

/-- A thread that pays each action out of its budget, or of what the action brings in, never overspends. -/
theorem spent_le (B : T → Nat → Prop) (cost gain : A → Nat) (V : (a : A) → R a → Prop)
    (hpay : ∀ {t : T} {n : Nat} {a : A} {k : R a → T} {r : R a}, B t n → next t = some ⟨a, k⟩ → V a r → ∃ m, B (k r) m ∧ cost a + m ≤ n + gain a)
    {c c' : Conf ι S T} {tr : List (Label ι R)} {i : ι} {n : Nat} (hr : Run (Step next exec ok) c tr c')
    (hv : ∀ l ∈ tr, l.tid = i → V l.act l.ret) (hB : B (c.loc i) n) :
    ∃ m, B (c'.loc i) m ∧ spent cost i tr + m ≤ n + spent gain i tr := by
  induction hr with
  | nil => exact ⟨n, hB, by simp⟩
  | @snoc c₁ c₂ tr l _ hs ih =>
    obtain ⟨m, hm, hle⟩ := ih fun l hl => hv l (List.mem_append_left _ hl)
    have hvl := hv l (List.mem_append_right _ (List.mem_singleton_self l))
    cases hs with
    | @mk j a k e r s' hn he hx =>
      by_cases hij : j = i
      · subst hij
        obtain ⟨m', hm', hpaid⟩ := hpay hm hn (hvl rfl)
        rw [spent_own, spent_own]
        refine ⟨m', ?_, by omega⟩
        show B (Function.update c₁.loc j (k r) j) m'
        rwa [Function.update_self]
      · rw [spent_other _ hij, spent_other _ hij]
        refine ⟨m, ?_, hle⟩
        show B (Function.update c₁.loc j (k r) i) m
        rwa [Function.update_of_ne (Ne.symm hij)]

end
end Interleave

import ChatServer.Interleave

/-!
# An abstract chat

What a chat is for, whatever carries it: a session proves a name, comes online
under it in the lobby, moves from room to room, says things there and leaves.
No two sessions are online under one name, and what is said is said under the
name and in the room of the moment.
-/

namespace ChatRoom

structure Saying (U R M : Type) where
  user : U
  room : R
  text : M

structure State (S U R M : Type) where
  proved : S → Option U
  online : S → Option (U × R)
  said : List (Saying U R M)

inductive Event (S U R M : Type) where
  | prove (s : S) (u : U)
  | enter (s : S)
  | move (s : S) (r : R)
  | say (s : S) (m : M)
  | leave (s : S)
  deriving DecidableEq

section
variable {S U R M : Type}

def State.empty : State S U R M := { proved := fun _ => none, online := fun _ => none, said := [] }

/-- What has been said in a room, oldest first. -/
def State.saidIn [DecidableEq R] (c : State S U R M) (r : R) : List (Saying U R M) := c.said.filter fun x => x.room = r

variable [DecidableEq S]

inductive Step (lobby : R) (c : State S U R M) : Event S U R M → State S U R M → Prop
  | prove {s : S} {u : U} : c.proved s = none →
    Step lobby c (.prove s u) { c with proved := Function.update c.proved s (some u) }
  | enter {s : S} {u : U} : c.proved s = some u → c.online s = none → (∀ t r, c.online t ≠ some (u, r)) →
    Step lobby c (.enter s) { c with online := Function.update c.online s (some (u, lobby)) }
  | move {s : S} {u : U} {r : R} (r' : R) : c.online s = some (u, r) →
    Step lobby c (.move s r') { c with online := Function.update c.online s (some (u, r')) }
  | say {s : S} {u : U} {r : R} (m : M) : c.online s = some (u, r) →
    Step lobby c (.say s m) { c with said := c.said ++ [⟨u, r, m⟩] }
  | leave {s : S} : c.online s ≠ none → Step lobby c (.leave s) { c with online := Function.update c.online s none }

/-! ## What holds in every state -/

structure State.Sound (c : State S U R M) : Prop where
  proved : ∀ s u r, c.online s = some (u, r) → c.proved s = some u
  names : ∀ s t u r r', c.online s = some (u, r) → c.online t = some (u, r') → s = t
  authors : ∀ x ∈ c.said, ∃ s, c.proved s = some x.user

theorem of_update {α : Type} {f : S → Option α} {s t : S} {x : Option α} {y : α} (h : Function.update f s x t = some y) :
    (t = s ∧ x = some y) ∨ f t = some y := by
  by_cases hts : t = s
  · subst hts
    rw [Function.update_self] at h
    exact Or.inl ⟨rfl, h⟩
  · rw [Function.update_of_ne hts] at h
    exact Or.inr h

variable {lobby : R} {c c' : State S U R M} {x : Event S U R M}

theorem Step.sound (hc : c.Sound) (h : Step lobby c x c') : c'.Sound := by
  cases h with
  | @prove s u hnone =>
    have keeps : ∀ t v, c.proved t = some v → Function.update c.proved s (some u) t = some v := by
      intro t v ht
      rwa [Function.update_of_ne]
      rintro rfl
      rw [hnone] at ht
      cases ht
    refine ⟨fun t v r ht => keeps t v (hc.proved t v r ht), hc.names, fun y hy => ?_⟩
    obtain ⟨t, ht⟩ := hc.authors y hy
    exact ⟨t, keeps t _ ht⟩
  | @enter s u hp hoff hfree =>
    refine ⟨fun t v r ht => ?_, fun t t' v r r' ht ht' => ?_, hc.authors⟩
    · rcases of_update ht with ⟨rfl, hv⟩ | hold
      · cases hv
        exact hp
      · exact hc.proved t v r hold
    · rcases of_update ht with ⟨rfl, hv⟩ | hold
      · cases hv
        exact (of_update ht').elim (fun h => h.1.symm) fun hold' => absurd hold' (hfree t' r')
      · rcases of_update ht' with ⟨rfl, hv⟩ | hold'
        · cases hv
          exact absurd hold (hfree t r)
        · exact hc.names t t' v r r' hold hold'
  | @move s u r r' hon =>
    have moved : ∀ t v q, Function.update c.online s (some (u, r')) t = some (v, q) → ∃ q', c.online t = some (v, q') := by
      intro t v q ht
      rcases of_update ht with ⟨rfl, hv⟩ | hold
      · cases hv
        exact ⟨r, hon⟩
      · exact ⟨q, hold⟩
    refine ⟨fun t v q ht => ?_, fun t t' v q q' ht ht' => ?_, hc.authors⟩
    · obtain ⟨p, hold⟩ := moved t v q ht
      exact hc.proved t v p hold
    · obtain ⟨p, hold⟩ := moved t v q ht
      obtain ⟨p', hold'⟩ := moved t' v q' ht'
      exact hc.names t t' v p p' hold hold'
  | @say s u r m hon =>
    refine ⟨hc.proved, hc.names, fun y hy => ?_⟩
    rcases List.mem_append.mp hy with hy | hy
    · exact hc.authors y hy
    · rw [List.mem_singleton.mp hy]
      exact ⟨s, hc.proved s u r hon⟩
  | @leave s hon =>
    have stays : ∀ t v q, Function.update c.online s none t = some (v, q) → c.online t = some (v, q) := by
      intro t v q ht
      rcases of_update ht with ⟨-, hv⟩ | hold
      · cases hv
      · exact hold
    exact ⟨fun t v q ht => hc.proved t v q (stays t v q ht),
      fun t t' v q q' ht ht' => hc.names t t' v q q' (stays t v q ht) (stays t' v q' ht'), hc.authors⟩

theorem run_sound {tr : List (Event S U R M)} (h : Run (Step lobby) State.empty tr c) : c.Sound :=
  h.invariant (fun _ _ _ hc hs => hs.sound hc) ⟨nofun, nofun, nofun⟩

end

end ChatRoom

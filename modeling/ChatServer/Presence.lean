import ChatServer.Delivery
import ChatServer.Feed
import ChatServer.Visits

/-!
# The events and the registry

Logging in, changing the room and leaving each update the registry and push
their events in separate steps, and in different orders. The join and leave
events of a user alternate all the same, over all of his sessions, and while
no handler is between such steps the replay of all events gives the rooms of
the registry.
-/

namespace ChatServer

open CStr Interleave Prog

/-! ## The visits of a run -/

def visitOf (q : Tid × MqMessage) : Option (Visit Tid Bytes Bytes) :=
  if q.2.type = .join then some ⟨q.1, cstr q.2.username, cstr q.2.room, true⟩
  else if q.2.type = .leave then some ⟨q.1, cstr q.2.username, cstr q.2.room, false⟩
  else none

/-- The join and leave events in the order of their `mq_push`. -/
def visits (tr : List (Label Tid Act.Ret)) : List (Visit Tid Bytes Bytes) := (pushed tr).filterMap visitOf

/-- A join or leave event that `mq_push` refused. -/
def Missed (l : Label Tid Act.Ret) : Prop :=
  ∃ tid msg, ∃ rc : ChatStatus, l = ⟨tid, .mqPush msg, rc⟩ ∧ (msg.type = .join ∨ msg.type = .leave) ∧ rc ≠ .ok

/-- Inside `AUTH`, `JOIN_ROOM` or the disconnect. -/
def Handler.Moving (h : Handler) : Prop :=
  match h.point with
  | .busy (.auth _) _ | .busy .leave _ => True
  | .busy .command p => ∃ room, (cmdHandleJoinRoom h.fd room).Leads p
  | _ => False

theorem visits_snoc (tr : List (Label Tid Act.Ret)) (l : Label Tid Act.Ret) :
    visits (tr ++ [l]) = visits tr ++ ((pushOf l).bind visitOf).toList := by
  rw [visits, pushed, filterMap_snoc, List.filterMap_append]
  congr 1
  cases pushOf l with
  | none => rfl
  | some q => cases h : visitOf q <;> simp [h]

/-! ## One step of one handler -/

namespace Phase

/-- Between the two events of a room change, or between the last event and the removal. -/
def between (u : Bytes) : Phase → Prop
  | .left _ u' _ | .moved _ u' _ => u' = u
  | _ => False

/-- The session has pushed no event yet. -/
def early : Phase → Prop
  | .unborn | .fresh _ | .checked .. | .entered .. => True
  | _ => False

/-- For the visits of `u` nothing happens. -/
structure Same (u : Bytes) (p p' : Phase) : Prop where
  present : ∀ fd room, p' = .present fd u room ↔ p = .present fd u room
  between : p'.between u → p.between u
  early : p'.early → p.early

theorem Same.refl (u : Bytes) (p : Phase) : Same u p p := ⟨fun _ _ => Iff.rfl, id, id⟩

/-- A phase outside of the rooms leads to another one. -/
theorem Same.aside {u : Bytes} {p p' : Phase} (hp : p.seat = none ∨ ∃ fd u, p = .entered fd u)
    (hp' : p'.seat = none ∨ ∃ fd u, p' = .entered fd u) (he : p'.early → p.early) : Same u p p' := by
  have absent : ∀ {p : Phase}, (p.seat = none ∨ ∃ fd u, p = .entered fd u) → (∀ fd room, p ≠ .present fd u room) ∧ ¬ p.between u := by
    rintro p (h | ⟨fd, u, rfl⟩)
    · cases p with
      | entered | present | left | moved => cases h
      | _ => exact ⟨nofun, id⟩
    · exact ⟨nofun, id⟩
  exact ⟨fun fd room => iff_of_false ((absent hp').1 fd room) ((absent hp).1 fd room), fun h => absurd h (absent hp').2, he⟩

theorem next_same {T : Prop} {p : Phase} {a : Act} (hpush : ∀ msg, a ≠ .mqPush msg) (ha : allowed T a p.view) (hp : p.permits T a)
    (r : a.Ret) (u : Bytes) : Same u p (p.next a r) := by
  cases a with
  | mqPush msg => exact absurd rfl (hpush msg)
  | start =>
    obtain rfl := unborn_of_view ha
    exact .aside (Or.inl rfl) (Or.inl rfl) fun _ => trivial
  | running =>
    change Bool at r
    cases p with
    | idle => cases r <;> exact .aside (Or.inl rfl) (Or.inl rfl) id
    | _ => exact .refl u _
  | accept =>
    obtain rfl : p = .idle := hp
    change Option (Int × Nat) at r
    cases r <;> exact .aside (Or.inl rfl) (Or.inl rfl) id
  | connAtCapacity =>
    obtain ⟨fd, id, rfl⟩ := hp
    change Bool at r
    cases r <;> exact .aside (Or.inl rfl) (Or.inl rfl) fun h => h
  | connTrackIncrement =>
    obtain ⟨fd, id, rfl⟩ := hp
    exact .aside (Or.inl rfl) (Or.inl rfl) fun h => h
  | spawn fd id =>
    obtain rfl : p = .counted fd id := hp
    change Bool at r
    cases r <;> exact .aside (Or.inl rfl) (Or.inl rfl) fun h => h
  | close =>
    cases p with
    | refused | counted | fresh | checked | removed => exact .aside (Or.inl rfl) (Or.inl rfl) False.elim
    | _ => cases hp
  | connTrackDecrement =>
    rcases hp with rfl | ⟨id, rfl⟩
    · exact .aside (Or.inl rfl) (Or.inl rfl) False.elim
    · exact .aside (Or.inl rfl) (Or.inl rfl) False.elim
  | authVerify =>
    obtain ⟨fd, h⟩ := ha
    obtain rfl := fresh_of_view h
    change ChatStatus at r
    refine .aside (Or.inl rfl) (Or.inl ?_) fun _ => trivial
    show (if r = .ok then _ else _ : Phase).seat = none
    split <;> rfl
  | registryAdd =>
    obtain ⟨rfl, -⟩ := hp
    change ChatStatus at r
    refine .aside (Or.inl rfl) ?_ fun _ => trivial
    show (if r = .ok then _ else _ : Phase).seat = none ∨ ∃ fd u, (if r = .ok then _ else _ : Phase) = _
    split
    · exact Or.inr ⟨_, _, rfl⟩
    · exact Or.inl rfl
  | registryRemove =>
    obtain ⟨fd, u', rfl | ⟨room, rfl⟩⟩ := hp
    · exact .aside (Or.inr ⟨fd, u', rfl⟩) (Or.inl rfl) False.elim
    · exact ⟨fun _ _ => iff_of_false nofun nofun, False.elim, False.elim⟩
  | registrySetRoom =>
    obtain ⟨-, fd, u', old, rfl⟩ := hp
    exact ⟨fun _ _ => iff_of_false nofun nofun, id, False.elim⟩
  | _ => exact .refl u p

/-- What a step of its thread does to the visits. -/
inductive Takes (tid : Tid) : Phase → Option (Visit Tid Bytes Bytes) → Phase → Prop
  | quiet {p p' : Phase} : (∀ u, Same u p p') → Takes tid p none p'
  | arrive (fd : Int) (u : Bytes) : Takes tid (.entered fd u) (some ⟨tid, u, defaultRoom, true⟩) (.present fd u defaultRoom)
  | move (fd : Int) (u room : Bytes) : Takes tid (.moved fd u room) (some ⟨tid, u, room, true⟩) (.present fd u room)
  | leave (fd : Int) (u room : Bytes) : Takes tid (.present fd u room) (some ⟨tid, u, room, false⟩) (.left fd u room)

theorem next_takes {tid : Tid} {σ : Stage} {a : Act} {r : a.Ret} (hp : σ.permits True a) (hm : ¬ Missed ⟨tid, a, r⟩) :
    Takes tid σ.phase ((pushOf ⟨tid, a, r⟩).bind visitOf) (σ.next a r).phase := by
  obtain ⟨ha, hp, -⟩ := hp
  obtain ⟨p, q⟩ := σ
  cases a with
  | mqPush msg =>
    change ChatStatus at r
    change p.pushes True msg at hp
    show Takes tid p (((if r = .ok then some (tid, msg) else none) : Option (Tid × MqMessage)).bind visitOf) (p.onPush msg.type)
    have hquiet : msg.type ≠ .join → msg.type ≠ .leave →
        ((if r = .ok then some (tid, msg) else none) : Option (Tid × MqMessage)).bind visitOf = none := by
      intro hj hl
      split
      · exact (if_neg hj).trans (if_neg hl)
      · rfl
    have hok : msg.type = .join ∨ msg.type = .leave → r = .ok :=
      fun ht => Classical.byContradiction fun hrc => hm ⟨tid, msg, r, rfl, ht, hrc⟩
    have hjoin : msg.type = .join → Takes tid p (some ⟨tid, cstr msg.username, cstr msg.room, true⟩) (p.onPush .join) →
        Takes tid p (((if r = .ok then some (tid, msg) else none) : Option (Tid × MqMessage)).bind visitOf) (p.onPush msg.type) := by
      intro ht h
      have hv : visitOf (tid, msg) = some ⟨tid, cstr msg.username, cstr msg.room, true⟩ := if_pos ht
      rw [if_pos (hok (Or.inl ht)), Option.bind_some, hv, ht]
      exact h
    cases p with
    | entered fd u =>
      obtain ⟨ht, hroom⟩ := hp
      refine hjoin ht ?_
      rw [show cstr msg.username = u from ha trivial, hroom trivial]
      exact .arrive fd u
    | moved fd u room =>
      obtain ⟨ht, hroom⟩ := hp
      refine hjoin ht ?_
      rw [show cstr msg.username = u from ha trivial, hroom trivial]
      exact .move fd u room
    | present fd u room =>
      rcases hp with ht | ⟨ht, hroom⟩
      · rw [hquiet (by rw [ht]; nofun) (by rw [ht]; nofun), ht]
        exact .quiet fun u => .refl u _
      · have hv : visitOf (tid, msg) = some ⟨tid, u, room, false⟩ := by
          rw [visitOf, if_neg (by rw [ht]; nofun), if_pos ht, hroom trivial, show cstr msg.username = u from ha trivial]
        rw [if_pos (hok (Or.inr ht)), Option.bind_some, hv, ht]
        exact .leave fd u room
    | ending =>
      change msg.type = .shutdown at hp
      rw [hquiet (by rw [hp]; nofun) (by rw [hp]; nofun)]
      exact .quiet fun u => .refl u _
    | _ => cases hp
  | _ => exact .quiet fun u => next_same (fun _ h => by cases h) ha hp r u

end Phase

theorem online_unique {s : Server} (hi : Inv True s) {tid tid' : Tid} {fd fd' : Int} {u : Bytes} (hs : Sat tid (.online fd u) s)
    (hs' : Sat tid' (.online fd' u) s) : tid = tid' := by
  cases tid with
  | main | broadcaster | signal => cases hs
  | handler i =>
    cases tid' with
    | main | broadcaster | signal => cases hs'
    | handler j =>
      obtain ⟨hc, -, n, hn, hfd, hu⟩ := hs
      obtain ⟨hc', -, n', hn', hfd', hu'⟩ := hs'
      obtain rfl : n = n' := List.inj_on_of_nodup_map (hi.2 trivial).names hn hn' (hu.trans hu'.symm)
      have hconn := hi.1.conn_fd hc hc' (hfd.symm.trans hfd')
      exact congrArg Tid.handler (congrArg Conn.id hconn)

/-! ## The visits of one user -/

/-- The stages of all threads, against the visits of `u` so far. -/
structure Attends (tr : List (Label Tid Act.Ret)) (u : Bytes) (now : Option (Visit Tid Bytes Bytes)) : Prop where
  alternates : Visit.Alternates defaultRoom (Visit.ofKey (visits tr) u) now
  present : ∀ tid fd room, (stageOf tr tid).phase = .present fd u room → now = some ⟨tid, u, room, true⟩
  now : ∀ v, now = some v → ∃ fd, (stageOf tr v.session).phase = .present fd u v.place
  between : ∀ tid, (stageOf tr tid).phase.between u → ∃ v, (Visit.ofKey (visits tr) u).getLast? = some v ∧ v.session = tid
  early : ∀ tid, (stageOf tr tid).phase.early → ∀ v ∈ Visit.ofKey (visits tr) u, v.session ≠ tid

section
variable {P : Platform} {ok : Env → Prop} {db : AuthDb} {tr : List (Label Tid Act.Ret)} {c c' : System} {l : Label Tid Act.Ret}
variable {u : Bytes} {now : Option (Visit Tid Bytes Bytes)}

theorem init_attends (u : Bytes) : Attends [] u none := by
  refine ⟨.nil, ?_, nofun, ?_, fun _ _ => nofun⟩
  · intro tid fd room h
    cases tid <;> cases h
  · intro tid h
    cases tid <;> cases h

theorem Attends.frame (h : Attends tr u now) (hv : Visit.ofKey (visits (tr ++ [l])) u = Visit.ofKey (visits tr) u)
    (hs : Phase.Same u (stageOf tr l.tid).phase (stageOf (tr ++ [l]) l.tid).phase) : Attends (tr ++ [l]) u now := by
  have same : ∀ tid, Phase.Same u (stageOf tr tid).phase (stageOf (tr ++ [l]) tid).phase := by
    intro tid
    by_cases htid : l.tid = tid
    · exact htid ▸ hs
    · rw [stageOf_other htid]
      exact .refl u _
  refine ⟨hv ▸ h.alternates, ?_, ?_, ?_, ?_⟩
  · intro tid fd room hp
    exact h.present tid fd room (((same tid).present fd room).mp hp)
  · intro v hnow
    obtain ⟨fd, hp⟩ := h.now v hnow
    exact ⟨fd, ((same v.session).present fd v.place).mpr hp⟩
  · intro tid hp
    rw [hv]
    exact h.between tid ((same tid).between hp)
  · intro tid hp
    rw [hv]
    exact h.early tid ((same tid).early hp)

variable (hc : Staged True tr c)
include hc

/-- Nobody else is logged in under the name. -/
theorem Attends.alone {tid tid' : Tid} {fd fd' : Int} (hp : (stageOf tr tid).phase.view = .online fd u)
    (hp' : (stageOf tr tid').phase.view = .online fd' u) : tid = tid' :=
  online_unique hc.shared (hp ▸ (hc.relies tid).sat) (hp' ▸ (hc.relies tid').sat)

/-- A visit of its own user changes the stage of nobody else. -/
theorem Attends.push (h : Attends tr u now) {fd : Int} (hview : (stageOf tr l.tid).phase.view = .online fd u)
    (hlate : ¬ (stageOf (tr ++ [l]) l.tid).phase.early) {v : Visit Tid Bytes Bytes} (hv : v.session = l.tid)
    (hvs : Visit.ofKey (visits (tr ++ [l])) u = Visit.ofKey (visits tr) u ++ [v]) {now' : Option (Visit Tid Bytes Bytes)}
    (halt : Visit.Alternates defaultRoom (Visit.ofKey (visits tr) u ++ [v]) now')
    (hpresent : ∀ fd room, (stageOf (tr ++ [l]) l.tid).phase = .present fd u room → now' = some ⟨l.tid, u, room, true⟩)
    (hnow : ∀ v, now' = some v → ∃ fd, (stageOf (tr ++ [l]) v.session).phase = .present fd u v.place) :
    Attends (tr ++ [l]) u now' := by
  refine ⟨hvs ▸ halt, ?_, hnow, ?_, ?_⟩
  · intro tid fd' room htid
    by_cases hl : l.tid = tid
    · subst hl
      exact hpresent fd' room htid
    · rw [stageOf_other hl] at htid
      exact absurd (alone hc hview (by rw [htid]; rfl)) hl
  · intro tid hb
    rw [hvs, List.getLast?_concat]
    refine ⟨v, rfl, hv.trans ?_⟩
    by_cases hl : l.tid = tid
    · exact hl
    · rw [stageOf_other hl] at hb
      cases htid : (stageOf tr tid).phase with
      | left fd' u' room' | moved fd' u' room' =>
        rw [htid] at hb
        obtain rfl : u' = u := hb
        exact alone hc hview (by rw [htid]; rfl)
      | _ => rw [htid] at hb; cases hb
  · intro tid he w hmem
    have hl : l.tid ≠ tid := by
      rintro rfl
      exact hlate he
    rw [stageOf_other hl] at he
    rw [hvs] at hmem
    rcases List.mem_append.mp hmem with hmem | hmem
    · exact h.early tid he w hmem
    · rw [List.mem_singleton.mp hmem, hv]
      exact hl

/-- Whoever is about to push a join event has left every room before. -/
theorem Attends.absent (h : Attends tr u now) {tid : Tid} {fd : Int} (hview : (stageOf tr tid).phase.view = .online fd u)
    (hp : ∀ fd room, (stageOf tr tid).phase ≠ .present fd u room) : now = none := by
  cases hnow : now with
  | none => rfl
  | some v =>
    obtain ⟨fd', hpv⟩ := h.now v hnow
    have htid : tid = v.session := alone hc hview (by rw [hpv]; rfl)
    exact absurd (htid ▸ hpv) (hp fd' v.place)

theorem Attends.enter (h : Attends tr u none) {fd : Int} {room : Bytes} (hview : (stageOf tr l.tid).phase.view = .online fd u)
    (hp : (stageOf (tr ++ [l]) l.tid).phase = .present fd u room)
    (hvs : Visit.ofKey (visits (tr ++ [l])) u = Visit.ofKey (visits tr) u ++ [⟨l.tid, u, room, true⟩])
    (halt : Visit.Alternates defaultRoom (Visit.ofKey (visits tr) u ++ [⟨l.tid, u, room, true⟩]) (some ⟨l.tid, u, room, true⟩)) :
    Attends (tr ++ [l]) u (some ⟨l.tid, u, room, true⟩) := by
  refine h.push hc hview (by rw [hp]; exact id) rfl hvs halt ?_ ?_
  · intro fd' room' hp'
    cases hp'.symm.trans hp
    rfl
  · rintro v ⟨⟩
    exact ⟨fd, hp⟩

theorem Attends.leave (h : Attends tr u now) {fd : Int} {room : Bytes} (hp : (stageOf tr l.tid).phase = .present fd u room)
    (hp' : (stageOf (tr ++ [l]) l.tid).phase = .left fd u room)
    (hvs : Visit.ofKey (visits (tr ++ [l])) u = Visit.ofKey (visits tr) u ++ [⟨l.tid, u, room, false⟩]) :
    Attends (tr ++ [l]) u none := by
  obtain rfl := h.present l.tid fd room hp
  refine h.push hc (show _ = View.online fd u by rw [hp]; rfl) (by rw [hp']; exact id) rfl hvs (.leave h.alternates rfl rfl rfl) ?_ nofun
  intro fd' room' h'
  cases h'.symm.trans hp'

theorem Attends.step (h : Attends tr u now) (hs : System.Step P ok c l c') (hm : ¬ Missed l) : ∃ now, Attends (tr ++ [l]) u now := by
  obtain ⟨tid, a, r⟩ := l
  have htakes := Phase.next_takes (hc.step hs).1 hm
  have hvs := visits_snoc tr ⟨tid, a, r⟩
  rw [← stageOf_own] at htakes
  generalize hp : (stageOf tr tid).phase = p at htakes
  generalize hp' : (stageOf (tr ++ [⟨tid, a, r⟩]) tid).phase = p' at htakes
  generalize (pushOf ⟨tid, a, r⟩).bind visitOf = v at htakes hvs
  -- a step of another user
  have other : (∀ w ∈ v, w.key ≠ u) → Phase.Same u p p' → Attends (tr ++ [⟨tid, a, r⟩]) u now := by
    intro hw hsame
    refine h.frame ?_ (by rw [hp, hp']; exact hsame)
    rw [hvs]
    cases v with
    | none => rw [Option.toList_none, List.append_nil]
    | some w => rw [Option.toList_some, Visit.ofKey_snoc, if_neg (hw w rfl), List.append_nil]
  have own : ∀ {w : Visit Tid Bytes Bytes}, v = some w → w.key = u →
      Visit.ofKey (visits (tr ++ [⟨tid, a, r⟩])) u = Visit.ofKey (visits tr) u ++ [w] := by
    rintro w rfl hw
    rw [hvs, Option.toList_some, Visit.ofKey_snoc, if_pos hw]
  cases htakes with
  | quiet hsame => exact ⟨now, other nofun (hsame u)⟩
  | arrive fd u' =>
    by_cases hu : u' = u
    · subst hu
      have hview : (stageOf tr tid).phase.view = .online fd u' := by rw [hp]; rfl
      obtain rfl := h.absent hc hview (by rw [hp]; exact fun _ _ => nofun)
      exact ⟨_, h.enter hc hview hp' (own rfl rfl) (.arrive h.alternates (h.early tid (by rw [hp]; trivial)) rfl rfl)⟩
    · refine ⟨now, other (by rintro w ⟨⟩; exact hu) ⟨fun _ _ => iff_of_false ?_ nofun, False.elim, fun _ => trivial⟩⟩
      rintro ⟨⟩
      exact hu rfl
  | move fd u' room =>
    by_cases hu : u' = u
    · subst hu
      have hview : (stageOf tr tid).phase.view = .online fd u' := by rw [hp]; rfl
      obtain rfl := h.absent hc hview (by rw [hp]; exact fun _ _ => nofun)
      obtain ⟨w, hlast, hw⟩ := h.between tid (by rw [hp]; rfl)
      exact ⟨_, h.enter hc hview hp' (own rfl rfl) (.move h.alternates hlast hw rfl)⟩
    · refine ⟨now, other (by rintro w ⟨⟩; exact hu) ⟨fun _ _ => iff_of_false ?_ nofun, False.elim, False.elim⟩⟩
      rintro ⟨⟩
      exact hu rfl
  | leave fd u' room =>
    by_cases hu : u' = u
    · subst hu
      exact ⟨none, h.leave hc hp hp' (own rfl rfl)⟩
    · refine ⟨now, other (by rintro w ⟨⟩; exact hu) ⟨fun _ _ => iff_of_false nofun ?_, fun h => absurd h hu, False.elim⟩⟩
      rintro ⟨⟩
      exact hu rfl

end

theorem run_attends {P : Platform} {db : AuthDb} {tr : List (Label Tid Act.Ret)} {c : System}
    (hr : Run (System.Step P Env.Terminated) (System.init db) tr c) (hm : ∀ l ∈ tr, ¬ Missed l) (u : Bytes) :
    ∃ now, Attends tr u now := by
  induction hr with
  | nil => exact ⟨none, init_attends u⟩
  | @snoc c c' tr l hr hs ih =>
    obtain ⟨now, h⟩ := ih fun l hl => hm l (List.mem_append_left _ hl)
    exact h.step (run_staged (fun _ he _ => he) hr) hs (hm l (List.mem_append_right _ (List.mem_singleton_self l)))

/-! ## Between the steps -/

/-- Actions that can take a handler out of the room where it is. -/
def Turns : Act → Prop
  | .start | .close _ | .authVerify .. | .registryAdd .. | .registryRemove _ | .registrySetRoom .. => True
  | .mqPush msg => msg.type ≠ .chat
  | _ => False

def Phase.home : Phase → Prop
  | .fresh _ | .present .. => True
  | _ => False

theorem Phase.next_home {T : Prop} {p : Phase} (hp : p.home) {a : Act} (ha : p.permits T a) (ht : ¬ Turns a) (r : a.Ret) :
    p.next a r = p := by
  cases a with
  | start | close | authVerify | registryAdd | registryRemove | registrySetRoom => exact absurd trivial ht
  | mqPush msg =>
    have htype : msg.type = .chat := Classical.not_not.mp ht
    cases p with
    | present fd u room =>
      show (if msg.type = .leave then Phase.left fd u room else .present fd u room) = _
      rw [if_neg (by rw [htype]; nofun)]
    | fresh => rfl
    | _ => cases hp
  | running | connAtCapacity | connTrackIncrement | connTrackDecrement | spawn =>
    cases p with
    | fresh | present => rfl
    | _ => cases hp
  | accept =>
    obtain rfl : p = .idle := ha
    cases hp
  | _ => rfl

section
variable (fd : Int)

theorem reply_steady (line : Bytes) : ¬ Ahead Turns (cmdSendResponse fd line) := sendAll_not_ahead (fun _ _ _ => id) fd line

theorem err_steady (msg : String) : ¬ Ahead Turns (respondErr fd msg) := reply_steady fd _

theorem ok_steady (msg : String) : ¬ Ahead Turns (respondOk fd msg) := reply_steady fd _

theorem cmdHandleMsg_steady (content : Bytes) : ¬ Ahead Turns (cmdHandleMsg fd content) := by
  unfold cmdHandleMsg
  refine not_ahead_act id fun ⟨rc, username⟩ => ?_
  show ¬ Ahead Turns (if rc ≠ .ok then _ else _)
  split
  · exact err_steady fd _
  refine not_ahead_act id fun ⟨rc, room⟩ => ?_
  show ¬ Ahead Turns (if rc ≠ .ok then _ else _)
  split
  · exact not_ahead_ret _
  split
  · exact err_steady fd _
  refine not_ahead_act id fun now => not_ahead_act id fun _ => not_ahead_act id fun evt => ?_
  refine not_ahead_act (not_not_intro rfl) fun rc => ?_
  split
  · exact err_steady fd _
  · exact ok_steady fd _

theorem cmdHandlePm_steady (P : Platform) (target content : Bytes) : ¬ Ahead Turns (cmdHandlePm P fd target content) := by
  unfold cmdHandlePm
  refine not_ahead_act id fun ⟨rc, sender⟩ => ?_
  show ¬ Ahead Turns (if rc ≠ .ok then _ else _)
  split
  · exact err_steady fd _
  split
  · exact err_steady fd _
  split
  · exact err_steady fd _
  refine not_ahead_act id fun targetFd => ?_
  split
  · exact err_steady fd _
  refine not_ahead_act id fun now => not_ahead_bind (reply_steady targetFd _) fun rc => ?_
  split
  · exact err_steady fd _
  · exact ok_steady fd _

theorem cmdHandleList_steady : ¬ Ahead Turns (cmdHandleList fd) := by
  unfold cmdHandleList
  refine not_ahead_act id fun ⟨rc, username⟩ => ?_
  show ¬ Ahead Turns (if rc ≠ .ok then _ else _)
  split
  · exact err_steady fd _
  refine not_ahead_act id fun ⟨rc, users⟩ => ?_
  show ¬ Ahead Turns (if rc ≠ .ok then _ else _)
  split
  · exact err_steady fd _
  · exact reply_steady fd _

theorem cmdHandleHistory_steady : ¬ Ahead Turns (cmdHandleHistory fd) := by
  unfold cmdHandleHistory
  refine not_ahead_act id fun ⟨rc, username⟩ => ?_
  show ¬ Ahead Turns (if rc ≠ .ok then _ else _)
  split
  · exact err_steady fd _
  refine not_ahead_act id fun ⟨rc, room⟩ => ?_
  show ¬ Ahead Turns (if rc ≠ .ok then _ else _)
  split
  · exact not_ahead_ret _
  refine not_ahead_bind (roomHistorySend_not_ahead (fun _ _ _ => id) (fun _ _ => id) room fd) fun rc => ?_
  split
  · exact err_steady fd _
  · exact ok_steady fd _

theorem cmdHandleKick_steady (target : Bytes) : ¬ Ahead Turns (cmdHandleKick fd target) := by
  unfold cmdHandleKick
  refine not_ahead_act id fun isAdmin => ?_
  split
  · exact err_steady fd _
  split
  · exact err_steady fd _
  refine not_ahead_act id fun ⟨rc, admin⟩ => ?_
  show ¬ Ahead Turns (if rc = .ok ∧ admin = target then _ else _)
  split
  · exact err_steady fd _
  refine not_ahead_act id fun targetFd => ?_
  split
  · exact err_steady fd _
  exact not_ahead_bind (reply_steady targetFd _) fun _ => not_ahead_act id fun _ => ok_steady fd _

end

namespace Handler

/-- A handler in a command changes its room, or stays where it was when the command came. -/
def Placed (h : Handler) (p : Phase) : Prop :=
  match h.point with
  | .busy .command x => (∃ room, (cmdHandleJoinRoom h.fd room).Leads x) ∨ (¬ Ahead Turns x ∧ p.home)
  | _ => True

section
variable {h : Handler} {p : Phase}

theorem enter_placed {x : Cmd ChatStatus} (hx : (∃ room, (cmdHandleJoinRoom h.fd room).Leads x) ∨ (¬ Ahead Turns x ∧ p.home)) :
    (h.enter .command x).Placed p := by
  cases x with
  | act => exact hx
  | ret rc =>
    show (if rc ≠ .ok then h.leave else { h with point := .top }).Placed p
    split <;> trivial

theorem enter_auth_placed (u : Bytes) : ∀ x : Cmd ChatStatus, (h.enter (.auth u) x).Placed p
  | .act _ _ => trivial
  | .ret rc => by
    show (if rc ≠ .ok then h.leave else _).Placed p
    split <;> trivial

theorem enter_leave_placed : ∀ x : Cmd ChatStatus, (h.enter .leave x).Placed p
  | .act _ _ => trivial
  | .ret _ => trivial

theorem dispatch_placed (P : Platform) (line : Bytes) (hp : p.home) : (h.dispatch P line).Placed p := by
  have steady : ∀ {x : Cmd ChatStatus}, ¬ Ahead Turns x → (h.enter .command x).Placed p := fun hx => enter_placed (Or.inr ⟨hx, hp⟩)
  have refused : ∀ msg, (h.refuse msg).Placed p := fun msg => steady (err_steady h.fd msg)
  unfold dispatch
  rcases protocolParseClientLine line with ⟨rc, cmd⟩
  simp only
  split
  · exact refused _
  split
  · split
    · exact refused _
    · exact enter_auth_placed _ _
  split
  · exact enter_placed (Or.inl ⟨_, .refl _⟩)
  · exact steady (cmdHandleMsg_steady h.fd _)
  · exact steady (cmdHandlePm_steady h.fd P _ _)
  · exact steady (cmdHandleList_steady h.fd)
  · exact steady (cmdHandleHistory_steady h.fd)
  · exact steady (cmdHandleKick_steady h.fd _)
  · trivial
  · exact refused _

theorem home_of {σ : Stage} (hh : h.Home σ) : σ.phase.home := by
  have hp := hh.1
  split at hp
  · obtain ⟨room, hp⟩ := hp
    rw [hp]
    trivial
  · rw [hp]
    trivial

theorem placed_next {T : Prop} {P : Platform} {σ : Stage} (hat : h.At T σ) (hplaced : h.Placed σ.phase) {a : Act} {k : a.Ret → Handler}
    (hn : h.next P = some ⟨a, k⟩) (r : a.Ret) : (k r).Placed (σ.next a r).phase := by
  have hperm := (at_next hat hn).1
  obtain ⟨-, hp⟩ := hat
  unfold next at hn
  unfold Placed at hplaced
  cases hpoint : h.point with
  | unborn =>
    rw [hpoint] at hn
    cases hn
    trivial
  | top =>
    rw [hpoint] at hn
    cases hn
    change Bool at r
    cases r <;> trivial
  | reading =>
    rw [hpoint] at hn hp
    cases hn
    change Option Bytes at r
    cases r with
    | none => trivial
    | some line =>
      have hhome : σ.phase.home := home_of (σ := σ) hp
      exact dispatch_placed P line hhome
  | done => rw [hpoint] at hn; cases hn
  | busy cont x =>
    cases x with
    | ret => rw [hpoint] at hn; cases hn
    | act b kb =>
      rw [hpoint] at hn hplaced
      cases hn
      obtain ⟨t, he⟩ := h.note_eq a r
      show ((h.note a r).enter cont (kb r)).Placed _
      rw [he]
      cases cont with
      | auth u => exact enter_auth_placed u _
      | leave => exact enter_leave_placed _
      | command =>
        apply enter_placed (h := { h with target := t })
        rcases hplaced with ⟨room, hlead⟩ | ⟨hsteady, hhome⟩
        · exact Or.inl ⟨room, hlead.step r⟩
        · have hstay : (σ.next a r).phase = σ.phase := Phase.next_home hhome hperm.phase (fun ht => hsteady (.here ht)) r
          rw [hstay]
          exact Or.inr ⟨fun hl => hsteady (.later r hl), hhome⟩

/-- A handler that is between the steps of no command is in the room that it has told of. -/
theorem present_of_placed {T : Prop} {σ : Stage} (hat : h.At T σ) (hplaced : h.Placed σ.phase) (hm : ¬ h.Moving) {fd : Int} {u : Bytes}
    (hv : σ.phase.view = .online fd u) : ∃ room, σ.phase = .present fd u room := by
  have home : σ.phase.home → ∃ room, σ.phase = .present fd u room := by
    intro hhome
    cases hp : σ.phase with
    | present fd' u' room =>
      rw [hp] at hv
      cases hv
      exact ⟨room, rfl⟩
    | fresh => rw [hp] at hv; cases hv
    | _ => rw [hp] at hhome; cases hhome
  obtain ⟨-, hp⟩ := hat
  unfold Placed at hplaced
  unfold Moving at hm
  cases hpoint : h.point with
  | unborn =>
    rw [hpoint] at hp
    rw [hp.2.1] at hv
    cases hv
  | top | reading =>
    rw [hpoint] at hp
    exact home (home_of hp)
  | done =>
    rw [hpoint] at hp
    rw [hp.1] at hv
    cases hv
  | busy cont x =>
    rw [hpoint] at hm hplaced
    cases cont with
    | auth | leave => exact absurd trivial hm
    | command => exact home (hplaced.resolve_left hm).2

end
end Handler

theorem run_placed {P : Platform} {ok : Env → Prop} {db : AuthDb} {tr : List (Label Tid Act.Ret)} {c : System}
    (hr : Run (System.Step P ok) (System.init db) tr c) {i : Nat} {h : Handler} (hh : c.handler i = some h) :
    h.Placed (stageOf tr (.handler i)).phase := by
  induction hr generalizing h with
  | nil =>
    cases System.handler_eq.mp hh
    trivial
  | @snoc c c' tr l hr hs ih =>
    have hc : Staged False tr c := run_staged (fun _ _ => False.elim) hr
    cases hs with
    | @mk tid a k e r s' hn he hx =>
      have hloc : Function.update c.loc tid (k r) (.handler i) = .handler h := System.handler_eq.mp hh
      by_cases htid : tid = .handler i
      · subst htid
        rw [Function.update_self] at hloc
        have hat := hc.loc (.handler i)
        cases hthread : c.loc (.handler i) with
        | handler h₀ =>
          rw [hthread] at hn hat
          obtain ⟨⟨b, kb⟩, hb, heq⟩ := Option.map_eq_some_iff.mp hn
          cases heq
          cases hloc
          rw [stageOf_own]
          exact Handler.placed_next hat (ih (System.handler_eq.mpr hthread)) hb r
        | _ => rw [hthread] at hat; cases hat
      · rw [Function.update_of_ne (Ne.symm htid)] at hloc
        rw [stageOf_other htid]
        exact ih (System.handler_eq.mpr hloc)

section
variable {P : Platform} {db : AuthDb} {tr : List (Label Tid Act.Ret)} {c : System}

/-- The users whose visit goes on are those who have a node, and are in its room. -/
theorem Attends.registered {u : Bytes} {now : Option (Visit Tid Bytes Bytes)} (hc : Staged True tr c) (h : Attends tr u now)
    (hplaced : ∀ i fd, (stageOf tr (.handler i)).phase.view = .online fd u → ∃ room, (stageOf tr (.handler i)).phase = .present fd u room)
    (room : Bytes) : now.map Visit.place = some room ↔ ∃ n ∈ c.shared.registry.nodes, cstr n.username = u ∧ cstr n.room = room := by
  have hi := hc.shared
  constructor
  · intro hnow
    obtain ⟨v, hv, rfl⟩ := Option.map_eq_some_iff.mp hnow
    obtain ⟨fd, hp⟩ := h.now v hv
    obtain ⟨hsat, hseat⟩ := hc.relies v.session
    rw [hp] at hsat hseat
    cases hs : v.session with
    | main | broadcaster | signal => rw [hs] at hsat; cases hsat
    | handler i =>
      rw [hs] at hsat
      obtain ⟨-, -, n, hn, hfd, hu⟩ := hsat
      exact ⟨n, hn, ((hi.2 trivial).exact n hn).trans hu, (hseat fd v.place rfl).2 n hn hfd⟩
  · rintro ⟨n, hn, hu, rfl⟩
    rw [(hi.2 trivial).exact n hn] at hu
    subst hu
    obtain ⟨hconn, hver⟩ := hi.1.owned n hn
    obtain ⟨hsat, hseat⟩ := hc.relies (.handler (c.shared.owner n.addr))
    have hon : (stageOf tr (.handler (c.shared.owner n.addr))).phase.view.IsOnline :=
      Classical.byContradiction fun hoff => owner_ne_of_offline hi hoff hsat n hn rfl
    obtain ⟨fd, u, hv⟩ := hon
    rw [hv] at hsat
    obtain ⟨hconn', hver', -⟩ := hsat
    obtain rfl : n.sockfd = fd := congrArg Conn.fd (hi.1.conn_id hconn hconn' rfl)
    obtain rfl : n.name = u := Option.some.inj (hver.symm.trans hver')
    obtain ⟨room, hp⟩ := hplaced _ _ hv
    rw [h.present _ _ _ hp]
    have hroom := (hseat n.sockfd room (by rw [hp]; rfl)).2 n hn rfl
    exact congrArg some hroom.symm

/-- **Presence events replay to the registry.** In a run in which no join or
leave event is refused, the events of a user alternate, and while no handler is
inside `AUTH`, `JOIN_ROOM` or the disconnect they replay to what the registry
holds. -/
theorem presence_replays (hr : Run (System.Step P Env.Terminated) (System.init db) tr c) (hm : ∀ l ∈ tr, ¬ Missed l) :
    (∀ u, ∃ now, Visit.Alternates defaultRoom (Visit.ofKey (visits tr) u) now) ∧
    ((∀ i h, c.handler i = some h → ¬ h.Moving) → ∀ u room, Visit.replay (visits tr) u = some room ↔
      ∃ n ∈ c.shared.registry.nodes, cstr n.username = u ∧ cstr n.room = room) := by
  have hc : Staged True tr c := run_staged (fun _ he _ => he) hr
  refine ⟨fun u => ?_, fun hmoving u room => ?_⟩
  · obtain ⟨now, h⟩ := run_attends hr hm u
    exact ⟨now, h.alternates⟩
  · obtain ⟨now, h⟩ := run_attends hr hm u
    rw [h.alternates.replay]
    refine h.registered hc (fun i fd hv => ?_) room
    have hat := hc.loc (.handler i)
    cases hthread : c.loc (.handler i) with
    | handler h₀ =>
      rw [hthread] at hat
      have hh : c.handler i = some h₀ := System.handler_eq.mpr hthread
      exact Handler.present_of_placed hat (run_placed hr hh) (hmoving i h₀ hh) hv
    | _ => rw [hthread] at hat; cases hat

end

/-! ### `alice` moves to another room -/

def misses (l : Label Tid Act.Ret) : Bool :=
  match l with
  | ⟨_, .mqPush _, (rc : ChatStatus)⟩ => rc != .ok
  | _ => false

theorem misses_of_missed {l : Label Tid Act.Ret} (h : Missed l) : misses l = true := by
  obtain ⟨tid, msg, rc, rfl, -, hrc⟩ := h
  exact bne_iff_ne.mpr hrc

def Handler.waits (h : Handler) : Bool :=
  match h.point with
  | .top | .reading => true
  | _ => false

theorem Handler.not_moving_of_waits {h : Handler} (hw : h.waits = true) : ¬ h.Moving := by
  unfold Handler.waits at hw
  unfold Handler.Moving
  cases hpoint : h.point with
  | top | reading => exact id
  | _ => rw [hpoint] at hw; cases hw

def movesToDen : List (Tid × Env) := List.replicate 14 (Tid.handler 0, sunny "JOIN_ROOM den" 0 0)

theorem sunny_movesToDen : ∀ q ∈ bothIn ++ movesToDen, q.2.Terminated := by
  intro q hq
  rcases List.mem_append.mp hq with hq | hq
  · exact sunny_bothIn q hq
  · rw [(List.mem_replicate.mp hq).2]
    exact sunny_terminated _ _ _

def drawn (l : Label Tid Act.Ret) : Bool :=
  match l.tid with
  | .handler i => i < 2
  | _ => true

theorem presence_replays_alice : ∃ tr c, Run (System.Step passPlatform Env.Terminated) (System.init passDb) tr c ∧
    (∀ l ∈ tr, ¬ Missed l) ∧
    (visits tr).map (fun v => (v.key, v.place, v.enters)) = [(lit "alice", defaultRoom, true), (lit "bob", defaultRoom, true),
      (lit "alice", defaultRoom, false), (lit "alice", lit "den", true)] ∧
    (∃ now, Visit.Alternates defaultRoom (Visit.ofKey (visits tr) (lit "alice")) now) ∧
    ∀ room, Visit.replay (visits tr) (lit "alice") = some room ↔
      ∃ n ∈ c.shared.registry.nodes, cstr n.username = lit "alice" ∧ cstr n.room = room := by
  obtain ⟨tr, c, hr, hp⟩ := System.exists_run passPlatform Env.Terminated (System.init passDb) (bothIn ++ movesToDen) sunny_movesToDen
    (p := fun q => q.1.all (fun l => !misses l && drawn l) && (System.handler q.2 0).any Handler.waits &&
      (System.handler q.2 1).any Handler.waits && (visits q.1).map (fun v => (v.key, v.place, v.enters)) ==
        [(lit "alice", defaultRoom, true), (lit "bob", defaultRoom, true), (lit "alice", defaultRoom, false),
          (lit "alice", lit "den", true)]) (by decide +kernel)
  simp only [Bool.and_eq_true, List.all_eq_true, beq_iff_eq, Bool.not_eq_true'] at hp
  obtain ⟨⟨⟨hl, h0⟩, h1⟩, hvisits⟩ := hp
  have hm : ∀ l ∈ tr, ¬ Missed l := by
    intro l hmem hmiss
    have h := misses_of_missed hmiss
    rw [(hl l hmem).1] at h
    cases h
  obtain ⟨halt, hreplay⟩ := presence_replays hr hm
  refine ⟨tr, c, hr, hm, hvisits, halt (lit "alice"), hreplay ?_ (lit "alice")⟩
  intro i h hh
  match i with
  | 0 => rw [hh] at h0; exact Handler.not_moving_of_waits h0
  | 1 => rw [hh] at h1; exact Handler.not_moving_of_waits h1
  | i + 2 =>
    have hloc := loc_of_silent hr (i := .handler (i + 2)) fun l hmem htid => by
      have hdrawn := (hl l hmem).2
      simp [drawn, htid] at hdrawn
    rw [System.handler_eq, hloc] at hh
    cases hh
    exact id

end ChatServer

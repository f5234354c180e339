import ChatServer.CommandsSound
import ChatServer.Stages

/-!
# One action at a stage

`exec_stage`: a permitted action takes its thread to the next stage with all
that the stage relies on, and its answer tells what the stage promises.
`exec_others`: no other thread loses anything. Only a handler itself touches
the node of its connection.
-/

namespace ChatServer

open CStr Interleave Prog

/-! ## The nodes -/

def Act.edits : Act → Bool
  | .registryAdd .. | .registryRemove _ | .registrySetRoom .. => true
  | _ => false

section
variable {P : Platform} {T : Prop} {tid : Tid} {e : Env} {s s' : Server} {v : View} {a : Act} {r : a.Ret}

theorem exec_registry (ha : a.edits = false) (hx : exec P tid a e s = some (r, s')) : s'.registry = s.registry := by
  cases a with
  | registryAdd | registryRemove | registrySetRoom => cases ha
  | close => cases hx; rfl
  | authVerify => cases hx; split <;> rfl
  | accept => rcases exec_accept hx with ⟨-, rfl⟩ | ⟨fd, -, -, rfl⟩ <;> rfl
  | spawn => rcases exec_spawn hx with ⟨-, rfl⟩ | ⟨-, rfl⟩ <;> rfl
  | _ => exact (exec_unmoved rfl hx).registry

theorem exec_registryAdd_cases {fd : Int} {u room : Bytes} {isAdmin : Bool} {r : ChatStatus}
    (hx : exec P tid (.registryAdd fd u room isAdmin) e s = some (r, s')) :
    (r = .ok ∧ s.registry.count < maxClients ∧
      ∃ mem, e.node = some mem ∧ s'.registry.nodes = newNode mem fd u room isAdmin :: s.registry.nodes) ∨
    (r ≠ .ok ∧ s'.registry = s.registry) := by
  simp only [exec] at hx
  cases hnode : e.node with
  | none =>
    rw [hnode] at hx
    cases hx
    refine Or.inr ⟨?_, rfl⟩
    simp [registryAdd]
  | some mem =>
    rw [hnode] at hx
    by_cases hfree : (s.registry.nodes.any fun n => n.addr == mem.addr) = true
    · simp only [hfree, ite_true] at hx
      cases hx
    · simp only [hfree, Bool.false_eq_true, ite_false] at hx
      rcases registryAdd_cases s.registry (some mem) fd u room isAdmin with ⟨m, hm, hc, -, hok, hreg⟩ | ⟨hne, hreg⟩
      · cases hm
        cases hx
        exact Or.inl ⟨hok, hc, mem, rfl, hreg⟩
      · cases hx
        exact Or.inr ⟨hne, hreg⟩

theorem exec_registryRemove {fd : Int} {r : ChatStatus} (hx : exec P tid (.registryRemove fd) e s = some (r, s')) :
    s'.registry.nodes = unlink s.registry.nodes fd := by
  cases hx
  exact registryRemove_nodes s.registry fd

theorem exec_registrySetRoom {fd : Int} {room : Bytes} {r : ChatStatus}
    (hx : exec P tid (.registrySetRoom fd room) e s = some (r, s')) :
    s'.registry.nodes = setRoomFirst fd room s.registry.nodes := by
  cases hx
  exact registrySetRoom_nodes s.registry fd room

/-- The node of a connection is left alone by everybody who does not own it. -/
theorem exec_others_node (hi : Inv T s) (hs : Sat tid v s) (ha : allowed T a v) (hx : exec P tid a e s = some (r, s'))
    {tid' : Tid} (hne : tid' ≠ tid) {c : Conn} (hc : c ∈ s.conns) (ho : Owns tid' c) {n : ClientNode} (hn : n.sockfd = c.fd) :
    n ∈ s'.registry.nodes ↔ n ∈ s.registry.nodes := by
  cases a with
  | registryAdd fd u room isAdmin =>
    obtain ⟨rfl, -⟩ := ha
    cases tid with
    | main | broadcaster | signal => cases hs
    | handler i =>
      have hfd : c.fd ≠ fd := fd_ne_of_owns hi hne hs.1 hc ⟨rfl, rfl⟩ ho
      rcases exec_registryAdd_cases hx with ⟨-, -, mem, -, hnodes⟩ | ⟨-, hreg⟩
      · rw [hnodes, List.mem_cons, or_iff_right]
        rintro rfl
        exact hfd hn.symm
      · rw [hreg]
  | registryRemove fd =>
    obtain ⟨u, rfl⟩ := ha
    cases tid with
    | main | broadcaster | signal => cases hs
    | handler i =>
      have hfd : c.fd ≠ fd := fd_ne_of_owns hi hne hs.1 hc ⟨rfl, rfl⟩ ho
      rw [exec_registryRemove hx, mem_unlink hi.1.nodeFds, and_iff_left]
      rw [hn]
      exact hfd
  | registrySetRoom fd room =>
    obtain ⟨u, rfl⟩ := ha
    cases tid with
    | main | broadcaster | signal => cases hs
    | handler i =>
      have hfd : n.sockfd ≠ fd := hn ▸ fd_ne_of_owns hi hne hs.1 hc ⟨rfl, rfl⟩ ho
      rw [exec_registrySetRoom hx, mem_setRoomFirst hi.1.nodeFds]
      constructor
      · rintro (⟨hmem, -⟩ | ⟨cur, -, hcur, rfl⟩)
        · exact hmem
        · exact absurd hcur hfd
      · exact fun hmem => Or.inl ⟨hmem, hfd⟩
  | _ => rw [exec_registry rfl hx]

end

theorem newNode_lobby (mem : Fresh) (fd : Int) (u : Bytes) (isAdmin : Bool) :
    cstr (newNode mem fd u defaultRoom isAdmin).room = defaultRoom := by
  have hlobby : cstr (strncpy mem.room defaultRoom 31) = cstr defaultRoom :=
    cstr_strncpy_of_le (by decide) (Or.inl (by decide))
  exact hlobby.trans (by decide)

theorem setRoom_room {room : Bytes} (h : RoomLike room) (cur : ClientNode) : cstr (cur.setRoom room).room = room := by
  have hl := h.2
  simp only [maxRoomNameLen] at hl
  refine (cstr_copyField (n := 31) cur.room_length room).trans ?_
  rw [cstr_of_nulFree h.1, List.take_of_length_le (by omega)]

/-! ## The next view -/

def Act.steers : Act → Bool
  | .start | .close _ | .authVerify .. | .registryAdd .. | .registryRemove _ | .accept | .spawn .. => true
  | _ => false

theorem advance_same {a : Act} (ha : a.steers = false) (v : View) (r : a.Ret) : advance a v r = v := by
  cases a with
  | start | close | authVerify | registryAdd | registryRemove | accept | spawn => cases ha
  | _ => cases v <;> rfl

namespace Phase

@[simp] theorem onCapacity_view (full : Bool) (p : Phase) : (p.onCapacity full).view = p.view := by
  cases p <;> cases full <;> rfl

@[simp] theorem onIncrement_view (p : Phase) : p.onIncrement.view = p.view := by cases p <;> rfl

@[simp] theorem onDecrement_view (p : Phase) : p.onDecrement.view = p.view := by cases p <;> rfl

@[simp] theorem onSetRoom_view (room : Bytes) (p : Phase) : (p.onSetRoom room).view = p.view := by cases p <;> rfl

@[simp] theorem onPush_view (type : MqEventType) (p : Phase) : (p.onPush type).view = p.view := by
  cases p with
  | present fd u room =>
    show (if type = .leave then Phase.left fd u room else .present fd u room).view = _
    split <;> rfl
  | _ => rfl

theorem onClose_view {p : Phase} (h : p.closes = true) (fd : Int) (r : Unit) : p.onClose.view = advance (.close fd) p.view r := by
  cases p <;> first | rfl | cases h

theorem fresh_of_view {p : Phase} {fd : Int} (h : p.view = .fresh fd) : p = .fresh fd := by
  cases p <;> cases h
  rfl

theorem unborn_of_view {p : Phase} (h : p.view = .unborn) : p = .unborn := by
  cases p <;> cases h
  rfl

theorem onRunning_sat {tid : Tid} {p : Phase} {s : Server} (hs : Sat tid p.view s) (running : Bool) :
    Sat tid (p.onRunning running).view s := by
  cases p with
  | idle =>
    cases tid with
    | main => cases running <;> trivial
    | _ => cases hs
  | _ => exact hs

theorem next_sat {T : Prop} {tid : Tid} {p : Phase} {a : Act} {r : a.Ret} {s : Server} (hp : p.permits T a)
    (ha : allowed T a p.view) (hs : Sat tid (advance a p.view r) s) : Sat tid (p.next a r).view s := by
  have same : a.steers = false → Sat tid p.view s := by
    intro h
    rwa [advance_same h] at hs
  cases a with
  | start =>
    obtain rfl := unborn_of_view ha
    exact hs
  | accept =>
    obtain rfl : p = .idle := hp
    change Option (Int × Nat) at r
    cases r <;> exact hs
  | spawn fd id =>
    obtain rfl : p = .counted fd id := hp
    change Bool at r
    cases r <;> exact hs
  | close fd =>
    show Sat tid p.onClose.view s
    rwa [onClose_view hp fd r]
  | authVerify u password =>
    obtain ⟨fd, h⟩ := ha
    obtain rfl := fresh_of_view h
    change ChatStatus at r
    change Sat tid (if r = ChatStatus.ok then View.checked fd u else .fresh fd) s at hs
    show Sat tid (if r = ChatStatus.ok then Phase.checked fd u else .fresh fd).view s
    rwa [apply_ite Phase.view]
  | registryAdd fd u room isAdmin =>
    obtain ⟨rfl, -⟩ := hp
    change ChatStatus at r
    change Sat tid (if r = ChatStatus.ok then View.online fd u else .checked fd u) s at hs
    show Sat tid (if r = ChatStatus.ok then Phase.entered fd u else .checked fd u).view s
    rwa [apply_ite Phase.view]
  | registryRemove fd =>
    obtain ⟨fd, u, rfl | ⟨room, rfl⟩⟩ := hp
    · exact hs
    · exact hs
  | running => exact onRunning_sat (same rfl) r
  | connAtCapacity =>
    change Bool at r
    show Sat tid (p.onCapacity r).view s
    rw [onCapacity_view]
    exact same rfl
  | connTrackIncrement => exact (onIncrement_view p).symm ▸ same rfl
  | connTrackDecrement => exact (onDecrement_view p).symm ▸ same rfl
  | registrySetRoom fd room => exact (onSetRoom_view room p).symm ▸ same rfl
  | mqPush msg => exact (onPush_view msg.type p).symm ▸ same rfl
  | _ => exact same rfl

theorem view_of_seat {p : Phase} {fd : Int} {room : Bytes} (h : p.seat = some (fd, room)) : ∃ u, p.view = .online fd u := by
  cases p with
  | entered fd' u | present fd' u _ | left fd' u _ | moved fd' u _ => cases h; exact ⟨u, rfl⟩
  | _ => cases h

/-- Away from the registry the seat stays, or the handler has none any more. -/
theorem next_seat {T : Prop} {p : Phase} {a : Act} (ha : a.edits = false) (hp : p.permits T a) {r : a.Ret} {fd : Int} {room : Bytes}
    (h : (p.next a r).seat = some (fd, room)) : p.seat = some (fd, room) := by
  cases a with
  | registryAdd | registryRemove | registrySetRoom => cases ha
  | mqPush msg =>
    change (p.onPush msg.type).seat = _ at h
    cases p with
    | present fd' u room' =>
      change (if msg.type = .leave then Phase.left fd' u room' else .present fd' u room').seat = _ at h
      split at h <;> exact h
    | _ => exact h
  | start => cases p <;> exact h
  | running =>
    change Bool at r
    cases p <;> cases r <;> exact h
  | accept =>
    obtain rfl : p = .idle := hp
    change Option (Int × Nat) at r
    cases r <;> cases h
  | connAtCapacity =>
    change Bool at r
    cases p <;> cases r <;> exact h
  | spawn =>
    change Bool at r
    cases p <;> cases r <;> exact h
  | authVerify u password =>
    change ChatStatus at r
    change (p.onVerify u r).seat = _ at h
    cases p with
    | fresh fd' =>
      change (if r = .ok then Phase.checked fd' u else .fresh fd').seat = _ at h
      split at h <;> cases h
    | _ => exact h
  | close | connTrackIncrement | connTrackDecrement => cases p <;> exact h
  | _ => exact h

end Phase

/-! ## One action -/

section
variable {P : Platform} {T : Prop} {tid : Tid} {e : Env} {s s' : Server} {σ : Stage} {a : Act} {r : a.Ret}
variable (hi : Inv T s) (hσ : Relies tid σ s) (hp : σ.permits T a) (hx : exec P tid a e s = some (r, s'))
include hi hσ hp hx

theorem exec_seat {fd : Int} {room : Bytes} (hseat : (σ.phase.next a r).seat = some (fd, room)) : Seated s' fd room := by
  obtain ⟨ha, hph, -⟩ := hp
  cases a with
  | registryAdd fd' u room' isAdmin =>
    obtain ⟨hcheck, rfl⟩ := hph
    rw [hcheck] at ha hseat
    change ChatStatus at r
    have hsat := hσ.sat
    rw [hcheck] at hsat
    change (if r = .ok then Phase.entered fd' u else .checked fd' u).seat = _ at hseat
    rcases exec_registryAdd_cases hx with ⟨rfl, -, mem, -, hnodes⟩ | ⟨hne, -⟩
    · cases hseat
      refine ⟨⟨by decide, by decide⟩, fun n hn he => ?_⟩
      rw [hnodes] at hn
      rcases List.mem_cons.mp hn with rfl | hn
      · exact newNode_lobby mem fd u isAdmin
      · cases tid with
        | handler i => exact absurd he (hsat.2.2 n hn)
        | _ => cases hsat
    · rw [if_neg hne] at hseat
      cases hseat
  | registryRemove fd' =>
    obtain ⟨_, _, h | ⟨_, h⟩⟩ := hph <;> rw [h] at hseat <;> cases hseat
  | registrySetRoom fd' room' =>
    obtain ⟨hroom, fd'', u, old, hleft⟩ := hph
    obtain ⟨u', ha⟩ := ha
    rw [hleft] at ha hseat
    cases ha
    cases hseat
    refine ⟨hroom, fun n hn he => ?_⟩
    rw [exec_registrySetRoom hx, mem_setRoomFirst hi.1.nodeFds] at hn
    rcases hn with ⟨-, hne⟩ | ⟨cur, -, -, rfl⟩
    · exact absurd he hne
    · exact setRoom_room hroom cur
  | _ =>
    have h := hσ.seat fd room (Phase.next_seat rfl hph hseat)
    rw [Seated, exec_registry rfl hx]
    exact h

theorem exec_stage (he : T → e.Terminated) : Inv T s' ∧ Relies tid (σ.next a r) s' ∧ σ.tells T a r := by
  obtain ⟨hi', hsat, -⟩ := exec_moves hi hσ.sat hp.allowed he hx
  refine ⟨hi', ⟨Phase.next_sat hp.phase hp.allowed hsat, fun fd room => exec_seat hi hσ hp hx⟩, ?_⟩
  have htells := exec_tells hi hσ.sat he hx
  cases a with
  | registryGetUsername fd =>
    intro u hu
    rw [hu] at htells
    exact htells rfl
  | registryGetRoom fd =>
    intro room hseat
    obtain ⟨u, hview⟩ := Phase.view_of_seat hseat
    have hsat := hσ.sat
    rw [hview] at hsat
    cases tid with
    | main | broadcaster | signal => cases hsat
    | handler i =>
      obtain ⟨-, -, n, hn, hfd, -⟩ := hsat
      obtain ⟨hlike, hroom⟩ := hσ.seat fd room hseat
      cases hx
      have hspec := registryGetRoom_spec s.registry fd
        (show (List.replicate maxRoomNameLen (0 : UInt8)).length = maxRoomNameLen from List.length_replicate)
      cases hfind : s.registry.nodes.find? fun cur => cur.sockfd == fd with
      | none =>
        rw [List.find?_eq_none] at hfind
        exact absurd hfd (by simpa using hfind n hn)
      | some cur =>
        rw [hfind] at hspec
        have hcur : cstr cur.room = room := hroom cur (List.mem_of_find?_eq_some hfind) (by simpa using List.find?_some hfind)
        refine ⟨Prod.ext hspec.1 (hspec.2.trans ?_), hlike⟩
        rw [ClientNode.roomName, hcur]
        exact List.take_of_length_le (Nat.le_pred_of_lt hlike.2)
  | recvLine => exact htells
  | stackEvent =>
    cases hx
    exact fun hT => ⟨(he hT).username, (he hT).room, (he hT).content⟩
  | _ => trivial

theorem exec_others (he : T → e.Terminated) {tid' : Tid} (hne : tid' ≠ tid) {τ : Stage} (hτ : Relies tid' τ s) :
    Relies tid' τ s' := by
  obtain ⟨-, -, hrely⟩ := exec_moves hi hσ.sat hp.allowed he hx
  refine ⟨hτ.sat.rely (hrely tid' hne), fun fd room hseat => ?_⟩
  obtain ⟨u, hview⟩ := Phase.view_of_seat hseat
  have hsat := hτ.sat
  rw [hview] at hsat
  cases tid' with
  | main | broadcaster | signal => cases hsat
  | handler j =>
    obtain ⟨hlike, hroom⟩ := hτ.seat fd room hseat
    refine ⟨hlike, fun n hn hfd => ?_⟩
    exact hroom n ((exec_others_node hi hσ.sat hp.allowed hx hne hsat.1 ⟨rfl, rfl⟩ hfd).mp hn) hfd

end

end ChatServer

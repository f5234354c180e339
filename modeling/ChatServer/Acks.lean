import ChatServer.Agreement
import ChatServer.Events
import ChatServer.RoomsSound

/-!
# Replies and effects

Each command, run alone: an error reply that leaves the registry, the rooms
and the queue as they were, and a confirmed message that is in both stores.
All commands but `MSG` refuse before they have touched anything; `MSG` looks at
the outcome of the queue only.
-/

namespace ChatServer

open CStr Prog

/-- The function of `commands.c` that the handler calls. -/
def ParsedCmd.program (P : Platform) (fd : Int) (cmd : ParsedCmd) : Cmd ChatStatus :=
  match cmd.cmd with
  | .auth => cmdHandleAuth fd (cstr cmd.arg1) (cstr cmd.arg2)
  | .joinRoom => cmdHandleJoinRoom fd (cstr cmd.arg1)
  | .msg => cmdHandleMsg fd (cstr cmd.arg2)
  | .pm => cmdHandlePm P fd (cstr cmd.arg1) (cstr cmd.arg2)
  | .list => cmdHandleList fd
  | .history => cmdHandleHistory fd
  | .kick => cmdHandleKick fd (cstr cmd.arg1)
  | .quit | .unknown => pure .ok

theorem dispatch_program (P : Platform) (h : Handler) {line : Bytes} {cmd : ParsedCmd}
    (hp : protocolParseClientLine line = (.ok, cmd)) (ha : h.authenticated = decide (cmd.cmd ≠ .auth))
    (hq : cmd.cmd ≠ .quit ∧ cmd.cmd ≠ .unknown) :
    ∃ cont, h.dispatch P line = h.enter cont (cmd.program P h.fd) := by
  unfold Handler.dispatch ParsedCmd.program
  rw [hp, ha]
  cases hc : cmd.cmd with
  | auth => simp only [hc]; exact ⟨_, rfl⟩
  | quit => exact absurd hc hq.1
  | unknown => exact absurd hc hq.2
  | _ => simp only [hc]; exact ⟨_, rfl⟩

/-! ## Nobody else running -/

/-- Whether the allocations of a command succeed: that of a room, and that of a
queue node for each kind of event. -/
structure Memory where
  calloc : Bool
  malloc : MqEventType → Bool

def Memory.Grants (m : Memory) : Act → Env → Prop
  | .roomHistoryAdd .., e => e.malloc = m.calloc
  | .mqPush msg, e => e.malloc = m.malloc msg.type
  | _, _ => True

/-- One action of a handler that runs alone. -/
def Undisturbed (P : Platform) (i : Nat) (m : Memory) (a : Act) (s : Server) (r : a.Ret) (s' : Server) : Prop :=
  ∃ e, m.Grants a e ∧ exec P (.handler i) a e s = some (r, s')

/-- Registry, rooms and queue as they were. -/
structure SameData (s s' : Server) : Prop where
  registry : s'.registry = s.registry
  rooms : s'.rooms = s.rooms
  queue : s'.queue = s.queue

theorem SameData.refl (s : Server) : SameData s s := ⟨rfl, rfl, rfl⟩

theorem SameData.trans {s s' s'' : Server} (h : SameData s s') (h' : SameData s' s'') : SameData s s'' :=
  ⟨h'.registry.trans h.registry, h'.rooms.trans h.rooms, h'.queue.trans h.queue⟩

/-! ## Touching and refusing -/

def ChatStatus.isOk (rc : ChatStatus) : Bool := rc == .ok

def touches : (a : Act) → a.Ret → Bool
  | .registryAdd .., rc => ChatStatus.isOk rc
  | .registryRemove _, _ | .registrySetRoom .., _ | .roomHistoryAdd .., _ | .mqPush _, _ | .mqPop, _
  | .mqSignalShutdown, _ => true
  | _, _ => false

/-- Some answer to the action tells of a change. -/
def mayTouch : Act → Bool
  | .registryAdd .. | .registryRemove _ | .registrySetRoom .. | .roomHistoryAdd .. | .mqPush _ | .mqPop
  | .mqSignalShutdown => true
  | _ => false

/-- The action sends an error line to the requester. -/
def refuses (fd : Int) : Act → Bool
  | .send fd' line _ => fd' == fd && (lit "ERR ").isPrefixOf line
  | _ => false

/-- The action sends a confirmation to the requester. -/
def confirms (fd : Int) : Act → Bool
  | .send fd' line _ => fd' == fd && (lit "OK ").isPrefixOf line
  | _ => false

theorem mayTouch_of_touches {a : Act} {r : a.Ret} (h : touches a r = true) : mayTouch a = true := by
  cases a with
  | registryAdd | registryRemove | registrySetRoom | roomHistoryAdd | mqPush | mqPop | mqSignalShutdown => rfl
  | _ => cases h

theorem exec_untouched {P : Platform} {tid : Tid} {a : Act} {e : Env} {s s' : Server} {r : a.Ret}
    (h : exec P tid a e s = some (r, s')) (ht : touches a r = false) : SameData s s' := by
  cases a with
  | registryAdd fd username room isAdmin =>
    have hrc : r ≠ ChatStatus.ok := by
      have ht : ChatStatus.isOk r = false := ht
      intro hok
      rw [hok] at ht
      cases ht
    simp only [exec] at h
    cases hn : e.node with
    | none => rw [hn] at h; cases h; exact .refl s
    | some mem =>
      rw [hn] at h
      simp only at h
      split at h
      · cases h
      · obtain ⟨hr, hs⟩ := Prod.mk.inj (Option.some.inj h)
        subst hs
        rcases registryAdd_cases s.registry (some mem) fd username room isAdmin with ⟨_, -, -, -, hok, -⟩ | ⟨-, hreg⟩
        · exact absurd (hr.symm.trans hok) hrc
        · exact ⟨hreg, rfl, rfl⟩
  | registryRemove | registrySetRoom | roomHistoryAdd | mqPush | mqPop | mqSignalShutdown => cases ht
  | authVerify username password =>
    obtain ⟨-, hs⟩ := Prod.mk.inj (Option.some.inj h)
    subst hs
    split
    · exact ⟨rfl, rfl, rfl⟩
    · exact .refl s
  | start =>
    simp only [exec] at h
    split at h
    · cases h
    · cases h; exact .refl s
  | accept =>
    simp only [exec] at h
    split at h
    · cases h; exact .refl s
    · split at h
      · cases h
      · cases h; exact ⟨rfl, rfl, rfl⟩
  | connTrackDecrement =>
    obtain ⟨-, hs⟩ := Prod.mk.inj (Option.some.inj h)
    subst hs
    split
    · exact ⟨rfl, rfl, rfl⟩
    · exact .refl s
  | spawn fd id =>
    simp only [exec] at h
    split at h
    · cases h; exact ⟨rfl, rfl, rfl⟩
    · cases h; exact .refl s
  | _ => cases h; exact ⟨rfl, rfl, rfl⟩

/-! ## Commands that refuse first -/

structure Tally where
  touched : Bool
  refused : Bool

def Tally.after (v : Tally) (fd : Int) (a : Act) (r : a.Ret) : Tally :=
  { touched := v.touched || touches a r, refused := v.refused || refuses fd a }

def Tally.Clean (v : Tally) : Prop := v.refused = true → v.touched = false

/-- A refusal comes before any change, and no change behind it. -/
def tally (fd : Int) : Contract Act.Ret Tally where
  pre a v := (refuses fd a = true → v.touched = false) ∧ (mayTouch a = true → v.refused = false)
  post a v r v' := v' = v.after fd a r

theorem Tally.after_refused {fd : Int} {v : Tally} {a : Act} (r : a.Ret) (hv : v.refused = false)
    (ha : refuses fd a = false) : (v.after fd a r).refused = false := by
  rw [Tally.after, hv, ha, Bool.or_false]

theorem Tally.after_touched {fd : Int} {v : Tally} {a : Act} {r : a.Ret} (hv : v.touched = false)
    (ha : touches a r = false) : (v.after fd a r).touched = false := by
  rw [Tally.after, hv, ha, Bool.or_false]

theorem Tally.Clean.after {fd : Int} {a : Act} {v : Tally} (hv : v.Clean) (hp : (tally fd).pre a v) (r : a.Ret) :
    (v.after fd a r).Clean := by
  intro hr
  have hexcl : refuses fd a = true → touches a r = false := by
    cases a with
    | send => exact fun _ => rfl
    | _ => exact fun h => absurd h (by simp [refuses])
  simp only [Tally.after, Bool.or_eq_true, Bool.or_eq_false_iff] at hr ⊢
  rcases hr with hr | hr
  · refine ⟨hv hr, ?_⟩
    by_contra ht
    have := hp.2 (mayTouch_of_touches (Bool.not_eq_false _ ▸ ht))
    rw [hr] at this
    cases this
  · exact ⟨hp.1 hr, hexcl hr⟩

theorem exec_tally {P : Platform} {i : Nat} {m : Memory} {fd : Int} {α : Type} {Q : α → Tally → Prop} :
    ∀ {p : Cmd α} {v : Tally} {s s' : Server} {tr : List ((a : Act) × a.Ret)} {x : α}, v.Clean →
      Meets (tally fd) Q p v → Exec (Undisturbed P i m) p s tr x s' →
      ∃ v' : Tally, v'.Clean ∧ (v'.refused = false → ∀ q ∈ tr, refuses fd q.1 = false) ∧ (v'.touched = false → SameData s s') ∧
        (v'.refused = false → v.refused = false) ∧ (v'.touched = false → v.touched = false)
  | .ret _, v, s, _, _, _, hv, _, ⟨htr, _, hs⟩ => by
    subst htr hs
    exact ⟨v, hv, fun _ q hq => absurd hq List.not_mem_nil, fun _ => SameData.refl _, id, id⟩
  | .act a k, v, s, s', _, x, hv, hp, ⟨r, s₁, tr, htr, ⟨e, _, hx⟩, hrest⟩ => by
    subst htr
    obtain ⟨v', hclean, href, htouch, hr₁, ht₁⟩ := exec_tally (hv.after hp.1 r) (hp.2 r _ rfl) hrest
    simp only [Tally.after, Bool.or_eq_false_iff] at hr₁ ht₁
    refine ⟨v', hclean, fun h q hq => ?_, fun h => ?_, fun h => (hr₁ h).1, fun h => (ht₁ h).1⟩
    · rcases List.mem_cons.mp hq with rfl | hq
      · exact (hr₁ h).2
      · exact href h q hq
    · exact (exec_untouched hx (ht₁ h).2).trans (htouch h)

/-- A program that keeps the contract has changed nothing where it refused. -/
theorem refused_sameData {P : Platform} {i : Nat} {m : Memory} {fd : Int} {α : Type} {p : Cmd α} {s s' : Server}
    {tr : List ((a : Act) × a.Ret)} {x : α} (hp : Meets (tally fd) (fun _ _ => True) p ⟨false, false⟩)
    (h : Exec (Undisturbed P i m) p s tr x s') (hr : ∃ q ∈ tr, refuses fd q.1 = true) : SameData s s' := by
  obtain ⟨v', hclean, href, htouch, -⟩ := exec_tally (by intro h; cases h) hp h
  refine htouch (hclean ?_)
  by_contra hf
  obtain ⟨q, hq, hrq⟩ := hr
  rw [href (Bool.not_eq_true _ ▸ hf) q hq] at hrq
  cases hrq

/-! ### The lines -/

theorem word_noErr {word rest : Bytes} (hl : 3 ≤ word.length) (hw : word.take 3 ≠ lit "ERR") :
    (lit "ERR ").isPrefixOf (buildLine maxLineLen (word ++ rest)).2 = false := by
  rw [Bool.eq_false_iff]
  intro h
  have h : lit "ERR " <+: (word ++ rest).take 2047 := List.isPrefixOf_iff_prefix.mp h
  have hsub : lit "ERR" <+: word ++ rest := ((by decide : lit "ERR" <+: lit "ERR ").trans h).trans (List.take_prefix _ _)
  have heq := List.prefix_iff_eq_take.mp hsub
  rw [show (lit "ERR").length = 3 by decide, List.take_append_of_le_length hl] at heq
  exact hw heq.symm

section
variable {fd fd' : Int} {v : Tally} {α β : Type}

/-- A program that neither refuses nor touches. -/
def Neutral (fd : Int) (p : Cmd α) (v : Tally) : Prop := Meets (tally fd) (fun _ v' => v' = v) p v

def Any (_ : α) (_ : Tally) : Prop := True

theorem Neutral.bind {p : Cmd α} {f : α → Cmd β} {Q : β → Tally → Prop} (hp : Neutral fd p v)
    (hf : ∀ x, Meets (tally fd) Q (f x) v) : Meets (tally fd) Q (p >>= f) v := by
  apply Meets.bind
  refine Meets.mono ?_ hp
  intro x v' hv
  rw [hv]
  exact hf x

theorem neutral_act {a : Act} {k : a.Ret → Cmd β} {Q : β → Tally → Prop} (hr : refuses fd a = false)
    (hm : mayTouch a = false) (h : ∀ r, Meets (tally fd) Q (k r) v) : Meets (tally fd) Q (Prog.op a >>= k) v := by
  have hv : ∀ r, v.after fd a r = v := by
    intro r
    have ht : touches a r = false := by
      by_contra ht
      rw [mayTouch_of_touches (Bool.not_eq_false _ ▸ ht)] at hm
      cases hm
    rw [Tally.after, hr, ht, Bool.or_false, Bool.or_false]
  refine meets_op ⟨fun h => absurd h (by rw [hr]; decide), fun h => absurd h (by rw [hm]; decide)⟩ fun r v' hv' => ?_
  rw [hv', hv]
  exact h r

theorem sendLoop_neutral {line : Bytes} (hl : (lit "ERR ").isPrefixOf line = false) :
    ∀ fuel sent, Neutral fd (sendLoop fd' line fuel sent) v
  | 0, _ => rfl
  | fuel + 1, sent => by
    unfold sendLoop
    split
    · rfl
    · refine neutral_act (by simp [refuses, hl]) rfl fun r => ?_
      split
      · rfl
      · rfl
      · exact sendLoop_neutral hl fuel _

theorem cmdSendResponse_neutral {line : Bytes} (hl : (lit "ERR ").isPrefixOf line = false) :
    Neutral fd (cmdSendResponse fd' line) v := sendLoop_neutral hl _ _

theorem respondOk_neutral (msg : String) : Neutral fd (respondOk fd' msg) v := by
  refine cmdSendResponse_neutral ?_
  simp only [protocolBuildServerOk, List.append_assoc]
  exact word_noErr (by decide) (by decide)

/-- Refusing is always possible while nothing has been touched. -/
theorem sendLoop_refuses {line : Bytes} : ∀ (fuel sent : Nat) {v : Tally}, v.touched = false →
    Meets (tally fd) (fun _ v' => v'.touched = false) (sendLoop fd' line fuel sent) v
  | 0, _, _, hv => hv
  | fuel + 1, sent, v, hv => by
    unfold sendLoop
    split
    · exact hv
    · refine meets_op ⟨fun _ => hv, fun h => absurd h Bool.false_ne_true⟩ ?_
      rintro r v' rfl
      have hv' : (v.after fd (.send fd' line sent) r).touched = false := Tally.after_touched hv rfl
      split
      · exact hv'
      · exact hv'
      · exact sendLoop_refuses fuel _ hv'

theorem respondErr_refuses (msg : String) (hv : v.touched = false) :
    Meets (tally fd) (fun _ v' => v'.touched = false) (respondErr fd' msg) v := sendLoop_refuses _ _ hv

theorem respondErr_any (msg : String) (hv : v.touched = false) : Meets (tally fd) Any (respondErr fd' msg) v :=
  (respondErr_refuses msg hv).mono fun _ _ _ => trivial

theorem Neutral.any {p : Cmd α} (h : Neutral fd p v) : Meets (tally fd) Any p v := h.mono fun _ _ _ => trivial

theorem roomHistorySend_neutral (room : Bytes) : Neutral fd (roomHistorySendToClient room fd' cmdSendResponse) v := by
  unfold roomHistorySendToClient
  refine neutral_act rfl rfl ?_
  rintro ⟨rc, payload⟩
  show Meets _ _ (if rc ≠ .ok then pure ChatStatus.err else _) v
  split
  · rfl
  · show Meets _ _ (if (protocolBuildServerHistory maxLineLen payload).1 ≠ .ok then pure ChatStatus.err else
      cmdSendResponse fd' (protocolBuildServerHistory maxLineLen payload).2) v
    split
    · rfl
    · refine cmdSendResponse_neutral ?_
      simp only [protocolBuildServerHistory, List.append_assoc]
      exact word_noErr (by decide) (by decide)

/-- Changes go on as long as nothing was refused. -/
theorem enqueueRoomEvent_touches (type : MqEventType) (username room : Bytes) (hv : v.refused = false) :
    Meets (tally fd) (fun _ v' => v'.refused = false) (enqueueRoomEvent type username room) v := by
  unfold enqueueRoomEvent
  refine neutral_act rfl rfl fun evt => ?_
  refine neutral_act rfl rfl fun now => ?_
  refine ⟨⟨fun h => absurd h Bool.false_ne_true, fun _ => hv⟩, ?_⟩
  rintro rc v' rfl
  exact Tally.after_refused rc hv rfl

/-! ### The commands -/

variable {w : Tally} (hw : w.touched = false)
include hw

theorem cmdHandleJoinRoom_tally (hr : w.refused = false) (room : Bytes) :
    Meets (tally fd) Any (cmdHandleJoinRoom fd room) w := by
  unfold cmdHandleJoinRoom
  split
  · exact respondErr_any _ hw
  refine neutral_act rfl rfl ?_
  rintro ⟨rc, username⟩
  show Meets _ _ (if rc ≠ .ok then _ else _) _
  split
  · exact respondErr_any _ hw
  refine neutral_act rfl rfl ?_
  rintro ⟨rc, oldRoom⟩
  show Meets _ _ (if rc ≠ .ok then pure ChatStatus.err else _) _
  split
  · trivial
  split
  · exact respondErr_any _ hw
  apply Meets.bind
  refine Meets.mono (fun _ v₁ h₁ => ?_) (enqueueRoomEvent_touches .leave username oldRoom hr)
  refine meets_op ⟨fun h => absurd h Bool.false_ne_true, fun _ => h₁⟩ ?_
  rintro rc v₂ rfl
  refine Neutral.bind (cmdSendResponse_neutral ?_) fun _ => ?_
  · simp only [protocolBuildServerRoomJoined, List.append_assoc]
    exact word_noErr (by decide) (by decide)
  refine Neutral.bind (roomHistorySend_neutral room) fun _ => ?_
  apply Meets.bind
  refine Meets.mono (fun _ v₃ _ => ?_) (enqueueRoomEvent_touches .join username room (Tally.after_refused rc h₁ rfl))
  exact (respondOk_neutral _).any

theorem cmdHandlePm_tally (P : Platform) (target content : Bytes) :
    Meets (tally fd) Any (cmdHandlePm P fd target content) w := by
  unfold cmdHandlePm
  refine neutral_act rfl rfl ?_
  rintro ⟨rc, sender⟩
  show Meets _ _ (if rc ≠ .ok then _ else _) _
  split
  · exact respondErr_any _ hw
  split
  · exact respondErr_any _ hw
  split
  · exact respondErr_any _ hw
  refine neutral_act rfl rfl fun targetFd => ?_
  split
  · exact respondErr_any _ hw
  refine neutral_act rfl rfl fun now => ?_
  refine Neutral.bind (cmdSendResponse_neutral ?_) fun rc => ?_
  · simp only [protocolBuildServerPm, List.append_assoc]
    exact word_noErr (by decide) (by decide)
  split
  · exact respondErr_any _ hw
  · exact (respondOk_neutral _).any

theorem cmdHandleList_tally : Meets (tally fd) Any (cmdHandleList fd) w := by
  unfold cmdHandleList
  refine neutral_act rfl rfl ?_
  rintro ⟨rc, username⟩
  show Meets _ _ (if rc ≠ .ok then _ else _) _
  split
  · exact respondErr_any _ hw
  refine neutral_act rfl rfl ?_
  rintro ⟨rc, users⟩
  show Meets _ _ (if rc ≠ .ok then respondErr fd "failed to build user list" else _) _
  split
  · exact respondErr_any _ hw
  · refine Neutral.any (cmdSendResponse_neutral ?_)
    simp only [protocolBuildServerList, List.append_assoc]
    exact word_noErr (by decide) (by decide)

theorem cmdHandleHistory_tally : Meets (tally fd) Any (cmdHandleHistory fd) w := by
  unfold cmdHandleHistory
  refine neutral_act rfl rfl ?_
  rintro ⟨rc, username⟩
  show Meets _ _ (if rc ≠ .ok then _ else _) _
  split
  · exact respondErr_any _ hw
  refine neutral_act rfl rfl ?_
  rintro ⟨rc, room⟩
  show Meets _ _ (if rc ≠ .ok then pure ChatStatus.err else _) _
  split
  · trivial
  refine Neutral.bind (roomHistorySend_neutral room) fun rc => ?_
  split
  · exact respondErr_any _ hw
  · exact (respondOk_neutral _).any

theorem cmdHandleKick_tally (target : Bytes) : Meets (tally fd) Any (cmdHandleKick fd target) w := by
  unfold cmdHandleKick
  refine neutral_act rfl rfl fun isAdmin => ?_
  split
  · exact respondErr_any _ hw
  split
  · exact respondErr_any _ hw
  refine neutral_act rfl rfl ?_
  rintro ⟨rc, admin⟩
  show Meets _ _ (if rc = .ok ∧ admin = target then _ else _) _
  split
  · exact respondErr_any _ hw
  refine neutral_act rfl rfl fun targetFd => ?_
  split
  · exact respondErr_any _ hw
  refine Neutral.bind (cmdSendResponse_neutral ?_) fun _ => ?_
  · simp only [protocolBuildServerKicked, List.append_assoc]
    exact word_noErr (by decide) (by decide)
  refine neutral_act rfl rfl fun _ => ?_
  exact (respondOk_neutral _).any

theorem authErr_any (msg : String) (rc : ChatStatus) :
    Meets (tally fd) Any (respondErr fd msg >>= fun _ => pure rc) w := by
  apply Meets.bind
  exact (respondErr_refuses msg hw).mono fun _ _ _ => trivial

theorem cmdHandleAuth_tally (hr : w.refused = false) (username password : Bytes) :
    Meets (tally fd) Any (cmdHandleAuth fd username password) w := by
  unfold cmdHandleAuth
  split
  · exact authErr_any hw _ _
  refine neutral_act rfl rfl fun rc => ?_
  split
  · exact authErr_any hw _ _
  refine neutral_act rfl rfl fun online => ?_
  split
  · exact authErr_any hw _ _
  refine neutral_act rfl rfl fun admin => ?_
  refine meets_op ⟨fun h => absurd h Bool.false_ne_true, fun _ => hr⟩ ?_
  rintro (rc : ChatStatus) v' rfl
  show Meets _ _ (if rc ≠ .ok then _ else _) _
  split
  · -- the registry has not taken the client
    rename_i hrc
    refine authErr_any (Tally.after_touched hw ?_) _ _
    show ChatStatus.isOk rc = false
    simpa [ChatStatus.isOk] using hrc
  have hr' : (w.after fd (.registryAdd fd username defaultRoom admin) rc).refused = false :=
    @Tally.after_refused fd w (.registryAdd fd username defaultRoom admin) rc hr rfl
  refine Neutral.bind (cmdSendResponse_neutral ?_) fun rc => ?_
  · simp only [protocolBuildServerWelcome, List.append_assoc]
    exact word_noErr (by decide) (by decide)
  split
  · refine meets_op ⟨fun h => absurd h Bool.false_ne_true, fun _ => hr'⟩ fun _ _ _ => trivial
  refine Neutral.bind (cmdSendResponse_neutral ?_) fun _ => ?_
  · simp only [protocolBuildServerRoomJoined, List.append_assoc]
    exact word_noErr (by decide) (by decide)
  refine Neutral.bind (roomHistorySend_neutral _) fun _ => ?_
  refine Neutral.bind (respondOk_neutral _) fun _ => ?_
  apply Meets.bind
  exact (enqueueRoomEvent_touches .join username defaultRoom hr').mono fun _ _ _ => trivial

end

theorem program_tally (P : Platform) (fd : Int) {cmd : ParsedCmd} (hc : cmd.cmd ≠ .msg) :
    Meets (tally fd) (fun _ _ => True) (cmd.program P fd) ⟨false, false⟩ := by
  unfold ParsedCmd.program
  split
  · exact cmdHandleAuth_tally rfl rfl _ _
  · exact cmdHandleJoinRoom_tally rfl rfl _
  · rename_i h; exact absurd h hc
  · exact cmdHandlePm_tally rfl P _ _
  · exact cmdHandleList_tally rfl
  · exact cmdHandleHistory_tally rfl
  · exact cmdHandleKick_tally rfl _
  · trivial
  · trivial

/-! ## `MSG` -/

/-- The name and the room under which the registry knows the descriptor. -/
def sender (s : Server) (fd : Int) : Option (Bytes × Bytes) :=
  (s.registry.nodes.find? fun cur => cur.sockfd == fd).map fun n => (n.name, n.roomName)

/-- The message stands last in the history of its room, and last in the queue. -/
def Appended (P : Platform) (s s' : Server) (username room content : Bytes) : Prop :=
  ∃ now evt, historyEntries s'.rooms room = lastN maxRoomHistory (historyEntries s.rooms room ++
      [formatEntry username (formatTimestamp P.localtimeR now) content]) ∧
    s'.queue.msgs = s.queue.msgs ++ [chatEvent evt username room content now]

/-- An error reply means no effect, a confirmed message is in both stores. -/
def Acknowledged (P : Platform) (i : Nat) (fd : Int) (cmd : ParsedCmd) (m : Memory) (s : Server) : Prop :=
  ∀ tr rc s', Exec (Undisturbed P i m) (cmd.program P fd) s tr rc s' →
    ((∃ q ∈ tr, refuses fd q.1 = true) → SameData s s') ∧
    (cmd.cmd = .msg → (∃ q ∈ tr, confirms fd q.1 = true) →
      ∃ username room, sender s fd = some (username, room) ∧ Appended P s s' username room (cstr cmd.arg2))

def canStore (m : Memory) (s : Server) (room : Bytes) : Bool := (roomFindOrCreate s.rooms m.calloc room).isSome

def canQueue (m : Memory) (s : Server) : Bool := m.malloc .chat && !s.queue.shutdown

section
variable {P : Platform} {i : Nat} {m : Memory} {fd : Int} {s s' : Server}

theorem roomHistoryAdd_entries {mgr : RoomManager} {a : Add} (ha : a.Ok) (hs : (roomFindOrCreate mgr a.mem a.room).isSome) :
    historyEntries (roomHistoryAdd P mgr a.mem a.room a.username a.content a.ts).2 a.room =
      lastN maxRoomHistory (historyEntries mgr a.room ++ [a.text P]) := by
  rcases hadd : roomHistoryAdd P mgr a.mem a.room a.username a.content a.ts with ⟨rc, mgr'⟩
  have hrc : rc = .ok := by
    obtain ⟨⟨k, mgr₁⟩, hk⟩ := Option.isSome_iff_exists.mp hs
    rw [roomHistoryAdd, hk] at hadd
    exact (Prod.mk.inj hadd).1.symm
  have h := roomHistoryAdd_holds (historyEntries_holds mgr) ha hadd
  rw [if_pos hrc] at h
  rw [historyEntries_of_holds h ha.room_noNul, Function.update_self]

theorem push_ne {α : Type} {cap : Nat} (hcap : 1 < cap) (f : α → α) (r : RingBuffer α cap) : r.push f ≠ r := by
  intro h
  have hcount : (if r.count < cap then r.count + 1 else r.count) = r.count := congrArg RingBuffer.count h
  have hstart : (if r.count < cap then r.start else (r.start + 1) % cap) = r.start := congrArg RingBuffer.start h
  have hlt := r.start_lt
  by_cases hc : r.count < cap
  · rw [if_pos hc] at hcount
    omega
  · rw [if_neg hc] at hstart
    by_cases hwrap : r.start + 1 = cap
    · rw [hwrap, Nat.mod_self] at hstart
      omega
    · rw [Nat.mod_eq_of_lt (by omega)] at hstart
      omega

/-- A stored message changes the rooms, whatever stood in the slot. -/
theorem roomHistoryAdd_ne {mgr : RoomManager} {mem : Bool} {room username content : Bytes} {ts : Int}
    (hs : (roomFindOrCreate mgr mem room).isSome) : (roomHistoryAdd P mgr mem room username content ts).2 ≠ mgr := by
  intro h
  have hlen := congrArg (fun r : RoomManager => r.rooms.length) h
  unfold roomHistoryAdd roomFindOrCreate at h hlen
  cases hi : mgr.rooms.findIdx? fun cur => cur.named room with
  | none =>
    rw [roomFindOrCreate, hi] at hs
    rw [hi] at hlen
    by_cases hfull : mgr.roomCount ≥ maxRooms
    · rw [if_pos hfull] at hs
      cases hs
    by_cases hmem : mem = true
    · simp only [hmem, Bool.not_true, Bool.false_eq_true, ite_false, if_neg hfull, List.length_modify,
        List.length_cons] at hlen
      omega
    · rw [if_neg hfull, if_pos (by simpa using hmem)] at hs
      cases hs
  | some k =>
    rw [hi] at h
    obtain ⟨hk, -, -⟩ := List.findIdx?_eq_some_iff_getElem.mp hi
    have hrooms := congrArg (fun r : RoomManager => (r.rooms[k]?).map RoomNode.history) h
    simp only [List.getElem?_modify_eq, List.getElem?_eq_getElem hk, Option.map_some] at hrooms
    exact push_ne (by decide) _ _ (Option.some.inj hrooms)

theorem roomHistoryAdd_full {mgr : RoomManager} {mem : Bool} {room username content : Bytes} {ts : Int}
    (hs : (roomFindOrCreate mgr mem room).isSome = false) :
    (roomHistoryAdd P mgr mem room username content ts).2 = mgr ∧ historyEntries mgr room = [] := by
  rw [Option.isSome_eq_false_iff, Option.isNone_iff_eq_none] at hs
  refine ⟨by rw [roomHistoryAdd, hs], ?_⟩
  unfold roomFindOrCreate at hs
  split at hs
  · cases hs
  · rename_i hnone
    have hfind : (mgr.rooms.find? fun cur => cur.named room) = none := by
      rw [List.find?_eq_none]
      simpa [List.findIdx?_eq_none_iff] using hnone
    rw [historyEntries, hfind]

theorem sendLoop_alone {fd' : Int} {line : Bytes} : ∀ (fuel sent : Nat) {s s' : Server} {tr : List ((a : Act) × a.Ret)}
    {rc : ChatStatus}, Exec (Undisturbed P i m) (sendLoop fd' line fuel sent) s tr rc s' →
    s' = s ∧ ∀ q ∈ tr, ∃ n, q.1 = .send fd' line n
  | 0, _, _, _, _, _, ⟨htr, _, hs⟩ => ⟨hs, fun q hq => by rw [htr] at hq; cases hq⟩
  | fuel + 1, sent, s, s', tr, rc, h => by
    unfold sendLoop at h
    split at h
    · obtain ⟨htr, -, hs⟩ := h
      exact ⟨hs, fun q hq => by rw [htr] at hq; cases hq⟩
    · obtain ⟨r, s₁, tr₁, rfl, ⟨e, -, hx⟩, h⟩ := h
      have hs₁ : s₁ = s := (Prod.mk.inj (Option.some.inj hx)).2.symm
      subst hs₁
      have hrest : s' = s₁ ∧ ∀ q ∈ tr₁, ∃ n, q.1 = .send fd' line n := by
        cases r with
        | none =>
          obtain ⟨htr, -, hs⟩ := h
          exact ⟨hs, fun q hq => by rw [htr] at hq; cases hq⟩
        | some n =>
          cases n with
          | zero =>
            obtain ⟨htr, -, hs⟩ := h
            exact ⟨hs, fun q hq => by rw [htr] at hq; cases hq⟩
          | succ n => exact sendLoop_alone fuel _ h
      refine ⟨hrest.1, fun q hq => ?_⟩
      rcases List.mem_cons.mp hq with rfl | hq
      · exact ⟨sent, rfl⟩
      · exact hrest.2 q hq

/-- A line sent alone: nothing changes, and the first call is part of the trace. -/
theorem sendAll_alone {fd' : Int} {line : Bytes} {tr : List ((a : Act) × a.Ret)} {rc : ChatStatus} (hne : line ≠ [])
    (h : Exec (Undisturbed P i m) (sendAll fd' line) s tr rc s') :
    s' = s ∧ (∀ q ∈ tr, ∃ n, q.1 = .send fd' line n) ∧ ∃ q ∈ tr, q.1 = .send fd' line 0 := by
  obtain ⟨hs, hall⟩ := sendLoop_alone _ _ h
  refine ⟨hs, hall, ?_⟩
  obtain ⟨c, rest, rfl⟩ := List.exists_cons_of_ne_nil hne
  obtain ⟨r, s₁, tr₁, rfl, -⟩ := h
  exact ⟨_, List.mem_cons_self .., rfl⟩

theorem err_begins (msg : String) : (lit "ERR ").isPrefixOf (protocolBuildServerErr maxLineLen (lit msg)).2 = true := by
  rw [List.isPrefixOf_iff_prefix]
  show lit "ERR " <+: (lit "ERR " ++ lit msg ++ lit "\n").take 2047
  rw [List.append_assoc, List.take_append, List.take_of_length_le (by decide)]
  exact List.prefix_append ..

theorem err_confirms (msg : String) : (lit "OK ").isPrefixOf (protocolBuildServerErr maxLineLen (lit msg)).2 = false := by
  rw [Bool.eq_false_iff]
  intro h
  have herr := List.isPrefixOf_iff_prefix.mp (err_begins msg)
  have hok := List.isPrefixOf_iff_prefix.mp h
  have hsub := List.prefix_of_prefix_length_le hok herr (by decide)
  exact absurd hsub (by decide)

theorem ok_prefix (msg : String) : (lit "OK ").isPrefixOf (protocolBuildServerOk maxLineLen (lit msg)).2 = true := by
  rw [List.isPrefixOf_iff_prefix]
  show lit "OK " <+: (lit "OK " ++ lit msg ++ lit "\n").take 2047
  rw [List.append_assoc, List.take_append, List.take_of_length_le (by decide)]
  exact List.prefix_append ..

theorem ok_refuses (msg : String) : (lit "ERR ").isPrefixOf (protocolBuildServerOk maxLineLen (lit msg)).2 = false := by
  simp only [protocolBuildServerOk, List.append_assoc]
  exact word_noErr (by decide) (by decide)

/-- What an error reply shows in the trace. -/
theorem respondErr_alone {msg : String} {tr : List ((a : Act) × a.Ret)} {rc : ChatStatus}
    (h : Exec (Undisturbed P i m) (respondErr fd msg) s tr rc s') :
    s' = s ∧ (∃ q ∈ tr, refuses fd q.1 = true) ∧ ∀ q ∈ tr, confirms fd q.1 = false := by
  have hpre := err_begins msg
  have hne : (protocolBuildServerErr maxLineLen (lit msg)).2 ≠ [] := by
    intro hnil
    rw [hnil] at hpre
    exact absurd hpre (by decide)
  obtain ⟨hs, hall, q, hq, hfirst⟩ := sendAll_alone hne h
  refine ⟨hs, ⟨q, hq, ?_⟩, fun q hq => ?_⟩
  · rw [hfirst, refuses, hpre, Bool.and_true, beq_self_eq_true]
  · obtain ⟨n, hn⟩ := hall q hq
    rw [hn, confirms, err_confirms, Bool.and_false]

theorem respondOk_alone {msg : String} {tr : List ((a : Act) × a.Ret)} {rc : ChatStatus}
    (h : Exec (Undisturbed P i m) (respondOk fd msg) s tr rc s') :
    s' = s ∧ (∃ q ∈ tr, confirms fd q.1 = true) ∧ ∀ q ∈ tr, refuses fd q.1 = false := by
  have hpre := ok_prefix msg
  have hne : (protocolBuildServerOk maxLineLen (lit msg)).2 ≠ [] := by
    intro hnil
    rw [hnil] at hpre
    exact absurd hpre (by decide)
  obtain ⟨hs, hall, q, hq, hfirst⟩ := sendAll_alone hne h
  refine ⟨hs, ⟨q, hq, ?_⟩, fun q hq => ?_⟩
  · rw [hfirst, confirms, hpre, Bool.and_true, beq_self_eq_true]
  · obtain ⟨n, hn⟩ := hall q hq
    rw [hn, refuses, ok_refuses, Bool.and_false]

theorem getUsername_alone {n : ClientNode} (hn : (s.registry.nodes.find? fun cur => cur.sockfd == fd) = some n) :
    outString (registryGetUsername s.registry fd (List.replicate maxUsernameLen 0) maxUsernameLen) = (.ok, n.name) := by
  have h := @registryGetUsername_spec s.registry fd (List.replicate maxUsernameLen 0) List.length_replicate
  rw [hn] at h
  exact Prod.ext h.1 h.2

theorem getRoom_alone {n : ClientNode} (hn : (s.registry.nodes.find? fun cur => cur.sockfd == fd) = some n) :
    outString (registryGetRoom s.registry fd (List.replicate maxRoomNameLen 0) maxRoomNameLen) = (.ok, n.roomName) := by
  have h := @registryGetRoom_spec s.registry fd (List.replicate maxRoomNameLen 0) List.length_replicate
  rw [hn] at h
  exact Prod.ext h.1 h.2

theorem getUsername_none (hn : (s.registry.nodes.find? fun cur => cur.sockfd == fd) = none) :
    (outString (registryGetUsername s.registry fd (List.replicate maxUsernameLen 0) maxUsernameLen)).1 = .errNotFound := by
  have h := @registryGetUsername_spec s.registry fd (List.replicate maxUsernameLen 0) List.length_replicate
  rw [hn] at h
  exact h

theorem mqPush_canQueue (msg : MqMessage) :
    (canQueue m s = true → mqPush s.queue (m.malloc .chat) msg = (.ok, { s.queue with msgs := s.queue.msgs ++ [msg] })) ∧
      (canQueue m s = false → (mqPush s.queue (m.malloc .chat) msg).1 ≠ .ok ∧ (mqPush s.queue (m.malloc .chat) msg).2 = s.queue) := by
  unfold canQueue mqPush
  cases m.malloc .chat with
  | false => exact ⟨fun h => absurd h (by simp), fun _ => ⟨by simp, rfl⟩⟩
  | true =>
    cases hsd : s.queue.shutdown with
    | false => exact ⟨fun _ => by simp [hsd], fun h => absurd h (by simp)⟩
    | true => exact ⟨fun h => absurd h (by simp), fun _ => ⟨by simp, rfl⟩⟩

theorem exists_quiet {φ : Act → Bool} {b : Prop} {pre tr : List ((a : Act) × a.Ret)} (h : ∀ q ∈ pre, φ q.1 = false)
    (hb : (∃ q ∈ tr, φ q.1 = true) ↔ b) : (∃ q ∈ pre ++ tr, φ q.1 = true) ↔ b := by
  rw [← hb]
  constructor
  · rintro ⟨q, hq, hφ⟩
    rcases List.mem_append.mp hq with hq | hq
    · rw [h q hq] at hφ
      cases hφ
    · exact ⟨q, hq, hφ⟩
  · rintro ⟨q, hq, hφ⟩
    exact ⟨q, List.mem_append_right _ hq, hφ⟩

/-- `MSG` of a registered client: the history is added to in any case, and the reply tells of the queue. -/
theorem cmdHandleMsg_alone {n : ClientNode} (hn : (s.registry.nodes.find? fun cur => cur.sockfd == fd) = some n)
    {content : Bytes} (hc : content ≠ []) {tr : List ((a : Act) × a.Ret)} {rc : ChatStatus}
    (h : Exec (Undisturbed P i m) (cmdHandleMsg fd content) s tr rc s') :
    ∃ now evt, s'.registry = s.registry ∧
      s'.rooms = (roomHistoryAdd P s.rooms m.calloc n.roomName n.name content now).2 ∧
      s'.queue = (mqPush s.queue (m.malloc .chat) (chatEvent evt n.name n.roomName content now)).2 ∧
      ((∃ q ∈ tr, refuses fd q.1 = true) ↔ canQueue m s = false) ∧
      ((∃ q ∈ tr, confirms fd q.1 = true) ↔ canQueue m s = true) := by
  unfold cmdHandleMsg at h
  obtain ⟨r₁, s₁, tr₁, rfl, ⟨e₁, -, hx₁⟩, h⟩ := h
  obtain ⟨hr₁, hs₁⟩ := Prod.mk.inj (Option.some.inj hx₁)
  rw [getUsername_alone hn] at hr₁
  subst hr₁ hs₁
  obtain ⟨r₂, s₂, tr₂, rfl, ⟨e₂, -, hx₂⟩, h⟩ := h
  obtain ⟨hr₂, hs₂⟩ := Prod.mk.inj (Option.some.inj hx₂)
  rw [getRoom_alone hn] at hr₂
  subst hr₂ hs₂
  dsimp only [Prog.bind] at h
  rw [if_neg (not_not_intro rfl), if_neg hc] at h
  obtain ⟨now, s₃, tr₃, rfl, ⟨e₃, -, hx₃⟩, h⟩ := h
  obtain ⟨-, hs₃⟩ := Prod.mk.inj (Option.some.inj hx₃)
  subst hs₃
  obtain ⟨r₄, s₄, tr₄, rfl, ⟨e₄, hm₄, hx₄⟩, h⟩ := h
  replace hm₄ : e₄.malloc = m.calloc := hm₄
  have hx₄' : some ((roomHistoryAdd P s.rooms e₄.malloc n.roomName n.name content now).1, { s with
    rooms := (roomHistoryAdd P s.rooms e₄.malloc n.roomName n.name content now).2 }) = some (r₄, s₄) := hx₄
  rw [hm₄] at hx₄'
  obtain ⟨-, hs₄⟩ := Prod.mk.inj (Option.some.inj hx₄')
  obtain ⟨evt, s₅, tr₅, rfl, ⟨e₅, -, hx₅⟩, h⟩ := h
  obtain ⟨-, hs₅⟩ := Prod.mk.inj (Option.some.inj hx₅)
  subst hs₅
  obtain ⟨(r₆ : ChatStatus), s₆, tr₆, rfl, ⟨e₆, hm₆, hx₆⟩, h⟩ := h
  replace hm₆ : e₆.malloc = m.malloc .chat := hm₆
  have hx₆' : some ((mqPush s₄.queue e₆.malloc (chatEvent evt n.name n.roomName content now)).1, { s₄ with
    queue := (mqPush s₄.queue e₆.malloc (chatEvent evt n.name n.roomName content now)).2 }) = some (r₆, s₆) := hx₆
  rw [hm₆] at hx₆'
  obtain ⟨hr₆, hs₆⟩ := Prod.mk.inj (Option.some.inj hx₆')
  have h₄ : s₄.registry = s.registry ∧ s₄.queue = s.queue ∧
      s₄.rooms = (roomHistoryAdd P s.rooms m.calloc n.roomName n.name content now).2 := by
    rw [← hs₄]
    exact ⟨rfl, rfl, rfl⟩
  have h₆ : s₆.registry = s₄.registry ∧ s₆.rooms = s₄.rooms ∧
      s₆.queue = (mqPush s.queue (m.malloc .chat) (chatEvent evt n.name n.roomName content now)).2 := by
    rw [← hs₆, ← h₄.2.1]
    exact ⟨rfl, rfl, rfl⟩
  replace hr₆ : (mqPush s.queue (m.malloc .chat) (chatEvent evt n.name n.roomName content now)).1 = r₆ := by
    rw [← hr₆, ← h₄.2.1]
  obtain ⟨hcan, hcannot⟩ := mqPush_canQueue (m := m) (s := s) (chatEvent evt n.name n.roomName content now)
  refine ⟨now, evt, ?_⟩
  let pre : List ((a : Act) × a.Ret) := [⟨.registryGetUsername fd, (ChatStatus.ok, n.name)⟩,
    ⟨.registryGetRoom fd, (ChatStatus.ok, n.roomName)⟩, ⟨.time, now⟩,
    ⟨.roomHistoryAdd n.roomName n.name content now, r₄⟩, ⟨.stackEvent, evt⟩,
    ⟨.mqPush (chatEvent evt n.name n.roomName content now), r₆⟩]
  have hr : ∀ q ∈ pre, refuses fd q.1 = false := by simp [pre, refuses]
  have hk : ∀ q ∈ pre, confirms fd q.1 = false := by simp [pre, confirms]
  replace h : Exec (Undisturbed P i m) (if (r₆ : ChatStatus) ≠ .ok then respondErr fd "broadcast queue error" else
    respondOk fd "message sent") s₆ tr₆ rc s' := h
  by_cases hq : canQueue m s = true
  · have hok : r₆ = ChatStatus.ok := by rw [← hr₆, hcan hq]
    rw [if_neg (not_not_intro hok)] at h
    obtain ⟨rfl, hconf, href⟩ := respondOk_alone h
    refine ⟨h₆.1.trans h₄.1, h₆.2.1.trans h₄.2.2, h₆.2.2,
      exists_quiet hr (iff_of_false ?_ (by rw [hq]; decide)), exists_quiet hk (iff_of_true hconf hq)⟩
    rintro ⟨q, hqm, hqr⟩
    rw [href q hqm] at hqr
    cases hqr
  · rw [Bool.not_eq_true] at hq
    have hok : r₆ ≠ ChatStatus.ok := by rw [← hr₆]; exact (hcannot hq).1
    rw [if_pos hok] at h
    obtain ⟨rfl, href, hconf⟩ := respondErr_alone h
    refine ⟨h₆.1.trans h₄.1, h₆.2.1.trans h₄.2.2, h₆.2.2,
      exists_quiet hr (iff_of_true href hq), exists_quiet hk (iff_of_false ?_ (by rw [hq]; decide))⟩
    rintro ⟨q, hqm, hqc⟩
    rw [hconf q hqm] at hqc
    cases hqc

/-- Without a node the command refuses at once. -/
theorem cmdHandleMsg_unregistered (hn : (s.registry.nodes.find? fun cur => cur.sockfd == fd) = none) {content : Bytes}
    {tr : List ((a : Act) × a.Ret)} {rc : ChatStatus} (h : Exec (Undisturbed P i m) (cmdHandleMsg fd content) s tr rc s') :
    s' = s ∧ ∀ q ∈ tr, confirms fd q.1 = false := by
  unfold cmdHandleMsg at h
  obtain ⟨r₁, s₁, tr₁, rfl, ⟨e₁, -, hx₁⟩, h⟩ := h
  obtain ⟨hr₁, rfl⟩ := Prod.mk.inj (Option.some.inj hx₁)
  have hrc := getUsername_none hn
  rw [hr₁] at hrc
  obtain ⟨rc₁, username⟩ := r₁
  replace h : Exec (Undisturbed P i m) (if rc₁ ≠ ChatStatus.ok then respondErr fd "authenticate first" else _) s tr₁ rc s' := h
  have hne : rc₁ ≠ ChatStatus.ok := by
    intro hok
    rw [hok] at hrc
    cases hrc
  rw [if_pos hne] at h
  obtain ⟨rfl, -, hconf⟩ := respondErr_alone h
  refine ⟨rfl, fun q hq => ?_⟩
  rcases List.mem_cons.mp hq with rfl | hq
  · rfl
  · exact hconf q hq

theorem exists_exec_act {β : Type} {a : Act} {k : a.Ret → Cmd β} {r : a.Ret} {s₁ : Server}
    (h : Undisturbed P i m a s r s₁) (hk : ∃ tr x s', Exec (Undisturbed P i m) (k r) s₁ tr x s') :
    ∃ tr x s', Exec (Undisturbed P i m) (Prog.op a >>= k) s tr x s' := by
  obtain ⟨tr, x, s', hx⟩ := hk
  exact ⟨⟨a, r⟩ :: tr, x, s', r, s₁, tr, rfl, h, hx⟩

/-- What the platform may decide where nothing is received or sent. -/
def silent (malloc : Bool) : Env :=
  { line := none, sent := none, node := none, malloc := malloc, thread := true, evp := true, now := 0,
    stack := filledEvent 0, fd := none, dangling := none }

theorem exists_exec_sendAll (fd' : Int) (line : Bytes) : ∃ tr x s', Exec (Undisturbed P i m) (sendAll fd' line) s tr x s' := by
  unfold sendAll
  cases hl : line.length with
  | zero => exact ⟨[], .ok, s, rfl, rfl, rfl⟩
  | succ n =>
    unfold sendLoop
    rw [if_neg (by omega)]
    have hx : Undisturbed P i m (.send fd' line 0) s none s := by
      refine ⟨silent true, trivial, ?_⟩
      show some (if s.holds fd' then (none : Option Nat).map (min (line.length - 0)) else none, s) = _
      split <;> rfl
    exact exists_exec_act hx ⟨[], .errIo, s, rfl, rfl, rfl⟩

theorem exists_exec_msg {n : ClientNode} (hn : (s.registry.nodes.find? fun cur => cur.sockfd == fd) = some n)
    {content : Bytes} (hc : content ≠ []) : ∃ tr x s', Exec (Undisturbed P i m) (cmdHandleMsg fd content) s tr x s' := by
  unfold cmdHandleMsg
  have h₁ : Undisturbed P i m (.registryGetUsername fd) s (ChatStatus.ok, n.name) s :=
    ⟨silent true, trivial, congrArg (fun r => some (r, s)) (getUsername_alone hn)⟩
  have h₂ : Undisturbed P i m (.registryGetRoom fd) s (ChatStatus.ok, n.roomName) s :=
    ⟨silent true, trivial, congrArg (fun r => some (r, s)) (getRoom_alone hn)⟩
  refine exists_exec_act h₁ ?_
  dsimp only
  rw [if_neg (not_not_intro rfl)]
  refine exists_exec_act h₂ ?_
  dsimp only
  rw [if_neg (not_not_intro rfl), if_neg hc]
  refine exists_exec_act ⟨silent true, trivial, rfl⟩ ?_
  refine exists_exec_act ⟨silent m.calloc, rfl, rfl⟩ ?_
  refine exists_exec_act ⟨silent true, trivial, rfl⟩ ?_
  have hreply : ∀ (rc : ChatStatus) (s₁ : Server), ∃ tr x s', Exec (Undisturbed P i m) (if rc ≠ .ok then
      respondErr fd "broadcast queue error" else respondOk fd "message sent") s₁ tr x s' := by
    intro rc s₁
    split
    · exact exists_exec_sendAll fd _
    · exact exists_exec_sendAll fd _
  exact exists_exec_act ⟨silent (m.malloc .chat), rfl, rfl⟩ (hreply _ _)

theorem sender_node {username room : Bytes} (h : sender s fd = some (username, room)) :
    ∃ n, (s.registry.nodes.find? fun cur => cur.sockfd == fd) = some n ∧ n.name = username ∧ n.roomName = room := by
  obtain ⟨n, hn, he⟩ := Option.map_eq_some_iff.mp h
  obtain ⟨h₁, h₂⟩ := Prod.mk.inj he
  exact ⟨n, hn, h₁, h₂⟩

/-- Of a registered client's message, the two stores take both or neither. -/
theorem canStore_of_acknowledged {cmd : ParsedCmd} (hcmd : cmd.cmd = .msg) (hc : cstr cmd.arg2 ≠ [])
    (h : Acknowledged P i fd cmd m s) {username room : Bytes} (hs : sender s fd = some (username, room)) :
    canStore m s room = canQueue m s := by
  obtain ⟨n, hn, -, hroom⟩ := sender_node hs
  obtain ⟨tr, rc, s', hx⟩ := exists_exec_msg (P := P) (i := i) (m := m) hn hc
  have hprog : cmd.program P fd = cmdHandleMsg fd (cstr cmd.arg2) := by rw [ParsedCmd.program, hcmd]
  obtain ⟨href, hconf⟩ := h tr rc s' (by rw [hprog]; exact hx)
  obtain ⟨now, evt, -, hrooms, -, hr, hk⟩ := cmdHandleMsg_alone hn hc hx
  rw [hroom] at hrooms
  cases hq : canQueue m s with
  | true =>
    cases hst : canStore m s room with
    | true => rfl
    | false =>
      -- confirmed, but the room table is full
      obtain ⟨_, room', hs', _, _, happ, -⟩ := hconf hcmd (hk.mpr hq)
      rw [hs] at hs'
      obtain ⟨-, rfl⟩ := Prod.mk.inj (Option.some.inj hs')
      obtain ⟨hsame, hnone⟩ := @roomHistoryAdd_full P s.rooms m.calloc room n.name (cstr cmd.arg2) now hst
      rw [hrooms, hsame, hnone] at happ
      have := congrArg List.length happ
      rw [lastN_length] at this
      simp at this
  | false =>
    cases hst : canStore m s room with
    | true =>
      -- refused, but the history has the message
      have hsame := (href (hr.mpr hq)).rooms
      rw [hrooms] at hsame
      exact absurd hsame (roomHistoryAdd_ne hst)
    | false => rfl

theorem add_ok {n : ClientNode} {content : Bytes} (h0 : 0 ∉ content) (hf : Field maxMsgLen content) (mem : Bool) (ts : Int) :
    (Add.mk mem n.roomName n.name content ts).Ok where
  room_noNul := not_mem_take (nul_not_mem_cstr _) _
  room_le := List.length_take_le ..
  username_noNul := not_mem_take (nul_not_mem_cstr _) _
  username_le := List.length_take_le ..
  content_noNul := h0
  content_pos := List.length_pos_iff.mpr hf.ne_nil
  content_le := Nat.le_sub_one_of_lt hf.length_lt

theorem acknowledged_of_canStore {cmd : ParsedCmd} (hcmd : cmd.cmd = .msg) (hf : Field maxMsgLen (cstr cmd.arg2))
    (h : ∀ username room, sender s fd = some (username, room) → canStore m s room = canQueue m s) :
    Acknowledged P i fd cmd m s := by
  intro tr rc s' hx
  have hprog : cmd.program P fd = cmdHandleMsg fd (cstr cmd.arg2) := by rw [ParsedCmd.program, hcmd]
  rw [hprog] at hx
  cases hn : s.registry.nodes.find? fun cur => cur.sockfd == fd with
  | none =>
    obtain ⟨rfl, hconf⟩ := cmdHandleMsg_unregistered hn hx
    refine ⟨fun _ => .refl _, fun _ => ?_⟩
    rintro ⟨q, hq, hk⟩
    rw [hconf q hq] at hk
    cases hk
  | some n =>
    have hs : sender s fd = some (n.name, n.roomName) := by rw [sender, hn]; rfl
    have heq := h _ _ hs
    obtain ⟨now, evt, hreg, hrooms, hqueue, hr, hk⟩ := cmdHandleMsg_alone hn hf.ne_nil hx
    obtain ⟨hcan, hcannot⟩ := mqPush_canQueue (m := m) (s := s) (chatEvent evt n.name n.roomName (cstr cmd.arg2) now)
    refine ⟨fun href => ?_, fun _ hconf => ⟨_, _, hs, now, evt, ?_, ?_⟩⟩
    · have hq := hr.mp href
      rw [hq] at heq
      exact ⟨hreg, by rw [hrooms, (roomHistoryAdd_full heq).1], by rw [hqueue, (hcannot hq).2]⟩
    · rw [hk.mp hconf] at heq
      rw [hrooms]
      exact roomHistoryAdd_entries (add_ok (nul_not_mem_cstr _) hf m.calloc now) heq
    · rw [hqueue, hcan (hk.mp hconf)]

/-- **Replies and effects** agree exactly unless a message can be stored and not
queued, or queued and not stored. -/
theorem acknowledged_iff {line : Bytes} {cmd : ParsedCmd} (h : Accepts line cmd) :
    Acknowledged P i fd cmd m s ↔
      (cmd.cmd = .msg → ∀ username room, sender s fd = some (username, room) → canStore m s room = canQueue m s) := by
  by_cases hcmd : cmd.cmd = .msg
  · obtain ⟨hf, -⟩ := accepts_msg h hcmd
    exact ⟨fun ha _ _ _ hs => canStore_of_acknowledged hcmd hf.ne_nil ha hs, fun hc => acknowledged_of_canStore hcmd hf (hc hcmd)⟩
  · refine iff_of_true (fun tr rc s' hx => ⟨refused_sameData (program_tally P fd hcmd) hx, fun h => absurd h hcmd⟩)
      fun h => absurd h hcmd

end

/-- A server with `bob` in the lobby on descriptor 5. -/
def bobOnline : Server :=
  { serverInit passDb with
    registry := (registryAdd registryInit (some (filledBlock 1 0)) 5 (lit "bob") defaultRoom false).2 }

theorem acknowledged_bob :
    Acknowledged passPlatform 0 5 (parsedClient (lit "MSG hi")) { calloc := false, malloc := fun _ => true } bobOnline := by
  have hline : Accepts (lit "MSG hi") (parsedClient (lit "MSG hi")) := by decide +kernel
  refine (acknowledged_iff hline).mpr fun _ username room hs => ?_
  have hbob : sender bobOnline 5 = some (lit "bob", lit "lobby") := by decide +kernel
  obtain ⟨-, rfl⟩ := Prod.mk.inj (Option.some.inj (hbob.symm.trans hs))
  decide +kernel

/-- `bob` has logged in, and no memory is left for the event: his message is
refused, and stored. -/
theorem msg_refused_and_stored : ∃ tr c h, Run (System.Step passPlatform Env.Terminated) (System.init passDb) tr c ∧
    c.handler 0 = some h ∧ h.settled = true ∧ h.authenticated = true ∧
    Accepts (lit "MSG hi") (parsedClient (lit "MSG hi")) ∧
    ¬ Acknowledged passPlatform 0 h.fd (parsedClient (lit "MSG hi")) { calloc := true, malloc := fun _ => false } c.shared := by
  obtain ⟨tr, c, hr, hp⟩ := System.exists_run passPlatform Env.Terminated (System.init passDb) _ (sunny_logIn 0 5 "bob")
    (p := fun q => ((q.2.handler 0).any fun h => h.settled && h.authenticated && h.fd == 5) &&
      sender q.2.shared 5 == some (lit "bob", lit "lobby") &&
      canStore { calloc := true, malloc := fun _ => false } q.2.shared (lit "lobby")) (by decide +kernel)
  simp only [Bool.and_eq_true, beq_iff_eq] at hp
  obtain ⟨⟨hhandler, hs⟩, hstore⟩ := hp
  obtain ⟨h, hh, hp⟩ := (Option.any_eq_true _ _).mp hhandler
  simp only [Bool.and_eq_true, beq_iff_eq] at hp
  obtain ⟨⟨hset, ha⟩, hfd⟩ := hp
  refine ⟨tr, c, h, hr, hh, hset, ha, by decide +kernel, fun hack => ?_⟩
  rw [hfd] at hack
  have heq := canStore_of_acknowledged (by decide +kernel) (by decide +kernel) hack hs
  rw [hstore] at heq
  cases heq

end ChatServer

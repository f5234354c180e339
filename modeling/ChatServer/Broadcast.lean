import ChatServer.RegistrySound
import ChatServer.Sending

/-!
# Broadcasting a line to a room

`send_to_client` and `broadcast_line_to_room`. The traversal stops at the first
callback that fails, so a member of the room is reached exactly when no member
before it in the list has a failing socket.
-/

namespace ChatServer

open CStr

def sendToClient (room line : Bytes) (node : ClientNode) : Cmd ChatStatus := do
  if !streq node.room room then return .ok
  if (← sendAll node.sockfd line) ≠ .ok then return .errIo
  return .ok

def broadcastLineToRoom (registry : ClientRegistry) (room line : Bytes) : Cmd Unit := do
  let _ ← registryForeach (sendToClient room line) registry.nodes

def memberCount (nodes : List ClientNode) (room : Bytes) (fd : Int) : Nat :=
  nodes.countP fun node => streq node.room room && node.sockfd == fd

/-- Every working descriptor got the line once for each of its clients in the
room, and no descriptor got anything else. -/
def DeliveredToRoom (works : Int → Bool) (nodes : List ClientNode) (room line : Bytes)
    (tr : List ((a : Act) × a.Ret)) : Prop :=
  ∀ fd, delivered tr fd = (List.replicate (if works fd then memberCount nodes room fd else 0) line).flatten

/-- No working member of the room stands behind a failing one. -/
def FailuresLast (works : Int → Bool) (nodes : List ClientNode) (room : Bytes) : Prop :=
  nodes.Pairwise fun a b => streq a.room room = true → works a.sockfd = false → streq b.room room = true →
    works b.sockfd = false

instance (works : Int → Bool) (nodes : List ClientNode) (room : Bytes) : Decidable (FailuresLast works nodes room) :=
  inferInstanceAs (Decidable (List.Pairwise _ _))

section
variable {works : Int → Bool} {mgr : RoomManager} {room line : Bytes}

theorem memberCount_eq_zero {nodes : List ClientNode} {fd : Int} :
    memberCount nodes room fd = 0 ↔ ∀ node ∈ nodes, streq node.room room = true → node.sockfd ≠ fd := by
  simp [memberCount, List.countP_eq_zero]

theorem sendToClient_other {node : ClientNode} (hroom : streq node.room room = false)
    {tr : List ((a : Act) × a.Ret)} {rc : ChatStatus}
    (h : Prog.Exec (Wire works mgr) (sendToClient room line node) () tr rc ()) : tr = [] ∧ rc = .ok := by
  unfold sendToClient at h
  rw [hroom] at h
  exact ⟨h.1, h.2.1⟩

theorem sendToClient_member {node : ClientNode} (hroom : streq node.room room = true)
    {tr : List ((a : Act) × a.Ret)} {rc : ChatStatus}
    (h : Prog.Exec (Wire works mgr) (sendToClient room line node) () tr rc ()) :
    ∃ rc', Prog.Exec (Wire works mgr) (sendAll node.sockfd line) () tr rc' () ∧ (rc = .ok ↔ rc' = .ok) := by
  unfold sendToClient at h
  rw [hroom] at h
  obtain ⟨tr₁, rc', ⟨⟩, tr₂, rfl, hsend, hret⟩ := (Prog.exec_bind _ _ _ _ _ _ _).mp h
  by_cases hok : rc' = .ok
  · subst hok
    obtain ⟨rfl, rfl, -⟩ := hret
    exact ⟨.ok, by rwa [List.append_nil], Iff.rfl⟩
  · rw [if_pos hok] at hret
    obtain ⟨rfl, rfl, -⟩ := hret
    exact ⟨rc', by rwa [List.append_nil], iff_of_false nofun hok⟩

theorem deliveredToRoom_cons_other {node : ClientNode} (hroom : streq node.room room = false) (nodes : List ClientNode)
    (tr : List ((a : Act) × a.Ret)) :
    DeliveredToRoom works (node :: nodes) room line tr ↔ DeliveredToRoom works nodes room line tr := by
  simp only [DeliveredToRoom, memberCount, List.countP_cons, hroom, Bool.false_and, Bool.false_eq_true, ite_false,
    Nat.add_zero]

theorem deliveredToRoom_cons_works {node : ClientNode} (hroom : streq node.room room = true)
    (hw : works node.sockfd = true) (nodes : List ClientNode) {tr₁ tr₂ : List ((a : Act) × a.Ret)}
    (hd : delivered tr₁ node.sockfd = line) (hother : ∀ fd, fd ≠ node.sockfd → delivered tr₁ fd = []) :
    DeliveredToRoom works (node :: nodes) room line (tr₁ ++ tr₂) ↔ DeliveredToRoom works nodes room line tr₂ := by
  refine forall_congr' fun fd => ?_
  rw [delivered_append, memberCount, List.countP_cons, hroom, Bool.true_and]
  by_cases hfd : node.sockfd = fd
  · subst hfd
    simp only [beq_self_eq_true, ite_true, hw]
    rw [hd, List.replicate_succ, List.flatten_cons, List.append_cancel_left_eq]
    rfl
  · have : (node.sockfd == fd) = false := by simpa using hfd
    simp only [this, Bool.false_eq_true, ite_false, Nat.add_zero]
    rw [hother fd (Ne.symm hfd), List.nil_append]
    rfl

theorem registryForeach_delivers (hline : line ≠ []) : ∀ (nodes : List ClientNode) {tr : List ((a : Act) × a.Ret)}
    {rc : ChatStatus}, Prog.Exec (Wire works mgr) (registryForeach (sendToClient room line) nodes) () tr rc () →
      (DeliveredToRoom works nodes room line tr ↔ FailuresLast works nodes room)
  | [], tr, rc, h => by
    obtain ⟨rfl, -, -⟩ := h
    refine iff_of_true (fun fd => ?_) List.Pairwise.nil
    simp [delivered, memberCount]
  | node :: nodes, tr, rc, h => by
    unfold registryForeach at h
    obtain ⟨tr₁, rc₁, ⟨⟩, tr₂, rfl, hcb, hrest⟩ := (Prog.exec_bind _ _ _ _ _ _ _).mp h
    unfold FailuresLast
    rw [List.pairwise_cons]
    cases hroom : streq node.room room with
    | false =>
      obtain ⟨rfl, rfl⟩ := sendToClient_other hroom hcb
      rw [List.nil_append, deliveredToRoom_cons_other hroom, registryForeach_delivers hline nodes hrest]
      exact (and_iff_right fun _ _ hf => absurd hf (by simp)).symm
    | true =>
      obtain ⟨rc', hsend, hiff⟩ := sendToClient_member hroom hcb
      cases hw : works node.sockfd with
      | true =>
        obtain ⟨rfl, hd, hother⟩ := sendAll_works hw hsend
        obtain rfl : rc₁ = .ok := hiff.mpr rfl
        rw [deliveredToRoom_cons_works hroom hw nodes hd hother, registryForeach_delivers hline nodes hrest]
        exact (and_iff_right fun _ _ _ hf => absurd hf (by simp)).symm
      | false =>
        -- the traversal is over, and nothing was delivered
        obtain ⟨rfl, hnone⟩ := sendAll_fails hw hline hsend
        have hne : rc₁ ≠ .ok := fun e => nomatch hiff.mp e
        rw [if_pos hne] at hrest
        obtain ⟨rfl, -, -⟩ := hrest
        rw [List.append_nil]
        constructor
        · intro hd
          have hfail : ∀ b ∈ nodes, streq b.room room = true → works b.sockfd = false := by
            intro b hb hbroom
            by_contra hbw
            have hcount := hd b.sockfd
            rw [hnone, if_pos (by simpa using hbw)] at hcount
            have hzero : memberCount (node :: nodes) room b.sockfd = 0 := by
              by_contra hpos
              obtain ⟨k, hk⟩ := Nat.exists_eq_succ_of_ne_zero hpos
              rw [hk, List.replicate_succ, List.flatten_cons] at hcount
              exact hline (List.append_eq_nil_iff.mp hcount.symm).1
            exact memberCount_eq_zero.mp hzero b (List.mem_cons_of_mem _ hb) hbroom rfl
          refine ⟨fun b hb _ _ => hfail b hb, ?_⟩
          exact List.pairwise_of_forall_mem_list fun _ _ b hb _ _ => hfail b hb
        · rintro ⟨hfail, -⟩ fd
          rw [hnone]
          split
          · rename_i hfd
            have hzero : memberCount (node :: nodes) room fd = 0 := by
              rw [memberCount_eq_zero]
              rintro b hb hbroom rfl
              rcases List.mem_cons.mp hb with rfl | hb
              · rw [hw] at hfd; cases hfd
              · rw [hfail b hb rfl rfl hbroom] at hfd; cases hfd
            rw [hzero]; rfl
          · rfl

theorem registryForeach_empty : ∀ (nodes : List ClientNode) {tr : List ((a : Act) × a.Ret)} {rc : ChatStatus},
    Prog.Exec (Wire works mgr) (registryForeach (sendToClient room []) nodes) () tr rc () → tr = []
  | [], _, _, h => h.1
  | node :: nodes, tr, rc, h => by
    unfold registryForeach at h
    obtain ⟨tr₁, rc₁, ⟨⟩, tr₂, rfl, hcb, hrest⟩ := (Prog.exec_bind _ _ _ _ _ _ _).mp h
    have hcb' : tr₁ = [] ∧ rc₁ = .ok := by
      cases hroom : streq node.room room with
      | false => exact sendToClient_other hroom hcb
      | true =>
        obtain ⟨rc', ⟨rfl, rfl, -⟩, hiff⟩ := sendToClient_member hroom hcb
        exact ⟨rfl, hiff.mpr rfl⟩
    obtain ⟨rfl, rfl⟩ := hcb'
    exact registryForeach_empty nodes hrest

theorem registryForeach_delivers_iff {nodes : List ClientNode} {tr : List ((a : Act) × a.Ret)} {rc : ChatStatus}
    (h : Prog.Exec (Wire works mgr) (registryForeach (sendToClient room line) nodes) () tr rc ()) :
    DeliveredToRoom works nodes room line tr ↔ line = [] ∨ FailuresLast works nodes room := by
  by_cases hline : line = []
  · subst hline
    rw [registryForeach_empty nodes h]
    exact iff_of_true (fun fd => by simp [delivered]) (Or.inl rfl)
  · rw [registryForeach_delivers hline nodes h]
    exact (or_iff_right hline).symm

end

/-- **Broadcast delivery.** Every working member of the room gets the line
exactly when the failing members come last in the list (or there is nothing
to send). -/
theorem broadcast_delivers_iff {works : Int → Bool} {mgr : RoomManager} {reg : ClientRegistry} {room line : Bytes}
    {tr : List ((a : Act) × a.Ret)}
    (h : Prog.Exec (Wire works mgr) (broadcastLineToRoom reg room line) () tr () ()) :
    DeliveredToRoom works reg.nodes room line tr ↔ line = [] ∨ FailuresLast works reg.nodes room := by
  unfold broadcastLineToRoom at h
  obtain ⟨tr₁, rc, ⟨⟩, tr₂, rfl, hfor, ⟨rfl, -, -⟩⟩ := (Prog.exec_bind _ _ _ _ _ _ _).mp h
  rw [List.append_nil]
  exact registryForeach_delivers_iff hfor

theorem broadcast_last_fails :
    DeliveredToRoom (fun fd => fd != 6) lobbyPair.nodes defaultRoom (lit "hi")
      [⟨.send 5 (lit "hi") 0, some 2⟩, ⟨.send 6 (lit "hi") 0, none⟩] := by
  have hexec : Prog.Exec (Wire (fun fd => fd != 6) roomManagerInit) (broadcastLineToRoom lobbyPair defaultRoom (lit "hi"))
      () [⟨.send 5 (lit "hi") 0, some 2⟩, ⟨.send 6 (lit "hi") 0, none⟩] () () :=
    ⟨some 2, (), _, rfl, ⟨2, rfl, by decide, by decide⟩, none, (), [], rfl, rfl, rfl, rfl, rfl⟩
  exact (broadcast_delivers_iff hexec).mpr (Or.inr (by decide +kernel))

/-- The socket of the first client fails, and the second one gets nothing. -/
theorem broadcast_first_fails :
    Prog.Exec (Wire (fun fd => fd != 5) roomManagerInit) (broadcastLineToRoom lobbyPair defaultRoom (lit "hi")) ()
      [⟨.send 5 (lit "hi") 0, none⟩] () () ∧
    ¬ DeliveredToRoom (fun fd => fd != 5) lobbyPair.nodes defaultRoom (lit "hi") [⟨.send 5 (lit "hi") 0, none⟩] := by
  refine ⟨⟨none, (), [], rfl, rfl, rfl, rfl, rfl⟩, fun h => ?_⟩
  have h6 := h 6
  revert h6
  decide +kernel

end ChatServer

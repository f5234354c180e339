import ChatServer.Commands

/-!
# What the send loops deliver

A program run alone over sockets that each work or fail: a working one takes
at least one byte of what is offered, a failing one answers `-1`. `delivered`
collects the bytes that a descriptor took.
-/

namespace ChatServer

open CStr

/-- The answers of the sockets, and of a room manager that nobody changes. -/
def Wire (works : Int → Bool) (mgr : RoomManager) : (a : Act) → Unit → a.Ret → Unit → Prop
  | .send fd buf sent, _, r, _ => if works fd then ∃ n : Nat, r = some n ∧ 0 < n ∧ n ≤ buf.length - sent else r = none
  | .roomHistoryFormat room buflen, _, r, _ => r = roomHistoryFormat mgr room buflen
  | _, _, _, _ => False

def taken (fd : Int) : (a : Act) × a.Ret → Bytes
  | ⟨.send fd' buf sent, some n⟩ => if fd' = fd then (buf.drop sent).take n else []
  | _ => []

def delivered (tr : List ((a : Act) × a.Ret)) (fd : Int) : Bytes := tr.flatMap (taken fd)

theorem delivered_append (tr tr' : List ((a : Act) × a.Ret)) (fd : Int) :
    delivered (tr ++ tr') fd = delivered tr fd ++ delivered tr' fd := List.flatMap_append

section
variable {works : Int → Bool} {mgr : RoomManager}

theorem sendLoop_works {fd : Int} (hw : works fd = true) (buf : Bytes) : ∀ (fuel sent : Nat), buf.length - sent ≤ fuel →
    ∀ {tr : List ((a : Act) × a.Ret)} {rc : ChatStatus}, Prog.Exec (Wire works mgr) (sendLoop fd buf fuel sent) () tr rc () →
      rc = .ok ∧ delivered tr fd = buf.drop sent ∧ ∀ fd', fd' ≠ fd → delivered tr fd' = []
  | 0, sent, hf, tr, rc, h => by
    obtain ⟨rfl, rfl, -⟩ := h
    exact ⟨rfl, by rw [List.drop_eq_nil_of_le (by omega)]; rfl, fun _ _ => rfl⟩
  | fuel + 1, sent, hf, tr, rc, h => by
    unfold sendLoop at h
    split at h
    · rename_i hs
      obtain ⟨rfl, rfl, -⟩ := h
      exact ⟨rfl, by rw [List.drop_eq_nil_of_le hs]; rfl, fun _ _ => rfl⟩
    · rename_i hs
      obtain ⟨r, u, tr', rfl, hr, h⟩ := h
      simp only [Wire, hw, ite_true] at hr
      obtain ⟨n, rfl, hpos, hle⟩ := hr
      obtain ⟨k, rfl⟩ : ∃ k, n = k + 1 := ⟨n - 1, by omega⟩
      obtain ⟨hrc, hd, hother⟩ := sendLoop_works hw buf fuel (sent + (k + 1)) (by omega) h
      refine ⟨hrc, ?_, fun fd' hne => ?_⟩
      · show taken fd ⟨.send fd buf sent, some (k + 1)⟩ ++ delivered tr' fd = _
        rw [hd, taken, if_pos rfl, ← List.drop_drop, List.take_append_drop]
      · show taken fd' ⟨.send fd buf sent, some (k + 1)⟩ ++ delivered tr' fd' = _
        rw [hother fd' hne, taken, if_neg hne.symm]; rfl

theorem sendAll_works {fd : Int} (hw : works fd = true) {buf : Bytes} {tr : List ((a : Act) × a.Ret)} {rc : ChatStatus}
    (h : Prog.Exec (Wire works mgr) (sendAll fd buf) () tr rc ()) :
    rc = .ok ∧ delivered tr fd = buf ∧ ∀ fd', fd' ≠ fd → delivered tr fd' = [] := by
  have := sendLoop_works hw buf buf.length 0 (by omega) h
  rwa [List.drop_zero] at this

theorem sendAll_fails {fd : Int} (hw : works fd = false) {buf : Bytes} (hb : buf ≠ [])
    {tr : List ((a : Act) × a.Ret)} {rc : ChatStatus} (h : Prog.Exec (Wire works mgr) (sendAll fd buf) () tr rc ()) :
    rc = .errIo ∧ ∀ fd', delivered tr fd' = [] := by
  obtain ⟨c, rest, rfl⟩ := List.exists_cons_of_ne_nil hb
  obtain ⟨r, u, tr', rfl, hr, h⟩ := h
  simp only [Wire, hw, Bool.false_eq_true, ite_false] at hr
  subst hr
  obtain ⟨rfl, rfl, -⟩ := h
  exact ⟨rfl, fun _ => rfl⟩

end

/-! ## What they issue -/

section
variable {φ : Act → Prop} (hsend : ∀ fd buf sent, ¬ φ (.send fd buf sent))
include hsend

theorem sendLoop_not_ahead (fd : Int) (buf : Bytes) : ∀ fuel sent, ¬ Prog.Ahead φ (sendLoop fd buf fuel sent)
  | 0, _ => Prog.not_ahead_ret _
  | fuel + 1, sent => by
    unfold sendLoop
    split
    · exact Prog.not_ahead_ret _
    refine Prog.not_ahead_act (hsend fd buf sent) fun (r : Option Nat) => ?_
    cases r with
    | none => exact Prog.not_ahead_ret _
    | some n =>
      cases n with
      | zero => exact Prog.not_ahead_ret _
      | succ n => exact sendLoop_not_ahead fd buf fuel (sent + (n + 1))

theorem sendAll_not_ahead (fd : Int) (buf : Bytes) : ¬ Prog.Ahead φ (sendAll fd buf) := sendLoop_not_ahead hsend fd buf _ _

theorem roomHistorySend_not_ahead (hformat : ∀ room buflen, ¬ φ (.roomHistoryFormat room buflen)) (room : Bytes) (fd : Int) :
    ¬ Prog.Ahead φ (roomHistorySendToClient room fd cmdSendResponse) := by
  unfold roomHistorySendToClient
  refine Prog.not_ahead_act (hformat room maxLineLen) ?_
  rintro ⟨rc, payload⟩
  show ¬ Prog.Ahead φ (if rc ≠ .ok then pure ChatStatus.err else if (protocolBuildServerHistory maxLineLen payload).1 ≠ .ok then
    pure ChatStatus.err else cmdSendResponse fd (protocolBuildServerHistory maxLineLen payload).2)
  split
  · exact Prog.not_ahead_ret _
  split
  · exact Prog.not_ahead_ret _
  · exact sendAll_not_ahead hsend fd _

end

end ChatServer

import ChatServer.Threads
import ChatServer.Traversal

/-!
# The broadcaster alone

With nobody at the registry meanwhile, the broadcaster's walk along the list
performs `registry_foreach`: the address it keeps always finds the node it
left, so what it sends is what the loop over the list sends.
-/

namespace ChatServer

open CStr Interleave Prog

def Walks : Act → Prop
  | .foreachFirst | .foreachNext _ => True
  | _ => False

/-- The answers that a registry with these nodes and the sockets give. -/
def Alone (works : Int → Bool) (mgr : RoomManager) (nodes : List ClientNode) : (a : Act) → a.Ret → Prop
  | .foreachFirst, r => r = nodes.head?
  | .foreachNext cur, r => ∃ dangling, r = (nodeAfter cur nodes).getD dangling
  | a, r => Wire works mgr a () r ()

theorem sendToClient_not_walks (room line : Bytes) (node : ClientNode) : ¬ Ahead Walks (sendToClient room line node) := by
  unfold sendToClient
  split
  · exact not_ahead_ret _
  refine not_ahead_bind (sendAll_not_ahead (fun _ _ _ => id) _ _) fun rc => ?_
  split
  · exact not_ahead_ret _
  · exact not_ahead_ret _

namespace Broadcaster

section
variable {P : Platform} {works : Int → Bool} {mgr : RoomManager} {nodes : List ClientNode} {room line : Bytes}

theorem solo_top {tr : List ((a : Act) × a.Ret)} (h : Solo (next P) (Alone works mgr nodes) .top tr .top) : tr = [] := by
  cases h with
  | nil => rfl
  | cons hn hr _ => cases hn; cases hr

/-- The callback runs as a program, and the walk goes on where it returned `CHAT_OK`. -/
theorem solo_afterCallback {cur : Nat} : ∀ {p : Cmd ChatStatus} {tr : List ((a : Act) × a.Ret)}, ¬ Ahead Walks p →
    Solo (next P) (Alone works mgr nodes) (afterCallback room line cur p) tr .top →
    ∃ tr₁ rc tr₂, tr = tr₁ ++ tr₂ ∧ Exec (Wire works mgr) p () tr₁ rc () ∧
      ((rc ≠ .ok ∧ tr₂ = []) ∨ (rc = .ok ∧ Solo (next P) (Alone works mgr nodes) (.stepping room line cur) tr₂ .top))
  | .ret rc, tr, _, h => by
    refine ⟨[], rc, tr, rfl, ⟨rfl, rfl, rfl⟩, ?_⟩
    change Solo _ _ (if rc ≠ .ok then Broadcaster.top else .stepping room line cur) tr .top at h
    by_cases hrc : rc = .ok
    · rw [if_neg (not_not_intro hrc)] at h
      exact Or.inr ⟨hrc, h⟩
    · rw [if_pos hrc] at h
      exact Or.inl ⟨hrc, solo_top h⟩
  | .act a k, tr, hp, h => by
    cases h with
    | @cons _ _ b kb r tr' hn hr h =>
      cases hn
      have hwire : Wire works mgr a () r () := by
        cases a with
        | foreachFirst | foreachNext => exact absurd (.here trivial) hp
        | _ => exact hr
      obtain ⟨tr₁, rc, tr₂, rfl, he, hend⟩ := solo_afterCallback (fun hah => hp (.later r hah)) h
      exact ⟨⟨a, r⟩ :: tr₁, rc, tr₂, rfl, ⟨r, (), tr₁, rfl, hwire, he⟩, hend⟩

theorem solo_visit (haddrs : (nodes.map ClientNode.addr).Nodup) : ∀ {post pre : List ClientNode}, nodes = pre ++ post →
    ∀ {tr : List ((a : Act) × a.Ret)}, Solo (next P) (Alone works mgr nodes) (visit room line post.head?) tr .top →
    ∃ tr' rc, Exec (Wire works mgr) (registryForeach (sendToClient room line) post) () tr' rc () ∧
      ∀ fd, delivered tr fd = delivered tr' fd
  | [], _, _, tr, h => by
    obtain rfl : tr = [] := solo_top h
    exact ⟨[], .ok, ⟨rfl, rfl, rfl⟩, fun _ => rfl⟩
  | node :: post, pre, hnodes, tr, h => by
    unfold registryForeach
    obtain ⟨tr₁, rc, tr₂, rfl, he, hend⟩ := solo_afterCallback (sendToClient_not_walks room line node) h
    rcases hend with ⟨hrc, rfl⟩ | ⟨rfl, hstep⟩
    · refine ⟨tr₁, rc, ?_, fun fd => by rw [List.append_nil]⟩
      refine (exec_bind _ _ _ _ _ _ _).mpr ⟨tr₁, rc, (), [], by rw [List.append_nil], he, ?_⟩
      rw [if_pos hrc]
      exact ⟨rfl, rfl, rfl⟩
    · cases hstep with
      | @cons _ _ b kb r tr₃ hn hr h =>
        cases hn
        obtain ⟨dangling, rfl⟩ := hr
        have hpre : ∀ n ∈ pre, n.addr ≠ node.addr := by
          rw [hnodes] at haddrs
          exact (addrs_split haddrs).1
        have hnext : (nodeAfter node.addr nodes).getD dangling = post.head? := by
          rw [hnodes, nodeAfter_append hpre]
          rfl
        rw [hnext] at h
        have hsplit : nodes = (pre ++ [node]) ++ post := by rw [hnodes, List.append_assoc]; rfl
        obtain ⟨tr', rc, he', hd⟩ := solo_visit haddrs hsplit h
        refine ⟨tr₁ ++ tr', rc, (exec_bind _ _ _ _ _ _ _).mpr ⟨tr₁, .ok, (), tr', rfl, he, he'⟩, fun fd => ?_⟩
        rw [delivered_append, delivered_append, ← hd]
        rfl

/-- What the broadcaster sends for an event is what `registry_foreach` over the list sends. -/
theorem solo_foreach (haddrs : (nodes.map ClientNode.addr).Nodup) {tr : List ((a : Act) × a.Ret)}
    (h : Solo (next P) (Alone works mgr nodes) (.first room line) tr .top) :
    ∃ tr' rc, Exec (Wire works mgr) (registryForeach (sendToClient room line) nodes) () tr' rc () ∧
      ∀ fd, delivered tr fd = delivered tr' fd := by
  cases h with
  | @cons _ _ b kb r tr₁ hn hr h =>
    cases hn
    obtain rfl : r = nodes.head? := hr
    obtain ⟨tr', rc, he, hd⟩ := solo_visit haddrs (show nodes = [] ++ nodes from rfl) h
    refine ⟨tr', rc, he, fun fd => ?_⟩
    rw [← hd]
    rfl

theorem solo_delivers_iff (haddrs : (nodes.map ClientNode.addr).Nodup) {tr : List ((a : Act) × a.Ret)}
    (h : Solo (next P) (Alone works mgr nodes) (.first room line) tr .top) :
    DeliveredToRoom works nodes room line tr ↔ line = [] ∨ FailuresLast works nodes room := by
  obtain ⟨tr', rc, he, hd⟩ := solo_foreach haddrs h
  rw [← registryForeach_delivers_iff he]
  exact forall_congr' fun fd => by rw [hd]

end
end Broadcaster
end ChatServer

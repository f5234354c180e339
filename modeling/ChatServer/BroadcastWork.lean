import ChatServer.Hearsay
import ChatServer.Work

/-!
# How long a broadcast takes

The walk for one event visits each node at most once, and a visit sends at
most as often as the line has bytes. So the broadcaster comes back to the
queue, and once the flag is down it soon comes to its end, for
`server_shutdown` to join it.
-/

namespace ChatServer

open CStr Interleave Prog

/-- The calls that wait for an event. -/
def Act.pops : Act → Nat
  | .mqPop => 1
  | _ => 0

/-- What a visit may cost, with the step to the next node. -/
def visitWork : Nat := maxLineLen + 1

def broadcastWork : Nat := maxClients * visitWork + 3

/-- The broadcaster is back at the queue within `n` actions. -/
def Broadcaster.Owes (s : Server) : Broadcaster → Nat → Prop
  | .top, n => 2 ≤ n
  | .popping, n => 1 ≤ n
  | .first _ line, n => 0 < line.length ∧ line.length ≤ maxLineLen ∧ broadcastWork ≤ n
  | .sending _ line cur p, n => 0 < line.length ∧ line.length ≤ maxLineLen ∧ ∃ pre k post fuel sent, keys s = pre ++ (cur, k) :: post ∧
      p = castLoop k line fuel sent ∧ sent < line.length ∧ line.length ≤ sent + fuel ∧
      line.length - sent + post.length * visitWork + 3 ≤ n
  | .stepping _ line cur, n => 0 < line.length ∧ line.length ≤ maxLineLen ∧ ∃ pre k post, keys s = pre ++ (cur, k) :: post ∧
      post.length * visitWork + 3 ≤ n
  | .done, _ => True

theorem eventLine_length_le {P : Platform} {msg : MqMessage} {line : Bytes} (h : eventLine P msg = some line) : line.length ≤ maxLineLen := by
  unfold eventLine at h
  cases htype : msg.type with
  | shutdown => rw [htype] at h; cases h
  | _ =>
    rw [htype] at h
    simp only [Option.ite_none_right_eq_some, Option.some.injEq] at h
    rw [← h.2]
    exact buildLine_length_le _ _

namespace Broadcaster

section
variable {P : Platform} {s s' : Server} {room line : Bytes} {n : Nat}

/-- The walk enters the rest of the list. -/
theorem visit_owes (hpos : 0 < line.length) (hlen : line.length ≤ maxLineLen) (pre : List ClientNode) {post : List ClientNode}
    (hnodes : s.registry.nodes = pre ++ post) (hn : post.length * visitWork + 2 ≤ n) : (visit room line post.head?).Owes s n := by
  cases post with
  | nil =>
    show 2 ≤ n
    omega
  | cons node post =>
    have hkeys : keys s = pre.map (fun n => (n.addr, n.sockfd)) ++ (node.addr, node.sockfd) :: post.map fun n => (n.addr, n.sockfd) := by
      rw [keys, hnodes, List.map_append]
      rfl
    have hwork : (post.map fun n => (n.addr, n.sockfd)).length * visitWork + maxLineLen + 3 ≤ n := by
      rw [List.length_map]
      simp only [List.length_cons, Nat.add_mul, visitWork] at hn ⊢
      omega
    show (afterCallback room line node.addr (sendToClient room line node)).Owes s n
    by_cases hroom : cstr node.room = cstr room
    · obtain ⟨k, hact, -⟩ := castLoop_act node.sockfd hpos hpos
      rw [sendToClient_member_room hroom, hact]
      exact ⟨hpos, hlen, _, node.sockfd, _, line.length, 0, hkeys, hact.symm, hpos, by omega, by omega⟩
    · rw [sendToClient_other_room hroom]
      exact ⟨hpos, hlen, _, node.sockfd, _, hkeys, by omega⟩

theorem onEvent_owes {msg : MqMessage} (hn : broadcastWork ≤ n) : (onEvent P msg).Owes s n := by
  have hwork : 2 ≤ broadcastWork := by decide
  unfold onEvent
  split
  · trivial
  split
  · exact hwork.trans hn
  · rename_i line hl
    exact ⟨eventLine_nonempty hl, eventLine_length_le hl, hn⟩

theorem owes_next {b : Broadcaster} (hi : Consistent s) (hcount : s.registry.nodes.length ≤ maxClients) (h : b.Owes s n) {a : Act}
    {k : a.Ret → Broadcaster} (hb : b.next P = some ⟨a, k⟩) {e : Env} {r : a.Ret} (hx : exec P .broadcaster a e s = some (r, s')) :
    ∃ m, (k r).Owes s' m ∧ 1 + m ≤ n + broadcastWork * a.pops := by
  cases b with
  | top =>
    cases hb
    change Bool at r
    change 2 ≤ n at h
    refine ⟨n - 1, ?_, by omega⟩
    cases r with
    | true =>
      show 1 ≤ n - 1
      omega
    | false => trivial
  | popping =>
    cases hb
    change ChatStatus × Option MqMessage at r
    change 1 ≤ n at h
    refine ⟨n - 1 + broadcastWork, ?_, by rw [Act.pops]; omega⟩
    obtain ⟨rc, msg⟩ := r
    cases rc with
    | ok =>
      cases msg with
      | none => trivial
      | some msg => exact onEvent_owes (Nat.le_add_left ..)
    | _ => trivial
  | first room line =>
    cases hb
    cases hx
    obtain ⟨hpos, hlen, hn⟩ := h
    refine ⟨n - 1, visit_owes hpos hlen [] rfl ?_, ?_⟩
    · have hmul : s.registry.nodes.length * visitWork ≤ maxClients * visitWork := Nat.mul_le_mul_right _ hcount
      simp only [broadcastWork] at hn
      omega
    · simp only [broadcastWork] at hn
      omega
  | stepping room line cur =>
    cases hb
    cases hx
    obtain ⟨hpos, hlen, pre, key, post, hkeys, hn⟩ := h
    obtain ⟨pre', node, post', hnodes, rfl, hpost⟩ := keys_split hkeys
    have haddrs := hi.addrs
    rw [hnodes] at haddrs
    have hnext : (nodeAfter node.addr s.registry.nodes).getD e.dangling = post'.head? := by
      rw [hnodes, nodeAfter_append (addrs_split haddrs).1]
      rfl
    have hsame : post'.length = post.length := by simpa using congrArg List.length hpost
    rw [hnext]
    exact ⟨n - 1, visit_owes hpos hlen (pre' ++ [node]) (by rw [hnodes, List.append_assoc]; rfl) (by rw [hsame]; omega), by omega⟩
  | sending room line cur p =>
    obtain ⟨hpos, hlen, pre, key, post, fuel, sent, hkeys, rfl, hs, hf, hn⟩ := h
    obtain ⟨k', hact, hk', hfail⟩ := castLoop_act key hs (show 0 < fuel by omega)
    rw [hact] at hb
    cases hb
    change Option Nat at r
    obtain rfl : s = s' := (Prod.mk.inj (Option.some.inj hx)).2
    refine ⟨n - 1, ?_, by omega⟩
    show (afterCallback room line cur (k' r)).Owes s (n - 1)
    by_cases hgone : ∃ n, 0 < n ∧ r = some n
    · obtain ⟨w, hw, rfl⟩ := hgone
      rw [hk' w hw]
      by_cases hmore : sent + w < line.length
      · obtain ⟨k'', hact', -⟩ := castLoop_act key hmore (show 0 < fuel - 1 by omega)
        rw [hact']
        exact ⟨hpos, hlen, pre, key, post, fuel - 1, sent + w, hkeys, hact'.symm, hmore, by omega, by omega⟩
      · rw [castLoop_done (Nat.not_lt.mp hmore)]
        exact ⟨hpos, hlen, pre, key, post, hkeys, by omega⟩
    · rw [hfail r fun n hn he => hgone ⟨n, hn, he⟩]
      show 2 ≤ n - 1
      omega
  | done => cases hb

theorem Owes.other {b : Broadcaster} (h : b.Owes s n) (hbehind : ∀ cur, b.cursor = some cur → ∀ pre k post, keys s = pre ++ (cur, k) :: post →
    ∃ pre' post', keys s' = pre' ++ (cur, k) :: post' ∧ (post'.map Prod.snd).Sublist (post.map Prod.snd)) : b.Owes s' n := by
  cases b with
  | sending room line cur p =>
    obtain ⟨hpos, hlen, pre, k, post, fuel, sent, hkeys, hp, hs, hf, hn⟩ := h
    obtain ⟨pre', post', hkeys', hsub⟩ := hbehind cur rfl _ _ _ hkeys
    have hle : post'.length ≤ post.length := by simpa using hsub.length_le
    have hmul : post'.length * visitWork ≤ post.length * visitWork := Nat.mul_le_mul_right _ hle
    exact ⟨hpos, hlen, pre', k, post', fuel, sent, hkeys', hp, hs, hf, by omega⟩
  | stepping room line cur =>
    obtain ⟨hpos, hlen, pre, k, post, hkeys, hn⟩ := h
    obtain ⟨pre', post', hkeys', hsub⟩ := hbehind cur rfl _ _ _ hkeys
    have hle : post'.length ≤ post.length := by simpa using hsub.length_le
    have hmul : post'.length * visitWork ≤ post.length * visitWork := Nat.mul_le_mul_right _ hle
    exact ⟨hpos, hlen, pre', k, post', hkeys', by omega⟩
  | _ => exact h

/-- Wherever it stands, one broadcast's work is enough. -/
theorem Owes.enough {b : Broadcaster} (h : b.Owes s n) (hcount : s.registry.nodes.length ≤ maxClients) : b.Owes s broadcastWork := by
  have hbehind : ∀ {cur : Nat} {pre post : List (Nat × Int)} {k : Int}, keys s = pre ++ (cur, k) :: post →
      post.length * visitWork + visitWork ≤ maxClients * visitWork := by
    intro cur pre post k hkeys
    have hlen : (keys s).length = s.registry.nodes.length := List.length_map _
    rw [hkeys, List.length_append, List.length_cons] at hlen
    rw [← Nat.succ_mul]
    exact Nat.mul_le_mul_right _ (by omega)
  cases b with
  | top => exact (by decide : 2 ≤ broadcastWork)
  | popping => exact (by decide : 1 ≤ broadcastWork)
  | first => exact ⟨h.1, h.2.1, Nat.le_refl _⟩
  | sending room line cur p =>
    obtain ⟨hpos, hlen, pre, k, post, fuel, sent, hkeys, hp, hs, hf, -⟩ := h
    have hle := hbehind hkeys
    refine ⟨hpos, hlen, pre, k, post, fuel, sent, hkeys, hp, hs, hf, ?_⟩
    simp only [visitWork, broadcastWork] at hle ⊢
    omega
  | stepping room line cur =>
    obtain ⟨hpos, hlen, pre, k, post, hkeys, -⟩ := h
    have hle := hbehind hkeys
    refine ⟨hpos, hlen, pre, k, post, hkeys, ?_⟩
    simp only [broadcastWork]
    omega
  | done => trivial

/-- A broadcaster that has not come to its end owes something. -/
theorem Owes.pos {b : Broadcaster} (h : b.Owes s 0) : b = .done := by
  cases b with
  | done => rfl
  | top => exact absurd h (show ¬ 2 ≤ 0 by decide)
  | popping => exact absurd h (show ¬ 1 ≤ 0 by decide)
  | first room line => exact absurd h.2.2 (by decide)
  | sending room line cur p =>
    obtain ⟨-, -, pre, k, post, fuel, sent, -, -, -, -, hn⟩ := h
    omega
  | stepping room line cur =>
    obtain ⟨-, -, pre, k, post, -, hn⟩ := h
    omega

/-- Only an empty queue keeps the broadcaster waiting. -/
theorem Owes.goes {b : Broadcaster} (h : b.Owes s n) :
    b = .done ∨ (b = .popping ∧ s.queue.msgs = [] ∧ s.queue.shutdown = false) ∨
      ∃ a k, b.next P = some ⟨a, k⟩ ∧ ∀ e, (exec P .broadcaster a e s).isSome := by
  cases b with
  | done => exact Or.inl rfl
  | popping =>
    cases hpop : mqPop s.queue with
    | none =>
      refine Or.inr (Or.inl ⟨rfl, ?_⟩)
      unfold mqPop at hpop
      cases hmsgs : s.queue.msgs with
      | nil => simpa [hmsgs] using hpop
      | cons msg rest => simp [hmsgs] at hpop
    | some q =>
      refine Or.inr (Or.inr ⟨_, _, rfl, fun e => ?_⟩)
      unfold exec
      simp only [hpop, Option.isSome_some]
  | top | first | stepping => exact Or.inr (Or.inr ⟨_, _, rfl, fun _ => rfl⟩)
  | sending room line cur p =>
    obtain ⟨-, -, pre, key, post, fuel, sent, -, rfl, hs, hf, -⟩ := h
    obtain ⟨k, hact, -⟩ := castLoop_act key hs (show 0 < fuel by omega)
    rw [hact]
    exact Or.inr (Or.inr ⟨_, _, rfl, fun _ => rfl⟩)

end
end Broadcaster

/-! ## Every run -/

section
variable {P : Platform} {ok : Env → Prop} {db : AuthDb} {tr₀ tr tr₁ tr₂ : List (Label Tid Act.Ret)} {c₀ c c' : System} {l : Label Tid Act.Ret}

end

end ChatServer

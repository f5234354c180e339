import ChatServer.ThreadsSound

/-!
# Sessions and registry agree

In every reachable state a session is registered exactly while it is logged
in, under its own name and descriptor, and nobody is registered twice. What
a handler knows at its point of the code gives its part of it.
-/

namespace ChatServer

open CStr Interleave

namespace Handler

/-- Running, and neither in `AUTH` nor on the way out. -/
def settled (h : Handler) : Bool :=
  match h.point with
  | .top | .reading | .busy .command _ => true
  | _ => false

/-- Not running any more or not yet, or on the way out without having logged in. -/
def out (h : Handler) : Bool :=
  match h.point with
  | .unborn | .done => true
  | .busy .leave _ => !h.authenticated
  | _ => false

structure Agrees (i : Nat) (h : Handler) (s : Server) : Prop where
  node_iff : h.settled = true → ((∃ n ∈ s.registry.nodes, n.sockfd = h.fd) ↔ h.authenticated = true)
  node : h.settled = true → ∀ n ∈ s.registry.nodes, n.sockfd = h.fd →
    s.owner n.addr = i ∧ cstr n.username = h.username
  out : h.out = true → ∀ n ∈ s.registry.nodes, s.owner n.addr ≠ i

section
variable {T : Prop} {i : Nat} {h : Handler} {s : Server} (hi : Inv T s)
include hi

omit hi in
theorem rest_node_iff (hs : Sat (.handler i) h.rest s) :
    (∃ n ∈ s.registry.nodes, n.sockfd = h.fd) ↔ h.authenticated = true := by
  unfold rest at hs
  split at hs
  · rename_i ha
    obtain ⟨-, -, n, hn, hfd, -⟩ := hs
    exact iff_of_true ⟨n, hn, hfd⟩ ha
  · rename_i ha
    refine iff_of_false ?_ ha
    rintro ⟨n, hn, hfd⟩
    exact hs.2.2 n hn hfd

theorem rest_node (hT : T) (hs : Sat (.handler i) h.rest s) {n : ClientNode} (hn : n ∈ s.registry.nodes)
    (hfd : n.sockfd = h.fd) : s.owner n.addr = i ∧ cstr n.username = h.username := by
  have ha : h.authenticated = true := (rest_node_iff hs).mp ⟨n, hn, hfd⟩
  rw [rest, if_pos ha] at hs
  obtain ⟨hc, -, m, hm, hmfd, hname⟩ := hs
  have hnm : n = m := List.inj_on_of_nodup_map hi.1.nodeFds hn hm (hfd.trans hmfd.symm)
  refine ⟨node_owner hi hc hn hfd, ?_⟩
  rw [(hi.2 hT).exact n hn, hnm, hname]

end

end Handler

theorem owner_ne_of_offline {T : Prop} {i : Nat} {s : Server} (hi : Inv T s) {v : View} (hv : ¬ v.IsOnline)
    (hs : Sat (.handler i) v s) : ∀ n ∈ s.registry.nodes, s.owner n.addr ≠ i := by
  cases v with
  | idle | casting | ending | held => cases hs
  | fresh | checked => exact owner_ne hi hs.1 hs.2.2
  | online fd u => exact absurd ⟨fd, u, rfl⟩ hv
  | unborn =>
    intro n hn he
    exact hs.2 _ (hi.1.owned n hn).1 he n hn rfl
  | gone =>
    intro n hn he
    exact hs.2 _ (hi.1.owned n hn).1 he

theorem Handler.Good.agrees {T : Prop} (hT : T) {i : Nat} {h : Handler} {s : Server} (hi : Inv T s)
    (hg : h.Good T i s) : h.Agrees i s := by
  obtain ⟨-, hp⟩ := hg
  have settle : h.settled = true → Sat (.handler i) h.rest s := by
    intro hset
    unfold settled at hset
    split at hset
    · rename_i hpoint; rw [hpoint] at hp; exact hp
    · rename_i hpoint; rw [hpoint] at hp; exact hp
    · rename_i hpoint; rw [hpoint] at hp; exact hp.1
    · cases hset
  refine ⟨fun hset => rest_node_iff (settle hset), fun hset n hn => rest_node hi hT (settle hset) hn, fun hout => ?_⟩
  unfold Handler.out at hout
  split at hout
  · rename_i hpoint
    rw [hpoint] at hp
    exact owner_ne_of_offline hi (by rintro ⟨_, _, he⟩; cases he) hp.2
  · rename_i hpoint
    rw [hpoint] at hp
    exact owner_ne_of_offline hi (by rintro ⟨_, _, he⟩; cases he) hp
  · rename_i hpoint
    rw [hpoint] at hp
    obtain ⟨v, hv, hs, -⟩ := hp
    exact owner_ne_of_offline hi (hv (by simpa using hout)) hs
  · cases hout

section
variable {P : Platform} {db : AuthDb} {tr : List (Label Tid Act.Ret)} {c : System}

theorem sessions_agree (hr : Run (System.Step P Env.Terminated) (System.init db) tr c) :
    (c.shared.registry.nodes.map fun n => cstr n.username).Nodup ∧
    (c.shared.registry.nodes.map ClientNode.sockfd).Nodup ∧
    ∀ i h, c.handler i = some h → h.Agrees i c.shared := by
  obtain ⟨hi, hg⟩ : Holds (Inv True) (fun tid t => t.Good True tid) c :=
    run_holds (fun _ he _ => he) hr
  refine ⟨?_, hi.1.nodeFds, fun i h hloc => ?_⟩
  · rw [List.map_congr_left (hi.2 trivial).exact]
    exact (hi.2 trivial).names
  · have hgood := hg (.handler i)
    rw [System.handler_eq.mp hloc] at hgood
    exact Handler.Good.agrees trivial hi hgood

end

/-! ### A server where `bob` logs in -/

/-- A platform that knows one digest, and the first second of its clock. -/
def passPlatform : Platform :=
  { sha256 := fun b => if b = lit "pass" then
      [215, 79, 240, 238, 141, 163, 185, 128, 107, 24, 200, 119, 219, 242, 155, 189, 229, 11, 91, 216, 228, 218, 215,
        163, 167, 37, 0, 15, 235, 130, 232, 241] else []
    localtimeR := fun _ => some { year := 1970, mon := 0, mday := 1, hour := 0, min := 0, sec := 0, year_lt := by decide } }

def passDb : AuthDb :=
  [lit "alice", lit "bob"].map fun username =>
    { username := username, isAdmin := false
      passwordHash := lit "d74ff0ee8da3b9806b18c877dbf29bbde50b5bd8e4dad7a3a725000feb82e8f1" }

def sunny (line : String) (fd : Int) (addr : Nat) : Env :=
  { line := some (lit line), sent := some maxLineLen, node := some (filledBlock addr 0), malloc := true, thread := true,
    evp := true, now := 0, fd := some fd, dangling := none
    stack :=
      { type := .chat, username := zeros maxUsernameLen, room := zeros maxRoomNameLen, content := zeros maxMsgLen,
        timestamp := 0, username_length := zeros_length _, room_length := zeros_length _,
        content_length := zeros_length _ } }

theorem sunny_terminated (line : String) (fd : Int) (addr : Nat) : (sunny line fd addr).Terminated := by
  have h : ∀ n : Nat, (List.replicate (n + 1) 0 : Bytes)[n]? = some 0 := by simp
  refine ⟨?_, h 31, h 31, h 511⟩
  rintro _ ⟨⟩
  exact ⟨h 31, h 31⟩

/-- `accept` as descriptor `fd`, and `AUTH` by the handler of session `i` up to its reply. -/
def logIn (i : Nat) (fd : Int) (username : String) : List (Tid × Env) :=
  List.replicate 6 (.main, sunny "" fd 0) ++
    List.replicate 16 (.handler i, sunny ("AUTH " ++ username ++ " pass") fd (i + 1))

theorem sunny_logIn (i : Nat) (fd : Int) (username : String) : ∀ p ∈ logIn i fd username, p.2.Terminated := by
  intro p hp
  rcases List.mem_append.mp hp with hp | hp
  · rw [(List.mem_replicate.mp hp).2]; exact sunny_terminated _ _ _
  · rw [(List.mem_replicate.mp hp).2]; exact sunny_terminated _ _ _

theorem sessions_agree_bob : ∃ tr c h, Run (System.Step passPlatform Env.Terminated) (System.init passDb) tr c ∧
    c.handler 0 = some h ∧ h.settled = true ∧ h.username = lit "bob" ∧
    ((∃ n ∈ c.shared.registry.nodes, n.sockfd = h.fd) ↔ h.authenticated = true) ∧ h.authenticated = true := by
  obtain ⟨tr, c, hr, hp⟩ := System.exists_run passPlatform Env.Terminated (System.init passDb) _ (sunny_logIn 0 5 "bob")
    (p := fun q => (q.2.handler 0).any fun h => h.settled && h.username == lit "bob" && h.authenticated) (by decide +kernel)
  obtain ⟨h, hh, hp⟩ := (Option.any_eq_true _ _).mp hp
  simp only [Bool.and_eq_true, beq_iff_eq] at hp
  obtain ⟨⟨hset, hname⟩, ha⟩ := hp
  exact ⟨tr, c, h, hr, hh, hset, hname, ((sessions_agree hr).2.2 0 h hh).node_iff hset, ha⟩

end ChatServer

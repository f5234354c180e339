import ChatServer.Interleave
import ChatServer.RegistrySound

/-!
# A traversal among other threads

`registry_foreach` against `registry_add` and `registry_remove` of other
threads: the lock is free while the callback runs, and the traversal keeps the
address of its node meanwhile. The node it stands on is the only one whose
removal does harm: as long as nobody removes it, the traversal stays in the
list and visits every client that stays registered exactly once.
-/

namespace ChatServer

open CStr

inductive Cursor where
  | notStarted
  | on (addr : Nat)
  | finished
  deriving DecidableEq

structure Walk where
  reg : ClientRegistry
  cursor : Cursor
  -- the snapshots handed to the callback so far
  visited : List ClientNode
  deriving DecidableEq

inductive WalkLabel where
  | start
  -- `cur = cur->next`, with what is found there when `cur` is not linked
  | advance (dangling : Option ClientNode)
  | add (mem : Fresh) (sockfd : Int) (username room : Bytes) (isAdmin : Bool)
  | remove (sockfd : Int)

namespace Walk

def linked (w : Walk) (addr : Nat) : Prop := ∃ node ∈ w.reg.nodes, node.addr = addr

def visit (w : Walk) : Option ClientNode → Walk
  | none => { w with cursor := .finished }
  | some node => { w with cursor := .on node.addr, visited := w.visited ++ [node] }

@[simp] theorem visit_some_visited (w : Walk) (node : ClientNode) :
    (w.visit (some node)).visited = w.visited ++ [node] := rfl

/-- One critical section; the callback returns `CHAT_OK`. -/
inductive Step : Walk → WalkLabel → Walk → Prop
  | start {w : Walk} : w.cursor = .notStarted → Step w .start (w.visit w.reg.nodes.head?)
  | advance {w : Walk} {addr : Nat} {dangling : Option ClientNode} : w.cursor = .on addr →
      Step w (.advance dangling) (w.visit ((nodeAfter addr w.reg.nodes).getD dangling))
  | add {w : Walk} {mem : Fresh} {sockfd : Int} {username room : Bytes} {isAdmin : Bool} : ¬ w.linked mem.addr →
      Step w (.add mem sockfd username room isAdmin)
        { w with reg := (registryAdd w.reg (some mem) sockfd username room isAdmin).2 }
  | remove {w : Walk} {sockfd : Int} : Step w (.remove sockfd) { w with reg := (registryRemove w.reg sockfd).2 }

/-- The step unlinks (and frees) the node on which the cursor stands. -/
def CutsCursor (w : Walk) (l : WalkLabel) : Prop :=
  ∃ sockfd node, l = .remove sockfd ∧ (w.reg.nodes.find? fun cur => cur.sockfd == sockfd) = some node ∧
    w.cursor = .on node.addr

/-- Where the traversal stands: the nodes behind the cursor are not visited yet,
and those of `stays` up to it are, once. -/
def Position (stays : ClientNode → Prop) (w : Walk) : Prop :=
  match w.cursor with
  | .notStarted => w.visited = []
  | .on addr => ∃ pre node post, w.reg.nodes = pre ++ node :: post ∧ node.addr = addr ∧
      (∀ n ∈ post, n ∉ w.visited) ∧ ∀ n, stays n → n ∈ pre ++ [node] → w.visited.count n = 1
  | .finished => ∀ n, stays n → w.visited.count n = 1

structure Inv (stays : ClientNode → Prop) (w : Walk) : Prop where
  addrs : (w.reg.nodes.map ClientNode.addr).Nodup
  staying : ∀ n, stays n → n ∈ w.reg.nodes
  position : Position stays w

end Walk

theorem nodeAfter_append {pre : List ClientNode} {node : ClientNode} (hpre : ∀ n ∈ pre, n.addr ≠ node.addr)
    (post : List ClientNode) : nodeAfter node.addr (pre ++ node :: post) = some post.head? := by
  induction pre with
  | nil => exact if_pos rfl
  | cons n pre ih =>
    rw [List.cons_append, nodeAfter, if_neg (hpre n (List.mem_cons_self ..))]
    exact ih fun m hm => hpre m (List.mem_cons_of_mem _ hm)

theorem addrs_split {pre post : List ClientNode} {node : ClientNode}
    (h : ((pre ++ node :: post).map ClientNode.addr).Nodup) :
    (∀ n ∈ pre, n.addr ≠ node.addr) ∧ (∀ n ∈ post, n.addr ≠ node.addr) ∧
      (∀ n ∈ pre, ∀ m ∈ post, n.addr ≠ m.addr) := by
  rw [List.map_append, List.map_cons, List.nodup_append] at h
  obtain ⟨-, hpost, hdisj⟩ := h
  rw [List.nodup_cons] at hpost
  refine ⟨fun n hn => ?_, fun n hn he => ?_, fun n hn m hm => ?_⟩
  · exact hdisj _ (List.mem_map_of_mem hn) _ (List.mem_cons_self ..)
  · exact hpost.1 (he ▸ List.mem_map_of_mem hn)
  · exact hdisj _ (List.mem_map_of_mem hn) _ (List.mem_cons_of_mem _ (List.mem_map_of_mem hm))

theorem unlink_addrs {nodes : List ClientNode} (h : (nodes.map ClientNode.addr).Nodup) (sockfd : Int) :
    ((unlink nodes sockfd).map ClientNode.addr).Nodup := h.sublist (List.eraseP_sublist.map _)

theorem unlink_split {pre post : List ClientNode} {node : ClientNode} {sockfd : Int}
    (h : (pre ++ node :: post).find? (fun cur => cur.sockfd == sockfd) ≠ some node) :
    ∃ pre' post', unlink (pre ++ node :: post) sockfd = pre' ++ node :: post' ∧ (∀ n ∈ pre', n ∈ pre) ∧
      ∀ n ∈ post', n ∈ post := by
  unfold unlink
  by_cases hpre : ∃ n ∈ pre, (n.sockfd == sockfd) = true
  · obtain ⟨n, hn, hp⟩ := hpre
    exact ⟨_, post, List.eraseP_append_left (p := fun cur : ClientNode => cur.sockfd == sockfd) hp _ hn, fun m hm => List.mem_of_mem_eraseP hm, fun _ hm => hm⟩
  · have hnone : ∀ n ∈ pre, ¬ (n.sockfd == sockfd) = true := fun n hn hp => hpre ⟨n, hn, hp⟩
    have hnode : ¬ (node.sockfd == sockfd) = true := by
      intro hp
      apply h
      rw [List.find?_append, List.find?_eq_none.mpr hnone, Option.none_or, List.find?_cons, hp]
    refine ⟨pre, post.eraseP fun cur => cur.sockfd == sockfd, ?_, fun _ hm => hm, fun m hm => List.mem_of_mem_eraseP hm⟩
    rw [List.eraseP_append_right _ hnone, List.eraseP_cons_of_neg (p := fun cur : ClientNode => cur.sockfd == sockfd) hnode]

namespace Walk

section
variable {stays : ClientNode → Prop} {w w' : Walk}

theorem start_inv (h : w.Inv stays) (hc : w.cursor = .notStarted) : (w.visit w.reg.nodes.head?).Inv stays := by
  have hvis : w.visited = [] := by have := h.position; rwa [Position, hc] at this
  have haddrs := h.addrs
  have hstay := h.staying
  cases hn : w.reg.nodes with
  | nil =>
    rw [hn] at hstay
    exact ⟨h.addrs, h.staying, fun n hs => absurd (hstay n hs) (List.not_mem_nil)⟩
  | cons node post =>
    rw [hn] at haddrs
    have hne := (addrs_split (show (([] ++ node :: post).map ClientNode.addr).Nodup from haddrs)).2.1
    refine ⟨h.addrs, h.staying, [], node, post, hn, rfl, fun n hp hm => ?_, fun n _ hm => ?_⟩
    · rw [List.head?_cons, visit_some_visited, hvis, List.nil_append, List.mem_singleton] at hm
      exact hne n hp (congrArg ClientNode.addr hm)
    · rw [List.nil_append, List.mem_singleton] at hm
      rw [List.head?_cons, visit_some_visited, hvis, hm, List.nil_append, List.count_singleton_self]

theorem advance_inv {addr : Nat} {dangling : Option ClientNode} (h : w.Inv stays) (hc : w.cursor = .on addr) :
    (w.visit ((nodeAfter addr w.reg.nodes).getD dangling)).Inv stays := by
  have hpos := h.position
  rw [Position, hc] at hpos
  obtain ⟨pre, node, post, hn, rfl, hpost, hcount⟩ := hpos
  have haddrs := h.addrs
  rw [hn] at haddrs
  obtain ⟨hpre, hbehind, hdisj⟩ := addrs_split haddrs
  rw [hn, nodeAfter_append hpre, Option.getD_some]
  cases post with
  | nil =>
    refine ⟨h.addrs, h.staying, fun n hs => hcount n hs ?_⟩
    rw [← hn]; exact h.staying n hs
  | cons next post =>
    have hmid : (((pre ++ [node]) ++ next :: post).map ClientNode.addr).Nodup := by rwa [List.append_assoc]
    have hnext := (addrs_split hmid).2.1
    refine ⟨h.addrs, h.staying, pre ++ [node], next, post, by rw [List.append_assoc]; exact hn, rfl, ?_, ?_⟩
    · intro n hp hm
      rw [List.head?_cons, visit_some_visited] at hm
      rcases List.mem_append.mp hm with hm | hm
      · exact hpost n (List.mem_cons_of_mem _ hp) hm
      · exact hnext n hp (congrArg ClientNode.addr (List.mem_singleton.mp hm))
    · intro n hs hm
      rw [List.head?_cons, visit_some_visited, List.count_append]
      rcases List.mem_append.mp hm with hm | hm
      · -- visited before, and not the node entered now
        have hne : n ≠ next := by
          intro he
          rcases List.mem_append.mp hm with hp | hp
          · exact hdisj n hp next (List.mem_cons_self ..) (congrArg ClientNode.addr he)
          · have hnode := congrArg ClientNode.addr (List.mem_singleton.mp hp)
            exact hbehind next (List.mem_cons_self ..) (he ▸ hnode)
        rw [hcount n hs hm, List.count_singleton, if_neg (by simpa using hne.symm)]
      · obtain rfl := List.mem_singleton.mp hm
        rw [List.count_eq_zero_of_not_mem (hpost n (List.mem_cons_self ..)), List.count_singleton_self]

theorem add_inv {mem : Fresh} {sockfd : Int} {username room : Bytes} {isAdmin : Bool} (h : w.Inv stays)
    (hfree : ¬ w.linked mem.addr) :
    Inv stays { w with reg := (registryAdd w.reg (some mem) sockfd username room isAdmin).2 } := by
  rcases registryAdd_cases w.reg (some mem) sockfd username room isAdmin with ⟨m, hm, -, -, -, hn⟩ | ⟨-, hn⟩
  · cases hm
    refine ⟨?_, fun n hs => ?_, ?_⟩
    · rw [hn, List.map_cons, List.nodup_cons]
      refine ⟨fun hm => hfree ?_, h.addrs⟩
      obtain ⟨node, hnode, he⟩ := List.mem_map.mp hm
      exact ⟨node, hnode, he⟩
    · rw [hn]; exact List.mem_cons_of_mem _ (h.staying n hs)
    · have hpos := h.position
      unfold Position at hpos ⊢
      cases hc : w.cursor with
      | notStarted => rw [hc] at hpos; exact hpos
      | finished => rw [hc] at hpos; exact hpos
      | on addr =>
        rw [hc] at hpos
        obtain ⟨pre, node, post, hnodes, hna, hpost, hcount⟩ := hpos
        refine ⟨_ :: pre, node, post, by rw [hn, hnodes]; rfl, hna, hpost, fun n hs hm => ?_⟩
        rw [List.cons_append, List.mem_cons] at hm
        rcases hm with rfl | hm
        · exact absurd ⟨_, h.staying _ hs, rfl⟩ hfree
        · exact hcount n hs hm
  · rw [hn]; exact h

theorem remove_inv {sockfd : Int} (h : w.Inv stays) (hcut : ¬ w.CutsCursor (.remove sockfd))
    (hstays : ∀ n, stays n → n ∈ (registryRemove w.reg sockfd).2.nodes) :
    Inv stays { w with reg := (registryRemove w.reg sockfd).2 } := by
  refine ⟨?_, hstays, ?_⟩
  · rw [registryRemove_nodes]; exact unlink_addrs h.addrs sockfd
  · have hpos := h.position
    unfold Position at hpos ⊢
    cases hc : w.cursor with
    | notStarted => rw [hc] at hpos; exact hpos
    | finished => rw [hc] at hpos; exact hpos
    | on addr =>
      rw [hc] at hpos
      obtain ⟨pre, node, post, hnodes, rfl, hpost, hcount⟩ := hpos
      have hfind : (pre ++ node :: post).find? (fun cur => cur.sockfd == sockfd) ≠ some node := by
        intro hf
        exact hcut ⟨sockfd, node, rfl, by rw [hnodes]; exact hf, hc⟩
      obtain ⟨pre', post', hsplit, hpre', hpost'⟩ := unlink_split hfind
      refine ⟨pre', node, post', by rw [registryRemove_nodes, hnodes, hsplit], rfl, fun n hn => hpost n (hpost' n hn), ?_⟩
      intro n hs hm
      refine hcount n hs ?_
      rcases List.mem_append.mp hm with hm | hm
      · exact List.mem_append_left _ (hpre' n hm)
      · exact List.mem_append_right _ hm

theorem step_inv {l : WalkLabel} (h : w.Inv stays) (hs : Step w l w') (hcut : ¬ w.CutsCursor l)
    (hstays : ∀ n, stays n → n ∈ w'.reg.nodes) : w'.Inv stays := by
  cases hs with
  | start hc => exact start_inv h hc
  | advance hc => exact advance_inv h hc
  | add hfree => exact add_inv h hfree
  | remove => exact remove_inv h hcut hstays

end

structure Init (w : Walk) : Prop where
  addrs : (w.reg.nodes.map ClientNode.addr).Nodup
  cursor : w.cursor = .notStarted
  visited : w.visited = []

theorem Init.inv {w : Walk} (h : w.Init) {stays : ClientNode → Prop} (hs : ∀ n, stays n → n ∈ w.reg.nodes) : w.Inv stays :=
  ⟨h.addrs, hs, by rw [Position, h.cursor]; exact h.visited⟩

end Walk

/-- **A traversal that nobody cuts**: in every run in which no removal hits the
node the cursor stands on, the cursor's node is linked whenever it is read,
and a traversal that ends has visited every client that was registered all
along exactly once. -/
theorem foreach_visits_once {w₀ : Walk} (h₀ : w₀.Init) :
    (∀ tr w, Run (fun w l w' => Walk.Step w l w' ∧ ¬ w.CutsCursor l) w₀ tr w →
      ∀ addr, w.cursor = .on addr → w.linked addr) ∧
    ∀ n ∈ w₀.reg.nodes, ∀ tr w,
      Run (fun w l w' => (Walk.Step w l w' ∧ ¬ w.CutsCursor l) ∧ n ∈ w'.reg.nodes) w₀ tr w →
        w.cursor = .finished → w.visited.count n = 1 := by
  constructor
  · intro tr w hrun addr hc
    have hinv : w.Inv fun _ => False := hrun.invariant
      (fun _ _ _ hi hs => Walk.step_inv hi hs.1 hs.2 fun _ hf => hf.elim) (h₀.inv fun _ hf => hf.elim)
    have hpos := hinv.position
    rw [Walk.Position, hc] at hpos
    obtain ⟨pre, node, post, hn, he, -⟩ := hpos
    exact ⟨node, by rw [hn]; exact List.mem_append_right _ (List.mem_cons_self ..), he⟩
  · intro n hn tr w hrun hc
    have hinv : w.Inv (· = n) := hrun.invariant
      (fun _ _ _ hi hs => Walk.step_inv hi hs.1.1 hs.1.2 fun _ he => he ▸ hs.2) (h₀.inv fun _ he => he ▸ hn)
    have hpos := hinv.position
    rw [Walk.Position, hc] at hpos
    exact hpos n rfl

namespace Walk

def lobby : Walk := { reg := lobbyPair, cursor := .notStarted, visited := [] }

theorem lobby_init : lobby.Init := ⟨by decide +kernel, rfl, rfl⟩

def bobNode : ClientNode := newNode (filledBlock 2 0) 6 (lit "bob") defaultRoom false

def lobby₁ : Walk := lobby.visit lobbyPair.nodes.head?

/-- `carol` comes in and `alice` goes while the traversal is at the others. -/
def lobbyGrown : Walk := { lobby₁ with reg := (registryAdd lobbyPair (some (filledBlock 3 0)) 7 (lit "carol") defaultRoom false).2 }
def lobby₂ : Walk := lobbyGrown.visit ((nodeAfter 1 lobbyGrown.reg.nodes).getD none)
def lobbyShrunk : Walk := { lobby₂ with reg := (registryRemove lobbyGrown.reg 5).2 }
def lobby₃ : Walk := lobbyShrunk.visit ((nodeAfter 2 lobbyShrunk.reg.nodes).getD none)

def lobbyCut : Walk := { lobby₁ with reg := (registryRemove lobbyPair 5).2 }

end Walk

theorem foreach_visits_bob : Walk.lobby₃.reg.nodes.map ClientNode.sockfd = [7, 6] ∧ Walk.lobby₃.visited.count Walk.bobNode = 1 := by
  have hsafe : ∀ w d, ¬ Walk.CutsCursor w (.advance d) := fun _ _ ⟨_, _, h, _⟩ => nomatch h
  have hstart : ¬ Walk.lobby.CutsCursor .start := fun ⟨_, _, h, _⟩ => nomatch h
  have hadd : ¬ Walk.lobby₁.CutsCursor (.add (filledBlock 3 0) 7 (lit "carol") defaultRoom false) := fun ⟨_, _, h, _⟩ => nomatch h
  have hremove : ¬ Walk.lobby₂.CutsCursor (.remove 5) := by
    rintro ⟨sockfd, node, ⟨⟩, hfind, hcursor⟩
    rw [show Walk.lobby₂.cursor = .on 2 by decide +kernel, Cursor.on.injEq] at hcursor
    have haddr : (Walk.lobby₂.reg.nodes.find? fun cur => cur.sockfd == 5).map ClientNode.addr = some 1 := by decide +kernel
    rw [hfind, Option.map_some, ← hcursor] at haddr
    exact absurd haddr (by decide)
  have hmem : Walk.bobNode ∈ lobbyPair.nodes := by decide +kernel
  have hmem₁ : Walk.bobNode ∈ Walk.lobbyGrown.reg.nodes := by decide +kernel
  have hmem₂ : Walk.bobNode ∈ Walk.lobbyShrunk.reg.nodes := by decide +kernel
  have hs₁ : Walk.Step .lobby₁ (.add (filledBlock 3 0) 7 (lit "carol") defaultRoom false) .lobbyGrown :=
    .add (by simp only [Walk.linked]; decide +kernel)
  have hs₂ : Walk.Step .lobbyGrown (.advance none) .lobby₂ := .advance (by decide +kernel)
  have hs₃ : Walk.Step .lobby₂ (.remove 5) .lobbyShrunk := .remove
  have hs₄ : Walk.Step .lobbyShrunk (.advance none) .lobby₃ := .advance (by decide +kernel)
  refine ⟨by decide +kernel, (foreach_visits_once Walk.lobby_init).2 Walk.bobNode hmem
    [.start, .add (filledBlock 3 0) 7 (lit "carol") defaultRoom false, .advance none, .remove 5, .advance none] Walk.lobby₃ ?_
    (by decide +kernel)⟩
  have hgrown : Run (fun w l w' => (Walk.Step w l w' ∧ ¬ w.CutsCursor l) ∧ Walk.bobNode ∈ w'.reg.nodes) Walk.lobby
      ([] ++ [.start] ++ [.add (filledBlock 3 0) 7 (lit "carol") defaultRoom false]) .lobbyGrown :=
    .snoc (.snoc .nil ⟨⟨.start rfl, hstart⟩, hmem⟩) ⟨⟨hs₁, hadd⟩, hmem₁⟩
  exact ((hgrown.snoc ⟨⟨hs₂, hsafe _ _⟩, hmem₁⟩).snoc ⟨⟨hs₃, hremove⟩, hmem₂⟩).snoc ⟨⟨hs₄, hsafe _ _⟩, hmem₂⟩

/-- The node under the cursor is freed, the next read goes through it, and `bob`,
registered all along, is never visited. -/
theorem foreach_cut :
    Walk.lobby.Init ∧ Walk.Step .lobby .start .lobby₁ ∧ Walk.Step .lobby₁ (.remove 5) .lobbyCut ∧
      Walk.Step .lobbyCut (.advance none) (Walk.lobbyCut.visit none) ∧
      Walk.lobbyCut.cursor = .on 1 ∧ ¬ Walk.lobbyCut.linked 1 ∧
      Walk.bobNode ∈ lobbyPair.nodes ∧ Walk.bobNode ∈ Walk.lobbyCut.reg.nodes ∧
      (Walk.lobbyCut.visit none).cursor = .finished ∧ (Walk.lobbyCut.visit none).visited.count Walk.bobNode = 0 := by
  have hafter : (nodeAfter 1 Walk.lobbyCut.reg.nodes).getD none = none := by decide +kernel
  have hcursor : Walk.lobbyCut.cursor = .on 1 := by decide +kernel
  have hadv : Walk.Step .lobbyCut (.advance none) (Walk.lobbyCut.visit
      ((nodeAfter 1 Walk.lobbyCut.reg.nodes).getD none)) := .advance hcursor
  rw [hafter] at hadv
  exact ⟨Walk.lobby_init, .start rfl, .remove, hadv, hcursor, by simp only [Walk.linked]; decide +kernel,
    by decide +kernel, by decide +kernel, rfl, by decide +kernel⟩

end ChatServer

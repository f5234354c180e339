import ChatServer.HeadLists
import ChatServer.NameLists
import ChatServer.RegistryMap

/-!
# The registry in memory

`client_registry.c` with its nodes: `head`, `count` and the links. Each call
does on the heap what the call of the same name does on the list of nodes, so
no sequence of calls follows a wild pointer, frees a node twice or loses one,
and the answers are those of a map from descriptors to users.
-/

namespace ChatServer

open LinkedList CStr

/-- `client_registry_t`, with the memory its nodes lie in. -/
structure NodeRegistry where
  nodes : Heap ClientNode
  head : Option Nat
  count : Nat

/-- One round of the loop of a user list: the next name, and the end when it does not fit. -/
def ListLoop.round (skips : ClientNode → Bool) (buflen : Nat) (t : ListLoop) (_ : Nat) (cur : Cell ClientNode) :
    (ChatStatus × Bytes) ⊕ ListLoop :=
  let t := t.visit skips buflen cur.val
  match t.rc with
  | some _ => .inl t.result
  | none => .inr t

namespace NodeRegistry

def init : NodeRegistry := { nodes := fun _ => none, head := none, count := 0 }

/-- `registry_add`; the node is filled before the list is looked at, and freed where it is not linked. -/
def add (reg : NodeRegistry) (fuel : Nat) (mem : Option Fresh) (sockfd : Int) (username room : Bytes) (isAdmin : Bool) :
    Except Fault (ChatStatus × NodeRegistry) :=
  match mem with
  | none => .ok (.errNomem, reg)
  | some mem => do
    let node := newNode mem sockfd username room isAdmin
    let nodes := reg.nodes.write mem.addr { val := node, next := none }
    if reg.count ≥ maxClients then
      let nodes ← nodes.release mem.addr
      return (.errFull, { reg with nodes := nodes })
    else
      match ← nodes.search (fun cur => streq cur.username username) fuel reg.head with
      | some _ =>
        let nodes ← nodes.release mem.addr
        return (.errDuplicate, { reg with nodes := nodes })
      | none =>
        let nodes := nodes.write mem.addr { val := node, next := reg.head }
        return (.ok, { nodes := nodes, head := some mem.addr, count := reg.count + 1 })

/-- `registry_remove` -/
def remove (reg : NodeRegistry) (fuel : Nat) (sockfd : Int) : Except Fault (ChatStatus × NodeRegistry) := do
  match ← reg.nodes.search (fun cur => cur.sockfd == sockfd) fuel reg.head with
  | none => return (.errNotFound, reg)
  | some (prev, cur, node) =>
    let (nodes, head) ← reg.nodes.relink reg.head prev node.next
    let nodes ← nodes.release cur
    return (.ok, { nodes := nodes, head := head, count := reg.count - 1 })

/-- `registry_set_room` -/
def setRoom (reg : NodeRegistry) (fuel : Nat) (sockfd : Int) (room : Bytes) : Except Fault (ChatStatus × NodeRegistry) := do
  match ← reg.nodes.search (fun cur => cur.sockfd == sockfd) fuel reg.head with
  | none => return (.errNotFound, reg)
  | some (_, cur, node) =>
    return (.ok, { reg with nodes := reg.nodes.write cur { node with val := node.val.setRoom room } })

/-- The first node that the test of a lookup holds of. -/
def find (reg : NodeRegistry) (fuel : Nat) (test : ClientNode → Bool) : Except Fault (Option ClientNode) := do
  let found ← reg.nodes.search test fuel reg.head
  return found.map fun p => p.2.2.val

def usernameExists (reg : NodeRegistry) (fuel : Nat) (username : Bytes) : Except Fault Bool := do
  let cur ← reg.find fuel fun cur => streq cur.username username
  return cur.isSome

def getField (field : ClientNode → Bytes) (reg : NodeRegistry) (fuel : Nat) (sockfd : Int) (buf : Bytes) (buflen : Nat) :
    Except Fault (ChatStatus × Bytes) :=
  if buflen = 0 then .ok (.err, buf)
  else do
    match ← reg.find fuel fun cur => cur.sockfd == sockfd with
    | none => return (.errNotFound, setNul buf 0)
    | some cur => return (.ok, copyField (setNul buf 0) (field cur) buflen)

def getUsername (reg : NodeRegistry) (fuel : Nat) (sockfd : Int) (buf : Bytes) (buflen : Nat) : Except Fault (ChatStatus × Bytes) :=
  getField ClientNode.username reg fuel sockfd buf buflen

def getRoom (reg : NodeRegistry) (fuel : Nat) (sockfd : Int) (buf : Bytes) (buflen : Nat) : Except Fault (ChatStatus × Bytes) :=
  getField ClientNode.room reg fuel sockfd buf buflen

def isAdmin (reg : NodeRegistry) (fuel : Nat) (sockfd : Int) : Except Fault Bool := do
  match ← reg.find fuel fun cur => cur.sockfd == sockfd with
  | none => return false
  | some cur => return cur.isAdmin

def getSockfdByUsername (reg : NodeRegistry) (fuel : Nat) (username : Bytes) : Except Fault Int := do
  match ← reg.find fuel fun cur => streq cur.username username with
  | none => return -1
  | some cur => return cur.sockfd

/-- `registry_destroy` -/
def destroy (reg : NodeRegistry) (fuel : Nat) : Except Fault NodeRegistry := do
  let nodes ← Heap.freeAll fuel reg.nodes reg.head
  return { nodes := nodes, head := none, count := 0 }

end NodeRegistry

/-- The call on the nodes. -/
def RegistryOp.onNodes (fuel : Nat) (reg : NodeRegistry) : RegistryOp → Except Fault (Answer × NodeRegistry)
  | add mem sockfd username room admin => do
    let (rc, reg) ← reg.add fuel mem sockfd username room admin
    return (.status rc, reg)
  | remove sockfd => do
    let (rc, reg) ← reg.remove fuel sockfd
    return (.status rc, reg)
  | usernameExists username => do return (.bool (← reg.usernameExists fuel username), reg)
  | getUsername sockfd buf => do
    let (rc, buf) ← reg.getUsername fuel sockfd buf buf.length
    return (.text rc (cstr buf), reg)
  | getRoom sockfd buf => do
    let (rc, buf) ← reg.getRoom fuel sockfd buf buf.length
    return (.text rc (cstr buf), reg)
  | setRoom sockfd room => do
    let (rc, reg) ← reg.setRoom fuel sockfd room
    return (.status rc, reg)
  | isAdmin sockfd => do return (.bool (← reg.isAdmin fuel sockfd), reg)
  | getSockfdByUsername username => do return (.sockfd (← reg.getSockfdByUsername fuel username), reg)
  | count => .ok (.count reg.count, reg)

/-! ## Refinement of the list of nodes -/

def cellsOf (nodes : List ClientNode) : List (Nat × ClientNode) := nodes.map fun cur => (cur.addr, cur)

/-- The heap holds the nodes of `abs` behind `head`, and nothing else. -/
structure NodeRegistry.Lists (reg : NodeRegistry) (abs : ClientRegistry) : Prop where
  rooted : Rooted reg.nodes reg.head (cellsOf abs.nodes)
  count_eq : reg.count = abs.count

/-- What `malloc` promises: the block is not in use. -/
def RegistryOp.Supplied (reg : NodeRegistry) : RegistryOp → Prop
  | add (some mem) _ _ _ _ => reg.nodes mem.addr = none
  | _ => True

theorem cellsOf_length (nodes : List ClientNode) : (cellsOf nodes).length = nodes.length := List.length_map ..

theorem NodeRegistry.init_lists : NodeRegistry.init.Lists registryInit := ⟨Rooted.nil, rfl⟩

/-- A search in the heap stops where one in the list does. -/
theorem search_nodes {h : Heap ClientNode} {p : Option Nat} {nodes : List ClientNode} (hc : Chain h p (cellsOf nodes))
    (test : ClientNode → Bool) {fuel : Nat} (hfuel : nodes.length ≤ fuel) :
    (h.search test fuel p = .ok none ∧ ∀ cur ∈ nodes, test cur = false) ∨
    ∃ before cur after, nodes = before ++ cur :: after ∧ (∀ c ∈ before, test c = false) ∧ test cur = true ∧
      h.search test fuel p =
        .ok (some (lastPtr (cellsOf before), cur.addr, { val := cur, next := headPtr (cellsOf after) })) := by
  have hlen : (cellsOf nodes).length ≤ fuel := by rwa [cellsOf_length]
  rcases hc.search test hlen with ⟨hnone, hall⟩ | ⟨before, a, x, after, hl, hall, hx, hfound⟩
  · exact Or.inl ⟨hnone, fun cur hcur => hall _ (List.mem_map_of_mem hcur)⟩
  · obtain ⟨before, rest, rfl, rfl, hrest⟩ := List.map_eq_append_iff.mp hl
    obtain ⟨node, after, rfl, hcell, rfl⟩ := List.map_eq_cons_iff.mp hrest
    cases hcell
    exact Or.inr ⟨before, _, after, rfl, fun c hc => hall _ (List.mem_map_of_mem hc), hx, hfound⟩

theorem unlink_behind {sockfd : Int} {before after : List ClientNode} {cur : ClientNode}
    (hall : ∀ c ∈ before, (c.sockfd == sockfd) = false) (hcur : (cur.sockfd == sockfd) = true) :
    unlink (before ++ cur :: after) sockfd = before ++ after := by
  have hbefore : ∀ c ∈ before, ¬ (c.sockfd == sockfd) = true := fun c hc => by
    rw [hall c hc]
    exact Bool.false_ne_true
  rw [unlink, List.eraseP_append_right _ hbefore]
  exact congrArg _ (List.eraseP_cons_of_pos hcur)

theorem setRoomFirst_behind {sockfd : Int} {room : Bytes} {after : List ClientNode} {cur : ClientNode}
    (hcur : (cur.sockfd == sockfd) = true) : ∀ {before : List ClientNode}, (∀ c ∈ before, (c.sockfd == sockfd) = false) →
      setRoomFirst sockfd room (before ++ cur :: after) = before ++ cur.setRoom room :: after
  | [], _ => by rw [List.nil_append, setRoomFirst, if_pos hcur, List.nil_append]
  | c :: before, hall => by
    rw [List.forall_mem_cons] at hall
    rw [List.cons_append, setRoomFirst, hall.1, setRoomFirst_behind hcur hall.2]
    rfl

namespace ListLoop
variable {skips : ClientNode → Bool} {buflen : Nat}

end ListLoop

section
variable {reg : NodeRegistry} {abs : ClientRegistry} {fuel : Nat} (h : reg.Lists abs) (hfuel : abs.nodes.length ≤ fuel)
include h hfuel

theorem NodeRegistry.Lists.add {mem : Option Fresh} {sockfd : Int} {username room : Bytes} {admin : Bool}
    (hmem : ∀ block, mem = some block → reg.nodes block.addr = none) :
    ∃ reg', reg.add fuel mem sockfd username room admin = .ok ((registryAdd abs mem sockfd username room admin).1, reg') ∧
      reg'.Lists (registryAdd abs mem sockfd username room admin).2 := by
  cases mem with
  | none => exact ⟨reg, rfl, h⟩
  | some block =>
    obtain ⟨nodes, head, count⟩ := reg
    obtain rfl : count = abs.count := h.count_eq
    have hnew : nodes block.addr = none := hmem block rfl
    simp only [NodeRegistry.add, registryAdd]
    have haddr : (newNode block sockfd username room admin).addr = block.addr := rfl
    generalize newNode block sockfd username room admin = node at haddr ⊢
    -- the filled node is not linked yet, and goes back to `free` where it is refused
    have hfilled : (nodes.write block.addr { val := node, next := none }) block.addr = some { val := node, next := none } :=
      Function.update_self ..
    have hback : (nodes.write block.addr { val := node, next := none }).release block.addr = .ok nodes := by
      rw [Heap.release_of_some hfilled, Heap.free_write hnew]
    have hchain : Chain (nodes.write block.addr { val := node, next := none }) head (cellsOf abs.nodes) :=
      h.rooted.chain.update (h.rooted.fresh hnew) _
    by_cases hfull : abs.count ≥ maxClients
    · rw [if_pos hfull, if_pos hfull, hback]
      exact ⟨_, rfl, h⟩
    · rw [if_neg hfull, if_neg hfull]
      rcases search_nodes hchain (fun cur => streq cur.username username) hfuel with
        ⟨hnone, hall⟩ | ⟨before, cur, after, hnodes, -, hcur, hfound⟩
      · have hany : (abs.nodes.any fun cur => streq cur.username username) = false := by
          rw [List.any_eq_false]
          intro cur hcur
          rw [hall cur hcur]
          exact Bool.false_ne_true
        have hwrite : (nodes.write block.addr { val := node, next := none }).write block.addr { val := node, next := head } =
            nodes.write block.addr { val := node, next := head } := Function.update_idem ..
        simp only [hnone, hany]
        refine ⟨_, rfl, ⟨?_, rfl⟩⟩
        have hpush := h.rooted.push hnew node
        rw [← haddr] at hpush hwrite ⊢
        rw [hwrite]
        exact hpush
      · have hany : (abs.nodes.any fun cur => streq cur.username username) = true := by
          rw [hnodes]
          exact List.any_eq_true.mpr ⟨cur, List.mem_append_right _ (List.mem_cons_self ..), hcur⟩
        simp only [hfound, hany]
        show ∃ reg', ((nodes.write block.addr { val := node, next := none }).release block.addr >>= fun nodes => _) = _ ∧ _
        rw [hback]
        exact ⟨_, rfl, h⟩

theorem NodeRegistry.Lists.remove (sockfd : Int) :
    ∃ reg', reg.remove fuel sockfd = .ok ((registryRemove abs sockfd).1, reg') ∧ reg'.Lists (registryRemove abs sockfd).2 := by
  unfold NodeRegistry.remove
  rcases search_nodes h.rooted.chain (fun cur => cur.sockfd == sockfd) hfuel with
    ⟨hnone, hall⟩ | ⟨before, cur, after, hnodes, hall, hcur, hfound⟩
  · have habs : registryRemove abs sockfd = (.errNotFound, abs) := by
      unfold registryRemove
      split
      · rfl
      · rename_i hfind
        rw [find?_none hall] at hfind
        cases hfind
    rw [hnone, habs]
    exact ⟨reg, rfl, h⟩
  · have hfind : (abs.nodes.find? fun cur => cur.sockfd == sockfd) = some cur := by
      rw [hnodes]
      exact find?_behind hall hcur
    have hrc : (registryRemove abs sockfd).1 = .ok ∧ (registryRemove abs sockfd).2.count = abs.count - 1 := by
      unfold registryRemove
      split
      · rename_i hnone
        rw [hfind] at hnone
        cases hnone
      · exact ⟨rfl, rfl⟩
    have hrooted := h.rooted
    rw [hnodes, cellsOf, List.map_append, List.map_cons] at hrooted
    obtain ⟨h₁, h₂, head, hrelink, hrelease, hrest⟩ := hrooted.unlink
    rw [hfound, hrc.1]
    show ∃ reg', (reg.nodes.relink reg.head (lastPtr (cellsOf before)) (headPtr (cellsOf after)) >>= fun p => _) = _ ∧ _
    rw [show reg.nodes.relink reg.head (lastPtr (cellsOf before)) (headPtr (cellsOf after)) = .ok (h₁, head) from hrelink]
    show ∃ reg', (h₁.release cur.addr >>= fun nodes => _) = _ ∧ _
    rw [hrelease]
    refine ⟨{ nodes := h₂, head := head, count := reg.count - 1 }, rfl, ?_, ?_⟩
    · rw [registryRemove_nodes, hnodes, unlink_behind hall hcur, cellsOf, List.map_append]
      exact hrest
    · rw [hrc.2, ← h.count_eq]

theorem NodeRegistry.Lists.setRoom (sockfd : Int) (room : Bytes) :
    ∃ reg', reg.setRoom fuel sockfd room = .ok ((registrySetRoom abs sockfd room).1, reg') ∧
      reg'.Lists (registrySetRoom abs sockfd room).2 := by
  unfold NodeRegistry.setRoom
  rcases search_nodes h.rooted.chain (fun cur => cur.sockfd == sockfd) hfuel with
    ⟨hnone, hall⟩ | ⟨before, cur, after, hnodes, hall, hcur, hfound⟩
  · rw [hnone, registrySetRoom, find?_none hall]
    exact ⟨reg, rfl, h⟩
  · have hfind : (abs.nodes.find? fun cur => cur.sockfd == sockfd) = some cur := by
      rw [hnodes]
      exact find?_behind hall hcur
    have hrc : (registrySetRoom abs sockfd room).1 = .ok ∧ (registrySetRoom abs sockfd room).2.count = abs.count := by
      unfold registrySetRoom
      rw [hfind]
      exact ⟨rfl, rfl⟩
    have hrooted := h.rooted
    rw [hnodes, cellsOf, List.map_append, List.map_cons] at hrooted
    rw [hfound, hrc.1]
    refine ⟨_, rfl, ?_, h.count_eq.trans hrc.2.symm⟩
    have hset : cellsOf (registrySetRoom abs sockfd room).2.nodes =
        cellsOf before ++ (cur.addr, cur.setRoom room) :: cellsOf after := by
      rw [registrySetRoom_nodes, hnodes, setRoomFirst_behind hcur hall, cellsOf, List.map_append, List.map_cons]
      rfl
    rw [hset]
    exact hrooted.write (cur.setRoom room)

theorem NodeRegistry.Lists.find (test : ClientNode → Bool) : reg.find fuel test = .ok (abs.nodes.find? test) := by
  unfold NodeRegistry.find
  rcases search_nodes h.rooted.chain test hfuel with ⟨hnone, hall⟩ | ⟨before, cur, after, hnodes, hall, hcur, hfound⟩
  · rw [hnone, find?_none hall]
    rfl
  · rw [hfound, hnodes, find?_behind hall hcur]
    rfl

theorem NodeRegistry.Lists.getField (field : ClientNode → Bytes) (sockfd : Int) (buf : Bytes) (buflen : Nat) :
    NodeRegistry.getField field reg fuel sockfd buf buflen = .ok (ChatServer.getField field abs sockfd buf buflen) := by
  unfold NodeRegistry.getField ChatServer.getField
  split
  · rfl
  · rw [h.find hfuel]
    cases abs.nodes.find? fun cur => cur.sockfd == sockfd with
    | none => rfl
    | some cur => rfl

/-- Every call returns, with the answer of the list. -/
theorem RegistryOp.onNodes_lists (op : RegistryOp) (hop : op.Supplied reg) :
    ∃ reg', op.onNodes fuel reg = .ok ((op.exec abs).1, reg') ∧ reg'.Lists (op.exec abs).2 := by
  cases op with
  | add mem sockfd username room admin =>
    have hmem : ∀ block, mem = some block → reg.nodes block.addr = none := by
      rintro block rfl
      exact hop
    obtain ⟨reg', hadd, hlists⟩ := h.add hfuel hmem
    refine ⟨reg', ?_, hlists⟩
    simp only [RegistryOp.onNodes, hadd]
    rfl
  | remove sockfd =>
    obtain ⟨reg', hremove, hlists⟩ := h.remove hfuel sockfd
    refine ⟨reg', ?_, hlists⟩
    simp only [RegistryOp.onNodes, hremove]
    rfl
  | setRoom sockfd room =>
    obtain ⟨reg', hset, hlists⟩ := h.setRoom hfuel sockfd room
    refine ⟨reg', ?_, hlists⟩
    simp only [RegistryOp.onNodes, hset]
    rfl
  | usernameExists username =>
    refine ⟨reg, ?_, h⟩
    have hany : (abs.nodes.find? fun cur => streq cur.username username).isSome = registryUsernameExists abs username :=
      List.isSome_find?
    simp only [RegistryOp.onNodes, NodeRegistry.usernameExists, h.find hfuel, RegistryOp.exec, ← hany]
    rfl
  | getUsername sockfd buf =>
    refine ⟨reg, ?_, h⟩
    simp only [RegistryOp.onNodes, NodeRegistry.getUsername, h.getField hfuel]
    rfl
  | getRoom sockfd buf =>
    refine ⟨reg, ?_, h⟩
    simp only [RegistryOp.onNodes, NodeRegistry.getRoom, h.getField hfuel]
    rfl
  | isAdmin sockfd =>
    refine ⟨reg, ?_, h⟩
    simp only [RegistryOp.onNodes, NodeRegistry.isAdmin, h.find hfuel, RegistryOp.exec, registryIsAdmin]
    cases abs.nodes.find? fun cur => cur.sockfd == sockfd with
    | none => rfl
    | some cur => rfl
  | getSockfdByUsername username =>
    refine ⟨reg, ?_, h⟩
    simp only [RegistryOp.onNodes, NodeRegistry.getSockfdByUsername, h.find hfuel, RegistryOp.exec, registryGetSockfdByUsername]
    cases abs.nodes.find? fun cur => streq cur.username username with
    | none => rfl
    | some cur => rfl
  | count =>
    refine ⟨reg, ?_, h⟩
    simp only [RegistryOp.onNodes, RegistryOp.exec, registryCount, h.count_eq]

theorem NodeRegistry.Lists.destroy : reg.destroy fuel = .ok NodeRegistry.init := by
  unfold NodeRegistry.destroy
  rw [h.rooted.freeAll (by rwa [cellsOf_length])]
  rfl

end

/-! ## Runs of calls -/

/-- The calls made on a registry from `registry_init` on, by any threads, each
under the lock and with the blocks that `malloc` may hand out then. -/
inductive RegistryRun (fuel : Nat) : List (RegistryOp × Answer) → NodeRegistry → Prop
  | init : RegistryRun fuel [] NodeRegistry.init
  | call {tr : List (RegistryOp × Answer)} {reg reg' : NodeRegistry} {op : RegistryOp} {answer : Answer} :
      RegistryRun fuel tr reg → op.Supplied reg → op.onNodes fuel reg = .ok (answer, reg') →
      RegistryRun fuel (tr ++ [(op, answer)]) reg'

theorem RegistryOp.execAll_snoc (op : RegistryOp) : ∀ (ops : List RegistryOp) (reg : ClientRegistry),
    execAll reg (ops ++ [op]) =
      ((execAll reg ops).1 ++ [(op.exec (execAll reg ops).2).1], (op.exec (execAll reg ops).2).2)
  | [], _ => rfl
  | first :: ops, reg => by
    rw [List.cons_append, execAll, execAll_snoc op ops, execAll]
    rfl

theorem RegistryOp.exec_count_le (op : RegistryOp) {reg : ClientRegistry} (h : reg.count ≤ maxClients) :
    (op.exec reg).2.count ≤ maxClients := by
  cases op with
  | add mem sockfd username room admin =>
    rcases registryAdd_cases reg mem sockfd username room admin with ⟨m, -, hlt, -, -, hnodes⟩ | ⟨-, hsame⟩
    · show (registryAdd reg mem sockfd username room admin).2.count ≤ maxClients
      rw [ClientRegistry.count_eq, hnodes, List.length_cons, ← reg.count_eq]
      exact hlt
    · exact (congrArg ClientRegistry.count hsame).trans_le h
  | remove sockfd =>
    show (registryRemove reg sockfd).2.count ≤ maxClients
    rw [ClientRegistry.count_eq, registryRemove_nodes]
    exact (List.eraseP_sublist.length_le).trans (reg.count_eq ▸ h)
  | setRoom sockfd room =>
    show (registrySetRoom reg sockfd room).2.count ≤ maxClients
    rw [ClientRegistry.count_eq, registrySetRoom_nodes, setRoomFirst_length, ← reg.count_eq]
    exact h
  | usernameExists | getUsername | getRoom | isAdmin | getSockfdByUsername | count => exact h

/-- After any run the heap holds the nodes that the list of the same calls has. -/
theorem RegistryRun.lists {fuel : Nat} (hfuel : maxClients ≤ fuel) {tr : List (RegistryOp × Answer)} {reg : NodeRegistry}
    (h : RegistryRun fuel tr reg) :
    ∃ abs, reg.Lists abs ∧ abs.count ≤ maxClients ∧
      RegistryOp.execAll registryInit (tr.map Prod.fst) = (tr.map Prod.snd, abs) := by
  induction h with
  | init => exact ⟨registryInit, NodeRegistry.init_lists, Nat.zero_le _, rfl⟩
  | @call tr reg reg' op answer _ hop hcall ih =>
    obtain ⟨abs, hlists, hcount, hexec⟩ := ih
    have hlen : abs.nodes.length ≤ fuel := (abs.count_eq ▸ hcount).trans hfuel
    obtain ⟨reg₁, hreturns, hnext⟩ := op.onNodes_lists hlists hlen hop
    rw [hcall] at hreturns
    cases hreturns
    refine ⟨_, hnext, op.exec_count_le hcount, ?_⟩
    rw [List.map_append, List.map_append, List.map_singleton, List.map_singleton, op.execAll_snoc, hexec]

end ChatServer

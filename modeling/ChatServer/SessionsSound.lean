import ChatServer.Sessions

/-!
# One action under the contract

`exec_own`: an allowed action keeps the invariant and leaves its thread with
the view that the contract announces. `exec_rely`: it changes nothing that
another thread knows. Only seven actions move a connection or a registry
entry, and each gets a lemma of both kinds.
-/

namespace ChatServer

open CStr Interleave

def Owns : Tid → Conn → Prop
  | .main, c => c.spawned = false
  | .handler i, c => c.id = i ∧ c.spawned = true
  | _, _ => False

theorem owns_unique {tid tid' : Tid} {c : Conn} (h : Owns tid c) (h' : Owns tid' c) : tid = tid' := by
  cases tid with
  | broadcaster | signal => cases h
  | main =>
    cases tid' with
    | broadcaster | signal => cases h'
    | main => rfl
    | handler j => rw [Owns, h'.2] at h; cases h
  | handler i =>
    cases tid' with
    | broadcaster | signal => cases h'
    | main => rw [Owns, h.2] at h'; cases h'
    | handler j => rw [← h.1, ← h'.1]

/-- What thread `tid` relies on between its own actions. -/
structure Rely (tid : Tid) (s s' : Server) : Prop where
  conns : ∀ c ∈ s.conns, Owns tid c → c ∈ s'.conns
  verified : ∀ i, tid = .handler i → s'.verified i = s.verified i
  noNode : ∀ c ∈ s.conns, Owns tid c → NoNode s c.fd → NoNode s' c.fd
  node : ∀ c ∈ s.conns, Owns tid c → ∀ n ∈ s.registry.nodes, n.sockfd = c.fd →
    ∃ n' ∈ s'.registry.nodes, n'.sockfd = c.fd ∧ n'.name = n.name
  back : ∀ i, tid = .handler i → ∀ c ∈ s'.conns, c.id = i →
    (∃ d ∈ s.conns, d.id = i ∧ d.fd = c.fd ∧ (NoNode s d.fd → NoNode s' d.fd)) ∨ (NoNode s' c.fd ∧ s.nextId ≤ i)
  nextId : s.nextId ≤ s'.nextId

theorem Sat.rely {tid : Tid} {s s' : Server} (h : Rely tid s s') {v : View} (hs : Sat tid v s) : Sat tid v s' := by
  cases tid with
  | broadcaster | signal => cases v <;> exact hs
  | main =>
    cases v with
    | held fd id => exact h.conns _ hs rfl
    | _ => exact hs
  | handler i =>
    cases v with
    | idle | casting | ending | held => exact hs
    | unborn =>
      refine ⟨(h.verified i rfl).trans hs.1, fun c hc hi => ?_⟩
      rcases h.back i rfl c hc hi with ⟨d, hd, hdi, hfd, hno⟩ | ⟨hno, -⟩
      · rw [← hfd]; exact hno (hs.2 d hd hdi)
      · exact hno
    | fresh fd =>
      obtain ⟨hc, hv, hno⟩ := hs
      exact ⟨h.conns _ hc ⟨rfl, rfl⟩, (h.verified i rfl).trans hv, h.noNode _ hc ⟨rfl, rfl⟩ hno⟩
    | checked fd u =>
      obtain ⟨hc, hv, hno⟩ := hs
      exact ⟨h.conns _ hc ⟨rfl, rfl⟩, (h.verified i rfl).trans hv, h.noNode _ hc ⟨rfl, rfl⟩ hno⟩
    | online fd u =>
      obtain ⟨hc, hv, n, hn, hfd, hu⟩ := hs
      obtain ⟨n', hn', hfd', hu'⟩ := h.node _ hc ⟨rfl, rfl⟩ n hn hfd
      exact ⟨h.conns _ hc ⟨rfl, rfl⟩, (h.verified i rfl).trans hv, n', hn', hfd', hu'.trans hu⟩
    | gone =>
      refine ⟨Nat.lt_of_lt_of_le hs.1 h.nextId, fun c hc hi => ?_⟩
      rcases h.back i rfl c hc hi with ⟨d, hd, hdi, -⟩ | ⟨-, hle⟩
      · exact hs.2 d hd hdi
      · exact absurd hs.1 (Nat.not_lt.mpr hle)

theorem Unmoved.rely {s s' : Server} (h : Unmoved s s') (tid : Tid) : Rely tid s s' := by
  obtain ⟨hr, hc, hv, -, hn⟩ := h
  have hno : ∀ fd, NoNode s fd → NoNode s' fd := by
    intro fd hfd
    rw [NoNode, hr]; exact hfd
  refine ⟨?_, ?_, fun c _ _ => hno c.fd, ?_, ?_, ?_⟩
  · intro c hcs _; rw [hc]; exact hcs
  · intro i _; rw [hv]
  · intro c _ _ n hnode hfd; exact ⟨n, by rw [hr]; exact hnode, hfd, rfl⟩
  · intro i _ c hcs hi; rw [hc] at hcs; exact Or.inl ⟨c, hcs, hi, rfl, hno c.fd⟩
  · rw [hn]

/-! ## The nodes of a connection -/

section
variable {T : Prop} {s : Server} (hi : Inv T s)
include hi

theorem noNode_of_held {fd : Int} {id : Nat} (hc : ⟨fd, id, false⟩ ∈ s.conns) : NoNode s fd := by
  intro n hn he
  have h := hi.1.conn_fd hc (hi.1.owned n hn).1 he.symm
  cases congrArg Conn.spawned h

/-- Without a node for its descriptor a session owns no node at all. -/
theorem owner_ne {fd : Int} {i : Nat} (hc : ⟨fd, i, true⟩ ∈ s.conns) (hno : NoNode s fd) :
    ∀ n ∈ s.registry.nodes, s.owner n.addr ≠ i := by
  intro n hn he
  have h := hi.1.conn_id hc (hi.1.owned n hn).1 he.symm
  exact hno n hn (congrArg Conn.fd h).symm

theorem node_owner {c : Conn} (hc : c ∈ s.conns) {n : ClientNode} (hn : n ∈ s.registry.nodes) (he : n.sockfd = c.fd) :
    s.owner n.addr = c.id := congrArg Conn.id (hi.1.conn_fd (hi.1.owned n hn).1 hc he)

theorem fd_ne_of_owns {tid tid' : Tid} (hne : tid' ≠ tid) {c d : Conn} (hc : c ∈ s.conns) (hd : d ∈ s.conns)
    (ho : Owns tid c) (ho' : Owns tid' d) : d.fd ≠ c.fd := by
  intro he
  have h := hi.1.conn_fd hd hc he
  subst h
  exact hne (owns_unique ho' ho)

end

/-! ## `close` -/

def Server.closed (s : Server) (fd : Int) : Server := { s with conns := s.conns.filter fun c => c.fd != fd }

theorem mem_closed {s : Server} {fd : Int} {c : Conn} : c ∈ (s.closed fd).conns ↔ c ∈ s.conns ∧ c.fd ≠ fd := by
  simp [Server.closed]

section
variable {T : Prop} {s : Server} {tid : Tid} {v : View} {fd : Int} (hi : Inv T s) (hs : Sat tid v s)
variable (ha : allowed T (.close fd) v)
include hi hs ha

/-- Only the thread that works for the connection closes it, and it has no node by then. -/
theorem close_owned : NoNode s fd ∧ ∃ c ∈ s.conns, c.fd = fd ∧ Owns tid c := by
  cases v with
  | held fd' id =>
    cases ha
    cases tid with
    | main => exact ⟨noNode_of_held hi hs, _, hs, rfl, rfl⟩
    | _ => cases hs
  | fresh fd' =>
    cases ha
    cases tid with
    | handler i => exact ⟨hs.2.2, _, hs.1, rfl, rfl, rfl⟩
    | _ => cases hs
  | checked fd' u =>
    cases ha
    cases tid with
    | handler i => exact ⟨hs.2.2, _, hs.1, rfl, rfl, rfl⟩
    | _ => cases hs
  | _ => cases ha

theorem close_inv : Inv T (s.closed fd) := by
  obtain ⟨hno, -⟩ := close_owned hi hs ha
  have hsub : (s.closed fd).conns.Sublist s.conns := List.filter_sublist
  refine ⟨⟨hi.1.fds.sublist (hsub.map _), hi.1.ids.sublist (hsub.map _), ?_, hi.1.nodeFds, hi.1.addrs, ?_⟩,
    fun hT => ⟨(hi.2 hT).1, (hi.2 hT).2⟩⟩
  · intro c hc; exact hi.1.ids_lt c (mem_closed.mp hc).1
  · intro n hn
    obtain ⟨hc, hv⟩ := hi.1.owned n hn
    exact ⟨mem_closed.mpr ⟨hc, hno n hn⟩, hv⟩

theorem close_sat : Sat tid (advance (.close fd) v ()) (s.closed fd) := by
  obtain ⟨-, c, hc, hfd, ho⟩ := close_owned hi hs ha
  cases tid with
  | broadcaster | signal => cases ho
  | main =>
    cases v with
    | held => trivial
    | fresh | checked => cases hs
    | _ => cases ha
  | handler i =>
    have hgone : Sat (.handler i) .gone (s.closed fd) := by
      refine ⟨ho.1 ▸ hi.1.ids_lt c hc, fun d hd he => ?_⟩
      have h := hi.1.conn_id (mem_closed.mp hd).1 hc (he.trans ho.1.symm)
      exact (mem_closed.mp hd).2 ((congrArg Conn.fd h).trans hfd)
    cases v with
    | held => cases hs
    | fresh | checked => exact hgone
    | _ => cases ha

theorem close_rely {tid' : Tid} (hne : tid' ≠ tid) : Rely tid' s (s.closed fd) := by
  obtain ⟨-, c, hc, hfd, ho⟩ := close_owned hi hs ha
  refine ⟨?_, fun _ _ => rfl, fun _ _ _ h => h, fun _ _ _ n hn he => ⟨n, hn, he, rfl⟩, ?_, Nat.le_refl _⟩
  · intro d hd ho'
    exact mem_closed.mpr ⟨hd, hfd ▸ fd_ne_of_owns hi hne hc hd ho ho'⟩
  · intro i _ d hd he
    exact Or.inl ⟨d, (mem_closed.mp hd).1, he, rfl, fun h => h⟩

end

/-! ## `auth_verify` -/

section
variable {T : Prop} {s : Server} {i : Nat} {fd : Int} {u : Bytes} (hi : Inv T s) (hs : Sat (.handler i) (.fresh fd) s)
include hi hs

theorem passed_inv : Inv T (s.passed i u) := by
  refine ⟨⟨hi.1.fds, hi.1.ids, hi.1.ids_lt, hi.1.nodeFds, hi.1.addrs, fun n hn => ?_⟩, fun hT => ⟨(hi.2 hT).1, (hi.2 hT).2⟩⟩
  obtain ⟨hc, hv⟩ := hi.1.owned n hn
  refine ⟨hc, ?_⟩
  show Function.update s.verified i (some u) (s.owner n.addr) = _
  rw [Function.update_of_ne (owner_ne hi hs.1 hs.2.2 n hn)]
  exact hv

omit hi in
theorem passed_sat : Sat (.handler i) (.checked fd u) (s.passed i u) := by
  refine ⟨hs.1, ?_, hs.2.2⟩
  exact Function.update_self ..

omit hi hs in
theorem passed_rely {tid : Tid} (hne : tid ≠ .handler i) : Rely tid s (s.passed i u) := by
  refine ⟨fun _ hc _ => hc, ?_, fun _ _ _ h => h, fun _ _ _ n hn he => ⟨n, hn, he, rfl⟩, ?_, Nat.le_refl _⟩
  · rintro j rfl
    exact Function.update_of_ne (fun e => hne (by rw [e])) _ _
  · intro j _ c hc he; exact Or.inl ⟨c, hc, he, rfl, fun h => h⟩

end

/-! ## The registry -/

theorem newNode_nameLike {mem : Fresh} {u : Bytes} (hu : NameLike u) (fd : Int) (room : Bytes) (isAdmin : Bool) :
    (newNode mem fd u room isAdmin).name = u := newNode_name hu.1 hu.2 fd room isAdmin

def Server.registered (s : Server) (i : Nat) (node : ClientNode) (reg : ClientRegistry) : Server :=
  { s with registry := reg, owner := Function.update s.owner node.addr i }

section
variable {T : Prop} {s : Server} {i : Nat} {fd : Int} {u : Bytes} {node : ClientNode} {reg : ClientRegistry}
variable (hi : Inv T s) (hs : Sat (.handler i) (.checked fd u) s) (hreg : reg.nodes = node :: s.registry.nodes)
variable (hfd : node.sockfd = fd) (hname : node.name = u)
include hi hs hreg hfd hname

theorem registered_inv (hfree : ∀ n ∈ s.registry.nodes, n.addr ≠ node.addr)
    (hT : T → cstr node.username = u ∧ registryUsernameExists s.registry u = false) : Inv T (s.registered i node reg) := by
  have hmem : ∀ n ∈ (s.registered i node reg).registry.nodes, n = node ∨ n ∈ s.registry.nodes := by
    intro n hn
    rw [Server.registered, hreg] at hn
    exact List.mem_cons.mp hn
  refine ⟨⟨hi.1.fds, hi.1.ids, hi.1.ids_lt, ?_, ?_, ?_⟩, fun ht => ⟨?_, ?_⟩⟩
  · rw [Server.registered, hreg, List.map_cons, List.nodup_cons]
    refine ⟨fun h => ?_, hi.1.nodeFds⟩
    obtain ⟨n, hn, he⟩ := List.mem_map.mp h
    exact hs.2.2 n hn (he.trans hfd)
  · rw [Server.registered, hreg, List.map_cons, List.nodup_cons]
    refine ⟨fun h => ?_, hi.1.addrs⟩
    obtain ⟨n, hn, he⟩ := List.mem_map.mp h
    exact hfree n hn he
  · intro n hn
    rcases hmem n hn with rfl | hn
    · have ho : (s.registered i n reg).owner n.addr = i := Function.update_self ..
      rw [ho, hfd, hname]
      exact ⟨hs.1, hs.2.1⟩
    · have ho : (s.registered i node reg).owner n.addr = s.owner n.addr := Function.update_of_ne (hfree n hn) _ _
      rw [ho]
      exact hi.1.owned n hn
  · intro n hn
    rcases hmem n hn with rfl | hn
    · rw [(hT ht).1, hname]
    · exact (hi.2 ht).exact n hn
  · rw [Server.registered, hreg, List.map_cons, List.nodup_cons]
    refine ⟨fun h => ?_, (hi.2 ht).names⟩
    obtain ⟨n, hn, he⟩ := List.mem_map.mp h
    -- the search compared the stored strings, which are the names
    have hex : registryUsernameExists s.registry u = true := by
      rw [registryUsernameExists, List.any_eq_true]
      refine ⟨n, hn, ?_⟩
      rw [streq_iff, (hi.2 ht).exact n hn, he, hname, ← hname, ClientNode.name]
      exact (cstr_of_nulFree (not_mem_take (nul_not_mem_cstr _) _)).symm
    rw [(hT ht).2] at hex
    cases hex

omit hi in
theorem registered_sat : Sat (.handler i) (.online fd u) (s.registered i node reg) := by
  refine ⟨hs.1, hs.2.1, node, ?_, hfd, hname⟩
  rw [Server.registered, hreg]
  exact List.mem_cons_self ..

omit hname in
theorem registered_rely {tid : Tid} (hne : tid ≠ .handler i) : Rely tid s (s.registered i node reg) := by
  have hno : ∀ c ∈ s.conns, c.fd ≠ fd → NoNode s c.fd → NoNode (s.registered i node reg) c.fd := by
    intro c _ hcfd hno n hn
    rw [Server.registered, hreg] at hn
    rcases List.mem_cons.mp hn with rfl | hn
    · rw [hfd]; exact hcfd.symm
    · exact hno n hn
  refine ⟨fun _ hc _ => hc, fun _ _ => rfl, ?_, ?_, ?_, Nat.le_refl _⟩
  · intro c hc ho
    exact hno c hc (fd_ne_of_owns hi hne hs.1 hc ⟨rfl, rfl⟩ ho)
  · intro c _ _ n hn he
    refine ⟨n, ?_, he, rfl⟩
    rw [Server.registered, hreg]
    exact List.mem_cons_of_mem _ hn
  · rintro j rfl c hc he
    refine Or.inl ⟨c, hc, he, rfl, hno c hc fun hcfd => ?_⟩
    have h := congrArg Conn.id (hi.1.conn_fd hc hs.1 hcfd)
    exact hne (congrArg Tid.handler (he.symm.trans h))

end

def Server.withRegistry (s : Server) (reg : ClientRegistry) : Server := { s with registry := reg }

section
variable {T : Prop} {s : Server} {i : Nat} {fd : Int} {u : Bytes} {reg : ClientRegistry}
variable (hi : Inv T s) (hs : Sat (.handler i) (.online fd u) s)
include hi

theorem removed_inv (hreg : reg.nodes = unlink s.registry.nodes fd) : Inv T (s.withRegistry reg) := by
  have hmem : ∀ n ∈ (s.withRegistry reg).registry.nodes, n ∈ s.registry.nodes := by
    intro n hn
    rw [Server.withRegistry, hreg] at hn
    exact ((mem_unlink hi.1.nodeFds).mp hn).1
  have hsub : ∀ {β : Type} (f : ClientNode → β), (s.registry.nodes.map f).Nodup →
      ((s.withRegistry reg).registry.nodes.map f).Nodup := by
    intro β f hf
    rw [Server.withRegistry, hreg]
    exact hf.sublist (unlink_map_sublist f _ _)
  refine ⟨⟨hi.1.fds, hi.1.ids, hi.1.ids_lt, hsub _ hi.1.nodeFds, hsub _ hi.1.addrs, ?_⟩, fun hT => ⟨?_, ?_⟩⟩
  · intro n hn; exact hi.1.owned n (hmem n hn)
  · intro n hn; exact (hi.2 hT).exact n (hmem n hn)
  · exact hsub _ (hi.2 hT).names

include hs

theorem removed_sat (hreg : reg.nodes = unlink s.registry.nodes fd) :
    Sat (.handler i) (.checked fd u) (s.withRegistry reg) := by
  refine ⟨hs.1, hs.2.1, fun n hn => ?_⟩
  rw [Server.withRegistry, hreg] at hn
  exact ((mem_unlink hi.1.nodeFds).mp hn).2

theorem removed_rely (hreg : reg.nodes = unlink s.registry.nodes fd) {tid : Tid} (hne : tid ≠ .handler i) :
    Rely tid s (s.withRegistry reg) := by
  have hno : ∀ fd', NoNode s fd' → NoNode (s.withRegistry reg) fd' := by
    intro fd' hno n hn
    rw [Server.withRegistry, hreg] at hn
    exact hno n ((mem_unlink hi.1.nodeFds).mp hn).1
  refine ⟨fun _ hc _ => hc, fun _ _ => rfl, fun c _ _ => hno c.fd, ?_, ?_, Nat.le_refl _⟩
  · intro c hc ho n hn he
    refine ⟨n, ?_, he, rfl⟩
    rw [Server.withRegistry, hreg]
    refine (mem_unlink hi.1.nodeFds).mpr ⟨hn, ?_⟩
    rw [he]
    exact fd_ne_of_owns hi hne hs.1 hc ⟨rfl, rfl⟩ ho
  · intro j _ c hc he; exact Or.inl ⟨c, hc, he, rfl, hno c.fd⟩

end

section
variable {T : Prop} {s : Server} {fd : Int} {room : Bytes} {reg : ClientRegistry}
variable (hreg : reg.nodes = setRoomFirst fd room s.registry.nodes)
include hreg

theorem roomSet_inv (hi : Inv T s) : Inv T (s.withRegistry reg) := by
  have hmap : ∀ {β : Type} (f : ClientNode → β), (∀ cur : ClientNode, f (cur.setRoom room) = f cur) →
      (s.withRegistry reg).registry.nodes.map f = s.registry.nodes.map f := by
    intro β f hf
    rw [Server.withRegistry, hreg]
    exact setRoomFirst_map fd room hf _
  refine ⟨⟨hi.1.fds, hi.1.ids, hi.1.ids_lt, ?_, ?_, ?_⟩, fun hT => ⟨?_, ?_⟩⟩
  · rw [hmap _ fun _ => rfl]; exact hi.1.nodeFds
  · rw [hmap _ fun _ => rfl]; exact hi.1.addrs
  · rw [Server.withRegistry, hreg]
    exact (forall_setRoomFirst fd room (fun _ => Iff.rfl) _).mpr hi.1.owned
  · rw [Server.withRegistry, hreg]
    exact (forall_setRoomFirst fd room (fun _ => Iff.rfl) _).mpr (hi.2 hT).exact
  · rw [hmap _ fun _ => rfl]; exact (hi.2 hT).names

theorem roomSet_noNode (fd' : Int) : NoNode (s.withRegistry reg) fd' ↔ NoNode s fd' := by
  rw [NoNode, Server.withRegistry, hreg]
  exact forall_setRoomFirst fd room (fun _ => Iff.rfl) _

theorem roomSet_node {fd' : Int} {u : Bytes} : (∃ n ∈ (s.withRegistry reg).registry.nodes, n.sockfd = fd' ∧ n.name = u) ↔
    ∃ n ∈ s.registry.nodes, n.sockfd = fd' ∧ n.name = u := by
  rw [Server.withRegistry, hreg]
  exact exists_setRoomFirst fd room (fun _ => Iff.rfl) _

theorem roomSet_rely (tid : Tid) : Rely tid s (s.withRegistry reg) := by
  refine ⟨fun _ hc _ => hc, fun _ _ => rfl, fun c _ _ => (roomSet_noNode hreg c.fd).mpr, ?_, ?_, Nat.le_refl _⟩
  · intro c _ _ n hn he
    exact (roomSet_node hreg).mpr ⟨n, hn, he, rfl⟩
  · intro i _ c hc he
    exact Or.inl ⟨c, hc, he, rfl, (roomSet_noNode hreg c.fd).mpr⟩

end

/-! ## `accept` and `pthread_create` -/

section
variable {T : Prop} {s : Server} {fd : Int} (hi : Inv T s) (hfd : s.holds fd = false)
include hi hfd

omit hi in
theorem fd_ne_of_not_holds : ∀ c ∈ s.conns, c.fd ≠ fd := by
  simpa [Server.holds] using hfd

theorem accepted_noNode : NoNode s fd := by
  intro n hn he
  exact fd_ne_of_not_holds hfd _ (hi.1.owned n hn).1 he

theorem accepted_inv : Inv T (s.accepted fd) := by
  refine ⟨⟨?_, ?_, ?_, hi.1.nodeFds, hi.1.addrs, ?_⟩, fun hT => ⟨(hi.2 hT).1, (hi.2 hT).2⟩⟩
  · rw [Server.accepted, List.map_cons, List.nodup_cons]
    refine ⟨fun h => ?_, hi.1.fds⟩
    obtain ⟨c, hc, he⟩ := List.mem_map.mp h
    exact fd_ne_of_not_holds hfd c hc he
  · rw [Server.accepted, List.map_cons, List.nodup_cons]
    refine ⟨fun h => ?_, hi.1.ids⟩
    obtain ⟨c, hc, he⟩ := List.mem_map.mp h
    exact absurd (hi.1.ids_lt c hc) (by rw [he]; exact Nat.lt_irrefl _)
  · intro c hc
    rcases List.mem_cons.mp hc with rfl | hc
    · exact Nat.lt_succ_self _
    · exact Nat.lt_succ_of_lt (hi.1.ids_lt c hc)
  · intro n hn
    obtain ⟨hc, hv⟩ := hi.1.owned n hn
    exact ⟨List.mem_cons_of_mem _ hc, hv⟩

theorem accepted_rely (tid : Tid) : Rely tid s (s.accepted fd) := by
  refine ⟨fun _ hc _ => List.mem_cons_of_mem _ hc, fun _ _ => rfl, fun _ _ _ h => h,
    fun _ _ _ n hn he => ⟨n, hn, he, rfl⟩, ?_, Nat.le_succ _⟩
  have hno : NoNode s fd := accepted_noNode hi hfd
  intro i _ c hc he
  rcases List.mem_cons.mp hc with rfl | hc
  · exact Or.inr ⟨hno, Nat.le_of_eq he⟩
  · exact Or.inl ⟨c, hc, he, rfl, fun h => h⟩

end

section
variable {T : Prop} {s : Server} {fd : Int} {id : Nat}

theorem mem_spawned {c : Conn} (hc : c ∈ s.conns) (hsp : c.spawned = true) : c ∈ (s.spawned fd id).conns := by
  refine List.mem_map.mpr ⟨c, hc, ?_⟩
  split
  · rw [← hsp]
  · rfl

theorem of_mem_spawned {c : Conn} (hc : c ∈ (s.spawned fd id).conns) : ∃ d ∈ s.conns, d.fd = c.fd ∧ d.id = c.id := by
  obtain ⟨d, hd, rfl⟩ := List.mem_map.mp hc
  refine ⟨d, hd, ?_⟩
  split <;> exact ⟨rfl, rfl⟩

theorem spawned_inv (hi : Inv T s) : Inv T (s.spawned fd id) := by
  have hmap : ∀ {β : Type} (f : Conn → β), (∀ c : Conn, f { c with spawned := true } = f c) →
      (s.spawned fd id).conns.map f = s.conns.map f := by
    intro β f hf
    rw [Server.spawned, List.map_map]
    refine List.map_congr_left fun c _ => ?_
    simp only [Function.comp]
    split
    · exact hf c
    · rfl
  refine ⟨⟨?_, ?_, ?_, hi.1.nodeFds, hi.1.addrs, ?_⟩, fun hT => ⟨(hi.2 hT).1, (hi.2 hT).2⟩⟩
  · rw [hmap _ fun _ => rfl]; exact hi.1.fds
  · rw [hmap _ fun _ => rfl]; exact hi.1.ids
  · intro c hc
    obtain ⟨d, hd, -, he⟩ := of_mem_spawned hc
    rw [← he]; exact hi.1.ids_lt d hd
  · intro n hn
    obtain ⟨hc, hv⟩ := hi.1.owned n hn
    exact ⟨mem_spawned hc rfl, hv⟩

theorem spawned_rely {tid : Tid} (hne : tid ≠ .main) : Rely tid s (s.spawned fd id) := by
  refine ⟨?_, fun _ _ => rfl, fun _ _ _ h => h, fun _ _ _ n hn he => ⟨n, hn, he, rfl⟩, ?_, Nat.le_refl _⟩
  · intro c hc ho
    cases tid with
    | main => exact absurd rfl hne
    | handler i => exact mem_spawned hc ho.2
    | broadcaster | signal => cases ho
  · intro i _ c hc he
    obtain ⟨d, hd, hfd, hid⟩ := of_mem_spawned hc
    exact Or.inl ⟨d, hd, hid.trans he, hfd, fun h => h⟩

end

/-! ## Any action -/

/-- What an action does: the invariant holds on, its thread knows `v'`, and
nobody else loses what they knew. -/
def Moves (T : Prop) (tid : Tid) (v' : View) (s s' : Server) : Prop :=
  Inv T s' ∧ Sat tid v' s' ∧ ∀ tid', tid' ≠ tid → Rely tid' s s'

section
variable {P : Platform} {T : Prop} {tid : Tid} {e : Env} {s s' : Server} {v : View}
variable (hi : Inv T s) (hs : Sat tid v s)
include hi hs

theorem Unmoved.moves (h : Unmoved s s') : Moves T tid v s s' := ⟨h.inv hi, h.sat hs, fun tid' _ => h.rely tid'⟩

theorem close_moves {fd : Int} (ha : allowed T (.close fd) v) {r : Unit}
    (hx : exec P tid (.close fd) e s = some (r, s')) : Moves T tid (advance (.close fd) v r) s s' := by
  cases hx
  exact ⟨close_inv hi hs ha, close_sat hi hs ha, fun _ hne => close_rely hi hs ha hne⟩

theorem authVerify_moves {u p : Bytes} (ha : allowed T (.authVerify u p) v) {r : ChatStatus}
    (hx : exec P tid (.authVerify u p) e s = some (r, s')) : Moves T tid (advance (.authVerify u p) v r) s s' := by
  obtain ⟨fd, rfl⟩ := ha
  cases tid with
  | main | broadcaster | signal => cases hs
  | handler i =>
    rcases exec_authVerify hx with ⟨rfl, rfl⟩ | ⟨hrc, rfl⟩
    · exact ⟨passed_inv hi hs, passed_sat hs, fun _ hne => passed_rely hne⟩
    · have hadv : advance (.authVerify u p) (.fresh fd) r = .fresh fd := if_neg hrc
      rw [hadv]
      exact Unmoved.moves hi hs ⟨rfl, rfl, rfl, rfl, rfl⟩

theorem registryAdd_moves {fd : Int} {u room : Bytes} {isAdmin : Bool} (ha : allowed T (.registryAdd fd u room isAdmin) v)
    (he : T → e.Terminated) {r : ChatStatus} (hx : exec P tid (.registryAdd fd u room isAdmin) e s = some (r, s')) :
    Moves T tid (advance (.registryAdd fd u room isAdmin) v r) s s' := by
  obtain ⟨rfl, hu⟩ := ha
  cases tid with
  | main | broadcaster | signal => cases hs
  | handler i =>
    simp only [exec] at hx
    cases hnode : e.node with
    | none =>
      rw [hnode] at hx
      cases hx
      exact Unmoved.moves hi hs ⟨rfl, rfl, rfl, rfl, rfl⟩
    | some mem =>
      rw [hnode] at hx
      by_cases hfree : (s.registry.nodes.any fun n => n.addr == mem.addr) = true
      · simp only [hfree, ite_true] at hx
        cases hx
      · simp only [hfree, Bool.false_eq_true, ite_false] at hx
        rcases hadd : registryAdd s.registry (some mem) fd u room isAdmin with ⟨rc, reg⟩
        have hcases := registryAdd_cases s.registry (some mem) fd u room isAdmin
        rw [hadd] at hx hcases
        rcases hcases with ⟨m, hm, -, hex, rfl, hreg⟩ | ⟨hrc, rfl⟩
        · cases hm
          cases hx
          have hfree' : ∀ n ∈ s.registry.nodes, n.addr ≠ (newNode mem fd u room isAdmin).addr := by
            intro n hn h
            exact hfree (List.any_eq_true.mpr ⟨n, hn, beq_iff_eq.mpr h⟩)
          have hname : (newNode mem fd u room isAdmin).name = u := newNode_nameLike hu fd room isAdmin
          refine ⟨registered_inv hi hs hreg rfl hname hfree' fun hT => ⟨?_, hex⟩, registered_sat hs hreg rfl hname,
            fun _ hne => registered_rely hi hs hreg rfl hne⟩
          exact (newNode_username_iff hu.1 hu.2 fd room isAdmin).mpr (Or.inr ((he hT).node mem hnode).1)
        · have hadv : advance (.registryAdd fd u room isAdmin) (.checked fd u) rc = .checked fd u := if_neg hrc
          cases rc with
          | ok => exact absurd rfl hrc
          | _ =>
            cases hx
            rw [hadv]
            exact Unmoved.moves hi hs ⟨rfl, rfl, rfl, rfl, rfl⟩

theorem registryRemove_moves {fd : Int} (ha : allowed T (.registryRemove fd) v) {r : ChatStatus}
    (hx : exec P tid (.registryRemove fd) e s = some (r, s')) : Moves T tid (advance (.registryRemove fd) v r) s s' := by
  obtain ⟨u, rfl⟩ := ha
  cases tid with
  | main | broadcaster | signal => cases hs
  | handler i =>
    cases hx
    have hreg := registryRemove_nodes s.registry fd
    exact ⟨removed_inv hi hreg, removed_sat hi hs hreg, fun _ hne => removed_rely hi hs hreg hne⟩

theorem registrySetRoom_moves {fd : Int} {room : Bytes} (ha : allowed T (.registrySetRoom fd room) v) {r : ChatStatus}
    (hx : exec P tid (.registrySetRoom fd room) e s = some (r, s')) :
    Moves T tid (advance (.registrySetRoom fd room) v r) s s' := by
  obtain ⟨u, rfl⟩ := ha
  cases tid with
  | main | broadcaster | signal => cases hs
  | handler i =>
    cases hx
    have hreg := registrySetRoom_nodes s.registry fd room
    exact ⟨roomSet_inv hreg hi, ⟨hs.1, hs.2.1, (roomSet_node hreg).mpr hs.2.2⟩, fun _ _ => roomSet_rely hreg _⟩

theorem accept_moves (ha : allowed T .accept v) {r : Option (Int × Nat)}
    (hx : exec P tid .accept e s = some (r, s')) : Moves T tid (advance .accept v r) s s' := by
  obtain rfl : v = .idle := ha
  obtain rfl : tid = .main := by cases tid <;> first | rfl | cases hs
  rcases exec_accept hx with ⟨rfl, rfl⟩ | ⟨fd, rfl, hfree, rfl⟩
  · exact Unmoved.moves hi hs ⟨rfl, rfl, rfl, rfl, rfl⟩
  · exact ⟨accepted_inv hi hfree, List.mem_cons_self .., fun tid' _ => accepted_rely hi hfree tid'⟩

theorem spawn_moves {fd : Int} {id : Nat} (ha : allowed T (.spawn fd id) v) {r : Bool}
    (hx : exec P tid (.spawn fd id) e s = some (r, s')) : Moves T tid (advance (.spawn fd id) v r) s s' := by
  obtain rfl : v = .held fd id := ha
  cases tid with
  | handler | broadcaster | signal => cases hs
  | main =>
    rcases exec_spawn hx with ⟨rfl, rfl⟩ | ⟨rfl, rfl⟩
    · exact ⟨spawned_inv hi, trivial, fun _ hne => spawned_rely hne⟩
    · exact Unmoved.moves hi hs ⟨rfl, rfl, rfl, rfl, rfl⟩

theorem start_moves (ha : allowed T .start v) {r : Int} (hx : exec P tid .start e s = some (r, s')) :
    Moves T tid (advance .start v r) s s' := by
  obtain rfl : v = .unborn := ha
  obtain ⟨rfl, c, hc, rfl, hsp, rfl⟩ := exec_start hx
  have hconn : (⟨c.fd, c.id, true⟩ : Conn) ∈ s'.conns := by rw [← hsp]; exact hc
  exact Unmoved.moves hi (v := .fresh c.fd) ⟨hconn, hs.1, hs.2 c hc rfl⟩ ⟨rfl, rfl, rfl, rfl, rfl⟩

theorem exec_moves {a : Act} (ha : allowed T a v) (he : T → e.Terminated) {r : a.Ret}
    (hx : exec P tid a e s = some (r, s')) : Moves T tid (advance a v r) s s' := by
  cases a with
  | close fd => exact close_moves hi hs ha hx
  | authVerify u p => exact authVerify_moves hi hs ha hx
  | registryAdd fd u room isAdmin => exact registryAdd_moves hi hs ha he hx
  | registryRemove fd => exact registryRemove_moves hi hs ha hx
  | registrySetRoom fd room => exact registrySetRoom_moves hi hs ha hx
  | accept => exact accept_moves hi hs ha hx
  | spawn fd id => exact spawn_moves hi hs ha hx
  | start => exact start_moves hi hs ha hx
  | _ =>
    have hun := exec_unmoved rfl hx
    cases v <;> exact Unmoved.moves hi hs hun

theorem exec_tells {a : Act} (he : T → e.Terminated) {r : a.Ret} (hx : exec P tid a e s = some (r, s')) :
    tells T a v r := by
  cases a with
  | registryGetUsername fd =>
    cases v with
    | online fd' u =>
      rintro rfl
      cases tid with
      | main | broadcaster | signal => cases hs
      | handler i =>
        obtain ⟨-, -, n, hn, hfd, hu⟩ := hs
        cases hx
        have hspec := registryGetUsername_spec s.registry fd
          (show (List.replicate maxUsernameLen (0 : UInt8)).length = maxUsernameLen from List.length_replicate)
        cases hfind : s.registry.nodes.find? fun cur => cur.sockfd == fd with
        | none =>
          rw [List.find?_eq_none] at hfind
          exact absurd hfd (by simpa using hfind n hn)
        | some cur =>
          rw [hfind] at hspec
          have hcur : cur = n := List.inj_on_of_nodup_map hi.1.nodeFds (List.mem_of_find?_eq_some hfind) hn
            ((by simpa using List.find?_some hfind : cur.sockfd = fd).trans hfd.symm)
          exact Prod.ext hspec.1 (hspec.2.trans (by rw [hcur, hu]))
    | _ => trivial
  | recvLine fd =>
    cases hx
    intro line hline
    obtain ⟨b, -, rfl⟩ := Option.map_eq_some_iff.mp hline
    exact nul_not_mem_cstr b
  | stackEvent =>
    cases hx
    intro hT
    exact (he hT).username
  | _ => trivial

end

end ChatServer

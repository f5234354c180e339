import ChatServer.ProtocolSound
import ChatServer.Registry

/-!
# Finding a registered user

What a lookup sees right after `registry_add`. The name is copied into an
uninitialised block without a terminator, so a name of the longest legal
length is found by name only when the block happened to end it; the copy out
of the node (`registry_get_username`) is right either way.
-/

namespace ChatServer

open CStr

/-! ## The list after a removal or a room change -/

theorem unlink_map_sublist {β : Type} (f : ClientNode → β) (nodes : List ClientNode) (sockfd : Int) :
    ((unlink nodes sockfd).map f).Sublist (nodes.map f) := List.eraseP_sublist.map f

theorem mem_unlink {sockfd : Int} : ∀ {nodes : List ClientNode}, (nodes.map ClientNode.sockfd).Nodup → ∀ {n : ClientNode},
    n ∈ unlink nodes sockfd ↔ n ∈ nodes ∧ n.sockfd ≠ sockfd
  | [], _, n => by simp [unlink]
  | cur :: rest, h, n => by
    rw [List.map_cons, List.nodup_cons] at h
    unfold unlink
    by_cases hc : cur.sockfd = sockfd
    · rw [List.eraseP_cons_of_pos (by simpa using hc), List.mem_cons]
      constructor
      · intro hn
        refine ⟨Or.inr hn, fun he => h.1 ?_⟩
        rw [hc, ← he]; exact List.mem_map_of_mem hn
      · rintro ⟨rfl | hn, hne⟩
        · exact absurd hc hne
        · exact hn
    · rw [List.eraseP_cons_of_neg (by simpa using hc), List.mem_cons, List.mem_cons]
      have ih : n ∈ unlink rest sockfd ↔ _ := mem_unlink h.2
      unfold unlink at ih
      rw [ih]
      constructor
      · rintro (rfl | ⟨hn, hne⟩)
        · exact ⟨Or.inl rfl, hc⟩
        · exact ⟨Or.inr hn, hne⟩
      · rintro ⟨rfl | hn, hne⟩
        · exact Or.inl rfl
        · exact Or.inr ⟨hn, hne⟩

theorem mem_setRoomFirst {sockfd : Int} {room : Bytes} : ∀ {nodes : List ClientNode},
    (nodes.map ClientNode.sockfd).Nodup → ∀ {n : ClientNode}, n ∈ setRoomFirst sockfd room nodes ↔
      (n ∈ nodes ∧ n.sockfd ≠ sockfd) ∨ ∃ cur ∈ nodes, cur.sockfd = sockfd ∧ n = cur.setRoom room
  | [], _, n => by simp [setRoomFirst]
  | cur :: rest, h, n => by
    rw [List.map_cons, List.nodup_cons] at h
    have hrest : ∀ m ∈ rest, m.sockfd = cur.sockfd → False := fun m hm he => h.1 (he ▸ List.mem_map_of_mem hm)
    unfold setRoomFirst
    by_cases hc : cur.sockfd = sockfd
    · subst hc
      rw [if_pos (beq_self_eq_true _), List.mem_cons]
      constructor
      · rintro (rfl | hn)
        · exact Or.inr ⟨cur, List.mem_cons_self .., rfl, rfl⟩
        · exact Or.inl ⟨List.mem_cons_of_mem _ hn, hrest n hn⟩
      · rintro (⟨hn, hne⟩ | ⟨m, hm, he, rfl⟩)
        · rcases List.mem_cons.mp hn with rfl | hn
          · exact absurd rfl hne
          · exact Or.inr hn
        · rcases List.mem_cons.mp hm with rfl | hm
          · exact Or.inl rfl
          · exact (hrest m hm he).elim
    · rw [if_neg (by simpa using hc), List.mem_cons, mem_setRoomFirst h.2]
      constructor
      · rintro (rfl | ⟨hn, hne⟩ | ⟨m, hm, he⟩)
        · exact Or.inl ⟨List.mem_cons_self .., hc⟩
        · exact Or.inl ⟨List.mem_cons_of_mem _ hn, hne⟩
        · exact Or.inr ⟨m, List.mem_cons_of_mem _ hm, he⟩
      · rintro (⟨hn, hne⟩ | ⟨m, hm, he, hset⟩)
        · exact (List.mem_cons.mp hn).imp_right fun hn => Or.inl ⟨hn, hne⟩
        · rcases List.mem_cons.mp hm with rfl | hm
          · exact absurd he hc
          · exact Or.inr (Or.inr ⟨m, hm, he, hset⟩)

section
variable (sockfd : Int) (room : Bytes)

theorem setRoomFirst_map {β : Type} {f : ClientNode → β} (hf : ∀ cur, f (cur.setRoom room) = f cur) :
    ∀ nodes, (setRoomFirst sockfd room nodes).map f = nodes.map f
  | [] => rfl
  | cur :: rest => by
    unfold setRoomFirst
    split
    · rw [List.map_cons, hf, List.map_cons]
    · rw [List.map_cons, setRoomFirst_map hf rest, List.map_cons]

theorem forall_setRoomFirst {p : ClientNode → Prop} (hp : ∀ cur, p (cur.setRoom room) ↔ p cur) (nodes : List ClientNode) :
    (∀ n ∈ setRoomFirst sockfd room nodes, p n) ↔ ∀ n ∈ nodes, p n := by
  have h : (setRoomFirst sockfd room nodes).map p = nodes.map p :=
    setRoomFirst_map sockfd room (fun cur => propext (hp cur)) nodes
  have hall : ∀ l : List ClientNode, (∀ n ∈ l, p n) ↔ ∀ q ∈ l.map p, q :=
    fun l => (List.forall_mem_map (P := fun q => q)).symm
  rw [hall, hall, h]

theorem exists_setRoomFirst {p : ClientNode → Prop} (hp : ∀ cur, p (cur.setRoom room) ↔ p cur) (nodes : List ClientNode) :
    (∃ n ∈ setRoomFirst sockfd room nodes, p n) ↔ ∃ n ∈ nodes, p n := by
  have h : (∀ n ∈ setRoomFirst sockfd room nodes, ¬ p n) ↔ ∀ n ∈ nodes, ¬ p n :=
    forall_setRoomFirst sockfd room (fun cur => not_congr (hp cur)) nodes
  rw [← not_iff_not]
  simpa only [not_exists, not_and] using h

end

/-! ## A node just added -/

section
variable {reg reg' : ClientRegistry} {mem : Fresh} {sockfd : Int} {username room : Bytes} {isAdmin : Bool}
variable (h0 : 0 ∉ username) (hl : username.length < maxUsernameLen)
variable (hadd : registryAdd reg (some mem) sockfd username room isAdmin = (.ok, reg'))

theorem registryAdd_ok (hadd : registryAdd reg (some mem) sockfd username room isAdmin = (.ok, reg')) :
    reg.count < maxClients ∧ registryUsernameExists reg username = false ∧
      reg'.nodes = newNode mem sockfd username room isAdmin :: reg.nodes ∧ reg'.count = reg.count + 1 := by
  rcases registryAdd_cases reg (some mem) sockfd username room isAdmin with ⟨m, hm, hc, hd, -, hn⟩ | ⟨hne, -⟩
  · cases hm
    rw [hadd] at hn
    exact ⟨hc, hd, hn, by rw [reg'.count_eq, hn, List.length_cons, reg.count_eq]⟩
  · rw [hadd] at hne; exact absurd rfl hne

include h0 hl hadd

theorem registryUsernameExists_add_iff : registryUsernameExists reg' username = true ↔ NameFits mem username := by
  obtain ⟨-, hd, hn, -⟩ := registryAdd_ok hadd
  have hhead : streq (newNode mem sockfd username room isAdmin).username username = true ↔ NameFits mem username := by
    rw [streq_iff, cstr_of_nulFree h0, newNode_username_iff h0 hl]
  rw [← hhead, registryUsernameExists, hn, List.any_cons, Bool.or_eq_true]
  exact or_iff_left (by simpa [registryUsernameExists] using hd)

theorem registryGetSockfdByUsername_add (hfits : NameFits mem username) :
    registryGetSockfdByUsername reg' username = sockfd := by
  obtain ⟨-, -, hn, -⟩ := registryAdd_ok hadd
  have hhead : streq (newNode mem sockfd username room isAdmin).username username = true := by
    rw [streq_iff, cstr_of_nulFree h0, (newNode_username_iff h0 hl sockfd room isAdmin).mpr hfits]
  rw [registryGetSockfdByUsername, hn, List.find?_cons, hhead]
  rfl

theorem registryGetUsername_add {buf : Bytes} (hb : buf.length = maxUsernameLen) :
    (registryGetUsername reg' sockfd buf maxUsernameLen).1 = .ok ∧
      cstr (registryGetUsername reg' sockfd buf maxUsernameLen).2 = username := by
  obtain ⟨-, -, hn, -⟩ := registryAdd_ok hadd
  have hspec := registryGetUsername_spec reg' sockfd hb
  rw [hn, List.find?_cons_of_pos (by simp [newNode])] at hspec
  exact ⟨hspec.1, hspec.2.trans (newNode_name h0 hl sockfd room isAdmin)⟩

/-- A second login under the name: the capacity check comes before the search. -/
theorem registryAdd_again (hfits : NameFits mem username) (mem' : Fresh) (sockfd' : Int) (room' : Bytes)
    (isAdmin' : Bool) : (registryAdd reg' (some mem') sockfd' username room' isAdmin').1 =
      if reg'.count < maxClients then .errDuplicate else .errFull := by
  have hex := (registryUsernameExists_add_iff h0 hl hadd).mpr hfits
  unfold registryUsernameExists at hex
  unfold registryAdd
  simp only
  by_cases hc : reg'.count < maxClients
  · rw [if_neg (Nat.not_le.mpr hc), if_pos hex, if_pos hc]
  · rw [if_pos (Nat.not_lt.mp hc), if_neg hc]

end

/-- **A registered user is found under its name**, where the name's copy in the
node is terminated. -/
theorem registry_add_found {line : Bytes} {out : ParsedCmd} (hacc : Accepts line out) (hcmd : out.cmd = .auth)
    {reg reg' : ClientRegistry} {mem : Fresh} {sockfd : Int} {room : Bytes} {isAdmin : Bool}
    (hfits : NameFits mem (cstr out.arg1))
    (hadd : registryAdd reg (some mem) sockfd (cstr out.arg1) room isAdmin = (.ok, reg')) :
    registryUsernameExists reg' (cstr out.arg1) = true ∧
    registryGetSockfdByUsername reg' (cstr out.arg1) = sockfd ∧
    (∀ buf, buf.length = maxUsernameLen → (registryGetUsername reg' sockfd buf maxUsernameLen).1 = .ok ∧
      cstr (registryGetUsername reg' sockfd buf maxUsernameLen).2 = cstr out.arg1) ∧
    ∀ mem' sockfd' room' isAdmin', (registryAdd reg' (some mem') sockfd' (cstr out.arg1) room' isAdmin').1 =
      if reg'.count < maxClients then .errDuplicate else .errFull := by
  have h0 := nul_not_mem_cstr out.arg1
  have hl := (accepts_auth hacc hcmd).1.length_lt
  refine ⟨(registryUsernameExists_add_iff h0 hl hadd).mpr hfits, registryGetSockfdByUsername_add h0 hl hadd hfits, ?_, ?_⟩
  · intro buf hb; exact registryGetUsername_add h0 hl hadd hb
  · intro mem' sockfd' room' isAdmin'; exact registryAdd_again h0 hl hadd hfits mem' sockfd' room' isAdmin'

def filledBlock (addr : Nat) (c : UInt8) : Fresh :=
  { addr := addr, username := List.replicate maxUsernameLen c, room := List.replicate maxRoomNameLen c,
    behind := [c, c], username_length := List.length_replicate, room_length := List.length_replicate }

def lobbyPair : ClientRegistry :=
  (registryAdd (registryAdd registryInit (some (filledBlock 2 0)) 6 (lit "bob") defaultRoom false).2
    (some (filledBlock 1 0)) 5 (lit "alice") defaultRoom false).2

theorem registry_add_found_bob :
    let username := cstr (parsedClient (lit "AUTH bob pw")).arg1
    let reg' := (registryAdd registryInit (some (filledBlock 1 88)) 5 username defaultRoom false).2
    registryUsernameExists reg' username = true ∧ registryGetSockfdByUsername reg' username = 5 ∧
    (∀ buf, buf.length = maxUsernameLen → (registryGetUsername reg' 5 buf maxUsernameLen).1 = .ok ∧
      cstr (registryGetUsername reg' 5 buf maxUsernameLen).2 = username) ∧
    ∀ mem' sockfd' room' isAdmin', (registryAdd reg' (some mem') sockfd' username room' isAdmin').1 =
      if reg'.count < maxClients then .errDuplicate else .errFull :=
  @registry_add_found (lit "AUTH bob pw") _ (by decide +kernel) (by decide +kernel) registryInit _ (filledBlock 1 88) 5
    defaultRoom false (by decide +kernel) (by decide +kernel)

def almostFull : ClientRegistry :=
  { nodes := (List.range 99).map fun i => newNode (filledBlock i 0) i (decimal i) defaultRoom false
    count := 99
    count_eq := by rw [List.length_map, List.length_range] }

/-- A name of 31 bytes in a block of other bytes is not found, and its owner can
log in twice; and the last client to fit makes the next login of its name
fail for the capacity. -/
theorem registry_add_not_found :
    (let line := lit "AUTH abcdefghijklmnopqrstuvwxyz01234 pw"
     let username := cstr (parsedClient line).arg1
     let added := registryAdd registryInit (some (filledBlock 1 88)) 5 username defaultRoom false
     Accepts line (parsedClient line) ∧ (parsedClient line).cmd = .auth ∧ added.1 = .ok ∧
       registryUsernameExists added.2 username = false ∧ registryGetSockfdByUsername added.2 username = -1 ∧
       (registryAdd added.2 (some (filledBlock 2 88)) 6 username defaultRoom false).1 = .ok) ∧
    (let username := cstr (parsedClient (lit "AUTH bob pw")).arg1
     let added := registryAdd almostFull (some (filledBlock 200 88)) 200 username defaultRoom false
     registryUsernameExists almostFull username = false ∧ (∀ cur ∈ almostFull.nodes, cur.sockfd ≠ 200) ∧
       almostFull.count < maxClients ∧ added.1 = .ok ∧
       (registryAdd added.2 (some (filledBlock 201 88)) 201 username defaultRoom false).1 ≠ .errDuplicate) := by
  decide +kernel

end ChatServer

import ChatServer.Common

/-!
# The client registry

`client_registry.c`. The linked list is the list of its nodes from `head` on,
each with the address of its block; every function here is one critical
section of the registry's lock. A node is allocated by `malloc`, so the bytes
its fields hold before the copies are a parameter.
-/

namespace ChatServer

open CStr

/-- A block returned by `malloc(sizeof(client_node_t))`, with the bytes found in it. -/
structure Fresh where
  addr : Nat
  username : Bytes
  room : Bytes
  -- what lies behind `is_admin`
  behind : Bytes
  username_length : username.length = maxUsernameLen
  room_length : room.length = maxRoomNameLen

structure ClientNode where
  addr : Nat
  sockfd : Int
  username : Bytes
  room : Bytes
  isAdmin : Bool
  behind : Bytes
  username_length : username.length = maxUsernameLen
  room_length : room.length = maxRoomNameLen
  deriving DecidableEq

structure ClientRegistry where
  nodes : List ClientNode
  count : Nat
  count_eq : count = nodes.length
  deriving DecidableEq

def registryInit : ClientRegistry := { nodes := [], count := 0, count_eq := rfl }

/-- The node `registry_add` fills before it takes the lock. -/
def newNode (mem : Fresh) (sockfd : Int) (username room : Bytes) (isAdmin : Bool) : ClientNode :=
  { addr := mem.addr, sockfd := sockfd, username := strncpy mem.username username (maxUsernameLen - 1),
    room := strncpy mem.room room (maxRoomNameLen - 1), isAdmin := isAdmin, behind := mem.behind,
    username_length := by rw [strncpy_length (by simp [mem.username_length]), mem.username_length]
    room_length := by rw [strncpy_length (by simp [mem.room_length]), mem.room_length] }

def registryAdd (reg : ClientRegistry) (mem : Option Fresh) (sockfd : Int) (username room : Bytes) (isAdmin : Bool) :
    ChatStatus × ClientRegistry :=
  match mem with
  | none => (.errNomem, reg)
  | some mem =>
    if reg.count ≥ maxClients then (.errFull, reg)
    else if reg.nodes.any fun cur => streq cur.username username then (.errDuplicate, reg)
    else
      (.ok, { nodes := newNode mem sockfd username room isAdmin :: reg.nodes, count := reg.count + 1,
              count_eq := by rw [List.length_cons, reg.count_eq] })

def unlink (nodes : List ClientNode) (sockfd : Int) : List ClientNode := nodes.eraseP fun cur => cur.sockfd == sockfd

def registryRemove (reg : ClientRegistry) (sockfd : Int) : ChatStatus × ClientRegistry :=
  match h : reg.nodes.find? fun cur => cur.sockfd == sockfd with
  | none => (.errNotFound, reg)
  | some cur =>
    (.ok, { nodes := unlink reg.nodes sockfd, count := reg.count - 1,
            count_eq := by
              rw [unlink, List.length_eraseP_of_mem (List.mem_of_find?_eq_some h) (List.find?_some h), reg.count_eq] })

def registryUsernameExists (reg : ClientRegistry) (username : Bytes) : Bool :=
  reg.nodes.any fun cur => streq cur.username username

def copyField (buf field : Bytes) (buflen : Nat) : Bytes := setNul (strncpy buf field (buflen - 1)) (buflen - 1)

def getField (field : ClientNode → Bytes) (reg : ClientRegistry) (sockfd : Int) (buf : Bytes) (buflen : Nat) :
    ChatStatus × Bytes :=
  if buflen = 0 then (.err, buf)
  else
    match reg.nodes.find? fun cur => cur.sockfd == sockfd with
    | none => (.errNotFound, setNul buf 0)
    | some cur => (.ok, copyField (setNul buf 0) (field cur) buflen)

def registryGetUsername (reg : ClientRegistry) (sockfd : Int) (buf : Bytes) (buflen : Nat) : ChatStatus × Bytes :=
  getField ClientNode.username reg sockfd buf buflen

def registryGetRoom (reg : ClientRegistry) (sockfd : Int) (buf : Bytes) (buflen : Nat) : ChatStatus × Bytes :=
  getField ClientNode.room reg sockfd buf buflen

def ClientNode.setRoom (cur : ClientNode) (room : Bytes) : ClientNode :=
  { cur with
    room := copyField cur.room room maxRoomNameLen
    room_length := by
      rw [copyField, setNul_length, strncpy_length (by simp [cur.room_length]), cur.room_length] }

def setRoomFirst (sockfd : Int) (room : Bytes) : List ClientNode → List ClientNode
  | [] => []
  | cur :: rest => if cur.sockfd == sockfd then cur.setRoom room :: rest else cur :: setRoomFirst sockfd room rest

theorem setRoomFirst_length (sockfd : Int) (room : Bytes) :
    ∀ nodes, (setRoomFirst sockfd room nodes).length = nodes.length
  | [] => rfl
  | cur :: rest => by
    unfold setRoomFirst
    split
    · rfl
    · simp [setRoomFirst_length sockfd room rest]

def registrySetRoom (reg : ClientRegistry) (sockfd : Int) (room : Bytes) : ChatStatus × ClientRegistry :=
  match reg.nodes.find? fun cur => cur.sockfd == sockfd with
  | none => (.errNotFound, reg)
  | some _ =>
    (.ok, { nodes := setRoomFirst sockfd room reg.nodes, count := reg.count,
            count_eq := by rw [setRoomFirst_length, reg.count_eq] })

def registryIsAdmin (reg : ClientRegistry) (sockfd : Int) : Bool :=
  match reg.nodes.find? fun cur => cur.sockfd == sockfd with
  | none => false
  | some cur => cur.isAdmin

def registryGetSockfdByUsername (reg : ClientRegistry) (username : Bytes) : Int :=
  match reg.nodes.find? fun cur => streq cur.username username with
  | none => -1
  | some cur => cur.sockfd

def registryCount (reg : ClientRegistry) : Nat := reg.count

/-- The bytes of the node from `authenticated` on. -/
def ClientNode.flags (cur : ClientNode) : Bytes := 1 :: (if cur.isAdmin then 1 else 0) :: cur.behind

/-- The string at `cur->username`: where the field holds no NUL it runs on into `room`, and from there into the flags. -/
def ClientNode.usernameString (cur : ClientNode) : Bytes := cstr (cur.username ++ cur.room ++ cur.flags)

/-- The string at `cur->room`. -/
def ClientNode.roomString (cur : ClientNode) : Bytes := cstr (cur.room ++ cur.flags)

def ClientNode.inRoom (cur : ClientNode) (room : Bytes) : Bool := cur.roomString == cstr room

def registryBuildUserList (reg : ClientRegistry) (buflen : Nat) : ChatStatus × Bytes :=
  if buflen = 0 then (.err, []) else appendJoined buflen (lit ",") (reg.nodes.map ClientNode.usernameString) [] true

/-- `registry_foreach`, with nobody changing the list meanwhile. -/
def registryForeach {m : Type → Type} [Monad m] (fn : ClientNode → m ChatStatus) : List ClientNode → m ChatStatus
  | [] => pure .ok
  | cur :: rest => do
    let rc ← fn cur
    if rc ≠ .ok then return rc
    registryForeach fn rest

/-- `cur->next` of the linked node at `cur`; `none` when no node is linked there. -/
def nodeAfter (cur : Nat) : List ClientNode → Option (Option ClientNode)
  | [] => none
  | node :: rest => if node.addr = cur then some rest.head? else nodeAfter cur rest

/-! ## The nodes after each operation -/

theorem registryAdd_cases (reg : ClientRegistry) (mem : Option Fresh) (sockfd : Int) (username room : Bytes)
    (isAdmin : Bool) :
    (∃ m, mem = some m ∧ reg.count < maxClients ∧ registryUsernameExists reg username = false ∧
      (registryAdd reg mem sockfd username room isAdmin).1 = .ok ∧
      (registryAdd reg mem sockfd username room isAdmin).2.nodes =
        newNode m sockfd username room isAdmin :: reg.nodes) ∨
    ((registryAdd reg mem sockfd username room isAdmin).1 ≠ .ok ∧
      (registryAdd reg mem sockfd username room isAdmin).2 = reg) := by
  unfold registryAdd
  cases mem with
  | none => exact Or.inr ⟨nofun, rfl⟩
  | some m =>
    simp only
    split
    · exact Or.inr ⟨nofun, rfl⟩
    · rename_i hc
      split
      · exact Or.inr ⟨nofun, rfl⟩
      · rename_i hd
        exact Or.inl ⟨m, rfl, Nat.not_le.mp hc, Bool.eq_false_iff.mpr hd, rfl, rfl⟩

theorem registryRemove_nodes (reg : ClientRegistry) (sockfd : Int) :
    (registryRemove reg sockfd).2.nodes = unlink reg.nodes sockfd := by
  unfold registryRemove
  split
  · rename_i h
    rw [unlink, List.eraseP_of_forall_not (by simpa using h)]
  · rfl

theorem registryRemove_cases (reg : ClientRegistry) (sockfd : Int) :
    (registryRemove reg sockfd).2 = reg ∨ (registryRemove reg sockfd).1 = .ok := by
  unfold registryRemove
  split
  · exact Or.inl rfl
  · exact Or.inr rfl

theorem registrySetRoom_nodes (reg : ClientRegistry) (sockfd : Int) (room : Bytes) :
    (registrySetRoom reg sockfd room).2.nodes = setRoomFirst sockfd room reg.nodes := by
  unfold registrySetRoom
  split
  · rename_i h
    have hn : ∀ nodes : List ClientNode, (nodes.find? fun cur => cur.sockfd == sockfd) = none →
        setRoomFirst sockfd room nodes = nodes := by
      intro nodes
      induction nodes with
      | nil => intro _; rfl
      | cons cur rest ih =>
        intro h
        rw [List.find?_cons] at h
        split at h
        · cases h
        · rename_i hc
          rw [setRoomFirst, hc, ih h]; rfl
    exact (hn _ h).symm
  · rfl

/-! ## Names -/

/-- The name that `registry_get_username` reads off a node. -/
def ClientNode.name (cur : ClientNode) : Bytes := (cstr cur.username).take (maxUsernameLen - 1)

def ClientNode.roomName (cur : ClientNode) : Bytes := (cstr cur.room).take (maxRoomNameLen - 1)

/-- What stands behind the name in the string at `cur->username`. -/
def ClientNode.overrun (cur : ClientNode) : Bytes := cur.usernameString.drop cur.name.length

section
variable (cur : ClientNode)

theorem ClientNode.name_of_nul (h : 0 ∈ cur.username) : cstr cur.username = cur.name := by
  have hlt := cstr_length_lt h
  rw [cur.username_length] at hlt
  exact (List.take_of_length_le (Nat.le_pred_of_lt hlt)).symm

theorem ClientNode.usernameString_of_nul (h : 0 ∈ cur.username) : cur.usernameString = cur.name := by
  rw [usernameString, List.append_assoc, cstr_append_of_mem h, cur.name_of_nul h]

theorem ClientNode.usernameString_of_not_nul (h : 0 ∉ cur.username) :
    cur.usernameString = cur.username ++ cstr (cur.room ++ cur.flags) ∧ cur.name = cur.username.take (maxUsernameLen - 1) := by
  rw [usernameString, List.append_assoc, cstr_append h, name, cstr_of_nulFree h]
  exact ⟨rfl, rfl⟩

theorem ClientNode.name_initial : cur.name <+: cur.usernameString := by
  by_cases h : 0 ∈ cur.username
  · rw [cur.usernameString_of_nul h]
  · obtain ⟨hstring, hname⟩ := cur.usernameString_of_not_nul h
    rw [hstring, hname]
    exact (List.take_prefix ..).trans (List.prefix_append ..)

theorem ClientNode.name_append_overrun : cur.name ++ cur.overrun = cur.usernameString := by
  obtain ⟨t, ht⟩ := cur.name_initial
  rw [overrun, ← ht, List.drop_left]

/-- The string at the name is the name exactly when the field holds a NUL. -/
theorem ClientNode.overrun_nil_iff : cur.overrun = [] ↔ 0 ∈ cur.username := by
  by_cases h : 0 ∈ cur.username
  · rw [overrun, cur.usernameString_of_nul h, List.drop_length]
    exact iff_of_true rfl h
  · refine iff_of_false (fun hnil => ?_) h
    obtain ⟨hstring, hname⟩ := cur.usernameString_of_not_nul h
    have hlen := congrArg List.length cur.name_append_overrun
    rw [hnil, hstring, hname, List.append_nil, List.length_append, List.length_take, cur.username_length, maxUsernameLen] at hlen
    omega

theorem ClientNode.name_length : cur.name.length ≤ maxUsernameLen - 1 := List.length_take_le ..

/-- A node whose room holds a NUL is in the room that it names. -/
theorem ClientNode.roomString_of_nul (h : 0 ∈ cur.room) : cur.roomString = cur.roomName := by
  have hlt := cstr_length_lt h
  rw [cur.room_length] at hlt
  rw [roomString, cstr_append_of_mem h]
  exact (List.take_of_length_le (Nat.le_pred_of_lt hlt)).symm

theorem ClientNode.roomString_ne (h : 0 ∉ cur.room) : cur.roomString ≠ cur.roomName := by
  intro he
  have hlen := congrArg List.length he
  rw [roomString, cstr_append h, roomName, cstr_of_nulFree h, List.length_append, List.length_take, cur.room_length, maxRoomNameLen] at hlen
  omega

end

theorem cstr_copyField {buf : Bytes} {n : Nat} (hb : buf.length = n + 1) (field : Bytes) :
    cstr (copyField buf field (n + 1)) = (cstr field).take n := cstr_setNul_strncpy hb

theorem registryGetUsername_spec (reg : ClientRegistry) (sockfd : Int) {buf : Bytes}
    (hb : buf.length = maxUsernameLen) :
    match reg.nodes.find? fun cur => cur.sockfd == sockfd with
    | none => (registryGetUsername reg sockfd buf maxUsernameLen).1 = .errNotFound
    | some cur => (registryGetUsername reg sockfd buf maxUsernameLen).1 = .ok ∧
        cstr (registryGetUsername reg sockfd buf maxUsernameLen).2 = cur.name := by
  unfold registryGetUsername getField
  split
  · rfl
  · exact ⟨rfl, cstr_copyField (by rw [setNul_length, hb]; rfl) _⟩

theorem registryGetRoom_spec (reg : ClientRegistry) (sockfd : Int) {buf : Bytes}
    (hb : buf.length = maxRoomNameLen) :
    match reg.nodes.find? fun cur => cur.sockfd == sockfd with
    | none => (registryGetRoom reg sockfd buf maxRoomNameLen).1 = .errNotFound
    | some cur => (registryGetRoom reg sockfd buf maxRoomNameLen).1 = .ok ∧
        cstr (registryGetRoom reg sockfd buf maxRoomNameLen).2 = cur.roomName := by
  unfold registryGetRoom getField
  split
  · rfl
  · exact ⟨rfl, cstr_copyField (by rw [setNul_length, hb]; rfl) _⟩

/-- The byte behind the name: a fresh node holds the name as its string
exactly when the name leaves room for padding or the block has a NUL there. -/
def NameFits (mem : Fresh) (username : Bytes) : Prop :=
  username.length < maxUsernameLen - 1 ∨ mem.username[maxUsernameLen - 1]? = some 0

instance (mem : Fresh) (username : Bytes) : Decidable (NameFits mem username) := inferInstanceAs (Decidable (_ ∨ _))

section
variable {mem : Fresh} {username : Bytes} (h0 : 0 ∉ username) (hl : username.length < maxUsernameLen)
include h0 hl

theorem newNode_username_iff (sockfd : Int) (room : Bytes) (isAdmin : Bool) :
    cstr (newNode mem sockfd username room isAdmin).username = username ↔ NameFits mem username := by
  simp only [maxUsernameLen] at hl
  have hc := cstr_of_nulFree h0
  have h : cstr (strncpy mem.username username 31) = cstr username ↔
      (cstr username).length < 31 ∨ cstr (mem.username.drop 31) = [] := cstr_strncpy_eq_iff (by rw [hc]; omega)
  rw [hc, cstr_drop_nil_iff (by simp [mem.username_length])] at h
  exact h

theorem newNode_name (sockfd : Int) (room : Bytes) (isAdmin : Bool) :
    (newNode mem sockfd username room isAdmin).name = username := by
  simp only [maxUsernameLen] at hl
  have hc := cstr_of_nulFree h0
  simp only [ClientNode.name, newNode, cstr_strncpy, hc, maxUsernameLen]
  split
  · exact List.take_of_length_le (by omega)
  · rw [List.take_append_of_le_length (by simp; omega), List.take_take, Nat.min_self,
      List.take_of_length_le (by omega)]

end

end ChatServer

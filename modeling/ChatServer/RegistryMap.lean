import Mathlib.Data.Finmap
import ChatServer.RegistrySound

/-!
# The registry as a finite map

What the registry is for: a map from descriptors to users, of bounded size and
with one descriptor a name. Every operation of the linked list acts as the
operation of the map, over every sequence of them.
-/

namespace ChatServer

open CStr

structure Entry where
  username : Bytes
  room : Bytes
  isAdmin : Bool
  deriving DecidableEq

abbrev Directory := Finmap fun _ : Int => Entry

namespace Directory

/-- The user's name stands under this descriptor. -/
def Named (m : Directory) (username : Bytes) (fd : Int) : Prop := ∃ e, m.lookup fd = some e ∧ e.username = username

end Directory

inductive RegistryOp where
  | add (mem : Option Fresh) (sockfd : Int) (username room : Bytes) (isAdmin : Bool)
  | remove (sockfd : Int)
  | usernameExists (username : Bytes)
  | getUsername (sockfd : Int) (buf : Bytes)
  | getRoom (sockfd : Int) (buf : Bytes)
  | setRoom (sockfd : Int) (room : Bytes)
  | isAdmin (sockfd : Int)
  | getSockfdByUsername (username : Bytes)
  | count

inductive Answer where
  | status (rc : ChatStatus)
  -- the status and the string left in the caller's buffer
  | text (rc : ChatStatus) (s : Bytes)
  | bool (b : Bool)
  | sockfd (fd : Int)
  | count (n : Nat)

namespace RegistryOp

/-- The call on the linked list. -/
def exec (reg : ClientRegistry) : RegistryOp → Answer × ClientRegistry
  | add mem sockfd username room admin => (registryAdd reg mem sockfd username room admin).map .status id
  | remove sockfd => (registryRemove reg sockfd).map .status id
  | usernameExists username => (.bool (registryUsernameExists reg username), reg)
  | getUsername sockfd buf =>
    let (rc, buf) := registryGetUsername reg sockfd buf buf.length
    (.text rc (cstr buf), reg)
  | getRoom sockfd buf =>
    let (rc, buf) := registryGetRoom reg sockfd buf buf.length
    (.text rc (cstr buf), reg)
  | setRoom sockfd room => (registrySetRoom reg sockfd room).map .status id
  | isAdmin sockfd => (.bool (registryIsAdmin reg sockfd), reg)
  | getSockfdByUsername username => (.sockfd (registryGetSockfdByUsername reg username), reg)
  | count => (.count (registryCount reg), reg)

/-- What a string of the user's entry is to a caller with a buffer of `buflen` bytes. -/
noncomputable def specText (m : Directory) (field : Entry → Bytes) (sockfd : Int) (buflen : Nat) : Answer :=
  if buflen = 0 then .text .err []
  else
    match m.lookup sockfd with
    | none => .text .errNotFound []
    | some e => .text .ok ((field e).take (buflen - 1))

open Classical in
/-- The operation on the map. -/
noncomputable def spec (m : Directory) : RegistryOp → Answer × Directory
  | add mem sockfd username room admin =>
    if mem.isNone then (.status .errNomem, m)
    else if m.keys.card ≥ maxClients then (.status .errFull, m)
    else if ∃ fd, m.Named username fd then (.status .errDuplicate, m)
    else (.status .ok, m.insert sockfd { username, room, isAdmin := admin })
  | remove sockfd =>
    if sockfd ∈ m then (.status .ok, m.erase sockfd) else (.status .errNotFound, m)
  | usernameExists username => (.bool (decide (∃ fd, m.Named username fd)), m)
  | getUsername sockfd buf => (specText m Entry.username sockfd buf.length, m)
  | getRoom sockfd buf => (specText m Entry.room sockfd buf.length, m)
  | setRoom sockfd room =>
    match m.lookup sockfd with
    | none => (.status .errNotFound, m)
    | some e => (.status .ok, m.insert sockfd { e with room })
  | isAdmin sockfd => (.bool ((m.lookup sockfd).elim false Entry.isAdmin), m)
  | getSockfdByUsername username => (.sockfd (if h : ∃ fd, m.Named username fd then h.choose else -1), m)
  | count => (.count m.keys.card, m)

/-- The arguments: strings that the fields hold as they are, and a descriptor of its own for each user. -/
def Proper (m : Directory) : RegistryOp → Prop
  | add mem sockfd username room _ => sockfd ∉ m ∧ 0 ∉ username ∧
    ∀ block, mem = some block → cstr (strncpy block.username username (maxUsernameLen - 1)) = username ∧
      cstr (strncpy block.room room (maxRoomNameLen - 1)) = room
  | usernameExists username | getSockfdByUsername username => 0 ∉ username
  | setRoom _ room => 0 ∉ room ∧ room.length ≤ maxRoomNameLen - 1
  | remove _ | getUsername _ _ | getRoom _ _ | isAdmin _ | count => True

def execAll (reg : ClientRegistry) : List RegistryOp → List Answer × ClientRegistry
  | [] => ([], reg)
  | op :: ops => ((op.exec reg).1 :: (execAll (op.exec reg).2 ops).1, (execAll (op.exec reg).2 ops).2)

noncomputable def specAll (m : Directory) : List RegistryOp → List Answer × Directory
  | [] => ([], m)
  | op :: ops => ((op.spec m).1 :: (specAll (op.spec m).2 ops).1, (specAll (op.spec m).2 ops).2)

def AllProper (m : Directory) : List RegistryOp → Prop
  | [] => True
  | op :: ops => op.Proper m ∧ AllProper (op.spec m).2 ops

end RegistryOp

/-- The operation reports an error. -/
def Answer.Failed : Answer → Prop
  | status rc | text rc _ => rc ≠ .ok
  | bool _ | sockfd _ | count _ => False

/-! ## The map of a list -/

def ClientNode.entry (cur : ClientNode) : Entry :=
  { username := cstr cur.username, room := cstr cur.room, isAdmin := cur.isAdmin }

def directoryOf (nodes : List ClientNode) : Directory :=
  (nodes.map fun cur => (⟨cur.sockfd, cur.entry⟩ : Sigma fun _ : Int => Entry)).toFinmap

def ClientRegistry.directory (reg : ClientRegistry) : Directory := directoryOf reg.nodes

structure ClientRegistry.Bounded (reg : ClientRegistry) : Prop where
  count_le : reg.count ≤ maxClients
  fds : (reg.nodes.map ClientNode.sockfd).Nodup
  names : (reg.nodes.map fun cur => cstr cur.username).Nodup

theorem directoryOf_cons (cur : ClientNode) (nodes : List ClientNode) :
    directoryOf (cur :: nodes) = (directoryOf nodes).insert cur.sockfd cur.entry := rfl

theorem lookup_directoryOf (fd : Int) : ∀ nodes : List ClientNode,
    (directoryOf nodes).lookup fd = (nodes.find? fun cur => cur.sockfd == fd).map ClientNode.entry
  | [] => Finmap.lookup_empty fd
  | cur :: nodes => by
    rw [directoryOf_cons]
    by_cases h : cur.sockfd = fd
    · subst h
      rw [Finmap.lookup_insert, List.find?_cons_of_pos (by simp)]
      rfl
    · rw [Finmap.lookup_insert_of_ne _ (Ne.symm h), List.find?_cons_of_neg (by simpa using h), lookup_directoryOf fd nodes]

theorem find_sockfd_iff {nodes : List ClientNode} (hnd : (nodes.map ClientNode.sockfd).Nodup) {fd : Int} {n : ClientNode} :
    (nodes.find? fun cur => cur.sockfd == fd) = some n ↔ n ∈ nodes ∧ n.sockfd = fd := by
  constructor
  · intro h
    exact ⟨List.mem_of_find?_eq_some h, by simpa using List.find?_some h⟩
  · rintro ⟨hn, rfl⟩
    cases hf : nodes.find? fun cur => cur.sockfd == n.sockfd with
    | none => exact absurd (List.find?_eq_none.mp hf n hn) (by simp)
    | some m =>
      have hm := List.mem_of_find?_eq_some hf
      have he : m.sockfd = n.sockfd := by simpa using List.find?_some hf
      rw [List.inj_on_of_nodup_map hnd hm hn he]

theorem lookup_directoryOf_iff {nodes : List ClientNode} (hnd : (nodes.map ClientNode.sockfd).Nodup) {fd : Int} {e : Entry} :
    (directoryOf nodes).lookup fd = some e ↔ ∃ n ∈ nodes, n.sockfd = fd ∧ n.entry = e := by
  rw [lookup_directoryOf, Option.map_eq_some_iff]
  constructor
  · rintro ⟨n, hn, he⟩
    obtain ⟨hmem, hfd⟩ := (find_sockfd_iff hnd).mp hn
    exact ⟨n, hmem, hfd, he⟩
  · rintro ⟨n, hmem, hfd, he⟩
    exact ⟨n, (find_sockfd_iff hnd).mpr ⟨hmem, hfd⟩, he⟩

/-- Two lists with the same nodes have the same map. -/
theorem directoryOf_ext {nodes : List ClientNode} (hnd : (nodes.map ClientNode.sockfd).Nodup) {m : Directory}
    (h : ∀ fd e, m.lookup fd = some e ↔ ∃ n ∈ nodes, n.sockfd = fd ∧ n.entry = e) : directoryOf nodes = m := by
  refine Finmap.ext_lookup fun fd => Option.ext fun e => ?_
  rw [lookup_directoryOf_iff hnd, h]

theorem mem_directoryOf {nodes : List ClientNode} {fd : Int} :
    fd ∈ directoryOf nodes ↔ fd ∈ nodes.map ClientNode.sockfd := by
  rw [directoryOf, Finmap.mem_list_toFinmap]
  constructor
  · rintro ⟨e, he⟩
    obtain ⟨n, hn, heq⟩ := List.mem_map.mp he
    exact List.mem_map.mpr ⟨n, hn, congrArg Sigma.fst heq⟩
  · intro h
    obtain ⟨n, hn, rfl⟩ := List.mem_map.mp h
    exact ⟨n.entry, List.mem_map_of_mem hn⟩

theorem keys_directoryOf (nodes : List ClientNode) : (directoryOf nodes).keys = (nodes.map ClientNode.sockfd).toFinset := by
  ext fd
  rw [Finmap.mem_keys, mem_directoryOf, List.mem_toFinset]

section
variable {reg : ClientRegistry} (hreg : reg.Bounded)
include hreg

theorem ClientRegistry.Bounded.card : reg.directory.keys.card = reg.count := by
  rw [ClientRegistry.directory, keys_directoryOf, List.toFinset_card_of_nodup hreg.fds, List.length_map, reg.count_eq]

theorem ClientRegistry.Bounded.named_iff {username : Bytes} {fd : Int} :
    reg.directory.Named username fd ↔ ∃ n ∈ reg.nodes, n.sockfd = fd ∧ cstr n.username = username := by
  constructor
  · rintro ⟨e, he, hname⟩
    obtain ⟨n, hn, hfd, rfl⟩ := (lookup_directoryOf_iff hreg.fds).mp he
    exact ⟨n, hn, hfd, hname⟩
  · rintro ⟨n, hn, hfd, hname⟩
    exact ⟨n.entry, (lookup_directoryOf_iff hreg.fds).mpr ⟨n, hn, hfd, rfl⟩, hname⟩

theorem ClientRegistry.Bounded.exists_named_iff {username : Bytes} (h0 : 0 ∉ username) :
    (∃ fd, reg.directory.Named username fd) ↔ (reg.nodes.any fun cur => streq cur.username username) = true := by
  have hc := cstr_of_nulFree h0
  rw [List.any_eq_true]
  constructor
  · rintro ⟨fd, h⟩
    obtain ⟨n, hn, -, hname⟩ := hreg.named_iff.mp h
    exact ⟨n, hn, streq_iff.mpr (hname.trans hc.symm)⟩
  · rintro ⟨n, hn, hname⟩
    exact ⟨n.sockfd, hreg.named_iff.mpr ⟨n, hn, rfl, (streq_iff.mp hname).trans hc⟩⟩

end

/-! ## One operation -/

namespace RegistryOp

/-- On this registry the operation acts as on its map. -/
def Refines (reg : ClientRegistry) (op : RegistryOp) : Prop :=
  (op.exec reg).1 = (op.spec reg.directory).1 ∧ (op.exec reg).2.directory = (op.spec reg.directory).2 ∧
    (op.exec reg).2.Bounded

section
variable {reg : ClientRegistry} (hreg : reg.Bounded)
include hreg

open Classical in
theorem add_refines {mem : Option Fresh} {sockfd : Int} {username room : Bytes} {admin : Bool}
    (hp : (add mem sockfd username room admin).Proper reg.directory) : (add mem sockfd username room admin).Refines reg := by
  obtain ⟨hfd, h0, hcopy⟩ := hp
  have hc := cstr_of_nulFree h0
  unfold Refines
  cases mem with
  | none => exact ⟨rfl, rfl, hreg⟩
  | some block =>
    obtain ⟨husername, hroom⟩ := hcopy block rfl
    have hspec : (add (some block) sockfd username room admin).spec reg.directory =
        if reg.directory.keys.card ≥ maxClients then (.status .errFull, reg.directory)
        else if ∃ fd, reg.directory.Named username fd then (.status .errDuplicate, reg.directory)
        else (.status .ok, reg.directory.insert sockfd { username, room, isAdmin := admin }) := rfl
    rw [hspec, hreg.card]
    by_cases hfull : reg.count ≥ maxClients
    · rw [if_pos hfull]
      have hexec : (add (some block) sockfd username room admin).exec reg = (.status .errFull, reg) := by
        simp only [exec, registryAdd, if_pos hfull]
        rfl
      rw [hexec]
      exact ⟨rfl, rfl, hreg⟩
    rw [if_neg hfull]
    by_cases hdup : ∃ fd, reg.directory.Named username fd
    · rw [if_pos hdup]
      have hexec : (add (some block) sockfd username room admin).exec reg = (.status .errDuplicate, reg) := by
        simp only [exec, registryAdd, if_neg hfull, if_pos ((hreg.exists_named_iff h0).mp hdup)]
        rfl
      rw [hexec]
      exact ⟨rfl, rfl, hreg⟩
    · rw [if_neg hdup]
      have hnew := mt (hreg.exists_named_iff h0).mpr hdup
      have hexec : (add (some block) sockfd username room admin).exec reg = (.status .ok,
          { nodes := newNode block sockfd username room admin :: reg.nodes, count := reg.count + 1,
            count_eq := by rw [List.length_cons, reg.count_eq] }) := by
        simp only [exec, registryAdd, if_neg hfull, if_neg hnew]
        rfl
      rw [hexec]
      have hentry : (newNode block sockfd username room admin).entry = { username, room, isAdmin := admin } := by
        rw [ClientNode.entry]
        exact congrArg₂ (fun u r => Entry.mk u r admin) husername hroom
      refine ⟨rfl, ?_, ?_, ?_, ?_⟩
      · rw [ClientRegistry.directory, directoryOf_cons, hentry]
        rfl
      · exact Nat.lt_of_not_le hfull
      · rw [List.map_cons, List.nodup_cons]
        exact ⟨mt mem_directoryOf.mpr hfd, hreg.fds⟩
      · rw [List.map_cons, List.nodup_cons]
        refine ⟨fun hmem => hnew ?_, hreg.names⟩
        obtain ⟨n, hn, hname⟩ := List.mem_map.mp hmem
        exact List.any_eq_true.mpr ⟨n, hn, streq_iff.mpr (hname.trans (husername.trans hc.symm))⟩

theorem remove_refines (sockfd : Int) : (remove sockfd).Refines reg := by
  have hmem : sockfd ∈ reg.directory ↔ (reg.nodes.find? fun cur => cur.sockfd == sockfd).isSome := by
    rw [← Finmap.lookup_isSome, ClientRegistry.directory, lookup_directoryOf, Option.isSome_map]
  have hfds : ((unlink reg.nodes sockfd).map ClientNode.sockfd).Nodup := hreg.fds.sublist (unlink_map_sublist _ _ _)
  simp only [Refines, exec, spec]
  unfold registryRemove
  split
  · rename_i hnone
    rw [if_neg (by rw [hmem, hnone]; exact Bool.false_ne_true)]
    exact ⟨rfl, rfl, hreg⟩
  · rename_i n hn
    rw [if_pos (by rw [hmem, hn]; rfl)]
    refine ⟨rfl, ?_, ?_, hfds, hreg.names.sublist (unlink_map_sublist _ _ _)⟩
    · refine directoryOf_ext hfds fun fd e => ?_
      by_cases hfd : fd = sockfd
      · subst hfd
        rw [Finmap.lookup_erase]
        refine iff_of_false nofun ?_
        rintro ⟨m, hm, he, -⟩
        exact ((mem_unlink hreg.fds).mp hm).2 he
      · rw [Finmap.lookup_erase_ne hfd, ClientRegistry.directory, lookup_directoryOf_iff hreg.fds]
        refine exists_congr fun m => ?_
        rw [mem_unlink hreg.fds]
        constructor
        · rintro ⟨hm, hmfd, he⟩
          exact ⟨⟨hm, fun h => hfd (hmfd.symm.trans h)⟩, hmfd, he⟩
        · rintro ⟨⟨hm, -⟩, hmfd, he⟩
          exact ⟨hm, hmfd, he⟩
    · exact (Nat.sub_le _ _).trans hreg.count_le

theorem setRoom_refines {sockfd : Int} {room : Bytes} (h0 : 0 ∉ room) (hl : room.length ≤ maxRoomNameLen - 1) :
    (setRoom sockfd room).Refines reg := by
  have hfds : ((setRoomFirst sockfd room reg.nodes).map ClientNode.sockfd).Nodup := by
    rw [setRoomFirst_map sockfd room fun _ => rfl]
    exact hreg.fds
  have hnames : ((setRoomFirst sockfd room reg.nodes).map fun cur => cstr cur.username).Nodup := by
    rw [setRoomFirst_map sockfd room fun _ => rfl]
    exact hreg.names
  simp only [Refines, exec, spec, registrySetRoom, ClientRegistry.directory]
  rw [lookup_directoryOf]
  cases hfind : reg.nodes.find? fun cur => cur.sockfd == sockfd with
  | none => exact ⟨rfl, rfl, hreg⟩
  | some n =>
    obtain ⟨hn, hnfd⟩ := (find_sockfd_iff hreg.fds).mp hfind
    refine ⟨rfl, ?_, hreg.count_le, hfds, hnames⟩
    have hset : (n.setRoom room).entry = { n.entry with room } := by
      have hroom : cstr (n.setRoom room).room = room := by
        have hcopied : cstr (copyField n.room room maxRoomNameLen) = (cstr room).take (maxRoomNameLen - 1) :=
          cstr_copyField n.room_length room
        rw [cstr_of_nulFree h0, List.take_of_length_le hl] at hcopied
        exact hcopied
      exact congrArg (fun r => Entry.mk (cstr n.username) r n.isAdmin) hroom
    refine directoryOf_ext hfds fun fd e => ?_
    simp only [mem_setRoomFirst hreg.fds]
    by_cases hfd : fd = sockfd
    · subst hfd
      show (Finmap.insert fd { n.entry with room } (directoryOf reg.nodes)).lookup fd = some e ↔ _
      rw [Finmap.lookup_insert, Option.some_inj]
      constructor
      · rintro rfl
        exact ⟨_, Or.inr ⟨n, hn, hnfd, rfl⟩, hnfd, hset⟩
      · rintro ⟨m, ⟨hm, hne⟩ | ⟨cur, hcur, hcurfd, rfl⟩, hmfd, rfl⟩
        · exact absurd hmfd hne
        · rw [List.inj_on_of_nodup_map hreg.fds hcur hn (hcurfd.trans hnfd.symm), hset]
    · show (Finmap.insert sockfd { n.entry with room } (directoryOf reg.nodes)).lookup fd = some e ↔ _
      rw [Finmap.lookup_insert_of_ne _ hfd, lookup_directoryOf_iff hreg.fds]
      constructor
      · rintro ⟨m, hm, hmfd, he⟩
        exact ⟨m, Or.inl ⟨hm, fun h => hfd (hmfd.symm.trans h)⟩, hmfd, he⟩
      · rintro ⟨m, ⟨hm, -⟩ | ⟨cur, hcur, hcurfd, rfl⟩, hmfd, he⟩
        · exact ⟨m, hm, hmfd, he⟩
        · exact absurd (hmfd.symm.trans hcurfd) hfd

omit hreg in
theorem getField_specText (field : ClientNode → Bytes) (value : Entry → Bytes) (hvalue : ∀ cur, value cur.entry = cstr (field cur))
    (sockfd : Int) (buf : Bytes) : Answer.text (getField field reg sockfd buf buf.length).1
      (cstr (getField field reg sockfd buf buf.length).2) = specText reg.directory value sockfd buf.length := by
  unfold getField specText
  rcases hbuf : buf.length with _ | n
  · rw [if_pos rfl, if_pos rfl, List.length_eq_zero_iff.mp hbuf]
    rfl
  rw [if_neg (Nat.succ_ne_zero n), if_neg (Nat.succ_ne_zero n), ClientRegistry.directory, lookup_directoryOf]
  have hempty : cstr (setNul buf 0) = [] := by
    rw [cstr_setNul (by omega), List.take_zero]
  cases reg.nodes.find? fun cur => cur.sockfd == sockfd with
  | none => exact congrArg (Answer.text _) hempty
  | some cur =>
    refine congrArg (Answer.text _) ?_
    rw [cstr_copyField (by rw [setNul_length, hbuf]), hvalue]
    rfl

open Classical in
theorem getSockfdByUsername_refines {username : Bytes} (h0 : 0 ∉ username) : (getSockfdByUsername username).Refines reg := by
  have hc := cstr_of_nulFree h0
  refine ⟨?_, rfl, hreg⟩
  show Answer.sockfd (registryGetSockfdByUsername reg username) =
    Answer.sockfd (if h : ∃ fd, reg.directory.Named username fd then h.choose else -1)
  congr 1
  unfold registryGetSockfdByUsername
  cases hfind : reg.nodes.find? fun cur => streq cur.username username with
  | none =>
    have hno : ¬ ∃ fd, reg.directory.Named username fd := by
      rw [hreg.exists_named_iff h0, List.any_eq_true]
      rintro ⟨n, hn, hname⟩
      exact List.find?_eq_none.mp hfind n hn hname
    rw [dif_neg hno]
  | some n =>
    have hn := List.mem_of_find?_eq_some hfind
    have hfound := streq_iff.mp (List.find?_some (p := fun cur : ClientNode => streq cur.username username) hfind)
    have hname : cstr n.username = username := hfound.trans hc
    have hyes : ∃ fd, reg.directory.Named username fd := ⟨n.sockfd, hreg.named_iff.mpr ⟨n, hn, rfl, hname⟩⟩
    rw [dif_pos hyes]
    obtain ⟨m, hm, hmfd, hmname⟩ := hreg.named_iff.mp hyes.choose_spec
    rw [← hmfd, List.inj_on_of_nodup_map hreg.names hm hn (hmname.trans hname.symm)]

open Classical in
theorem refines (op : RegistryOp) (hp : op.Proper reg.directory) : op.Refines reg := by
  cases op with
  | add mem sockfd username room admin => exact add_refines hreg hp
  | remove sockfd => exact remove_refines hreg sockfd
  | setRoom sockfd room => exact setRoom_refines hreg hp.1 hp.2
  | getSockfdByUsername username => exact getSockfdByUsername_refines hreg hp
  | usernameExists username =>
    refine ⟨congrArg Answer.bool ?_, rfl, hreg⟩
    rw [Bool.eq_iff_iff, decide_eq_true_iff, hreg.exists_named_iff hp]
    rfl
  | getUsername sockfd buf => exact ⟨getField_specText _ _ (fun _ => rfl) sockfd buf, rfl, hreg⟩
  | getRoom sockfd buf => exact ⟨getField_specText _ _ (fun _ => rfl) sockfd buf, rfl, hreg⟩
  | isAdmin sockfd =>
    refine ⟨congrArg Answer.bool ?_, rfl, hreg⟩
    rw [ClientRegistry.directory, lookup_directoryOf, registryIsAdmin]
    cases reg.nodes.find? fun cur => cur.sockfd == sockfd with
    | none => rfl
    | some cur => rfl
  | count => exact ⟨congrArg Answer.count hreg.card.symm, rfl, hreg⟩

end

/-- An operation that reports an error leaves the list as it was. -/
theorem exec_failed {reg : ClientRegistry} (op : RegistryOp) (h : (op.exec reg).1.Failed) : (op.exec reg).2 = reg := by
  cases op with
  | add mem sockfd username room admin =>
    rcases registryAdd_cases reg mem sockfd username room admin with ⟨m, -, -, -, hok, -⟩ | ⟨-, hsame⟩
    · exact absurd hok h
    · exact hsame
  | remove sockfd => exact (registryRemove_cases reg sockfd).resolve_right h
  | setRoom sockfd room =>
    simp only [exec, registrySetRoom] at h ⊢
    split
    · rfl
    · rename_i hfind
      rw [hfind] at h
      exact absurd rfl h
  | usernameExists | getUsername | getRoom | isAdmin | getSockfdByUsername | count => rfl

end RegistryOp

/-! ## Every sequence -/

theorem registryInit_bounded : registryInit.Bounded := ⟨Nat.zero_le _, List.nodup_nil, List.nodup_nil⟩

theorem registryInit_directory : registryInit.directory = ∅ := Finmap.toFinmap_nil

theorem registryAdd_ok_iff (reg : ClientRegistry) (mem : Option Fresh) (sockfd : Int) (username room : Bytes) (admin : Bool) :
    (registryAdd reg mem sockfd username room admin).1 = .ok ↔
      reg.count < maxClients ∧ ¬ (reg.nodes.any fun cur => streq cur.username username) = true ∧ mem.isSome = true := by
  unfold registryAdd
  cases mem with
  | none => exact iff_of_false ChatStatus.noConfusion fun h => Bool.false_ne_true h.2.2
  | some block =>
    by_cases hfull : reg.count ≥ maxClients
    · simp only [if_pos hfull]
      exact iff_of_false ChatStatus.noConfusion fun h => Nat.not_lt.mpr hfull h.1
    · simp only [if_neg hfull]
      split
      · rename_i hdup
        exact iff_of_false ChatStatus.noConfusion fun h => h.2.1 hdup
      · rename_i hnew
        exact iff_of_true rfl ⟨Nat.lt_of_not_le hfull, hnew, rfl⟩

theorem registryRemove_add {reg : ClientRegistry} {mem : Option Fresh} {sockfd : Int} {username room : Bytes} {admin : Bool}
    (h : (registryAdd reg mem sockfd username room admin).1 = .ok) :
    registryRemove (registryAdd reg mem sockfd username room admin).2 sockfd = (.ok, reg) := by
  rcases registryAdd_cases reg mem sockfd username room admin with ⟨m, -, -, -, -, hnodes⟩ | ⟨hne, -⟩
  · have hrest : (registryRemove (registryAdd reg mem sockfd username room admin).2 sockfd).2.nodes = reg.nodes := by
      rw [registryRemove_nodes, hnodes, unlink, List.eraseP_cons_of_pos (by simp [newNode])]
    refine Prod.ext ?_ ?_
    · unfold registryRemove
      split
      · rename_i hnone
        rw [hnodes, List.find?_cons_of_pos (by simp [newNode])] at hnone
        exact (Option.some_ne_none _ hnone).elim
      · rfl
    · generalize (registryRemove (registryAdd reg mem sockfd username room admin).2 sockfd).2 = reg' at hrest
      obtain ⟨nodes, count, hcount⟩ := reg
      obtain ⟨nodes', count', hcount'⟩ := reg'
      obtain rfl : nodes' = nodes := hrest
      obtain rfl : count' = count := hcount'.trans hcount.symm
      rfl
  · exact absurd h hne

theorem execAll_refines : ∀ (ops : List RegistryOp) {reg : ClientRegistry}, reg.Bounded →
    RegistryOp.AllProper reg.directory ops →
    (RegistryOp.execAll reg ops).1 = (RegistryOp.specAll reg.directory ops).1 ∧
      (RegistryOp.execAll reg ops).2.directory = (RegistryOp.specAll reg.directory ops).2 ∧
      (RegistryOp.execAll reg ops).2.Bounded
  | [], _, hreg, _ => ⟨rfl, rfl, hreg⟩
  | op :: ops, reg, hreg, hp => by
    obtain ⟨hanswer, hdir, hnext⟩ := op.refines hreg hp.1
    have hrest := hp.2
    rw [← hdir] at hrest
    obtain ⟨h₁, h₂, h₃⟩ := execAll_refines ops hnext hrest
    rw [hdir] at h₁ h₂
    exact ⟨congrArg₂ List.cons hanswer h₁, h₂, h₃⟩

/-- **The registry is a bounded map** over every sequence of its operations: the
answers and the map are those of the specification, names and descriptors stay
distinct and the counter true, a failed operation changes nothing, and removing a
user just added gives the list back. -/
theorem registry_exact {ops : List RegistryOp} (hops : RegistryOp.AllProper ∅ ops) :
    let reg := (RegistryOp.execAll registryInit ops).2
    (RegistryOp.execAll registryInit ops).1 = (RegistryOp.specAll ∅ ops).1 ∧ reg.directory = (RegistryOp.specAll ∅ ops).2 ∧
    (reg.count = reg.nodes.length ∧ reg.count ≤ maxClients ∧ (reg.nodes.map ClientNode.sockfd).Nodup ∧
      (reg.nodes.map fun cur => cstr cur.username).Nodup) ∧
    (∀ mem sockfd username room admin, 0 ∉ username → ((registryAdd reg mem sockfd username room admin).1 = .ok ↔
      reg.directory.keys.card < maxClients ∧ (¬ ∃ fd, reg.directory.Named username fd) ∧ mem.isSome)) ∧
    (∀ op : RegistryOp, (op.exec reg).1.Failed → (op.exec reg).2 = reg) ∧
    ∀ mem sockfd username room admin, (registryAdd reg mem sockfd username room admin).1 = .ok →
      registryRemove (registryAdd reg mem sockfd username room admin).2 sockfd = (.ok, reg) := by
  intro reg
  have hinit : RegistryOp.AllProper registryInit.directory ops := by rwa [registryInit_directory]
  obtain ⟨hanswers, hdir, hreg⟩ := execAll_refines ops registryInit_bounded hinit
  rw [registryInit_directory] at hanswers hdir
  refine ⟨hanswers, hdir, ⟨reg.count_eq, hreg.count_le, hreg.fds, hreg.names⟩, ?_, fun op => op.exec_failed,
    fun _ _ _ _ _ => registryRemove_add⟩
  intro mem sockfd username room admin h0
  rw [hreg.card, hreg.exists_named_iff h0]
  exact registryAdd_ok_iff reg mem sockfd username room admin

/-- A user logs in, moves and leaves. -/
theorem registry_exact_alice :
    let ops := [RegistryOp.add (some (filledBlock 1 0)) 5 (lit "alice") defaultRoom false, .setRoom 5 (lit "den"), .remove 5]
    (RegistryOp.execAll registryInit ops).2.directory = (RegistryOp.specAll ∅ ops).2 := by
  intro ops
  refine (@registry_exact ops ⟨⟨Finmap.notMem_empty, by decide, ?_⟩, ⟨by decide, by decide⟩, trivial, trivial⟩).2.1
  intro block hblock
  obtain rfl := Option.some.inj hblock
  exact ⟨by decide +kernel, by decide +kernel⟩

end ChatServer

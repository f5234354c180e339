import ChatServer.UserList

/-!
# User lists in every buffer

The loops of `registry_build_user_list` and `registry_build_room_user_list`,
with `used` as the `size_t` it is. Both write the beginning of the joined strings
at the name fields that the buffer has room for, and `used` never reaches the
size of the buffer. These strings are the names where the fields hold a NUL,
which `registry_add` does not see to.
-/

namespace ChatServer

open CStr

/-- `a - b` in `size_t`. -/
def sizeSub (a b : Nat) : Nat := (a + 2 ^ 64 - b) % 2 ^ 64

structure ListLoop where
  -- the string in the buffer
  buf : Bytes
  used : Nat
  first : Bool
  -- `none` while the loop goes on
  rc : Option ChatStatus
  deriving DecidableEq

namespace ListLoop

def start : ListLoop := { buf := [], used := 0, first := true, rc := none }

def append (buflen : Nat) (t : ListLoop) (username : Bytes) : ListLoop :=
  let (text, written) := snprintf (sizeSub buflen t.used) (if t.first then username else lit "," ++ username)
  let t := { t with buf := t.buf.take t.used ++ text, first := false }
  if written ≥ sizeSub buflen t.used then { t with rc := some .err } else { t with used := t.used + written }

/-- One node of the list; `skips` is the test before `continue`. -/
def visit (skips : ClientNode → Bool) (buflen : Nat) (t : ListLoop) (cur : ClientNode) : ListLoop :=
  match t.rc with
  | some _ => t
  | none => if skips cur then t else t.append buflen cur.usernameString

def run (skips : ClientNode → Bool) (buflen : Nat) (nodes : List ClientNode) : ListLoop :=
  nodes.foldl (visit skips buflen) start

def result (t : ListLoop) : ChatStatus × Bytes := (t.rc.getD .ok, t.buf)

end ListLoop

def userListLoop (buflen : Nat) (nodes : List ClientNode) : ListLoop := ListLoop.run (fun _ => false) buflen nodes

def roomUserListLoop (room : Bytes) (buflen : Nat) (nodes : List ClientNode) : ListLoop :=
  ListLoop.run (fun cur => !cur.inRoom room) buflen nodes

def registryBuildRoomUserList (reg : ClientRegistry) (room : Bytes) (buflen : Nat) : ChatStatus × Bytes :=
  if buflen = 0 then (.err, []) else (roomUserListLoop room buflen reg.nodes).result

/-- The names of the users in a room. -/
def roomNames (reg : ClientRegistry) (room : Bytes) : List Bytes :=
  (reg.nodes.filter fun cur => cur.roomName == cstr room).map ClientNode.name

/-- What `%s` prints of the nodes that `strcmp` finds in a room. -/
def printedRoomList (reg : ClientRegistry) (room : Bytes) : Bytes :=
  joinWith (lit ",") ((reg.nodes.filter fun cur => cur.inRoom room).map ClientNode.usernameString)

/-- Of these names the buffer holds what fits, and the status says whether all do. -/
def Exact (buflen : Nat) (names : List Bytes) (result : ChatStatus × Bytes) : Prop :=
  result.2 = (joinWith (lit ",") names).take (buflen - 1) ∧ (result.1 = .ok ↔ (joinWith (lit ",") names).length < buflen)

/-- The lists of all users and of the users of a room are exact in every buffer. -/
structure ListsExact (reg : ClientRegistry) : Prop where
  all : ∀ buflen, 1 ≤ buflen → buflen < 2 ^ 64 → Exact buflen (onlineNames reg) (registryBuildUserList reg buflen)
  room : ∀ room buflen, 1 ≤ buflen → buflen < 2 ^ 64 →
    Exact buflen (roomNames reg room) (registryBuildRoomUserList reg room buflen)
  members : ∀ room, ∀ cur ∈ reg.nodes, cur.inRoom room = true ↔ cur.roomName = cstr room
  loop : ∀ buflen, 1 ≤ buflen → buflen < 2 ^ 64 →
    registryBuildUserList reg buflen = (userListLoop buflen reg.nodes).result
  -- `buflen - used` is the true difference, in both loops and behind every node
  used : ∀ room buflen, 1 ≤ buflen → buflen < 2 ^ 64 → ∀ nodes, nodes <+: reg.nodes →
    ∀ t, t = userListLoop buflen nodes ∨ t = roomUserListLoop room buflen nodes →
      t.used < buflen ∧ sizeSub buflen t.used = buflen - t.used

/-! ## The invariant -/

theorem sizeSub_eq {a b : Nat} (h : b ≤ a) (ha : a < 2 ^ 64) : sizeSub a b = a - b := by
  have hwrap : a + 2 ^ 64 - b = a - b + 2 ^ 64 := by omega
  rw [sizeSub, hwrap, Nat.add_mod_right, Nat.mod_eq_of_lt (by omega)]

namespace ListLoop

/-- The loop behind some nodes whose strings are `names`. -/
structure Written (buflen : Nat) (names : List Bytes) (t : ListLoop) : Prop where
  used_lt : t.used < buflen
  going : t.rc = none → t.buf = joinWith (lit ",") names ∧ t.used = t.buf.length ∧ (t.first = true ↔ names = [])
  stopped : ∀ rc, t.rc = some rc → rc = .err ∧ buflen ≤ (joinWith (lit ",") names).length ∧
    t.buf = (joinWith (lit ",") names).take (buflen - 1)

section
variable {buflen : Nat} {names : List Bytes} {t : ListLoop} (hsize : buflen < 2 ^ 64)
include hsize

theorem Written.append (h : t.Written buflen names) (hrc : t.rc = none) (username : Bytes) :
    (t.append buflen username).Written buflen (names ++ [username]) := by
  obtain ⟨hbuf, hused, hfirst⟩ := h.going hrc
  have hlt := h.used_lt
  have hsub : sizeSub buflen t.used = buflen - t.used := sizeSub_eq (Nat.le_of_lt hlt) hsize
  have htake : t.buf.take t.used = t.buf := by rw [hused, List.take_length]
  -- the text behind the names so far
  have hjoin : joinWith (lit ",") (names ++ [username]) =
      t.buf ++ (if t.first = true then username else lit "," ++ username) := by
    by_cases hnil : names = []
    · rw [if_pos (hfirst.mpr hnil), hbuf, hnil]
      exact List.append_nil _
    · rw [if_neg fun hf => hnil (hfirst.mp hf), joinWith_snoc _ _ hnil, hbuf]
  unfold ListLoop.append
  simp only [snprintf, hsub, htake]
  generalize (if t.first = true then username else lit "," ++ username) = text at hjoin ⊢
  have hlen : (joinWith (lit ",") (names ++ [username])).length = t.used + text.length := by
    rw [hjoin, List.length_append, hused]
  split
  · rename_i hover
    refine ⟨hlt, fun hgo => (Option.some_ne_none _ hgo).elim, fun rc hstop => ?_⟩
    obtain rfl := Option.some.inj hstop
    refine ⟨rfl, by omega, ?_⟩
    have hcut : buflen - t.used - 1 = buflen - 1 - t.buf.length := by omega
    show t.buf ++ text.take (buflen - t.used - 1) = _
    rw [hjoin, List.take_append, List.take_of_length_le (show t.buf.length ≤ buflen - 1 by omega), hcut]
  · rename_i hfit
    have hall : text.take (buflen - t.used - 1) = text := List.take_of_length_le (by omega)
    refine ⟨show t.used + text.length < buflen by omega, fun _ => ⟨?_, ?_, ?_⟩, ?_⟩
    · show t.buf ++ text.take (buflen - t.used - 1) = _
      rw [hall, hjoin]
    · show t.used + text.length = (t.buf ++ text.take (buflen - t.used - 1)).length
      rw [hall, List.length_append, hused]
    · exact iff_of_false Bool.false_ne_true (by simp)
    · intro rc hstop
      exact (Option.some_ne_none rc (hstop.symm.trans hrc)).elim

theorem Written.more (h : t.Written buflen names) {rc : ChatStatus} (hrc : t.rc = some rc) (username : Bytes) :
    t.Written buflen (names ++ [username]) := by
  refine ⟨h.used_lt, fun hnone => (Option.some_ne_none rc (hrc.symm.trans hnone)).elim, fun rc' hrc' => ?_⟩
  obtain ⟨herr, hlen, hbuf⟩ := h.stopped rc' hrc'
  have hpre : joinWith (lit ",") names <+: joinWith (lit ",") (names ++ [username]) := by
    by_cases hnil : names = []
    · rw [hnil]
      exact List.nil_prefix
    · rw [joinWith_snoc _ _ hnil]
      exact List.prefix_append ..
  refine ⟨herr, hlen.trans hpre.length_le, ?_⟩
  obtain ⟨rest, hrest⟩ := hpre
  rw [hbuf, ← hrest, List.take_append_of_le_length (by omega)]

theorem run_written (hpos : 0 < buflen) (skips : ClientNode → Bool) (nodes : List ClientNode) :
    (run skips buflen nodes).Written buflen ((nodes.filter fun cur => !skips cur).map ClientNode.usernameString) := by
  induction nodes using List.reverseRecOn with
  | nil =>
    refine ⟨hpos, fun _ => ⟨rfl, rfl, iff_of_true rfl rfl⟩, fun rc hrc => ?_⟩
    simp only [run, List.foldl_nil, start, reduceCtorEq] at hrc
  | append_singleton nodes cur ih =>
    have hrun : run skips buflen (nodes ++ [cur]) = (run skips buflen nodes).visit skips buflen cur := List.foldl_concat ..
    rw [hrun]
    generalize run skips buflen nodes = t at ih
    by_cases hskip : skips cur = true
    · have hsame : t.visit skips buflen cur = t := by
        unfold visit
        rw [if_pos hskip]
        split <;> rfl
      rw [hsame, List.filter_append, List.filter_cons_of_neg (by simp [hskip]), List.filter_nil, List.append_nil]
      exact ih
    · rw [List.filter_append, List.filter_cons_of_pos (by simp [hskip]), List.filter_nil, List.map_append, List.map_singleton]
      cases hrc : t.rc with
      | none =>
        have hnext : t.visit skips buflen cur = t.append buflen cur.usernameString := by
          simp only [visit, hrc, if_neg hskip]
        rw [hnext]
        exact ih.append hsize hrc _
      | some rc =>
        have hsame : t.visit skips buflen cur = t := by
          simp only [visit, hrc]
        rw [hsame]
        exact ih.more hsize hrc _

end

/-- What the loop returns in the end. -/
theorem Written.result {buflen : Nat} {names : List Bytes} {t : ListLoop} (h : t.Written buflen names) :
    t.result = fitted buflen (joinWith (lit ",") names) := by
  have hlt := h.used_lt
  unfold ListLoop.result fitted
  cases hrc : t.rc with
  | none =>
    obtain ⟨hbuf, hused, -⟩ := h.going hrc
    rw [← hbuf, if_pos (by omega), List.take_of_length_le (by omega)]
    rfl
  | some rc =>
    obtain ⟨rfl, hlen, hbuf⟩ := h.stopped rc hrc
    rw [hbuf, if_neg (by omega)]
    rfl

end ListLoop

section
variable {buflen : Nat} (hpos : 1 ≤ buflen) (hsize : buflen < 2 ^ 64)
include hpos hsize

theorem userListLoop_written (nodes : List ClientNode) :
    (userListLoop buflen nodes).Written buflen (nodes.map ClientNode.usernameString) := by
  have h := ListLoop.run_written hsize hpos (fun _ => false) nodes
  rwa [List.filter_eq_self.mpr (by simp)] at h

theorem roomUserListLoop_written (room : Bytes) (nodes : List ClientNode) : (roomUserListLoop room buflen nodes).Written buflen
    ((nodes.filter fun cur => cur.inRoom room).map ClientNode.usernameString) := by
  have h := ListLoop.run_written hsize hpos (fun cur => !cur.inRoom room) nodes
  simp only [Bool.not_not] at h
  exact h

omit hsize in
theorem registryBuildUserList_fitted (reg : ClientRegistry) :
    registryBuildUserList reg buflen = fitted buflen (printedList reg) := by
  rw [registryBuildUserList, if_neg (by omega)]
  exact appendJoined_fitted hpos _ _

/-- The list of all users, as the handlers ask for it, is what its loop leaves. -/
theorem registryBuildUserList_loop (reg : ClientRegistry) :
    registryBuildUserList reg buflen = (userListLoop buflen reg.nodes).result := by
  rw [(userListLoop_written hpos hsize reg.nodes).result, registryBuildUserList_fitted hpos]
  rfl

theorem registryBuildRoomUserList_loop (reg : ClientRegistry) (room : Bytes) :
    registryBuildRoomUserList reg room buflen = fitted buflen (printedRoomList reg room) := by
  rw [registryBuildRoomUserList, if_neg (by omega), (roomUserListLoop_written hpos hsize room reg.nodes).result]
  rfl

theorem used_exact (room : Bytes) {nodes : List ClientNode} {t : ListLoop}
    (ht : t = userListLoop buflen nodes ∨ t = roomUserListLoop room buflen nodes) :
    t.used < buflen ∧ sizeSub buflen t.used = buflen - t.used := by
  have hlt : t.used < buflen := by
    rcases ht with rfl | rfl
    · exact (userListLoop_written hpos hsize nodes).used_lt
    · exact (roomUserListLoop_written hpos hsize room nodes).used_lt
  exact ⟨hlt, sizeSub_eq (Nat.le_of_lt hlt) hsize⟩

end

theorem exact_fitted (buflen : Nat) (names : List Bytes) : Exact buflen names (fitted buflen (joinWith (lit ",") names)) :=
  ⟨rfl, fitted_ok_iff⟩

/-- **User lists print the strings at the name fields**, of every registry and into
every buffer. Each begins with the name, and is the name where its field holds a NUL. -/
theorem user_lists_printed {buflen : Nat} (hpos : 1 ≤ buflen) (hsize : buflen < 2 ^ 64) (reg : ClientRegistry) (room : Bytes) :
    Exact buflen (reg.nodes.map ClientNode.usernameString) (registryBuildUserList reg buflen) ∧
      Exact buflen ((reg.nodes.filter fun cur => cur.inRoom room).map ClientNode.usernameString)
        (registryBuildRoomUserList reg room buflen) ∧
      (∀ cur ∈ reg.nodes, cur.name <+: cur.usernameString ∧ (cur.usernameString = cur.name ↔ 0 ∈ cur.username)) ∧
      registryBuildUserList reg buflen = (userListLoop buflen reg.nodes).result ∧
      ∀ nodes, nodes <+: reg.nodes → ∀ t, t = userListLoop buflen nodes ∨ t = roomUserListLoop room buflen nodes →
        t.used < buflen ∧ sizeSub buflen t.used = buflen - t.used := by
  refine ⟨?_, ?_, fun cur _ => ⟨cur.name_initial, ?_⟩, registryBuildUserList_loop hpos hsize reg,
    fun nodes _ t ht => used_exact hpos hsize room ht⟩
  · rw [registryBuildUserList_fitted hpos]
    exact exact_fitted buflen _
  · rw [registryBuildRoomUserList_loop hpos hsize]
    exact exact_fitted buflen _
  · rw [← cur.overrun_nil_iff, ← cur.name_append_overrun]
    exact List.append_right_eq_self

/-- A registry of one user, whose name of 31 bytes is in a block where `X` stood behind it. -/
def runsOn : ClientRegistry :=
  (registryAdd registryInit (some (filledBlock 1 0x58)) 5 (List.replicate 31 97) defaultRoom false).2

/-- The room stands behind the name, and is cut behind its second byte. -/
theorem user_lists_printed_cut :
    (registryBuildUserList runsOn 35).2 = List.replicate 31 97 ++ lit "Xlo" ∧ (registryBuildUserList runsOn 35).1 ≠ .ok := by
  obtain ⟨⟨htext, hok⟩, -⟩ := user_lists_printed (show 1 ≤ 35 by omega) (by norm_num) runsOn defaultRoom
  have hstring : joinWith (lit ",") (runsOn.nodes.map ClientNode.usernameString) = List.replicate 31 97 ++ lit "Xlobby" := by
    decide +kernel
  rw [hstring] at htext hok
  exact ⟨htext, fun h => absurd (hok.mp h) (by decide)⟩

/-! ## Names and rooms that are terminated -/

theorem ClientNode.inRoom_iff {cur : ClientNode} (h : 0 ∈ cur.room) (room : Bytes) :
    cur.inRoom room = true ↔ cur.roomName = cstr room := by
  rw [inRoom, cur.roomString_of_nul h, beq_iff_eq]

theorem printedRoom_of_terminated {reg : ClientRegistry} (h : ∀ cur ∈ reg.nodes, 0 ∈ cur.username ∧ 0 ∈ cur.room)
    (room : Bytes) : printedRoomList reg room = joinWith (lit ",") (roomNames reg room) := by
  have hfilter : (reg.nodes.filter fun cur => cur.inRoom room) = reg.nodes.filter fun cur => cur.roomName == cstr room := by
    refine List.filter_congr fun cur hcur => ?_
    rw [ClientNode.inRoom, cur.roomString_of_nul (h cur hcur).2]
  unfold printedRoomList roomNames
  rw [hfilter]
  refine congrArg (joinWith (lit ",")) (List.map_congr_left fun cur hcur => ?_)
  exact cur.usernameString_of_nul (h cur (List.mem_of_mem_filter hcur)).1

theorem lists_exact {reg : ClientRegistry} (h : ∀ cur ∈ reg.nodes, 0 ∈ cur.username ∧ 0 ∈ cur.room) : ListsExact reg := by
  refine ⟨fun buflen hpos _ => ?_, fun room buflen hpos hsize => ?_, fun room cur hcur => ClientNode.inRoom_iff (h cur hcur).2 room,
    fun buflen hpos hsize => registryBuildUserList_loop hpos hsize reg,
    fun room buflen hpos hsize nodes _ t ht => used_exact hpos hsize room ht⟩
  · rw [registryBuildUserList_fitted hpos, printed_of_terminated fun cur hcur => (h cur hcur).1]
    exact exact_fitted buflen _
  · rw [registryBuildRoomUserList_loop hpos hsize, printedRoom_of_terminated h]
    exact exact_fitted buflen _

theorem joinWith_length_bound {sep : Bytes} {n : Nat} : ∀ {items : List Bytes}, (∀ item ∈ items, item.length ≤ n) →
    (joinWith sep items).length ≤ items.length * (n + sep.length)
  | [], _ => Nat.zero_le _
  | item :: items, h => by
    have hrest : ∀ rest : List Bytes, (∀ item ∈ rest, item.length ≤ n) →
        (rest.map (sep ++ ·)).flatten.length ≤ rest.length * (n + sep.length) := by
      intro rest
      induction rest with
      | nil => exact fun _ => Nat.zero_le _
      | cons b rest ih =>
        intro hb
        rw [List.forall_mem_cons] at hb
        have hlen := ih hb.2
        simp only [List.map_cons, List.flatten_cons, List.length_append, List.length_cons, Nat.succ_mul]
        omega
    rw [List.forall_mem_cons] at h
    have hlen := hrest items h.2
    simp only [joinWith, List.length_append, List.length_cons, Nat.succ_mul]
    omega

/-- `sizeof(client_node_t)` -/
def nodeSize : Nat := 80

section
variable {reg : ClientRegistry} (haddr : reg.count * nodeSize < 2 ^ 64)
include haddr

theorem userList_lt : (userList reg).length + 1 < 2 ^ 64 := by
  have hlen : (userList reg).length ≤ (onlineNames reg).length * ((maxUsernameLen - 1) + (lit ",").length) := by
    refine joinWith_length_bound fun name hname => ?_
    obtain ⟨cur, -, rfl⟩ := List.mem_map.mp hname
    exact cur.name_length
  have hcomma : (lit ",").length = 1 := by decide
  rw [onlineNames, List.length_map, ← reg.count_eq, hcomma] at hlen
  simp only [nodeSize, maxUsernameLen] at haddr hlen
  omega

theorem terminated_of_exact (h : ListsExact reg) {cur : ClientNode} (hcur : cur ∈ reg.nodes) :
    0 ∈ cur.username ∧ 0 ∈ cur.room := by
  constructor
  · -- a buffer that has room for the names has none for more
    have hok := (h.all _ (Nat.le_add_left 1 _) (userList_lt haddr)).2.mpr (Nat.lt_succ_self _)
    rw [registryBuildUserList_fitted (Nat.le_add_left 1 _), fitted_ok_iff, printedList, printed_grown,
      (joinWith_grown ..).length_eq, List.length_append, userList, onlineNames] at hok
    have hnone : (reg.nodes.map ClientNode.overrun).flatten = [] := List.eq_nil_of_length_eq_zero (by omega)
    exact cur.overrun_nil_iff.mp (List.flatten_eq_nil_iff.mp hnone _ (List.mem_map_of_mem hcur))
  · by_contra hnul
    have hfree : cstr cur.roomName = cur.roomName := cstr_of_nulFree fun h0 => nul_not_mem_cstr _ (List.mem_of_mem_take h0)
    have hin := (h.members cur.roomName cur hcur).mpr hfree.symm
    rw [ClientNode.inRoom, hfree, beq_iff_eq] at hin
    exact cur.roomString_ne hnul hin

/-- **User lists are exact in every buffer** exactly when every name and room field
of the registry holds a NUL. -/
theorem user_lists_exact_iff : ListsExact reg ↔ ∀ cur ∈ reg.nodes, 0 ∈ cur.username ∧ 0 ∈ cur.room :=
  ⟨fun h _ hcur => terminated_of_exact haddr h hcur, lists_exact⟩

end

/-- The second name is cut behind its first byte. -/
theorem user_lists_exact_iff_cut :
    (registryBuildRoomUserList lobbyPair defaultRoom 8).2 = lit "alice,b" ∧
      (registryBuildRoomUserList lobbyPair defaultRoom 8).1 ≠ .ok := by
  have hexact := (user_lists_exact_iff (show lobbyPair.count * nodeSize < 2 ^ 64 by decide +kernel)).mpr (by decide +kernel)
  obtain ⟨htext, hok⟩ := hexact.room defaultRoom 8 (by omega) (by norm_num)
  have hnames : joinWith (lit ",") (roomNames lobbyPair defaultRoom) = lit "alice,bob" := by decide +kernel
  rw [hnames] at htext hok
  exact ⟨htext, fun h => absurd (hok.mp h) (by decide)⟩

/-- The name of 31 bytes fits a buffer of 35, what is printed of its field does not. -/
theorem lists_not_exact : ¬ ∀ reg : ClientRegistry, reg.count ≤ maxClients → ListsExact reg := by
  intro h
  have hexact := h runsOn (by decide +kernel)
  have hok := (hexact.all 35 (by omega) (by norm_num)).2.mpr (by decide +kernel)
  exact absurd hok (by decide +kernel)

end ChatServer

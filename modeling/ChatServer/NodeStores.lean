import ChatServer.Accounts
import ChatServer.HeadLists
import ChatServer.RoomStore

/-!
# The rooms and the accounts in memory

`room_manager.c` and the loading of `auth.c` with their nodes. Rooms and
accounts are only added in front, an entry is written through the pointer that
a search returned, and both lists are freed as a whole; `auth_init` frees what
it has loaded when it fails.
-/

namespace ChatServer

open LinkedList CStr

/-- `room_manager_t`, with the memory its nodes lie in. -/
structure NodeRooms where
  nodes : Heap RoomNode
  rooms : Option Nat
  roomCount : Nat

namespace NodeRooms

/-- `room_find_or_create`; `block` is what `calloc` would return. -/
def findOrCreate (mgr : NodeRooms) (fuel : Nat) (block : Option Nat) (name : Bytes) : Except Fault (Option Nat × NodeRooms) := do
  match ← mgr.nodes.search (fun cur => cur.named name) fuel mgr.rooms with
  | some (_, cur, _) => return (some cur, mgr)
  | none =>
    if mgr.roomCount ≥ maxRooms then return (none, mgr)
    else
      match block with
      | none => return (none, mgr)
      | some cur =>
        let nodes := mgr.nodes.write cur { val := newRoom name, next := mgr.rooms }
        return (some cur, { nodes := nodes, rooms := some cur, roomCount := mgr.roomCount + 1 })

/-- `room_manager_init` -/
def init (fuel : Nat) (block : Option Nat) : Except Fault (ChatStatus × NodeRooms) := do
  let (rn, mgr) ← findOrCreate { nodes := fun _ => none, rooms := none, roomCount := 0 } fuel block defaultRoom
  match rn with
  | none => return (.err, mgr)
  | some _ => return (.ok, mgr)

/-- `room_history_add` -/
def historyAdd (P : Platform) (mgr : NodeRooms) (fuel : Nat) (block : Option Nat) (room username content : Bytes) (ts : Int) :
    Except Fault (ChatStatus × NodeRooms) := do
  let (rn, mgr) ← mgr.findOrCreate fuel block room
  match rn with
  | none => return (.errFull, mgr)
  | some rn =>
    let node ← mgr.nodes.read rn
    let history := node.val.history.push (fillEntry P username content ts)
    return (.ok, { mgr with nodes := mgr.nodes.write rn { node with val := { node.val with history := history } } })

/-- `room_history_format` -/
def historyFormat (mgr : NodeRooms) (fuel : Nat) (room : Bytes) (buflen : Nat) : Except Fault (ChatStatus × Bytes) :=
  if buflen = 0 then .ok (.err, [])
  else do
    match ← mgr.nodes.search (fun cur => cur.named room) fuel mgr.rooms with
    | none => return (.ok, [])
    | some (_, _, cur) => return appendJoined buflen (lit "||") (cur.val.history.toList.map HistoryEntry.format) [] true

/-- `room_manager_destroy` -/
def destroy (mgr : NodeRooms) (fuel : Nat) : Except Fault NodeRooms := do
  let nodes ← Heap.freeAll fuel mgr.nodes mgr.rooms
  return { nodes := nodes, rooms := none, roomCount := 0 }

end NodeRooms

/-- `auth_db_t`, with the memory its records lie in. -/
structure NodeAccounts where
  records : Heap UserRecord
  head : Option Nat

namespace NodeAccounts

/-- `auth_destroy` -/
def destroy (db : NodeAccounts) (fuel : Nat) : Except Fault NodeAccounts := do
  let records ← Heap.freeAll fuel db.records db.head
  return { records := records, head := none }

/-- The loop of `auth_init`; `mem` gives what each call of `malloc` returns, and
`loaded` counts them. `none` is the exit when it returns no block. -/
def load (mem : Nat → Option Nat) : Nat → Bytes → Nat → NodeAccounts → NodeAccounts × Option Nat
  | 0, _, loaded, db => (db, some loaded)
  | fuel + 1, file, loaded, db =>
    if file = [] then (db, some loaded)
    else
      let (line, file) := fgets (lineSize - 1) file
      match parseAccount (stripLine (cstr line)) with
      | none => load mem fuel file loaded db
      | some rec =>
        match mem loaded with
        | none => (db, none)
        | some a =>
          load mem fuel file (loaded + 1)
            { records := db.records.write a { val := rec, next := db.head }, head := some a }

/-- `auth_init`; `fuel` bounds the walk of `auth_destroy` where it fails. -/
def init (fuel : Nat) (mem : Nat → Option Nat) : Option Bytes → Except Fault (ChatStatus × NodeAccounts)
  | none => .ok (.err, { records := fun _ => none, head := none })
  | some file =>
    match load mem file.length file 0 { records := fun _ => none, head := none } with
    | (db, none) => do return (.errNomem, ← db.destroy fuel)
    | (db, some 0) => do return (.err, ← db.destroy fuel)
    | (db, some _) => .ok (.ok, db)

/-- `auth_verify` -/
def verify (P : Platform) (evp : Bool) (db : NodeAccounts) (fuel : Nat) (username password : Bytes) : Except Fault ChatStatus :=
  match authHashPassword P evp password with
  | none => .ok .err
  | some computed => do
    match ← db.records.search (fun cur => cur.username == username) fuel db.head with
    | none => return .errAuth
    | some (_, _, cur) => return if cur.val.passwordHash == computed then .ok else .errAuth

/-- `auth_is_admin` -/
def isAdmin (db : NodeAccounts) (fuel : Nat) (username : Bytes) : Except Fault Bool := do
  match ← db.records.search (fun cur => cur.username == username) fuel db.head with
  | none => return false
  | some (_, _, cur) => return cur.val.isAdmin

end NodeAccounts

/-! ## Rooms -/

/-- The heap holds the rooms of `abs` in the cells `cells`, and nothing else. -/
structure NodeRooms.Lists (mgr : NodeRooms) (abs : RoomManager) (cells : List (Nat × RoomNode)) : Prop where
  rooted : Rooted mgr.nodes mgr.rooms cells
  rooms_eq : cells.map Prod.snd = abs.rooms
  count_eq : mgr.roomCount = abs.roomCount

section
variable {mgr : NodeRooms} {abs : RoomManager} {cells : List (Nat × RoomNode)} {fuel : Nat} {block : Option Nat}
variable (h : mgr.Lists abs cells) (hfuel : abs.rooms.length ≤ fuel)
include h hfuel

theorem NodeRooms.Lists.length_le : cells.length ≤ fuel := by
  rwa [← List.length_map (f := Prod.snd), h.rooms_eq]

/-- The pointer found leads to the room at the index found. -/
theorem NodeRooms.Lists.findOrCreate (name : Bytes) (hblock : ∀ a, block = some a → mgr.nodes a = none) :
    (∃ mgr', mgr.findOrCreate fuel block name = .ok (none, mgr') ∧ roomFindOrCreate abs block.isSome name = none ∧ mgr' = mgr) ∨
    ∃ mgr' abs' before a x after, mgr.findOrCreate fuel block name = .ok (some a, mgr') ∧
      roomFindOrCreate abs block.isSome name = some (before.length, abs') ∧ mgr'.Lists abs' (before ++ (a, x) :: after) := by
  unfold NodeRooms.findOrCreate roomFindOrCreate
  rcases h.rooted.chain.search (fun cur => cur.named name) (h.length_le hfuel) with
    ⟨hnone, hall⟩ | ⟨before, a, x, after, rfl, hall, hx, hfound⟩
  · have hmissing : (abs.rooms.findIdx? fun cur => cur.named name) = none := by
      rw [List.findIdx?_eq_none_iff, ← h.rooms_eq]
      intro rn hrn
      obtain ⟨c, hc, rfl⟩ := List.mem_map.mp hrn
      exact hall c hc
    simp only [hnone, hmissing, h.count_eq]
    show (∃ mgr', (if abs.roomCount ≥ maxRooms then _ else _) = _ ∧ _) ∨ _
    by_cases hfull : abs.roomCount ≥ maxRooms
    · simp only [if_pos hfull]
      exact Or.inl ⟨mgr, rfl, trivial, rfl⟩
    · simp only [if_neg hfull]
      cases block with
      | none => exact Or.inl ⟨mgr, rfl, rfl, rfl⟩
      | some a =>
        refine Or.inr ⟨_, _, [], a, newRoom name, cells, rfl, rfl, h.rooted.push (hblock a rfl) _, ?_, rfl⟩
        exact congrArg _ h.rooms_eq
  · have hidx : (abs.rooms.findIdx? fun cur => cur.named name) = some before.length := by
      have hbefore : ((before.map Prod.snd).findIdx? fun cur => cur.named name) = none := by
        rw [List.findIdx?_eq_none_iff]
        intro rn hrn
        obtain ⟨c, hc, rfl⟩ := List.mem_map.mp hrn
        exact hall c hc
      rw [← h.rooms_eq, List.map_append, List.findIdx?_append, hbefore, List.map_cons, List.findIdx?_cons, if_pos hx,
        Option.none_or, List.length_map]
      exact congrArg some (Nat.zero_add _)
    simp only [hfound, hidx]
    exact Or.inr ⟨mgr, abs, before, a, x, after, rfl, rfl, h⟩

theorem NodeRooms.Lists.historyAdd (P : Platform) (room username content : Bytes) (ts : Int)
    (hblock : ∀ a, block = some a → mgr.nodes a = none) :
    ∃ mgr' cells', mgr.historyAdd P fuel block room username content ts =
        .ok ((roomHistoryAdd P abs block.isSome room username content ts).1, mgr') ∧
      mgr'.Lists (roomHistoryAdd P abs block.isSome room username content ts).2 cells' := by
  unfold NodeRooms.historyAdd roomHistoryAdd
  rcases h.findOrCreate hfuel room hblock with
    ⟨_, hnone, habs, rfl⟩ | ⟨mgr', abs', before, a, x, after, hsome, habs, hlists⟩
  · simp only [hnone, habs]
    exact ⟨_, cells, rfl, h⟩
  · obtain ⟨hcell, -⟩ := hlists.rooted.chain.cell
    have hlength : (before.map Prod.snd).length = before.length := List.length_map ..
    have hrooms : abs'.rooms.modify before.length (fun rn => { rn with history := rn.history.push (fillEntry P username content ts) }) =
        before.map Prod.snd ++ { x with history := x.history.push (fillEntry P username content ts) } :: after.map Prod.snd := by
      rw [← hlists.rooms_eq, List.map_append, List.map_cons, ← hlength]
      generalize before.map Prod.snd = rooms
      induction rooms with
      | nil => rfl
      | cons rn rooms ih => rw [List.cons_append, List.length_cons, List.modify_succ_cons, ih, List.cons_append]
    simp only [hsome, habs]
    have hwrite := hlists.rooted.write { x with history := x.history.push (fillEntry P username content ts) }
    refine ⟨{ mgr' with nodes := _ }, _, ?_, ⟨hwrite, ?_, hlists.count_eq⟩⟩
    · show (mgr'.nodes.read a >>= fun node => _) = _
      rw [Heap.read_of_some hcell]
      rfl
    · rw [List.map_append, List.map_cons, hrooms]

theorem NodeRooms.Lists.historyFormat (room : Bytes) (buflen : Nat) :
    mgr.historyFormat fuel room buflen = .ok (roomHistoryFormat abs room buflen) := by
  unfold NodeRooms.historyFormat roomHistoryFormat
  split
  · rfl
  · rcases h.rooted.chain.search (fun cur => cur.named room) (h.length_le hfuel) with
      ⟨hnone, hall⟩ | ⟨before, a, x, after, rfl, hall, hx, hfound⟩
    · have hmissing : (abs.rooms.find? fun cur => cur.named room) = none := by
        rw [← h.rooms_eq]
        exact find?_none (List.forall_mem_map.mpr hall)
      rw [hnone, hmissing]
      rfl
    · have hthere : (abs.rooms.find? fun cur => cur.named room) = some x := by
        rw [← h.rooms_eq, List.map_append, List.map_cons]
        exact find?_behind (List.forall_mem_map.mpr hall) hx
      rw [hfound, hthere]
      rfl

theorem NodeRooms.Lists.destroy : mgr.destroy fuel = .ok { nodes := fun _ => none, rooms := none, roomCount := 0 } := by
  unfold NodeRooms.destroy
  rw [h.rooted.freeAll (h.length_le hfuel)]
  rfl

end

/-- The calls of `room_history_add` on the rooms from `room_manager_init` on, by any
threads, each under the lock and with a block that `calloc` may hand out then. -/
inductive RoomRun (P : Platform) (fuel : Nat) : List (Add × ChatStatus) → NodeRooms → Prop
  | init {block : Nat} {mgr : NodeRooms} : NodeRooms.init fuel (some block) = .ok (.ok, mgr) → RoomRun P fuel [] mgr
  | add {tr : List (Add × ChatStatus)} {mgr mgr' : NodeRooms} {block : Option Nat} {a : Add} {rc : ChatStatus} :
      RoomRun P fuel tr mgr → (∀ b, block = some b → mgr.nodes b = none) → a.mem = block.isSome →
      mgr.historyAdd P fuel block a.room a.username a.content a.ts = .ok (rc, mgr') → RoomRun P fuel (tr ++ [(a, rc)]) mgr'

theorem NodeRooms.init_lists {fuel block : Nat} : ∃ mgr cells, NodeRooms.init fuel (some block) = .ok (.ok, mgr) ∧
    mgr.Lists roomManagerInit cells :=
  ⟨_, [(block, newRoom defaultRoom)], by cases fuel <;> rfl, Rooted.nil.push rfl _, rfl, rfl⟩

theorem roomHistoryAdds_snoc (P : Platform) (a : Add) : ∀ (adds : List Add) (mgr : RoomManager),
    roomHistoryAdds P mgr (adds ++ [a]) =
      let before := roomHistoryAdds P mgr adds
      let last := roomHistoryAdd P before.2 a.mem a.room a.username a.content a.ts
      (before.1 ++ [last.1], last.2)
  | [], _ => rfl
  | first :: adds, mgr => by
    simp only [List.cons_append, roomHistoryAdds, roomHistoryAdds_snoc P a adds]

theorem roomHistoryAdd_count {P : Platform} {mgr : RoomManager} (h : mgr.roomCount = mgr.rooms.length ∧ mgr.roomCount ≤ maxRooms)
    (mem : Bool) (room username content : Bytes) (ts : Int) :
    let mgr' := (roomHistoryAdd P mgr mem room username content ts).2
    mgr'.roomCount = mgr'.rooms.length ∧ mgr'.roomCount ≤ maxRooms := by
  unfold roomHistoryAdd roomFindOrCreate
  cases mgr.rooms.findIdx? fun cur => cur.named room with
  | some i => exact ⟨h.1.trans (List.length_modify ..).symm, h.2⟩
  | none =>
    by_cases hfull : mgr.roomCount ≥ maxRooms
    · simp only [if_pos hfull]
      exact h
    · simp only [if_neg hfull]
      cases mem with
      | false => exact h
      | true =>
        refine ⟨?_, Nat.lt_of_not_le hfull⟩
        show mgr.roomCount + 1 = (List.modify _ _ _).length
        rw [List.length_modify, List.length_cons, h.1]

/-- After any run the heap holds the rooms that the list has after the same calls. -/
theorem RoomRun.lists {P : Platform} {fuel : Nat} (hfuel : maxRooms ≤ fuel) {tr : List (Add × ChatStatus)} {mgr : NodeRooms}
    (h : RoomRun P fuel tr mgr) :
    ∃ abs cells, mgr.Lists abs cells ∧ (abs.roomCount = abs.rooms.length ∧ abs.roomCount ≤ maxRooms) ∧
      roomHistoryAdds P roomManagerInit (tr.map Prod.fst) = (tr.map Prod.snd, abs) := by
  induction h with
  | @init block mgr hinit =>
    obtain ⟨mgr₁, cells, hinit₁, hlists⟩ := @NodeRooms.init_lists fuel block
    rw [hinit] at hinit₁
    cases hinit₁
    exact ⟨_, cells, hlists, ⟨rfl, by decide⟩, rfl⟩
  | @add tr mgr mgr' block a rc _ hblock hmem hcall ih =>
    obtain ⟨abs, cells, hlists, hcount, hadds⟩ := ih
    have hlen : abs.rooms.length ≤ fuel := (hcount.1 ▸ hcount.2).trans hfuel
    obtain ⟨mgr₁, cells', hreturns, hnext⟩ := hlists.historyAdd hlen P a.room a.username a.content a.ts hblock
    rw [hcall] at hreturns
    cases hreturns
    rw [← hmem] at hnext ⊢
    refine ⟨_, cells', hnext, roomHistoryAdd_count hcount .., ?_⟩
    rw [List.map_append, List.map_append, List.map_singleton, List.map_singleton, roomHistoryAdds_snoc, hadds]

/-- **The rooms' nodes are the rooms**, over every run of calls from any threads:
each allocated node is linked, once; no call faults, or takes more than `MAX_ROOMS`
rounds; the statuses and the histories are those of the list of rooms, the rings
hold the logs of the calls that succeeded when the arguments fit their fields, and
`room_manager_destroy` frees every node. -/
theorem rooms_in_memory {P : Platform} {fuel : Nat} (hfuel : maxRooms ≤ fuel) {tr : List (Add × ChatStatus)} {mgr : NodeRooms}
    (h : RoomRun P fuel tr mgr) :
    let adds := tr.map Prod.fst
    ∃ abs cells, Rooted mgr.nodes mgr.rooms cells ∧ cells.map Prod.snd = abs.rooms ∧
      mgr.roomCount = cells.length ∧ mgr.roomCount ≤ maxRooms ∧
      roomHistoryAdds P roomManagerInit adds = (tr.map Prod.snd, abs) ∧
      ((∀ a ∈ adds, a.Kept) → abs.Stores P fun room => added P roomManagerInit room adds) ∧
      (∀ block room username content ts, (∀ b, block = some b → mgr.nodes b = none) →
        ∃ rc mgr', mgr.historyAdd P fuel block room username content ts = .ok (rc, mgr') ∧
          RoomRun P fuel (tr ++ [({ mem := block.isSome, room, username, content, ts }, rc)]) mgr' ∧ (rc ≠ .ok → mgr' = mgr)) ∧
      (∀ room buflen, mgr.historyFormat fuel room buflen = .ok (roomHistoryFormat abs room buflen)) ∧
      mgr.destroy fuel = .ok { nodes := fun _ => none, rooms := none, roomCount := 0 } := by
  intro adds
  obtain ⟨abs, cells, hlists, hcount, hadds⟩ := h.lists hfuel
  have hlen : abs.rooms.length ≤ fuel := (hcount.1 ▸ hcount.2).trans hfuel
  have hcells : mgr.roomCount = cells.length := by
    rw [hlists.count_eq, hcount.1, ← hlists.rooms_eq, List.length_map]
  refine ⟨abs, cells, hlists.rooted, hlists.rooms_eq, hcells, hlists.count_eq ▸ hcount.2, hadds, fun hfits => ?_,
    fun block room username content ts hblock => ?_, hlists.historyFormat hlen, hlists.destroy hlen⟩
  · have hstores := (roomManagerInit_stores (P := P)).adds adds hfits
    rw [hadds] at hstores
    exact hstores
  · obtain ⟨mgr', _, hreturns, -⟩ := hlists.historyAdd hlen P room username content ts hblock
    refine ⟨_, mgr', hreturns, RoomRun.add (a := { mem := block.isSome, room, username, content, ts }) h hblock rfl hreturns, ?_⟩
    intro hne
    unfold NodeRooms.historyAdd at hreturns
    rcases hlists.findOrCreate hlen room hblock with
      ⟨mgr₁, hnone, -, rfl⟩ | ⟨mgr₁, abs₁, before, b, x, after, hsome, habs, -⟩
    · simp only [hnone] at hreturns
      exact (congrArg Prod.snd (Except.ok.inj hreturns)).symm
    · rw [roomHistoryAdd, habs] at hne
      exact absurd rfl hne

/-- One room behind the lobby, made in the run after a call for which there was no memory. -/
theorem rooms_in_memory_den :
    let tr := [({ addIn (lit "hall") with mem := false }, ChatStatus.errFull), (addIn (lit "den"), .ok)]
    ∃ mgr, RoomRun noZone maxRooms tr mgr ∧ mgr.historyFormat maxRooms (lit "den") 64 = .ok (.ok, lit "bob|unknown|hi") ∧
      mgr.historyFormat maxRooms (lit "hall") 64 = .ok (.ok, []) ∧
      mgr.destroy maxRooms = .ok { nodes := fun _ => none, rooms := none, roomCount := 0 } := by
  have hinit := @RoomRun.init noZone maxRooms 1 _ rfl
  have hfailed : RoomRun noZone maxRooms [({ addIn (lit "hall") with mem := false }, .errFull)] _ :=
    @RoomRun.add noZone maxRooms [] _ _ none { addIn (lit "hall") with mem := false } .errFull hinit (fun b hb => by cases hb) rfl rfl
  have hrun : RoomRun noZone maxRooms [({ addIn (lit "hall") with mem := false }, .errFull), (addIn (lit "den"), .ok)] _ :=
    @RoomRun.add noZone maxRooms _ _ _ (some 2) (addIn (lit "den")) .ok hfailed (fun b hb => by cases hb; rfl) rfl rfl
  obtain ⟨abs, cells, -, -, -, -, hadds, hstores, -, hformat, hdestroy⟩ := rooms_in_memory (Nat.le_refl _) hrun
  obtain rfl := congrArg Prod.snd hadds
  have hkept : ∀ a ∈ [{ addIn (lit "hall") with mem := false }, addIn (lit "den")], a.Kept := by
    intro a ha
    rcases List.mem_pair.mp ha with rfl | rfl
    · exact ⟨by decide, by decide, by decide, by decide, by decide, by decide⟩
    · exact ⟨by decide, by decide, by decide, by decide, by decide, by decide⟩
  refine ⟨_, hrun, ?_, ?_, hdestroy⟩
  · rw [hformat, (hstores hkept).format (by decide)]
    decide +kernel
  · rw [hformat, (hstores hkept).format (by decide)]
    decide +kernel

/-! ## Accounts -/

/-- The heap holds the accounts of `abs` in the cells `cells`, and nothing else. -/
structure NodeAccounts.Lists (db : NodeAccounts) (abs : AuthDb) (cells : List (Nat × UserRecord)) : Prop where
  rooted : Rooted db.records db.head cells
  records_eq : cells.map Prod.snd = abs

/-- `malloc` hands out no block twice while nothing is freed. -/
def Distinct (mem : Nat → Option Nat) : Prop := ∀ i j a, mem i = some a → mem j = some a → i = j

/-- Every line of the file, read into the heap as into the list. -/
theorem NodeAccounts.Lists.load {mem : Nat → Option Nat} (hmem : Distinct mem) : ∀ (fuel : Nat) {file : Bytes} {db : NodeAccounts}
    {abs : AuthDb} {cells : List (Nat × UserRecord)}, db.Lists abs cells → (∀ a ∈ addresses cells, ∃ i < abs.length, mem i = some a) →
    ∃ db' cells', cells'.length ≤ cells.length + fuel ∧ Rooted db'.records db'.head cells' ∧
      match loadAccounts (fun n => (mem n).isSome) fuel file abs with
      | none => NodeAccounts.load mem fuel file abs.length db = (db', none)
      | some abs' => NodeAccounts.load mem fuel file abs.length db = (db', some abs'.length) ∧ cells'.map Prod.snd = abs'
  | 0, file, db, abs, cells, h, _ => ⟨db, cells, Nat.le_refl _, h.rooted, rfl, h.records_eq⟩
  | fuel + 1, file, db, abs, cells, h, hused => by
    unfold loadAccounts NodeAccounts.load
    by_cases hfile : file = []
    · simp only [if_pos hfile]
      exact ⟨db, cells, Nat.le_add_right _ _, h.rooted, rfl, h.records_eq⟩
    · simp only [if_neg hfile]
      cases parseAccount (stripLine (cstr (fgets (lineSize - 1) file).1)) with
      | none =>
        obtain ⟨db', cells', hlen, hrest⟩ := @NodeAccounts.Lists.load _ hmem fuel (fgets (lineSize - 1) file).2 _ _ _ h hused
        exact ⟨db', cells', by omega, hrest⟩
      | some rec =>
        cases hblock : mem abs.length with
        | none => exact ⟨db, cells, Nat.le_add_right _ _, h.rooted, rfl⟩
        | some a =>
          -- the block is none of those in use
          have hnot : a ∉ addresses cells := by
            intro ha
            obtain ⟨i, hi, hia⟩ := hused a ha
            exact absurd (hmem _ _ a hia hblock) (Nat.ne_of_lt hi)
          have hnew : db.records a = none := by
            by_contra hne
            exact hnot (h.rooted.mem_of_allocated a hne)
          have hnext : NodeAccounts.Lists { records := db.records.write a { val := rec, next := db.head }, head := some a }
              (rec :: abs) ((a, rec) :: cells) := ⟨h.rooted.push hnew rec, congrArg _ h.records_eq⟩
          have hused' : ∀ b ∈ addresses ((a, rec) :: cells), ∃ i < (rec :: abs).length, mem i = some b := by
            intro b hb
            rcases List.mem_cons.mp hb with rfl | hb
            · exact ⟨abs.length, Nat.lt_succ_self _, hblock⟩
            · obtain ⟨i, hi, hib⟩ := hused b hb
              exact ⟨i, Nat.lt_succ_of_lt hi, hib⟩
          obtain ⟨db', cells', hlen, hrest⟩ := @NodeAccounts.Lists.load _ hmem fuel (fgets (lineSize - 1) file).2 _ _ _ hnext hused'
          rw [List.length_cons] at hlen
          exact ⟨db', cells', by omega, hrest⟩

section
variable {db : NodeAccounts} {abs : AuthDb} {cells : List (Nat × UserRecord)} {fuel : Nat}
variable (h : db.Lists abs cells) (hfuel : abs.length ≤ fuel)
include h hfuel

theorem NodeAccounts.Lists.search (username : Bytes) :
    ∃ found, db.records.search (fun cur => cur.username == username) fuel db.head = .ok found ∧
      found.map (fun p => p.2.2.val) = abs.find? fun cur => cur.username == username := by
  have hlen : cells.length ≤ fuel := by rwa [← List.length_map (f := Prod.snd), h.records_eq]
  rcases h.rooted.chain.search (fun cur => cur.username == username) hlen with
    ⟨hnone, hall⟩ | ⟨before, a, x, after, rfl, hall, hx, hfound⟩
  · refine ⟨_, hnone, ?_⟩
    rw [← h.records_eq]
    exact (find?_none (List.forall_mem_map.mpr hall)).symm
  · refine ⟨_, hfound, ?_⟩
    have hbefore : ∀ rec ∈ before.map Prod.snd, (rec.username == username) = false := List.forall_mem_map.mpr hall
    rw [← h.records_eq, List.map_append, List.map_cons]
    exact (find?_behind hbefore hx).symm

theorem NodeAccounts.Lists.verify (P : Platform) (evp : Bool) (username password : Bytes) :
    db.verify P evp fuel username password = .ok (authVerify P evp abs username password) := by
  unfold NodeAccounts.verify authVerify
  obtain ⟨found, hfound, hfind⟩ := h.search hfuel username
  cases authHashPassword P evp password with
  | none => rfl
  | some computed =>
    simp only [hfound, ← hfind]
    cases found with
    | none => rfl
    | some cur => rfl

theorem NodeAccounts.Lists.isAdmin (username : Bytes) : db.isAdmin fuel username = .ok (authIsAdmin abs username) := by
  unfold NodeAccounts.isAdmin authIsAdmin
  obtain ⟨found, hfound, hfind⟩ := h.search hfuel username
  simp only [hfound, ← hfind]
  cases found with
  | none => rfl
  | some cur => rfl

end

/-- **The accounts' nodes are the accounts of the file**: whatever blocks `malloc`
hands out and wherever it stops to, `auth_init` neither faults nor frees a node
twice; when it fails it leaves no node behind, and when it succeeds the nodes
are the accounts, a login is checked as on their list, and `auth_destroy` frees each. -/
theorem accounts_in_memory {mem : Nat → Option Nat} (hmem : Distinct mem) {file : Option Bytes} {fuel : Nat}
    (hfuel : (file.getD []).length ≤ fuel) :
    let loaded := authInit (fun n => (mem n).isSome) file
    ∃ db cells, NodeAccounts.init fuel mem file = .ok (loaded.1, db) ∧ Rooted db.records db.head cells ∧
      cells.map Prod.snd = loaded.2 ∧ (loaded.1 ≠ .ok → cells = []) ∧
      (∀ P evp username password, db.verify P evp fuel username password = .ok (authVerify P evp loaded.2 username password)) ∧
      (∀ username, db.isAdmin fuel username = .ok (authIsAdmin loaded.2 username)) ∧
      db.destroy fuel = .ok { records := fun _ => none, head := none } := by
  intro loaded
  suffices hsuff : ∃ db cells, NodeAccounts.init fuel mem file = .ok (loaded.1, db) ∧ db.Lists loaded.2 cells ∧
      (loaded.1 ≠ .ok → cells = []) ∧ cells.length ≤ fuel by
    obtain ⟨db, cells, hinit, hlists, hfailed, hlen⟩ := hsuff
    have hcount : loaded.2.length ≤ fuel := by rwa [← hlists.records_eq, List.length_map]
    refine ⟨db, cells, hinit, hlists.rooted, hlists.records_eq, hfailed, fun P evp => hlists.verify hcount P evp,
      hlists.isAdmin hcount, ?_⟩
    unfold NodeAccounts.destroy
    rw [hlists.rooted.freeAll hlen]
    rfl
  cases file with
  | none => exact ⟨_, [], rfl, ⟨Rooted.nil, rfl⟩, fun _ => rfl, Nat.zero_le _⟩
  | some file =>
    have hempty : NodeAccounts.Lists { records := fun _ => none, head := none } [] [] := ⟨Rooted.nil, rfl⟩
    obtain ⟨db, cells, hlen, hrooted, hload⟩ := @NodeAccounts.Lists.load _ hmem file.length file _ _ _ hempty
      fun _ ha => absurd ha List.not_mem_nil
    have hbound : cells.length ≤ fuel := by
      rw [List.length_nil, Nat.zero_add] at hlen
      exact hlen.trans hfuel
    have hdestroy : db.destroy fuel = .ok { records := fun _ => none, head := none } := by
      unfold NodeAccounts.destroy
      rw [hrooted.freeAll hbound]
      rfl
    simp only [loaded, authInit, NodeAccounts.init]
    cases hlist : loadAccounts (fun n => (mem n).isSome) file.length file [] with
    | none =>
      simp only [hlist] at hload
      refine ⟨_, [], ?_, hempty, fun _ => rfl, Nat.zero_le _⟩
      rw [List.length_nil] at hload
      simp only [hload, hdestroy]
      rfl
    | some abs =>
      simp only [hlist, List.length_nil] at hload
      obtain ⟨hload, hrecords⟩ := hload
      cases abs with
      | nil =>
        refine ⟨_, [], ?_, hempty, fun _ => rfl, Nat.zero_le _⟩
        simp only [hload, List.length_nil, hdestroy]
        rfl
      | cons rec abs =>
        refine ⟨db, cells, ?_, ⟨hrooted, hrecords⟩, fun hne => absurd rfl hne, hbound⟩
        simp only [hload, List.length_cons]

/-- Memory for one account of two. -/
theorem accounts_in_memory_two : ∃ db,
    NodeAccounts.init 64 (fun n => if n = 0 then some 7 else none) (some (oneAccount "bob" ++ oneAccount "eve")) = .ok (.errNomem, db) ∧
      db.records = fun _ => none := by
  have hmem : Distinct fun n => if n = 0 then some 7 else none := by
    intro i j a hi hj
    have hfirst : ∀ n, (if n = 0 then some 7 else none) = some a → n = 0 := by
      intro n hn
      by_contra hne
      rw [if_neg hne] at hn
      cases hn
    exact (hfirst i hi).trans (hfirst j hj).symm
  obtain ⟨db, cells, hinit, hrooted, -, hfailed, -, -, hdestroy⟩ :=
    @accounts_in_memory _ hmem (some (oneAccount "bob" ++ oneAccount "eve")) 64 (by decide +kernel)
  have hrc : (authInit (fun n => (if n = 0 then some 7 else none : Option Nat).isSome)
      (some (oneAccount "bob" ++ oneAccount "eve"))).1 = .errNomem := by decide +kernel
  refine ⟨db, by rw [hinit, hrc], funext fun a => ?_⟩
  rw [hfailed (by rw [hrc]; exact ChatStatus.noConfusion)] at hrooted
  by_contra ha
  exact List.not_mem_nil (hrooted.mem_of_allocated a ha)

end ChatServer

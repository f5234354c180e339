import ChatServer.Accounts
import ChatServer.Acks
import ChatServer.Framing

/-!
# Listing the users

`cmd_handle_list` builds the list of the names in a buffer of `MAX_MSG_LEN`
bytes, whatever the number of clients, and sends an error where it does not
fit. What fits reaches the client as it is, but for line ends at its end. Where
a name field holds no NUL, what stands behind it is listed as well.
-/

namespace ChatServer

open CStr Prog

def onlineNames (reg : ClientRegistry) : List Bytes := reg.nodes.map ClientNode.name

def userList (reg : ClientRegistry) : Bytes := joinWith (lit ",") (onlineNames reg)

/-- What `%s` prints of the fields. -/
def printedList (reg : ClientRegistry) : Bytes := joinWith (lit ",") (reg.nodes.map ClientNode.usernameString)

/-- One action of a handler that runs alone, on a socket that takes some of what it is given. -/
def Served (P : Platform) (i : Nat) (fd : Int) (a : Act) (s : Server) (r : a.Ret) (s' : Server) : Prop :=
  ∃ e : Env, (∀ buf sent, a = .send fd buf sent → ∃ n, e.sent = some n ∧ 0 < n) ∧ exec P (.handler i) a e s = some (r, s')

/-- The requester got one line, which the client's parser reads as the list of all names. -/
def ListSent (fd : Int) (names : List Bytes) (tr : List ((a : Act) × a.Ret)) : Prop :=
  ∃ out, protocolParseServerLine (delivered tr fd) = (.ok, out) ∧ out.type = .list ∧
    cstr out.userList = joinWith (lit ",") names

/-- Every name field is terminated, the list fits its buffer, and is not trimmed on the way. -/
structure Listable (reg : ClientRegistry) : Prop where
  terminated : ∀ cur ∈ reg.nodes.dropLast, 0 ∈ cur.username
  -- behind the last name, line ends are trimmed off
  last : ∀ cur, reg.nodes.getLast? = some cur → ∀ c ∈ cur.overrun, c = lf ∨ c = cr
  fits : (printedList reg).length < maxMsgLen
  trimmed : (userList reg).getLast? ≠ some cr ∧ (userList reg).getLast? ≠ some lf

/-! ## The names in the printed list -/

theorem printed_grown (nodes : List ClientNode) : joinWith (lit ",") (nodes.map ClientNode.usernameString) =
    joinWith (lit ",") (nodes.map fun cur => cur.name ++ cur.overrun) := by
  simp only [ClientNode.name_append_overrun]

/-- Where only line ends stand behind the names and behind the list, no name but the last has any. -/
theorem grown_last {z : Bytes} : ∀ {nodes : List ClientNode}, (∀ cur ∈ nodes, ∀ c ∈ cur.overrun, c = lf ∨ c = cr) →
    joinWith (lit ",") (nodes.map fun cur => cur.name ++ cur.overrun) = joinWith (lit ",") (nodes.map ClientNode.name) ++ z →
      ∀ cur ∈ nodes.dropLast, cur.overrun = []
  | [], _, _, _, hcur => by cases hcur
  | [_], _, _, _, hcur => by cases hcur
  | cur :: next :: rest, hends, h, other, hother => by
    have hcomma : lit "," = [44] := by decide
    have hcons : ∀ (f : ClientNode → Bytes), joinWith (lit ",") ((cur :: next :: rest).map f) =
        f cur ++ (44 :: joinWith (lit ",") ((next :: rest).map f)) := by
      intro f
      simp [joinWith, hcomma]
    rw [hcons, hcons, List.append_assoc, List.append_assoc, List.append_cancel_left_eq] at h
    have hnil : cur.overrun = [] := by
      cases hov : cur.overrun with
      | nil => rfl
      | cons c ov =>
        rw [hov, List.cons_append, List.cons_append] at h
        have hc := hends cur (List.mem_cons_self ..) c (by rw [hov]; exact List.mem_cons_self ..)
        rw [(List.cons.inj h).1] at hc
        exact absurd hc (by decide)
    rw [hnil, List.nil_append, List.cons_append] at h
    rw [List.dropLast_cons_cons, List.mem_cons] at hother
    rcases hother with rfl | hother
    · exact hnil
    · exact grown_last (fun c hc => hends c (List.mem_cons_of_mem _ hc)) (List.cons.inj h).2 other hother

theorem trim_printed_iff (reg : ClientRegistry) : trimNewline (printedList reg) = userList reg ↔
    (∀ cur ∈ reg.nodes.dropLast, 0 ∈ cur.username) ∧
      (∀ cur, reg.nodes.getLast? = some cur → ∀ c ∈ cur.overrun, c = lf ∨ c = cr) ∧
      (userList reg).getLast? ≠ some cr ∧ (userList reg).getLast? ≠ some lf := by
  rw [← trimNewline_eq_iff]
  constructor
  · intro h
    obtain ⟨z, hz, hends⟩ := trimNewline_tail (printedList reg)
    rw [h, printedList, printed_grown] at hz
    -- all that stands behind the names is what was trimmed off
    have hperm := joinWith_grown (lit ",") ClientNode.name ClientNode.overrun reg.nodes
    rw [hz, userList, onlineNames, List.perm_append_left_iff] at hperm
    have hall : ∀ cur ∈ reg.nodes, ∀ c ∈ cur.overrun, c = lf ∨ c = cr := fun cur hcur c hc =>
      hends c (hperm.mem_iff.mpr (List.mem_flatten.mpr ⟨_, List.mem_map_of_mem hcur, hc⟩))
    refine ⟨fun cur hcur => cur.overrun_nil_iff.mp (grown_last hall hz cur hcur),
      fun cur hcur => hall cur (List.mem_of_getLast? hcur), ?_⟩
    rw [← h, trimNewline_idem]
  · intro ⟨hterm, hlast, htrim⟩
    have hgrown : ∃ z, printedList reg = userList reg ++ z ∧ ∀ c ∈ z, c = lf ∨ c = cr := by
      unfold printedList userList onlineNames
      rcases List.eq_nil_or_concat reg.nodes with hnil | ⟨init, cur, hnodes⟩
      · rw [hnil]
        exact ⟨[], rfl, fun c hc => by cases hc⟩
      · rw [List.concat_eq_append] at hnodes
        rw [hnodes, List.dropLast_concat] at hterm
        rw [hnodes, List.getLast?_concat] at hlast
        have hinit : init.map ClientNode.usernameString = init.map ClientNode.name :=
          List.map_congr_left fun c hc => c.usernameString_of_nul (hterm c hc)
        refine ⟨cur.overrun, ?_, hlast cur rfl⟩
        rw [hnodes, List.map_append, List.map_append, hinit, List.map_singleton, List.map_singleton,
          ← cur.name_append_overrun]
        by_cases hempty : init.map ClientNode.name = []
        · rw [hempty]
          simp [joinWith]
        · rw [joinWith_snoc _ _ hempty, joinWith_snoc _ _ hempty, List.append_assoc, List.append_assoc]
    obtain ⟨z, hz, hends⟩ := hgrown
    rw [hz, trimNewline_append _ hends, htrim]

theorem listable_iff (reg : ClientRegistry) :
    Listable reg ↔ (printedList reg).length < maxMsgLen ∧ trimNewline (printedList reg) = userList reg := by
  rw [trim_printed_iff]
  constructor
  · intro h
    exact ⟨h.fits, h.terminated, h.last, h.trimmed⟩
  · intro ⟨hfits, hterm, hlast, htrim⟩
    exact ⟨hterm, hlast, hfits, htrim⟩

theorem printed_of_terminated {reg : ClientRegistry} (h : ∀ cur ∈ reg.nodes, 0 ∈ cur.username) :
    printedList reg = userList reg :=
  congrArg (joinWith (lit ",")) (List.map_congr_left fun cur hcur => cur.usernameString_of_nul (h cur hcur))

/-- Where every name field is terminated, only the length of the list and its end count. -/
theorem listable_of_terminated {reg : ClientRegistry} (h : ∀ cur ∈ reg.nodes, 0 ∈ cur.username) : Listable reg ↔
    (userList reg).length < maxMsgLen ∧ (userList reg).getLast? ≠ some cr ∧ (userList reg).getLast? ≠ some lf := by
  rw [listable_iff, printed_of_terminated h, trimNewline_eq_iff]

/-! ## The line -/

theorem trimNewline_behind_blank (s u : Bytes) : trimNewline (s ++ sp :: u) = s ++ sp :: trimNewline u := by
  have hsp : sp ≠ lf ∧ sp ≠ cr := by decide
  induction u using List.reverseRecOn with
  | nil => exact trimNewline_snoc s hsp
  | append_singleton u c ih =>
    by_cases hc : c ≠ lf ∧ c ≠ cr
    · rw [trimNewline_snoc u hc, ← List.cons_append, ← List.append_assoc, trimNewline_snoc _ hc]
    · have hdrop : ∀ w : Bytes, trimNewline (w ++ [c]) = trimNewline w := by
        intro w
        have hb : (c == lf || c == cr) = true := by
          by_contra hn
          rw [Bool.or_eq_true, not_or, beq_iff_eq, beq_iff_eq] at hn
          exact hc hn
        simp [trimNewline, hb]
      rw [hdrop u, ← List.cons_append, ← List.append_assoc, hdrop, ih]

theorem parse_list {u : Bytes} (h0 : 0 ∉ u) (hl : u.length < maxMsgLen) :
    ∃ out, protocolParseServerLine (lit "LIST " ++ u ++ lit "\n") = (.ok, out) ∧ out.type = .list ∧
      cstr out.userList = trimNewline u := by
  have hword : lit "LIST " = lit "LIST" ++ [sp] := by decide
  have hlf : lit "\n" = [lf] := by decide
  have hlist : (lit "LIST").length = 4 := by decide
  have hpre := trimNewline_initial u
  have hlen := hpre.length_le
  simp only [maxMsgLen] at hl
  have hwhole : (lit "LIST" ++ sp :: u ++ [lf]).take (maxLineLen - 1) = lit "LIST" ++ sp :: u ++ [lf] := by
    refine List.take_of_length_le ?_
    simp only [List.length_append, List.length_cons, List.length_nil, hlist, maxLineLen]
    omega
  refine ⟨{ ParsedResp.zeroed with type := .list, userList := strncpy (zeros maxMsgLen) (trimNewline u) (maxMsgLen - 1) },
    ?_, rfl, ?_⟩
  · rw [hword, hlf, List.append_assoc (lit "LIST"), List.singleton_append, protocolParseServerLine, hwhole, trimNewline_lf,
      trimNewline_behind_blank, splitFirstToken_append (by decide) (by decide)]
    rfl
  · exact cstr_strncpy_zeros (fun h => h0 (hpre.subset h)) (by simp only [maxMsgLen]; omega) _

theorem parse_list_refused : (protocolParseServerLine (protocolBuildServerErr maxLineLen (lit "failed to build user list")).2).2.type =
    .err := by
  decide +kernel

/-! ## The command -/

section
variable {P : Platform} {i : Nat} {fd : Int} {s s' : Server}

/-- Alone on a working socket, the send loop behaves as on `Wire`, and changes nothing. -/
theorem sendLoop_served (hfd : s.holds fd = true) (buf : Bytes) : ∀ (fuel sent : Nat) {tr : List ((a : Act) × a.Ret)}
    {rc : ChatStatus} {s' : Server}, Exec (Served P i fd) (sendLoop fd buf fuel sent) s tr rc s' →
      Exec (Wire (fun _ => true) roomManagerInit) (sendLoop fd buf fuel sent) () tr rc ()
  | 0, _, _, _, _, ⟨htr, hrc, _⟩ => ⟨htr, hrc, rfl⟩
  | fuel + 1, sent, tr, rc, s', h => by
    unfold sendLoop at h ⊢
    by_cases hs : sent ≥ buf.length
    · rw [if_pos hs] at h ⊢
      exact ⟨h.1, h.2.1, rfl⟩
    · rw [if_neg hs] at h ⊢
      obtain ⟨r, s₁, tr₁, rfl, ⟨e, hworks, hx⟩, h⟩ := h
      obtain ⟨n, hn, hpos⟩ := hworks buf sent rfl
      obtain ⟨hr, hs₁⟩ := Prod.mk.inj (Option.some.inj hx)
      have htaken : (if s.holds fd then e.sent.map (min (buf.length - sent)) else none) = some (min (buf.length - sent) n) := by
        rw [if_pos hfd, hn, Option.map_some]
      have hr' : r = some (min (buf.length - sent) n) := hr.symm.trans htaken
      subst hs₁ hr'
      refine ⟨some (min (buf.length - sent) n), (), tr₁, rfl, ⟨_, rfl, by omega, by omega⟩, ?_⟩
      obtain ⟨k, hk⟩ : ∃ k, min (buf.length - sent) n = k + 1 := ⟨min (buf.length - sent) n - 1, by omega⟩
      rw [hk] at h ⊢
      exact sendLoop_served hfd buf fuel (sent + (k + 1)) h

theorem sendAll_served (hfd : s.holds fd = true) {buf : Bytes} {tr : List ((a : Act) × a.Ret)} {rc : ChatStatus}
    (h : Exec (Served P i fd) (sendAll fd buf) s tr rc s') : delivered tr fd = buf :=
  (sendAll_works rfl (sendLoop_served hfd buf _ _ h)).2.1

/-- What the requester gets: the list, or the error. -/
theorem cmdHandleList_served {n : ClientNode} (hn : (s.registry.nodes.find? fun cur => cur.sockfd == fd) = some n)
    (hfd : s.holds fd = true) {tr : List ((a : Act) × a.Ret)} {rc : ChatStatus}
    (h : Exec (Served P i fd) (cmdHandleList fd) s tr rc s') :
    delivered tr fd = if (printedList s.registry).length < maxMsgLen then lit "LIST " ++ printedList s.registry ++ lit "\n"
      else (protocolBuildServerErr maxLineLen (lit "failed to build user list")).2 := by
  obtain ⟨r₁, s₁, tr₁, rfl, ⟨e₁, -, hx₁⟩, h⟩ := h
  obtain ⟨hr₁, hs₁⟩ := Prod.mk.inj (Option.some.inj hx₁)
  rw [getUsername_alone hn] at hr₁
  subst hr₁ hs₁
  dsimp only [Prog.bind] at h
  rw [if_neg (not_not_intro rfl)] at h
  obtain ⟨⟨rc₂, users⟩, s₂, tr₂, rfl, ⟨e₂, -, hx₂⟩, h⟩ := h
  obtain ⟨hr₂, hs₂⟩ := Prod.mk.inj (Option.some.inj hx₂)
  subst hs₂
  dsimp only [Prog.bind] at h
  show delivered tr₂ fd = _
  by_cases hfit : (printedList s.registry).length < maxMsgLen
  · have hlist : registryBuildUserList s.registry maxMsgLen = (.ok, printedList s.registry) := appendJoined_fits hfit
    rw [hlist] at hr₂
    obtain ⟨rfl, rfl⟩ := Prod.mk.inj hr₂
    rw [if_neg (not_not_intro rfl)] at h
    have hbuild : protocolBuildServerList maxLineLen (printedList s.registry) =
        (.ok, lit "LIST " ++ printedList s.registry ++ lit "\n") := by
      have hword : (lit "LIST ").length = 5 := by decide
      have hlf : (lit "\n").length = 1 := by decide
      simp only [maxMsgLen] at hfit
      exact buildLine_fits (by simp only [List.length_append, hword, hlf, maxLineLen]; omega)
    rw [hbuild] at h
    rw [if_pos hfit]
    exact sendAll_served hfd h
  · have herr : rc₂ = .err :=
      (congrArg Prod.fst hr₂).symm.trans (appendJoined_overflows (by decide) (Nat.not_lt.mp hfit))
    subst herr
    rw [if_pos (by decide)] at h
    rw [if_neg hfit]
    exact sendAll_served hfd h

theorem nul_not_mem_printedList (reg : ClientRegistry) : 0 ∉ printedList reg := by
  refine not_mem_joinWith (by decide) fun item hitem => ?_
  obtain ⟨cur, -, rfl⟩ := List.mem_map.mp hitem
  exact nul_not_mem_cstr _

theorem listSent_iff {n : ClientNode} (hn : (s.registry.nodes.find? fun cur => cur.sockfd == fd) = some n)
    (hfd : s.holds fd = true) {tr : List ((a : Act) × a.Ret)} {rc : ChatStatus}
    (h : Exec (Served P i fd) (cmdHandleList fd) s tr rc s') :
    ListSent fd (onlineNames s.registry) tr ↔ Listable s.registry := by
  have hd := cmdHandleList_served hn hfd h
  rw [listable_iff]
  unfold ListSent
  rw [hd]
  by_cases hfit : (printedList s.registry).length < maxMsgLen
  · rw [if_pos hfit]
    obtain ⟨out, hparse, htype, hlist⟩ := parse_list (nul_not_mem_printedList s.registry) hfit
    rw [and_iff_right hfit, ← hlist]
    constructor
    · intro ⟨out', hparse', _, hlist'⟩
      rw [hparse] at hparse'
      rw [(Prod.mk.inj hparse').2]
      exact hlist'
    · intro he
      exact ⟨out, hparse, htype, he⟩
  · rw [if_neg hfit]
    refine iff_of_false (fun ⟨out, hparse, htype, _⟩ => ?_) fun hl => hfit hl.1
    have herr := parse_list_refused
    rw [hparse, htype] at herr
    cases herr

/-! ## Some execution -/

theorem exists_served_act {β : Type} {a : Act} {k : a.Ret → Cmd β} {r : a.Ret} {s₁ : Server} (h : Served P i fd a s r s₁)
    (hk : ∃ tr x s', Exec (Served P i fd) (k r) s₁ tr x s') :
    ∃ tr x s', Exec (Served P i fd) (Prog.op a >>= k) s tr x s' := by
  obtain ⟨tr, x, s', hx⟩ := hk
  exact ⟨⟨a, r⟩ :: tr, x, s', r, s₁, tr, rfl, h, hx⟩

theorem exists_served_sendAll (hfd : s.holds fd = true) (line : Bytes) :
    ∃ tr x s', Exec (Served P i fd) (sendAll fd line) s tr x s' := by
  unfold sendAll
  cases hl : line.length with
  | zero => exact ⟨[], .ok, s, rfl, rfl, rfl⟩
  | succ n =>
    unfold sendLoop
    rw [if_neg (by omega)]
    have hx : Served P i fd (.send fd line 0) s (some (n + 1)) s := by
      refine ⟨{ silent true with sent := some (n + 1) }, fun _ _ _ => ⟨n + 1, rfl, Nat.succ_pos n⟩, ?_⟩
      show some (if s.holds fd then (some (n + 1)).map (min (line.length - 0)) else none, s) = _
      rw [if_pos hfd, Option.map_some, Nat.sub_zero, hl, Nat.min_self]
      rfl
    refine exists_served_act hx ?_
    show ∃ tr x s', Exec (Served P i fd) (sendLoop fd line n (0 + (n + 1))) s tr x s'
    cases n with
    | zero => exact ⟨[], .ok, s, rfl, rfl, rfl⟩
    | succ n =>
      unfold sendLoop
      rw [if_pos (by omega)]
      exact ⟨[], .ok, s, rfl, rfl, rfl⟩

theorem exists_served_list {n : ClientNode} (hn : (s.registry.nodes.find? fun cur => cur.sockfd == fd) = some n)
    (hfd : s.holds fd = true) : ∃ tr rc s', Exec (Served P i fd) (cmdHandleList fd) s tr rc s' := by
  unfold cmdHandleList
  have h₁ : Served P i fd (.registryGetUsername fd) s (ChatStatus.ok, n.name) s :=
    ⟨silent true, fun _ _ h => (by cases h), congrArg (fun r => some (r, s)) (getUsername_alone hn)⟩
  refine exists_served_act h₁ ?_
  dsimp only
  rw [if_neg (not_not_intro rfl)]
  refine exists_served_act ⟨silent true, fun _ _ h => (by cases h), rfl⟩ ?_
  rcases registryBuildUserList s.registry maxMsgLen with ⟨rc, users⟩
  dsimp only
  by_cases hrc : rc ≠ .ok
  · rw [if_pos hrc]
    exact exists_served_sendAll hfd _
  · rw [if_neg hrc]
    exact exists_served_sendAll hfd _

/-- **LIST lists everyone** exactly when no name field runs on into the room behind
it and the names, joined, fit the list buffer (and do not end in a line end). -/
theorem list_sent_iff {n : ClientNode} (hn : (s.registry.nodes.find? fun cur => cur.sockfd == fd) = some n)
    (hfd : s.holds fd = true) :
    ((∃ tr rc s', Exec (Served P i fd) (cmdHandleList fd) s tr rc s') ∧
      ∀ tr rc s', Exec (Served P i fd) (cmdHandleList fd) s tr rc s' → ListSent fd (onlineNames s.registry) tr) ↔
    Listable s.registry := by
  constructor
  · intro ⟨⟨tr, rc, s', hx⟩, hall⟩
    exact (listSent_iff hn hfd hx).mp (hall tr rc s' hx)
  · intro hl
    exact ⟨exists_served_list hn hfd, fun tr rc s' hx => (listSent_iff hn hfd hx).mpr hl⟩

end

/-- The registry once these users have logged in, each on a descriptor of its own. -/
def loggedIn (users : List Bytes) : ClientRegistry :=
  users.zipIdx.foldl (fun reg u =>
    (registryAdd reg (some (filledBlock u.2 0)) (u.2 + 4 : Nat) u.1 defaultRoom false).2) registryInit

def listening (reg : ClientRegistry) : Server :=
  { serverInit [] with registry := reg, conns := reg.nodes.map fun cur => { fd := cur.sockfd, id := 0, spawned := true } }

theorem list_sent_iff_bob_ann :
    let s := listening (loggedIn [lit "bob", lit "ann"])
    (∃ tr rc s', Exec (Served plainDigest 0 4) (cmdHandleList 4) s tr rc s') ∧
      ∀ tr rc s', Exec (Served plainDigest 0 4) (cmdHandleList 4) s tr rc s' → ListSent 4 [lit "ann", lit "bob"] tr := by
  have hnames : onlineNames (loggedIn [lit "bob", lit "ann"]) = [lit "ann", lit "bob"] := by decide +kernel
  have hterm : ∀ cur ∈ (loggedIn [lit "bob", lit "ann"]).nodes, 0 ∈ cur.username := by decide +kernel
  have hfits : Listable (loggedIn [lit "bob", lit "ann"]) := (listable_of_terminated hterm).mpr (by decide +kernel)
  obtain ⟨n, hn⟩ := Option.isSome_iff_exists.mp
    (show ((loggedIn [lit "bob", lit "ann"]).nodes.find? fun cur => cur.sockfd == 4).isSome by decide +kernel)
  rw [← hnames]
  exact (@list_sent_iff plainDigest 0 4 (listening (loggedIn [lit "bob", lit "ann"])) n hn (by decide +kernel)).mpr hfits

/-- Seventeen names of 31 bytes are one byte too long for the list. -/
def longNames : List Bytes := (List.range 17).map fun k => List.replicate 30 97 ++ [97 + UInt8.ofNat k]

theorem list_not_sent : ¬ ∀ users : List Bytes, users.length ≤ maxClients → users.Nodup →
    (∀ u ∈ users, 1 ≤ u.length ∧ u.length ≤ 31 ∧ ∀ c ∈ u, 97 ≤ c ∧ c ≤ 122) →
      ∀ (P : Platform) (i : Nat) (fd : Int), ((loggedIn users).nodes.any fun cur => cur.sockfd == fd) →
        (∃ tr rc s', Exec (Served P i fd) (cmdHandleList fd) (listening (loggedIn users)) tr rc s') ∧
          ∀ tr rc s', Exec (Served P i fd) (cmdHandleList fd) (listening (loggedIn users)) tr rc s' →
            ListSent fd (onlineNames (loggedIn users)) tr := by
  intro h
  obtain ⟨⟨tr, rc, s', hx⟩, hall⟩ := h longNames (by decide) (by decide +kernel) (by decide +kernel) plainDigest 0 4
    (by decide +kernel)
  obtain ⟨n, hn⟩ := Option.isSome_iff_exists.mp
    (show ((loggedIn longNames).nodes.find? fun cur => cur.sockfd == 4).isSome by decide +kernel)
  have hl := (@listSent_iff plainDigest 0 4 (listening (loggedIn longNames)) _ n hn (by decide +kernel) tr rc hx).mp
    (hall tr rc s' hx)
  exact absurd hl.fits (by decide +kernel)

end ChatServer

import ChatServer.Accounts

/-!
# The lines of the accounts file

`auth_init` reads the file in pieces of at most 511 bytes and takes each piece
for a line. The loader is followed here with the place in the file where each
record was read, and compared with the physical lines.
-/

namespace ChatServer

open CStr

/-- The bytes that one `fgets` reads at most. -/
def pieceLen : Nat := lineSize - 1

theorem pieceLen_pos : 0 < pieceLen := by decide

/-- The record of a text that ends at its first CR. -/
def parseLine (w : Bytes) : Option UserRecord := parseAccount (w.takeWhile (· != cr))

/-- The fields of a line that is neither blank nor a comment and matches. -/
def accountLine (line : Bytes) : Option (Bytes × Bytes × Bytes) :=
  let w := line.takeWhile (· != cr)
  if w.head? = some 35 ∨ w = [] then none else scanAccount w

def recordOf (fields : Bytes × Bytes × Bytes) : UserRecord :=
  { username := fields.1
    passwordHash := fields.2.1
    isAdmin := fields.2.2.head? == some 49 || strcaseeq fields.2.2 (lit "admin") || strcaseeq fields.2.2 (lit "true") ||
      strcaseeq fields.2.2 (lit "yes") }

theorem parseLine_eq (w : Bytes) : parseLine w = (accountLine w).map recordOf := by
  unfold parseLine parseAccount accountLine
  simp only
  split
  · rfl
  · rfl

/-- The record that the loop makes of the piece it reads here. -/
def recordAt (s : Bytes) : Option UserRecord := parseAccount (stripLine (cstr (fgets pieceLen s).1))

/-- The loop of `auth_init`, where each record keeps the place it was read at. -/
def loadTraced (mem : Nat → Bool) : Nat → Bytes → List (Bytes × UserRecord) → Option (List (Bytes × UserRecord))
  | 0, _, db => some db
  | fuel + 1, file, db =>
    if file = [] then some db
    else
      let rest := (fgets pieceLen file).2
      match recordAt file with
      | none => loadTraced mem fuel rest db
      | some rec => if mem db.length then loadTraced mem fuel rest ((file, rec) :: db) else none

/-- The entry for what was read here, if it is a record. -/
def entryAt (s : Bytes) (rec : Option UserRecord) : List (Bytes × UserRecord) := (rec.map (Prod.mk s)).toList

/-- The records of some reads. -/
def readRecords (starts : List Bytes) : List (Bytes × UserRecord) := starts.flatMap fun s => entryAt s (recordAt s)

/-- A record for each line that is no comment and matches, read where the line begins. -/
def lineRecords (file : Bytes) : List (Bytes × UserRecord) :=
  (lineStarts file).flatMap fun s => entryAt s ((accountLine (lineOf s)).map recordOf)

/-- The first piece of a line gives the record of the line, and its other pieces give none. -/
def ReadWhole (w : Bytes) : Prop :=
  parseLine (w.take pieceLen) = parseLine w ∧ ∀ k, 0 < k → parseLine ((w.drop (pieceLen * k)).take pieceLen) = none

theorem loadTraced_erase {mem : Nat → Bool} : ∀ (fuel : Nat) (file : Bytes) (db : List (Bytes × UserRecord)),
    (loadTraced mem fuel file db).map (List.map Prod.snd) = loadAccounts mem fuel file (db.map Prod.snd)
  | 0, _, _ => rfl
  | fuel + 1, file, db => by
    rw [loadTraced, loadAccounts]
    by_cases hfile : file = []
    · rw [if_pos hfile, if_pos hfile]
      rfl
    rw [if_neg hfile, if_neg hfile]
    have hrec : parseAccount (stripLine (cstr (fgets (lineSize - 1) file).1)) = recordAt file := rfl
    simp only [hrec]
    cases recordAt file with
    | none => exact loadTraced_erase fuel _ db
    | some rec =>
      simp only [List.length_map]
      split
      · exact loadTraced_erase fuel _ ((file, rec) :: db)
      · rfl

theorem loadTraced_reads {mem : Nat → Bool} : ∀ (fuel : Nat) {file : Bytes} {db db' : List (Bytes × UserRecord)},
    file.length ≤ fuel → loadTraced mem fuel file db = some db' →
      db' = (readRecords (reads pieceLen file)).reverse ++ db
  | 0, file, db, db', hfuel, h => by
    obtain rfl := List.length_eq_zero_iff.mp (Nat.le_zero.mp hfuel)
    cases h
    rw [reads_nil]
    rfl
  | fuel + 1, file, db, db', hfuel, h => by
    rw [loadTraced] at h
    by_cases hfile : file = []
    · rw [if_pos hfile] at h
      cases h
      rw [hfile, reads_nil]
      rfl
    have hlt := fgets_shorter pieceLen_pos hfile
    rw [if_neg hfile] at h
    rw [reads_eq pieceLen_pos hfile, readRecords, List.flatMap_cons]
    cases hrec : recordAt file with
    | none =>
      simp only [hrec] at h
      exact loadTraced_reads fuel (by omega) h
    | some rec =>
      simp only [hrec] at h
      split at h
      · rw [loadTraced_reads fuel (by omega) h, List.reverse_append, List.append_assoc]
        rfl
      · cases h

/-! ## Reads and records -/

theorem recordAt_eq {s : Bytes} (h0 : 0 ∉ s) : recordAt s = parseLine ((lineOf s).take pieceLen) := by
  rw [recordAt, parseLine, stripLine, cstr_of_nulFree fun h => h0 (fgets_subset _ _ _ h), (fgets_eq pieceLen s).1]

/-- No read of the line makes a record exactly when none of its pieces is one. -/
theorem lineReads_none {s : Bytes} (h0 : 0 ∉ s) : (∀ t ∈ lineReads pieceLen s, recordAt t = none) ↔
    ∀ k, parseLine (((lineOf s).drop (pieceLen * k)).take pieceLen) = none := by
  have hempty : parseLine [] = none := rfl
  have hpast : ∀ {w : Bytes} {k : Nat}, w.length ≤ pieceLen * k → parseLine ((w.drop (pieceLen * k)).take pieceLen) = none := by
    intro w k hk
    rw [List.drop_eq_nil_of_le hk, List.take_nil, hempty]
  induction hn : s.length using Nat.strongRecOn generalizing s with
  | _ n ih =>
    subst hn
    by_cases hs : s = []
    · subst hs
      rw [lineReads_nil]
      exact iff_of_true (fun t ht => absurd ht List.not_mem_nil) fun k => hpast (Nat.zero_le _)
    by_cases hshort : (lineOf s).length < pieceLen
    · rw [lineReads_short pieceLen_pos hs hshort, List.forall_mem_singleton, recordAt_eq h0]
      constructor
      · intro h k
        rcases Nat.eq_zero_or_pos k with rfl | hk
        · exact h
        · exact hpast ((Nat.le_of_lt hshort).trans (Nat.le_mul_of_pos_right _ hk))
      · exact fun h => h 0
    · have hrest : (∀ t ∈ lineReads pieceLen (s.drop pieceLen), recordAt t = none) ↔ _ :=
        ih _ (drop_shorter pieceLen_pos hs) (fun h => h0 (List.mem_of_mem_drop h)) rfl
      rw [lineReads_long pieceLen_pos hs hshort, List.forall_mem_cons, recordAt_eq h0, hrest, (lineOf_drop (Nat.le_of_not_lt hshort)).1]
      simp only [List.drop_drop]
      constructor
      · rintro ⟨hfirst, hrest⟩ k
        rcases k with _ | k
        · exact hfirst
        · rw [Nat.mul_succ, Nat.add_comm]
          exact hrest k
      · intro h
        refine ⟨h 0, fun k => ?_⟩
        have hk := h (k + 1)
        rwa [Nat.mul_succ, Nat.add_comm] at hk

/-! ## The lines of the file -/

theorem mem_entryAt {s : Bytes} {rec : Option UserRecord} {x : Bytes × UserRecord} (hx : x ∈ entryAt s rec) : x.1 = s := by
  obtain ⟨r, -, rfl⟩ := Option.map_eq_some_iff.mp (Option.mem_toList.mp hx)
  rfl

theorem entryAt_inj {s : Bytes} {rec rec' : Option UserRecord} : entryAt s rec = entryAt s rec' ↔ rec = rec' := by
  unfold entryAt
  cases rec <;> cases rec' <;> simp

theorem mem_readRecords {starts : List Bytes} {x : Bytes × UserRecord} (hx : x ∈ readRecords starts) : x.1 ∈ starts := by
  obtain ⟨t, ht, hx⟩ := List.mem_flatMap.mp hx
  rwa [mem_entryAt hx]

theorem readRecords_nil_iff {starts : List Bytes} : readRecords starts = [] ↔ ∀ t ∈ starts, recordAt t = none := by
  have hentry : ∀ t, entryAt t (recordAt t) = [] ↔ recordAt t = none := fun t => @entryAt_inj t (recordAt t) none
  simp only [readRecords, List.flatMap_eq_nil_iff, hentry]

/-- The records of a line's reads are the line's record exactly when the line is read whole. -/
theorem lineReads_iff {s : Bytes} (h0 : 0 ∉ s) (hs : s ≠ []) :
    readRecords (lineReads pieceLen s) = entryAt s (parseLine (lineOf s)) ↔ ReadWhole (lineOf s) := by
  by_cases hshort : (lineOf s).length < pieceLen
  · have hsingle : readRecords [s] = entryAt s (recordAt s) := List.append_nil _
    rw [lineReads_short pieceLen_pos hs hshort, hsingle, entryAt_inj, recordAt_eq h0]
    refine ⟨fun h => ⟨h, fun k hk => ?_⟩, And.left⟩
    rw [List.drop_eq_nil_of_le ((Nat.le_of_lt hshort).trans (Nat.le_mul_of_pos_right _ hk))]
    rfl
  · -- a record read where the line begins is told from the others by its place
    have hsplit : entryAt s (recordAt s) ++ readRecords (lineReads pieceLen (s.drop pieceLen)) = entryAt s (parseLine (lineOf s)) ++ [] ↔ _ :=
      append_eq_append_iff_of_split (p := fun x => decide (x.1 = s)) (fun x hx => decide_eq_true (mem_entryAt hx))
        (fun x hx => decide_eq_false fun he => ?_) (fun x hx => decide_eq_true (mem_entryAt hx))
        fun x hx => absurd hx List.not_mem_nil
    · rw [List.append_nil] at hsplit
      have hpieces : (∀ k, parseLine (((lineOf s).drop (pieceLen + pieceLen * k)).take pieceLen) = none) ↔
          ∀ k, 0 < k → parseLine (((lineOf s).drop (pieceLen * k)).take pieceLen) = none := by
        refine ⟨fun h k hk => ?_, fun h k => ?_⟩
        · obtain ⟨j, rfl⟩ := Nat.exists_eq_succ_of_ne_zero (Nat.ne_of_gt hk)
          have hj := h j
          rwa [Nat.add_comm, ← Nat.mul_succ] at hj
        · have hk := h (k + 1) (Nat.succ_pos k)
          rwa [Nat.mul_succ, Nat.add_comm] at hk
      have hrest := lineReads_none (s := s.drop pieceLen) fun h => h0 (List.mem_of_mem_drop h)
      rw [(lineOf_drop (Nat.le_of_not_lt hshort)).1] at hrest
      simp only [List.drop_drop] at hrest
      rw [lineReads_long pieceLen_pos hs hshort]
      show entryAt s (recordAt s) ++ readRecords (lineReads pieceLen (s.drop pieceLen)) = _ ↔ _
      rw [hsplit, entryAt_inj, recordAt_eq h0, readRecords_nil_iff, hrest, hpieces]
      rfl
    · have hlen := (lineReads_length (mem_readRecords hx)).2
      have hlt := drop_shorter pieceLen_pos hs
      rw [he] at hlen
      omega

theorem readRecords_iff {s : Bytes} (h0 : 0 ∉ s) :
    readRecords (reads pieceLen s) = lineRecords s ↔ ∀ w ∈ physicalLines s, ReadWhole w := by
  induction hn : s.length using Nat.strongRecOn generalizing s with
  | _ n ih =>
    subst hn
    by_cases hs : s = []
    · subst hs
      rw [reads_nil, lineRecords, physicalLines, lineStarts, dif_pos rfl]
      exact iff_of_true rfl fun w hw => absurd hw List.not_mem_nil
    have hrest := ih _ (afterLine_shorter hs) (fun h => h0 (afterLine_subset s _ h)) rfl
    have hreads : readRecords (reads pieceLen s) = readRecords (lineReads pieceLen s) ++ readRecords (reads pieceLen (afterLine s)) := by
      rw [reads_line pieceLen_pos]
      exact List.flatMap_append
    have hlines : lineRecords s = entryAt s (parseLine (lineOf s)) ++ lineRecords (afterLine s) := by
      rw [lineRecords, lineStarts, dif_neg hs, List.flatMap_cons, parseLine_eq]
      rfl
    have hbehind : ∀ x ∈ lineRecords (afterLine s), x.1.length ≤ (afterLine s).length := by
      intro x hx
      obtain ⟨t, ht, hx⟩ := List.mem_flatMap.mp hx
      rw [mem_entryAt hx]
      exact lineStarts_length ht
    -- the records of this line and those behind it are told apart by what is left of the file
    have hsplit : readRecords (lineReads pieceLen s) ++ readRecords (reads pieceLen (afterLine s)) =
        entryAt s (parseLine (lineOf s)) ++ lineRecords (afterLine s) ↔ _ :=
      append_eq_append_iff_of_split (p := fun x => decide ((afterLine s).length < x.1.length))
        (fun x hx => decide_eq_true (lineReads_length (mem_readRecords hx)).1)
        (fun x hx => decide_eq_false (Nat.not_lt.mpr (reads_length (mem_readRecords hx))))
        (fun x hx => decide_eq_true (by rw [mem_entryAt hx]; exact afterLine_shorter hs))
        (fun x hx => decide_eq_false (Nat.not_lt.mpr (hbehind x hx)))
    rw [hreads, hlines, hsplit, lineReads_iff h0 hs, hrest, physicalLines_cons hs, List.forall_mem_cons]

/-- **The accounts are the lines of the file** exactly when every line is read
whole: then each record was read where a line begins and is that line's record, and
each line that is no comment and matches has given one. -/
theorem accounts_lines_iff {mem : Nat → Bool} {file : Bytes} (h0 : 0 ∉ file) {db : List (Bytes × UserRecord)}
    (hload : loadTraced mem file.length file [] = some db) :
    loadAccounts mem file.length file [] = some (db.map Prod.snd) ∧
      (db.reverse = lineRecords file ↔ ∀ w ∈ physicalLines file, ReadWhole w) := by
  constructor
  · have herase := @loadTraced_erase mem file.length file []
    rw [hload] at herase
    exact herase.symm
  · have hdb := loadTraced_reads file.length (Nat.le_refl _) hload
    rw [hdb, List.append_nil, List.reverse_reverse]
    exact readRecords_iff h0

/-- A line that one `fgets` reads. -/
theorem readWhole_of_le {w : Bytes} (h : w.length ≤ pieceLen) : ReadWhole w := by
  refine ⟨by rw [List.take_of_length_le h], fun k hk => ?_⟩
  rw [List.drop_eq_nil_of_le (h.trans (Nat.le_mul_of_pos_right _ hk))]
  rfl

theorem accounts_lines_iff_bob :
    let bob : UserRecord := { username := lit "bob", passwordHash := lit "ff", isAdmin := true }
    [(lit "bob:ff:1\n", bob)] = lineRecords (lit "bob:ff:1\n") := by
  intro bob
  have hline : lineOf (lit "bob:ff:1\n") = lit "bob:ff:1" := by decide
  have hlast : afterLine (lit "bob:ff:1\n") = [] := by decide
  refine (@accounts_lines_iff (fun _ => true) (lit "bob:ff:1\n") (by decide) [(lit "bob:ff:1\n", bob)] (by decide +kernel)).2.mpr ?_
  rw [physicalLines_cons (by decide), hline, hlast, physicalLines_nil, List.forall_mem_singleton]
  exact readWhole_of_le (by decide)

/-- A comment of 519 bytes; its last bytes are read as a piece of their own. -/
def longComment : Bytes := 35 :: List.replicate 510 120 ++ lit "eve:ff:1"

theorem comment_loaded :
    physicalLines longComment = [longComment] ∧ longComment.head? = some 35 ∧ 0 ∉ longComment ∧
      authInit (fun _ => true) (some longComment) =
        (.ok, [{ username := lit "eve", passwordHash := lit "ff", isAdmin := true }]) ∧
      ∃ db, loadTraced (fun _ => true) longComment.length longComment [] = some db ∧ db.reverse ≠ lineRecords longComment := by
  have h0 : 0 ∉ longComment := by decide +kernel
  have hline : lineOf longComment = longComment := by decide +kernel
  have hlast : afterLine longComment = [] := by decide +kernel
  have hlines : physicalLines longComment = [longComment] := by
    rw [physicalLines_cons (by decide), hline, hlast, physicalLines_nil]
  obtain ⟨db, hdb⟩ := Option.isSome_iff_exists.mp
    (show (loadTraced (fun _ => true) longComment.length longComment []).isSome by decide +kernel)
  refine ⟨hlines, rfl, h0, by decide +kernel, db, hdb, fun h => ?_⟩
  have hreads := loadTraced_reads longComment.length (Nat.le_refl _) hdb
  rw [List.append_nil] at hreads
  rw [hreads, List.reverse_reverse, readRecords_iff h0, hlines, List.forall_mem_singleton] at h
  have htail := h.2 1 (by decide)
  exact absurd htail (by decide +kernel)

/-! ## Which line decides -/

/-- The fields of the user's last line. -/
def lastLine (file username : Bytes) : Option (Bytes × Bytes × Bytes) :=
  (((physicalLines file).filterMap accountLine).filter fun fields => fields.1 == username).getLast?

def AdminFlag (flag : Bytes) : Prop :=
  flag.head? = some 49 ∨ strcaseeq flag (lit "admin") = true ∨ strcaseeq flag (lit "true") = true ∨ strcaseeq flag (lit "yes") = true

theorem recordOf_isAdmin {fields : Bytes × Bytes × Bytes} : (recordOf fields).isAdmin = true ↔ AdminFlag fields.2.2 := by
  simp only [recordOf, AdminFlag, Bool.or_eq_true, beq_iff_eq, or_assoc]

section
variable {mem : Nat → Bool} {file : Bytes} {db : AuthDb}

theorem authInit_ok (h : authInit mem (some file) = (.ok, db)) : loadAccounts mem file.length file [] = some db := by
  unfold authInit at h
  simp only at h
  split at h
  · cases h
  · cases h
  · rename_i hload
    cases h
    exact hload

/-- Where every line is read whole, the database is the list of its lines, the last one first. -/
theorem authInit_lines (h0 : 0 ∉ file) (hread : ∀ w ∈ physicalLines file, ReadWhole w) (h : authInit mem (some file) = (.ok, db)) :
    db = (((physicalLines file).filterMap accountLine).map recordOf).reverse := by
  have herase := @loadTraced_erase mem file.length file []
  rw [List.map_nil, authInit_ok h, Option.map_eq_some_iff] at herase
  obtain ⟨traced, htraced, rfl⟩ := herase
  have hreads := loadTraced_reads file.length (Nat.le_refl _) htraced
  rw [List.append_nil, (readRecords_iff h0).mpr hread] at hreads
  have hone : ∀ s, (entryAt s ((accountLine (lineOf s)).map recordOf)).map Prod.snd = ((accountLine (lineOf s)).map recordOf).toList := by
    intro s
    cases accountLine (lineOf s) <;> rfl
  rw [hreads, List.map_reverse, lineRecords, List.map_flatMap, physicalLines]
  simp only [hone]
  rw [List.map_filterMap, List.filterMap_map, List.filterMap_eq_flatMap_toList]
  rfl

/-- The first record of the name is that of its last line. -/
theorem find_lastLine (h0 : 0 ∉ file) (hread : ∀ w ∈ physicalLines file, ReadWhole w) (h : authInit mem (some file) = (.ok, db))
    (username : Bytes) : (db.find? fun cur => cur.username == username) = (lastLine file username).map recordOf := by
  rw [authInit_lines h0 hread h, ← List.map_reverse, List.find?_map, lastLine, ← List.head?_reverse, ← List.filter_reverse,
    List.head?_filter]
  rfl

/-- **The last line decides**: a password is right exactly when its hash stands in the
user's last line, and the user is an admin exactly when that line's flag says so. -/
theorem last_line_decides {P : Platform} (h0 : 0 ∉ file) (hlen : ∀ w ∈ physicalLines file, w.length ≤ 510)
    (h : authInit mem (some file) = (.ok, db)) (username password : Bytes) :
    (authVerify P true db username password = .ok ↔
      ∃ hash flag, lastLine file username = some (username, hash, flag) ∧ hash = passwordHex P password) ∧
    (authIsAdmin db username = true ↔ ∃ hash flag, lastLine file username = some (username, hash, flag) ∧ AdminFlag flag) := by
  have hread : ∀ w ∈ physicalLines file, ReadWhole w := fun w hw => readWhole_of_le ((hlen w hw).trans (by decide))
  have hfind := find_lastLine h0 hread h username
  have hname : ∀ fields, lastLine file username = some fields → fields.1 = username := by
    intro fields hf
    have hmem := List.mem_of_getLast? hf
    simpa using (List.mem_filter.mp hmem).2
  constructor
  · rw [authVerify_ok_iff, hashOf, hfind, Option.map_map, Option.map_eq_some_iff]
    constructor
    · rintro ⟨⟨u, hash, flag⟩, hf, hhash⟩
      obtain rfl : u = username := hname _ hf
      exact ⟨hash, flag, hf, hhash⟩
    · rintro ⟨hash, flag, hf, hhash⟩
      exact ⟨_, hf, hhash⟩
  · rw [authIsAdmin, hfind]
    cases hf : lastLine file username with
    | none => exact iff_of_false Bool.false_ne_true fun ⟨_, _, hsome, _⟩ => (Option.some_ne_none _ hsome.symm).elim
    | some fields =>
      obtain ⟨u, hash, flag⟩ := fields
      obtain rfl : u = username := hname _ hf
      constructor
      · intro hadmin
        exact ⟨hash, flag, rfl, recordOf_isAdmin.mp hadmin⟩
      · rintro ⟨hash', flag', hsome, hflag⟩
        obtain ⟨-, rfl, rfl⟩ : u = u ∧ hash = hash' ∧ flag = flag' := by simpa using hsome
        exact recordOf_isAdmin.mpr hflag

end

/-- Two lines for `bob`, the last one without the flag and with the digest of `pw`. -/
def twoLines : Bytes := lit "bob:ff:1\nbob:7077:0\n"

theorem last_line_decides_bob : authVerify plainDigest true (authInit (fun _ => true) (some twoLines)).2 (lit "bob") (lit "pw") = .ok ∧
    authIsAdmin (authInit (fun _ => true) (some twoLines)).2 (lit "bob") ≠ true := by
  have hlines : physicalLines twoLines = [lit "bob:ff:1", lit "bob:7077:0"] := by
    have hfirst : lineOf twoLines = lit "bob:ff:1" ∧ afterLine twoLines = lit "bob:7077:0\n" := by decide
    have hsecond : lineOf (lit "bob:7077:0\n") = lit "bob:7077:0" ∧ afterLine (lit "bob:7077:0\n") = [] := by decide
    rw [physicalLines_cons (by decide), hfirst.1, hfirst.2, physicalLines_cons (by decide), hsecond.1, hsecond.2,
      physicalLines_nil]
  have hlen : ∀ w ∈ physicalLines twoLines, w.length ≤ 510 := by
    rw [hlines]
    decide
  have hload : authInit (fun _ => true) (some twoLines) = (.ok, (authInit (fun _ => true) (some twoLines)).2) :=
    Prod.ext (by decide +kernel) rfl
  have hlast : lastLine twoLines (lit "bob") = some (lit "bob", lit "7077", lit "0") := by
    rw [lastLine, hlines]
    decide +kernel
  have hdecides := last_line_decides (P := plainDigest) (by decide) hlen hload (lit "bob") (lit "pw")
  refine ⟨hdecides.1.mpr ⟨lit "7077", lit "0", hlast, by decide⟩, fun hadmin => ?_⟩
  obtain ⟨hash, flag, hsome, hflag⟩ := hdecides.2.mp hadmin
  rw [hlast] at hsome
  obtain ⟨-, rfl, rfl⟩ : lit "bob" = lit "bob" ∧ lit "7077" = hash ∧ lit "0" = flag := by simpa using hsome
  exact absurd hflag (by unfold AdminFlag; decide)

end ChatServer

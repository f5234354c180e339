import Mathlib.Data.List.TakeWhile
import ChatServer.Auth
import ChatServer.FramingSound
import ChatServer.Separators
import ChatServer.TextLines

/-!
# The accounts file and the login line

`auth_init` reads the accounts with `fgets` and `sscanf`. It takes any name of
1 to 31 bytes without a colon, while the `AUTH` line ends the name at the first
blank: an account whose name has a blank is loaded, and its own login line asks
for another one.
-/

namespace ChatServer

open CStr

def colon : UInt8 := 58

def sha256HexLen : Nat := 65

def lineSize : Nat := 512

/-! ## Reading the file -/

/-- `strip_line`: the string ends at its first LF, and then at its first CR. -/
def stripLine (s : Bytes) : Bytes := (s.takeWhile (· != lf)).takeWhile (· != cr)

/-- `%<width>[^:]` -/
def scanNotColon (width : Nat) (s : Bytes) : Option (Bytes × Bytes) :=
  let tok := (s.take width).takeWhile (· != colon)
  if tok = [] then none else some (tok, s.drop tok.length)

/-- The literal `:` of the format. -/
def scanColon : Bytes → Option Bytes
  | [] => none
  | c :: s => if c = colon then some s else none

def isSpace (c : UInt8) : Bool := c == 32 || (9 ≤ c && c ≤ 13)

/-- `%<width>s` -/
def scanWord (width : Nat) (s : Bytes) : Option Bytes :=
  let tok := ((s.dropWhile isSpace).take width).takeWhile fun c => !isSpace c
  if tok = [] then none else some tok

/-- `sscanf(line, "%31[^:]:%64[^:]:%7s", username, hash, admin_flag)` where it returns 3. -/
def scanAccount (line : Bytes) : Option (Bytes × Bytes × Bytes) :=
  match scanNotColon (maxUsernameLen - 1) line with
  | none => none
  | some (username, s) =>
    match scanColon s with
    | none => none
    | some s =>
      match scanNotColon (sha256HexLen - 1) s with
      | none => none
      | some (hash, s) =>
        match scanColon s with
        | none => none
        | some s => (scanWord 7 s).map fun adminFlag => (username, hash, adminFlag)

def toLower (c : UInt8) : UInt8 := if 65 ≤ c ∧ c ≤ 90 then c + 32 else c

def strcaseeq (a b : Bytes) : Bool := a.map toLower == b.map toLower

/-- The record of one line, if the line has one. -/
def parseAccount (line : Bytes) : Option UserRecord :=
  if line.head? = some 35 ∨ line = [] then none
  else
    (scanAccount line).map fun (username, hash, adminFlag) =>
      { username := username
        passwordHash := hash
        isAdmin := adminFlag.head? == some 49 || strcaseeq adminFlag (lit "admin") || strcaseeq adminFlag (lit "true") ||
          strcaseeq adminFlag (lit "yes") }

/-- The loop of `auth_init`, with fuel for the lines; `mem` says which calls of
`malloc` return a block, and a record goes to the front of the list. -/
def loadAccounts (mem : Nat → Bool) : Nat → Bytes → AuthDb → Option AuthDb
  | 0, _, db => some db
  | fuel + 1, file, db =>
    if file = [] then some db
    else
      let (line, file) := fgets (lineSize - 1) file
      match parseAccount (stripLine (cstr line)) with
      | none => loadAccounts mem fuel file db
      | some rec => if mem db.length then loadAccounts mem fuel file (rec :: db) else none

/-- `auth_init`; the file is `none` where the mutex or the file cannot be had. Every
line has a byte, so the length of the file is fuel enough. -/
def authInit (mem : Nat → Bool) : Option Bytes → ChatStatus × AuthDb
  | none => (.err, [])
  | some file =>
    match loadAccounts mem file.length file [] with
    | none => (.errNomem, [])
    | some [] => (.err, [])
    | some db => (.ok, db)

/-- The fuel that `authInit` gives is enough: more of it changes nothing. -/
theorem loadAccounts_fuel {mem : Nat → Bool} : ∀ (fuel : Nat) {file : Bytes} {db : AuthDb}, file.length ≤ fuel →
    loadAccounts mem (fuel + 1) file db = loadAccounts mem fuel file db
  | 0, file, db, h => by
    rw [List.length_eq_zero_iff.mp (Nat.le_zero.mp h)]
    rfl
  | fuel + 1, file, db, h => by
    rw [loadAccounts, loadAccounts]
    by_cases hfile : file = []
    · rw [if_pos hfile, if_pos hfile]
    · have hlt := fgets_shorter (n := lineSize - 1) (by decide) hfile
      have ih : ∀ db, loadAccounts mem (fuel + 1) (fgets (lineSize - 1) file).2 db =
          loadAccounts mem fuel (fgets (lineSize - 1) file).2 db := fun _ => loadAccounts_fuel fuel (by omega)
      rw [if_neg hfile, if_neg hfile]
      simp only [ih]

/-! ## What a loaded account is -/

structure Loaded (rec : UserRecord) : Prop where
  username_ne : rec.username ≠ []
  username_le : rec.username.length ≤ maxUsernameLen - 1
  username_noNul : 0 ∉ rec.username
  username_noLf : lf ∉ rec.username
  username_noCr : cr ∉ rec.username
  username_noColon : colon ∉ rec.username

theorem not_mem_takeWhile_ne (c : UInt8) (s : Bytes) : c ∉ s.takeWhile (· != c) := by
  intro h
  simpa using List.mem_takeWhile_imp h

theorem stripLine_subset (s : Bytes) : ∀ c ∈ stripLine s, c ∈ s := fun _ hc =>
  (List.takeWhile_prefix _).subset ((List.takeWhile_prefix _).subset hc)

theorem lf_not_mem_stripLine (s : Bytes) : lf ∉ stripLine s :=
  fun h => not_mem_takeWhile_ne lf s ((List.takeWhile_prefix _).subset h)

theorem cr_not_mem_stripLine (s : Bytes) : cr ∉ stripLine s := not_mem_takeWhile_ne cr _

theorem scanNotColon_inv {width : Nat} {s tok rest : Bytes} (h : scanNotColon width s = some (tok, rest)) :
    tok ≠ [] ∧ tok.length ≤ width ∧ colon ∉ tok ∧ ∀ c ∈ tok, c ∈ s := by
  by_cases hne : (s.take width).takeWhile (· != colon) = []
  · simp only [scanNotColon, if_pos hne] at h
    cases h
  · simp only [scanNotColon, if_neg hne] at h
    cases h
    have hpre := List.takeWhile_prefix (l := s.take width) (· != colon)
    refine ⟨hne, ?_, not_mem_takeWhile_ne colon _, fun c hc => List.mem_of_mem_take (hpre.subset hc)⟩
    have := hpre.length_le
    rw [List.length_take] at this
    omega

theorem scanAccount_username {line username hash adminFlag : Bytes}
    (h : scanAccount line = some (username, hash, adminFlag)) :
    ∃ rest, scanNotColon (maxUsernameLen - 1) line = some (username, rest) := by
  unfold scanAccount at h
  split at h
  · cases h
  · rename_i u s hu
    split at h
    · cases h
    · split at h
      · cases h
      · split at h
        · cases h
        · obtain ⟨_, -, he⟩ := Option.map_eq_some_iff.mp h
          cases he
          exact ⟨s, hu⟩

theorem parseAccount_loaded {chunk : Bytes} {rec : UserRecord} (h : parseAccount (stripLine (cstr chunk)) = some rec) :
    Loaded rec := by
  unfold parseAccount at h
  split at h
  · cases h
  · obtain ⟨⟨u, hash, flag⟩, hscan, rfl⟩ := Option.map_eq_some_iff.mp h
    obtain ⟨rest, hu⟩ := scanAccount_username hscan
    obtain ⟨hne, hle, hcolon, hsub⟩ := scanNotColon_inv hu
    exact {
      username_ne := hne
      username_le := hle
      username_noNul := fun h0 => nul_not_mem_cstr chunk (stripLine_subset _ _ (hsub _ h0))
      username_noLf := fun h0 => lf_not_mem_stripLine _ (hsub _ h0)
      username_noCr := fun h0 => cr_not_mem_stripLine _ (hsub _ h0)
      username_noColon := hcolon }

theorem loadAccounts_loaded {mem : Nat → Bool} : ∀ (fuel : Nat) {file : Bytes} {db db' : AuthDb},
    (∀ rec ∈ db, Loaded rec) → loadAccounts mem fuel file db = some db' → ∀ rec ∈ db', Loaded rec
  | 0, _, _, _, hdb, h => by
    cases h
    exact hdb
  | fuel + 1, file, db, db', hdb, h => by
    rw [loadAccounts] at h
    by_cases hfile : file = []
    · rw [if_pos hfile] at h
      cases h
      exact hdb
    · rw [if_neg hfile] at h
      cases hrec : parseAccount (stripLine (cstr (fgets (lineSize - 1) file).1)) with
      | none =>
        simp only [hrec] at h
        exact loadAccounts_loaded fuel hdb h
      | some rec =>
        simp only [hrec] at h
        by_cases hmem : mem db.length = true
        · rw [if_pos hmem] at h
          refine loadAccounts_loaded fuel ?_ h
          intro r hr
          rcases List.mem_cons.mp hr with rfl | hr
          · exact parseAccount_loaded hrec
          · exact hdb r hr
        · rw [if_neg hmem] at h
          cases h

/-- Every record that `auth_init` leaves in the database has a name of the scan format. -/
theorem authInit_loaded {mem : Nat → Bool} {file : Option Bytes} {db : AuthDb} (h : authInit mem file = (.ok, db)) :
    ∀ rec ∈ db, Loaded rec := by
  unfold authInit at h
  split at h
  · cases h
  · rename_i file
    split at h
    · cases h
    · cases h
    · rename_i db' _ hload
      cases h
      have hnil : ∀ rec ∈ ([] : AuthDb), Loaded rec := fun _ h => absurd h List.not_mem_nil
      exact loadAccounts_loaded file.length hnil hload

/-! ## Logging in -/

/-- The hash that `auth_verify` compares with for a username. -/
def hashOf (db : AuthDb) (username : Bytes) : Option Bytes :=
  (db.find? fun cur => cur.username == username).map UserRecord.passwordHash

def passwordHex (P : Platform) (password : Bytes) : Bytes := hexString (P.sha256 password)

theorem authVerify_ok_iff {P : Platform} {db : AuthDb} {username password : Bytes} :
    authVerify P true db username password = .ok ↔ hashOf db username = some (passwordHex P password) := by
  unfold authVerify authHashPassword hashOf passwordHex
  rw [if_pos rfl]
  simp only
  cases db.find? fun cur => cur.username == username with
  | none => exact iff_of_false (fun h => by cases h) (fun h => by cases h)
  | some cur =>
    simp only [Option.map_some, Option.some.injEq, beq_iff_eq]
    by_cases hh : cur.passwordHash = hexString (P.sha256 password)
    · rw [if_pos hh]
      exact iff_of_true rfl hh
    · rw [if_neg hh]
      exact iff_of_false (fun h => by cases h) hh

/-- The first line off the socket, parsed, and its fields passed to `auth_verify`. -/
def login (P : Platform) (db : AuthDb) (sock : List Recv) (buf : Bytes) : ChatStatus :=
  match serverRecvLine sock buf maxLineLen with
  | (.ok, buf, _) =>
    match protocolParseClientLine (cstr buf) with
    | (.ok, cmd) => if cmd.cmd = .auth then authVerify P true db (cstr cmd.arg1) (cstr cmd.arg2) else .errAuth
    | (rc, _) => rc
  | (rc, _, _) => rc

structure Password (p : Bytes) : Prop extends Last p where
  field : Field maxMsgLen p

/-- The parser's reading of an `AUTH` line: the name ends at the first blank. -/
theorem parse_auth_fields {a b : Bytes} (h0 : 0 ∉ lit "AUTH" ++ sp :: (a ++ sp :: b)) (ha : sp ∉ a) {cmd : ParsedCmd}
    (hparse : protocolParseClientLine (lit "AUTH" ++ sp :: (a ++ sp :: b)) = (.ok, cmd)) (hauth : cmd.cmd = .auth) :
    cstr cmd.arg1 = a ∧ cstr cmd.arg2 = b ∧ Name a ∧ Field maxMsgLen b := by
  have hr := parse_client_sound h0 hparse
  rw [hauth] at hr
  generalize hu : cstr cmd.arg1 = u at hr
  generalize hp : cstr cmd.arg2 = p at hr
  generalize hline : lit "AUTH" ++ sp :: (a ++ sp :: b) = line at hr
  cases hr with
  | auth hname hfield =>
    have hrest := List.append_cancel_left hline
    obtain ⟨rfl, hab⟩ := Separators.split_first ha hname.noSp (List.cons.inj hrest).2
    subst hab
    exact ⟨rfl, rfl, hname, hfield⟩

section
variable {P : Platform} {db : AuthDb} {sock : List Recv} {buf : Bytes}

theorem serverRecvLine_line (he : .error ∉ sock) {w t : Bytes} (hb : bytesOf sock = w ++ lf :: t) (hw : WholeLine w)
    (hbuf : buf.length = maxLineLen) :
    ∃ buf' sock', serverRecvLine sock buf maxLineLen = (.ok, buf', sock') ∧ cstr buf' = trimNewline w := by
  obtain ⟨sock', hline, -, -⟩ := serverRecvLine_framer.line he hb hw.noLf hw.length_lt hbuf
  refine ⟨_, sock', hline, ?_⟩
  have h0 : 0 ∉ w ++ [lf] := by
    rw [List.mem_append, not_or]
    exact ⟨hw.noNul, by decide⟩
  have hlen := hw.length_lt
  have hcut : cstr (endLine (overwrite buf 0 (w ++ [lf])) (w ++ [lf]).length) = trimNewline (w ++ [lf]) :=
    cstr_endLine h0 (by rw [List.length_append, List.length_singleton]; omega)
  rw [List.length_append, List.length_singleton, trimNewline_lf] at hcut
  exact hcut

/-- A login line is verified as what stands before and behind its first blank. -/
theorem login_ok_iff_fields (he : .error ∉ sock) {a b t : Bytes} (ha : sp ∉ a)
    (hb : bytesOf sock = lit "AUTH" ++ sp :: (a ++ sp :: b) ++ lf :: t)
    (hw : WholeLine (lit "AUTH" ++ sp :: (a ++ sp :: b))) (hlast : Last b) (hbuf : buf.length = maxLineLen) :
    login P db sock buf = .ok ↔ Name a ∧ Field maxMsgLen b ∧ hashOf db a = some (passwordHex P b) := by
  obtain ⟨buf', sock', hrecv, hcut⟩ := serverRecvLine_line he hb hw hbuf
  have htrim : trimNewline (lit "AUTH" ++ sp :: (a ++ sp :: b)) = lit "AUTH" ++ sp :: (a ++ sp :: b) := by
    simpa only [List.append_assoc, List.cons_append] using trimNewline_last hlast (lit "AUTH" ++ sp :: a)
  rw [htrim] at hcut
  simp only [login, hrecv, hcut]
  rcases hparse : protocolParseClientLine (lit "AUTH" ++ sp :: (a ++ sp :: b)) with ⟨rc, cmd⟩
  constructor
  · intro h
    cases rc with
    | ok =>
      by_cases hauth : cmd.cmd = .auth
      · obtain ⟨hu, hp, hname, hfield⟩ := parse_auth_fields hw.noNul ha hparse hauth
        simp only [if_pos hauth, hu, hp] at h
        exact ⟨hname, hfield, authVerify_ok_iff.mp h⟩
      · simp only [if_neg hauth] at h
        cases h
    | _ => cases h
  · intro ⟨hname, hfield, hhash⟩
    obtain ⟨out, hout, hcmd, hu, hp⟩ := parse_client_complete hw.noNul (Request.auth hname hfield)
    rw [hparse] at hout
    obtain ⟨rfl, rfl⟩ := Prod.mk.inj hout
    simp only [if_pos hcmd, hu, hp]
    exact authVerify_ok_iff.mpr hhash

theorem hashOf_mem {username hash : Bytes} (h : hashOf db username = some hash) :
    ∃ rec ∈ db, rec.username = username := by
  obtain ⟨rec, hrec, -⟩ := Option.map_eq_some_iff.mp h
  have hname := List.find?_some hrec
  rw [beq_iff_eq] at hname
  exact ⟨rec, List.mem_of_find?_eq_some hrec, hname⟩

theorem split_at_blank {u : Bytes} (h : sp ∈ u) : ∃ a b, u = a ++ sp :: b ∧ sp ∉ a := by
  cases hc : strchr u sp with
  | none => exact absurd h (strchr_none.mp hc)
  | some i =>
    obtain ⟨-, hsp, hsplit⟩ := strchr_some hc
    exact ⟨_, _, hsplit, hsp⟩

theorem build_auth_fits {u p : Bytes} (hu : u.length ≤ maxUsernameLen - 1) (hp : p.length < maxMsgLen) :
    protocolBuildClientAuth maxLineLen u p = (.ok, lit "AUTH" ++ sp :: (u ++ sp :: p) ++ [lf]) := by
  rw [show protocolBuildClientAuth maxLineLen u p = (ClientLine.auth u p).build maxLineLen from rfl, ClientLine.build_eq]
  refine buildLine_fits ?_
  have hauth : (lit "AUTH").length = 4 := by decide
  simp only [maxUsernameLen, maxMsgLen] at hu hp
  simp only [ClientLine.text, List.length_append, List.length_cons, List.length_nil, hauth, maxLineLen]
  omega

/-- **Logging in**: the login line of a loaded account is accepted exactly when the
name has no blank, or its first word is an account whose password is the rest. -/
theorem login_ok_iff {mem : Nat → Bool} {file : Option Bytes} (hload : authInit mem file = (.ok, db)) {rec : UserRecord}
    (hrec : rec ∈ db) {p : Bytes} (hp : Password p) (hhash : hashOf db rec.username = some (passwordHex P p))
    {arrivals : List Arrival} (hr : .reset ∉ arrivals) {t : Bytes}
    (hs : stream arrivals = (protocolBuildClientAuth maxLineLen rec.username p).2 ++ t) (hbuf : buf.length = maxLineLen) :
    (protocolBuildClientAuth maxLineLen rec.username p).1 = .ok ∧ login P db (recvs arrivals) buf = .ok ↔
      sp ∉ rec.username ∨ ∃ a b, rec.username = a ++ sp :: b ∧ sp ∉ a ∧ (b ++ sp :: p).length < maxMsgLen ∧
        hashOf db a = some (passwordHex P (b ++ sp :: p)) := by
  have hloaded := authInit_loaded hload
  have hu := hloaded rec hrec
  have hbuild := build_auth_fits hu.username_le hp.field.length_lt
  have hstream := hs
  rw [hbuild, ← bytesOf_recvs] at hstream
  rw [hbuild]
  have he := error_not_mem_recvs hr
  have hplain : Plain rec.username := ⟨hu.username_noNul, hu.username_noLf⟩
  have hwhole : WholeLine (lit "AUTH" ++ sp :: (rec.username ++ sp :: p)) := by
    have hrest := hplain.join hp.toPlain
    have hword : Plain (lit "AUTH") := ⟨by decide, by decide⟩
    refine ⟨(hword.join hrest).noNul, (hword.join hrest).noLf, ?_⟩
    have hul := hu.username_le
    have hpl := hp.field.length_lt
    have hauth : (lit "AUTH").length = 4 := by decide
    simp only [maxUsernameLen, maxMsgLen] at hul hpl
    simp only [List.length_append, List.length_cons, hauth, maxLineLen]
    omega
  simp only [List.append_assoc, List.singleton_append] at hstream
  by_cases hsp : sp ∈ rec.username
  · obtain ⟨a, b, hab, ha⟩ := split_at_blank hsp
    have hline : lit "AUTH" ++ sp :: (rec.username ++ sp :: p) = lit "AUTH" ++ sp :: (a ++ sp :: (b ++ sp :: p)) := by
      rw [hab, List.append_assoc, List.cons_append]
    have hbp : Last (b ++ sp :: p) := by
      have hb : Plain b := by
        rw [hab] at hplain
        exact ⟨fun h => hplain.noNul (by simp [h]), fun h => hplain.noLf (by simp [h])⟩
      refine ⟨hb.join hp.toPlain, ?_⟩
      rw [List.getLast?_append_of_ne_nil _ (List.cons_ne_nil _ _), List.getLast?_cons_of_ne_nil hp.field.ne_nil]
      exact hp.noCr
    rw [hline] at hwhole
    have hbytes : bytesOf (recvs arrivals) = lit "AUTH" ++ sp :: (a ++ sp :: (b ++ sp :: p)) ++ lf :: t := by
      rw [hstream, ← hline]
      simp only [List.append_assoc, List.cons_append]
    rw [login_ok_iff_fields he ha hbytes hwhole hbp hbuf]
    constructor
    · intro ⟨_, _, hfield, hh⟩
      exact Or.inr ⟨a, b, hab, ha, hfield.length_lt, hh⟩
    · intro hcond
      rcases hcond with hno | ⟨a', b', hab', ha', hlen, hh⟩
      · exact absurd hsp hno
      · obtain ⟨rfl, rfl⟩ := Separators.split_first ha' ha (hab'.symm.trans hab)
        obtain ⟨other, hother, rfl⟩ := hashOf_mem hh
        have hname := hloaded other hother
        exact ⟨rfl, ⟨hname.username_ne, Nat.lt_succ_of_le hname.username_le, ha⟩, ⟨by simp, hlen⟩, hh⟩
  · have hbytes : bytesOf (recvs arrivals) = lit "AUTH" ++ sp :: (rec.username ++ sp :: p) ++ lf :: t := by
      rw [hstream]
      simp only [List.append_assoc, List.cons_append]
    rw [login_ok_iff_fields he hsp hbytes hwhole hp.toLast hbuf]
    exact iff_of_true ⟨rfl, ⟨hu.username_ne, Nat.lt_succ_of_le hu.username_le, hsp⟩, hp.field, hhash⟩ (Or.inl hsp)

end

/-- The users file has this one line; the digest of a password is the password. -/
def oneAccount (name : String) : Bytes := lit name ++ lit ":7077:0\n"

def plainDigest : Platform := { sha256 := id, localtimeR := fun _ => none }

def accountOf (name : String) : UserRecord := { username := lit name, passwordHash := lit "7077", isAdmin := false }

theorem password_pw : Password (lit "pw") where
  noNul := by decide
  noLf := by decide
  noCr := by decide
  field := ⟨by decide, by decide⟩

theorem login_ok_iff_bob : login plainDigest [accountOf "bob"] (recvs [.segment (lit "AUTH bob pw\n")]) (zeros maxLineLen) = .ok := by
  have hload : authInit (fun _ => true) (some (oneAccount "bob")) = (.ok, [accountOf "bob"]) := by decide +kernel
  exact ((login_ok_iff (P := plainDigest) hload (List.mem_singleton.mpr rfl) password_pw (by decide) (by decide) (t := [])
    (by decide) (zeros_length _)).mpr (Or.inl (by decide))).2

/-- `bob smith` is loaded, and is refused with the right password. -/
theorem loaded_account_refused : ¬ ∀ (P : Platform) (mem : Nat → Bool) (file : Option Bytes) (db : AuthDb),
    authInit mem file = (.ok, db) → ∀ rec ∈ db, ∀ p, Password p → hashOf db rec.username = some (passwordHex P p) →
      ∀ buf, buf.length = maxLineLen →
        login P db (recvs [.segment (protocolBuildClientAuth maxLineLen rec.username p).2]) buf = .ok := by
  intro h
  have hload : authInit (fun _ => true) (some (oneAccount "bob smith")) = (.ok, [accountOf "bob smith"]) := by decide +kernel
  have hok := h plainDigest (fun _ => true) _ _ hload _ (List.mem_singleton.mpr rfl) (lit "pw") password_pw (by decide)
    (zeros maxLineLen) (zeros_length _)
  have hno : login plainDigest [accountOf "bob smith"] (recvs [.segment (protocolBuildClientAuth maxLineLen
      (accountOf "bob smith").username (lit "pw")).2]) (zeros maxLineLen) = .errAuth := by decide +kernel
  rw [hno] at hok
  cases hok

end ChatServer

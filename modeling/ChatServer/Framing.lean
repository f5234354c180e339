import Mathlib.Data.List.DropRight
import Mathlib.Data.List.TakeWhile
import ChatServer.Protocol

/-!
# Reading lines off a socket

`server_recv_line` and `client_recv_line`. Both ask `recv` for one byte at a
time, so that how the kernel cuts the stream shows only in how often a call is
interrupted. The buffer is the caller's array, with what earlier lines left in
it.
-/

namespace ChatServer

open CStr

/-- What comes in on a connection, up to the orderly shutdown of the peer. -/
inductive Arrival where
  | segment (bytes : Bytes)
  | interrupt
  | reset
  deriving DecidableEq

/-- The answers to the calls of `recv(fd, &c, 1, 0)`; behind the last one it returns 0. -/
inductive Recv where
  | byte (c : UInt8)
  | eintr
  | error
  deriving DecidableEq

def Arrival.recvs : Arrival → List Recv
  | .segment bytes => bytes.map .byte
  | .interrupt => [.eintr]
  | .reset => [.error]

def recvs (arrivals : List Arrival) : List Recv := arrivals.flatMap Arrival.recvs

def Arrival.bytes : Arrival → Bytes
  | .segment bytes => bytes
  | _ => []

/-- The stream that the peer has sent. -/
def stream (arrivals : List Arrival) : Bytes := arrivals.flatMap Arrival.bytes

/-- `trim_newline` on the array that holds the string. -/
def trimBuffer (buf : Bytes) : Bytes :=
  let s := cstr buf
  trimNewline s ++ List.replicate (s.length - (trimNewline s).length) 0 ++ buf.drop s.length

/-- `buf[pos] = '\0'; trim_newline(buf);` -/
def endLine (buf : Bytes) (pos : Nat) : Bytes := trimBuffer (setNul buf pos)

/-- The loop both functions share; `eof` is what they return where `recv` returns 0. -/
def recvLoop (eof : Nat → ChatStatus) (buflen : Nat) : List Recv → Nat → Bytes → ChatStatus × Bytes × List Recv
  | [], pos, buf => if pos < buflen - 1 then (eof pos, buf, []) else (.ok, endLine buf pos, [])
  | r :: sock, pos, buf =>
    if pos < buflen - 1 then
      match r with
      | .eintr => recvLoop eof buflen sock pos buf
      | .error => (.errIo, buf, sock)
      | .byte c =>
        if c = lf then (.ok, endLine (buf.set pos c) (pos + 1), sock)
        else recvLoop eof buflen sock (pos + 1) (buf.set pos c)
    else (.ok, endLine buf pos, r :: sock)

def serverRecvLine (sock : List Recv) (buf : Bytes) (buflen : Nat) : ChatStatus × Bytes × List Recv :=
  if buflen < 2 then (.err, buf, sock)
  else recvLoop (fun pos => if pos = 0 then .errIo else .ok) buflen sock 0 buf

def clientRecvLine (sock : List Recv) (buf : Bytes) (buflen : Nat) : ChatStatus × Bytes × List Recv :=
  recvLoop (fun _ => .errIo) buflen sock 0 buf

/-- The strings that repeated calls of `recvLine` leave in the buffer, with fuel
for the calls; a call that fails is the last one. -/
def recvLines (recvLine : List Recv → Bytes → Nat → ChatStatus × Bytes × List Recv) :
    Nat → List Recv → Bytes → List Bytes
  | 0, _, _ => []
  | fuel + 1, sock, buf =>
    match recvLine sock buf maxLineLen with
    | (.ok, buf, sock) => cstr buf :: recvLines recvLine fuel sock buf
    | _ => []

/-! ## Bytes written into the buffer -/

def overwrite (buf : Bytes) (pos : Nat) (w : Bytes) : Bytes := buf.take pos ++ w ++ buf.drop (pos + w.length)

theorem overwrite_nil (buf : Bytes) (pos : Nat) : overwrite buf pos [] = buf := by
  rw [overwrite, List.append_nil, List.length_nil, Nat.add_zero, List.take_append_drop]

theorem overwrite_length {buf w : Bytes} {pos : Nat} (h : pos + w.length ≤ buf.length) :
    (overwrite buf pos w).length = buf.length := by
  simp only [overwrite, List.length_append, List.length_take, List.length_drop]
  omega

theorem overwrite_set {buf : Bytes} {pos : Nat} {c : UInt8} {w : Bytes} (h : pos < buf.length) :
    overwrite (buf.set pos c) (pos + 1) w = overwrite buf pos (c :: w) := by
  unfold overwrite
  rw [List.take_set, List.drop_set_of_lt (by omega), List.length_cons, ← Nat.add_assoc, Nat.add_right_comm pos w.length 1]
  congr 1
  have htake : (buf.take (pos + 1)).set pos c = buf.take pos ++ [c] := by
    rw [List.take_succ_eq_append_getElem h, List.set_append_right _ _ (by simp)]
    simp [Nat.min_eq_left (Nat.le_of_lt h)]
  rw [htake, List.append_assoc, List.singleton_append]

theorem cstr_overwrite {buf w : Bytes} (h0 : 0 ∉ w) : cstr (overwrite buf 0 w) = w ++ cstr (buf.drop w.length) := by
  rw [overwrite, List.take_zero, List.nil_append, Nat.zero_add, cstr_append h0]

theorem trimNewline_initial (s : Bytes) : trimNewline s <+: s := by
  rw [trimNewline, ← List.reverse_suffix, List.reverse_reverse]
  exact List.dropWhile_suffix _

theorem trimNewline_idem (s : Bytes) : trimNewline (trimNewline s) = trimNewline s := by
  rw [trimNewline, trimNewline, List.reverse_reverse, List.dropWhile_idempotent]

/-- What is trimmed off are line ends. -/
theorem trimNewline_append (s : Bytes) {z : Bytes} (hz : ∀ c ∈ z, c = lf ∨ c = cr) : trimNewline (s ++ z) = trimNewline s := by
  induction z using List.reverseRecOn with
  | nil => rw [List.append_nil]
  | append_singleton z c ih =>
    have hc : (c == lf || c == cr) = true := by simpa using hz c (List.mem_append_right _ (List.mem_singleton_self c))
    rw [← List.append_assoc, ← ih fun d hd => hz d (List.mem_append_left _ hd)]
    simp [trimNewline, hc]

theorem trimNewline_tail (s : Bytes) : ∃ z, s = trimNewline s ++ z ∧ ∀ c ∈ z, c = lf ∨ c = cr := by
  refine ⟨(s.reverse.takeWhile fun c => c == lf || c == cr).reverse, ?_, fun c hc => ?_⟩
  · rw [trimNewline, ← List.reverse_append, List.takeWhile_append_dropWhile, List.reverse_reverse]
  · simpa using List.mem_takeWhile_imp (List.mem_reverse.mp hc)

theorem trimNewline_eq_iff {u : Bytes} : trimNewline u = u ↔ u.getLast? ≠ some cr ∧ u.getLast? ≠ some lf := by
  rcases List.eq_nil_or_concat u with rfl | ⟨v, c, rfl⟩
  · exact iff_of_true rfl ⟨fun h => (by cases h), fun h => (by cases h)⟩
  · rw [List.concat_eq_append, List.getLast?_concat]
    by_cases hc : c ≠ lf ∧ c ≠ cr
    · rw [trimNewline_snoc v hc]
      exact iff_of_true rfl ⟨fun h => hc.2 (Option.some.inj h), fun h => hc.1 (Option.some.inj h)⟩
    · refine iff_of_false (fun h => ?_) fun ⟨h₁, h₂⟩ => hc ⟨fun e => h₂ (by rw [e]), fun e => h₁ (by rw [e])⟩
      have hlast : c = lf ∨ c = cr := by
        by_cases hl : c = lf
        · exact Or.inl hl
        · exact Or.inr (Classical.not_not.mp fun hcr => hc ⟨hl, hcr⟩)
      have hshort : trimNewline (v ++ [c]) = trimNewline v := by
        rcases hlast with rfl | rfl
        · exact trimNewline_lf v
        · simp [trimNewline]
      have hle := (trimNewline_initial v).length_le
      rw [hshort] at h
      rw [h, List.length_append, List.length_singleton] at hle
      omega

theorem cstr_trimBuffer (buf : Bytes) : cstr (trimBuffer buf) = trimNewline (cstr buf) := by
  have hpre := trimNewline_initial (cstr buf)
  have h0 : 0 ∉ trimNewline (cstr buf) := fun h => nul_not_mem_cstr buf (hpre.subset h)
  unfold trimBuffer
  rw [List.append_assoc, cstr_append h0]
  refine List.append_right_eq_self.mpr ?_
  by_cases hlen : (trimNewline (cstr buf)).length = (cstr buf).length
  · -- nothing is trimmed, and the string's own NUL follows
    rw [hlen, Nat.sub_self, List.replicate_zero, List.nil_append]
    have hsplit : buf = cstr buf ++ buf.drop (cstr buf).length := by
      have htake : cstr buf = buf.take (cstr buf).length := List.prefix_iff_eq_take.mp (cstr_initial buf)
      conv_lhs => rw [← List.take_append_drop (cstr buf).length buf]
      rw [← htake]
    have hc : cstr buf = cstr buf ++ cstr (buf.drop (cstr buf).length) := by
      conv_lhs => rw [hsplit]
      rw [cstr_append (nul_not_mem_cstr buf)]
    exact List.append_right_eq_self.mp hc.symm
  · obtain ⟨k, hk⟩ : ∃ k, (cstr buf).length - (trimNewline (cstr buf)).length = k + 1 :=
      ⟨(cstr buf).length - (trimNewline (cstr buf)).length - 1, by have := hpre.length_le; omega⟩
    rw [hk, List.replicate_succ, List.cons_append, cstr_nul]

theorem trimBuffer_length (buf : Bytes) : (trimBuffer buf).length = buf.length := by
  have h₁ := (trimNewline_initial (cstr buf)).length_le
  have h₂ : (cstr buf).length ≤ buf.length := (cstr_initial buf).length_le
  simp only [trimBuffer, List.length_append, List.length_replicate, List.length_drop]
  omega

theorem endLine_length (buf : Bytes) (pos : Nat) : (endLine buf pos).length = buf.length := by
  rw [endLine, trimBuffer_length, setNul_length]

/-- A whole line in the buffer is the string read, trimmed. -/
theorem cstr_endLine {buf w : Bytes} (h0 : 0 ∉ w) (hlen : w.length < buf.length) :
    cstr (endLine (overwrite buf 0 w) w.length) = trimNewline w := by
  rw [endLine, cstr_trimBuffer, cstr_setNul (by rw [overwrite_length (by omega)]; exact hlen), cstr_overwrite h0,
    List.take_left]

end ChatServer

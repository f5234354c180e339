import ChatServer.FramingSound

/-!
# The end of the stream inside a line

`recv_line` of `utils.c` and the server's copy of it differ in one of four
exits. Where `recv` returns 0 behind the first bytes of a line, `recv_line` ends
the line as at a newline, and the server leaves the bytes in the buffer without
a terminator.
-/

namespace ChatServer

open CStr

def recvLineLoop (buflen : Nat) : List Recv → Nat → Bytes → ChatStatus × Bytes × List Recv
  | [], pos, buf =>
    if pos < buflen - 1 then
      if pos = 0 then (.errIo, buf, []) else (.ok, endLine buf pos, [])
    else (.ok, endLine buf pos, [])
  | r :: sock, pos, buf =>
    if pos < buflen - 1 then
      match r with
      | .eintr => recvLineLoop buflen sock pos buf
      | .error => (.errIo, buf, sock)
      | .byte c =>
        if c = lf then (.ok, endLine (buf.set pos c) (pos + 1), sock)
        else recvLineLoop buflen sock (pos + 1) (buf.set pos c)
    else (.ok, endLine buf pos, r :: sock)

def recvLine (sock : List Recv) (buf : Bytes) (buflen : Nat) : ChatStatus × Bytes × List Recv :=
  if buflen < 2 then (.err, buf, sock) else recvLineLoop buflen sock 0 buf

/-- Behind the first `pos` bytes of a line the stream ends inside it, and some bytes of it have come. -/
structure CutFrom (buflen pos : Nat) (sock : List Recv) : Prop where
  noError : .error ∉ sock
  noLf : lf ∉ bytesOf sock
  pos_lt : 0 < pos + (bytesOf sock).length
  length_lt : pos + (bytesOf sock).length < buflen - 1

/-- The call ends at the end of the stream, inside a line. -/
def CutLine (buflen : Nat) (sock : List Recv) : Prop := CutFrom buflen 0 sock

/-- Nothing of the old buffer shows behind the bytes received, and they need no trimming. -/
def CutClean (sock : List Recv) (buf : Bytes) : Prop :=
  (0 ∈ bytesOf sock ∨ buf[(bytesOf sock).length]? = some 0) ∧ (cstr (bytesOf sock)).getLast? ≠ some cr

/-! ## The two loops -/

section
variable {n : Nat}

theorem cutFrom_eintr {pos : Nat} {sock : List Recv} : CutFrom n pos (.eintr :: sock) ↔ CutFrom n pos sock := by
  have hne : Recv.error ∉ (.eintr :: sock) ↔ Recv.error ∉ sock := by simp
  have hb : bytesOf (.eintr :: sock) = bytesOf sock := rfl
  constructor
  · rintro ⟨he, hl, hp, hn⟩
    exact ⟨hne.mp he, hb ▸ hl, hb ▸ hp, hb ▸ hn⟩
  · rintro ⟨he, hl, hp, hn⟩
    exact ⟨hne.mpr he, hb ▸ hl, hb ▸ hp, hb ▸ hn⟩

theorem CutFrom.byte {pos : Nat} {sock : List Recv} {c : UInt8} (hc : c ≠ lf) (h : CutFrom n (pos + 1) sock) :
    CutFrom n pos (.byte c :: sock) where
  noError := by
    rw [List.mem_cons, not_or]
    exact ⟨Recv.noConfusion, h.noError⟩
  noLf := by
    rw [bytesOf_byte, List.mem_cons, not_or]
    exact ⟨hc.symm, h.noLf⟩
  pos_lt := by
    rw [bytesOf_byte, List.length_cons]
    omega
  length_lt := by
    have := h.length_lt
    rw [bytesOf_byte, List.length_cons]
    omega

/-- The exits at a newline, at a full buffer, on an error and before the first byte agree. -/
theorem recvLineLoop_eq : ∀ {sock : List Recv} (pos : Nat) (buf : Bytes), ¬ CutFrom n pos sock →
    recvLineLoop n sock pos buf = recvLoop (fun pos => if pos = 0 then .errIo else .ok) n sock pos buf
  | [], pos, buf, hcut => by
    unfold recvLineLoop recvLoop
    by_cases hpos : pos < n - 1
    · have hzero : pos = 0 := by
        by_contra hne
        exact hcut ⟨by simp, by simp [bytesOf], by omega, by simpa [bytesOf] using hpos⟩
      rw [if_pos hpos, if_pos hpos, if_pos hzero, if_pos hzero]
    · rw [if_neg hpos, if_neg hpos]
  | .error :: sock, pos, buf, _ => by rfl
  | .eintr :: sock, pos, buf, hcut => by
    unfold recvLineLoop recvLoop
    simp only
    rw [recvLineLoop_eq pos buf fun h => hcut (cutFrom_eintr.mpr h)]
  | .byte c :: sock, pos, buf, hcut => by
    unfold recvLineLoop recvLoop
    simp only
    by_cases hc : c = lf
    · rw [if_pos hc, if_pos hc]
    · rw [if_neg hc, if_neg hc, recvLineLoop_eq (pos + 1) _ fun h => hcut (h.byte hc)]

theorem recvLineLoop_cut : ∀ {sock : List Recv} (pos : Nat) (buf : Bytes), CutFrom n pos sock → n ≤ buf.length →
    recvLineLoop n sock pos buf =
      (.ok, endLine (overwrite buf pos (bytesOf sock)) (pos + (bytesOf sock).length), [])
  | [], pos, buf, hcut, _ => by
    have hpos := hcut.pos_lt
    have hlt := hcut.length_lt
    have hnil : bytesOf [] = [] := rfl
    rw [hnil, List.length_nil, Nat.add_zero] at hpos hlt ⊢
    rw [recvLineLoop, if_pos hlt, if_neg (by omega), overwrite_nil]
  | .error :: sock, pos, buf, hcut, _ => absurd (List.mem_cons_self ..) hcut.noError
  | .eintr :: sock, pos, buf, hcut, hbuf => by
    have hrest := cutFrom_eintr.mp hcut
    have hlt := hrest.length_lt
    simp only [recvLineLoop]
    rw [if_pos (by omega)]
    exact recvLineLoop_cut pos buf hrest hbuf
  | .byte c :: sock, pos, buf, hcut, hbuf => by
    obtain ⟨he, hl, hp, hlt⟩ := hcut
    rw [bytesOf_byte] at hl hp hlt ⊢
    rw [List.mem_cons, not_or] at he hl
    rw [List.length_cons] at hlt
    have hrest : CutFrom n (pos + 1) sock := ⟨he.2, hl.2, by omega, by omega⟩
    simp only [recvLineLoop]
    rw [if_pos (by omega), if_neg (Ne.symm hl.1), recvLineLoop_cut (pos + 1) _ hrest (by rw [List.length_set]; exact hbuf),
      overwrite_set (by omega), List.length_cons, show pos + 1 + (bytesOf sock).length = pos + ((bytesOf sock).length + 1) by omega]

end

/-! ## A cut line -/

section
variable {sock : List Recv} {buf : Bytes} {buflen : Nat} (hbuf : buflen ≤ buf.length) (hcut : CutLine buflen sock)
include hbuf hcut

/-- The server hands over what came, followed by what the buffer held behind it. -/
theorem serverRecvLine_cut :
    serverRecvLine sock buf buflen = (.ok, overwrite buf 0 (bytesOf sock), []) := by
  obtain ⟨he, hl, hp, hlt⟩ := hcut
  rw [serverRecvLine, if_neg (by omega), recvLoop_eof 0 buf he rfl hl hlt hbuf, if_neg (by omega)]

theorem recvLine_cut :
    recvLine sock buf buflen = (.ok, endLine (overwrite buf 0 (bytesOf sock)) (bytesOf sock).length, []) := by
  have hlt := hcut.length_lt
  rw [recvLine, if_neg (by omega), recvLineLoop_cut 0 buf hcut hbuf, Nat.zero_add]

theorem cut_agree_iff : cstr (overwrite buf 0 (bytesOf sock)) = cstr (endLine (overwrite buf 0 (bytesOf sock)) (bytesOf sock).length) ↔
    CutClean sock buf := by
  have hlt := hcut.length_lt
  have hno := hcut.noLf
  unfold CutClean
  generalize bytesOf sock = w at *
  rw [Nat.zero_add] at hlt
  have hlast : (cstr w).getLast? ≠ some lf := fun h => hno ((cstr_initial w).subset (List.mem_of_getLast? h))
  have hover : overwrite buf 0 w = w ++ buf.drop w.length := by
    rw [overwrite, List.take_zero, List.nil_append, Nat.zero_add]
  rw [endLine, cstr_trimBuffer, cstr_setNul (by rw [overwrite_length (by omega)]; omega), hover]
  by_cases h0 : 0 ∈ w
  · -- a NUL among the bytes hides what stands behind them
    have hle : (cstr w).length ≤ w.length := (cstr_initial w).length_le
    rw [cstr_append_of_mem h0, List.take_of_length_le hle, eq_comm, trimNewline_eq_iff]
    exact ⟨fun h => ⟨Or.inl h0, h.1⟩, fun h => ⟨h.2, hlast⟩⟩
  · rw [cstr_of_nulFree h0] at hlast ⊢
    rw [cstr_append h0, List.take_left]
    have hdrop : cstr (buf.drop w.length) = [] ↔ buf[w.length]? = some 0 := by
      have hin : w.length < buf.length := by omega
      rw [List.drop_eq_getElem_cons hin, List.getElem?_eq_getElem hin]
      by_cases hc : buf[w.length] = 0
      · simp [hc]
      · rw [cstr_cons hc]; simp [hc]
    constructor
    · intro h
      have hle := (trimNewline_initial w).length_le
      rw [← h, List.length_append] at hle
      have hnil : cstr (buf.drop w.length) = [] := List.length_eq_zero_iff.mp (by omega)
      rw [hnil, List.append_nil] at h
      exact ⟨Or.inr (hdrop.mp hnil), (trimNewline_eq_iff.mp h.symm).1⟩
    · rintro ⟨hstale, hcr⟩
      rw [hdrop.mpr (hstale.resolve_left h0), List.append_nil]
      exact (trimNewline_eq_iff.mpr ⟨hcr, hlast⟩).symm

end

/-- The two calls return the same, and if that is `CHAT_OK`, leave the same string. -/
def SameLine (sock : List Recv) (buf : Bytes) (buflen : Nat) : Prop :=
  (serverRecvLine sock buf buflen).1 = (recvLine sock buf buflen).1 ∧
    ((recvLine sock buf buflen).1 = .ok → cstr (serverRecvLine sock buf buflen).2.1 = cstr (recvLine sock buf buflen).2.1)

theorem sameLine_of_not_cut {sock : List Recv} {buflen : Nat} (hcut : ¬ CutLine buflen sock) (buf : Bytes) :
    SameLine sock buf buflen := by
  have h : recvLine sock buf buflen = serverRecvLine sock buf buflen := by
    unfold recvLine serverRecvLine
    rw [recvLineLoop_eq 0 buf hcut]
  rw [SameLine, h]
  exact ⟨rfl, fun _ => rfl⟩

theorem sameLine_cut_iff {sock : List Recv} {buf : Bytes} {buflen : Nat} (hbuf : buflen ≤ buf.length) (hcut : CutLine buflen sock) :
    SameLine sock buf buflen ↔ CutClean sock buf := by
  rw [← cut_agree_iff hbuf hcut, SameLine, serverRecvLine_cut hbuf hcut, recvLine_cut hbuf hcut]
  exact ⟨fun h => h.2 rfl, fun h => ⟨rfl, fun _ => h⟩⟩

/-- **The server's lines are those of the stream** unless the stream ends inside
one: then the bytes the buffer held before show behind it, and a carriage return
at its end stays. -/
theorem received_line_iff {sock : List Recv} {buf : Bytes} {buflen : Nat} (hbuf : buflen ≤ buf.length) :
    SameLine sock buf buflen ↔ (CutLine buflen sock → CutClean sock buf) := by
  by_cases hcut : CutLine buflen sock
  · rw [sameLine_cut_iff hbuf hcut]
    exact ⟨fun h _ => h, fun h => h hcut⟩
  · exact iff_of_true (sameLine_of_not_cut hcut buf) fun h => absurd h hcut

theorem received_line_iff_cut : SameLine (recvs [.segment (lit "LI"), .interrupt, .segment (lit "ST")]) (List.replicate 8 0) 8 :=
  (received_line_iff (by decide)).mpr fun _ => ⟨Or.inr (by decide), by decide⟩

/-- What a handler's array holds behind the line `MSG secret`. -/
def usedBuffer : Bytes := lit "MSG secret" ++ List.replicate (maxLineLen - 10) 0

/-- Behind that line a connection that closes after the bytes `MSG` sends it again. -/
theorem received_line_stale :
    ¬ ∀ (arrivals : List Arrival) (buf : Bytes) (buflen : Nat), buflen ≤ buf.length → SameLine (recvs arrivals) buf buflen := by
  intro h
  have hbuf : maxLineLen ≤ usedBuffer.length := by
    rw [usedBuffer, List.length_append, List.length_replicate]
    decide
  have hcut : CutLine maxLineLen (recvs [.segment (lit "MSG")]) := ⟨by decide, by decide, by decide, by decide⟩
  have hclean := (sameLine_cut_iff hbuf hcut).mp (h [.segment (lit "MSG")] usedBuffer maxLineLen hbuf)
  have hnext : usedBuffer[3]? = some sp := by decide +kernel
  rcases hclean.1 with hnul | hnul
  · exact absurd hnul (by decide)
  · exact absurd (hnext.symm.trans hnul) (by decide)

end ChatServer

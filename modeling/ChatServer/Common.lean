import Mathlib.Tactic
import ChatServer.CStr

/-!
# Limits, status codes and the string utilities

`common.h`, and the functions of `utils.c` that only work on strings.
-/

namespace ChatServer

open CStr

@[simp] def maxUsernameLen : Nat := 32
@[simp] def maxMsgLen : Nat := 512
@[simp] def maxLineLen : Nat := 2048
@[simp] def maxClients : Nat := 100
@[simp] def maxRoomNameLen : Nat := 32
@[simp] def maxRoomHistory : Nat := 100
@[simp] def maxRooms : Nat := 64

@[simp] def timestampLen : Nat := 32

def defaultRoom : Bytes := lit "lobby"

inductive ChatStatus where
  | ok
  | err
  | errNomem
  | errProtocol
  | errDuplicate
  | errNotFound
  | errIo
  | errFull
  | errAuth
  | errForbidden
  deriving DecidableEq, Repr

/-! ## Trimming a received line -/

/-- `trim_newline`: drops LF and CR from the end. -/
def trimNewline (s : Bytes) : Bytes := (s.reverse.dropWhile fun c => c == lf || c == cr).reverse

theorem trimNewline_snoc (s : Bytes) {c : UInt8} (hc : c ≠ lf ∧ c ≠ cr) : trimNewline (s ++ [c]) = s ++ [c] := by
  simp [trimNewline, hc.1, hc.2]

theorem trimNewline_lf (s : Bytes) : trimNewline (s ++ [lf]) = trimNewline s := by
  simp [trimNewline]

theorem trimNewline_line {s t : Bytes} (ht : t ≠ []) (hl : t.getLast? ≠ some lf) (hc : t.getLast? ≠ some cr) :
    trimNewline (s ++ t ++ [lf]) = s ++ t := by
  obtain ⟨u, c, rfl⟩ := List.eq_nil_or_concat t |>.resolve_left ht
  simp only [List.concat_eq_append, List.getLast?_append, List.getLast?_singleton, Option.some_or, ne_eq,
    Option.some.injEq] at hl hc
  rw [trimNewline_lf, List.concat_eq_append, ← List.append_assoc, trimNewline_snoc _ ⟨hl, hc⟩]

/-! ## Filling a buffer item by item -/

/-- The loop that appends items to a buffer with `snprintf(buf + used, buflen - used, ...)`,
the first one alone and the others behind `sep`; `buf` is the string so far. -/
def appendJoined (buflen : Nat) (sep : Bytes) : List Bytes → Bytes → Bool → ChatStatus × Bytes
  | [], buf, _ => (.ok, buf)
  | item :: items, buf, first =>
    let (text, written) := snprintf (buflen - buf.length) (if first then item else sep ++ item)
    if written ≥ buflen - buf.length then (.err, buf ++ text)
    else appendJoined buflen sep items (buf ++ text) false

theorem appendJoined_tail (buflen : Nat) (sep : Bytes) : ∀ (items : List Bytes) (buf : Bytes),
    let text := buf ++ (items.map (sep ++ ·)).flatten
    buf.length < buflen → (text.length < buflen → appendJoined buflen sep items buf false = (.ok, text)) ∧
      (buflen ≤ text.length → (appendJoined buflen sep items buf false).1 = .err)
  | [], buf => by
    intro text hb
    have ht : text = buf := by simp [text]
    rw [ht]
    exact ⟨fun _ => rfl, fun h => absurd hb (by omega)⟩
  | item :: items, buf => by
    intro text hb
    have ht : text = (buf ++ (sep ++ item)) ++ (items.map (sep ++ ·)).flatten := by
      simp only [text, List.map_cons, List.flatten_cons, List.append_assoc]
    by_cases hfit : (sep ++ item).length < buflen - buf.length
    · have hs : (sep ++ item).take (buflen - buf.length - 1) = sep ++ item := List.take_of_length_le (by omega)
      have hstep : appendJoined buflen sep (item :: items) buf false =
          appendJoined buflen sep items (buf ++ (sep ++ item)) false := by
        have hn : ¬ (sep ++ item).length ≥ buflen - buf.length := by omega
        simp only [appendJoined, snprintf, Bool.false_eq_true, ite_false, hs, hn]
      rw [hstep, ht]
      exact appendJoined_tail buflen sep items (buf ++ (sep ++ item)) (by rw [List.length_append]; omega)
    · refine ⟨fun h => absurd h ?_, fun _ => ?_⟩
      · rw [ht]; simp only [List.length_append] at hfit ⊢; omega
      · have hp : (sep ++ item).length ≥ buflen - buf.length := by omega
        simp only [appendJoined, snprintf, Bool.false_eq_true, ite_false, hp, ite_true]

/-! ## Timestamps -/

/-- The fields of `struct tm` that `format_timestamp` prints; `year` is
`tm_year + 1900`, and `tm_year` is an `int`. -/
structure Tm where
  year : Int
  mon : Fin 12
  mday : Fin 32
  hour : Fin 24
  min : Fin 60
  sec : Fin 61
  year_lt : year.natAbs < 10 ^ 10

def decimal (n : Nat) : Bytes := (Nat.toDigits 10 n).map fun c => c.toNat.toUInt8

def twoDigits (n : Nat) : Bytes := [(48 + n / 10).toUInt8, (48 + n % 10).toUInt8]

def strftime (tm : Tm) : Bytes :=
  (if tm.year < 0 then lit "-" else []) ++ decimal tm.year.natAbs ++ lit "-" ++ twoDigits (tm.mon + 1) ++
    lit "-" ++ twoDigits tm.mday ++ lit "T" ++ twoDigits tm.hour ++ lit ":" ++ twoDigits tm.min ++
    lit ":" ++ twoDigits tm.sec

/-- `format_timestamp` into a buffer of `timestampLen` bytes, which every date
fits (`formatTimestamp_length`). The time zone is the platform's, so
`localtime_r` is a parameter. -/
def formatTimestamp (localtimeR : Int → Option Tm) (t : Int) : Bytes :=
  match localtimeR t with
  | none => lit "unknown"
  | some tm => strftime tm

def StampByte (c : UInt8) : Prop := 45 ≤ c.toNat ∧ c.toNat ≤ 119

instance (c : UInt8) : Decidable (StampByte c) := inferInstanceAs (Decidable (_ ∧ _))

theorem stamp_of_all {s : Bytes} (h : (s.all fun c => decide (StampByte c)) = true) : ∀ c ∈ s, StampByte c := by
  simpa using h

theorem decimal_stamp (n : Nat) : ∀ c ∈ decimal n, StampByte c := by
  intro c hc
  obtain ⟨d, hd, rfl⟩ := List.mem_map.mp hc
  have h := Nat.isDigit_of_mem_toDigits (by decide) (by decide) hd
  rw [Char.isDigit, Bool.and_eq_true, decide_eq_true_eq, decide_eq_true_eq] at h
  have h₁ : 48 ≤ d.toNat := h.1
  have h₂ : d.toNat ≤ 57 := h.2
  have : d.toNat.toUInt8.toNat = d.toNat := by
    rw [Nat.toUInt8_eq, UInt8.toNat_ofNat_of_lt' (by simp [UInt8.size]; omega)]
  exact ⟨by omega, by omega⟩

theorem decimal_length {n : Nat} (h : n < 10 ^ 10) : (decimal n).length ≤ 10 := by
  rw [decimal, List.length_map]
  exact (Nat.length_toDigits_le_iff (by decide) (by decide)).mpr h

theorem decimal_ne_nil (n : Nat) : decimal n ≠ [] := by simp [decimal]

theorem twoDigits_stamp {n : Nat} (hn : n < 100) : ∀ c ∈ twoDigits n, StampByte c := by
  intro c hc
  have hd : ∀ d < 10, StampByte (48 + d).toUInt8 := by decide
  simp only [twoDigits, List.mem_cons, List.not_mem_nil, or_false] at hc
  rcases hc with rfl | rfl
  · exact hd _ (by omega)
  · exact hd _ (by omega)

theorem strftime_stamp (tm : Tm) : ∀ c ∈ strftime tm, StampByte c := by
  have hm := tm.mon.isLt
  have hd := tm.mday.isLt
  have hh := tm.hour.isLt
  have hmin := tm.min.isLt
  have hs := tm.sec.isLt
  have hdash := stamp_of_all (s := lit "-") (by decide)
  have hcolon := stamp_of_all (s := lit ":") (by decide)
  have hT := stamp_of_all (s := lit "T") (by decide)
  intro c hc
  simp only [strftime, List.mem_append] at hc
  rcases hc with ((((((((((hc | hc) | hc) | hc) | hc) | hc) | hc) | hc) | hc) | hc) | hc) | hc
  · split at hc
    · exact hdash c hc
    · cases hc
  · exact decimal_stamp _ c hc
  · exact hdash c hc
  · exact twoDigits_stamp (by omega) c hc
  · exact hdash c hc
  · exact twoDigits_stamp (by omega) c hc
  · exact hT c hc
  · exact twoDigits_stamp (by omega) c hc
  · exact hcolon c hc
  · exact twoDigits_stamp (by omega) c hc
  · exact hcolon c hc
  · exact twoDigits_stamp (by omega) c hc

theorem formatTimestamp_stamp (localtimeR : Int → Option Tm) (t : Int) :
    ∀ c ∈ formatTimestamp localtimeR t, StampByte c := by
  unfold formatTimestamp
  split
  · exact stamp_of_all (by decide)
  · exact strftime_stamp _

theorem formatTimestamp_length (localtimeR : Int → Option Tm) (t : Int) :
    (formatTimestamp localtimeR t).length < timestampLen := by
  unfold formatTimestamp
  split
  · decide
  · rename_i tm _
    have hy := decimal_length tm.year_lt
    have hs : (if tm.year < 0 then lit "-" else []).length ≤ 1 := by split <;> decide
    simp only [strftime, twoDigits, List.length_append, List.length_cons, List.length_nil, timestampLen]
    simp only [show (lit "-").length = 1 by decide, show (lit ":").length = 1 by decide,
      show (lit "T").length = 1 by decide]
    omega

theorem formatTimestamp_ne_nil (localtimeR : Int → Option Tm) (t : Int) : formatTimestamp localtimeR t ≠ [] := by
  unfold formatTimestamp
  split
  · decide
  · simp [strftime, decimal_ne_nil]

theorem not_mem_formatTimestamp (localtimeR : Int → Option Tm) (t : Int) {c : UInt8}
    (hc : c.toNat < 45 ∨ 119 < c.toNat) : c ∉ formatTimestamp localtimeR t := by
  intro h
  have := formatTimestamp_stamp localtimeR t c h
  unfold StampByte at this
  omega

end ChatServer

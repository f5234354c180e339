import Mathlib.Data.List.Basic
import Mathlib.Data.List.TakeDrop
import Mathlib.Tactic

/-!
# C strings in byte buffers

A buffer is the list of its bytes, and the string it holds is what stands
before its first NUL. The functions of `<string.h>` work on buffers, so a
terminator that is never written shows as a longer string; an argument of
type `const char *` that only names a string is the list of its bytes.
-/

namespace CStr

abbrev Bytes := List UInt8

def lit (s : String) : Bytes := s.toList.map fun c => c.toNat.toUInt8

def sp : UInt8 := 32
def lf : UInt8 := 10
def cr : UInt8 := 13

/-- The C string that a buffer holds. -/
def cstr (b : Bytes) : Bytes := b.takeWhile (· != 0)

/-- `strncpy(dst, src, n)`: at most `n` bytes of `src`, NULs up to `n`; what
`dst` holds from `n` on stays. -/
def strncpy (dst src : Bytes) (n : Nat) : Bytes :=
  (cstr src).take n ++ List.replicate (n - (cstr src).length) 0 ++ dst.drop n

def memcpy (dst src : Bytes) (n : Nat) : Bytes := src.take n ++ dst.drop n

def setNul (b : Bytes) (i : Nat) : Bytes := b.set i 0

def streq (a b : Bytes) : Bool := cstr a == cstr b

def strchr (s : Bytes) (c : UInt8) : Option Nat := s.findIdx? (· == c)

/-- `snprintf(buf, n, ...)` where the format expands to `text`: the string left
in `buf` and the length returned. -/
def snprintf (n : Nat) (text : Bytes) : Bytes × Nat := (text.take (n - 1), text.length)

/-- One call of `strtok_r` on what is left to scan: the token and the new save
pointer. `delims` is a set of bytes. -/
def strtokR (s delims : Bytes) : Option (Bytes × Bytes) :=
  match s.dropWhile (delims.contains ·) with
  | [] => none
  | c :: t =>
    some ((c :: t).takeWhile (!delims.contains ·), ((c :: t).dropWhile (!delims.contains ·)).drop 1)

/-! ## The string in a buffer -/

@[simp] theorem cstr_nil : cstr [] = [] := rfl

@[simp] theorem cstr_nul (b : Bytes) : cstr (0 :: b) = [] := by simp [cstr]

theorem cstr_cons {c : UInt8} (hc : c ≠ 0) (b : Bytes) : cstr (c :: b) = c :: cstr b := by
  simp [cstr, hc]

theorem cstr_append {s : Bytes} (hs : 0 ∉ s) (b : Bytes) : cstr (s ++ b) = s ++ cstr b := by
  unfold cstr
  rw [List.takeWhile_append_of_pos]
  intro c hc
  simp only [bne_iff_ne, ne_eq]
  rintro rfl; exact hs hc

theorem cstr_of_nulFree {s : Bytes} (hs : 0 ∉ s) : cstr s = s := by
  simpa using cstr_append hs []

theorem nul_not_mem_cstr : ∀ b : Bytes, 0 ∉ cstr b
  | [] => by simp
  | c :: b => by
    by_cases hc : c = 0
    · subst hc; simp
    · rw [cstr_cons hc, List.mem_cons, not_or]
      exact ⟨fun h => hc h.symm, nul_not_mem_cstr b⟩

theorem cstr_append_of_mem {s : Bytes} (h : 0 ∈ s) (b : Bytes) : cstr (s ++ b) = cstr s := by
  obtain ⟨pre, post, rfl, hpre⟩ := List.eq_append_cons_of_mem h
  rw [List.append_assoc, cstr_append hpre, cstr_append hpre, List.cons_append, cstr_nul, cstr_nul]

theorem cstr_initial (b : Bytes) : cstr b <+: b := List.takeWhile_prefix _

theorem cstr_length_lt {b : Bytes} (h : 0 ∈ b) : (cstr b).length < b.length := by
  refine lt_of_le_of_ne (cstr_initial b).length_le fun hlen => ?_
  rw [← (cstr_initial b).eq_of_length hlen] at h
  exact nul_not_mem_cstr b h

@[simp] theorem cstr_cstr (b : Bytes) : cstr (cstr b) = cstr b := cstr_of_nulFree (nul_not_mem_cstr b)

theorem streq_iff {a b : Bytes} : streq a b = true ↔ cstr a = cstr b := by simp [streq]

theorem not_mem_take {s : Bytes} {c : UInt8} (h : c ∉ s) (n : Nat) : c ∉ s.take n :=
  fun hc => h (List.mem_of_mem_take hc)

/-! ## Bounded copies -/

theorem strncpy_cstr (dst src : Bytes) (n : Nat) : strncpy dst (cstr src) n = strncpy dst src n := by
  simp [strncpy]

/-- What a bounded copy leaves in the buffer: a shorter string whole, a string
of `n` bytes or more followed by whatever the buffer held behind it. -/
theorem cstr_strncpy (dst src : Bytes) (n : Nat) :
    cstr (strncpy dst src n) =
      if (cstr src).length < n then cstr src else (cstr src).take n ++ cstr (dst.drop n) := by
  have h0 := nul_not_mem_cstr src
  unfold strncpy
  split
  · rename_i h
    obtain ⟨k, hk⟩ : ∃ k, n - (cstr src).length = k + 1 := ⟨n - (cstr src).length - 1, by omega⟩
    rw [List.append_assoc, cstr_append (not_mem_take h0 n), hk, List.replicate_succ, List.cons_append,
      cstr_nul, List.append_nil, List.take_of_length_le (Nat.le_of_lt h)]
  · rename_i h
    rw [show n - (cstr src).length = 0 by omega, List.replicate_zero, List.append_nil,
      cstr_append (not_mem_take h0 n)]

theorem cstr_strncpy_of_le {dst src : Bytes} {n : Nat} (h : (cstr src).length ≤ n)
    (hd : (cstr src).length < n ∨ cstr (dst.drop n) = []) : cstr (strncpy dst src n) = cstr src := by
  rw [cstr_strncpy]
  split
  · rfl
  · rename_i hn
    rw [hd.resolve_left hn, List.append_nil, List.take_of_length_le h]

theorem cstr_strncpy_eq_iff {dst src : Bytes} {n : Nat} (h : (cstr src).length ≤ n) :
    cstr (strncpy dst src n) = cstr src ↔ (cstr src).length < n ∨ cstr (dst.drop n) = [] := by
  refine ⟨fun he => ?_, cstr_strncpy_of_le h⟩
  rw [cstr_strncpy] at he
  by_cases hn : (cstr src).length < n
  · exact Or.inl hn
  · rw [if_neg hn, List.take_of_length_le h] at he
    exact Or.inr (List.append_right_eq_self.mp he)

theorem strncpy_length {dst : Bytes} {n : Nat} (h : n ≤ dst.length) (src : Bytes) :
    (strncpy dst src n).length = dst.length := by
  simp only [strncpy, List.length_append, List.length_take, List.length_replicate, List.length_drop]
  omega

theorem cstr_drop_nil_iff {b : Bytes} {n : Nat} (hn : b.length = n + 1) :
    cstr (b.drop n) = [] ↔ b[n]? = some 0 := by
  have hlt : n < b.length := by omega
  rw [List.drop_eq_getElem_cons hlt, List.getElem?_eq_getElem hlt]
  by_cases h : b[n] = 0
  · simp [h]
  · rw [cstr_cons h]; simp [h]

theorem setNul_length (b : Bytes) (i : Nat) : (setNul b i).length = b.length := by simp [setNul]

theorem cstr_setNul {b : Bytes} {i : Nat} (hi : i < b.length) : cstr (setNul b i) = (cstr b).take i := by
  induction b generalizing i with
  | nil => simp at hi
  | cons c b ih =>
    cases i with
    | zero => simp [setNul]
    | succ i =>
      rw [setNul, List.set_cons_succ]
      by_cases hc : c = 0
      · subst hc; simp
      · rw [cstr_cons hc, cstr_cons hc, List.take_succ_cons]
        exact congrArg (c :: ·) (ih (by simpa using hi))

theorem cstr_setNul_strncpy {dst src : Bytes} {n : Nat} (hd : dst.length = n + 1) :
    cstr (setNul (strncpy dst src n) n) = (cstr src).take n := by
  rw [cstr_setNul (by rw [strncpy_length (by omega)]; omega), cstr_strncpy]
  split
  · rfl
  · rename_i h
    rw [List.take_append_of_le_length (by simp; omega), List.take_take, Nat.min_self]

theorem memcpy_length {dst src : Bytes} {n : Nat} (hs : n ≤ src.length) (hd : n ≤ dst.length) :
    (memcpy dst src n).length = dst.length := by
  simp only [memcpy, List.length_append, List.length_take, List.length_drop]
  omega

theorem cstr_setNul_memcpy {dst src : Bytes} {n : Nat} (h0 : 0 ∉ src.take n) (hs : n ≤ src.length)
    (hd : n < dst.length) : cstr (setNul (memcpy dst src n) n) = src.take n := by
  rw [cstr_setNul (by rw [memcpy_length hs (by omega)]; exact hd), memcpy, cstr_append h0,
    List.take_append_of_le_length (by simp; omega), List.take_take, Nat.min_self]

theorem cstr_replicate_nul (n : Nat) : cstr (List.replicate n 0) = [] := by
  cases n <;> simp [List.replicate_succ]

/-! ## Searching for a byte -/

theorem strchr_append {s : Bytes} {c : UInt8} (h : c ∉ s) (t : Bytes) :
    strchr (s ++ c :: t) c = some s.length := by
  induction s with
  | nil => simp [strchr, List.findIdx?_cons]
  | cons d s ih =>
    simp only [List.mem_cons, not_or] at h
    have : (d == c) = false := by simpa using fun e => h.1 e.symm
    simp only [strchr, List.cons_append, List.findIdx?_cons, this, Bool.false_eq_true, ite_false] at ih ⊢
    rw [ih h.2]; rfl

theorem strchr_none {s : Bytes} {c : UInt8} : strchr s c = none ↔ c ∉ s := by
  rw [strchr, List.findIdx?_eq_none_iff]
  constructor
  · intro h hc; simpa using h c hc
  · intro h d hd; simp only [beq_eq_false_iff_ne, ne_eq]; rintro rfl; exact h hd

theorem strchr_some {s : Bytes} {c : UInt8} {i : Nat} (h : strchr s c = some i) :
    i < s.length ∧ c ∉ s.take i ∧ s = s.take i ++ c :: s.drop (i + 1) := by
  rw [strchr, List.findIdx?_eq_some_iff_getElem] at h
  obtain ⟨hi, hc, hlt⟩ := h
  simp only [beq_iff_eq] at hc hlt
  refine ⟨hi, fun hm => ?_, ?_⟩
  · obtain ⟨j, hj, he⟩ := List.getElem_of_mem hm
    rw [List.getElem_take] at he
    rw [List.length_take] at hj
    exact hlt j (by omega) he
  · rw [← hc, List.getElem_cons_drop, List.take_append_drop]

end CStr

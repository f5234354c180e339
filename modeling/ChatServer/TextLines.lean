import ChatServer.CStr

/-!
# The lines of a text, and the pieces it is read in

`fgets` with a buffer of some size reads a line where it fits, and a longer line
in pieces. What is left of the text at a read names the place of the read.
-/

namespace CStr

/-- `fgets` of at most `n` bytes: the bytes stored and what is left of the file. -/
def fgets : Nat → Bytes → Bytes × Bytes
  | 0, file => ([], file)
  | _ + 1, [] => ([], [])
  | n + 1, c :: file =>
    if c = lf then ([c], file)
    else
      let (line, file) := fgets n file
      (c :: line, file)

theorem fgets_shorter : ∀ {n : Nat} {file : Bytes}, 0 < n → file ≠ [] → (fgets n file).2.length < file.length
  | n + 1, c :: file, _, _ => by
    rw [fgets]
    by_cases hc : c = lf
    · rw [if_pos hc]
      exact Nat.lt_succ_self _
    · rw [if_neg hc]
      have hle : ∀ (n : Nat) (file : Bytes), (fgets n file).2.length ≤ file.length := by
        intro n
        induction n with
        | zero => exact fun _ => Nat.le_refl _
        | succ n ih =>
          intro file
          cases file with
          | nil => exact Nat.le_refl _
          | cons c file =>
            rw [fgets]
            by_cases hc : c = lf
            · rw [if_pos hc]
              exact Nat.le_succ _
            · rw [if_neg hc]
              exact (ih file).trans (Nat.le_succ _)
      exact Nat.lt_succ_of_le (hle n file)

/-! ## Lines and reads -/

/-- The line that begins here, without its LF. -/
def lineOf (s : Bytes) : Bytes := s.takeWhile (· != lf)

def afterLine (s : Bytes) : Bytes := (s.dropWhile (· != lf)).drop 1

theorem afterLine_shorter {s : Bytes} (h : s ≠ []) : (afterLine s).length < s.length := by
  have hle := (List.dropWhile_suffix (· != lf) (l := s)).length_le
  have hpos := List.length_pos_of_ne_nil h
  rw [afterLine, List.length_drop]
  omega

theorem afterLine_subset (s : Bytes) : ∀ c ∈ afterLine s, c ∈ s := fun _ hc =>
  (List.dropWhile_suffix _).subset (List.mem_of_mem_drop hc)

/-- What is left of the text where each line begins. -/
def lineStarts (text : Bytes) : List Bytes := if _h : text = [] then [] else text :: lineStarts (afterLine text)
termination_by text.length
decreasing_by exact afterLine_shorter _h

def physicalLines (text : Bytes) : List Bytes := (lineStarts text).map lineOf

theorem physicalLines_nil : physicalLines [] = [] := by
  rw [physicalLines, lineStarts, dif_pos rfl]
  rfl

theorem physicalLines_cons {s : Bytes} (hs : s ≠ []) : physicalLines s = lineOf s :: physicalLines (afterLine s) := by
  rw [physicalLines, lineStarts, dif_neg hs, List.map_cons]
  rfl

/-- What is left of the text at each call of `fgets` that reads at most `n` bytes. -/
def reads (n : Nat) (text : Bytes) : List Bytes :=
  if _h : 0 < n ∧ text ≠ [] then text :: reads n (fgets n text).2 else []
termination_by text.length
decreasing_by exact fgets_shorter _h.1 _h.2

/-- What is left of the text at each read of the line that begins, or goes on, here. -/
def lineReads (n : Nat) (s : Bytes) : List Bytes :=
  if _h : 0 < n ∧ s ≠ [] then if (lineOf s).length < n then [s] else s :: lineReads n (s.drop n) else []
termination_by s.length
decreasing_by
  have hpos := List.length_pos_of_ne_nil _h.2
  rw [List.length_drop]
  omega

@[simp] theorem reads_nil (n : Nat) : reads n [] = [] := by
  rw [reads, dif_neg fun h => h.2 rfl]

@[simp] theorem lineReads_nil (n : Nat) : lineReads n [] = [] := by
  rw [lineReads, dif_neg fun h => h.2 rfl]

/-- `fgets` stores the line where it fits, and else as much of it as there is room for. -/
theorem fgets_eq : ∀ (n : Nat) (s : Bytes), (fgets n s).1.takeWhile (· != lf) = (lineOf s).take n ∧
    (fgets n s).2 = if (lineOf s).length < n then afterLine s else s.drop n
  | 0, s => ⟨rfl, rfl⟩
  | n + 1, [] => ⟨rfl, rfl⟩
  | n + 1, c :: s => by
    obtain ⟨hpiece, hrest⟩ := fgets_eq n s
    rw [fgets]
    by_cases hc : c = lf
    · subst hc
      rw [if_pos rfl]
      exact ⟨rfl, rfl⟩
    · have hne : (c != lf) = true := by simpa using hc
      have hline : lineOf (c :: s) = c :: lineOf s := by rw [lineOf, List.takeWhile_cons, if_pos hne, lineOf]
      have hafter : afterLine (c :: s) = afterLine s := by rw [afterLine, List.dropWhile_cons, if_pos hne, afterLine]
      rw [if_neg hc, hline, hafter]
      refine ⟨?_, ?_⟩
      · rw [List.takeWhile_cons, if_pos hne, hpiece, List.take_succ_cons]
      · rw [List.length_cons, List.drop_succ_cons]
        simp only [hrest, Nat.add_lt_add_iff_right]

theorem fgets_subset (n : Nat) (s : Bytes) : ∀ c ∈ (fgets n s).1, c ∈ s := by
  induction n generalizing s with
  | zero => exact fun c h => absurd h List.not_mem_nil
  | succ n ih =>
    cases s with
    | nil => exact fun c h => absurd h List.not_mem_nil
    | cons d s =>
      intro c hc
      rw [fgets] at hc
      split at hc
      · rw [List.mem_singleton.mp hc]
        exact List.mem_cons_self ..
      · rcases List.mem_cons.mp hc with rfl | hc
        · exact List.mem_cons_self ..
        · exact List.mem_cons_of_mem _ (ih s c hc)

theorem lineOf_drop {n : Nat} : ∀ {s : Bytes}, n ≤ (lineOf s).length →
    lineOf (s.drop n) = (lineOf s).drop n ∧ afterLine (s.drop n) = afterLine s := by
  induction n with
  | zero => exact fun _ => ⟨rfl, rfl⟩
  | succ n ih =>
    intro s h
    cases s with
    | nil => exact ⟨rfl, rfl⟩
    | cons c s =>
      have hne : (c != lf) = true := by
        by_contra hc
        rw [lineOf, List.takeWhile_cons, if_neg hc] at h
        cases h
      have hline : lineOf (c :: s) = c :: lineOf s := by rw [lineOf, List.takeWhile_cons, if_pos hne, lineOf]
      have hafter : afterLine (c :: s) = afterLine s := by rw [afterLine, List.dropWhile_cons, if_pos hne, afterLine]
      rw [hline, List.length_cons] at h
      rw [hline, hafter, List.drop_succ_cons, List.drop_succ_cons]
      exact ih (by omega)

/-! ## The reads of a line -/

section
variable {n : Nat} (hn : 0 < n)
include hn

theorem reads_eq {s : Bytes} (hs : s ≠ []) : reads n s = s :: reads n (fgets n s).2 := by
  rw [reads, dif_pos ⟨hn, hs⟩]

theorem lineReads_short {s : Bytes} (hs : s ≠ []) (h : (lineOf s).length < n) : lineReads n s = [s] := by
  rw [lineReads, dif_pos ⟨hn, hs⟩, if_pos h]

theorem lineReads_long {s : Bytes} (hs : s ≠ []) (h : ¬ (lineOf s).length < n) : lineReads n s = s :: lineReads n (s.drop n) := by
  rw [lineReads, dif_pos ⟨hn, hs⟩, if_neg h]

theorem drop_shorter {s : Bytes} (hs : s ≠ []) : (s.drop n).length < s.length := by
  have hpos := List.length_pos_of_ne_nil hs
  rw [List.length_drop]
  omega

/-- The reads of a text are those of its first line and those of the rest. -/
theorem reads_line (s : Bytes) : reads n s = lineReads n s ++ reads n (afterLine s) := by
  induction hm : s.length using Nat.strongRecOn generalizing s with
  | _ m ih =>
    subst hm
    by_cases hs : s = []
    · subst hs
      rw [lineReads_nil]
      rfl
    rw [reads_eq hn hs, (fgets_eq n s).2]
    by_cases hshort : (lineOf s).length < n
    · rw [if_pos hshort, lineReads_short hn hs hshort]
      rfl
    · rw [if_neg hshort, lineReads_long hn hs hshort, ih _ (drop_shorter hn hs) _ rfl, (lineOf_drop (Nat.le_of_not_lt hshort)).2]
      rfl

end

section
variable {n : Nat}

theorem lineReads_length {s t : Bytes} (ht : t ∈ lineReads n s) : (afterLine s).length < t.length ∧ t.length ≤ s.length := by
  induction hm : s.length using Nat.strongRecOn generalizing s with
  | _ m ih =>
    subst hm
    by_cases hlive : 0 < n ∧ s ≠ []
    swap
    · rw [lineReads, dif_neg hlive] at ht
      exact absurd ht List.not_mem_nil
    obtain ⟨hn, hs⟩ := hlive
    have hafter := afterLine_shorter hs
    by_cases hshort : (lineOf s).length < n
    · rw [lineReads_short hn hs hshort, List.mem_singleton] at ht
      rw [ht]
      exact ⟨hafter, Nat.le_refl _⟩
    · rw [lineReads_long hn hs hshort, List.mem_cons] at ht
      rcases ht with rfl | ht
      · exact ⟨hafter, Nat.le_refl _⟩
      · obtain ⟨h₁, h₂⟩ := ih _ (drop_shorter hn hs) ht rfl
        rw [(lineOf_drop (Nat.le_of_not_lt hshort)).2] at h₁
        exact ⟨h₁, h₂.trans (Nat.le_of_lt (drop_shorter hn hs))⟩

theorem reads_length {s t : Bytes} (ht : t ∈ reads n s) : t.length ≤ s.length := by
  induction hm : s.length using Nat.strongRecOn generalizing s with
  | _ m ih =>
    subst hm
    by_cases hlive : 0 < n ∧ s ≠ []
    swap
    · rw [reads, dif_neg hlive] at ht
      exact absurd ht List.not_mem_nil
    rw [reads_eq hlive.1 hlive.2, List.mem_cons] at ht
    have hlt := fgets_shorter hlive.1 hlive.2
    rcases ht with rfl | ht
    · exact Nat.le_refl _
    · exact (ih _ hlt ht rfl).trans (Nat.le_of_lt hlt)

theorem lineStarts_length {s t : Bytes} (ht : t ∈ lineStarts s) : t.length ≤ s.length := by
  induction hm : s.length using Nat.strongRecOn generalizing s with
  | _ m ih =>
    subst hm
    by_cases hs : s = []
    · rw [lineStarts, dif_pos hs] at ht
      exact absurd ht List.not_mem_nil
    rw [lineStarts, dif_neg hs, List.mem_cons] at ht
    have hlt := afterLine_shorter hs
    rcases ht with rfl | ht
    · exact Nat.le_refl _
    · exact (ih _ hlt ht rfl).trans (Nat.le_of_lt hlt)

end

/-- Every read of a text is a read of one of its lines. -/
theorem exists_line_of_read {n : Nat} (hn : 0 < n) {s t : Bytes} (ht : t ∈ reads n s) : ∃ start ∈ lineStarts s, t ∈ lineReads n start := by
  induction hm : s.length using Nat.strongRecOn generalizing s with
  | _ m ih =>
    subst hm
    by_cases hs : s = []
    · rw [hs, reads_nil] at ht
      exact absurd ht List.not_mem_nil
    rw [reads_line hn, List.mem_append] at ht
    rw [lineStarts, dif_neg hs]
    rcases ht with ht | ht
    · exact ⟨s, List.mem_cons_self .., ht⟩
    · obtain ⟨start, hstart, hin⟩ := ih _ (afterLine_shorter hs) ht rfl
      exact ⟨start, List.mem_cons_of_mem _ hstart, hin⟩

theorem append_eq_append_iff_of_split {α : Type} {p : α → Bool} {a b c d : List α} (ha : ∀ x ∈ a, p x = true)
    (hb : ∀ x ∈ b, p x = false) (hc : ∀ x ∈ c, p x = true) (hd : ∀ x ∈ d, p x = false) :
    a ++ b = c ++ d ↔ a = c ∧ b = d := by
  constructor
  · intro h
    have hfront : ∀ {u v : List α}, (∀ x ∈ u, p x = true) → (∀ x ∈ v, p x = false) → (u ++ v).filter p = u := by
      intro u v hu hv
      rw [List.filter_append, List.filter_eq_self.mpr hu, List.filter_eq_nil_iff.mpr fun x hx => by simp [hv x hx], List.append_nil]
    have hac : a = c := by rw [← hfront ha hb, h, hfront hc hd]
    subst hac
    exact ⟨rfl, List.append_cancel_left h⟩
  · rintro ⟨rfl, rfl⟩
    rfl

end CStr

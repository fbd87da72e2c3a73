import Tlpi.Lib.CString

/-!
# `fgets`

A stream is the list of the bytes that are still to be read.  `fgets` reads to the end of the
line, but not more than the buffer holds; `reads` is what its calls return one after the other,
until one returns `NULL`.  `lines` are the lines of a text, each with its newline, the last one
possibly without.

* `reads_line`, `reads_last`: a line that fits in the buffer is read at once.
* `reads_long`: of a line that does not fit, what fills the buffer is read.
* `reads_of_lines`: as long as the lines fit, what is read are the lines.
* `not_prefix_of_mem_reads`: where the rest of a line is too short for `p`, a piece that begins with
  `p` is the beginning of a line.
* `lines_of_ne_nil`: the lines of a text are its first line (`splitLine`) and those of the rest.
* `lineRec`: induction over the lines of a text.
-/

namespace Tlpi.Lib

/-- At most `n` bytes, none behind a newline, and what is left of the stream. -/
def getLine : Nat → Bytes → Bytes × Bytes
  | 0, s => ([], s)
  | _ + 1, [] => ([], [])
  | n + 1, c :: s => if c = 10 then ([c], s) else (c :: (getLine n s).1, (getLine n s).2)

/-- `fgets(buf, size, stream)`: the bytes before the terminator, and what is left; `none` for
`NULL`. -/
def fgets (size : Nat) (s : Bytes) : Option (Bytes × Bytes) :=
  if s = [] then none else some (getLine (size - 1) s)

def readsUpTo (size : Nat) : Nat → Bytes → List Bytes
  | 0, _ => []
  | n + 1, s =>
      match fgets size s with
      | none => []
      | some (line, rest) => line :: readsUpTo size n rest

/-- What the calls of `fgets` return until `NULL`.  A call takes at least one byte, so there are
no more calls than bytes. -/
def reads (size : Nat) (s : Bytes) : List Bytes := readsUpTo size s.length s

/-- The lines of a text. -/
def lines : Bytes → List Bytes
  | [] => []
  | c :: s =>
      if c = 10 then [c] :: lines s
      else
        match lines s with
        | [] => [[c]]
        | l :: ls => (c :: l) :: ls

/-- The first line of a text, and the rest. -/
def splitLine (s : Bytes) : Bytes × Bytes := getLine s.length s

/-- A line without its newline. -/
def chomp (l : Bytes) : Bytes := if l.getLast? = some 10 then l.dropLast else l

section Lines

variable {l s : Bytes}

theorem lines_line (hl : 10 ∉ l) (s : Bytes) : lines (l ++ 10 :: s) = (l ++ [10]) :: lines s := by
  induction l with
  | nil => rfl
  | cons c l ih =>
    rw [List.mem_cons, not_or] at hl
    rw [List.cons_append, lines, if_neg (Ne.symm hl.1), ih hl.2]
    rfl

theorem lines_last (hne : l ≠ []) (hl : 10 ∉ l) : lines l = [l] := by
  induction l with
  | nil => exact absurd rfl hne
  | cons c l ih =>
    rw [List.mem_cons, not_or] at hl
    rw [lines, if_neg (Ne.symm hl.1)]
    cases l with
    | nil => rfl
    | cons d l => rw [ih (List.cons_ne_nil d l) hl.2]

/-- **Induction over the lines** of a text: it has none, or one without a newline, or one that
others may follow. -/
@[elab_as_elim]
theorem lineRec {motive : Bytes → Prop} (s : Bytes) (nil : motive [])
    (last : ∀ l, l ≠ [] → 10 ∉ l → motive l)
    (line : ∀ l s, 10 ∉ l → motive s → motive (l ++ 10 :: s)) : motive s := by
  induction hn : s.length using Nat.strongRecOn generalizing s with
  | ind n ih =>
    by_cases hmem : 10 ∈ s
    · obtain ⟨l, t, rfl, hl⟩ := List.eq_append_cons_of_mem hmem
      refine line l t hl (ih t.length ?_ t rfl)
      rw [← hn, List.length_append, List.length_cons]
      omega
    · by_cases hs : s = []
      · exact hs ▸ nil
      · exact last s hs hmem

theorem flatten_lines (s : Bytes) : (lines s).flatten = s := by
  induction s using lineRec with
  | nil => rfl
  | last l hne hl => rw [lines_last hne hl, List.flatten_singleton]
  | line l s hl ih =>
    rw [lines_line hl, List.flatten_cons, ih, List.append_assoc]
    rfl

/-- A byte that is not in the text is in no line. -/
theorem not_mem_of_mem_lines {c : UInt8} (hc : c ∉ s) (h : l ∈ lines s) : c ∉ l :=
  fun hmem => hc (flatten_lines s ▸ List.mem_flatten.mpr ⟨l, h, hmem⟩)

theorem length_le_chomp (l : Bytes) : l.length ≤ (chomp l).length + 1 := by
  rw [chomp]
  split_ifs
  · rw [List.length_dropLast]
    omega
  · exact Nat.le_succ _

end Lines

section Reads

variable {size n : Nat} {l s : Bytes}

theorem getLine_append (n : Nat) (s : Bytes) : (getLine n s).1 ++ (getLine n s).2 = s := by
  fun_induction getLine n s with
  | case1 s => rfl
  | case2 n => rfl
  | case3 n s => rfl
  | case4 n c s hc ih => rw [List.cons_append, ih]

theorem getLine_line (hl : 10 ∉ l) (hn : l.length < n) (s : Bytes) :
    getLine n (l ++ 10 :: s) = (l ++ [10], s) := by
  induction l generalizing n with
  | nil =>
    obtain ⟨m, rfl⟩ := Nat.exists_eq_add_of_lt hn
    rfl
  | cons c l ih =>
    rw [List.mem_cons, not_or] at hl
    rw [List.length_cons] at hn
    obtain ⟨m, rfl⟩ : ∃ m, n = m + 1 := ⟨n - 1, by omega⟩
    rw [List.cons_append, getLine, if_neg (Ne.symm hl.1), ih hl.2 (by omega)]
    rfl

/-- Where no newline comes in time, the buffer is filled. -/
theorem getLine_fill (hl : 10 ∉ l) (s : Bytes) : getLine l.length (l ++ s) = (l, s) := by
  induction l with
  | nil => rfl
  | cons c l ih =>
    rw [List.mem_cons, not_or] at hl
    rw [List.length_cons, List.cons_append, getLine, if_neg (Ne.symm hl.1), ih hl.2]

theorem getLine_last (hl : 10 ∉ l) (hn : l.length ≤ n) : getLine n l = (l, []) := by
  induction l generalizing n with
  | nil => cases n <;> rfl
  | cons c l ih =>
    rw [List.mem_cons, not_or] at hl
    rw [List.length_cons] at hn
    obtain ⟨m, rfl⟩ : ∃ m, n = m + 1 := ⟨n - 1, by omega⟩
    rw [getLine, if_neg (Ne.symm hl.1), ih hl.2 (by omega)]

theorem splitLine_line (hl : 10 ∉ l) (s : Bytes) : splitLine (l ++ 10 :: s) = (l ++ [10], s) :=
  getLine_line hl (by rw [List.length_append, List.length_cons]; omega) s

theorem splitLine_last (hl : 10 ∉ l) : splitLine l = (l, []) := getLine_last hl (Nat.le_refl _)

theorem lines_of_ne_nil (hne : s ≠ []) : lines s = (splitLine s).1 :: lines (splitLine s).2 := by
  induction s using lineRec with
  | nil => exact absurd rfl hne
  | last l hl hno => rw [lines_last hl hno, splitLine_last hno, lines]
  | line l s hl ih => rw [lines_line hl, splitLine_line hl]

theorem length_getLine_le (n : Nat) (s : Bytes) : (getLine n s).1.length ≤ n := by
  fun_induction getLine n s with
  | case1 s => exact Nat.le_refl 0
  | case2 n => exact Nat.zero_le _
  | case3 n s => simp
  | case4 n c s hc ih => simpa using ih

/-- Each call takes at least one byte from the stream. -/
theorem length_rest_lt (hsize : 2 ≤ size) {line rest : Bytes} (h : fgets size s = some (line, rest)) :
    rest.length < s.length := by
  obtain ⟨m, hm⟩ : ∃ m, size - 1 = m + 1 := ⟨size - 2, by omega⟩
  rw [fgets] at h
  split_ifs at h with hs
  rw [Option.some.injEq, hm] at h
  cases s with
  | nil => exact absurd rfl hs
  | cons c s =>
    rw [getLine] at h
    split_ifs at h with hc
    · cases h
      exact Nat.lt_succ_self _
    · cases h
      have hlen := congrArg List.length (getLine_append m s)
      rw [List.length_append] at hlen
      rw [List.length_cons]
      omega

theorem readsUpTo_eq (hsize : 2 ≤ size) {m : Nat} (hn : s.length ≤ n) (hm : s.length ≤ m) :
    readsUpTo size n s = readsUpTo size m s := by
  induction n generalizing m s with
  | zero =>
    obtain rfl : s = [] := List.eq_nil_of_length_eq_zero (by omega)
    cases m <;> rfl
  | succ n ih =>
    cases m with
    | zero =>
      obtain rfl : s = [] := List.eq_nil_of_length_eq_zero (by omega)
      rfl
    | succ m =>
      rw [readsUpTo, readsUpTo]
      cases h : fgets size s with
      | none => rfl
      | some r =>
        have hlt := length_rest_lt hsize h
        have heq := ih (s := r.2) (m := m) (by omega) (by omega)
        simp only [heq]

theorem reads_nil : reads size [] = [] := rfl

theorem reads_cons (hsize : 2 ≤ size) {line rest : Bytes} (h : fgets size s = some (line, rest)) :
    reads size s = line :: reads size rest := by
  have hlt := length_rest_lt hsize h
  obtain ⟨n, hn⟩ : ∃ n, s.length = n + 1 := ⟨s.length - 1, by omega⟩
  rw [reads, hn, readsUpTo, h]
  simp only
  rw [readsUpTo_eq hsize (by omega) (Nat.le_refl _), reads]

/-- A line that fits is read at once. -/
theorem reads_line (hl : 10 ∉ l) (hfits : (l ++ [10]).length < size) (s : Bytes) :
    reads size (l ++ 10 :: s) = (l ++ [10]) :: reads size s := by
  rw [List.length_append, List.length_singleton] at hfits
  refine reads_cons (by omega) ?_
  rw [fgets, if_neg (by simp), getLine_line hl (by omega)]

theorem reads_last (hne : l ≠ []) (hl : 10 ∉ l) (hfits : l.length < size) : reads size l = [l] := by
  have hpos := List.length_pos_iff.mpr hne
  have hget : fgets size l = some (l, []) := by
    rw [fgets, if_neg hne, getLine_last hl (by omega)]
  rw [reads_cons (by omega) hget, reads_nil]

theorem reads_long (hsize : 2 ≤ size) (hl : 10 ∉ l) (hfill : l.length = size - 1) (s : Bytes) :
    reads size (l ++ s) = l :: reads size s := by
  refine reads_cons hsize ?_
  have hne : l ++ s ≠ [] := by
    rintro h
    have hlen := congrArg List.length h
    rw [List.length_append, List.length_nil] at hlen
    omega
  rw [fgets, if_neg hne, ← hfill, getLine_fill hl]

/-- The lines that fit are read one by one, up to some point of the text. -/
theorem reads_of_lines {front after : List Bytes} (h : lines s = front ++ after)
    (hfits : ∀ l ∈ front, l.length < size) :
    ∃ t, lines t = after ∧ reads size s = front ++ reads size t := by
  induction s using lineRec generalizing front with
  | nil =>
    obtain ⟨rfl, rfl⟩ := List.append_eq_nil_iff.mp h.symm
    exact ⟨[], rfl, rfl⟩
  | last l hne hl =>
    cases front with
    | nil => exact ⟨l, h, rfl⟩
    | cons m front =>
      rw [lines_last hne hl, List.cons_append, List.cons_eq_cons] at h
      obtain ⟨rfl, hrest⟩ := h
      obtain ⟨rfl, rfl⟩ := List.append_eq_nil_iff.mp hrest.symm
      refine ⟨[], rfl, ?_⟩
      rw [reads_last hne hl (hfits l List.mem_cons_self), reads_nil]
      rfl
  | line l s hl ih =>
    cases front with
    | nil => exact ⟨l ++ 10 :: s, h, rfl⟩
    | cons m front =>
      rw [lines_line hl, List.cons_append, List.cons_eq_cons] at h
      obtain ⟨rfl, hrest⟩ := h
      rw [List.forall_mem_cons] at hfits
      obtain ⟨t, ht, hreads⟩ := ih hrest hfits.2
      exact ⟨t, ht, by rw [reads_line hl hfits.1, hreads, List.cons_append]⟩

theorem exists_fill (h : size - 1 ≤ l.length) :
    ∃ l₁ l₂, l = l₁ ++ l₂ ∧ l₁.length = size - 1 :=
  ⟨l.take (size - 1), l.drop (size - 1), (List.take_append_drop ..).symm,
    List.length_take_of_le h⟩

/-- A part of a line that is shorter than `p` does not begin with it. -/
theorem not_prefix_of_length_lt {p l : Bytes} (h : l.length < p.length) : ¬ p <+: l :=
  fun hp => absurd hp.length_le (by omega)

/-- **No piece is mistaken for a line** that begins with `p`, if at most one piece of each line is
as long as `p`. -/
theorem not_prefix_of_mem_reads {p : Bytes} (hsize : p.length < size)
    (hp : ∀ l ∈ lines s, ¬ p <+: l) (hlen : ∀ l ∈ lines s, l.length < size - 1 + p.length) :
    ∀ b ∈ reads size s, ¬ p <+: b := by
  have hpos : ∀ l ∈ lines s, 0 < p.length := by
    intro l hl
    refine List.length_pos_iff.mpr ?_
    rintro rfl
    exact hp l hl List.nil_prefix
  induction s using lineRec with
  | nil => simp [reads_nil]
  | last l hne hl =>
    rw [lines_last hne hl, List.forall_mem_singleton] at hp hlen hpos
    by_cases hfits : l.length < size
    · rw [reads_last hne hl hfits, List.forall_mem_singleton]
      exact hp
    · obtain ⟨l₁, l₂, rfl, hfill⟩ := exists_fill (show size - 1 ≤ l.length by omega)
      rw [List.length_append] at hfits hlen
      rw [List.mem_append, not_or] at hl
      have hne₂ : l₂ ≠ [] := List.length_pos_iff.mp (by omega)
      rw [reads_long (by omega) hl.1 hfill, reads_last hne₂ hl.2 (by omega), List.forall_mem_cons,
        List.forall_mem_singleton]
      refine ⟨fun h => hp (h.trans (List.prefix_append ..)), not_prefix_of_length_lt (by omega)⟩
  | line l s hl ih =>
    rw [lines_line hl, List.forall_mem_cons] at hp hlen hpos
    have hrest := ih hp.2 hlen.2 hpos.2
    by_cases hfits : (l ++ [10]).length < size
    · rw [reads_line hl hfits, List.forall_mem_cons]
      exact ⟨hp.1, hrest⟩
    · rw [List.length_append, List.length_singleton] at hfits hlen
      obtain ⟨l₁, l₂, rfl, hfill⟩ := exists_fill (show size - 1 ≤ l.length by omega)
      rw [List.length_append] at hfits hlen
      rw [List.mem_append, not_or] at hl
      have hshort : (l₂ ++ [10]).length < p.length := by
        rw [List.length_append, List.length_singleton]
        omega
      rw [List.append_assoc, reads_long (by omega) hl.1 hfill, reads_line hl.2 (by omega),
        List.forall_mem_cons, List.forall_mem_cons]
      refine ⟨fun h => hp.1 (h.trans ?_), not_prefix_of_length_lt hshort, hrest⟩
      exact (List.prefix_append ..).trans (List.prefix_append ..)

/-- What one call returns is shorter than the buffer. -/
theorem length_fgets_lt (hsize : 0 < size) {line rest : Bytes}
    (h : fgets size s = some (line, rest)) : line.length < size := by
  rw [fgets] at h
  split_ifs at h
  have hle := length_getLine_le (size - 1) s
  rw [Option.some.inj h] at hle
  simp only at hle
  omega

theorem flatten_reads (hsize : 2 ≤ size) (s : Bytes) : (reads size s).flatten = s := by
  induction hn : s.length using Nat.strongRecOn generalizing s with
  | ind n ih =>
    cases h : fgets size s with
    | none =>
      rw [fgets] at h
      split_ifs at h with hs
      subst hs
      rfl
    | some r =>
      have hlt := length_rest_lt hsize h
      rw [reads_cons hsize h, List.flatten_cons, ih _ (hn ▸ hlt) _ rfl]
      rw [fgets] at h
      split_ifs at h
      cases h
      exact getLine_append _ _

/-- A byte that is not in the text is in no piece. -/
theorem not_mem_of_mem_reads {c : UInt8} (hsize : 2 ≤ size) (hc : c ∉ s) (h : l ∈ reads size s) :
    c ∉ l :=
  fun hmem => hc (flatten_reads hsize s ▸ List.mem_flatten.mpr ⟨l, h, hmem⟩)

end Reads

end Tlpi.Lib

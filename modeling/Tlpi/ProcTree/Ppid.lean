import Tlpi.ProcTree.Scan

/-!
# The parent in a status file

`get_ppid` looks for `PPid:` at the beginning of what `fgets` has read, which need not be the
beginning of a line.

* `ppidOf_append`: the first piece that begins with `PPid:` gives the number.
* `getPpid_of_lines`: it is the first line that does, if this line and those before it fit in the
  buffer.
-/

namespace Tlpi.ProcTree

open Tlpi.Lib

section Ppid

variable {pieces rest front after : List Bytes} {l s : Bytes}

/-- The test of the loop. -/
theorem strncmp_ppid (l : Bytes) : strncmp l (ascii "PPid:") 5 = 0 ↔ ascii "PPid:" <+: l :=
  strncmp_length_eq_zero (t := ascii "PPid:") (by decide)

theorem ppidOf_append (hnul : ∀ m ∈ pieces ++ [l], 0 ∉ m)
    (hpieces : ∀ m ∈ pieces, ¬ ascii "PPid:" <+: m) (hl : ascii "PPid:" <+: l) :
    ppidOf (pieces ++ l :: rest) = atoi (l.drop 5) := by
  induction pieces with
  | nil =>
    have hself : cstring l = l := cstring_eq_self (hnul l List.mem_cons_self)
    rw [List.nil_append, ppidOf, hself, if_pos ((strncmp_ppid l).mpr hl)]
  | cons m pieces ih =>
    rw [List.cons_append, List.forall_mem_cons] at hnul
    rw [List.forall_mem_cons] at hpieces
    rw [List.cons_append, ppidOf, cstring_eq_self hnul.1,
      if_neg (fun h => hpieces.1 ((strncmp_ppid m).mp h)), ih hnul.2 hpieces.2]

theorem ppidOf_eq_neg_one (hnul : ∀ m ∈ pieces, 0 ∉ m)
    (hpieces : ∀ m ∈ pieces, ¬ ascii "PPid:" <+: m) : ppidOf pieces = -1 := by
  induction pieces with
  | nil => rfl
  | cons m pieces ih =>
    rw [List.forall_mem_cons] at hnul hpieces
    rw [ppidOf, cstring_eq_self hnul.1, if_neg (fun h => hpieces.1 ((strncmp_ppid m).mp h)),
      ih hnul.2 hpieces.2]

/-- The first line that begins with `PPid:` is the one that counts, if it comes in time. -/
theorem getPpid_of_lines (hs : 0 ∉ s) (hlines : lines s = front ++ l :: after)
    (hfront : ∀ m ∈ front, ¬ ascii "PPid:" <+: m) (hl : ascii "PPid:" <+: l)
    (hfits : ∀ m ∈ front ++ [l], m.length < MAX_LINE_LEN) :
    getPpid (some s) = atoi (l.drop 5) := by
  have hsplit : lines s = (front ++ [l]) ++ after := by
    rw [hlines, List.append_assoc, List.singleton_append]
  obtain ⟨t, -, hreads⟩ := reads_of_lines hsplit hfits
  have hnul : ∀ m ∈ front ++ [l], 0 ∉ m := by
    intro m hm
    refine not_mem_of_mem_lines hs ?_
    rw [hsplit]
    exact List.mem_append_left after hm
  rw [getPpid, hreads, List.append_assoc, List.singleton_append]
  exact ppidOf_append hnul hfront hl

/-- Without such a line there is no parent, if the lines are not much longer than the buffer. -/
theorem getPpid_eq_neg_one (hs : 0 ∉ s) (hlines : ∀ l ∈ lines s, ¬ ascii "PPid:" <+: l)
    (hlen : ∀ l ∈ lines s, l.length ≤ MAX_LINE_LEN + 1) : getPpid (some s) = -1 := by
  have hsize : 2 ≤ MAX_LINE_LEN := by decide
  rw [getPpid]
  have hppid : (ascii "PPid:").length = 5 := rfl
  refine ppidOf_eq_neg_one (fun b hb => not_mem_of_mem_reads hsize hs hb) ?_
  refine not_prefix_of_mem_reads (by decide) hlines fun l hl => ?_
  have hle := hlen l hl
  rw [hppid]
  rw [MAX_LINE_LEN] at hle ⊢
  omega

end Ppid

/-- For every status text without NULs.  If the first line that begins with `PPid:` and the lines
before it have less than `MAX_LINE_LEN - 1` bytes, their newlines not counted, then `get_ppid`
returns what `atoi` makes of that line behind `PPid:`, which is the integer that stands there; the
lines after it do not matter.  If there is no such line, and no line is longer than the buffer, it
returns -1. -/
theorem ppid_of_first_line (text : CStr) :
    (∀ front l after, lines text.bytes = front ++ l :: after →
      (∀ m ∈ front, ¬ ascii "PPid:" <+: m) → ascii "PPid:" <+: l →
      (∀ m ∈ front ++ [l], (chomp m).length < MAX_LINE_LEN - 1) →
        getPpid (some text.bytes) = atoi (l.drop 5) ∧
          ∀ z, StartsWithInt (l.drop 5) z → -2 ^ 31 ≤ z → z < 2 ^ 31 →
            getPpid (some text.bytes) = z) ∧
      ((∀ l ∈ lines text.bytes, ¬ ascii "PPid:" <+: l) →
        (∀ l ∈ lines text.bytes, (chomp l).length ≤ MAX_LINE_LEN) →
          getPpid (some text.bytes) = -1) := by
  constructor
  · intro front l after hlines hfront hl hfits
    have hread : getPpid (some text.bytes) = atoi (l.drop 5) := by
      refine getPpid_of_lines text.noNul hlines hfront hl fun m hm => ?_
      have hlt := hfits m hm
      have hle := length_le_chomp m
      omega
    refine ⟨hread, fun z hz hmin hmax => ?_⟩
    rw [hread, atoi_of_startsWithInt hz hmin hmax]
  · intro hlines hlen
    refine getPpid_eq_neg_one text.noNul hlines fun l hl => ?_
    have hle := length_le_chomp l
    have hmax := hlen l hl
    omega

/-- A process whose name is `PPid:`, and one without a parent. -/
theorem ppid_of_first_line_named :
    getPpid (some (ascii "Name:\tPPid:\nPPid:\t7\n")) = 7 ∧
      getPpid (some (ascii "Name:\tsh\n")) = -1 := by
  have hnamed := (ppid_of_first_line ⟨ascii "Name:\tPPid:\nPPid:\t7\n", by decide⟩).1
    [ascii "Name:\tPPid:\n"] (ascii "PPid:\t7\n") [] (by decide) (by decide) (by decide) (by decide)
  have hnone := (ppid_of_first_line ⟨ascii "Name:\tsh\n", by decide⟩).2 (by decide) (by decide)
  refine ⟨hnamed.2 7 ⟨[9], [], [55], [10], by decide, ?_, .inl rfl, by decide, ?_, ?_, by decide⟩
    (by decide) (by decide), hnone⟩
  · exact List.forall_mem_singleton.mpr (by decide)
  · exact List.forall_mem_singleton.mpr (by decide)
  · rintro c ⟨⟩
    decide

end Tlpi.ProcTree

import Tlpi.ProcTree.Printing
import Tlpi.ProcTree.Scan

/-!
# The capacity of the table

`addChild` checks that there is room in `children`; the scan does not check that there is room in
`processes`.

* `scan_cases`: the scan stores the processes of `found`, or it gets out of the array.
* `exists_table`: with different PIDs and an `init`, what the scan has read is a `Table`.
* `mem_children_of_build`: in a table that is not too large, every process is linked to its parent.
* `keeps_everyone_iff`: no store is out of bounds, and nobody is dropped, exactly if at most
  `MAX_PROCESSES` processes are alive when the scan comes to them.
-/

namespace Tlpi.ProcTree

open Tlpi.Lib

/-- A process that is still there: it names its parent. -/
def Entry.alive (e : Entry) : Bool := e.isPid && getPpid e.status ≠ -1

/-- The entries before an allocation that fails. -/
def reached (entries : List Entry) : List Entry := entries.takeWhile fun e => !e.isPid || e.malloc

/-- The processes that are to be stored. -/
def found (entries : List Entry) : List Process :=
  ((reached entries).filter Entry.alive).map fun e => createProcess (atoi e.d_name) e

/-- The table is as it is meant: the scan stays in the array, and every process becomes a child
of its parent. -/
structure Complete (s : Scan) : Prop where
  in_bounds : s ≠ .outOfBounds
  linked : ∀ processes, s = .table processes → ∀ (i : Nat) (p : Process), processes[i]? = some p →
    (∃ q ∈ processes, q.pid = p.ppid) →
    ∃ q ∈ buildProcessTree processes, q.pid = p.ppid ∧ i ∈ q.children

section Scanning

variable {e : Entry} {entries : List Entry} {processes table : List Process}

theorem length_found (entries : List Entry) :
    (found entries).length = (reached entries).countP Entry.alive := by
  rw [found, List.length_map, List.countP_eq_length_filter]

theorem found_cons_of_alive (halive : e.alive = true) (hmalloc : e.malloc = true) :
    found (e :: entries) = createProcess (atoi e.d_name) e :: found entries := by
  simp [found, reached, halive, hmalloc]

theorem found_cons_of_not_alive (halive : e.alive = false) (hgo : (!e.isPid || e.malloc) = true) :
    found (e :: entries) = found entries := by
  have htake : reached (e :: entries) = e :: reached entries := List.takeWhile_cons_of_pos hgo
  rw [found, htake, List.filter_cons_of_neg (by rw [halive]; exact Bool.false_ne_true), found]

theorem found_cons_of_noMemory (hpid : e.isPid = true) (hmalloc : e.malloc = false) :
    found (e :: entries) = [] := by
  simp [found, reached, hpid, hmalloc]

/-- **The scan**, with some processes in the table already. -/
theorem scan_cases (processes : List Process) (hroom : processes.length ≤ MAX_PROCESSES)
    (entries : List Entry) :
    (scan processes entries = .outOfBounds ∧
        MAX_PROCESSES < processes.length + (found entries).length) ∨
      processes.length + (found entries).length ≤ MAX_PROCESSES ∧
        (scan processes entries = .noMemory ∨
          scan processes entries = .table (processes ++ found entries)) := by
  induction entries generalizing processes with
  | nil => exact .inr ⟨by simpa [found, reached] using hroom, .inr (by simp [scan, found, reached])⟩
  | cons e entries ih =>
    cases hpid : e.isPid with
    | false =>
      have hfound : found (e :: entries) = found entries :=
        found_cons_of_not_alive (by simp [Entry.alive, hpid]) (by simp [hpid])
      simpa [scan, hpid, hfound] using ih processes hroom
    | true =>
      cases hmalloc : e.malloc with
      | false =>
        rw [found_cons_of_noMemory hpid hmalloc]
        exact .inr ⟨hroom, .inl (by simp [scan, hpid, hmalloc])⟩
      | true =>
        by_cases hppid : getPpid e.status = -1
        · have hfound : found (e :: entries) = found entries :=
            found_cons_of_not_alive (by simp [Entry.alive, hppid]) (by simp [hmalloc])
          simpa [scan, hpid, hmalloc, createProcess, hppid, hfound] using ih processes hroom
        · have halive : e.alive = true := by simp [Entry.alive, hpid, hppid]
          rw [found_cons_of_alive halive hmalloc]
          by_cases hlt : processes.length < MAX_PROCESSES
          · have hnext := ih (processes ++ [createProcess (atoi e.d_name) e])
              (by simpa using Nat.succ_le_of_lt hlt)
            have hscan : scan processes (e :: entries) =
                scan (processes ++ [createProcess (atoi e.d_name) e]) entries := by
              simp [scan, hpid, hmalloc, createProcess, hppid, hlt]
            rw [hscan]
            simpa [Nat.add_assoc, Nat.add_comm 1] using hnext
          · refine .inl ⟨by simp [scan, hpid, hmalloc, createProcess, hppid, hlt], ?_⟩
            rw [List.length_cons]
            omega

theorem reached_eq_self (h : ∀ e ∈ entries, e.malloc = true) : reached entries = entries := by
  refine List.takeWhile_eq_self_iff.mpr fun e he => ?_
  rw [h e he, Bool.or_true]

theorem pid_pos_found (l : Listing) : ∀ p ∈ found l.entries, 0 < p.pid := by
  intro p hp
  obtain ⟨e, he, rfl⟩ := List.mem_map.mp hp
  obtain ⟨hreached, halive⟩ := List.mem_filter.mp he
  rw [Entry.alive, Bool.and_eq_true] at halive
  exact l.pid_pos e ((List.takeWhile_sublist _).subset hreached) halive.1

theorem unlinked_found : ∀ p ∈ found entries, p.children = [] := by
  intro p hp
  obtain ⟨e, -, rfl⟩ := List.mem_map.mp hp
  rfl

end Scanning

/-- **Nobody is dropped.** -/
theorem mem_children_of_build {l : List Process} (hmax : l.length ≤ MAX_PROCESSES)
    (hunlinked : ∀ p ∈ l, p.children = []) (hpos : ∀ p ∈ l, 0 < p.pid) {i : Nat} {p : Process}
    (hi : l[i]? = some p) (hparent : ∃ q ∈ l, q.pid = p.ppid) :
    ∃ q ∈ buildProcessTree l, q.pid = p.ppid ∧ i ∈ q.children := by
  obtain ⟨q, hq, hpid⟩ := hparent
  have hppid : p.ppid > 0 := hpid ▸ hpos q hq
  obtain ⟨hlt, -⟩ := List.getElem?_eq_some_iff.mp hi
  cases hfind : findProcess l p.ppid with
  | none =>
    have hne := List.findIdx?_eq_none_iff.mp hfind q hq
    exact absurd hpid (of_decide_eq_false hne)
  | some j =>
    obtain ⟨hj, hjpid, -⟩ := List.findIdx?_eq_some_iff_getElem.mp hfind
    have hparentOf : parentOf l i = some j := by simp [parentOf, hi, hppid, hfind]
    rw [buildProcessTree_eq hmax hunlinked]
    refine ⟨{ l[j] with children := childrenUpTo l l.length j }, ?_, of_decide_eq_true hjpid, ?_⟩
    · refine List.mem_of_getElem? (i := j) ?_
      simp [linkedUpTo, hj]
    · exact List.mem_filter.mpr ⟨List.mem_range.mpr hlt, decide_eq_true hparentOf⟩

/-- For every listing of `/proc` and every outcome of reading the files, no process is stored
outside the table, and every process that is stored becomes a child of its parent if this is in
the table, exactly if at most `MAX_PROCESSES` of the processes that the scan comes to are alive. -/
theorem keeps_everyone_iff (l : Listing) :
    Complete (scan [] l.entries) ↔ (reached l.entries).countP Entry.alive ≤ MAX_PROCESSES := by
  have hcases := scan_cases [] (Nat.zero_le _) l.entries
  rw [List.length_nil, Nat.zero_add, List.nil_append, length_found] at hcases
  constructor
  · intro h
    rcases hcases with ⟨hout, -⟩ | ⟨hle, -⟩
    · exact absurd hout h.in_bounds
    · exact hle
  · intro hle
    rcases hcases with ⟨-, hlt⟩ | ⟨-, hscan | hscan⟩
    · omega
    · exact ⟨by simp [hscan], by simp [hscan]⟩
    · refine ⟨by simp [hscan], fun processes hprocesses i p hi hparent => ?_⟩
      rw [hscan, Scan.table.injEq] at hprocesses
      subst hprocesses
      exact mem_children_of_build (length_found l.entries ▸ hle) unlinked_found (pid_pos_found l) hi
        hparent

/-- What the scan has read is a `Table`, if the kernel has given each PID once and there is a
PID 1 without a parent; so `prints_tree` says what is printed of it. -/
theorem exists_table {l : Listing} {procs : List Process} (h : scan [] l.entries = .table procs)
    (hdistinct : (procs.map Process.pid).Nodup)
    (hinit : ∃ p ∈ procs, p.pid = 1 ∧ p.ppid = 0) : ∃ t : Table, t.procs = procs := by
  rcases scan_cases [] (Nat.zero_le _) l.entries with
    ⟨hout, -⟩ | ⟨hle, hscan | hscan⟩
  · cases hout.symm.trans h
  · cases hscan.symm.trans h
  · cases hscan.symm.trans h
    rw [List.length_nil, Nat.zero_add] at hle
    exact ⟨⟨_, hdistinct, hle, pid_pos_found l, unlinked_found, hinit⟩, rfl⟩

/-- The process with PID `n + 1`, a child of PID 1 unless it is PID 1 itself. -/
def crowdEntry (n : Nat) : Entry where
  isDir := true
  d_name := decimal (n + 1)
  malloc := true
  status := some (if n = 0 then ascii "Name:\tinit\nPPid:\t0\n" else ascii "Name:\tsh\nPPid:\t1\n")
  cmdline := some []
  comm := some (ascii "sh\n")

/-- The first `n` processes. -/
def crowdEntries (n : Nat) : List Entry := (List.range n).map crowdEntry

theorem mem_crowdEntries {n : Nat} {e : Entry} (he : e ∈ crowdEntries n) :
    ∃ m < n, e = crowdEntry m := by
  obtain ⟨m, hm, rfl⟩ := List.mem_map.mp he
  exact ⟨m, List.mem_range.mp hm, rfl⟩

/-- One process more than the table has room for. -/
def crowd : Listing where
  entries := crowdEntries (MAX_PROCESSES + 1)
  pid_pos := by
    intro e he _
    obtain ⟨m, hm, rfl⟩ := mem_crowdEntries he
    rw [MAX_PROCESSES] at hm
    show 0 < atoi (decimal (m + 1))
    rw [atoi_decimal (by omega)]
    omega

theorem alive_crowdEntry (n : Nat) : (crowdEntry n).alive = true := by
  have hname : (decimal (n + 1)).all isdigit = true :=
    List.all_eq_true.mpr fun _ hc => isdigit_of_mem_decimal hc
  have hppid : getPpid (crowdEntry n).status ≠ -1 := by
    show getPpid (some (if n = 0 then _ else _)) ≠ -1
    split_ifs
    · decide
    · decide
  show (true && (decimal (n + 1)).all isdigit && decide (getPpid (crowdEntry n).status ≠ -1)) = true
  rw [hname, decide_eq_true hppid]
  rfl

theorem found_crowdEntries (n : Nat) : (found (crowdEntries n)).length = n := by
  have hentries : ∀ e ∈ crowdEntries n, e.malloc = true ∧ e.alive = true := by
    intro e he
    obtain ⟨m, -, rfl⟩ := mem_crowdEntries he
    exact ⟨rfl, alive_crowdEntry m⟩
  rw [length_found, reached_eq_self fun e he => (hentries e he).1,
    List.countP_eq_length.mpr fun e he => (hentries e he).2, crowdEntries, List.length_map,
    List.length_range]

theorem nodup_crowdEntries (n : Nat) : ((crowdEntries n).map Entry.d_name).Nodup := by
  rw [crowdEntries, List.map_map]
  refine List.nodup_range.map fun i j hij => ?_
  have hdigits := congrArg ofDigits (show decimal (i + 1) = decimal (j + 1) from hij)
  rw [ofDigits_decimal, ofDigits_decimal] at hdigits
  exact Nat.succ_injective hdigits

theorem entries_crowd : crowd.entries = crowdEntries (MAX_PROCESSES + 1) := by rw [crowd]

/-- The last of 10001 processes is stored outside the table. -/
theorem crowd_overflows :
    (crowd.entries.map Entry.d_name).Nodup ∧ scan [] crowd.entries = .outOfBounds ∧
      ¬ Complete (scan [] crowd.entries) := by
  have hout : scan [] crowd.entries = .outOfBounds := by
    rcases scan_cases [] (Nat.zero_le _) crowd.entries with ⟨hout, -⟩ | ⟨hle, -⟩
    · exact hout
    · rw [entries_crowd, found_crowdEntries, List.length_nil] at hle
      omega
  refine ⟨?_, hout, fun h => h.in_bounds hout⟩
  rw [entries_crowd]
  exact nodup_crowdEntries _

end Tlpi.ProcTree

import Tlpi.ProcTree.Model

/-!
# What is printed

The table may hold anything in its `ppid` fields: a parent that is gone, a process that
is its own parent, a cycle.  Every process still has at most one parent (`parentOf`), and
PID 1 has none, so what can be reached from PID 1 is a tree.

* `buildProcessTree_eq`: after linking, the children of a process are the indices whose
  parent it is, in table order.  The bound in `addChild` is never met.
* `printProcessTree_eq`: printing is the walk `preorder` over these children, each line
  rendered by `line`.
* `chain_iff_below`: chains of `ppid` links are chains of `parentOf`.
* `prints_tree`: the recursion ends, and prints the processes whose chain reaches PID 1,
  once each, with their depth, parents before children, and siblings in table order.
-/

namespace Tlpi.ProcTree

open Tlpi.Lib

/-! ### Finding the parent -/

theorem findProcess_eq_of_map_pid {l l' : List Process}
    (h : l.map Process.pid = l'.map Process.pid) (pid : Int) :
    findProcess l pid = findProcess l' pid := by
  have hmap : ∀ l : List Process,
      findProcess l pid = (l.map Process.pid).findIdx? (fun a => decide (a = pid)) := by
    intro l
    rw [List.findIdx?_map]
    rfl
  rw [hmap, hmap, h]

/-- In a table with distinct PIDs, the process that is found is the one. -/
theorem findProcess_eq_some {l : List Process} (h : (l.map Process.pid).Nodup) {pid : Int}
    {j : Nat} : findProcess l pid = some j ↔ ∃ q, l[j]? = some q ∧ q.pid = pid := by
  rw [findProcess, List.findIdx?_eq_some_iff_getElem]
  constructor
  · rintro ⟨hj, hpid, -⟩
    exact ⟨l[j], List.getElem?_eq_getElem hj, by simpa using hpid⟩
  · rintro ⟨q, hq, hpid⟩
    obtain ⟨hj, rfl⟩ := List.getElem?_eq_some_iff.mp hq
    refine ⟨hj, by simpa using hpid, fun i hi => ?_⟩
    have hi' : i < l.length := by omega
    simp only [decide_eq_true_eq]
    intro heq
    apply List.nodup_iff_getElem?_ne_getElem?.mp h i j hi (by simpa using hj)
    simp [hi', hj, heq, hpid]

/-- The parent of a process of the table, by index. -/
def parentOf (l : List Process) (i : Nat) : Option Nat :=
  match l[i]? with
  | none => none
  | some p => if p.ppid > 0 then findProcess l p.ppid else none

theorem parentOf_eq_some {l : List Process} (h : (l.map Process.pid).Nodup)
    (hpos : ∀ p ∈ l, 0 < p.pid) {i j : Nat} :
    parentOf l i = some j ↔ ∃ p q, l[i]? = some p ∧ l[j]? = some q ∧ p.ppid = q.pid := by
  rw [parentOf]
  cases hi : l[i]? with
  | none => simp
  | some p =>
    constructor
    · intro hj
      simp only at hj
      split at hj
      · obtain ⟨q, hq, hpid⟩ := (findProcess_eq_some h).mp hj
        exact ⟨p, q, rfl, hq, hpid.symm⟩
      · cases hj
    · rintro ⟨p', q, hp', hq, hppid⟩
      cases hp'
      have hqpos := hpos q (List.mem_of_getElem? hq)
      simp only
      rw [if_pos (by omega)]
      exact (findProcess_eq_some h).mpr ⟨q, hq, hppid.symm⟩

/-! ### Linking -/

/-- The children of process `j` among the first `m` processes. -/
def childrenUpTo (l : List Process) (m j : Nat) : List Nat :=
  (List.range m).filter fun i => parentOf l i = some j

/-- The table after the first `m` processes have been linked. -/
def linkedUpTo (l : List Process) (m : Nat) : List Process :=
  l.mapIdx fun j p => { p with children := childrenUpTo l m j }

theorem map_pid_linkedUpTo (l : List Process) (m : Nat) :
    (linkedUpTo l m).map Process.pid = l.map Process.pid := by
  apply List.ext_getElem?
  intro i
  simp [linkedUpTo, Function.comp_def]

theorem length_childrenUpTo_le (l : List Process) (m j : Nat) : (childrenUpTo l m j).length ≤ m := by
  have := List.length_filter_le (fun i => decide (parentOf l i = some j)) (List.range m)
  rwa [List.length_range] at this

theorem childrenUpTo_succ (l : List Process) (m j : Nat) :
    childrenUpTo l (m + 1) j =
      if parentOf l m = some j then childrenUpTo l m j ++ [m] else childrenUpTo l m j := by
  rw [childrenUpTo, List.range_succ, List.filter_append]
  split <;> simp_all [childrenUpTo]

/-- One pass of the loop. -/
theorem linkOne_linkedUpTo {l : List Process} (hmax : l.length ≤ MAX_PROCESSES) {m : Nat}
    (hm : m < l.length) : linkOne (linkedUpTo l m) m = linkedUpTo l (m + 1) := by
  have hget : (linkedUpTo l m)[m]? =
      some { l[m] with children := childrenUpTo l m m } := by
    simp [linkedUpTo, hm]
  have hparent : parentOf l m = if l[m].ppid > 0 then findProcess l l[m].ppid else none := by
    simp [parentOf, hm]
  have hkeep : parentOf l m = none → linkedUpTo l m = linkedUpTo l (m + 1) := by
    intro hnone
    simp only [linkedUpTo, childrenUpTo_succ, hnone, reduceCtorEq, if_false]
  simp only [linkOne, hget]
  by_cases hpos : l[m].ppid > 0
  · rw [if_pos hpos, findProcess_eq_of_map_pid (map_pid_linkedUpTo l m)]
    rw [if_pos hpos] at hparent
    cases hfind : findProcess l l[m].ppid with
    | none => exact hkeep (hparent.trans hfind)
    | some parent =>
      have hsome : parentOf l m = some parent := hparent.trans hfind
      apply List.ext_getElem?
      intro j
      simp only [addChild, linkedUpTo, List.getElem?_modify, List.getElem?_mapIdx,
        childrenUpTo_succ, hsome, Option.some.injEq]
      have hbound : ∀ j, (childrenUpTo l m j).length < MAX_PROCESSES := by
        intro j
        have := length_childrenUpTo_le l m j
        omega
      by_cases hj : parent = j
      · cases l[j]? <;> simp [hj, hbound]
      · cases l[j]? <;> simp [hj]
  · rw [if_neg hpos] at hparent ⊢
    exact hkeep hparent

/-- **The links.**  Each process has got all processes whose parent it is. -/
theorem buildProcessTree_eq {l : List Process} (hmax : l.length ≤ MAX_PROCESSES)
    (hunlinked : ∀ p ∈ l, p.children = []) : buildProcessTree l = linkedUpTo l l.length := by
  have hloop : ∀ m ≤ l.length, (List.range m).foldl linkOne l = linkedUpTo l m := by
    intro m
    induction m with
    | zero =>
      intro _
      apply List.ext_getElem?
      intro j
      rw [linkedUpTo, List.getElem?_mapIdx]
      cases hj : l[j]? with
      | none => simp [hj]
      | some p =>
        have hp := hunlinked p (List.mem_of_getElem? hj)
        obtain ⟨pid, ppid, cmd, children⟩ := p
        subst hp
        simp [hj, childrenUpTo]
    | succ m ih =>
      intro hm
      rw [List.range_succ, List.foldl_append, ih (by omega)]
      exact linkOne_linkedUpTo hmax (by omega)
  exact hloop l.length le_rfl

/-! ### Printing -/

/-- The children as the recursion sees them. -/
def kids (l : List Process) (j : Nat) : List Nat :=
  if j < l.length then childrenUpTo l l.length j else []

/-- The lines of a walk. -/
def text (l : List Process) (out : List (Nat × Nat)) : List Char :=
  out.flatMap fun x => (l[x.2]?.map (line x.1)).getD []

theorem text_cons (l : List Process) (x : Nat × Nat) (out : List (Nat × Nat)) :
    text l (x :: out) = (l[x.2]?.map (line x.1)).getD [] ++ text l out := by
  rw [text, List.flatMap_cons, text]

theorem text_flatten (l : List Process) (outs : List (List (Nat × Nat))) :
    text l outs.flatten = (outs.map (text l)).flatten := by
  induction outs with
  | nil => rfl
  | cons out outs ih =>
    rw [List.flatten_cons, List.map_cons, List.flatten_cons, ← ih, text, List.flatMap_append]
    rfl

/-- Printing is a walk over the children. -/
theorem printProcessTree_eq (l : List Process) (fuel i level : Nat) (hi : i < l.length) :
    printProcessTree (linkedUpTo l l.length) fuel (some i) level =
      (preorder (kids l) fuel level i).map (text l) := by
  induction fuel generalizing i level with
  | zero => rfl
  | succ fuel ih =>
    have hget : (linkedUpTo l l.length)[i]? =
        some { l[i] with children := childrenUpTo l l.length i } := by
      simp [linkedUpTo, hi]
    have hkids : kids l i = childrenUpTo l l.length i := if_pos hi
    have hrange : ∀ c ∈ childrenUpTo l l.length i, c < l.length := by
      intro c hc
      exact List.mem_range.mp (List.mem_filter.mp hc).1
    simp only [printProcessTree, preorder, hget, hkids]
    rw [mapM_eq_map_mapM fun c hc => ih c (level + 1) (hrange c hc), Option.map_map, Option.map_map]
    congr 1
    funext outs
    rw [Function.comp_apply, Function.comp_apply, text_cons, text_flatten]
    simp [hi, line]

/-! ### The tree below PID 1 -/

section Tree

variable (t : Table)

/-- PID 1 has a place in the table, and no parent. -/
theorem exists_root : ∃ r p, findProcess t.procs 1 = some r ∧ t.procs[r]? = some p ∧ p.pid = 1 ∧
    parentOf t.procs r = none := by
  obtain ⟨p, hp, hpid, hppid⟩ := t.init
  obtain ⟨r, hr⟩ := List.mem_iff_getElem?.mp hp
  refine ⟨r, p, (findProcess_eq_some t.distinct).mpr ⟨p, hr, hpid⟩, hr, hpid, ?_⟩
  simp [parentOf, hr, hppid]

/-- Chains of `ppid` links through the table are chains of parents. -/
theorem chain_iff_below {r : Nat} {p₁ : Process} (hr : t.procs[r]? = some p₁) (hpid : p₁.pid = 1)
    {n : Nat} {p : Process} :
    t.Chain n p ↔ ∃ i, t.procs[i]? = some p ∧ Below (parentOf t.procs) r n i := by
  constructor
  · intro h
    induction h with
    | init hp hone =>
      rename_i p
      obtain ⟨i, hi⟩ := List.mem_iff_getElem?.mp hp
      have hir := (findProcess_eq_some t.distinct).mpr ⟨p, hi, hone⟩
      have hrr := (findProcess_eq_some t.distinct).mpr ⟨p₁, hr, hpid⟩
      rw [hir, Option.some.injEq] at hrr
      exact ⟨i, hi, hrr ▸ .self⟩
    | link hp hppid _ ih =>
      rename_i n p q _
      obtain ⟨i, hi⟩ := List.mem_iff_getElem?.mp hp
      obtain ⟨j, hj, hbelow⟩ := ih
      exact ⟨i, hi, .link ((parentOf_eq_some t.distinct t.pid_pos).mpr ⟨p, q, hi, hj, hppid⟩) hbelow⟩
  · rintro ⟨i, hi, hbelow⟩
    induction hbelow generalizing p with
    | self =>
      rw [hr, Option.some.injEq] at hi
      subst hi
      exact .init (List.mem_of_getElem? hr) hpid
    | link hparent _ ih =>
      obtain ⟨p', q, hp', hq, hppid⟩ := (parentOf_eq_some t.distinct t.pid_pos).mp hparent
      rw [hp', Option.some.injEq] at hi
      subst hi
      exact .link (List.mem_of_getElem? hp') hppid (ih hq)

theorem mem_kids {x y : Nat} : y ∈ kids t.procs x ↔ parentOf t.procs y = some x := by
  have hiff := parentOf_eq_some t.distinct t.pid_pos (i := y) (j := x)
  rw [kids]
  constructor
  · intro h
    split at h
    · exact of_decide_eq_true (List.mem_filter.mp h).2
    · cases h
  · intro h
    obtain ⟨p, q, hp, hq, -⟩ := hiff.mp h
    rw [if_pos (List.getElem?_eq_some_iff.mp hq).1]
    exact List.mem_filter.mpr
      ⟨List.mem_range.mpr (List.getElem?_eq_some_iff.mp hp).1, decide_eq_true h⟩

theorem nodup_kids (x : Nat) : (kids t.procs x).Nodup := by
  rw [kids]
  split
  · exact List.nodup_range.filter _
  · exact List.nodup_nil

theorem filterMap_getElem?_range (l : List Process) :
    (List.range l.length).filterMap (fun i => l[i]?) = l := by
  induction l with
  | nil => rfl
  | cons p l ih =>
    rw [List.length_cons, List.range_succ_eq_map, List.filterMap_cons, List.filterMap_map]
    simpa [Function.comp_def] using ih

/-- The children of a process, as processes: those of the table that name it as their
parent. -/
theorem filterMap_kids {x : Nat} {q : Process} (hq : t.procs[x]? = some q) :
    (kids t.procs x).filterMap (fun i => t.procs[i]?) =
      t.procs.filter fun p => p.ppid = q.pid := by
  have hx : x < t.procs.length := (List.getElem?_eq_some_iff.mp hq).1
  conv_rhs => rw [← filterMap_getElem?_range t.procs]
  rw [kids, if_pos hx, childrenUpTo, List.filterMap_filter, List.filter_filterMap]
  apply List.filterMap_congr
  intro i hi
  have hi : i < t.procs.length := List.mem_range.mp hi
  have hget : t.procs[i]? = some t.procs[i] := List.getElem?_eq_getElem hi
  have hiff : parentOf t.procs i = some x ↔ t.procs[i].ppid = q.pid := by
    rw [parentOf_eq_some t.distinct t.pid_pos]
    constructor
    · rintro ⟨p, q', hp, hq', hppid⟩
      rw [hget, Option.some.injEq] at hp
      rw [hq, Option.some.injEq] at hq'
      rw [hp, hppid, hq']
    · exact fun h => ⟨t.procs[i], q, hget, hq, h⟩
  by_cases hp : t.procs[i].ppid = q.pid
  · rw [if_pos (decide_eq_true (hiff.mpr hp)), hget, Option.filter_some, if_pos (decide_eq_true hp)]
  · rw [if_neg (by simpa using fun h => hp (hiff.mp h)), hget, Option.filter_some,
      if_neg (by simpa using hp)]

/-- A walk with the processes in place of their indices. -/
def walkLines (l : List Process) (out : List (Nat × Nat)) : List (Nat × Process) :=
  out.filterMap fun x => l[x.2]?.map fun p => (x.1, p)

theorem text_eq (l : List Process) (out : List (Nat × Nat)) :
    text l out = (walkLines l out).flatMap fun x => line x.1 x.2 := by
  induction out with
  | nil => rfl
  | cons x out ih =>
    simp only [walkLines] at ih ⊢
    rw [text_cons, ih, List.filterMap_cons]
    cases l[x.2]? <;> rfl

theorem map_snd_walkLines (l : List Process) (out : List (Nat × Nat)) :
    (walkLines l out).map Prod.snd = (out.map Prod.snd).filterMap fun i => l[i]? := by
  rw [walkLines, List.map_filterMap, List.filterMap_map]
  congr 1
  funext x
  cases h : l[x.2]? <;> simp [h]

/-- **The process tree.**  Printing the tree below PID 1 ends.  It prints exactly the
processes whose chain of `ppid` links reaches PID 1, each once and with two spaces for
each link of its chain, and each before all processes that name it as their parent,
which come in table order. -/
theorem prints_tree :
    ∃ lines : List (Nat × Process),
      (∀ fuel ≥ t.procs.length, printProcessTree (buildProcessTree t.procs) fuel
        (findProcess (buildProcessTree t.procs) 1) 0 =
          some (lines.flatMap fun x => line x.1 x.2)) ∧
      (∀ n p, (n, p) ∈ lines ↔ t.Chain n p) ∧
      (lines.map Prod.snd).Nodup ∧
      ∀ q ∈ lines.map Prod.snd,
        (q :: t.procs.filter fun p => p.ppid = q.pid).Sublist (lines.map Prod.snd) := by
  obtain ⟨r, p₁, hfind, hr, hpid, hparent⟩ := exists_root t
  have hlt : r < t.procs.length := (List.getElem?_eq_some_iff.mp hr).1
  have hrange : ∀ k y, Below (parentOf t.procs) r k y → y ∈ Finset.range t.procs.length := by
    intro k y hy
    rw [Finset.mem_range]
    cases hy with
    | self => exact hlt
    | link h _ =>
      obtain ⟨p, -, hp, -⟩ := (parentOf_eq_some t.distinct t.pid_pos).mp h
      exact (List.getElem?_eq_some_iff.mp hp).1
  obtain ⟨out, hout, hwalk⟩ := preorder_spec hparent hrange (fun x y => mem_kids t)
    (nodup_kids t) t.procs.length 0 r .self (by simp)
  refine ⟨walkLines t.procs out, ?_, ?_, ?_, ?_⟩
  · intro fuel hfuel
    rw [buildProcessTree_eq t.le_max t.unlinked,
      findProcess_eq_of_map_pid (map_pid_linkedUpTo t.procs _), hfind,
      printProcessTree_eq _ _ _ _ hlt, preorder_mono hfuel hout, Option.map_some, text_eq]
  · intro n p
    rw [chain_iff_below t hr hpid, walkLines, List.mem_filterMap]
    constructor
    · rintro ⟨⟨m, i⟩, hmem, hi⟩
      obtain ⟨p', hp', heq⟩ := Option.map_eq_some_iff.mp hi
      cases heq
      obtain ⟨k, hk, hbelow⟩ := (hwalk.mem_iff m i).mp hmem
      rw [Nat.zero_add] at hk
      exact ⟨i, hp', hk ▸ hbelow⟩
    · rintro ⟨i, hi, hbelow⟩
      exact ⟨(n, i), (hwalk.mem_iff n i).mpr ⟨n, (Nat.zero_add n).symm, hbelow⟩, by simp [hi]⟩
  · rw [map_snd_walkLines]
    refine hwalk.nodup.filterMap ?_
    intro i j p hi hj
    have hi' := (findProcess_eq_some t.distinct).mpr ⟨p, hi, rfl⟩
    have hj' := (findProcess_eq_some t.distinct).mpr ⟨p, hj, rfl⟩
    rw [hi', Option.some.injEq] at hj'
    exact hj'
  · intro q hq
    rw [map_snd_walkLines] at hq ⊢
    obtain ⟨i, hi, hget⟩ := List.mem_filterMap.mp hq
    obtain ⟨k, hk⟩ := (hwalk.mem_map_snd i).mp hi
    have hsub := (hwalk.order k i hk).filterMap fun i => t.procs[i]?
    rw [List.filterMap_cons_some hget, filterMap_kids t hget] at hsub
    exact hsub

/-- Two processes that are each other's parent are not printed. -/
example : (printProcessTree (buildProcessTree [⟨4, 1, "sh", []⟩, ⟨2, 3, "x", []⟩, ⟨1, 0, "init", []⟩,
    ⟨3, 2, "y", []⟩]) 4 (some 2) 0) = some "1 init\n  4 sh\n".toList := by
  decide

end Tree

end Tlpi.ProcTree

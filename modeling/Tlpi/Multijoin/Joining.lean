import Mathlib.Data.List.Nodup
import Tlpi.Lib.Lists
import Tlpi.Multijoin.Model

/-!
# Which slot a worker acts on

A worker reads its index from `main`'s loop variable, which `main` goes on
changing.  When every worker reads it while it still has the worker's own number
(`OnTime`), the bookkeeping is exact: `Inv` says what each slot's state is in
terms of where its worker is, and `sound_of_onTime` follows.  Without that
condition it fails at once: `late_read_out_of_bounds` is a run of one thread in
which `main` has left its creation loop before the worker reads `idx`, and the
worker takes `thread[1]` of an array of one.
-/

namespace Tlpi.Multijoin

open Tlpi.Lib

/-- A worker reads its index while `idx` has the worker's number. -/
def OnTime (s : State) : Ev → Prop
  | .worker k => s.workers[k]? = some .started → s.idx = k
  | _ => True

instance (s : State) : (e : Ev) → Decidable (OnTime s e)
  | .worker _ => inferInstanceAs (Decidable (_ → _))
  | .main | .mainFails | .spurious => inferInstanceAs (Decidable True)

/-! ### The invariant -/

/-- The state slot `k` should have, by where worker `k` is. -/
def expected (s : State) (k : Nat) : TState :=
  match s.workers[k]? with
  | some (.updated _) | some (.ended _) => .terminated
  | some (.joined _) => if s.pc = .mark ∧ s.idx = k then .terminated else .joined
  | _ => .alive

/-- How far `main` is, in terms of `idx` and the threads created. -/
def Place (n : Nat) (s : State) : Prop :=
  match s.pc with
  | .createTest => s.workers.length = s.idx ∧ s.idx ≤ n ∧ s.locked = false ∧ s.joinLog = []
  | .fill | .create => s.workers.length = s.idx ∧ s.idx < n ∧ s.locked = false ∧ s.joinLog = []
  | .createNext => s.workers.length = s.idx + 1 ∧ s.idx < n ∧ s.locked = false ∧ s.joinLog = []
  | .initCounts => s.workers.length = n ∧ s.locked = false ∧ s.joinLog = []
  | .liveTest | .lock | .condWait => s.workers.length = n ∧ s.totThreads = n ∧ s.locked = false
  | .condTest | .forTest | .unlock => s.workers.length = n ∧ s.totThreads = n ∧ s.locked = true
  | .check | .forNext =>
      s.workers.length = n ∧ s.totThreads = n ∧ s.locked = true ∧ s.idx < n
  | .join =>
      s.workers.length = n ∧ s.totThreads = n ∧ s.locked = true ∧ s.idx < n ∧
        expected s s.idx = .terminated
  | .mark =>
      s.workers.length = n ∧ s.totThreads = n ∧ s.locked = true ∧ s.idx < n ∧
        ∃ i, s.workers[s.idx]? = some (.joined i)
  | .exited => s.workers.length = n ∧ s.numLive ≤ 0
  | .failed => True

/-- `main` has set its counters. -/
def MainPc.counting : MainPc → Bool
  | .createTest | .fill | .create | .createNext | .initCounts => false
  | _ => true

structure Inv (n : Nat) (s : State) : Prop where
  length : s.slots.length = n
  place : Place n s
  access : ∀ i ∈ s.accesses, i < n
  own : ∀ k i : Nat, (s.workers[k]?).bind WorkerPc.index = some i → i = k
  created : s.workers.length ≤ n
  slot : ∀ k t, s.slots[k]? = some t →
    t.state = expected s k ∧ (k < s.workers.length → t.tid = k)
  unjoined : s.numUnjoined = s.countSlots .terminated
  live : s.pc.counting = true → s.pc ≠ .failed → s.numLive + s.countSlots .joined = n
  log_nodup : s.joinLog.Nodup
  log : ∀ k : Nat, k ∈ s.joinLog ↔ ∃ i, s.workers[k]? = some (.joined i)

theorem access_snoc {n j : Nat} {l : List Nat} (h : ∀ i ∈ l, i < n) (hj : j < n) :
    ∀ i ∈ l ++ [j], i < n := by
  intro i hi
  rw [List.mem_append, List.mem_singleton] at hi
  rcases hi with hi | rfl
  · exact h i hi
  · exact hj

/-- An update of a slot that leaves its state alone moves no count. -/
theorem count_modify_same {l : List Slot} {i : Nat} {t : Slot} (ht : l[i]? = some t)
    {f : Slot → Slot} (hf : (f t).state = t.state) (c : TState) :
    (l.modify i f).countP (fun t => t.state == c) = l.countP fun t => t.state == c := by
  have := countP_modify_add ht f (fun t => t.state == c)
  rw [hf] at this
  omega

theorem inv_init (sleepTimes : List Nat) : Inv sleepTimes.length (init sleepTimes) := by
  refine ⟨by simp [init], ?_, by simp [init], by simp [init], by simp [init], ?_, ?_, (nomatch ·),
    List.nodup_nil, by simp [init]⟩
  · exact ⟨rfl, Nat.zero_le _, rfl, rfl⟩
  · intro k t ht
    simp only [init, List.getElem?_replicate] at ht
    split at ht
    · obtain rfl := Option.some.inj ht
      exact ⟨rfl, fun hk => absurd hk (Nat.not_lt_zero _)⟩
    · cases ht
  · simp [init, State.countSlots, List.countP_replicate]

/-! ### The steps of `main` -/

section Steps

variable {n : Nat} {s : State}

theorem expected_congr {s' : State} (hw : s'.workers = s.workers) (hm : s.pc ≠ .mark)
    (hm' : s'.pc ≠ .mark) (k : Nat) : expected s' k = expected s k := by
  unfold expected
  rw [hw]
  simp only [hm, hm', false_and, if_false]

theorem Inv.exists_slot (h : Inv n s) {k : Nat} (hk : k < n) : ∃ t, s.slots[k]? = some t :=
  ⟨_, List.getElem?_eq_getElem (by rw [h.length]; exact hk)⟩

/-- Before the first join no slot is joined. -/
theorem Inv.countSlots_joined_eq_zero (h : Inv n s) (hlog : s.joinLog = []) :
    s.countSlots .joined = 0 := by
  rw [State.countSlots, List.countP_eq_zero]
  intro t ht hst
  obtain ⟨k, hk⟩ := List.getElem?_of_mem ht
  have hno : ∀ i, s.workers[k]? ≠ some (.joined i) := by
    intro i hi
    have := (h.log k).mpr ⟨i, hi⟩
    rw [hlog] at this
    cases this
  rw [beq_iff_eq, (h.slot k t hk).1, expected] at hst
  split at hst
  · cases hst
  · cases hst
  · next i hi => exact hno i hi
  · cases hst

/-- A step of `main` that touches neither slots nor threads. -/
theorem inv_move (h : Inv n s) {s' : State} (hsl : s'.slots = s.slots)
    (hw : s'.workers = s.workers) (hu : s'.numUnjoined = s.numUnjoined)
    (hj : s'.joinLog = s.joinLog) (hm : s.pc ≠ .mark) (hm' : s'.pc ≠ .mark)
    (hacc : ∀ i ∈ s'.accesses, i < n) (hpl : Place n s')
    (hlive : s'.pc.counting = true → s'.pc ≠ .failed →
      s'.numLive + s.countSlots .joined = n) : Inv n s' := by
  refine ⟨hsl ▸ h.length, hpl, hacc, hw ▸ h.own, hw ▸ h.created, ?_, ?_, ?_, hj ▸ h.log_nodup, ?_⟩
  · intro k t ht
    rw [hsl] at ht
    rw [expected_congr hw hm hm', hw]
    exact h.slot k t ht
  · rw [hu, h.unjoined, State.countSlots, State.countSlots, hsl]
  · intro hc hf
    rw [State.countSlots, hsl]
    exact hlive hc hf
  · intro k
    rw [hj, hw]
    exact h.log k

/-- `thread[idx].sleepTime = ..; thread[idx].state = TS_ALIVE` -/
theorem inv_fill (h : Inv n s) (hpc : s.pc = .fill) (st : Nat) :
    Inv n { s with
      slots := s.slots.modify s.idx fun t => { t with sleepTime := st, state := .alive }
      accesses := s.accesses ++ [s.idx]
      pc := .create } := by
  have hpl := h.place
  simp only [Place, hpc] at hpl
  obtain ⟨hlen, hlt, hlock⟩ := hpl
  obtain ⟨t, ht⟩ := h.exists_slot hlt
  have hnone : s.workers[s.idx]? = none := List.getElem?_eq_none (by omega)
  have hstate : t.state = .alive := by
    rw [(h.slot _ t ht).1, expected, hnone]
  refine ⟨by simp only [List.length_modify]; exact h.length, ⟨hlen, hlt, hlock⟩,
    access_snoc h.access hlt, h.own, h.created, ?_, ?_, (nomatch ·), h.log_nodup, h.log⟩
  · intro k u hu
    rcases eq_or_ne s.idx k with rfl | hne
    · rw [List.getElem?_modify_eq, ht] at hu
      obtain rfl := Option.some.inj hu
      refine ⟨?_, fun hk => absurd hk (by simp only; omega)⟩
      simp only [expected, hnone]
    · rw [List.getElem?_modify_ne _ _ hne] at hu
      obtain ⟨h1, h2⟩ := h.slot k u hu
      refine ⟨?_, h2⟩
      simpa [expected, hpc] using h1
  · simp only [State.countSlots]
    rw [count_modify_same ht hstate.symm]
    exact h.unjoined

/-- `pthread_create` -/
theorem inv_create (h : Inv n s) (hpc : s.pc = .create) :
    Inv n { s with
      slots := s.slots.modify s.idx fun t => { t with tid := s.workers.length }
      workers := s.workers ++ [.started]
      accesses := s.accesses ++ [s.idx]
      pc := .createNext } := by
  have hpl := h.place
  simp only [Place, hpc] at hpl
  obtain ⟨hlen, hlt, hlock⟩ := hpl
  obtain ⟨t, ht⟩ := h.exists_slot hlt
  have hget : ∀ k : Nat, (s.workers ++ [WorkerPc.started])[k]? =
      if k = s.idx then some .started else s.workers[k]? := by
    intro k
    rw [List.getElem?_append, List.getElem?_singleton]
    split_ifs with h1 h2 h3 h4 <;> first | omega | rfl | exact (List.getElem?_eq_none (by omega)).symm
  refine ⟨by simp only [List.length_modify]; exact h.length, ⟨by simp [hlen], hlt, hlock⟩,
    access_snoc h.access hlt, ?_, ?_, ?_, ?_, (nomatch ·), h.log_nodup, ?_⟩
  · intro k i hi
    rw [hget] at hi
    split at hi
    · cases hi
    · exact h.own k i hi
  · simp only [List.length_append, List.length_singleton]
    omega
  · intro k u hu
    rcases eq_or_ne s.idx k with rfl | hne
    · rw [List.getElem?_modify_eq, ht] at hu
      obtain rfl := Option.some.inj hu
      refine ⟨?_, fun _ => hlen⟩
      have hold := (h.slot _ t ht).1
      rw [expected, List.getElem?_eq_none (by omega)] at hold
      simp only [expected, hget, if_true]
      exact hold
    · rw [List.getElem?_modify_ne _ _ hne] at hu
      obtain ⟨h1, h2⟩ := h.slot k u hu
      refine ⟨?_, fun hk => h2 ?_⟩
      · simp only [expected, hget, hne.symm, if_false] at h1 ⊢
        simpa [hpc] using h1
      · simp only [List.length_append, List.length_singleton] at hk
        omega
  · simp only [State.countSlots]
    rw [count_modify_same ht rfl]
    exact h.unjoined
  · intro k
    rw [hget]
    split
    · next hk =>
      rw [h.log k, hk, List.getElem?_eq_none (by omega)]
      simp
    · exact h.log k

/-- `pthread_join` finds the thread of the slot, which is not joined yet. -/
theorem Inv.join_target (h : Inv n s) (hpc : s.pc = .join) {t : Slot}
    (ht : s.slots[s.idx]? = some t) :
    t.tid = s.idx ∧ ∃ i, s.workers[s.idx]? = some (.updated i) ∨ s.workers[s.idx]? = some (.ended i) := by
  have hpl := h.place
  simp only [Place, hpc] at hpl
  obtain ⟨hlen, _, _, hlt, hexp⟩ := hpl
  refine ⟨(h.slot _ t ht).2 (by omega), ?_⟩
  unfold expected at hexp
  split at hexp
  · next i hi => exact ⟨i, Or.inl hi⟩
  · next i hi => exact ⟨i, Or.inr hi⟩
  · simp [hpc] at hexp
  · cases hexp

/-- `pthread_join` -/
theorem inv_join (h : Inv n s) (hpc : s.pc = .join) {i : Nat}
    (hw : s.workers[s.idx]? = some (.ended i)) :
    Inv n { s with
      workers := s.workers.set s.idx (.joined i)
      accesses := s.accesses ++ [s.idx]
      joinLog := s.joinLog ++ [s.idx]
      pc := .mark } := by
  have hpl := h.place
  simp only [Place, hpc] at hpl
  obtain ⟨hlen, htot, hlock, hlt, _⟩ := hpl
  have hl : s.idx < s.workers.length := by omega
  have hnot : s.idx ∉ s.joinLog := by
    rw [h.log, hw]
    simp
  refine ⟨h.length, ⟨by simp [hlen], htot, hlock, hlt, i, List.getElem?_set_self hl⟩,
    access_snoc h.access hlt, ?_, by simp only [List.length_set]; exact h.created, ?_, h.unjoined,
    fun _ _ => h.live (by rw [hpc]; rfl) (by rw [hpc]; nofun), ?_, ?_⟩
  · intro k j hj
    rcases eq_or_ne s.idx k with rfl | hne
    · rw [List.getElem?_set_self hl] at hj
      exact h.own _ j (by rw [hw]; exact hj)
    · rw [List.getElem?_set_ne hne] at hj
      exact h.own k j hj
  · intro k u hu
    obtain ⟨h1, h2⟩ := h.slot k u hu
    refine ⟨?_, by simpa using h2⟩
    rw [h1]
    rcases eq_or_ne s.idx k with rfl | hne
    · simp only [expected, hw, List.getElem?_set_self hl, and_self, if_true]
    · simp only [expected, List.getElem?_set_ne hne, hne, hpc, reduceCtorEq, and_false, if_false]
  · show (s.joinLog ++ [s.idx]).Nodup
    rw [← List.concat_eq_append]
    exact h.log_nodup.concat hnot
  · intro k
    rw [List.mem_append, List.mem_singleton, h.log k]
    rcases eq_or_ne s.idx k with rfl | hne
    · simp [List.getElem?_set_self hl]
    · simp [List.getElem?_set_ne hne, hne.symm]

/-- `thread[idx].state = TS_JOINED; numLive--; numUnjoined--` -/
theorem inv_mark (h : Inv n s) (hpc : s.pc = .mark) :
    Inv n { s with
      slots := s.slots.modify s.idx fun t => { t with state := .joined }
      numLive := s.numLive - 1
      numUnjoined := s.numUnjoined - 1
      accesses := s.accesses ++ [s.idx]
      pc := .forNext } := by
  have hpl := h.place
  simp only [Place, hpc] at hpl
  obtain ⟨hlen, htot, hlock, hlt, i, hw⟩ := hpl
  obtain ⟨t, ht⟩ := h.exists_slot hlt
  have hstate : t.state = .terminated := by
    rw [(h.slot _ t ht).1]
    simp only [expected, hw, hpc, and_self, if_true]
  have hcount : ∀ c, (s.slots.modify s.idx fun t => { t with state := .joined }).countP
      (fun t => t.state == c) + (if TState.terminated == c then 1 else 0) =
      s.slots.countP (fun t => t.state == c) + (if TState.joined == c then 1 else 0) := by
    intro c
    have := countP_modify_add ht (fun t => { t with state := .joined }) (fun t => t.state == c)
    rw [hstate] at this
    exact this
  have hterm := hcount .terminated
  have hjoin := hcount .joined
  simp only [beq_self_eq_true, if_true, reduceCtorEq, beq_iff_eq, if_false] at hterm hjoin
  refine ⟨by simp only [List.length_modify]; exact h.length, ⟨hlen, htot, hlock, hlt⟩,
    access_snoc h.access hlt, h.own, h.created, ?_, ?_, ?_, h.log_nodup, h.log⟩
  · intro k u hu
    rcases eq_or_ne s.idx k with rfl | hne
    · rw [List.getElem?_modify_eq, ht] at hu
      obtain rfl := Option.some.inj hu
      refine ⟨?_, (h.slot _ t ht).2⟩
      simp [expected, hw]
    · rw [List.getElem?_modify_ne _ _ hne] at hu
      obtain ⟨h1, h2⟩ := h.slot k u hu
      refine ⟨?_, h2⟩
      rw [h1]
      simp only [expected, hne, and_false, if_false, reduceCtorEq]
  · have := h.unjoined
    simp only [State.countSlots] at this ⊢
    omega
  · intro _ _
    have := h.live (by rw [hpc]; rfl) (by rw [hpc]; nofun)
    simp only [State.countSlots] at this ⊢
    omega

theorem ite_ne_mark {P : Prop} [Decidable P] {a b : MainPc} (ha : a ≠ .mark) (hb : b ≠ .mark) :
    (if P then a else b) ≠ .mark := by
  split
  · exact ha
  · exact hb

theorem inv_main {sleepTimes : List Nat} (h : Inv sleepTimes.length s) {s' : State}
    (hst : mainStep sleepTimes s = some s') : Inv sleepTimes.length s' := by
  have hpl := h.place
  have hlive := h.live
  unfold mainStep at hst
  cases hpc : s.pc <;> simp only [hpc] at hst <;> simp only [Place, hpc] at hpl <;>
    simp only [hpc, MainPc.counting, reduceCtorEq, ne_eq, not_false_eq_true, forall_const,
      false_implies] at hlive
  case createTest =>
    obtain rfl := Option.some.inj hst
    refine inv_move h rfl rfl rfl rfl (by rw [hpc]; nofun) (ite_ne_mark nofun nofun) h.access
      ?_ ?_
    · simp only [Place]
      split_ifs with hlt
      · exact ⟨hpl.1, hlt, hpl.2.2⟩
      · exact ⟨by omega, hpl.2.2⟩
    · intro hc
      simp only at hc
      split_ifs at hc <;> cases hc
  case fill =>
    obtain rfl := Option.some.inj hst
    exact inv_fill h hpc _
  case create =>
    obtain rfl := Option.some.inj hst
    exact inv_create h hpc
  case createNext =>
    obtain rfl := Option.some.inj hst
    exact inv_move h rfl rfl rfl rfl (by rw [hpc]; nofun) nofun h.access
      ⟨hpl.1, hpl.2.1, hpl.2.2⟩ (nomatch ·)
  case initCounts =>
    obtain rfl := Option.some.inj hst
    refine inv_move h rfl rfl rfl rfl (by rw [hpc]; nofun) nofun h.access
      ⟨hpl.1, rfl, hpl.2.1⟩ fun _ _ => ?_
    rw [h.countSlots_joined_eq_zero hpl.2.2]
    simp
  case liveTest =>
    obtain rfl := Option.some.inj hst
    refine inv_move h rfl rfl rfl rfl (by rw [hpc]; nofun) (ite_ne_mark nofun nofun) h.access
      ?_ fun _ _ => hlive
    simp only [Place]
    split_ifs with hpos
    · exact hpl
    · exact ⟨hpl.1, Int.not_lt.mp hpos⟩
  case lock =>
    split at hst
    · cases hst
    obtain rfl := Option.some.inj hst
    exact inv_move h rfl rfl rfl rfl (by rw [hpc]; nofun) nofun h.access
      ⟨hpl.1, hpl.2.1, rfl⟩ fun _ _ => hlive
  case condTest =>
    split at hst <;> obtain rfl := Option.some.inj hst
    · exact inv_move h rfl rfl rfl rfl (by rw [hpc]; nofun) nofun h.access
        ⟨hpl.1, hpl.2.1, rfl⟩ fun _ _ => hlive
    · exact inv_move h rfl rfl rfl rfl (by rw [hpc]; nofun) nofun h.access hpl fun _ _ => hlive
  case condWait =>
    split at hst
    · obtain rfl := Option.some.inj hst
      exact inv_move h rfl rfl rfl rfl (by rw [hpc]; nofun) nofun h.access
        ⟨hpl.1, hpl.2.1, rfl⟩ fun _ _ => hlive
    · cases hst
  case forTest =>
    obtain rfl := Option.some.inj hst
    refine inv_move h rfl rfl rfl rfl (by rw [hpc]; nofun) (ite_ne_mark nofun nofun) h.access
      ?_ fun _ _ => hlive
    simp only [Place]
    split_ifs with hlt
    · exact ⟨hpl.1, hpl.2.1, hpl.2.2, hpl.2.1 ▸ hlt⟩
    · exact hpl
  case check =>
    obtain rfl := Option.some.inj hst
    obtain ⟨t, ht⟩ := h.exists_slot hpl.2.2.2
    have hexp := (h.slot _ t ht).1
    refine inv_move h rfl rfl rfl rfl (by rw [hpc]; nofun) (ite_ne_mark nofun nofun)
      (access_snoc h.access hpl.2.2.2) ?_ fun _ _ => hlive
    simp only [Place]
    split_ifs with hterm
    · rw [ht, Option.map_some, Option.some.injEq, hexp] at hterm
      refine ⟨hpl.1, hpl.2.1, hpl.2.2.1, hpl.2.2.2, ?_⟩
      rw [← hterm]
      simp [expected, hpc]
    · exact hpl
  case join =>
    split at hst
    · cases hst
    next t ht =>
    obtain ⟨htid, i, hw⟩ := h.join_target hpc ht
    rw [htid] at hst
    rcases hw with hw | hw <;> simp only [hw] at hst
    · cases hst
    · obtain rfl := Option.some.inj hst
      exact inv_join h hpc hw
  case mark =>
    obtain rfl := Option.some.inj hst
    exact inv_mark h hpc
  case forNext =>
    obtain rfl := Option.some.inj hst
    exact inv_move h rfl rfl rfl rfl (by rw [hpc]; nofun) nofun h.access
      ⟨hpl.1, hpl.2.1, hpl.2.2.1⟩ fun _ _ => hlive
  case unlock =>
    obtain rfl := Option.some.inj hst
    exact inv_move h rfl rfl rfl rfl (by rw [hpc]; nofun) nofun h.access
      ⟨hpl.1, hpl.2.1, rfl⟩ fun _ _ => hlive
  all_goals cases hst

/-! ### The steps of the workers -/

/-- The slot state that goes with a worker's place. -/
def WorkerPc.slotState : WorkerPc → TState
  | .started | .hasIdx _ | .awake _ => .alive
  | .updated _ | .ended _ => .terminated
  | .joined _ => .joined

theorem expected_of_ne_joined {k : Nat} {w : WorkerPc} (hw : s.workers[k]? = some w)
    (hj : ∀ i, w ≠ .joined i) : expected s k = w.slotState := by
  rw [expected, hw]
  cases w with
  | joined i => exact absurd rfl (hj i)
  | _ => rfl

/-- A worker moves on without touching its slot. -/
theorem inv_worker_move (h : Inv n s) {k : Nat} {w : WorkerPc} (hw : s.workers[k]? = some w)
    (w' : WorkerPc) (hidx : w'.index = some k) (hsame : w'.slotState = w.slotState)
    (hj : ∀ i, w ≠ .joined i) (hj' : ∀ i, w' ≠ .joined i)
    {acc : List Nat} (hacc : ∀ i ∈ acc, i < n) (sg : Bool) :
    Inv n { s with workers := s.workers.set k w', accesses := acc, signalled := sg } := by
  obtain ⟨hk, _⟩ := List.getElem?_eq_some_iff.mp hw
  have hjoined : ∀ j i : Nat, (s.workers.set k w')[j]? = some (.joined i) ↔
      s.workers[j]? = some (.joined i) := by
    intro j i
    rcases eq_or_ne k j with rfl | hne
    · simp [List.getElem?_set_self hk, hw, hj, hj']
    · rw [List.getElem?_set_ne hne]
  have hexp : ∀ j, expected { s with
      workers := s.workers.set k w', accesses := acc, signalled := sg } j = expected s j := by
    intro j
    rcases eq_or_ne k j with rfl | hne
    · rw [expected_of_ne_joined (List.getElem?_set_self hk) hj', expected_of_ne_joined hw hj, hsame]
    · simp only [expected, List.getElem?_set_ne hne]
  refine ⟨h.length, ?_, hacc, ?_, by simp only [List.length_set]; exact h.created, ?_, h.unjoined,
    h.live, h.log_nodup, ?_⟩
  · have hpl := h.place
    unfold Place at hpl ⊢
    simp only [List.length_set, hexp, hjoined]
    exact hpl
  · intro j i hi
    rcases eq_or_ne k j with rfl | hne
    · rw [List.getElem?_set_self hk, Option.bind_some, hidx] at hi
      exact (Option.some.inj hi).symm
    · rw [List.getElem?_set_ne hne] at hi
      exact h.own j i hi
  · intro j t ht
    rw [hexp]
    simp only [List.length_set]
    exact h.slot j t ht
  · intro j
    rw [h.log j]
    simp only [hjoined]

/-- The mutex section of a worker. -/
theorem inv_section (h : Inv n s) {k i : Nat} (hw : s.workers[k]? = some (.awake i))
    (hlock : s.locked = false) (hpc : s.pc ≠ .exited) :
    Inv n { s with
      numUnjoined := s.numUnjoined + 1
      slots := s.slots.modify i fun t => { t with state := .terminated }
      workers := s.workers.set k (.updated i)
      accesses := s.accesses ++ [i] } := by
  obtain rfl : i = k := h.own k i (by rw [hw]; rfl)
  obtain ⟨hk, _⟩ := List.getElem?_eq_some_iff.mp hw
  have hlt : i < n := Nat.lt_of_lt_of_le hk h.created
  obtain ⟨t, ht⟩ := h.exists_slot hlt
  have hstate : t.state = .alive := by
    rw [(h.slot _ t ht).1, expected, hw]
  have hcount : ∀ c, (s.slots.modify i fun t => { t with state := .terminated }).countP
      (fun t => t.state == c) + (if TState.alive == c then 1 else 0) =
      s.slots.countP (fun t => t.state == c) + (if TState.terminated == c then 1 else 0) := by
    intro c
    have := countP_modify_add ht (fun t => { t with state := .terminated }) (fun t => t.state == c)
    rw [hstate] at this
    exact this
  have hterm := hcount .terminated
  have hjoin := hcount .joined
  simp only [beq_self_eq_true, if_true, reduceCtorEq, beq_iff_eq, if_false] at hterm hjoin
  refine ⟨by simp only [List.length_modify]; exact h.length, ?_, access_snoc h.access hlt, ?_,
    by simp only [List.length_set]; exact h.created, ?_, ?_, ?_, h.log_nodup, ?_⟩
  · have hpl := h.place
    unfold Place at hpl ⊢
    cases hp : s.pc <;> simp only [hp, hlock, List.length_set] at hpl ⊢
    case exited => exact absurd hp hpc
    all_goals first | exact hpl | simp at hpl
  · intro j l hl
    rcases eq_or_ne i j with rfl | hne
    · rw [List.getElem?_set_self hk] at hl
      exact (Option.some.inj hl).symm
    · rw [List.getElem?_set_ne hne] at hl
      exact h.own j l hl
  · intro j u hu
    simp only [List.length_set]
    rcases eq_or_ne i j with rfl | hne
    · rw [List.getElem?_modify_eq, ht] at hu
      obtain rfl := Option.some.inj hu
      refine ⟨?_, (h.slot _ t ht).2⟩
      simp only [expected, List.getElem?_set_self hk]
    · rw [List.getElem?_modify_ne _ _ hne] at hu
      obtain ⟨h1, h2⟩ := h.slot j u hu
      refine ⟨?_, h2⟩
      rw [h1]
      simp only [expected, List.getElem?_set_ne hne]
  · have := h.unjoined
    simp only [State.countSlots] at this ⊢
    omega
  · intro hc hf
    have := h.live hc hf
    simp only [State.countSlots] at this ⊢
    omega
  · intro j
    rw [h.log j]
    rcases eq_or_ne i j with rfl | hne
    · simp [List.getElem?_set_self hk, hw]
    · rw [List.getElem?_set_ne hne]

theorem inv_worker (h : Inv n s) {k : Nat} (hpc : s.pc ≠ .exited)
    (hok : s.workers[k]? = some .started → s.idx = k) {s' : State}
    (hst : workerStep s k = some s') : Inv n s' := by
  unfold workerStep at hst
  split at hst
  · next hw =>
    obtain rfl := Option.some.inj hst
    have hidx := hok hw
    exact inv_worker_move h hw (.hasIdx s.idx) (congrArg some hidx) rfl nofun nofun
      h.access s.signalled
  · next i hw =>
    obtain rfl := Option.some.inj hst
    have hik : i = k := h.own k i (by rw [hw]; rfl)
    obtain ⟨hk, _⟩ := List.getElem?_eq_some_iff.mp hw
    have hlt : i < n := hik ▸ Nat.lt_of_lt_of_le hk h.created
    exact inv_worker_move h hw (.awake i) (congrArg some hik) rfl nofun nofun
      (access_snoc h.access hlt) s.signalled
  · next i hw =>
    split at hst
    · cases hst
    next hlock =>
    obtain rfl := Option.some.inj hst
    exact inv_section h hw (by simpa using hlock) hpc
  · next i hw =>
    obtain rfl := Option.some.inj hst
    have hik : i = k := h.own k i (by rw [hw]; rfl)
    exact inv_worker_move h hw (.ended i) (congrArg some hik) rfl nofun nofun
      h.access true
  · cases hst

theorem inv_step {sleepTimes : List Nat} (h : Inv sleepTimes.length s) {e : Ev} {s' : State}
    (hok : OnTime s e) (hst : step sleepTimes s e = some s') : Inv sleepTimes.length s' := by
  cases e with
  | main => exact inv_main h hst
  | mainFails =>
    simp only [step] at hst
    split at hst
    case h_6 => cases hst
    all_goals
      next hpc =>
      obtain rfl := Option.some.inj hst
      exact inv_move h rfl rfl rfl rfl (by rw [hpc]; nofun) nofun h.access trivial
        fun _ hf => absurd rfl hf
  | spurious =>
    simp only [step] at hst
    split at hst
    · next hpc =>
      obtain rfl := Option.some.inj hst
      have hpl := h.place
      simp only [Place, hpc] at hpl
      exact inv_move h rfl rfl rfl rfl (by rw [hpc]; nofun) nofun h.access
        ⟨hpl.1, hpl.2.1, rfl⟩ fun _ _ => h.live (by rw [hpc]; rfl) (by rw [hpc]; nofun)
    · cases hst
  | worker k =>
    simp only [step] at hst
    split at hst
    · cases hst
    · cases hst
    · next hne _ => exact inv_worker h hne hok hst

end Steps

/-! ### What the program guarantees -/

/-- **With every index read in time the bookkeeping is exact**, for any number of
threads and any interleaving. -/
theorem sound_of_onTime (sleepTimes : List Nat) (s : State)
    (h : (system sleepTimes).ReachBy OnTime s) : Sound sleepTimes.length s := by
  have hi : Inv sleepTimes.length s :=
    System.ReachBy.invariant (I := Inv sleepTimes.length) (inv_init sleepTimes)
      (fun _ _ _ hi hok hst => inv_step hi hok hst) h
  refine ⟨hi.access, ?_, fun _ => hi.unjoined, ?_⟩
  · intro j k i hj hk
    exact (hi.own j i hj).symm.trans (hi.own k i hk)
  · intro hpc k hk
    have hpl := hi.place
    simp only [Place, hpc] at hpl
    have hlive := hi.live (by rw [hpc]; rfl) (by rw [hpc]; nofun)
    have hle : s.countSlots .joined ≤ s.slots.length := List.countP_le_length
    have hall : s.countSlots .joined = s.slots.length := by
      have := hi.length
      omega
    obtain ⟨t, ht⟩ := hi.exists_slot hk
    have hjoined := List.countP_eq_length.mp hall t (List.mem_of_getElem? ht)
    rw [beq_iff_eq, (hi.slot k t ht).1, expected] at hjoined
    refine List.count_eq_one_of_mem hi.log_nodup ((hi.log k).mpr ?_)
    split at hjoined
    · cases hjoined
    · cases hjoined
    · next i hw => exact ⟨i, hw⟩
    · cases hjoined

/-- One thread, run to the end with its index read in time. -/
theorem sound_of_onTime_single :
    ∃ s, (system [0]).ReachBy OnTime s ∧ s.pc = .exited ∧ Sound 1 s := by
  have hrun : ((system [0]).execBy OnTime (init [0])
      [.main, .main, .main, .worker 0, .main, .worker 0, .main, .main, .main, .main, .main,
        .worker 0, .worker 0, .main, .main, .main, .main, .main, .main, .main, .main, .main,
        .main]).map State.pc = some .exited := by decide
  obtain ⟨s, hs, hpc⟩ := Option.map_eq_some_iff.mp hrun
  have hr := System.reachBy_of_execBy hs
  exact ⟨s, hr, hpc, sound_of_onTime [0] s hr⟩

/-- **The general guarantee fails.**  One thread that reads `idx` after `main` has
counted it up acts on `thread[1]` of an array of one. -/
theorem late_read_out_of_bounds :
    ¬ ∀ sleepTimes : List Nat, 1 ≤ sleepTimes.length → ∀ s, (system sleepTimes).Reach s →
      Sound sleepTimes.length s := by
  intro hall
  have hrun : ((system [0]).exec (init [0])
      [.main, .main, .main, .main, .worker 0, .worker 0]).map State.accesses = some [0, 0, 1] := by
    decide
  obtain ⟨s, hs, hacc⟩ := Option.map_eq_some_iff.mp hrun
  have hsound := (hall [0] (by decide) s (System.reach_of_exec hs)).1 1 (by rw [hacc]; decide)
  exact absurd hsound (by decide)

end Tlpi.Multijoin

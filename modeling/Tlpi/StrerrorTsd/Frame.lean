import Tlpi.StrerrorTsd.Model

/-!
# What a step of a thread leaves alone

A thread owns the block that is its value under the key, the one that it is about to make its value,
and those that its calls have returned.  What a thread does concerns no block that another one owns
(`Frame`), so what is true of the others stays true.

* `Inv`: the key is created once, no block has two owners, and what holds of each thread.
* `inv_of_frame`: it is enough to look at the thread that has taken the step.
-/

namespace Tlpi.StrerrorTsd

open Tlpi.Lib

/-- The text for an error number. -/
def message (strerrorR : BitVec 32 → Option Message) (err : BitVec 32) : Bytes :=
  match strerrorR err with
  | some m => m.text.bytes
  | none => ascii "Unknown error " ++ decimalInt err.toInt

/-- The value of thread `t` under the key. -/
def State.buf (s : State) (t : Tid) : Option Nat := s.tsd.value t s.strerrorKey

/-- In `createKey`, or back from it. -/
def Pc.Creating (pc : Pc) : Prop := pc = .createKey ∨ pc = .created

/-- Behind `pthread_once`. -/
def Pc.Past : Pc → Prop
  | .getspecific | .malloc | .setspecific _ | .strerrorR _ | .snprintf _ | .ret _ => True
  | _ => False

/-- The latest text is still in the buffer. -/
def Pc.Quiet : Pc → Prop
  | .outside | .once | .createKey | .created | .getspecific => True
  | _ => False

/-- Thread `t` is the one that gets at the block. -/
def Owns (s : State) (t : Tid) (b : Nat) : Prop :=
  s.buf t = some b ∨ (s.thread t).pc = .setspecific b ∨ ∃ c ∈ (s.thread t).calls, c.buf = b

/-- What holds at each place. -/
def PcInv (strerrorR : BitVec 32 → Option Message) (s : State) (t : Tid) : Prop :=
  match (s.thread t).pc with
  | .outside | .once | .createKey | .created | .getspecific =>
      ∀ c, (s.thread t).calls.head? = some c → s.heap.text c.buf = some (message strerrorR c.err)
  | .malloc => s.buf t = none
  | .setspecific b => s.buf t = none ∧ s.heap.Room BUF_SIZE b
  | .strerrorR b => s.buf t = some b
  | .snprintf b => s.buf t = some b ∧ strerrorR (s.thread t).err = none
  | .ret b => s.buf t = some b ∧ s.heap.text b = some (message strerrorR (s.thread t).err)
  | .ended => s.buf t = none

structure ThreadInv (strerrorR : BitVec 32 → Option Message) (s : State) (t : Tid) : Prop where
  pc : PcInv strerrorR s t
  room : ∀ b, s.buf t = some b → s.heap.Room BUF_SIZE b
  value : (s.thread t).pc ≠ .ended → ∀ c ∈ (s.thread t).calls, s.buf t = some c.buf
  same : ∀ c ∈ (s.thread t).calls, ∀ d ∈ (s.thread t).calls, c.buf = d.buf

/-- The key is created once, and before any value is set. -/
structure OnceInv (s : State) : Prop where
  creating : ∀ t, (s.thread t).pc.Creating ↔ s.once = .running t
  before : s.once ≠ .done → ∀ t, (s.thread t).calls = [] ∧ ¬ (s.thread t).pc.Past ∧
    ∀ k, s.tsd.value t k = none
  key : (s.once = .done ∨ ∃ t, (s.thread t).pc = .created) →
    s.tsd.created s.strerrorKey = true

structure Inv (strerrorR : BitVec 32 → Option Message) (s : State) : Prop where
  once : OnceInv s
  thread : ∀ t, ThreadInv strerrorR s t
  apart : ∀ t u b, Owns s t b → Owns s u b → t = u
  used : ∀ t b, Owns s t b → s.heap.block b ≠ .unused
  defined : s.status ≠ .undefined

/-- Between `s` and `s'` thread `t` has changed no block that another thread owns. -/
structure Frame (s s' : State) (t : Tid) : Prop where
  thread : ∀ u ≠ t, s'.thread u = s.thread u
  buf : ∀ u ≠ t, s'.buf u = s.buf u
  heap : ∀ b, s'.heap.block b = s.heap.block b ∨ Owns s t b ∨ s.heap.block b = .unused
  owns : ∀ b, Owns s' t b → s'.heap.block b ≠ .unused ∧ (Owns s t b ∨ s.heap.block b = .unused)

section Frames

variable {strerrorR : BitVec 32 → Option Message} {s s' : State} {t u : Tid} {b : Nat} {pc : Pc}

theorem Owns.congr (hthread : s'.thread u = s.thread u) (hbuf : s'.buf u = s.buf u) :
    Owns s' u b ↔ Owns s u b := by
  rw [Owns, Owns, hthread, hbuf]

/-- What is true of a thread is about its own blocks. -/
theorem ThreadInv.congr (h : ThreadInv strerrorR s u) (hthread : s'.thread u = s.thread u)
    (hbuf : s'.buf u = s.buf u) (hheap : ∀ b, Owns s u b → s'.heap.block b = s.heap.block b) :
    ThreadInv strerrorR s' u := by
  have hroom : ∀ b, Owns s u b → s.heap.Room BUF_SIZE b → s'.heap.Room BUF_SIZE b :=
    fun b hb hr => hr.congr (hheap b hb)
  have htext : ∀ b x, Owns s u b → s.heap.text b = x → s'.heap.text b = x :=
    fun b x hb hx => (Heap.text_congr (hheap b hb)).trans hx
  refine ⟨?_, ?_, ?_, ?_⟩
  · have hpc := h.pc
    cases hu : (s.thread u).pc <;> simp only [PcInv, hthread, hbuf, hu] at hpc ⊢
    case setspecific b => exact ⟨hpc.1, hroom b (.inr (.inl hu)) hpc.2⟩
    case ret b => exact ⟨hpc.1, htext b _ (.inl hpc.1) hpc.2⟩
    case malloc | strerrorR | snprintf | ended => exact hpc
    all_goals
      intro c hc
      exact htext c.buf _ (.inr (.inr ⟨c, List.mem_of_mem_head? hc, rfl⟩)) (hpc c hc)
  · rw [hbuf]
    exact fun b hb => hroom b (.inl hb) (h.room b hb)
  · rw [hthread, hbuf]
    exact h.value
  · rw [hthread]
    exact h.same

/-- **The frame rule**: what is at stake is the thread that has taken the step. -/
theorem inv_of_frame (h : Inv strerrorR s) (hframe : Frame s s' t) (honce : OnceInv s')
    (hthread : ThreadInv strerrorR s' t) (hdefined : s'.status ≠ .undefined) :
    Inv strerrorR s' := by
  have howns : ∀ u ≠ t, ∀ b, Owns s' u b ↔ Owns s u b :=
    fun u hu b => Owns.congr (hframe.thread u hu) (hframe.buf u hu)
  have hheap : ∀ u ≠ t, ∀ b, Owns s u b → s'.heap.block b = s.heap.block b := by
    intro u hu b hb
    rcases hframe.heap b with hsame | ht | hunused
    · exact hsame
    · exact absurd (h.apart u t b hb ht) hu
    · exact absurd hunused (h.used u b hb)
  have hapart : ∀ u ≠ t, ∀ b, Owns s' t b → ¬ Owns s' u b := by
    intro u hu b ht hb
    rw [howns u hu] at hb
    rcases (hframe.owns b ht).2 with ht | hunused
    · exact hu (h.apart u t b hb ht)
    · exact h.used u b hb hunused
  refine ⟨honce, fun u => ?_, fun u v b hub hvb => ?_, fun u b hub => ?_, hdefined⟩
  · by_cases hu : u = t
    · exact hu ▸ hthread
    · exact (h.thread u).congr (hframe.thread u hu) (hframe.buf u hu) (hheap u hu)
  · by_cases hu : u = t
    · subst hu
      by_contra hv
      exact hapart v (Ne.symm hv) b hub hvb
    · by_cases hv : v = t
      · subst hv
        exact absurd hub (hapart u hu b hvb)
      · exact h.apart u v b ((howns u hu b).mp hub) ((howns v hv b).mp hvb)
  · by_cases hu : u = t
    · subst hu
      exact (hframe.owns b hub).1
    · rw [howns u hu] at hub
      rw [hheap u hu b hub]
      exact h.used u b hub

/-- A step that stores in an own block, if anywhere, and gets no new one. -/
theorem frame_of_owned {th : Thread} (h : Inv strerrorR s)
    (hthread : s'.thread = Function.update s.thread t th) (hbuf : ∀ u ≠ t, s'.buf u = s.buf u)
    (hheap : s'.heap = s.heap ∨ ∃ b x, Owns s t b ∧ x ≠ .unused ∧ s'.heap = s.heap.set b x)
    (howns : ∀ b, Owns s' t b → Owns s t b) : Frame s s' t := by
  refine ⟨fun u hu => ?_, hbuf, fun b => ?_, fun b hb => ⟨?_, .inl (howns b hb)⟩⟩
  · rw [hthread, Function.update_of_ne hu]
  · rcases hheap with heq | ⟨c, x, hc, -, heq⟩
    · exact .inl (by rw [heq])
    · by_cases hbc : b = c
      · exact .inr (.inl (hbc ▸ hc))
      · exact .inl (by rw [heq, Heap.set_of_ne hbc])
  · have hused := h.used t b (howns b hb)
    rcases hheap with heq | ⟨c, x, -, hx, heq⟩
    · rwa [heq]
    · by_cases hbc : b = c
      · rw [heq, hbc, Heap.set_self]
        exact hx
      · rwa [heq, Heap.set_of_ne hbc]

/-- Where a thread is behind `pthread_once`, the key has been created. -/
theorem OnceInv.done (h : OnceInv s) (hpast : (s.thread t).pc.Past) : s.once = .done := by
  by_contra hne
  exact (h.before hne t).2.1 hpast

theorem OnceInv.created (h : OnceInv s) (hpast : (s.thread t).pc.Past) :
    s.tsd.created s.strerrorKey = true := h.key (.inl (h.done hpast))

theorem OnceInv.getspecific (h : OnceInv s) (hpast : (s.thread t).pc.Past) :
    s.tsd.getspecific t s.strerrorKey = some (s.buf t) := by
  rw [Tsd.getspecific, if_pos (h.created hpast)]
  rfl

/-- A step that is not about the key. -/
theorem onceInv_of_thread {th : Thread} (h : OnceInv s)
    (hthread : s'.thread = Function.update s.thread t th) (honce : s'.once = s.once)
    (hkey : s'.strerrorKey = s.strerrorKey) (hcreated : s'.tsd.created = s.tsd.created)
    (hpc : ¬ (s.thread t).pc.Creating) (hpc' : ¬ th.pc.Creating)
    (hbefore : s.once ≠ .done → th.calls = [] ∧ ¬ th.pc.Past ∧
      ∀ u k, s'.tsd.value u k = s.tsd.value u k) : OnceInv s' := by
  have hpcs : ∀ u, (s'.thread u).pc.Creating ↔ (s.thread u).pc.Creating := by
    intro u
    rw [hthread]
    by_cases hu : u = t
    · rw [hu, Function.update_self]
      exact iff_of_false hpc' hpc
    · rw [Function.update_of_ne hu]
  refine ⟨fun u => ?_, fun hne u => ?_, fun hdone => ?_⟩
  · rw [hpcs, honce]
    exact h.creating u
  · rw [honce] at hne
    obtain ⟨hcalls, hpast, hvalue⟩ := hbefore hne
    have hnone : ∀ k, s'.tsd.value u k = none :=
      fun k => (hvalue u k).trans ((h.before hne u).2.2 k)
    rw [hthread]
    by_cases hu : u = t
    · rw [hu, Function.update_self]
      exact ⟨hcalls, hpast, hu ▸ hnone⟩
    · rw [Function.update_of_ne hu]
      exact ⟨(h.before hne u).1, (h.before hne u).2.1, hnone⟩
  · rw [hcreated, hkey]
    refine h.key (hdone.imp (fun hd => honce ▸ hd) ?_)
    rintro ⟨u, hu⟩
    refine ⟨u, ?_⟩
    have hut : u ≠ t := by
      rintro rfl
      rw [hthread, Function.update_self] at hu
      exact hpc' (.inr hu)
    rwa [hthread, Function.update_of_ne hut] at hu

/-- A thread that only goes on. -/
theorem ThreadInv.of_pc (h : ThreadInv strerrorR s t)
    (hcalls : (s'.thread t).calls = (s.thread t).calls) (hbuf : s'.buf t = s.buf t)
    (hroom : ∀ b, s.heap.Room BUF_SIZE b → s'.heap.Room BUF_SIZE b)
    (hended : (s.thread t).pc ≠ .ended) (hpc : PcInv strerrorR s' t) :
    ThreadInv strerrorR s' t := by
  refine ⟨hpc, ?_, fun _ => ?_, ?_⟩
  · rw [hbuf]
    exact fun b hb => hroom b (h.room b hb)
  · rw [hcalls, hbuf]
    exact h.value hended
  · rw [hcalls]
    exact h.same

end Frames

end Tlpi.StrerrorTsd

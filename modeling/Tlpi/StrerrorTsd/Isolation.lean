import Tlpi.StrerrorTsd.Frame

/-!
# The threads do not disturb each other

* `inv_step`: every step keeps the invariant.
* `isolates_threads`: what a thread finds behind its pointer depends on its own calls only.
-/

namespace Tlpi.StrerrorTsd

open Tlpi.Lib

/-- What thread `t` finds behind the pointer that its latest call has returned. -/
def State.found (s : State) (t : Tid) : Option Bytes :=
  (s.thread t).calls.head?.bind fun c => s.heap.text c.buf

/-- What is wanted of the threads. -/
structure Isolated (strerrorR : BitVec 32 → Option Message) (s : State) : Prop where
  apart : ∀ t u, t ≠ u → ∀ c ∈ (s.thread t).calls, ∀ d ∈ (s.thread u).calls, c.buf ≠ d.buf
  same : ∀ t, ∀ c ∈ (s.thread t).calls, ∀ d ∈ (s.thread t).calls, c.buf = d.buf
  text : ∀ t, (s.thread t).pc = .outside → ∀ c, (s.thread t).calls.head? = some c →
    s.found t = some (message strerrorR c.err)
  defined : s.status ≠ .undefined

/-! ### The steps -/

section Steps

variable {strerrorR : BitVec 32 → Option Message} {s s' : State} {t u : Tid} {b : Nat}

theorem inv_init : Inv strerrorR init := by
  have howns : ∀ t b, ¬ Owns init t b := by
    intro t b
    simp [Owns, State.buf, init, Tsd.empty]
  refine ⟨⟨fun t => ?_, fun _ t => ?_, ?_⟩, fun t => ⟨?_, ?_, ?_, ?_⟩, ?_, ?_, ?_⟩
  · simp [Pc.Creating, init]
  · simp [Pc.Past, init, Tsd.empty]
  · simp [init]
  · simp [PcInv, init]
  · simp [State.buf, init, Tsd.empty]
  · simp [init]
  · simp [init]
  · exact fun t u b hb => absurd hb (howns t b)
  · exact fun t b hb => absurd hb (howns t b)
  · simp [init]

/-- **A thread goes on** and stores something in an own block, if anywhere. -/
theorem inv_goes_on {th : Thread} {heap : Heap} (h : Inv strerrorR s)
    (hheap : heap = s.heap ∨ ∃ b bytes, Owns s t b ∧ bytes.length = BUF_SIZE ∧
      heap = s.heap.set b (.live bytes))
    (hcalls : th.calls = (s.thread t).calls) (hset : ∀ b, th.pc ≠ .setspecific b)
    (hpc : ¬ (s.thread t).pc.Creating) (hpc' : ¬ th.pc.Creating)
    (hpast : s.once ≠ .done → ¬ th.pc.Past) (hended : (s.thread t).pc ≠ .ended)
    (hinv : PcInv strerrorR { s with thread := Function.update s.thread t th, heap := heap } t) :
    Inv strerrorR { s with thread := Function.update s.thread t th, heap := heap } := by
  have hself : ({ s with thread := Function.update s.thread t th, heap := heap } : State).thread t =
      th := Function.update_self ..
  refine inv_of_frame h (frame_of_owned h rfl (fun _ _ => rfl) ?_ fun b hb => ?_)
    (onceInv_of_thread h.once rfl rfl rfl rfl hpc hpc' fun hne => ?_)
    ((h.thread t).of_pc ?_ rfl (fun b hb => ?_) hended hinv) h.defined
  · rcases hheap with rfl | ⟨b, bytes, hb, -, heq⟩
    · exact .inl rfl
    · exact .inr ⟨b, .live bytes, hb, Block.noConfusion, heq⟩
  · rcases hb with hb | hb | ⟨c, hc, hcb⟩
    · exact .inl hb
    · rw [hself] at hb
      exact absurd hb (hset b)
    · rw [hself, hcalls] at hc
      exact .inr (.inr ⟨c, hc, hcb⟩)
  · exact ⟨hcalls.trans (h.once.before hne t).1, hpast hne, fun _ _ => rfl⟩
  · rw [hself, hcalls]
  · rcases hheap with rfl | ⟨c, bytes, -, hlen, rfl⟩
    · exact hb
    · exact Heap.Room.set hb hlen

theorem not_creating {pc : Pc} (h : pc.Past) : ¬ pc.Creating := by
  rintro (rfl | rfl) <;> exact h

/-- The same behind `pthread_once`. -/
theorem inv_goes_past {th : Thread} {heap : Heap} (h : Inv strerrorR s)
    (hpast : (s.thread t).pc.Past) (hpast' : th.pc.Past)
    (hheap : heap = s.heap ∨ ∃ b bytes, Owns s t b ∧ bytes.length = BUF_SIZE ∧
      heap = s.heap.set b (.live bytes))
    (hcalls : th.calls = (s.thread t).calls) (hset : ∀ b, th.pc ≠ .setspecific b)
    (hinv : PcInv strerrorR { s with thread := Function.update s.thread t th, heap := heap } t) :
    Inv strerrorR { s with thread := Function.update s.thread t th, heap := heap } := by
  have hended : (s.thread t).pc ≠ .ended := by
    intro hpc
    rw [hpc] at hpast
    exact hpast
  exact inv_goes_on h hheap hcalls hset (not_creating hpast) (not_creating hpast')
    (fun hne => absurd (h.once.done hpast) hne) hended hinv

/-- A thread goes on without a store. -/
theorem inv_goto {pc : Pc} (h : Inv strerrorR s) (hset : ∀ b, pc ≠ .setspecific b)
    (hpc : ¬ (s.thread t).pc.Creating) (hpc' : ¬ pc.Creating) (hpast : s.once ≠ .done → ¬ pc.Past)
    (hended : (s.thread t).pc ≠ .ended) (hinv : PcInv strerrorR (s.goto t pc) t) :
    Inv strerrorR (s.goto t pc) :=
  inv_goes_on h (.inl rfl) rfl hset hpc hpc' hpast hended hinv

@[simp] theorem goto_self {pc : Pc} : (s.goto t pc).thread t = { s.thread t with pc := pc } :=
  Function.update_self ..

@[simp] theorem goto_heap {pc : Pc} : (s.goto t pc).heap = s.heap := rfl

@[simp] theorem goto_buf {pc : Pc} : (s.goto t pc).buf u = s.buf u := rfl

theorem ThreadInv.quiet (h : ThreadInv strerrorR s t) (hquiet : (s.thread t).pc.Quiet) :
    ∀ c, (s.thread t).calls.head? = some c → s.heap.text c.buf = some (message strerrorR c.err) := by
  have hinv := h.pc
  cases hpc : (s.thread t).pc <;> simp only [PcInv, hpc] at hinv <;> rw [hpc] at hquiet
  case outside | once | createKey | created | getspecific => exact hinv
  all_goals exact absurd hquiet id

theorem pcInv_of_quiet (hquiet : (s.thread t).pc.Quiet)
    (h : ∀ c, (s.thread t).calls.head? = some c →
      s.heap.text c.buf = some (message strerrorR c.err)) : PcInv strerrorR s t := by
  cases hpc : (s.thread t).pc <;> simp only [PcInv, hpc] <;> rw [hpc] at hquiet
  case outside | once | createKey | created | getspecific => exact h
  all_goals exact absurd hquiet id

theorem ne_ended {pc : Pc} (h : pc.Quiet) : pc ≠ .ended := by
  rintro rfl
  exact h

theorem inv_call (h : Inv strerrorR s) (hpc : (s.thread t).pc = .outside) (err : BitVec 32) :
    Inv strerrorR { s with
      thread := Function.update s.thread t { s.thread t with pc := .once, err := err } } := by
  have hquiet : (s.thread t).pc.Quiet := by simp [hpc, Pc.Quiet]
  refine inv_goes_on h (.inl (Eq.refl s.heap)) rfl ?_ ?_ ?_ ?_ (ne_ended hquiet) ?_
  · simp
  · simp [hpc, Pc.Creating]
  · simp [Pc.Creating]
  · simp [Pc.Past]
  · refine pcInv_of_quiet (by simp [Pc.Quiet]) ?_
    simpa using (h.thread t).quiet hquiet

theorem inv_once_done (h : Inv strerrorR s) (hpc : (s.thread t).pc = .once)
    (hdone : s.once = .done) : Inv strerrorR (s.goto t .getspecific) := by
  have hquiet : (s.thread t).pc.Quiet := by simp [hpc, Pc.Quiet]
  refine inv_goto h ?_ ?_ ?_ ?_ (ne_ended hquiet) ?_
  · simp
  · simp [hpc, Pc.Creating]
  · simp [Pc.Creating]
  · exact fun hne => absurd hdone hne
  · refine pcInv_of_quiet (by simp [Pc.Quiet]) ?_
    simpa using (h.thread t).quiet hquiet

/-- A step in `pthread_once` or `createKey`. -/
theorem inv_creates {pc : Pc} (h : Inv strerrorR s) (hquiet : (s.thread t).pc.Quiet)
    (hquiet' : pc.Quiet) (hthread : s'.thread = (s.goto t pc).thread) (hheap : s'.heap = s.heap)
    (hbuf : ∀ u, s'.buf u = s.buf u) (honce : OnceInv s') (hstatus : s'.status = s.status) :
    Inv strerrorR s' := by
  have hself : s'.thread t = { s.thread t with pc := pc } := by rw [hthread, goto_self]
  refine inv_of_frame h (frame_of_owned h hthread (fun u _ => hbuf u) (.inl hheap) fun b hb => ?_)
    honce ((h.thread t).of_pc ?_ (hbuf t) ?_ (ne_ended hquiet) ?_) (hstatus ▸ h.defined)
  · rw [Owns, hbuf, hself] at hb
    rcases hb with hb | rfl | hb
    · exact .inl hb
    · exact absurd hquiet' id
    · exact .inr (.inr hb)
  · rw [hself]
  · rw [hheap]
    exact fun b hb => hb
  · refine pcInv_of_quiet (by rw [hself]; exact hquiet') ?_
    rw [hself, hheap]
    exact (h.thread t).quiet hquiet

theorem inv_once_init (h : Inv strerrorR s) (hpc : (s.thread t).pc = .once) (hinit : s.once = .init) :
    Inv strerrorR { s.goto t .createKey with once := .running t } := by
  have hne : s.once ≠ .done := by simp [hinit]
  have hnone : ∀ u, ¬ (s.thread u).pc.Creating := by simp [h.once.creating, hinit]
  have hother : ∀ u ≠ t, (s.goto t .createKey).thread u = s.thread u :=
    fun u hu => Function.update_of_ne hu ..
  refine inv_creates h (by simp [hpc, Pc.Quiet]) (by simp [Pc.Quiet]) rfl rfl (fun _ => rfl)
    ⟨fun u => ?_, fun _ u => ?_, ?_⟩ rfl
  · by_cases hu : u = t
    · subst hu
      simp [Pc.Creating]
    · simp [hother u hu, hnone, Ne.symm hu]
  · obtain ⟨hcalls, hpast, hvalue⟩ := h.once.before hne u
    by_cases hu : u = t
    · subst hu
      exact ⟨by simpa using hcalls, by simp [Pc.Past], hvalue⟩
    · exact ⟨by simpa [hother u hu] using hcalls, by simpa [hother u hu] using hpast, hvalue⟩
  · rintro (hdone | ⟨u, hu⟩)
    · cases hdone
    · by_cases hut : u = t
      · subst hut
        simp at hu
      · simp only [hother u hut] at hu
        exact absurd (.inr hu) (hnone u)

/-- Only one thread is in `createKey`. -/
theorem OnceInv.creates (h : OnceInv s) (hpc : (s.thread t).pc.Creating) :
    s.once ≠ .done ∧ ∀ u ≠ t, ¬ (s.thread u).pc.Creating := by
  have honce := (h.creating t).mp hpc
  refine ⟨by simp [honce], fun u hu => ?_⟩
  rw [h.creating u, honce]
  simpa using Ne.symm hu

theorem inv_keyCreate {key : Key} {tsd : Tsd Tid Key Nat} (h : Inv strerrorR s)
    (hpc : (s.thread t).pc = .createKey) (hcreate : s.tsd.create key = some tsd) :
    Inv strerrorR { s.goto t .created with strerrorKey := key, tsd := tsd } := by
  obtain ⟨hcreated, hkeeps⟩ := Tsd.create_eq_some hcreate
  obtain ⟨hne, hnone⟩ := h.once.creates (.inl hpc)
  have hvalue : ∀ u k, tsd.value u k = none := fun u => hkeeps u (h.once.before hne u).2.2
  have hother : ∀ u ≠ t, (s.goto t .created).thread u = s.thread u :=
    fun u hu => Function.update_of_ne hu ..
  refine inv_creates h (by simp [hpc, Pc.Quiet]) (by simp [Pc.Quiet]) rfl rfl (fun u => ?_)
    ⟨fun u => ?_, fun _ u => ?_, fun _ => hcreated⟩ rfl
  · exact (hvalue u key).trans ((h.once.before hne u).2.2 s.strerrorKey).symm
  · refine Iff.trans ?_ (h.once.creating u)
    by_cases hu : u = t
    · subst hu
      simp [Pc.Creating, hpc]
    · simp [hother u hu]
  · obtain ⟨hcalls, hpast, -⟩ := h.once.before hne u
    by_cases hu : u = t
    · subst hu
      exact ⟨by simpa using hcalls, by simp [Pc.Past], hvalue u⟩
    · exact ⟨by simpa [hother u hu] using hcalls, by simpa [hother u hu] using hpast, hvalue u⟩

theorem inv_created (h : Inv strerrorR s) (hpc : (s.thread t).pc = .created) :
    Inv strerrorR { s.goto t .getspecific with once := .done } := by
  obtain ⟨-, hnone⟩ := h.once.creates (.inr hpc)
  refine inv_creates h (by simp [hpc, Pc.Quiet]) (by simp [Pc.Quiet]) rfl rfl (fun _ => rfl)
    ⟨fun u => ?_, fun hne => absurd rfl hne, fun _ => h.once.key (.inr ⟨t, hpc⟩)⟩ rfl
  by_cases hu : u = t
  · subst hu
    simp [Pc.Creating]
  · have hother : (s.goto t .getspecific).thread u = s.thread u := Function.update_of_ne hu ..
    simp [hother, hnone u hu]

theorem inv_getspecific (h : Inv strerrorR s) (hpc : (s.thread t).pc = .getspecific)
    (hstep : strerrorTsd strerrorR s t .getspecific = some s') : Inv strerrorR s' := by
  have hpast : (s.thread t).pc.Past := by simp [hpc, Pc.Past]
  rw [strerrorTsd, if_pos hpc, h.once.getspecific hpast] at hstep
  cases hbuf : s.buf t with
  | none =>
    rw [hbuf] at hstep
    cases hstep
    refine inv_goes_past h hpast (by simp [Pc.Past]) (.inl rfl) rfl (by simp) ?_
    simp only [PcInv, Function.update_self]
    exact hbuf
  | some buf =>
    rw [hbuf] at hstep
    cases hstep
    refine inv_goes_past h hpast (by simp [Pc.Past]) (.inl rfl) rfl (by simp) ?_
    simp only [PcInv, Function.update_self]
    exact hbuf

/-- A string is stored in the buffer. -/
theorem inv_put {text : Bytes} (h : Inv strerrorR s)
    (hpc : (s.thread t).pc = .strerrorR b ∨ (s.thread t).pc = .snprintf b) (hbuf : s.buf t = some b)
    (hlen : text.length < BUF_SIZE) (h0 : 0 ∉ text)
    (htext : text = message strerrorR (s.thread t).err) :
    Inv strerrorR (s.stored t (.ret b) (s.heap.put b text)) := by
  have hpast : (s.thread t).pc.Past := by rcases hpc with hpc | hpc <;> simp [hpc, Pc.Past]
  obtain ⟨bytes, hput, hbytes, hstring⟩ := Heap.put_eq_some ((h.thread t).room b hbuf) hlen h0
  rw [hput]
  refine inv_goes_past h hpast (by simp [Pc.Past]) (.inr ⟨b, bytes, .inl hbuf, hbytes, rfl⟩) rfl
    (by simp) ?_
  simp only [PcInv, Function.update_self]
  exact ⟨hbuf, by rw [Heap.text_set_self, hstring, htext]⟩

theorem inv_strerrorR {bytes : Bytes} (h : Inv strerrorR s) (hpc : (s.thread t).pc = .strerrorR b)
    (hstep : strerrorTsd strerrorR s t (.strerrorR bytes) = some s') : Inv strerrorR s' := by
  have hpast : (s.thread t).pc.Past := by simp [hpc, Pc.Past]
  have hbuf : s.buf t = some b := by simpa [PcInv, hpc] using (h.thread t).pc
  simp only [strerrorTsd, hpc] at hstep
  cases hm : strerrorR (s.thread t).err with
  | some m =>
    rw [hm] at hstep
    cases hstep
    exact inv_put h (.inl hpc) hbuf m.fits m.text.noNul (by rw [message, hm])
  | none =>
    simp only [hm] at hstep
    split_ifs at hstep with hle
    obtain ⟨bytes', hfill, hbytes⟩ := Heap.fill_eq_some ((h.thread t).room b hbuf) hle
    rw [hfill] at hstep
    cases hstep
    refine inv_goes_past h hpast (by simp [Pc.Past]) (.inr ⟨b, bytes', .inl hbuf, hbytes, rfl⟩) rfl
      (by simp) ?_
    simp only [PcInv, Function.update_self]
    exact ⟨hbuf, hm⟩

/-- The text for an unknown error is not cut. -/
theorem unknownError_eq (err : BitVec 32) :
    unknownError err = ascii "Unknown error " ++ decimalInt err.toInt := by
  have hlt : err.toInt.natAbs < 10 ^ (9 + 1) := by
    have h1 := @BitVec.toInt_lt 32 err
    have h2 := @BitVec.le_toInt 32 err
    omega
  have hlen := length_decimalInt_le hlt
  refine List.take_of_length_le ?_
  have hascii : (ascii "Unknown error ").length = 14 := by decide
  rw [List.length_append, hascii, BUF_SIZE]
  omega

theorem inv_snprintf (h : Inv strerrorR s) (hpc : (s.thread t).pc = .snprintf b)
    (hstep : strerrorTsd strerrorR s t .snprintf = some s') : Inv strerrorR s' := by
  obtain ⟨hbuf, hnone⟩ : s.buf t = some b ∧ strerrorR (s.thread t).err = none := by
    simpa [PcInv, hpc] using (h.thread t).pc
  simp only [strerrorTsd, hpc] at hstep
  cases hstep
  refine inv_put h (.inr hpc) hbuf ?_ ?_ ?_
  · rw [unknownError, List.length_take, BUF_SIZE]
    omega
  · rw [unknownError_eq, List.mem_append, not_or]
    exact ⟨by decide, zero_not_mem_decimalInt _⟩
  · rw [unknownError_eq, message, hnone]

/-- Without a value the thread has made no call so far. -/
theorem ThreadInv.calls_eq_nil (h : ThreadInv strerrorR s t) (hpc : (s.thread t).pc ≠ .ended)
    (hbuf : s.buf t = none) : (s.thread t).calls = [] := by
  refine List.eq_nil_iff_forall_not_mem.mpr fun c hc => ?_
  have hvalue := h.value hpc c hc
  rw [hbuf] at hvalue
  cases hvalue

/-- The thread gets a block that nobody has had. -/
theorem inv_malloc {bytes : Bytes} {heap : Heap} (h : Inv strerrorR s)
    (hpc : (s.thread t).pc = .malloc) (hlen : bytes.length = BUF_SIZE)
    (hmalloc : s.heap.malloc b bytes = some heap) :
    Inv strerrorR { s.goto t (.setspecific b) with heap := heap } := by
  obtain ⟨hunused, rfl⟩ := Heap.malloc_eq_some hmalloc
  have hpast : (s.thread t).pc.Past := by simp [hpc, Pc.Past]
  have hbuf : s.buf t = none := by simpa [PcInv, hpc] using (h.thread t).pc
  have hended : (s.thread t).pc ≠ .ended := by simp [hpc]
  have hcalls := (h.thread t).calls_eq_nil hended hbuf
  have hroom : (s.heap.set b (.live bytes)).Room BUF_SIZE b := ⟨bytes, Heap.set_self, hlen⟩
  refine inv_of_frame h ⟨fun u hu => ?_, fun _ _ => rfl, fun c => ?_, fun c hc => ?_⟩
    (onceInv_of_thread h.once rfl rfl rfl rfl (not_creating hpast) ?_ fun hne => ?_)
    ((h.thread t).of_pc ?_ rfl (fun c hc => Heap.Room.set hc hlen) hended ?_) h.defined
  · exact Function.update_of_ne hu ..
  · by_cases hcb : c = b
    · exact .inr (.inr (hcb ▸ hunused))
    · exact .inl (Heap.set_of_ne hcb)
  · have hcb : b = c := by
      rcases hc with hc | hc | ⟨d, hd, -⟩
      · exact absurd (hbuf.symm.trans hc) (by simp)
      · simpa using hc
      · simp [hcalls] at hd
    subst hcb
    exact ⟨hroom.ne_unused, .inr hunused⟩
  · simp [Pc.Creating]
  · exact absurd (h.once.done hpast) hne
  · simp
  · simp only [PcInv, goto_self]
    exact ⟨hbuf, hroom⟩

theorem inv_setspecific (h : Inv strerrorR s) (hpc : (s.thread t).pc = .setspecific b)
    (hstep : strerrorTsd strerrorR s t .setspecific = some s') : Inv strerrorR s' := by
  have hpast : (s.thread t).pc.Past := by simp [hpc, Pc.Past]
  obtain ⟨hbuf, hroom⟩ : s.buf t = none ∧ s.heap.Room BUF_SIZE b := by
    simpa [PcInv, hpc] using (h.thread t).pc
  have hcalls := (h.thread t).calls_eq_nil (by simp [hpc]) hbuf
  simp only [strerrorTsd, hpc, Tsd.setspecific, if_pos (h.once.created hpast)] at hstep
  cases hstep
  have hvalue : (s.tsd.set t s.strerrorKey (some b)).value t s.strerrorKey = some b :=
    Tsd.set_value_self
  refine inv_of_frame h (frame_of_owned h rfl (fun u hu => ?_) (.inl rfl) fun c hc => ?_)
    (onceInv_of_thread h.once rfl rfl rfl rfl (not_creating hpast) ?_ fun hne => ?_)
    ⟨?_, fun c hc => ?_, fun _ c hc => ?_, fun c hc => ?_⟩ h.defined
  · show (s.tsd.set t s.strerrorKey (some b)).value u s.strerrorKey = _
    rw [Tsd.set_value_of_ne hu]
    rfl
  · rcases hc with hc | hc | ⟨d, hd, -⟩
    · cases hvalue.symm.trans hc
      exact .inr (.inl hpc)
    · simp at hc
    · simp [hcalls] at hd
  · simp [Pc.Creating]
  · exact absurd (h.once.done hpast) hne
  · simp only [PcInv, goto_self]
    exact hvalue
  · cases hvalue.symm.trans hc
    exact hroom
  · simp [hcalls] at hc
  · simp [hcalls] at hc

theorem inv_ret (h : Inv strerrorR s) (hpc : (s.thread t).pc = .ret b) :
    Inv strerrorR { s with
      thread := Function.update s.thread t { s.thread t with
        pc := .outside
        calls := ⟨(s.thread t).err, b⟩ :: (s.thread t).calls } } := by
  have hpast : (s.thread t).pc.Past := by simp [hpc, Pc.Past]
  obtain ⟨hbuf, htext⟩ : s.buf t = some b ∧
      s.heap.text b = some (message strerrorR (s.thread t).err) := by
    simpa [PcInv, hpc] using (h.thread t).pc
  have hcalls : ∀ c ∈ (⟨(s.thread t).err, b⟩ : Call) :: (s.thread t).calls, c.buf = b := by
    rw [List.forall_mem_cons]
    refine ⟨rfl, fun c hc => ?_⟩
    have hvalue := (h.thread t).value (by simp [hpc]) c hc
    exact (Option.some.inj (hbuf.symm.trans hvalue)).symm
  refine inv_of_frame h (frame_of_owned h rfl (fun _ _ => rfl) (.inl rfl) fun c hc => ?_)
    (onceInv_of_thread h.once rfl rfl rfl rfl (not_creating hpast) ?_ fun hne => ?_)
    ⟨?_, (h.thread t).room, fun _ c hc => ?_, fun c hc d hd => ?_⟩ h.defined
  · rcases hc with hc | hc | ⟨d, hd, rfl⟩
    · exact .inl hc
    · simp at hc
    · rw [hcalls d (by simpa using hd)]
      exact .inl hbuf
  · simp [Pc.Creating]
  · exact absurd (h.once.done hpast) hne
  · refine pcInv_of_quiet (by simp [Pc.Quiet]) ?_
    simpa using htext
  · rw [hcalls c (by simpa using hc)]
    exact hbuf
  · rw [hcalls c (by simpa using hc), hcalls d (by simpa using hd)]

/-- The end of a thread: its buffer is freed. -/
theorem inv_exit (h : Inv strerrorR s) (hpc : (s.thread t).pc = .outside)
    (hstep : strerrorTsd strerrorR s t .exit = some s') : Inv strerrorR s' := by
  have hended : (s.thread t).pc ≠ .ended := by simp [hpc]
  have hnot : ¬ (s.thread t).pc.Creating := by simp [hpc, Pc.Creating]
  rw [strerrorTsd, if_pos hpc] at hstep
  cases hbuf : s.buf t with
  | none =>
    have hvalue : s.tsd.value t s.strerrorKey = none := hbuf
    rw [hvalue] at hstep
    cases hstep
    refine inv_goto h ?_ hnot ?_ ?_ hended ?_
    · simp
    · simp [Pc.Creating]
    · simp [Pc.Past]
    · simp only [PcInv, goto_self]
      exact hbuf
  | some b =>
    have hvalue : s.tsd.value t s.strerrorKey = some b := hbuf
    have hdone : s.once = .done := by
      by_contra hne
      have hnone := (h.once.before hne t).2.2 s.strerrorKey
      rw [hvalue] at hnone
      cases hnone
    have hfree := Heap.free_eq_some ((h.thread t).room b hbuf)
    simp only [hvalue, destructor, hfree, State.stored] at hstep
    cases hstep
    have hnone : (s.tsd.set t s.strerrorKey none).value t s.strerrorKey = none :=
      Tsd.set_value_self
    refine inv_of_frame h (frame_of_owned h rfl (fun u hu => ?_) (.inr ?_) fun c hc => ?_)
      (onceInv_of_thread h.once rfl rfl rfl rfl hnot ?_ fun hne => absurd hdone hne)
      ⟨?_, fun c hc => ?_, fun hne => ?_, ?_⟩ h.defined
    · show (s.tsd.set t s.strerrorKey none).value u s.strerrorKey = _
      rw [Tsd.set_value_of_ne hu]
      rfl
    · exact ⟨b, .freed, .inl hbuf, Block.noConfusion, rfl⟩
    · rcases hc with hc | hc | hc
      · cases hnone.symm.trans hc
      · simp [State.goto] at hc
      · refine .inr (.inr ?_)
        simpa [State.goto] using hc
    · simp [Pc.Creating]
    · simp only [PcInv, State.goto, Function.update_self]
      exact hnone
    · cases hnone.symm.trans hc
    · simp [State.goto] at hne
    · simpa [State.goto] using (h.thread t).same

theorem inv_fail (h : Inv strerrorR s) : Inv strerrorR { s with status := .failed } := by
  refine ⟨⟨h.once.creating, h.once.before, h.once.key⟩, fun t => ?_, h.apart, h.used, by simp⟩
  exact (h.thread t).congr rfl rfl fun _ _ => rfl

/-- **Every step keeps the invariant.** -/
theorem inv_step {e : Event} (h : Inv strerrorR s) (hstep : step strerrorR s e = some s') :
    Inv strerrorR s' := by
  obtain ⟨t, a⟩ := e
  rw [step] at hstep
  split_ifs at hstep
  cases a with
  | call err =>
    simp only [strerrorTsd] at hstep
    split_ifs at hstep with hpc
    cases hstep
    exact inv_call h hpc err
  | once =>
    simp only [strerrorTsd] at hstep
    split_ifs at hstep with hpc
    cases honce : s.once with
    | init =>
      rw [honce] at hstep
      cases hstep
      exact inv_once_init h hpc honce
    | running u =>
      rw [honce] at hstep
      cases hstep
    | done =>
      rw [honce] at hstep
      cases hstep
      exact inv_once_done h hpc honce
  | keyCreate key =>
    simp only [strerrorTsd] at hstep
    split_ifs at hstep with hpc
    obtain ⟨tsd, hcreate, rfl⟩ := Option.map_eq_some_iff.mp hstep
    exact inv_keyCreate h hpc hcreate
  | created =>
    simp only [strerrorTsd] at hstep
    split_ifs at hstep with hpc
    cases hstep
    exact inv_created h hpc
  | getspecific =>
    have hpc : (s.thread t).pc = .getspecific := by
      by_contra hpc
      simp [strerrorTsd, hpc] at hstep
    exact inv_getspecific h hpc hstep
  | malloc buf bytes =>
    simp only [strerrorTsd] at hstep
    split_ifs at hstep with hpc
    obtain ⟨heap, hmalloc, rfl⟩ := Option.map_eq_some_iff.mp hstep
    exact inv_malloc h hpc.1 hpc.2 hmalloc
  | setspecific =>
    cases hpc : (s.thread t).pc
    case setspecific buf => exact inv_setspecific h hpc hstep
    all_goals simp [strerrorTsd, hpc] at hstep
  | strerrorR bytes =>
    cases hpc : (s.thread t).pc
    case strerrorR buf => exact inv_strerrorR h hpc hstep
    all_goals simp [strerrorTsd, hpc] at hstep
  | snprintf =>
    cases hpc : (s.thread t).pc
    case snprintf buf => exact inv_snprintf h hpc hstep
    all_goals simp [strerrorTsd, hpc] at hstep
  | ret =>
    cases hpc : (s.thread t).pc
    case ret buf =>
      simp only [strerrorTsd, hpc] at hstep
      cases hstep
      exact inv_ret h hpc
    all_goals simp [strerrorTsd, hpc] at hstep
  | exit =>
    have hpc : (s.thread t).pc = .outside := by
      by_contra hpc
      simp [strerrorTsd, hpc] at hstep
    exact inv_exit h hpc hstep
  | fail =>
    simp only [strerrorTsd] at hstep
    split_ifs at hstep
    cases hstep
    exact inv_fail h

theorem inv_reach (h : (system strerrorR).Reach s) : Inv strerrorR s :=
  System.Reach.invariant (I := Inv strerrorR) inv_init (fun _ _ _ hi hst => inv_step hi hst) h

theorem Inv.isolated (h : Inv strerrorR s) : Isolated strerrorR s := by
  refine ⟨fun t u htu c hc d hd heq => ?_, fun t => (h.thread t).same, fun t hpc c hc => ?_,
    h.defined⟩
  · exact htu (h.apart t u c.buf (.inr (.inr ⟨c, hc, rfl⟩)) (.inr (.inr ⟨d, hd, heq.symm⟩)))
  · rw [State.found, hc]
    exact (h.thread t).quiet (by simp [hpc, Pc.Quiet]) c hc

end Steps

/-- In every run, with any threads, calls, error numbers and order of the steps: two threads never
get pointers to the same block, a thread gets the same pointer from all its calls, and between two
calls it finds there the text for the error number of its latest call; no call is undefined.  And
what a thread finds is the same in any two runs in which it has made the same calls, whatever the
other threads do. -/
theorem isolates_threads (strerrorR : BitVec 32 → Option Message) :
    (∀ s, (system strerrorR).Reach s → Isolated strerrorR s) ∧
      ∀ s₁ s₂, (system strerrorR).Reach s₁ → (system strerrorR).Reach s₂ →
        ∀ t, (s₁.thread t).pc = .outside → (s₂.thread t).pc = .outside →
          (s₁.thread t).calls.map Call.err = (s₂.thread t).calls.map Call.err →
            s₁.found t = s₂.found t := by
  have hall : ∀ s, (system strerrorR).Reach s → Isolated strerrorR s :=
    fun s hs => (inv_reach hs).isolated
  refine ⟨hall, fun s₁ s₂ hs₁ hs₂ t hpc₁ hpc₂ herr => ?_⟩
  have hfirst := congrArg List.head? herr
  rw [List.head?_map, List.head?_map] at hfirst
  cases h₁ : (s₁.thread t).calls.head? with
  | none =>
    rw [h₁, Option.map_none, eq_comm, Option.map_eq_none_iff] at hfirst
    rw [State.found, State.found, h₁, hfirst]
    rfl
  | some c =>
    rw [h₁, Option.map_some, eq_comm, Option.map_eq_some_iff] at hfirst
    obtain ⟨d, h₂, hd⟩ := hfirst
    rw [(hall s₁ hs₁).text t hpc₁ c h₁, (hall s₂ hs₂).text t hpc₂ d h₂, hd]

/-- A `strerror_r` that knows `EPERM` only. -/
def knowsEperm (err : BitVec 32) : Option Message :=
  if err = 1 then some ⟨⟨ascii "Operation not permitted", by decide⟩, by decide⟩ else none

/-- The first calls of two threads, one of which waits for the other to create the key. -/
def firstCalls : List Event :=
  [⟨0, .call 1⟩, ⟨1, .call 1000⟩, ⟨0, .once⟩, ⟨0, .keyCreate 3⟩, ⟨0, .created⟩, ⟨1, .once⟩,
    ⟨1, .getspecific⟩, ⟨0, .getspecific⟩, ⟨1, .malloc 7 (List.replicate 1000 170)⟩,
    ⟨0, .malloc 8 (List.replicate 1000 85)⟩, ⟨0, .setspecific⟩, ⟨1, .setspecific⟩,
    ⟨1, .strerrorR []⟩, ⟨0, .strerrorR []⟩, ⟨1, .snprintf⟩, ⟨0, .ret⟩, ⟨1, .ret⟩]

theorem isolates_threads_first_calls :
    ∃ s, (system knowsEperm).Reach s ∧ (s.thread 0).calls = [⟨1, 8⟩] ∧
      (s.thread 1).calls = [⟨1000, 7⟩] ∧ s.found 0 = some (ascii "Operation not permitted") ∧
      s.found 1 = some (ascii "Unknown error 1000") := by
  have hrun : ((system knowsEperm).exec init firstCalls).map (fun s => (s.thread 0, s.thread 1)) =
      some (⟨.outside, 1, [⟨1, 8⟩]⟩, ⟨.outside, 1000, [⟨1000, 7⟩]⟩) := by decide +kernel
  obtain ⟨s, hexec, hthreads⟩ := Option.map_eq_some_iff.mp hrun
  obtain ⟨h₀, h₁⟩ := Prod.mk.inj hthreads
  have hreach : (system knowsEperm).Reach s := System.reach_of_exec hexec
  have htext := ((isolates_threads knowsEperm).1 s hreach).text
  refine ⟨s, hreach, by rw [h₀], by rw [h₁], ?_, ?_⟩
  · rw [htext 0 (by rw [h₀]) ⟨1, 8⟩ (by rw [h₀]; rfl)]
    decide
  · rw [htext 1 (by rw [h₁]) ⟨1000, 7⟩ (by rw [h₁]; rfl)]
    decide

end Tlpi.StrerrorTsd

import Tlpi.Inotify.Model

/-!
# Decoding a buffer of events

* `eventAt_of_holds`: where an event has been written, it is what is found.
* `eventLoop_of_holds`: the loop on the events of a list, from the first of them on.
* `length_eventLoop_le`: whatever is in the buffer, every pass moves on by a header at least.
* `pass_of_holds`: what a program prints for the events that the kernel hands out.
* `eventLoop_decodes`: the loop, with the bounds, and how long it can take at most.
-/

namespace Tlpi.Inotify

open Tlpi.Lib

/-- The bytes `data` are in memory from `p` on. -/
def Holds (buf : Nat → UInt8) (p : Nat) (data : Bytes) : Prop := bytesAt buf p data.length = data

/-- The string at `p` has `k` characters: that many are looked at, and the NUL. -/
def StringEnds (buf : Nat → UInt8) (p k : Nat) : Prop :=
  buf (p + k) = 0 ∧ ∀ j < k, buf (p + j) ≠ 0

section Memory

variable {buf : Nat → UInt8} {p : Nat} {a b data : Bytes}

theorem holds_cons {c : UInt8} : Holds buf p (c :: data) ↔ buf p = c ∧ Holds buf (p + 1) data := by
  rw [Holds, List.length_cons, bytesAt, List.cons.injEq]
  rfl

theorem holds_append : Holds buf p (a ++ b) ↔ Holds buf p a ∧ Holds buf (p + a.length) b := by
  induction a generalizing p with
  | nil => simp [Holds, bytesAt]
  | cons c a ih =>
    rw [List.cons_append, holds_cons, holds_cons, ih, List.length_cons, and_assoc, Nat.add_assoc,
      Nat.add_comm 1]

theorem word_of_holds {x : BitVec 32} (h : Holds buf p (encodeInt x)) : word buf p = x := by
  have hbytes : bytesAt buf p 4 = encodeInt x := h
  rw [word, hbytes, decodeInt_encodeInt]

/-- Where there is a NUL in a name, the string ends inside the name. -/
theorem stringEnds_of_mem (h : Holds buf p data) (h0 : 0 ∈ data) :
    ∃ k < data.length, StringEnds buf p k := by
  induction data generalizing p with
  | nil => cases h0
  | cons c data ih =>
    obtain ⟨hc, hdata⟩ := holds_cons.mp h
    by_cases hnul : c = 0
    · exact ⟨0, Nat.succ_pos _, hc.trans hnul, nofun⟩
    · obtain ⟨k, hk, hend, hbefore⟩ := ih hdata ((List.mem_cons.mp h0).resolve_left (Ne.symm hnul))
      refine ⟨k + 1, Nat.succ_lt_succ hk, ?_, fun j hj => ?_⟩
      · rw [Nat.add_comm k, ← Nat.add_assoc]
        exact hend
      · cases j with
        | zero => exact hc ▸ hnul
        | succ j =>
          rw [Nat.add_comm j, ← Nat.add_assoc]
          exact hbefore j (Nat.lt_of_succ_lt_succ hj)

end Memory

section Event

variable {buf : Nat → UInt8} {p : Nat} {e : Event}

theorem length_encode (e : Event) : e.encode.length = headerSize + e.name.length := by
  simp only [Event.encode, List.length_append, length_encodeInt, headerSize]
  omega

theorem toNat_len (e : Event) : e.len.toNat = e.name.length := by
  rw [Event.len, BitVec.toNat_ofNat, Nat.mod_eq_of_lt e.fits]

/-- The parts of an event in memory. -/
theorem fields_of_holds (h : Holds buf p e.encode) :
    word buf p = e.wd ∧ word buf (p + 4) = e.mask ∧ word buf (p + 8) = e.cookie ∧
      word buf (p + 12) = e.len ∧ Holds buf (p + headerSize) e.name := by
  simp only [Event.encode, holds_append, length_encodeInt] at h
  obtain ⟨hwd, hmask, hcookie, hlen, hname⟩ := h
  exact ⟨word_of_holds hwd, word_of_holds hmask, word_of_holds hcookie, word_of_holds hlen, hname⟩

/-- What has been written is what is found. -/
theorem eventAt_of_holds (h : Holds buf p e.encode) : eventAt buf p = e := by
  obtain ⟨hwd, hmask, hcookie, hlen, hname⟩ := fields_of_holds h
  have hbytes : bytesAt buf (p + headerSize) (word buf (p + 12)).toNat = e.name := by
    rw [hlen, toNat_len]
    exact hname
  cases e
  simp only [eventAt, hwd, hmask, hcookie, hbytes]

end Event

/-! ### The loop -/

section Loop

variable {buf : Nat → UInt8} {numRead p : Nat}

theorem eventLoop_of_lt (h : p < numRead) :
    eventLoop buf numRead p =
      ((p, eventAt buf p) ::
        (eventLoop buf numRead (p + (headerSize + (word buf (p + 12)).toNat))).1,
        (eventLoop buf numRead (p + (headerSize + (word buf (p + 12)).toNat))).2) := by
  rw [eventLoop, if_pos h]

theorem eventLoop_of_ge (h : ¬ p < numRead) : eventLoop buf numRead p = ([], p) := by
  rw [eventLoop, if_neg h]

/-- A visit of which the header, the name and the string that is printed lie in the first
`numRead` bytes; there is a string to print if there is a name, and the kernel has put a NUL
into it. -/
def Inside (buf : Nat → UInt8) (numRead : Nat) (v : Nat × Event) : Prop :=
  v.1 + headerSize + v.2.name.length ≤ numRead ∧
    (0 ∈ v.2.name → ∃ k, StringEnds buf (v.1 + headerSize) k ∧ v.1 + headerSize + k < numRead)

theorem inside_of_holds {e : Event} (h : Holds buf p e.encode)
    (hle : p + e.encode.length ≤ numRead) : Inside buf numRead (p, e) := by
  rw [length_encode, ← Nat.add_assoc] at hle
  refine ⟨hle, fun h0 => ?_⟩
  obtain ⟨-, -, -, -, hname⟩ := fields_of_holds h
  obtain ⟨k, hk, hend⟩ := stringEnds_of_mem hname h0
  exact ⟨k, hend, by show p + headerSize + k < numRead; omega⟩

/-- From the place on where the first of some events is. -/
theorem eventLoop_of_holds (es : List Event) (h : Holds buf p (es.flatMap Event.encode))
    (hend : p + (es.flatMap Event.encode).length = numRead) :
    (eventLoop buf numRead p).1.map Prod.snd = es ∧ (eventLoop buf numRead p).2 = numRead ∧
      ∀ v ∈ (eventLoop buf numRead p).1, Inside buf numRead v := by
  induction es generalizing p with
  | nil =>
    have hp : p = numRead := hend
    rw [eventLoop_of_ge (by omega)]
    exact ⟨rfl, hp, nofun⟩
  | cons e es ih =>
    rw [List.flatMap_cons] at h hend
    obtain ⟨he, hes⟩ := holds_append.mp h
    rw [List.length_append] at hend
    have hlen := length_encode e
    have hlt : p < numRead := by
      rw [headerSize] at hlen
      omega
    have hnext : headerSize + (word buf (p + 12)).toNat = e.encode.length := by
      rw [(fields_of_holds he).2.2.2.1, toNat_len, hlen]
    obtain ⟨hvisits, hstop, hinside⟩ := ih hes (by omega)
    rw [eventLoop_of_lt hlt, hnext, eventAt_of_holds he]
    refine ⟨congrArg _ hvisits, hstop, fun v hv => ?_⟩
    rcases List.mem_cons.mp hv with rfl | hv
    · exact inside_of_holds he (by omega)
    · exact hinside v hv

/-- Every pass moves on by a header at least, whatever the length field says. -/
theorem length_eventLoop_le (buf : Nat → UInt8) (numRead p : Nat) :
    16 * (eventLoop buf numRead p).1.length ≤ numRead - p + 15 := by
  fun_induction eventLoop buf numRead p with
  | case1 p h rest ih =>
    have hsize : headerSize = 16 := rfl
    have hrest : 16 * rest.1.length ≤
        numRead - (p + (headerSize + (word buf (p + 12)).toNat)) + 15 := ih
    rw [List.length_cons]
    omega
  | case2 p h => exact Nat.zero_le _

end Loop

/-! ### What is printed -/

section Printed

variable {buf : Nat → UInt8} {es : List Event}

theorem printEvents_of_holds (display : Event → Shown) (h : Holds buf 0 (es.flatMap Event.encode)) :
    printEvents display buf (es.flatMap Event.encode).length = es.map display := by
  have hvisits := (eventLoop_of_holds es h (Nat.zero_add _)).1
  calc printEvents display buf (es.flatMap Event.encode).length
      = ((eventLoop buf (es.flatMap Event.encode).length 0).1.map Prod.snd).map display := by
        rw [List.map_map]
        rfl
    _ = es.map display := by rw [hvisits]

/-- A pass of a program, when the kernel has events that fit into the buffer. -/
theorem pass_of_holds (display : Event → Shown) {size : Nat} (hne : es ≠ [])
    (hsize : (es.flatMap Event.encode).length ≤ size)
    (h : Holds buf 0 (es.flatMap Event.encode)) :
    pass display size buf (some (es.flatMap Event.encode).length) = .printed (es.map display) := by
  have hpos : (es.flatMap Event.encode).length ≠ 0 := by
    obtain ⟨e, es, rfl⟩ := List.exists_cons_of_ne_nil hne
    have hlen := length_encode e
    rw [headerSize] at hlen
    rw [List.flatMap_cons, List.length_append]
    omega
  simp only [pass, Nat.min_eq_left hsize, if_neg hpos, printEvents_of_holds display h]

end Printed

/-- **The buffer is decoded.**  If the first `numRead` bytes are the events of a list, the
loop visits these events, in order and each once, looks at nothing behind the `numRead` bytes
for them, and stops at their end; so what is printed is printed for these events.  And
whatever is in the buffer, there are at most `numRead / 16 + 1` passes. -/
theorem eventLoop_decodes (buf : Nat → UInt8) (numRead : Nat) :
    (∀ es : List Event, (es.flatMap Event.encode).length = numRead →
      Holds buf 0 (es.flatMap Event.encode) →
      (eventLoop buf numRead 0).1.map Prod.snd = es ∧ (eventLoop buf numRead 0).2 = numRead ∧
        (∀ v ∈ (eventLoop buf numRead 0).1, Inside buf numRead v) ∧
        ∀ display, printEvents display buf numRead = es.map display) ∧
      (eventLoop buf numRead 0).1.length ≤ numRead / 16 + 1 := by
  constructor
  · intro es hlen hbuf
    have hend : 0 + (es.flatMap Event.encode).length = numRead := by rw [Nat.zero_add, hlen]
    obtain ⟨hvisits, hstop, hinside⟩ := eventLoop_of_holds es hbuf hend
    refine ⟨hvisits, hstop, hinside, fun display => ?_⟩
    rw [← hlen, printEvents_of_holds display hbuf]
  · have := length_eventLoop_le buf numRead 0
    omega

/-- An event without a name and one with the name `a`, in 36 bytes. -/
theorem eventLoop_decodes_two :
    let es : List Event := [⟨1, 0x20, 0, [], by decide⟩, ⟨1, 0x100, 0, [97, 0, 0, 0], by decide⟩]
    let buf := fun i => (es.flatMap Event.encode).getD i 255
    (eventLoop buf 36 0).1.map Prod.snd = es ∧ (eventLoop buf 36 0).2 = 36 := by
  intro es buf
  have hdecode := (eventLoop_decodes buf 36).1 es (by decide) (by unfold Holds; decide)
  exact ⟨hdecode.1, hdecode.2.1⟩

end Tlpi.Inotify

import Tlpi.Lib.CString

/-!
# The heap

A block is what one call of `malloc` returns.  It keeps its number after `free`, and no other call
returns this number, even if the memory is used again.  What is stored in a block that is not live,
or behind its end, has no result.

* `put_eq_some`, `fill_eq_some`, `free_eq_some`: in a live block with enough room these have a
  result, which differs from the heap in this block only.
-/

namespace Tlpi.Lib

/-- A block: not allocated so far, allocated with these contents, or freed. -/
inductive Block
  | unused
  | live (bytes : Bytes)
  | freed
  deriving DecidableEq, Repr

/-- The blocks, by their numbers. -/
structure Heap where
  block : Nat → Block

namespace Heap

def empty : Heap := ⟨fun _ => .unused⟩

def set (h : Heap) (b : Nat) (x : Block) : Heap := ⟨Function.update h.block b x⟩

/-- `malloc` returns the block `b`, with whatever there is in the memory. -/
def malloc (h : Heap) (b : Nat) (bytes : Bytes) : Option Heap :=
  if h.block b = .unused then some (h.set b (.live bytes)) else none

def free (h : Heap) (b : Nat) : Option Heap :=
  match h.block b with
  | .live _ => some (h.set b .freed)
  | _ => none

/-- A string and its terminator are stored at the beginning of the block. -/
def put (h : Heap) (b : Nat) (s : Bytes) : Option Heap :=
  match h.block b with
  | .live bytes =>
      if s.length < bytes.length then
        some (h.set b (.live (s ++ 0 :: bytes.drop (s.length + 1))))
      else none
  | _ => none

/-- Some bytes are stored at the beginning of the block. -/
def fill (h : Heap) (b : Nat) (s : Bytes) : Option Heap :=
  match h.block b with
  | .live bytes =>
      if s.length ≤ bytes.length then some (h.set b (.live (s ++ bytes.drop s.length))) else none
  | _ => none

/-- The string that a pointer to the block leads to. -/
def text (h : Heap) (b : Nat) : Option Bytes :=
  match h.block b with
  | .live bytes => some (cstring bytes)
  | _ => none

/-- The block can hold `n` bytes. -/
def Room (h : Heap) (n b : Nat) : Prop := ∃ bytes, h.block b = .live bytes ∧ bytes.length = n

section

variable {h h' : Heap} {b n : Nat} {s bytes : Bytes} {x : Block}

@[simp] theorem set_self : (h.set b x).block b = x := Function.update_self ..

@[simp] theorem set_of_ne {c : Nat} (hc : c ≠ b) : (h.set b x).block c = h.block c :=
  Function.update_of_ne hc ..

theorem text_set_self : (h.set b (.live bytes)).text b = some (cstring bytes) := by
  simp only [text, set_self]

theorem text_congr (hb : h'.block b = h.block b) : h'.text b = h.text b := by
  rw [text, text, hb]

theorem Room.congr (hroom : h.Room n b) (hb : h'.block b = h.block b) : h'.Room n b := by
  obtain ⟨bytes, hlive, hlen⟩ := hroom
  exact ⟨bytes, hb.trans hlive, hlen⟩

theorem Room.ne_unused (hroom : h.Room n b) : h.block b ≠ .unused := by
  obtain ⟨bytes, hlive, -⟩ := hroom
  rw [hlive]
  exact Block.noConfusion

/-- A store does not change how much room there is. -/
theorem Room.set {c : Nat} (hroom : h.Room n c) (hlen : bytes.length = n) :
    (h.set b (.live bytes)).Room n c := by
  by_cases hc : c = b
  · exact ⟨bytes, hc ▸ set_self, hlen⟩
  · exact hroom.congr (set_of_ne hc)

theorem malloc_eq_some (hm : h.malloc b bytes = some h') :
    h.block b = .unused ∧ h' = h.set b (.live bytes) := by
  rw [malloc] at hm
  split_ifs at hm with hb
  cases hm
  exact ⟨hb, rfl⟩

theorem free_eq_some (hroom : h.Room n b) : h.free b = some (h.set b .freed) := by
  obtain ⟨bytes, hlive, -⟩ := hroom
  simp only [free, hlive]

/-- A string is stored where there is room for it. -/
theorem put_eq_some (hroom : h.Room n b) (hs : s.length < n) (h0 : 0 ∉ s) :
    ∃ bytes, h.put b s = some (h.set b (.live bytes)) ∧ bytes.length = n ∧ cstring bytes = s := by
  obtain ⟨bytes, hlive, rfl⟩ := hroom
  refine ⟨s ++ 0 :: bytes.drop (s.length + 1), ?_, ?_, cstring_append_zero h0 _⟩
  · simp only [put, hlive, if_pos hs]
  · rw [List.length_append, List.length_cons, List.length_drop]
    omega

theorem fill_eq_some (hroom : h.Room n b) (hs : s.length ≤ n) :
    ∃ bytes, h.fill b s = some (h.set b (.live bytes)) ∧ bytes.length = n := by
  obtain ⟨bytes, hlive, rfl⟩ := hroom
  refine ⟨s ++ bytes.drop s.length, ?_, ?_⟩
  · simp only [fill, hlive, if_pos hs]
  · rw [List.length_append, List.length_drop]
    omega

end

end Heap

end Tlpi.Lib

import Tlpi.SeekIo.Model

/-!
# The hexadecimal dump

A command `R` prints the bytes it has read without separators, so its output can be read back
only if every byte takes two digits.  A byte from 0x80 on is a negative `char` and takes eight.

* `showByte_of_lt`, `length_showByte_of_ge`: the digits of one byte.
* `decodeHex_flatMap`: two digits for each byte can be read back.
* `dump_faithful_iff`: a dump can be read back exactly if all bytes are below 0x80.
-/

namespace Tlpi.SeekIo

open Tlpi.Lib GetNum

/-- Digits taken pairwise. -/
def decodeHex : Bytes → Option Bytes
  | [] => some []
  | [_] => none
  | a :: b :: t =>
      if isDigitIn 16 a ∧ isDigitIn 16 b then
        (decodeHex t).map (UInt8.ofNat (16 * digitVal a + digitVal b) :: ·)
      else none

/-- The line that the command `arg` prints after it has read `bytes`: the digits of the bytes,
two for each, which can be read back.  If there was nothing to read, the line says so. -/
def Faithful (arg bytes line : Bytes) : Prop :=
  if bytes = [] then line = arg ++ ascii ": end-of-file\n"
  else ∃ digits, line = arg ++ ascii ": " ++ digits ++ ascii "\n" ∧
    digits.length = 2 * bytes.length ∧ decodeHex digits = some bytes

/-- The two digits of a byte. -/
def pair (c : UInt8) : Bytes := [hexDigit (c.toNat / 16), hexDigit (c.toNat % 16)]

section Byte

variable {c : UInt8}

theorem hex02_fin : ∀ n : Fin 256, hex02 (unsignedInt (UInt8.ofNat n)) =
    (if n.val < 128 then [] else [102, 102, 102, 102, 102, 102]) ++ pair (UInt8.ofNat n) := by
  decide +kernel

/-- The digits of a byte, after six `f` if it is a negative `char`. -/
theorem hex02_unsignedInt (c : UInt8) : hex02 (unsignedInt c) =
    (if c.toNat < 128 then [] else [102, 102, 102, 102, 102, 102]) ++ pair c := by
  have h := hex02_fin ⟨c.toNat, c.toNat_lt⟩
  rwa [UInt8.ofNat_toNat] at h

theorem showByte_of_lt (h : c.toNat < 128) : showByte 82 c = pair c := by
  show hex02 (unsignedInt c) = pair c
  rw [hex02_unsignedInt, if_pos h, List.nil_append]

theorem length_showByte_of_ge (h : ¬ c.toNat < 128) : (showByte 82 c).length = 8 := by
  show (hex02 (unsignedInt c)).length = 8
  rw [hex02_unsignedInt, if_neg h]
  rfl

theorem digitVal_hexDigit_fin : ∀ d : Fin 16, digitVal (hexDigit d) = d := by decide

theorem digitVal_hexDigit {d : Nat} (h : d < 16) : digitVal (hexDigit d) = d :=
  digitVal_hexDigit_fin ⟨d, h⟩

theorem decodeHex_pair (c : UInt8) (t : Bytes) :
    decodeHex (pair c ++ t) = (decodeHex t).map (c :: ·) := by
  have hhigh : digitVal (hexDigit (c.toNat / 16)) = c.toNat / 16 :=
    digitVal_hexDigit (by have := c.toNat_lt; omega)
  have hlow : digitVal (hexDigit (c.toNat % 16)) = c.toNat % 16 :=
    digitVal_hexDigit (Nat.mod_lt _ (by decide))
  have hbyte : UInt8.ofNat (16 * (c.toNat / 16) + c.toNat % 16) = c := by
    rw [Nat.div_add_mod, UInt8.ofNat_toNat]
  have hdigits : isDigitIn 16 (hexDigit (c.toNat / 16)) = true ∧
      isDigitIn 16 (hexDigit (c.toNat % 16)) = true := by
    rw [isDigitIn, isDigitIn, hhigh, hlow, decide_eq_true_iff, decide_eq_true_iff]
    have := c.toNat_lt
    omega
  show decodeHex (_ :: _ :: t) = _
  rw [decodeHex, if_pos hdigits, hhigh, hlow, hbyte]

end Byte

section Bytes

variable {bytes : Bytes}

/-- What has two digits for each byte can be read back. -/
theorem decodeHex_flatMap (bytes : Bytes) : decodeHex (bytes.flatMap pair) = some bytes := by
  induction bytes with
  | nil => rfl
  | cons c bytes ih =>
    rw [List.flatMap_cons, decodeHex_pair, ih]
    rfl

theorem flatMap_showByte (h : ∀ c ∈ bytes, c.toNat < 128) :
    bytes.flatMap (showByte 82) = bytes.flatMap pair := by
  induction bytes with
  | nil => rfl
  | cons c bytes ih =>
    rw [List.flatMap_cons, List.flatMap_cons, showByte_of_lt (h c List.mem_cons_self),
      ih fun d hd => h d (List.mem_cons_of_mem c hd)]

theorem length_flatMap_pair (bytes : Bytes) : (bytes.flatMap pair).length = 2 * bytes.length := by
  induction bytes with
  | nil => rfl
  | cons c bytes ih =>
    rw [List.flatMap_cons, List.length_append, ih, List.length_cons]
    show 2 + _ = _
    omega

theorem length_flatMap_showByte (bytes : Bytes) :
    2 * bytes.length ≤ (bytes.flatMap (showByte 82)).length ∧
      ((bytes.flatMap (showByte 82)).length = 2 * bytes.length → ∀ c ∈ bytes, c.toNat < 128) := by
  induction bytes with
  | nil => exact ⟨Nat.le_refl 0, nofun⟩
  | cons c bytes ih =>
    obtain ⟨hle, hall⟩ := ih
    rw [List.flatMap_cons, List.length_append, List.length_cons]
    by_cases hc : c.toNat < 128
    · have htwo : (showByte 82 c).length = 2 := by rw [showByte_of_lt hc]; rfl
      refine ⟨by omega, fun h d hd => ?_⟩
      rcases List.mem_cons.mp hd with rfl | hd
      · exact hc
      · exact hall (by omega) d hd
    · have height := length_showByte_of_ge hc
      exact ⟨by omega, fun h => by omega⟩

/-- The digits of the bytes can be read back exactly if all bytes are below 0x80. -/
theorem faithful_iff {arg : Bytes} (hne : bytes ≠ []) :
    Faithful arg bytes (arg ++ ascii ": " ++ bytes.flatMap (showByte 82) ++ ascii "\n") ↔
      ∀ c ∈ bytes, c.toNat < 128 := by
  rw [Faithful, if_neg hne]
  constructor
  · rintro ⟨digits, hline, hlen, -⟩
    have hdigits : bytes.flatMap (showByte 82) = digits :=
      List.append_cancel_left (List.append_cancel_right hline)
    rw [← hdigits] at hlen
    exact (length_flatMap_showByte bytes).2 hlen
  · intro hall
    rw [flatMap_showByte hall]
    exact ⟨bytes.flatMap pair, rfl, length_flatMap_pair bytes, decodeHex_flatMap bytes⟩

end Bytes

/-! ### The command -/

/-- What a command that leads from `st` to `st'` has read. -/
def State.consumed (st st' : State) : Bytes := (st.file.drop st.off).take (st'.off - st.off)

/-- What it has printed. -/
def State.printed (st st' : State) : Bytes := st'.out.drop st.out.length

section Command

variable {ans : Answers} {st st' : State} {text : Bytes}

theorem consumed_bytesRead (st : State) (len k : Nat) (out : Bytes) :
    st.consumed { st with off := st.off + (bytesRead st len k).length, out := out } =
      bytesRead st len k := by
  have hprefix : bytesRead st len k <+: st.file.drop st.off := List.take_prefix ..
  show (st.file.drop st.off).take (st.off + (bytesRead st len k).length - st.off) = _
  rw [Nat.add_sub_cancel_left]
  exact (List.prefix_iff_eq_take.mp hprefix).symm

/-- A command `R` that succeeds. -/
theorem command_R_eq_ok (h : command ans st (82 :: text) = .ok st') :
    st'.file = st.file ∧ st.printed st' =
      if st.consumed st' = [] then 82 :: text ++ ascii ": end-of-file\n"
      else 82 :: text ++ ascii ": " ++ (st.consumed st').flatMap (showByte 82) ++ ascii "\n" := by
  have hread : readCommand ans st 82 text = .ok st' := h
  simp only [readCommand] at hread
  split at hread
  · cases hread
  · next v hv =>
    split_ifs at hread
    split at hread
    · cases hread
    · next k hk =>
      split_ifs at hread with hnil
      · obtain rfl := Except.ok.inj hread
        have hnone : st.consumed { st with out := st.out ++ (82 :: text ++ ascii ": end-of-file\n") }
            = [] := by
          simp [State.consumed]
        exact ⟨rfl, by rw [hnone, if_pos rfl, State.printed, List.drop_left]⟩
      · obtain rfl := Except.ok.inj hread
        refine ⟨rfl, ?_⟩
        rw [consumed_bytesRead, if_neg hnil, State.printed, List.drop_left]

end Command

/-- **When a dump is faithful.**  A command `R<length>` prints two hexadecimal digits for each
byte that it reads, and the bytes can be read back from them, exactly if all these bytes are
below 0x80. -/
theorem dump_faithful_iff {ans : Answers} {st st' : State} {text : Bytes}
    (h : command ans st (82 :: text) = .ok st') :
    Faithful (82 :: text) (st.consumed st') (st.printed st') ↔
      ∀ c ∈ st.consumed st', c.toNat < 128 := by
  obtain ⟨-, hprinted⟩ := command_R_eq_ok h
  by_cases hnil : st.consumed st' = []
  · rw [hprinted, Faithful, if_pos hnil, if_pos hnil, hnil]
    exact ⟨fun _ => nofun, fun _ => rfl⟩
  · rw [hprinted, if_neg hnil]
    exact faithful_iff hnil

/-- `R2` of a file that contains `a` and a line break prints `610a`. -/
theorem dump_faithful_ascii :
    command ⟨true, some 2, none, true⟩ ⟨[97, 10], 0, []⟩ [82, 50] =
        .ok ⟨[97, 10], 2, ascii "R2: 610a\n"⟩ ∧
      Faithful [82, 50] [97, 10] (ascii "R2: 610a\n") := by
  have hrun : command ⟨true, some 2, none, true⟩ ⟨[97, 10], 0, []⟩ [82, 50] =
      .ok ⟨[97, 10], 2, ascii "R2: 610a\n"⟩ := by decide +kernel
  have hsmall : ∀ c ∈ ([97, 10] : Bytes), c.toNat < 128 := by simp
  exact ⟨hrun, (dump_faithful_iff hrun).mpr hsmall⟩

/-- `R1` of a file that contains the byte 0x80 prints `ffffff80`. -/
theorem dump_sign_extends :
    command ⟨true, some 1, none, true⟩ ⟨[128], 0, []⟩ [82, 49] =
        .ok ⟨[128], 1, ascii "R1: ffffff80\n"⟩ ∧
      ¬ ∀ (ans : Answers) (st st' : State) (text : Bytes), command ans st (82 :: text) = .ok st' →
        Faithful (82 :: text) (st.consumed st') (st.printed st') := by
  have hrun : command ⟨true, some 1, none, true⟩ ⟨[128], 0, []⟩ [82, 49] =
      .ok ⟨[128], 1, ascii "R1: ffffff80\n"⟩ := by decide +kernel
  refine ⟨hrun, fun hall => ?_⟩
  obtain ⟨digits, hline, hlen, -⟩ := hall _ _ _ _ hrun
  have hcount := congrArg List.length hline
  rw [List.length_append, List.length_append, hlen] at hcount
  revert hcount
  decide

end Tlpi.SeekIo

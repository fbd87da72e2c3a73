import Mathlib.Algebra.Ring.Nat
import Tlpi.Lib.FileSys

/-!
# Integers in memory

The bytes of an integer on a little-endian machine, the least significant one first, and
back.  `encodeInt` and `decodeInt` are for the four bytes of an `int`, which is kept as a
`BitVec 32`.
-/

namespace Tlpi.Lib

/-- The `k` low bytes of `n`. -/
def leBytes : Nat → Nat → Bytes
  | 0, _ => []
  | k + 1, n => UInt8.ofNat (n % 256) :: leBytes k (n / 256)

/-- The number that bytes stand for. -/
def ofLeBytes : Bytes → Nat
  | [] => 0
  | b :: bs => b.toNat + 256 * ofLeBytes bs

@[simp] theorem length_leBytes (k n : Nat) : (leBytes k n).length = k := by
  induction k generalizing n with
  | zero => rfl
  | succ k ih => rw [leBytes, List.length_cons, ih]

theorem ofLeBytes_leBytes (k n : Nat) : ofLeBytes (leBytes k n) = n % 256 ^ k := by
  induction k generalizing n with
  | zero => rw [leBytes, ofLeBytes, Nat.pow_zero, Nat.mod_one]
  | succ k ih =>
    have hbyte : (UInt8.ofNat (n % 256)).toNat = n % 256 := by
      rw [UInt8.toNat_ofNat']
      exact Nat.mod_mod ..
    rw [leBytes, ofLeBytes, ih, hbyte, Nat.pow_succ, Nat.mul_comm (256 ^ k) 256, Nat.mod_mul]

/-- The bytes of an `int`. -/
def encodeInt (x : BitVec 32) : Bytes := leBytes 4 x.toNat

/-- The `int` that four bytes hold. -/
def decodeInt (b : Bytes) : BitVec 32 := BitVec.ofNat 32 (ofLeBytes b)

@[simp] theorem length_encodeInt (x : BitVec 32) : (encodeInt x).length = 4 := length_leBytes 4 _

@[simp] theorem decodeInt_encodeInt (x : BitVec 32) : decodeInt (encodeInt x) = x := by
  have hlt : x.toNat < 256 ^ 4 := x.isLt
  rw [decodeInt, encodeInt, ofLeBytes_leBytes, Nat.mod_eq_of_lt hlt]
  exact BitVec.ofNat_toNat ..

end Tlpi.Lib

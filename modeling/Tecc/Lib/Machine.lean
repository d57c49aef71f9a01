import Mathlib.Data.Int.Basic

/-! Integer conversions of an LP64 machine: every C sum below is computed on unbounded
integers and then converted to the width of its C type. -/
namespace Machine

/-- Conversion to a 64-bit unsigned integer: the value modulo 2^64. -/
def toSize (x : Int) : Nat := (x % 18446744073709551616).toNat

/-- Conversion to a 64-bit signed integer, two's complement. -/
def toLong (x : Int) : Int := (x + 9223372036854775808) % 18446744073709551616 - 9223372036854775808

/-- Conversion to a 32-bit signed integer, two's complement. -/
def toInt (x : Int) : Int := (x + 2147483648) % 4294967296 - 2147483648

/-- Conversion to an 8-bit signed integer, two's complement. -/
def toChar (x : Int) : Int := (x + 128) % 256 - 128

theorem toSize_lt (x : Int) : toSize x < 18446744073709551616 := by
  unfold toSize
  omega

theorem toSize_of_lt {n : Nat} (h : n < 18446744073709551616) : toSize n = n := by
  unfold toSize
  omega

theorem toLong_of_bounds {x : Int} (h : -9223372036854775808 ≤ x)
    (k : x < 9223372036854775808) : toLong x = x := by
  unfold toLong
  omega

theorem toLong_bounds (x : Int) :
    -9223372036854775808 ≤ toLong x ∧ toLong x < 9223372036854775808 := by
  unfold toLong
  omega

theorem toInt_of_lt {n : Nat} (h : n < 2147483648) : toInt n = n := by
  unfold toInt
  omega

theorem toChar_of_lt {n : Nat} (h : n < 128) : toChar n = n := by
  unfold toChar
  omega

theorem toChar_neg {n : Nat} (h : 128 ≤ n) (k : n < 256) : toChar n = n - 256 := by
  unfold toChar
  omega

end Machine

import Mathlib.Algebra.Group.Int.Defs
import Mathlib.Algebra.Group.Nat.Defs

/- Machine integers as numbers: `size_t` arithmetic modulo 2^64, the conversions
   from `size_t` to `int` and to `ssize_t`, and the bounds under which each is
   the identity. -/
namespace MBroker.Lib

/-- Sum of two `size_t`. -/
def szAdd (a b : Nat) : Nat := (a + b) % 2 ^ 64

/-- Difference of two `size_t`. -/
def szSub (a b : Nat) : Nat := (a + (2 ^ 64 - b)) % 2 ^ 64

/-- Product of two `size_t`. -/
def szMul (a b : Nat) : Nat := a * b % 2 ^ 64

/-- The conversion `(int)n` of a `size_t`. -/
def toInt (n : Nat) : Int :=
  if n % 2 ^ 32 < 2 ^ 31 then (n % 2 ^ 32 : Nat) else (n % 2 ^ 32 : Nat) - 2 ^ 32

/-- The conversion `(ssize_t)n` of a `size_t`. -/
def toSsize (n : Nat) : Int :=
  if n % 2 ^ 64 < 2 ^ 63 then (n % 2 ^ 64 : Nat) else (n % 2 ^ 64 : Nat) - 2 ^ 64

theorem szAdd_eq {a b : Nat} (h : a + b < 2 ^ 64) : szAdd a b = a + b := Nat.mod_eq_of_lt h

theorem szSub_eq {a b : Nat} (h : b ≤ a) (ha : a < 2 ^ 64) : szSub a b = a - b := by
  unfold szSub
  omega

/-- A difference that wraps. -/
theorem szSub_wrap {a b : Nat} (h : a < b) (hb : b < 2 ^ 64) : szSub a b = a + 2 ^ 64 - b := by
  unfold szSub
  omega

theorem szMul_eq {a b : Nat} (h : a * b < 2 ^ 64) : szMul a b = a * b := Nat.mod_eq_of_lt h

theorem toInt_eq {n : Nat} (h : n < 2 ^ 31) : toInt n = n := by
  unfold toInt
  split <;> omega

theorem toSsize_eq {n : Nat} (h : n < 2 ^ 63) : toSsize n = n := by
  unfold toSsize
  split <;> omega

end MBroker.Lib

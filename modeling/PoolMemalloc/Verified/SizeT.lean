import Mathlib.Algebra.Group.Nat.Defs

/-!
# `size_t` and address arithmetic

Sizes, counts and addresses are natural numbers below `2 ^ 64`; every sum or
product the code forms in a `size_t` is written with an explicit `wrap`, so
that the places where the arithmetic can lose information stay visible.

Subtracting two addresses goes through `wrapSub`, the two's complement
difference.  `wrapSub_wrapAdd` is the one fact the pointer conversions need:
an offset survives being added to a base and subtracted again.
-/

namespace PoolMemalloc.Verified.SizeT

/-- Value kept by a `size_t`: reduction modulo `2 ^ 64`. -/
def wrap (n : Nat) : Nat := n % 2 ^ 64

/-- Difference of two `size_t` values. -/
def wrapSub (a b : Nat) : Nat := wrap (a + (2 ^ 64 - b))

/-- `SIZE_MAX`. -/
def sizeMax : Nat := 2 ^ 64 - 1

theorem wrap_lt (n : Nat) : wrap n < 2 ^ 64 :=
  Nat.mod_lt _ (by decide)

theorem wrap_of_lt {n : Nat} (h : n < 2 ^ 64) : wrap n = n :=
  Nat.mod_eq_of_lt h

theorem wrap_le (n : Nat) : wrap n ≤ n := Nat.mod_le _ _

/-- An offset added to a base is recovered by subtracting the base, whether or
not the sum wraps. -/
theorem wrapSub_wrapAdd {base offset : Nat} (hbase : base < 2 ^ 64)
    (hoffset : offset < 2 ^ 64) : wrapSub (wrap (base + offset)) base = offset := by
  unfold wrapSub wrap
  omega

/-- Without wrapping the difference is the exact one. -/
theorem wrapSub_of_le {a b : Nat} (ha : a < 2 ^ 64) (h : b ≤ a) :
    wrapSub a b = a - b := by
  unfold wrapSub wrap
  omega

end PoolMemalloc.Verified.SizeT

import Mathlib.Data.List.Basic
import Mathlib.Data.List.TakeWhile

/-!
# Strings that end at a NUL

The string that C finds in an array of chars, and what of the array it depends on.
-/
namespace Library

/-- A C string ends at the first NUL. -/
def cString (xs : List UInt8) : List UInt8 := xs.takeWhile (· ≠ 0)

/-- What comes behind a NUL is not part of the string. -/
theorem cString_append_nul (xs ys : List UInt8) : cString (xs ++ 0 :: ys) = cString xs := by
  induction xs with
  | nil => rfl
  | cons x xs ih =>
    by_cases hx : x = 0
    · subst hx
      rfl
    · have hcons : ∀ zs, cString (x :: zs) = x :: cString zs :=
        fun zs => List.takeWhile_cons_of_pos (decide_eq_true hx)
      rw [List.cons_append, hcons, hcons, ih]

theorem cString_eq_self {xs : List UInt8} (h : 0 ∉ xs) : cString xs = xs := by
  refine List.takeWhile_eq_self_iff.mpr ?_
  intro x hx
  refine decide_eq_true ?_
  rintro rfl
  exact h hx

end Library

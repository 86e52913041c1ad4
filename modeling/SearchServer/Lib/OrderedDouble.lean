import SearchServer.Lib.Double

/-!
# Floating-point numbers in order

What conversions, sums and comparisons of `double`s keep in spite of rounding: a sum does not become
smaller when a summand becomes larger, and a sum with zero is the other summand (`OrderedOps`). NaN
is left out, and the two zeros are one. The reals are an instance, with exact arithmetic.
-/

namespace SearchServer

/-- `<` is a linear order, and additions keep it. -/
class OrderedOps (F : Type*) [DoubleOps F] extends LinearOrder F where
  lt_iff : ∀ a b : F, DoubleOps.lt a b = true ↔ a < b
  ofInt_le : ∀ {m n : ℤ}, m ≤ n → (DoubleOps.ofInt m : F) ≤ DoubleOps.ofInt n
  add_le_add : ∀ {a b c d : F}, a ≤ b → c ≤ d → DoubleOps.add a c ≤ DoubleOps.add b d
  zero_add : ∀ a : F, DoubleOps.add (DoubleOps.ofInt 0) a = a
  add_zero : ∀ a : F, DoubleOps.add a (DoubleOps.ofInt 0) = a

namespace OrderedOps

variable {F : Type*} [DoubleOps F] [OrderedOps F]

theorem add_le_left {a b : F} (h : a ≤ b) (c : F) : DoubleOps.add a c ≤ DoubleOps.add b c :=
  add_le_add h le_rfl

/-- A summand that is not positive does not make a sum larger. -/
theorem add_le_of_nonpos {c : F} (hc : c ≤ DoubleOps.ofInt 0) (a : F) : DoubleOps.add a c ≤ a :=
  (add_le_add le_rfl hc).trans_eq (add_zero a)

end OrderedOps

/-! ## Exact arithmetic -/

noncomputable section

open Classical in
instance : DoubleOps ℝ where
  ofInt n := n
  add := (· + ·)
  mul := (· * ·)
  div := (· / ·)
  sqrt := Real.sqrt
  log := Real.log
  lt a b := decide (a < b)

instance : OrderedOps ℝ where
  lt_iff _ _ := decide_eq_true_iff
  ofInt_le h := Int.cast_le.mpr h
  add_le_add {a b c d} hab hcd := by
    show a + c ≤ b + d
    linarith
  zero_add a := by
    show ((0 : ℤ) : ℝ) + a = a
    simp
  add_zero a := by
    show a + ((0 : ℤ) : ℝ) = a
    simp

end

end SearchServer

import SearchServer.Lib.Text

/-!
# Floating-point numbers

The code is generic in its floating-point type: `DoubleOps` has the operations on `double` that it
uses. `Dbl` is the exact reading of IEEE 754, a real number or one of the special values, without
rounding.

**Theorem (`isUnit_normalised_iff`).** A vector of reals that is divided by its norm becomes a unit
vector exactly when the norm is not 0.
-/

namespace SearchServer

/-- The operations on `double` that the program uses. -/
class DoubleOps (F : Type*) where
  ofInt : ℤ → F
  add : F → F → F
  mul : F → F → F
  div : F → F → F
  sqrt : F → F
  log : F → F
  lt : F → F → Bool

/-- A `double` without rounding: not a number, an infinity, or a real. -/
inductive Dbl where
  | nan
  | inf (neg : Bool)
  | fin (x : ℝ)

namespace Dbl

noncomputable section

open Classical in
/-- Negative, zero or positive. -/
def sign : Dbl → SignType
  | nan => 0
  | inf neg => if neg then -1 else 1
  | fin x => SignType.sign x

def ofSign (s : SignType) : Dbl :=
  match s with
  | 0 => nan
  | -1 => inf true
  | 1 => inf false

def add : Dbl → Dbl → Dbl
  | nan, _ | _, nan => nan
  | inf a, inf b => if a = b then inf a else nan
  | inf a, fin _ => inf a
  | fin _, inf b => inf b
  | fin x, fin y => fin (x + y)

def mul : Dbl → Dbl → Dbl
  | fin x, fin y => fin (x * y)
  | nan, _ | _, nan => nan
  | a, b => ofSign (a.sign * b.sign)

open Classical in
/-- Division. `0 / 0` is not a number. -/
def div : Dbl → Dbl → Dbl
  | nan, _ | _, nan => nan
  | inf _, inf _ => nan
  | fin _, inf _ => fin 0
  | inf a, fin y => ofSign ((inf a).sign * if y < 0 then -1 else 1)
  | fin x, fin y => if y = 0 then ofSign (SignType.sign x) else fin (x / y)

open Classical in
def sqrt : Dbl → Dbl
  | nan => nan
  | inf neg => if neg then nan else inf false
  | fin x => if x < 0 then nan else fin (Real.sqrt x)

open Classical in
def log : Dbl → Dbl
  | nan => nan
  | inf neg => if neg then nan else inf false
  | fin x => if x < 0 then nan else if x = 0 then inf true else fin (Real.log x)

open Classical in
def lt : Dbl → Dbl → Bool
  | nan, _ | _, nan => false
  | inf a, inf b => a && !b
  | inf a, fin _ => a
  | fin _, inf b => !b
  | fin x, fin y => decide (x < y)

instance : DoubleOps Dbl where
  ofInt n := fin n
  add := add
  mul := mul
  div := div
  sqrt := sqrt
  log := log
  lt := lt

/-! ## Operations on reals -/

theorem div_fin (x y : ℝ) :
    div (fin x) (fin y) = if y = 0 then ofSign (SignType.sign x) else fin (x / y) := rfl

theorem log_of_pos {x : ℝ} (hx : 0 < x) : log (fin x) = fin (Real.log x) := by
  show (if x < 0 then nan else if x = 0 then inf true else fin (Real.log x)) = _
  rw [if_neg (not_lt.mpr hx.le), if_neg hx.ne']

theorem sqrt_of_nonneg {x : ℝ} (hx : 0 ≤ x) : sqrt (fin x) = fin (Real.sqrt x) := by
  show (if x < 0 then nan else fin (Real.sqrt x)) = _
  rw [if_neg (not_lt.mpr hx)]

theorem ofSign_ne_fin (s : SignType) (x : ℝ) : ofSign s ≠ fin x := by
  cases s <;> exact Dbl.noConfusion

/-- Only a real divided by something can be a real. -/
theorem exists_of_div_eq_fin {y s : Dbl} {x : ℝ} (h : div y s = fin x) : ∃ z, y = fin z := by
  cases y with
  | fin z => exact ⟨z, rfl⟩
  | nan => cases h
  | inf neg =>
    cases s with
    | fin z => exact absurd h (ofSign_ne_fin _ x)
    | nan => cases h
    | inf neg' => cases h

/-- Division by 0 gives no real. -/
theorem div_zero_ne_fin (y : Dbl) (x : ℝ) : div y (fin 0) ≠ fin x := by
  intro h
  obtain ⟨z, rfl⟩ := exists_of_div_eq_fin h
  rw [div_fin, if_pos rfl] at h
  exact ofSign_ne_fin _ x h

/-! ## Vectors -/

/-- The loop that adds up the squares. -/
theorem foldl_squares (xs : List ℝ) (a : ℝ) :
    (xs.map fin).foldl (fun s w => add s (mul w w)) (fin a) = fin (a + (xs.map (· ^ 2)).sum) := by
  induction xs generalizing a with
  | nil => simp
  | cons x xs ih =>
    have hstep : add (fin a) (mul (fin x) (fin x)) = fin (a + x ^ 2) := by
      rw [pow_two]
      rfl
    rw [List.map_cons, List.foldl_cons, hstep, ih, List.map_cons, List.sum_cons, add_assoc]

/-- The norm of a vector. -/
def norm (xs : List ℝ) : ℝ := Real.sqrt (xs.map (· ^ 2)).sum

theorem sum_squares_nonneg (xs : List ℝ) : 0 ≤ (xs.map (· ^ 2)).sum := by
  refine List.sum_nonneg fun y hy => ?_
  obtain ⟨x, -, rfl⟩ := List.mem_map.mp hy
  exact sq_nonneg x

theorem sqrt_foldl_squares (xs : List ℝ) :
    sqrt ((xs.map fin).foldl (fun s w => add s (mul w w)) (fin 0)) = fin (norm xs) := by
  rw [foldl_squares, zero_add, sqrt_of_nonneg (sum_squares_nonneg xs), norm]

/-- The norm is 0 when all entries are. -/
theorem norm_eq_zero_iff {xs : List ℝ} : norm xs = 0 ↔ ∀ x ∈ xs, x = 0 := by
  rw [norm, Real.sqrt_eq_zero (sum_squares_nonneg xs)]
  induction xs with
  | nil => simp
  | cons x xs ih =>
    rw [List.map_cons, List.sum_cons, add_eq_zero_iff_of_nonneg (sq_nonneg x) (sum_squares_nonneg xs),
      sq_eq_zero_iff, ih, List.forall_mem_cons]

/-- The entries are reals whose squares sum to 1. -/
def IsUnit (v : List Dbl) : Prop := ∃ xs : List ℝ, v = xs.map fin ∧ (xs.map (· ^ 2)).sum = 1

theorem IsUnit.exists_fin {v : List Dbl} (h : IsUnit v) {y : Dbl} (hy : y ∈ v) :
    ∃ x, y = fin x := by
  obtain ⟨xs, rfl, -⟩ := h
  obtain ⟨x, -, rfl⟩ := List.mem_map.mp hy
  exact ⟨x, rfl⟩

theorem not_isUnit_nil : ¬ IsUnit [] := by
  rintro ⟨xs, hxs, hsum⟩
  obtain rfl := List.map_eq_nil_iff.mp hxs.symm
  simp at hsum

theorem sum_squares_div (xs : List ℝ) (r : ℝ) :
    ((xs.map (· / r)).map (· ^ 2)).sum = (xs.map (· ^ 2)).sum / r ^ 2 := by
  induction xs with
  | nil => simp
  | cons x xs ih => simp only [List.map_cons, List.sum_cons, ih, div_pow, add_div]

/-- **Normalisation.** -/
theorem isUnit_normalised_iff (xs : List ℝ) :
    IsUnit (xs.map fun x => div (fin x) (fin (norm xs))) ↔ norm xs ≠ 0 := by
  constructor
  · intro hunit hzero
    cases xs with
    | nil => exact not_isUnit_nil hunit
    | cons x xs =>
      obtain ⟨y, hy⟩ := hunit.exists_fin (List.mem_map.mpr ⟨x, List.mem_cons_self, rfl⟩)
      rw [hzero] at hy
      exact div_zero_ne_fin _ _ hy
  · intro hne
    refine ⟨xs.map (· / norm xs), ?_, ?_⟩
    · rw [List.map_map]
      refine List.map_congr_left fun x _ => ?_
      rw [div_fin, if_neg hne]
      rfl
    · have hsum : (xs.map (· ^ 2)).sum = norm xs ^ 2 :=
        (Real.sq_sqrt (sum_squares_nonneg xs)).symm
      rw [sum_squares_div, hsum, div_self (pow_ne_zero 2 hne)]

end

end Dbl

end SearchServer

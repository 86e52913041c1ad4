import SearchServer.Lib.Decimal
import SearchServer.Lib.NumberFormat

/-!
# Printing floating-point numbers

`%.pg` of `printf`: a finite number is rounded to `p` significant digits, and printed in the fixed
notation or with an exponent, without zeros at the end. With six digits this is what `<<` does on
`ostream` (`formatG_eq_formatGeneral`).

**Theorem (`FloatValue.length_format_le`).** A value of a format whose numbers are less than
10^999 in size, and more than its inverse, takes at most `p + 7` bytes: a sign, a point, `p` digits
and an exponent of five bytes.
-/

namespace SearchServer

/-- A binary format: the bits of the significand, and the range for the exponent of its last bit. -/
structure FloatFormat where
  precision : ℕ
  emin : ℤ
  emax : ℤ

def binary32 : FloatFormat := ⟨24, -149, 104⟩
def binary64 : FloatFormat := ⟨53, -1074, 971⟩

/-- The format `g` has all the values of `f`. -/
structure FloatFormat.Extends (f g : FloatFormat) : Prop where
  precision : f.precision ≤ g.precision
  emin : g.emin ≤ f.emin
  emax : f.emax ≤ g.emax

theorem binary32_extends : binary32.Extends binary64 := ⟨by decide, by decide, by decide⟩

/-- A value of a format. The finite ones are `m * 2 ^ e` with a sign. -/
inductive FloatValue (f : FloatFormat) where
  | nan (neg : Bool)
  | inf (neg : Bool)
  | finite (neg : Bool) (m : ℕ) (e : ℤ) (hm : m < 2 ^ f.precision)
      (he : f.emin ≤ e ∧ e ≤ f.emax)

/-- Rounding to the nearest integer, to the even one of two. -/
def roundEven (y : ℚ) : ℤ :=
  if y - ⌊y⌋ < 1 / 2 then ⌊y⌋
  else if 1 / 2 < y - ⌊y⌋ then ⌊y⌋ + 1
  else if ⌊y⌋ % 2 = 0 then ⌊y⌋ else ⌊y⌋ + 1

/-- The `p` significant digits of a positive number, and its exponent. -/
def significantDigits (p : ℕ) (y : ℚ) : ℕ × ℤ :=
  let e := Int.log 10 y
  let n := (roundEven (y / 10 ^ (e - (p - 1)))).toNat
  if n = 10 ^ p then (10 ^ (p - 1), e + 1) else (n, e)

/-- `%.pg` for the number `n * 10 ^ (e - (p - 1))`, where `n` has `p` digits. -/
def formatGeneral (p : ℕ) (neg : Bool) (n : ℕ) (e : ℤ) : Decimal :=
  let ds := digits n
  if e < -4 ∨ p ≤ e then ⟨neg, ds.take 1, stripZeros (ds.drop 1), some e⟩
  else if e < 0 then ⟨neg, [48], stripZeros (List.replicate (-e - 1).toNat 48 ++ ds), none⟩
  else ⟨neg, ds.take (e + 1).toNat, stripZeros (ds.drop (e + 1).toNat), none⟩

theorem formatG_eq_formatGeneral : formatG = formatGeneral 6 := rfl

namespace FloatValue

variable {f g : FloatFormat}

/-- The conversion to a format that has the value. -/
def widen (h : f.Extends g) : FloatValue f → FloatValue g
  | nan neg => nan neg
  | inf neg => inf neg
  | finite neg m e hm he =>
    finite neg m e (lt_of_lt_of_le hm (Nat.pow_le_pow_right Nat.two_pos h.precision))
      ⟨h.emin.trans he.1, he.2.trans h.emax⟩

/-- `printf("%.pg", v)`. -/
def format (p : ℕ) : FloatValue f → Bytes
  | nan neg => Decimal.minus neg ++ lit "nan"
  | inf neg => Decimal.minus neg ++ lit "inf"
  | finite neg m e _ _ =>
    if m = 0 then Decimal.minus neg ++ lit "0"
    else
      let y : ℚ := m * 2 ^ e
      (formatGeneral p neg (significantDigits p y).1 (significantDigits p y).2).render

end FloatValue

/-! ## The digits -/

theorem roundEven_le {y : ℚ} {k : ℤ} (h : y < k) : roundEven y ≤ k := by
  have hfloor : ⌊y⌋ < k := Int.floor_lt.mpr h
  unfold roundEven
  split_ifs <;> omega

theorem significantDigits_lt {p : ℕ} (hp : 0 < p) (y : ℚ) : (significantDigits p y).1 < 10 ^ p := by
  have hlt : y / 10 ^ (Int.log 10 y - (p - 1)) < ((10 ^ p : ℕ) : ℤ) := by
    have hlog : y < 10 ^ (Int.log 10 y + 1) := Int.lt_zpow_succ_log_self (by norm_num) y
    have hpos : (0 : ℚ) < 10 ^ (Int.log 10 y - (p - 1)) := by positivity
    rw [div_lt_iff₀ hpos]
    calc y < 10 ^ (Int.log 10 y + 1) := hlog
      _ = (10 : ℚ) ^ (p : ℤ) * 10 ^ (Int.log 10 y - (p - 1)) := by
        rw [← zpow_add₀ (by norm_num)]
        congr 1
        ring
      _ = (((10 ^ p : ℕ) : ℤ) : ℚ) * 10 ^ (Int.log 10 y - (p - 1)) := by
        rw [zpow_natCast]
        push_cast
        rfl
  have hround : (roundEven (y / 10 ^ (Int.log 10 y - (p - 1)))).toNat ≤ 10 ^ p :=
    Int.toNat_le.mpr (roundEven_le hlt)
  have hpow : 10 ^ (p - 1) < 10 ^ p := Nat.pow_lt_pow_right (by norm_num) (by omega)
  simp only [significantDigits]
  split_ifs with h
  · exact hpow
  · exact lt_of_le_of_ne hround h

/-- A number in the range has an exponent of at most three digits. -/
theorem natAbs_significantDigits_lt {p : ℕ} {y : ℚ} (hlo : (10 : ℚ) ^ (-999 : ℤ) ≤ y)
    (hhi : y < 10 ^ (999 : ℤ)) : (significantDigits p y).2.natAbs < 10 ^ 3 := by
  have hpos : 0 < y := lt_of_lt_of_le (by positivity) hlo
  have hle : -999 ≤ Int.log 10 y := (Int.zpow_le_iff_le_log (by norm_num) hpos).mp hlo
  have hlt : Int.log 10 y < 999 := (Int.lt_zpow_iff_log_lt (by norm_num) hpos).mp hhi
  simp only [significantDigits]
  split_ifs
  · simp only
    omega
  · simp only
    omega

/-! ## The length -/

theorem length_minus_le (neg : Bool) : (Decimal.minus neg).length ≤ 1 := by
  cases neg <;> decide

theorem length_stripZeros_le (ds : Bytes) : (stripZeros ds).length ≤ ds.length :=
  (List.rdropWhile_prefix _ _).length_le

theorem length_renderFrac_le (frac : Bytes) :
    (Decimal.renderFrac frac).length ≤ frac.length + 1 := by
  unfold Decimal.renderFrac
  split_ifs
  · exact Nat.zero_le _
  · exact le_of_eq (List.length_cons ..)

theorem length_renderExp_le {e : ℤ} (he : e.natAbs < 10 ^ 3) :
    (Decimal.renderExp (some e)).length ≤ 5 := by
  have hlen : (Decimal.expDigits e.natAbs).length ≤ 3 := by
    unfold Decimal.expDigits
    split_ifs with h
    · rw [digits_of_lt h, List.length_append, List.length_singleton, List.length_singleton]
      norm_num
    · exact length_digits_le (by norm_num) he
  rw [Decimal.renderExp]
  simp only [List.length_cons]
  omega

theorem Decimal.length_render (d : Decimal) : d.render.length =
    (minus d.neg).length + d.int.length + (renderFrac d.frac).length +
      (renderExp d.exp).length := by
  rw [render, List.length_append, List.length_append, List.length_append]
  omega

theorem length_formatGeneral_le {p : ℕ} (hp : 0 < p) (neg : Bool) {n : ℕ} (hn : n < 10 ^ p) {e : ℤ}
    (he : e.natAbs < 10 ^ 3) : (formatGeneral p neg n e).render.length ≤ p + 7 := by
  have hds : (digits n).length ≤ p := length_digits_le hp hn
  have hneg := length_minus_le neg
  rw [Decimal.length_render]
  unfold formatGeneral
  split_ifs with hexp hsmall
  · have hfrac := length_renderFrac_le (stripZeros ((digits n).drop 1))
    have hstrip := length_stripZeros_le ((digits n).drop 1)
    have hexpo := length_renderExp_le he
    rw [List.length_drop] at hstrip
    simp only [List.length_take]
    omega
  · have hfrac := length_renderFrac_le
      (stripZeros (List.replicate (-e - 1).toNat 48 ++ digits n))
    have hstrip := length_stripZeros_le (List.replicate (-e - 1).toNat 48 ++ digits n)
    rw [List.length_append, List.length_replicate] at hstrip
    simp only [Decimal.renderExp, List.length_singleton, List.length_nil]
    omega
  · have hfrac := length_renderFrac_le (stripZeros ((digits n).drop (e + 1).toNat))
    have hstrip := length_stripZeros_le ((digits n).drop (e + 1).toNat)
    rw [List.length_drop] at hstrip
    simp only [Decimal.renderExp, List.length_take, List.length_nil]
    omega

namespace FloatValue

variable {f : FloatFormat}

/-- The finite numbers of a format, except zero. -/
theorem magnitude_range (hmin : -2997 ≤ f.emin) (hmax : f.precision + f.emax ≤ 2997) {m : ℕ} {e : ℤ}
    (hm : m < 2 ^ f.precision) (he : f.emin ≤ e ∧ e ≤ f.emax) (h0 : m ≠ 0) :
    (10 : ℚ) ^ (-999 : ℤ) ≤ m * 2 ^ e ∧ (m : ℚ) * 2 ^ e < 10 ^ (999 : ℤ) := by
  have hpos : (0 : ℚ) < 2 ^ e := by positivity
  -- Powers of 8 are between those of 2 and those of 10.
  have height : ∀ k : ℤ, (2 : ℚ) ^ (3 * k) = 8 ^ k := fun k => by
    rw [zpow_mul]
    norm_num
  constructor
  · have hone : (1 : ℚ) ≤ m := by exact_mod_cast Nat.one_le_iff_ne_zero.mpr h0
    calc (10 : ℚ) ^ (-999 : ℤ) ≤ 8 ^ (-999 : ℤ) := by
          rw [zpow_neg, zpow_neg]
          exact inv_anti₀ (by positivity)
            (zpow_le_zpow_left₀ (by norm_num) (by norm_num) (by norm_num))
      _ = 2 ^ (3 * (-999) : ℤ) := (height _).symm
      _ ≤ 2 ^ e := zpow_le_zpow_right₀ (by norm_num) (by omega)
      _ ≤ m * 2 ^ e := le_mul_of_one_le_left hpos.le hone
  · have hlt : (m : ℚ) < 2 ^ f.precision := by exact_mod_cast hm
    calc (m : ℚ) * 2 ^ e < 2 ^ f.precision * 2 ^ e := mul_lt_mul_of_pos_right hlt hpos
      _ = 2 ^ (f.precision + e) := by rw [← zpow_natCast, ← zpow_add₀ (by norm_num)]
      _ ≤ 2 ^ (3 * 999 : ℤ) := zpow_le_zpow_right₀ (by norm_num) (by omega)
      _ = 8 ^ (999 : ℤ) := height _
      _ ≤ 10 ^ (999 : ℤ) := zpow_le_zpow_left₀ (by norm_num) (by norm_num) (by norm_num)

theorem length_format_le {p : ℕ} (hp : 0 < p) (hmin : -2997 ≤ f.emin)
    (hmax : f.precision + f.emax ≤ 2997) (v : FloatValue f) : (v.format p).length ≤ p + 7 := by
  have hword : ∀ neg word, word.length ≤ 3 →
      (Decimal.minus neg ++ word).length ≤ p + 7 := by
    intro neg word hword
    have := length_minus_le neg
    rw [List.length_append]
    omega
  cases v with
  | nan neg => exact hword neg (lit "nan") (by decide)
  | inf neg => exact hword neg (lit "inf") (by decide)
  | finite neg m e hm he =>
    rw [format]
    split_ifs with h0
    · exact hword neg (lit "0") (by decide)
    · obtain ⟨hlo, hhi⟩ := magnitude_range hmin hmax hm he h0
      exact length_formatGeneral_le hp neg (significantDigits_lt hp _)
        (natAbs_significantDigits_lt hlo hhi)

/-- The values of `double`. -/
theorem length_format_binary64 {p : ℕ} (hp : 0 < p) (v : FloatValue binary64) :
    (v.format p).length ≤ p + 7 := length_format_le hp (by decide) (by decide) v

end FloatValue

end SearchServer

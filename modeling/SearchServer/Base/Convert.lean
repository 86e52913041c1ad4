import SearchServer.Lib.Decimal

/-!
# Formatting integers

`convert` (`base/LogStream.cc`), the template with which `LogStream` writes integers. The loop takes
one digit off the value with `%` and `/`, which truncate. The remainders of a negative value are
negative: they index a table of 19 digits around its middle, so the value is never negated, and the
smallest one, which has no positive counterpart, is like the others.

**Theorem (`convert_exact`).** For each integer type and each value of it the loop ends, all the
indices are within the table, and the text is the canonical decimal representation of the value.
With its NUL it takes at most 21 bytes for types of up to 64 bits.

The loop is done with the digits of the absolute value, least significant first
(`convertLoop_eq`); the induction follows the division of the absolute value by 10.
-/

namespace SearchServer

/-- An integer type: its width and whether it is signed. -/
structure IntegerType where
  width : ℕ
  signed : Bool
deriving DecidableEq

namespace IntegerType

def int : IntegerType := ⟨32, true⟩
def unsignedInt : IntegerType := ⟨32, false⟩
def long : IntegerType := ⟨64, true⟩
def unsignedLong : IntegerType := ⟨64, false⟩
def longLong : IntegerType := ⟨64, true⟩
def unsignedLongLong : IntegerType := ⟨64, false⟩

/-- The integer that the bits stand for, in two's complement when the type is signed. -/
def toInt (t : IntegerType) (v : BitVec t.width) : ℤ := if t.signed then v.toInt else v.toNat

def ofInt (t : IntegerType) (n : ℤ) : BitVec t.width := BitVec.ofInt t.width n

end IntegerType

namespace LogStream

/-- `digits`: those of the remainders -9, …, -1, then 0, then those of 1, …, 9. -/
def digitTable : Bytes := lit "9876543210123456789"

/-- `zero[lsd]`, where `zero` points at the entry of 0; `none` outside of the table. -/
def zero (lsd : ℤ) : Option UInt8 := if 0 ≤ 9 + lsd then digitTable[(9 + lsd).toNat]? else none

/-! ## One division -/

theorem tdiv_ten (n : ℤ) : (n.tdiv 10).natAbs = n.natAbs / 10 ∧
    (0 ≤ n → 0 ≤ n.tdiv 10) ∧ (n ≤ 0 → n.tdiv 10 ≤ 0) := by
  refine ⟨Int.natAbs_tdiv n 10, fun h => Int.tdiv_nonneg h (by norm_num), fun h => ?_⟩
  have hneg : 0 ≤ (-n).tdiv 10 := Int.tdiv_nonneg (by omega) (by norm_num)
  rw [Int.neg_tdiv] at hneg
  omega

theorem tmod_ten (n : ℤ) : (n.tmod 10).natAbs = n.natAbs % 10 ∧
    0 ≤ 9 + n.tmod 10 ∧ 9 + n.tmod 10 < digitTable.length := by
  have habs : (n.tmod 10).natAbs = n.natAbs % 10 := Int.natAbs_tmod n 10
  have hlen : digitTable.length = 19 := by decide
  rw [hlen]
  omega

/-- The table has the digit of the absolute value. -/
theorem zero_tmod (n : ℤ) : zero (n.tmod 10) = some (UInt8.ofNat (48 + n.natAbs % 10)) := by
  have htable : ∀ i : Fin 19, zero (i.val - 9) =
      some (UInt8.ofNat (48 + (i.val - 9 : ℤ).natAbs)) := by decide
  obtain ⟨habs, hlo, hhi⟩ := tmod_ten n
  have hlen : digitTable.length = 19 := by decide
  rw [hlen] at hhi
  have hindex : ((9 + n.tmod 10).toNat : ℤ) - 9 = n.tmod 10 := by omega
  have h := htable ⟨(9 + n.tmod 10).toNat, by omega⟩
  rw [hindex] at h
  rw [h, habs]

/-- The quotient is a value of the type. -/
theorem toInt_quotient (t : IntegerType) (i : BitVec t.width) :
    t.toInt (t.ofInt ((t.toInt i).tdiv 10)) = (t.toInt i).tdiv 10 := by
  obtain ⟨habs, hpos, hneg⟩ := tdiv_ten (t.toInt i)
  unfold IntegerType.toInt IntegerType.ofInt at *
  cases hs : t.signed with
  | true =>
    simp only [hs, if_true] at habs hpos hneg ⊢
    have hlo : -2 ^ t.width ≤ 2 * i.toInt := BitVec.le_two_mul_toInt
    have hhi : 2 * i.toInt < 2 ^ t.width := BitVec.two_mul_toInt_lt
    rw [BitVec.toInt_ofInt]
    apply Int.bmod_eq_of_le_mul_two
    · push_cast
      omega
    · push_cast
      omega
  | false =>
    simp only [hs, Bool.false_eq_true, if_false] at habs hpos hneg ⊢
    have hhi : i.toNat < 2 ^ t.width := i.isLt
    have hq : 0 ≤ (i.toNat : ℤ).tdiv 10 := hpos (Int.natCast_nonneg _)
    have hlt : (i.toNat : ℤ).tdiv 10 < ((2 ^ t.width : ℕ) : ℤ) := by omega
    rw [BitVec.toNat_ofInt, Int.emod_eq_of_lt hq hlt]
    exact Int.toNat_of_nonneg hq

theorem natAbs_quotient_lt (t : IntegerType) (i : BitVec t.width)
    (h : t.toInt (t.ofInt ((t.toInt i).tdiv 10)) ≠ 0) :
    (t.toInt (t.ofInt ((t.toInt i).tdiv 10))).natAbs < (t.toInt i).natAbs := by
  rw [toInt_quotient] at h ⊢
  have habs := (tdiv_ten (t.toInt i)).1
  omega

/-! ## The loop -/

/-- The loop `do … while (i != 0)`, which writes the digits with the last one first. -/
def convertLoop (t : IntegerType) (i : BitVec t.width) : Option Bytes :=
  match zero ((t.toInt i).tmod 10) with
  | none => none
  | some c =>
    if _h : t.toInt (t.ofInt ((t.toInt i).tdiv 10)) ≠ 0 then
      (convertLoop t (t.ofInt ((t.toInt i).tdiv 10))).map (c :: ·)
    else some [c]
termination_by (t.toInt i).natAbs
decreasing_by exact natAbs_quotient_lt t i (by assumption)

/-- What `convert` leaves in the buffer, and the length that it returns. -/
def convert (t : IntegerType) (value : BitVec t.width) : Option (Bytes × ℕ) := do
  let digits ← convertLoop t value
  let buf := if t.toInt value < 0 then digits ++ lit "-" else digits
  return (buf.reverse ++ [NUL], buf.length)

theorem convertLoop_eq (t : IntegerType) (i : BitVec t.width) :
    convertLoop t i = some (digits (t.toInt i).natAbs).reverse := by
  induction hn : (t.toInt i).natAbs using Nat.strong_induction_on generalizing i with
  | _ n ih =>
    have habs : ((t.toInt i).tdiv 10).natAbs = n / 10 := hn ▸ (tdiv_ten (t.toInt i)).1
    rw [convertLoop, zero_tmod, hn]
    by_cases hlast : n < 10
    · have hstop : ¬ t.toInt (t.ofInt ((t.toInt i).tdiv 10)) ≠ 0 := by
        rw [toInt_quotient]
        omega
      simp only [dif_neg hstop, digits_of_lt hlast, Nat.mod_eq_of_lt hlast, List.reverse_singleton]
    · have hnext : t.toInt (t.ofInt ((t.toInt i).tdiv 10)) ≠ 0 := by
        rw [toInt_quotient]
        omega
      have hrest := ih (n / 10) (by omega) (t.ofInt ((t.toInt i).tdiv 10))
        (by rw [toInt_quotient, habs])
      have hdigits : digits n = digits (n / 10) ++ [UInt8.ofNat (48 + n % 10)] :=
        digits_step (by omega)
      simp only [dif_pos hnext, hrest, Option.map_some]
      rw [hdigits, List.reverse_append, List.reverse_singleton, List.singleton_append]

/-- **`convert` writes the decimal representation and a NUL.** -/
theorem convert_eq (t : IntegerType) (value : BitVec t.width) :
    convert t value =
      some (decimal (t.toInt value) ++ [NUL], (decimal (t.toInt value)).length) := by
  have hbuf : (if t.toInt value < 0 then (digits (t.toInt value).natAbs).reverse ++ lit "-"
      else (digits (t.toInt value).natAbs).reverse).reverse = decimal (t.toInt value) := by
    unfold decimal
    split_ifs
    · rw [List.reverse_append, List.reverse_reverse]
      rfl
    · rw [List.reverse_reverse]
  rw [convert, convertLoop_eq]
  show some (_, _) = _
  rw [hbuf, ← List.length_reverse, hbuf]

/-! ## The length -/

theorem natAbs_toInt_lt {t : IntegerType} (ht : t.width ≤ 64) (v : BitVec t.width) :
    (t.toInt v).natAbs < 10 ^ (if t.toInt v < 0 then 19 else 20) := by
  have hw : 2 ^ t.width ≤ 2 ^ 64 := Nat.pow_le_pow_right (by norm_num) ht
  unfold IntegerType.toInt
  cases t.signed with
  | true =>
    simp only [if_true]
    have hlo : -2 ^ t.width ≤ 2 * v.toInt := BitVec.le_two_mul_toInt
    have hhi : 2 * v.toInt < 2 ^ t.width := BitVec.two_mul_toInt_lt
    have hw' : ((2 ^ t.width : ℕ) : ℤ) ≤ 2 ^ 64 := by exact_mod_cast hw
    push_cast at hw'
    split_ifs <;> omega
  | false =>
    have hlt : v.toNat < 2 ^ t.width := v.isLt
    simp only [Bool.false_eq_true, if_false]
    rw [if_neg (by omega), Int.natAbs_natCast]
    omega

/-- A sign and 19 digits, or 20 digits. -/
theorem length_decimal_le {t : IntegerType} (ht : t.width ≤ 64) (v : BitVec t.width) :
    (decimal (t.toInt v)).length ≤ 20 := by
  have hlt := natAbs_toInt_lt ht v
  rw [length_decimal]
  split_ifs at hlt ⊢
  · have := length_digits_le (by norm_num) hlt
    omega
  · have := length_digits_le (by norm_num) hlt
    omega

/-- **Integers are formatted exactly**, at every width. -/
theorem convert_exact (t : IntegerType) (value : BitVec t.width) :
    (∃ text, convert t value = some (text ++ [NUL], text.length) ∧
      IsDecimal (t.toInt value) text ∧ (t.width ≤ 64 → (text ++ [NUL]).length ≤ 21)) ∧
    ∀ i : BitVec t.width, 0 ≤ 9 + (t.toInt i).tmod 10 ∧
      9 + (t.toInt i).tmod 10 < digitTable.length := by
  refine ⟨⟨decimal (t.toInt value), convert_eq t value, isDecimal_decimal _, fun ht => ?_⟩,
    fun i => (tmod_ten _).2⟩
  rw [List.length_append]
  exact Nat.succ_le_succ (length_decimal_le ht value)

end LogStream

end SearchServer

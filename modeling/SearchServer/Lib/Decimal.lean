import SearchServer.Lib.Text

/-!
# Decimal representations

`decimal n` is the text that `<<` writes for an integer. It is the canonical one (`IsDecimal`): a
minus exactly when `n` is negative, digits, no zero in front of other digits, and reading it gives
`n`. The digits of `n` are those of `n / 10` and one more (`digits_step`), and there are at most `k`
of them when `n < 10 ^ k` (`length_digits_le`).
-/

namespace SearchServer

/-! ## Digits -/

theorem digits_of_lt {n : ℕ} (h : n < 10) : digits n = [UInt8.ofNat (48 + n)] := by
  unfold digits
  split_ifs with h0
  · rw [h0]
    rfl
  · rw [Nat.digits_of_lt 10 n h0 h]
    rfl

/-- The last digit and the digits before it. -/
theorem digits_step {n : ℕ} (h : 10 ≤ n) :
    digits n = digits (n / 10) ++ [UInt8.ofNat (48 + n % 10)] := by
  have hdigits : Nat.digits 10 n = n % 10 :: Nat.digits 10 (n / 10) :=
    Nat.digits_def' (by norm_num) (by omega)
  rw [digits, digits, if_neg (by omega), if_neg (by omega), hdigits, List.reverse_cons,
    List.map_append]
  rfl

theorem length_digits_le {n k : ℕ} (hk : 0 < k) (h : n < 10 ^ k) : (digits n).length ≤ k := by
  unfold digits
  split_ifs with h0
  · exact hk
  · rw [List.length_map, List.length_reverse]
    exact (Nat.digits_length_le_iff (by norm_num) n).mpr h

/-- Only 0 is written with a zero in front. -/
theorem digits_head {n : ℕ} (h : (digits n).head? = some 48) : n = 0 := by
  by_contra h0
  have hne : Nat.digits 10 n ≠ [] := Nat.digits_ne_nil_iff_ne_zero.mpr h0
  rw [digits, if_neg h0, List.head?_map, List.head?_reverse, List.getLast?_eq_some_getLast hne,
    Option.map_some] at h
  have hlast : (Nat.digits 10 n).getLast hne < 10 :=
    Nat.digits_lt_base (by norm_num) (List.getLast_mem hne)
  have hzero : (Nat.digits 10 n).getLast hne = 0 := by
    have hnat := congrArg UInt8.toNat (Option.some.inj h)
    rw [digit_toNat hlast] at hnat
    exact Nat.add_eq_left.mp hnat
  exact Nat.getLast_digit_ne_zero 10 h0 hzero

/-! ## Integers -/

/-- The number that a sign and digits write. -/
def decimalValue (s : Bytes) : ℤ :=
  if (getSign s).1 then -digitsValue (getSign s).2 else digitsValue (getSign s).2

/-- `s` is the canonical decimal representation of `n`. -/
structure IsDecimal (n : ℤ) (s : Bytes) : Prop where
  minus_iff : s.head? = some 45 ↔ n < 0
  digits_ne : (getSign s).2 ≠ []
  isdigit : ∀ c ∈ (getSign s).2, isdigit c = true
  no_leading_zero : (getSign s).2.head? = some 48 → (getSign s).2 = [48]
  value : decimalValue s = n

theorem getSign_decimal (n : ℤ) : getSign (decimal n) = (decide (n < 0), digits n.natAbs) := by
  unfold decimal
  split_ifs with h
  · rw [getSign, if_pos rfl, decide_eq_true h]
  · obtain ⟨c, ds, hds⟩ := List.exists_cons_of_ne_nil (digits_ne_nil n.natAbs)
    have hc : SearchServer.isdigit c = true :=
      isdigit_of_mem_digits (n := n.natAbs) (by rw [hds]; exact List.mem_cons_self)
    rw [hds, getSign_of_isdigit hc, decide_eq_false h]

theorem head_decimal (n : ℤ) : (decimal n).head? = some 45 ↔ n < 0 := by
  unfold decimal
  split_ifs with h
  · simp [h]
  · refine iff_of_false (fun hhead => ?_) h
    have hdigit := isdigit_of_mem_digits (n := n.natAbs) (List.mem_of_head? hhead)
    cases hdigit

theorem isDecimal_decimal (n : ℤ) : IsDecimal n (decimal n) where
  minus_iff := head_decimal n
  digits_ne := by
    rw [getSign_decimal]
    exact digits_ne_nil _
  isdigit := by
    rw [getSign_decimal]
    exact fun c hc => isdigit_of_mem_digits hc
  no_leading_zero := by
    rw [getSign_decimal]
    intro h
    show digits n.natAbs = [48]
    rw [digits_head h]
    rfl
  value := by
    rw [decimalValue, getSign_decimal]
    simp only [digitsValue_digits, decide_eq_true_eq]
    split_ifs <;> omega

/-- A sign takes one byte more. -/
theorem length_decimal (n : ℤ) :
    (decimal n).length = (if n < 0 then 1 else 0) + (digits n.natAbs).length := by
  unfold decimal
  split_ifs
  · rw [List.length_cons, Nat.add_comm]
  · rw [Nat.zero_add]

end SearchServer

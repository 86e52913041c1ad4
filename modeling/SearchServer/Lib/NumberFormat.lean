import SearchServer.Lib.Double

/-!
# Reading and writing floating-point numbers

`<<` and `>>` on `double`, with the default format of streams. A finite number is written with six
significant digits, in the fixed notation or with an exponent, whichever `%g` takes; the values
that are no numbers are written as words. Reading accepts a decimal literal (`Decimal`) and fails on
everything else, and on a number that is too large.

* `getDouble_render`: reading a literal gives its value.
* `getDouble_putDouble`: a number of absolute value at most 1 can be read back.
* `getDouble_putDouble_nan`: what is written for a value that is not a number cannot be read.

`Dbl` has no signed zeros and only one value that is not a number, so the sign with which these are
written is an argument.
-/

namespace SearchServer

/-! ## Decimal literals -/

/-- A decimal literal: a sign, the digits before and after the point, and an exponent. -/
structure Decimal where
  neg : Bool
  int : Bytes
  frac : Bytes
  exp : Option ℤ

namespace Decimal

def minus (neg : Bool) : Bytes := if neg then [45] else []

/-- An exponent with its sign and at least two digits. -/
def expDigits (n : ℕ) : Bytes := (if n < 10 then [48] else []) ++ digits n

def renderExp (exp : Option ℤ) : Bytes :=
  match exp with
  | some e => 101 :: (if e < 0 then 45 else 43) :: expDigits e.natAbs
  | none => []

def renderFrac (frac : Bytes) : Bytes := if frac = [] then [] else 46 :: frac

def render (d : Decimal) : Bytes := minus d.neg ++ (d.int ++ (renderFrac d.frac ++ renderExp d.exp))

/-- The number that the literal writes. -/
def value (d : Decimal) : ℚ :=
  (if d.neg then -1 else 1) * digitsValue (d.int ++ d.frac) * 10 ^ (d.exp.getD 0 - d.frac.length)

/-- The literal has digits before the point, and digits only. -/
structure WellFormed (d : Decimal) : Prop where
  int_ne : d.int ≠ []
  int_digits : ∀ c ∈ d.int, isdigit c = true
  frac_digits : ∀ c ∈ d.frac, isdigit c = true

end Decimal

/-! ## Reading -/

/-- Split off the digits at the start. -/
def spanDigits (s : Bytes) : Bytes × Bytes := (s.takeWhile isdigit, s.dropWhile isdigit)

/-- The digits after a point, if there is one. -/
def getFrac (s : Bytes) : Bytes × Bytes :=
  match s with
  | [] => ([], [])
  | c :: s => if c = 46 then spanDigits s else ([], c :: s)

/-- An exponent, if there is one; it must have digits. -/
def getExp (s : Bytes) : Option (ℤ × Bytes) :=
  match s with
  | [] => some (0, [])
  | c :: s =>
    if c = 101 ∨ c = 69 then
      let (neg, s) := getSign s
      let (ds, s) := spanDigits s
      if ds = [] then none else some (if neg then -digitsValue ds else digitsValue ds, s)
    else some (0, c :: s)

/-- From here on a number rounds to infinity. -/
def doubleLimit : ℚ := 2 ^ 1024 - 2 ^ 970

/-- `is >> w` on `double`. -/
def getDouble (s : Bytes) : Option (ℚ × Bytes) := do
  let (neg, s) := getSign (s.dropWhile isspace)
  let (int, s) := spanDigits s
  let (frac, s) := getFrac s
  if int = [] ∧ frac = [] then none
  let (e, s) ← getExp s
  let v : ℚ := (if neg then -1 else 1) * digitsValue (int ++ frac) * 10 ^ (e - frac.length)
  if doubleLimit ≤ |v| then none else some (v, s)

/-! ## Writing -/

/-- Remove the zeros at the end. -/
def stripZeros (ds : Bytes) : Bytes := ds.rdropWhile (· = 48)

/-- `%g` for the number `n * 10 ^ (e - 5)`, where `n` has six digits. -/
def formatG (neg : Bool) (n : ℕ) (e : ℤ) : Decimal :=
  let ds := digits n
  if e < -4 ∨ 6 ≤ e then ⟨neg, ds.take 1, stripZeros (ds.drop 1), some e⟩
  else if e < 0 then ⟨neg, [48], stripZeros (List.replicate (-e - 1).toNat 48 ++ ds), none⟩
  else ⟨neg, ds.take (e + 1).toNat, stripZeros (ds.drop (e + 1).toNat), none⟩

noncomputable section

open Classical in
/-- Rounding to the nearest integer, to the even one of two. -/
def roundHalfEven (y : ℝ) : ℤ :=
  if Int.fract y < 1 / 2 then ⌊y⌋
  else if 1 / 2 < Int.fract y then ⌊y⌋ + 1
  else if Even ⌊y⌋ then ⌊y⌋ else ⌊y⌋ + 1

/-- The six significant digits of a positive number, and its exponent. -/
def significant (y : ℝ) : ℕ × ℤ :=
  let e := Int.log 10 y
  let n := (roundHalfEven (y / 10 ^ (e - 5))).toNat
  if n = 10 ^ 6 then (10 ^ 5, e + 1) else (n, e)

open Classical in
/-- `os << w` on `double`. The argument `sign` is the sign of a zero and of a value that is not a
number. -/
def putDouble (sign : Bool) (w : Dbl) : Bytes :=
  match w with
  | .nan => Decimal.minus sign ++ lit "nan"
  | .inf neg => Decimal.minus neg ++ lit "inf"
  | .fin x =>
    if x = 0 then Decimal.minus sign ++ [48]
    else (formatG (decide (x < 0)) (significant |x|).1 (significant |x|).2).render

end

/-! ## Reading back -/

theorem spanDigits_append {ds r : Bytes} (hds : ∀ c ∈ ds, isdigit c = true)
    (hr : ∀ c ∈ r.head?, isdigit c = false) : spanDigits (ds ++ r) = (ds, r) := by
  unfold spanDigits
  rw [List.takeWhile_append_of_pos hds, List.dropWhile_append_of_pos hds]
  cases r with
  | nil => simp
  | cons c r =>
    have hc : ¬ isdigit c = true := by simp [hr c rfl]
    rw [List.takeWhile_cons_of_neg hc, List.dropWhile_cons_of_neg hc, List.append_nil]

theorem spanDigits_of_head {s : Bytes} (hs : ∀ c ∈ s.head?, isdigit c = false) :
    spanDigits s = ([], s) := by
  have hnil : ∀ c ∈ ([] : Bytes), isdigit c = true := by simp
  exact spanDigits_append hnil hs

theorem digits_expDigits (n : ℕ) : ∀ c ∈ Decimal.expDigits n, isdigit c = true := by
  intro c hc
  rcases List.mem_append.mp hc with hc | hc
  · split_ifs at hc
    · rw [List.mem_singleton.mp hc]
      rfl
    · cases hc
  · exact isdigit_of_mem_digits hc

theorem digitsValue_expDigits (n : ℕ) : digitsValue (Decimal.expDigits n) = n := by
  rw [Decimal.expDigits]
  split_ifs
  · exact digitsValue_digits n
  · exact digitsValue_digits n

theorem expDigits_ne_nil (n : ℕ) : Decimal.expDigits n ≠ [] := by
  rw [Decimal.expDigits]
  simp [digits_ne_nil]

/-- A byte after which a literal does not go on. -/
def EndsNumber (r : Bytes) : Prop := ∀ c ∈ r.head?, isspace c = true

theorem not_isdigit_of_isspace {c : UInt8} (h : isspace c = true) : isdigit c = false := by
  by_contra hd
  rw [isspace_of_isdigit (by simpa using hd)] at h
  cases h

theorem EndsNumber.not_digit {r : Bytes} (hr : EndsNumber r) : ∀ c ∈ r.head?, isdigit c = false :=
  fun c hc => not_isdigit_of_isspace (hr c hc)

theorem getExp_renderExp (exp : Option ℤ) {r : Bytes} (hr : EndsNumber r) :
    getExp (Decimal.renderExp exp ++ r) = some (exp.getD 0, r) := by
  cases exp with
  | none =>
    cases r with
    | nil => rfl
    | cons c r =>
      have hc : isspace c = true := hr c rfl
      have hexp : ¬ (c = 101 ∨ c = 69) := by
        rintro (rfl | rfl) <;> exact absurd hc (by decide)
      show getExp (c :: r) = _
      rw [getExp, if_neg hexp]
      rfl
  | some e =>
    have hspan : spanDigits (Decimal.expDigits e.natAbs ++ r) = (Decimal.expDigits e.natAbs, r) :=
      spanDigits_append (digits_expDigits _) hr.not_digit
    have hsign : getSign ((if e < 0 then (45 : UInt8) else 43) ::
        (Decimal.expDigits e.natAbs ++ r)) =
        (decide (e < 0), Decimal.expDigits e.natAbs ++ r) := by
      by_cases he : e < 0
      · rw [if_pos he, getSign, if_pos rfl, decide_eq_true he]
      · rw [if_neg he, getSign, if_neg (by decide), if_pos rfl, decide_eq_false he]
    show getExp (101 :: ((if e < 0 then (45 : UInt8) else 43) ::
      (Decimal.expDigits e.natAbs ++ r))) = _
    rw [getExp, if_pos (Or.inl rfl), hsign]
    simp only [hspan, digitsValue_expDigits, if_neg (expDigits_ne_nil _), Option.getD_some]
    congr 2
    by_cases he : e < 0
    · simp only [he, decide_true, if_true]
      omega
    · simp only [he, decide_false, Bool.false_eq_true, if_false]
      omega

theorem head_renderExp (exp : Option ℤ) {r : Bytes} (hr : EndsNumber r) :
    ∀ c ∈ (Decimal.renderExp exp ++ r).head?, c = 101 ∨ isspace c = true := by
  intro c hc
  cases exp with
  | none => exact Or.inr (hr c hc)
  | some e => exact Or.inl (Option.some.inj hc).symm

theorem getFrac_renderFrac {frac : Bytes} (hfrac : ∀ c ∈ frac, isdigit c = true) {r : Bytes}
    (hr : ∀ c ∈ r.head?, c = 101 ∨ isspace c = true) :
    getFrac (Decimal.renderFrac frac ++ r) = (frac, r) := by
  have hdigit : ∀ c ∈ r.head?, isdigit c = false := by
    intro c hc
    rcases hr c hc with rfl | h
    · rfl
    · exact not_isdigit_of_isspace h
  rw [Decimal.renderFrac]
  by_cases hnil : frac = []
  · rw [if_pos hnil, List.nil_append, hnil]
    cases r with
    | nil => rfl
    | cons c r =>
      have hc : c ≠ 46 := by
        rintro rfl
        rcases hr 46 rfl with h | h <;> exact absurd h (by decide)
      rw [getFrac, if_neg hc]
  · rw [if_neg hnil, List.cons_append, getFrac, if_pos rfl, spanDigits_append hfrac hdigit]

theorem getSign_minus (neg : Bool) {s : Bytes} (hne : s ≠ []) (hs : ∀ c ∈ s, isdigit c = true)
    (r : Bytes) :
    getSign ((Decimal.minus neg ++ (s ++ r)).dropWhile isspace) = (neg, s ++ r) := by
  obtain ⟨c, t, rfl⟩ := List.exists_cons_of_ne_nil hne
  have hc : isdigit c = true := hs c List.mem_cons_self
  cases neg with
  | true =>
    show getSign ((45 :: ((c :: t) ++ r)).dropWhile isspace) = _
    rw [List.dropWhile_cons_of_neg (by decide), getSign, if_pos rfl]
  | false =>
    show getSign ((c :: (t ++ r)).dropWhile isspace) = _
    rw [List.dropWhile_cons_of_neg (by simp [isspace_of_isdigit hc]), getSign_of_isdigit hc]
    rfl

/-- **Reading a literal.** -/
theorem getDouble_render {d : Decimal} (hd : d.WellFormed) {r : Bytes} (hr : EndsNumber r) :
    getDouble (d.render ++ r) =
      if doubleLimit ≤ |d.value| then none else some (d.value, r) := by
  have hhead := head_renderExp d.exp hr
  have hspan : spanDigits (d.int ++ (Decimal.renderFrac d.frac ++ (Decimal.renderExp d.exp ++ r))) =
      (d.int, Decimal.renderFrac d.frac ++ (Decimal.renderExp d.exp ++ r)) := by
    refine spanDigits_append hd.int_digits fun c hc => ?_
    rw [Decimal.renderFrac] at hc
    split_ifs at hc
    · rcases hhead c hc with rfl | h
      · rfl
      · exact not_isdigit_of_isspace h
    · rw [← Option.some.inj hc]
      rfl
  have hassoc : d.render ++ r = Decimal.minus d.neg ++
      (d.int ++ (Decimal.renderFrac d.frac ++ (Decimal.renderExp d.exp ++ r))) := by
    rw [Decimal.render]
    simp only [List.append_assoc]
  have hint : ¬ (d.int = [] ∧ d.frac = []) := fun h => hd.int_ne h.1
  rw [hassoc, getDouble, getSign_minus d.neg hd.int_ne hd.int_digits]
  simp only [hspan, getFrac_renderFrac hd.frac_digits hhead, getExp_renderExp d.exp hr, if_neg hint]
  rfl

/-! ## Reading what was written -/

theorem digitsValue_lt {ds : Bytes} (h : ∀ c ∈ ds, isdigit c = true) :
    digitsValue ds < 10 ^ ds.length := by
  induction ds using List.reverseRecOn with
  | nil => simp [digitsValue]
  | append_singleton ds c ih =>
    have hc : c.toNat ≤ 57 := by
      have := h c (by simp)
      simp only [isdigit, decide_eq_true_eq, UInt8.le_iff_toNat_le] at this
      simpa using this.2
    have hds := ih fun d hd => h d (List.mem_append_left _ hd)
    have hstep : digitsValue (ds ++ [c]) = 10 * digitsValue ds + (c.toNat - 48) := by
      simp [digitsValue]
    rw [hstep, List.length_append, List.length_singleton, pow_succ]
    omega

/-- The digits before the point and the exponent bound the number. -/
theorem Decimal.WellFormed.abs_value_lt {d : Decimal} (hd : d.WellFormed) {k : ℤ}
    (hk : d.int.length + d.exp.getD 0 ≤ k) : |d.value| < 10 ^ k := by
  have hlt : (digitsValue (d.int ++ d.frac) : ℚ) < 10 ^ (d.int.length + d.frac.length) := by
    have hdigits : ∀ c ∈ d.int ++ d.frac, isdigit c = true := fun c hc =>
      (List.mem_append.mp hc).elim (hd.int_digits c) (hd.frac_digits c)
    have hnat := digitsValue_lt hdigits
    rw [List.length_append] at hnat
    exact_mod_cast hnat
  have hpos : (0 : ℚ) < 10 ^ (d.exp.getD 0 - d.frac.length) := by positivity
  have habs : |d.value| = digitsValue (d.int ++ d.frac) * 10 ^ (d.exp.getD 0 - d.frac.length) := by
    rw [Decimal.value, abs_mul, abs_mul, abs_of_pos hpos, Nat.abs_cast]
    cases d.neg <;> simp
  calc |d.value|
      < 10 ^ (d.int.length + d.frac.length) * 10 ^ (d.exp.getD 0 - d.frac.length) := by
        rw [habs]
        exact mul_lt_mul_of_pos_right hlt hpos
    _ = (10 : ℚ) ^ (d.int.length + d.exp.getD 0) := by
        rw [← zpow_natCast, ← zpow_add₀ (by norm_num)]
        congr 1
        push_cast
        ring
    _ ≤ 10 ^ k := zpow_le_zpow_right₀ (by norm_num) hk

theorem isdigit_of_mem_stripZeros {ds : Bytes} (h : ∀ c ∈ ds, isdigit c = true) :
    ∀ c ∈ stripZeros ds, isdigit c = true :=
  fun c hc => h c ((List.rdropWhile_prefix _ _).subset hc)

theorem isdigit_zero : ∀ c ∈ [(48 : UInt8)], isdigit c = true := by
  intro c hc
  rw [List.mem_singleton.mp hc]
  rfl

theorem formatG_wellFormed (neg : Bool) (n : ℕ) (e : ℤ) : (formatG neg n e).WellFormed := by
  have hds : ∀ c ∈ digits n, isdigit c = true := fun c hc => isdigit_of_mem_digits hc
  have htake : ∀ k, 0 < k → (digits n).take k ≠ [] := by
    intro k hk h
    rcases List.take_eq_nil_iff.mp h with h | h
    · omega
    · exact digits_ne_nil n h
  have htakeDigits : ∀ k, ∀ c ∈ (digits n).take k, isdigit c = true :=
    fun k c hc => hds c (List.mem_of_mem_take hc)
  have hdropDigits : ∀ k, ∀ c ∈ (digits n).drop k, isdigit c = true :=
    fun k c hc => hds c (List.mem_of_mem_drop hc)
  unfold formatG
  split_ifs with hexp hneg
  · exact ⟨htake 1 one_pos, htakeDigits 1, isdigit_of_mem_stripZeros (hdropDigits 1)⟩
  · refine ⟨List.cons_ne_nil _ _, isdigit_zero, isdigit_of_mem_stripZeros fun c hc => ?_⟩
    rcases List.mem_append.mp hc with hc | hc
    · rw [List.eq_of_mem_replicate hc]
      rfl
    · exact hds c hc
  · exact ⟨htake _ (by omega), htakeDigits _, isdigit_of_mem_stripZeros (hdropDigits _)⟩

theorem formatG_length (neg : Bool) (n : ℕ) {e : ℤ} (he : e ≤ 1) :
    (formatG neg n e).int.length + (formatG neg n e).exp.getD 0 ≤ 2 := by
  unfold formatG
  split_ifs with hexp hneg
  · have := List.length_take_le 1 (digits n)
    simp only [Option.getD_some]
    omega
  · simp
  · have := List.length_take_le (e + 1).toNat (digits n)
    simp only [Option.getD_none]
    omega

theorem significant_exp_le {y : ℝ} (hpos : 0 < y) (hy : y ≤ 1) : (significant y).2 ≤ 1 := by
  have hlog : Int.log 10 y ≤ 0 := by
    have := Int.log_mono_right (b := 10) hpos hy
    rwa [Int.log_one_right] at this
  simp only [significant]
  split_ifs
  · show Int.log 10 y + 1 ≤ 1
    omega
  · show Int.log 10 y ≤ 1
    omega

theorem hundred_lt_doubleLimit : (10 : ℚ) ^ (2 : ℤ) < doubleLimit := by
  have h : (2 : ℚ) ^ 1024 = 2 ^ 970 * 2 ^ 54 := by rw [← pow_add]
  have hlow : (2 : ℚ) ^ 7 ≤ 2 ^ 970 := pow_le_pow_right₀ (by norm_num) (by norm_num)
  rw [doubleLimit, h]
  generalize (2 : ℚ) ^ 970 = a at hlow
  norm_num at hlow ⊢
  linarith

/-- A small number is read back, after rounding. -/
theorem getDouble_putDouble (sign : Bool) {x : ℝ} (hx : |x| ≤ 1) {r : Bytes} (hr : EndsNumber r) :
    ∃ v, getDouble (putDouble sign (.fin x) ++ r) = some (v, r) := by
  have key : ∀ d : Decimal, d.WellFormed → d.int.length + d.exp.getD 0 ≤ 2 →
      ∃ v, getDouble (d.render ++ r) = some (v, r) := by
    intro d hd hlen
    refine ⟨d.value, ?_⟩
    rw [getDouble_render hd hr, if_neg]
    exact not_le.mpr ((hd.abs_value_lt hlen).trans hundred_lt_doubleLimit)
  rw [putDouble]
  by_cases h0 : x = 0
  · rw [if_pos h0]
    have hzero : Decimal.minus sign ++ [48] = (⟨sign, [48], [], none⟩ : Decimal).render := by
      simp [Decimal.render, Decimal.renderFrac, Decimal.renderExp]
    rw [hzero]
    exact key _ ⟨List.cons_ne_nil _ _, isdigit_zero, by simp⟩ (by simp)
  · rw [if_neg h0]
    have hpos : 0 < |x| := abs_pos.mpr h0
    exact key _ (formatG_wellFormed _ _ _) (formatG_length _ _ (significant_exp_le hpos hx))

/-- `nan` is no number, with or without a sign. -/
theorem getDouble_putDouble_nan (sign : Bool) (r : Bytes) :
    getDouble (putDouble sign .nan ++ r) = none := by
  have hspan : ∀ t : Bytes, spanDigits (110 :: t) = ([], 110 :: t) := fun t =>
    spanDigits_of_head fun c hc => by rw [← Option.some.inj hc]; rfl
  have hsign : getSign ((putDouble sign .nan ++ r).dropWhile isspace) =
      (sign, 110 :: 97 :: 110 :: r) := by
    cases sign with
    | true => rfl
    | false => rfl
  rw [getDouble, hsign]
  simp only [hspan]
  rfl

theorem getDouble_space {c : UInt8} (hc : isspace c = true) (s : Bytes) :
    getDouble (c :: s) = getDouble s := by
  rw [getDouble, getDouble, List.dropWhile_cons_of_pos hc]

/-! ## The bytes that are written -/

theorem not_isspace_of_mem_render {d : Decimal} (hd : d.WellFormed) {c : UInt8}
    (hc : c ∈ d.render) : isspace c = false := by
  have hexp : ∀ n, c ∈ Decimal.expDigits n → isspace c = false :=
    fun n h => isspace_of_isdigit (digits_expDigits n c h)
  rcases List.mem_append.mp hc with h | h
  · rw [Decimal.minus] at h
    split_ifs at h
    · rw [List.mem_singleton.mp h]
      rfl
    · cases h
  rcases List.mem_append.mp h with h | h
  · exact isspace_of_isdigit (hd.int_digits c h)
  rcases List.mem_append.mp h with h | h
  · rw [Decimal.renderFrac] at h
    split_ifs at h
    · cases h
    · rcases List.mem_cons.mp h with rfl | h
      · rfl
      · exact isspace_of_isdigit (hd.frac_digits c h)
  · cases he : d.exp with
    | none =>
      rw [he] at h
      cases h
    | some e =>
      rw [he] at h
      rcases List.mem_cons.mp h with rfl | h
      · rfl
      rcases List.mem_cons.mp h with rfl | h
      · split_ifs <;> rfl
      · exact hexp _ h

theorem not_isspace_of_mem_putDouble {sign : Bool} {w : Dbl} {c : UInt8}
    (hc : c ∈ putDouble sign w) : isspace c = false := by
  have hword : ∀ neg word, (∀ c ∈ word, isspace c = false) → c ∈ Decimal.minus neg ++ word →
      isspace c = false := by
    intro neg word hword h
    rcases List.mem_append.mp h with h | h
    · rw [Decimal.minus] at h
      split_ifs at h
      · rw [List.mem_singleton.mp h]
        rfl
      · cases h
    · exact hword c h
  cases w with
  | nan => exact hword sign (lit "nan") (by decide +kernel) hc
  | inf neg => exact hword neg (lit "inf") (by decide +kernel) hc
  | fin x =>
    rw [putDouble] at hc
    by_cases h0 : x = 0
    · rw [if_pos h0] at hc
      refine hword sign [48] (fun d hd => ?_) hc
      exact isspace_of_isdigit (isdigit_zero d hd)
    · rw [if_neg h0] at hc
      exact not_isspace_of_mem_render (formatG_wellFormed _ _ _) hc

end SearchServer

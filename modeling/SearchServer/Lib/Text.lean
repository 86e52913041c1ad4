import Mathlib

/-!
# Byte strings and formatted input and output

A `std::string` is a list of bytes. This file has the parts of the C and C++ libraries that read
and write text: C strings, whitespace-separated words (`>>` on strings), lines (`getline`), and
decimal integers (`<<` and `>>` on `int`).

Streams are the bytes still to be read. An extraction returns the value read and the rest of the
stream, and `none` when it fails, which ends the loops `while (is >> x)`.

* `tokens`: the words the loop `while (is >> w)` reads.
* `lines`: the lines the loop `while (getline(is, line))` reads.
* `getInt_decimal`: `>>` reads back the integer that `<<` wrote.
-/

namespace SearchServer

/-- The bytes of a `std::string`. -/
abbrev Bytes := List UInt8

/-- A string literal: the UTF-8 bytes of its text. -/
def lit (s : String) : Bytes := s.toList.flatMap String.utf8EncodeChar

abbrev NUL : UInt8 := 0
abbrev LF : UInt8 := 10
abbrev SP : UInt8 := 32

/-- `isspace` in the C locale: space, tab, newline, vertical tab, form feed, carriage return. -/
def isspace (c : UInt8) : Bool := c = SP ∨ (9 ≤ c ∧ c ≤ 13)

/-- What a function that takes `s.c_str()` sees: the bytes before the first NUL. -/
def cStr (s : Bytes) : Bytes := s.takeWhile (· ≠ NUL)

theorem cStr_append {s : Bytes} (h : NUL ∉ s) (t : Bytes) : cStr (s ++ t) = s ++ cStr t :=
  List.takeWhile_append_of_pos fun c hc => by simpa using fun h' : c = NUL => h (h' ▸ hc)

theorem cStr_append_nul {s : Bytes} (h : NUL ∉ s) (t : Bytes) : cStr (s ++ NUL :: t) = s := by
  rw [cStr_append h]
  simp [cStr]

theorem nul_not_mem_cStr (s : Bytes) : NUL ∉ cStr s := fun h => by
  simpa using List.mem_takeWhile_imp h

theorem cStr_eq_self {s : Bytes} (h : NUL ∉ s) : cStr s = s :=
  List.takeWhile_eq_self_iff.mpr fun c hc => by
    simpa using fun h' : c = NUL => h (h' ▸ hc)

/-- A string with a NUL is the C string, the NUL and more bytes. -/
theorem exists_of_nul_mem {s : Bytes} (h : NUL ∈ s) : ∃ t, s = cStr s ++ NUL :: t := by
  induction s with
  | nil => simp at h
  | cons c s ih =>
    by_cases hc : c = NUL
    · exact ⟨s, by simp [cStr, hc]⟩
    · obtain ⟨t, ht⟩ := ih ((List.mem_cons.mp h).resolve_left (Ne.symm hc))
      exact ⟨t, by rw [cStr, List.takeWhile_cons_of_pos (by simpa using hc), List.cons_append]
                   congr 1⟩

/-! ## Words -/

/-- `is >> w` on strings: skip whitespace, then take bytes up to the next whitespace. -/
def getToken (s : Bytes) : Option (Bytes × Bytes) :=
  match s.dropWhile isspace with
  | [] => none
  | c :: t => some (c :: t.takeWhile (!isspace ·), t.dropWhile (!isspace ·))

/-- The words that `while (is >> w)` reads: the non-empty pieces between whitespace. -/
def tokens (s : Bytes) : List Bytes := (s.splitOnP isspace).filter (· ≠ [])

theorem splitOnP_ne_nil' (s : Bytes) : ∃ w ws, s.splitOnP isspace = w :: ws :=
  List.exists_cons_of_ne_nil (List.splitOnP_ne_nil isspace s)

theorem tokens_cons_space {c : UInt8} (hc : isspace c = true) (s : Bytes) :
    tokens (c :: s) = tokens s := by
  rw [tokens, List.splitOnP_cons_eq_if_modifyHead, if_pos hc]
  simp [tokens]

/-- A word with no whitespace, at the end of the text or followed by whitespace. -/
theorem tokens_append {w : Bytes} (hw : w ≠ []) (hsp : ∀ c ∈ w, isspace c = false) {r : Bytes}
    (hr : ∀ c ∈ r.head?, isspace c = true) : tokens (w ++ r) = w :: tokens r := by
  have hsplit : ∀ v : Bytes, (∀ c ∈ v, isspace c = false) →
      (v ++ r).splitOnP isspace = (r.splitOnP isspace).modifyHead (v ++ ·) := by
    intro v hv
    induction v with
    | nil =>
      obtain ⟨x, xs, hx⟩ := splitOnP_ne_nil' r
      simp [hx]
    | cons c v ih =>
      rw [List.cons_append, List.splitOnP_cons_eq_if_modifyHead, if_neg (by simp [hv c List.mem_cons_self]),
        ih fun d hd => hv d (List.mem_cons_of_mem _ hd), List.modifyHead_modifyHead]
      rfl
  rw [tokens, hsplit w hsp]
  cases r with
  | nil => simp [tokens, hw]
  | cons c r =>
    rw [tokens, List.splitOnP_cons_eq_if_modifyHead, if_pos (hr c rfl)]
    simp [hw]

/-- A word with no whitespace, followed by whitespace. -/
theorem getToken_append {w : Bytes} (hw : w ≠ []) (hsp : ∀ c ∈ w, isspace c = false) {c : UInt8}
    (hc : isspace c = true) (r : Bytes) : getToken (w ++ c :: r) = some (w, c :: r) := by
  obtain ⟨d, w, rfl⟩ := List.exists_cons_of_ne_nil hw
  have hd : ¬ isspace d = true := by simp [hsp d List.mem_cons_self]
  have hrest : ∀ e ∈ w, (!isspace e) = true := fun e he => by
    simp [hsp e (List.mem_cons_of_mem _ he)]
  rw [getToken, List.cons_append, List.dropWhile_cons_of_neg hd]
  simp only [List.takeWhile_append_of_pos hrest, List.dropWhile_append_of_pos hrest]
  rw [List.takeWhile_cons_of_neg (by simp [hc]), List.dropWhile_cons_of_neg (by simp [hc]),
    List.append_nil]

theorem ne_nil_of_mem_tokens {s w : Bytes} (h : w ∈ tokens s) : w ≠ [] := by
  simpa using (List.mem_filter.mp h).2

theorem tokens_cons {c : UInt8} (hc : isspace c = false) (s : Bytes) :
    ∃ w ws, tokens (c :: s) = (c :: w) :: ws ∧
      (tokens s = ws ∧ w = [] ∨ tokens s = w :: ws) := by
  obtain ⟨x, xs, hx⟩ := splitOnP_ne_nil' s
  refine ⟨x, xs.filter (· ≠ []), ?_, ?_⟩
  · rw [tokens, List.splitOnP_cons_eq_if_modifyHead, if_neg (by simp [hc]), hx]
    simp
  · rw [tokens, hx]
    by_cases h : x = []
    · exact Or.inl ⟨by simp [h], h⟩
    · exact Or.inr (by simp [h])

/-- The letters of the words are the letters of the text that are not whitespace. -/
theorem mem_tokens_letter {s : Bytes} {c : UInt8} :
    (∃ w ∈ tokens s, c ∈ w) ↔ c ∈ s ∧ isspace c = false := by
  induction s with
  | nil => simp [tokens]
  | cons d s ih =>
    by_cases hd : isspace d = true
    · rw [tokens_cons_space hd, ih, List.mem_cons]
      constructor
      · exact fun ⟨h, hc⟩ => ⟨Or.inr h, hc⟩
      · intro h
        obtain ⟨rfl | h, hc⟩ := h
        · rw [hd] at hc; cases hc
        · exact ⟨h, hc⟩
    · have hd : isspace d = false := by simpa using hd
      obtain ⟨w, ws, hcons, ⟨hs, rfl⟩ | hs⟩ := tokens_cons hd s <;>
        rw [hs] at ih <;> rw [hcons] <;> simp only [List.mem_cons, exists_eq_or_imp] at ih ⊢ <;>
        grind

theorem isspace_of_mem_tokens {s w : Bytes} (h : w ∈ tokens s) {c : UInt8} (hc : c ∈ w) :
    isspace c = false := (mem_tokens_letter.mp ⟨w, h, hc⟩).2

theorem tokens_eq_nil_iff {s : Bytes} : tokens s = [] ↔ ∀ c ∈ s, isspace c = true := by
  constructor
  · intro h c hc
    by_contra hsp
    obtain ⟨w, hw, -⟩ := mem_tokens_letter.mpr ⟨hc, by simpa using hsp⟩
    rw [h] at hw
    cases hw
  · intro h
    rw [List.eq_nil_iff_forall_not_mem]
    intro w hw
    obtain ⟨c, w', rfl⟩ := List.exists_cons_of_ne_nil (ne_nil_of_mem_tokens hw)
    obtain ⟨hcs, hc⟩ := mem_tokens_letter.mp ⟨_, hw, List.mem_cons_self⟩
    rw [h c hcs] at hc
    cases hc

theorem tokens_eq_singleton {s : Bytes} (hs : s ≠ []) (h : ∀ c ∈ s, isspace c = false) :
    tokens s = [s] := by
  have := tokens_append hs h (r := []) (by simp)
  simpa [tokens] using this

/-! ## Lines -/

/-- The lines that `while (getline(is, line))` reads. A text that does not end in a newline has
one more line, the bytes after the last newline. -/
def lines : Bytes → List Bytes
  | [] => []
  | c :: s => if c = LF then [] :: lines s else
    match lines s with
    | [] => [[c]]
    | l :: ls => (c :: l) :: ls

theorem lines_append {l : Bytes} (h : LF ∉ l) (r : Bytes) : lines (l ++ LF :: r) = l :: lines r := by
  induction l with
  | nil => simp [lines]
  | cons c l ih =>
    have hc : c ≠ LF := fun hc => h (hc ▸ List.mem_cons_self)
    rw [List.cons_append, lines, if_neg hc, ih fun hl => h (List.mem_cons_of_mem _ hl)]

/-- A line and what follows it are determined by the text. -/
theorem line_inj {l l' r r' : Bytes} (hl : LF ∉ l) (hl' : LF ∉ l')
    (h : l ++ LF :: r = l' ++ LF :: r') : l = l' ∧ r = r' := by
  induction l generalizing l' with
  | nil =>
    cases l' with
    | nil => exact ⟨rfl, (List.cons.inj h).2⟩
    | cons c l' => exact absurd ((List.cons.inj h).1 ▸ List.mem_cons_self) hl'
  | cons c l ih =>
    cases l' with
    | nil => exact absurd ((List.cons.inj h).1 ▸ List.mem_cons_self) hl
    | cons c' l' =>
      obtain ⟨rfl, htail⟩ := List.cons.inj h
      obtain ⟨rfl, hr⟩ := ih (fun hm => hl (List.mem_cons_of_mem _ hm))
        (fun hm => hl' (List.mem_cons_of_mem _ hm)) htail
      exact ⟨rfl, hr⟩

/-! ## Integers -/

/-- A value converted to `int`, which wraps around. -/
@[irreducible] def wrapInt (n : ℤ) : ℤ := (n + 2 ^ 31) % 2 ^ 32 - 2 ^ 31

theorem wrapInt_range (n : ℤ) : -2 ^ 31 ≤ wrapInt n ∧ wrapInt n < 2 ^ 31 := by
  unfold wrapInt
  omega

theorem wrapInt_natCast {n : ℕ} (h : n < 2 ^ 31) : wrapInt n = n := by
  unfold wrapInt
  omega

def isdigit (c : UInt8) : Bool := 48 ≤ c ∧ c ≤ 57

/-- The decimal digits of `n`, as `to_string` and `<<` write them. -/
def digits (n : ℕ) : Bytes :=
  if n = 0 then [48] else (Nat.digits 10 n).reverse.map fun d => UInt8.ofNat (48 + d)

/-- `to_string` and `<<` on integers. -/
def decimal (n : ℤ) : Bytes := if n < 0 then 45 :: digits n.natAbs else digits n.natAbs

/-- The number that a string of digits writes. -/
def digitsValue (ds : Bytes) : ℕ := ds.foldl (fun a c => 10 * a + (c.toNat - 48)) 0

/-- An optional sign. -/
def getSign : Bytes → Bool × Bytes
  | [] => (false, [])
  | c :: s => if c = 45 then (true, s) else if c = 43 then (false, s) else (false, c :: s)

/-- `is >> n` on `int`: skip whitespace, read an optional sign and the longest run of digits, and
fail when there is no digit or the number is no `int`. -/
def getInt (s : Bytes) : Option (ℤ × Bytes) :=
  let (neg, t) := getSign (s.dropWhile isspace)
  let ds := t.takeWhile isdigit
  let n : ℤ := if neg then -digitsValue ds else digitsValue ds
  if ds = [] ∨ n < -2 ^ 31 ∨ 2 ^ 31 ≤ n then none else some (n, t.dropWhile isdigit)

theorem digit_toNat {d : ℕ} (hd : d < 10) : (UInt8.ofNat (48 + d)).toNat = 48 + d := by
  rw [UInt8.toNat_ofNat']
  omega

theorem isdigit_ofNat {d : ℕ} (hd : d < 10) : isdigit (UInt8.ofNat (48 + d)) = true := by
  simp only [isdigit, UInt8.le_iff_toNat_le, digit_toNat hd]
  simp
  omega

theorem digits_ne_nil (n : ℕ) : digits n ≠ [] := by
  unfold digits
  split_ifs with h
  · simp
  · simpa using Nat.digits_ne_nil_iff_ne_zero.mpr h

theorem isdigit_of_mem_digits {n : ℕ} {c : UInt8} (h : c ∈ digits n) : isdigit c = true := by
  unfold digits at h
  split_ifs at h with hn
  · rw [List.mem_singleton.mp h]; rfl
  · obtain ⟨d, hd, rfl⟩ := List.mem_map.mp h
    exact isdigit_ofNat (Nat.digits_lt_base (by norm_num) (List.mem_reverse.mp hd))

theorem mem_decimal {n : ℤ} {c : UInt8} (h : c ∈ decimal n) : c = 45 ∨ isdigit c = true := by
  unfold decimal at h
  split_ifs at h
  · rcases List.mem_cons.mp h with rfl | h
    · exact Or.inl rfl
    · exact Or.inr (isdigit_of_mem_digits h)
  · exact Or.inr (isdigit_of_mem_digits h)

theorem digitsValue_digits (n : ℕ) : digitsValue (digits n) = n := by
  unfold digits
  split_ifs with h
  · rw [h]; rfl
  · have key : ∀ l : List ℕ, (∀ d ∈ l, d < 10) →
        digitsValue (l.reverse.map fun d => UInt8.ofNat (48 + d)) = Nat.ofDigits 10 l := by
      intro l hl
      rw [digitsValue, List.map_reverse, List.foldl_reverse]
      induction l with
      | nil => rfl
      | cons d l ih =>
        rw [List.map_cons, List.foldr_cons, ih fun e he => hl e (List.mem_cons_of_mem _ he),
          digit_toNat (hl d List.mem_cons_self), Nat.ofDigits_cons]
        simp
        omega
    rw [key _ fun d hd => Nat.digits_lt_base (by norm_num) hd, Nat.ofDigits_digits]

theorem isspace_of_isdigit {c : UInt8} (h : isdigit c = true) : isspace c = false := by
  simp only [isdigit, isspace, SP, decide_eq_true_eq, decide_eq_false_iff_not,
    UInt8.le_iff_toNat_le, ← UInt8.toNat_inj, UInt8.toNat_ofNat] at h ⊢
  omega

theorem getSign_of_isdigit {c : UInt8} (h : isdigit c = true) (s : Bytes) :
    getSign (c :: s) = (false, c :: s) := by
  have h45 : c ≠ 45 := by rintro rfl; cases h
  have h43 : c ≠ 43 := by rintro rfl; cases h
  simp [getSign, h45, h43]

theorem takeWhile_digits (n : ℕ) {r : Bytes} (hr : ∀ c ∈ r.head?, isdigit c = false) :
    (digits n ++ r).takeWhile isdigit = digits n ∧ (digits n ++ r).dropWhile isdigit = r := by
  have hall : ∀ c ∈ digits n, isdigit c = true := fun c hc => isdigit_of_mem_digits hc
  rw [List.takeWhile_append_of_pos hall, List.dropWhile_append_of_pos hall]
  cases r with
  | nil => simp
  | cons c r =>
    have hc : ¬ isdigit c = true := by simp [hr c rfl]
    rw [List.takeWhile_cons_of_neg hc, List.dropWhile_cons_of_neg hc]
    simp

/-- **`>>` reads back what `<<` wrote**, when the number is an `int` and no digit follows. -/
theorem getInt_decimal {n : ℤ} (hlo : -2 ^ 31 ≤ n) (hhi : n < 2 ^ 31) {r : Bytes}
    (hr : ∀ c ∈ r.head?, isdigit c = false) : getInt (decimal n ++ r) = some (n, r) := by
  obtain ⟨c, ds, hds⟩ := List.exists_cons_of_ne_nil (digits_ne_nil n.natAbs)
  have hc : isdigit c = true := isdigit_of_mem_digits (n := n.natAbs) (by rw [hds]; simp)
  have hsign : getSign ((decimal n ++ r).dropWhile isspace) =
      (decide (n < 0), digits n.natAbs ++ r) := by
    unfold decimal
    split_ifs with hn
    · rw [List.cons_append, List.dropWhile_cons_of_neg (by decide)]
      simp [getSign, hn]
    · rw [hds, List.cons_append,
        List.dropWhile_cons_of_neg (by simp [isspace_of_isdigit hc]), getSign_of_isdigit hc]
      simp [hn]
  unfold getInt
  rw [hsign]
  simp only [(takeWhile_digits n.natAbs hr).1, (takeWhile_digits n.natAbs hr).2,
    digitsValue_digits]
  have hval : (if decide (n < 0) = true then -(n.natAbs : ℤ) else n.natAbs) = n := by
    split_ifs with hn <;> simp at hn <;> omega
  rw [hval, if_neg]
  rintro (h | h | h)
  · exact digits_ne_nil _ h
  · omega
  · omega

theorem getInt_space {c : UInt8} (hc : isspace c = true) (s : Bytes) :
    getInt (c :: s) = getInt s := by
  unfold getInt
  rw [List.dropWhile_cons_of_pos hc]

end SearchServer

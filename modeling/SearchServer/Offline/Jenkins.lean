import SearchServer.Lib.Text

/-!
# The hash of the fingerprints

`Simhasher` hashes keywords with `hashlittle2` (`lib/simhash/jenkins.h`). On a little-endian machine
the function reads the key in 32-bit or 16-bit words when its address allows it, and byte by byte
otherwise. With 32-bit words it reads up to three bytes behind the key, and masks them off.

**Theorem (`hash_congr`).** The hash depends only on the bytes of the key: not on its address,
not on the byte order of the machine, and not on what is behind the key.
-/

namespace SearchServer.Jenkins

/-- The internal state. -/
@[ext]
structure Lanes where
  a : UInt32
  b : UInt32
  c : UInt32

/-- The bytes from the key on, and those behind it. -/
abbrev Memory := ℕ → UInt8

def rot (x k : UInt32) : UInt32 := (x <<< k) ||| (x >>> (32 - k))

def mix (s : Lanes) : Lanes :=
  let a := s.a - s.c
  let a := a ^^^ rot s.c 4
  let c := s.c + s.b
  let b := s.b - a
  let b := b ^^^ rot a 6
  let a := a + c
  let c := c - b
  let c := c ^^^ rot b 8
  let b := b + a
  let a := a - c
  let a := a ^^^ rot c 16
  let c := c + b
  let b := b - a
  let b := b ^^^ rot a 19
  let a := a + c
  let c := c - b
  let c := c ^^^ rot b 4
  let b := b + a
  ⟨a, b, c⟩

def final (s : Lanes) : Lanes :=
  let c := s.c ^^^ s.b
  let c := c - rot s.b 14
  let a := s.a ^^^ c
  let a := a - rot c 11
  let b := s.b ^^^ a
  let b := b - rot a 25
  let c := c ^^^ b
  let c := c - rot b 16
  let a := a ^^^ c
  let a := a - rot c 4
  let b := b ^^^ a
  let b := b - rot a 14
  let c := c ^^^ b
  let c := c - rot b 24
  ⟨a, b, c⟩

/-! ## The three ways to read -/

/-- The bytes `k[i]`, and the little-endian words of 16 and 32 bits that begin there. -/
def read8 (k : Memory) (i : ℕ) : UInt32 := (k i).toUInt32

def read16 (k : Memory) (i : ℕ) : UInt32 := read8 k i + (read8 k (i + 1) <<< 8)

def read32 (k : Memory) (i : ℕ) : UInt32 :=
  read8 k i + (read8 k (i + 1) <<< 8) + (read8 k (i + 2) <<< 16) + (read8 k (i + 3) <<< 24)

/-- How a block of 12 bytes, and the last block, are added to the state. -/
structure Reader where
  block : Memory → Lanes → Lanes
  last : Memory → ℕ → Lanes → Lanes

/-- Read 32-bit chunks. -/
def reader32 : Reader where
  block k s := ⟨s.a + read32 k 0, s.b + read32 k 4, s.c + read32 k 8⟩
  last k length s :=
    match length with
    | 12 => ⟨s.a + read32 k 0, s.b + read32 k 4, s.c + read32 k 8⟩
    | 11 => ⟨s.a + read32 k 0, s.b + read32 k 4, s.c + (read32 k 8 &&& 0xffffff)⟩
    | 10 => ⟨s.a + read32 k 0, s.b + read32 k 4, s.c + (read32 k 8 &&& 0xffff)⟩
    | 9 => ⟨s.a + read32 k 0, s.b + read32 k 4, s.c + (read32 k 8 &&& 0xff)⟩
    | 8 => ⟨s.a + read32 k 0, s.b + read32 k 4, s.c⟩
    | 7 => ⟨s.a + read32 k 0, s.b + (read32 k 4 &&& 0xffffff), s.c⟩
    | 6 => ⟨s.a + read32 k 0, s.b + (read32 k 4 &&& 0xffff), s.c⟩
    | 5 => ⟨s.a + read32 k 0, s.b + (read32 k 4 &&& 0xff), s.c⟩
    | 4 => ⟨s.a + read32 k 0, s.b, s.c⟩
    | 3 => ⟨s.a + (read32 k 0 &&& 0xffffff), s.b, s.c⟩
    | 2 => ⟨s.a + (read32 k 0 &&& 0xffff), s.b, s.c⟩
    | 1 => ⟨s.a + (read32 k 0 &&& 0xff), s.b, s.c⟩
    | _ => s

/-- Read 16-bit chunks. -/
def reader16 : Reader where
  block k s := ⟨s.a + (read16 k 0 + (read16 k 2 <<< 16)), s.b + (read16 k 4 + (read16 k 6 <<< 16)),
    s.c + (read16 k 8 + (read16 k 10 <<< 16))⟩
  last k length s :=
    let a := s.a + (read16 k 0 + (read16 k 2 <<< 16))
    let b := s.b + (read16 k 4 + (read16 k 6 <<< 16))
    match length with
    | 12 => ⟨a, b, s.c + (read16 k 8 + (read16 k 10 <<< 16))⟩
    | 11 => ⟨a, b, s.c + (read8 k 10 <<< 16) + read16 k 8⟩
    | 10 => ⟨a, b, s.c + read16 k 8⟩
    | 9 => ⟨a, b, s.c + read8 k 8⟩
    | 8 => ⟨a, b, s.c⟩
    | 7 => ⟨a, s.b + (read8 k 6 <<< 16) + read16 k 4, s.c⟩
    | 6 => ⟨a, s.b + read16 k 4, s.c⟩
    | 5 => ⟨a, s.b + read8 k 4, s.c⟩
    | 4 => ⟨a, s.b, s.c⟩
    | 3 => ⟨s.a + (read8 k 2 <<< 16) + read16 k 0, s.b, s.c⟩
    | 2 => ⟨s.a + read16 k 0, s.b, s.c⟩
    | 1 => ⟨s.a + read8 k 0, s.b, s.c⟩
    | _ => s

/-- Read the key one byte at a time. In the last block all the cases fall through. -/
def reader8 : Reader where
  block k s := ⟨s.a + read8 k 0 + (read8 k 1 <<< 8) + (read8 k 2 <<< 16) + (read8 k 3 <<< 24),
    s.b + read8 k 4 + (read8 k 5 <<< 8) + (read8 k 6 <<< 16) + (read8 k 7 <<< 24),
    s.c + read8 k 8 + (read8 k 9 <<< 8) + (read8 k 10 <<< 16) + (read8 k 11 <<< 24)⟩
  last k length s :=
    let c := if 12 ≤ length then s.c + (read8 k 11 <<< 24) else s.c
    let c := if 11 ≤ length then c + (read8 k 10 <<< 16) else c
    let c := if 10 ≤ length then c + (read8 k 9 <<< 8) else c
    let c := if 9 ≤ length then c + read8 k 8 else c
    let b := if 8 ≤ length then s.b + (read8 k 7 <<< 24) else s.b
    let b := if 7 ≤ length then b + (read8 k 6 <<< 16) else b
    let b := if 6 ≤ length then b + (read8 k 5 <<< 8) else b
    let b := if 5 ≤ length then b + read8 k 4 else b
    let a := if 4 ≤ length then s.a + (read8 k 3 <<< 24) else s.a
    let a := if 3 ≤ length then a + (read8 k 2 <<< 16) else a
    let a := if 2 ≤ length then a + (read8 k 1 <<< 8) else a
    let a := if 1 ≤ length then a + read8 k 0 else a
    ⟨a, b, c⟩

/-! ## The hash -/

/-- The loop over the blocks, and the last block. The results are `*pc` and `*pb`. -/
def run (r : Reader) (k : Memory) (length : ℕ) (s : Lanes) : UInt32 × UInt32 :=
  if 12 < length then run r (fun i => k (i + 12)) (length - 12) (mix (r.block k s))
  else if length = 0 then (s.c, s.b)
  else
    let s := final (r.last k length s)
    (s.c, s.b)
termination_by length

/-- `hashlittle2`, for a key at the address `key`. -/
def hashlittle2 (littleEndian : Bool) (key : ℕ) (k : Memory) (length : ℕ) (pc pb : UInt32) :
    UInt32 × UInt32 :=
  let a := 0xdeadbeef + UInt32.ofNat length + pc
  let s : Lanes := ⟨a, a, a + pb⟩
  if littleEndian ∧ key % 4 = 0 then run reader32 k length s
  else if littleEndian ∧ key % 2 = 0 then run reader16 k length s
  else run reader8 k length s

/-- `jenkins::operator()`. -/
def hash (littleEndian : Bool) (data : ℕ) (k : Memory) (len : ℕ) (s : UInt64) : UInt64 :=
  let ab := hashlittle2 littleEndian data k len (s >>> 32).toUInt32 (s &&& 0xffffffff).toUInt32
  (ab.1.toUInt64 <<< 32) ||| ab.2.toUInt64

/-! ## Masks -/

theorem toNat_read8 (k : Memory) (i : ℕ) : (read8 k i).toNat < 256 := by
  rw [read8, UInt8.toNat_toUInt32]
  exact UInt8.toNat_lt _

theorem toNat_shl (x : UInt32) {k : UInt32} {n : ℕ} (hk : k.toNat % 32 = n) :
    (x <<< k).toNat = x.toNat * 2 ^ n % 4294967296 := by
  rw [UInt32.toNat_shiftLeft, hk, Nat.shiftLeft_eq]

theorem toNat_read32 (k : Memory) (i : ℕ) : (read32 k i).toNat = (read8 k i).toNat +
    (read8 k (i + 1)).toNat * 256 + (read8 k (i + 2)).toNat * 65536 +
      (read8 k (i + 3)).toNat * 16777216 := by
  have h := toNat_read8 k
  have h₀ := h i
  have h₁ := h (i + 1)
  have h₂ := h (i + 2)
  have h₃ := h (i + 3)
  rw [read32, UInt32.toNat_add, UInt32.toNat_add, UInt32.toNat_add, toNat_shl _ (n := 8) rfl,
    toNat_shl _ (n := 16) rfl, toNat_shl _ (n := 24) rfl]
  omega

theorem toNat_read16 (k : Memory) (i : ℕ) :
    (read16 k i).toNat = (read8 k i).toNat + (read8 k (i + 1)).toNat * 256 := by
  have h₀ := toNat_read8 k i
  have h₁ := toNat_read8 k (i + 1)
  rw [read16, UInt32.toNat_add, toNat_shl _ (n := 8) rfl]
  omega

/-- A mask leaves the low bytes. -/
theorem toNat_and_low (x : UInt32) {n : ℕ} (m : UInt32) (hm : m.toNat = 2 ^ n - 1) :
    (x &&& m).toNat = x.toNat % 2 ^ n := by
  rw [UInt32.toNat_and, hm, Nat.and_two_pow_sub_one_eq_mod]

theorem read32_and_8 (k : Memory) (i : ℕ) : read32 k i &&& 0xff = read8 k i := by
  have h := toNat_read8 k i
  refine UInt32.toNat_inj.mp ?_
  rw [toNat_and_low (n := 8) _ _ rfl, toNat_read32]
  omega

theorem read32_and_16 (k : Memory) (i : ℕ) : read32 k i &&& 0xffff = read16 k i := by
  have h := toNat_read8 k i
  have h₁ := toNat_read8 k (i + 1)
  refine UInt32.toNat_inj.mp ?_
  rw [toNat_and_low (n := 16) _ _ rfl, toNat_read32, toNat_read16]
  omega

theorem read32_and_24 (k : Memory) (i : ℕ) :
    read32 k i &&& (0xffffff : UInt32) = read16 k i + (read8 k (i + 2) <<< 16) := by
  have h := toNat_read8 k i
  have h₁ := toNat_read8 k (i + 1)
  have h₂ := toNat_read8 k (i + 2)
  refine UInt32.toNat_inj.mp ?_
  rw [toNat_and_low (n := 24) _ _ rfl, toNat_read32, UInt32.toNat_add, toNat_read16,
    toNat_shl _ (n := 16) rfl]
  omega

theorem read32_eq_read16 (k : Memory) (i : ℕ) :
    read32 k i = read16 k i + (read16 k (i + 2) <<< 16) := by
  have h₀ := toNat_read8 k i
  have h₁ := toNat_read8 k (i + 1)
  have h₂ := toNat_read8 k (i + 2)
  have h₃ := toNat_read8 k (i + 3)
  refine UInt32.toNat_inj.mp ?_
  rw [toNat_read32, UInt32.toNat_add, toNat_shl _ (n := 16) rfl, toNat_read16, toNat_read16,
    show i + 2 + 1 = i + 3 from rfl]
  omega

/-! ## The readers agree -/

/-- The sum of the first `n` of four numbers. -/
def sumTo (p q r t : UInt32) : ℕ → UInt32
  | 0 => 0
  | 1 => p
  | 2 => p + q
  | 3 => p + q + r
  | _ => p + q + r + t

/-- The first `n` bytes of a word. -/
def part (k : Memory) (i n : ℕ) : UInt32 :=
  sumTo (read8 k i) (read8 k (i + 1) <<< 8) (read8 k (i + 2) <<< 16) (read8 k (i + 3) <<< 24) n

/-- What the last block adds to the state. -/
def addLast (k : Memory) (length : ℕ) (s : Lanes) : Lanes :=
  ⟨s.a + part k 0 length, s.b + part k 4 (length - 4), s.c + part k 8 (length - 8)⟩

/-- The cases that fall through, for one word. -/
theorem add_sumTo (x p q r t : UInt32) (n : ℕ) :
    (let x := if 4 ≤ n then x + t else x
     let x := if 3 ≤ n then x + r else x
     let x := if 2 ≤ n then x + q else x
     if 1 ≤ n then x + p else x) = x + sumTo p q r t n := by
  match n with
  | 0 => exact (UInt32.add_zero x).symm
  | 1 => rfl
  | 2 =>
    show x + q + p = x + (p + q)
    ac_rfl
  | 3 =>
    show x + r + q + p = x + (p + q + r)
    ac_rfl
  | n + 4 =>
    dsimp only
    rw [if_pos (by omega), if_pos (by omega), if_pos (by omega), if_pos (by omega)]
    show x + t + r + q + p = x + (p + q + r + t)
    ac_rfl

theorem last_reader8 (k : Memory) (length : ℕ) (s : Lanes) :
    reader8.last k length s = addLast k length s := by
  have h : ∀ m n, 0 < n → ((n ≤ length - m) ↔ n + m ≤ length) := fun m n hn => by omega
  simp only [reader8, addLast, part, ← add_sumTo, h 4 4 (by decide), h 4 3 (by decide),
    h 4 2 (by decide), h 4 1 (by decide), h 8 4 (by decide), h 8 3 (by decide), h 8 2 (by decide),
    h 8 1 (by decide)]

theorem last_reader32 (k : Memory) {length : ℕ} (hle : length ≤ 12) (s : Lanes) :
    reader32.last k length s = addLast k length s := by
  simp only [reader32, addLast, read32_and_8, read32_and_16, read32_and_24]
  interval_cases length <;> simp only [part, Nat.reduceSub, sumTo, UInt32.add_zero] <;> rfl

theorem last_reader16 (k : Memory) {length : ℕ} (hle : length ≤ 12) (s : Lanes) :
    reader16.last k length s = addLast k length s := by
  have hswap : ∀ x y z : UInt32, x + y + z = x + (z + y) := fun x y z => by ac_rfl
  simp only [reader16, addLast, ← read32_eq_read16, hswap]
  interval_cases length <;> simp only [part, Nat.reduceSub, sumTo, UInt32.add_zero] <;> rfl

/-- A reader adds the bytes of a block, and those of the key in the last block. -/
def AddsBytes (r : Reader) : Prop :=
  (∀ k s, r.block k s = addLast k 12 s) ∧
    ∀ k length s, length ≤ 12 → r.last k length s = addLast k length s

theorem addsBytes_reader32 : AddsBytes reader32 :=
  ⟨fun _ _ => rfl, fun k _ s hle => last_reader32 k hle s⟩

theorem addsBytes_reader16 : AddsBytes reader16 := by
  refine ⟨fun k s => ?_, fun k _ s hle => last_reader16 k hle s⟩
  simp only [reader16, ← read32_eq_read16]
  rfl

theorem addsBytes_reader8 : AddsBytes reader8 := by
  refine ⟨fun k s => ?_, fun k length s _ => last_reader8 k length s⟩
  simp only [reader8, UInt32.add_assoc]
  simp only [addLast, part, Nat.reduceSub, sumTo, UInt32.add_assoc]

/-! ## The hash depends on the key alone -/

theorem part_congr {k k' : Memory} {i n : ℕ} (hn : n ≤ 4)
    (h : ∀ j < n, k (i + j) = k' (i + j)) : part k i n = part k' i n := by
  have hzero : 0 < n → k i = k' i := h 0
  interval_cases n
  · rfl
  · simp only [part, sumTo, read8, hzero (by decide)]
  · simp only [part, sumTo, read8, hzero (by decide), h 1 (by decide)]
  · simp only [part, sumTo, read8, hzero (by decide), h 1 (by decide), h 2 (by decide)]
  · simp only [part, sumTo, read8, hzero (by decide), h 1 (by decide), h 2 (by decide),
      h 3 (by decide)]

/-- Only the first four bytes are used. -/
theorem part_eq_min (k : Memory) (i n : ℕ) : part k i n = part k i (min n 4) := by
  match n with
  | 0 | 1 | 2 | 3 => rfl
  | n + 4 =>
    rw [Nat.min_eq_right (by omega)]
    rfl

theorem addLast_congr {k k' : Memory} {length : ℕ} (h : ∀ i < length, k i = k' i) (s : Lanes) :
    addLast k length s = addLast k' length s := by
  have hpart : ∀ i, part k i (length - i) = part k' i (length - i) := fun i => by
    rw [part_eq_min k, part_eq_min k']
    exact part_congr (Nat.min_le_right _ _) fun j hj => h _ (by omega)
  rw [addLast, addLast, hpart 4, hpart 8]
  exact congrArg (fun a => Lanes.mk (s.a + a) _ _) (hpart 0)

/-- **Two readers** find the same hash of a key. -/
theorem run_congr {r r' : Reader} (hr : AddsBytes r) (hr' : AddsBytes r') {k k' : Memory}
    {length : ℕ} (h : ∀ i < length, k i = k' i) (s : Lanes) :
    run r k length s = run r' k' length s := by
  induction hn : length using Nat.strong_induction_on generalizing length k k' s with
  | _ n ih =>
    subst hn
    rw [run, run.eq_def r']
    by_cases hlt : 12 < length
    · have hblock : addLast k 12 s = addLast k' 12 s :=
        addLast_congr (fun i hi => h i (by omega)) s
      rw [if_pos hlt, if_pos hlt, hr.1, hr'.1, hblock]
      exact ih (length - 12) (by omega) (fun i hi => h (i + 12) (by omega)) _ rfl
    · rw [if_neg hlt, if_neg hlt, hr.2 k length s (by omega), hr'.2 k' length s (by omega),
        addLast_congr h s]

theorem hashlittle2_eq (littleEndian : Bool) (key : ℕ) (k : Memory) (length : ℕ) (pc pb : UInt32) :
    ∃ r, AddsBytes r ∧ hashlittle2 littleEndian key k length pc pb =
      run r k length ⟨0xdeadbeef + UInt32.ofNat length + pc, 0xdeadbeef + UInt32.ofNat length + pc,
        0xdeadbeef + UInt32.ofNat length + pc + pb⟩ := by
  rw [hashlittle2]
  split_ifs
  · exact ⟨_, addsBytes_reader32, rfl⟩
  · exact ⟨_, addsBytes_reader16, rfl⟩
  · exact ⟨_, addsBytes_reader8, rfl⟩

/-- **The hash depends only on the bytes of the key.** -/
theorem hash_congr {k k' : Memory} {len : ℕ} (h : ∀ i < len, k i = k' i)
    (littleEndian littleEndian' : Bool) (data data' : ℕ) (s : UInt64) :
    hash littleEndian data k len s = hash littleEndian' data' k' len s := by
  obtain ⟨r, hr, heq⟩ := hashlittle2_eq littleEndian data k len (s >>> 32).toUInt32
    (s &&& 0xffffffff).toUInt32
  obtain ⟨r', hr', heq'⟩ := hashlittle2_eq littleEndian' data' k' len (s >>> 32).toUInt32
    (s &&& 0xffffffff).toUInt32
  rw [hash, hash, heq, heq', run_congr hr hr' h]

/-- The key "word", at an aligned address with zeros behind it, and at an odd one with other bytes. -/
theorem hash_congr_word :
    hash true 64 (fun i => (lit "word").getD i 0) 4 0 =
      hash true 65 (fun i => (lit "words").getD i 255) 4 0 :=
  hash_congr (by decide) true true 64 65 0

end SearchServer.Jenkins

import SearchServer.Base.AsyncLogging
import SearchServer.Base.Convert
import SearchServer.Lib.FloatText
import SearchServer.Lib.Runs

/-!
# The log stream

`LogStream` (`base/LogStream.cc`) writes the pieces of a log record to a `FixedBuffer` of 4000 bytes
(`base/FixedBuffer.h`). Here the buffer is its array and the position `_cur`, and an operation that
writes outside of the array, or reads outside of its argument, has no result.

* `append` compares the bytes left with the length of the piece converted to `int`.
* Numbers are written at `_cur` when there are 32 bytes left, with no further check.

**Theorem (`writes_inside_iff`).** In a sequence of operations all writes are inside the array, the
position stays below 4000 and pieces that do not fit leave the buffer as it is, exactly if no
operation appends a piece whose length is at least the bytes left while it is less than those as an
`int` (`Op.Checked`). This can only happen from 2^31 bytes on, and for a negative `int`:
`string_overflows` is a run that copies 2^31 bytes into the array.

Under that condition the bytes of the buffer are the pieces one after the other, less those that did
not fit (`put_spec`, `Piece.emit`).

**Theorem (`refines_of_exec`).** The buffer in memory refines the `FixedBuffer` of the asynchronous
log, in every sequence of its operations on pieces below 2^31 bytes.
-/

namespace SearchServer

def kSmallBuffer : ℕ := 4000

/-- An `int` converted to `size_t`. -/
def sizeOfInt (n : ℤ) : ℕ := (n % 2 ^ 64).toNat

/-- A `FixedBuffer` in memory: the array `_data`, and the position of `_cur` in it. -/
structure RawFixedBuffer (size : ℕ) where
  array : Bytes
  cur : ℕ
  length_array : array.length = size
deriving DecidableEq

namespace RawFixedBuffer

variable {size : ℕ}

/-- The constructor. The array has what was in memory. -/
def new (array : Bytes) (h : array.length = size) : RawFixedBuffer size := ⟨array, 0, h⟩

def avail (b : RawFixedBuffer size) : ℤ := wrapInt (size - b.cur)

def length (b : RawFixedBuffer size) : ℤ := wrapInt b.cur

/-- The bytes from `data()` to `current()`. -/
def data (b : RawFixedBuffer size) : Bytes := b.array.take b.cur

/-- Write bytes at `current()`. -/
def write (b : RawFixedBuffer size) (bytes : Bytes) : Option (RawFixedBuffer size) :=
  if h : b.cur + bytes.length ≤ size then
    some ⟨b.array.take b.cur ++ (bytes ++ b.array.drop (b.cur + bytes.length)), b.cur, by
      have := b.length_array
      rw [List.length_append, List.length_append, List.length_take, List.length_drop]
      omega⟩
  else none

def add (b : RawFixedBuffer size) (len : ℕ) : RawFixedBuffer size := { b with cur := b.cur + len }

/-- `append`. The `memcpy` reads `len` bytes of `buf`. -/
def append (b : RawFixedBuffer size) (buf : Bytes) (len : ℕ) : Option (RawFixedBuffer size) :=
  if wrapInt len < b.avail then
    if len ≤ buf.length then (b.write (buf.take len)).map (·.add len) else none
  else some b

/-! ## One write -/

theorem length_data {b : RawFixedBuffer size} (h : b.cur ≤ size) : b.data.length = b.cur := by
  rw [data, List.length_take, b.length_array, Nat.min_eq_left h]

theorem avail_eq (hsize : size < 2 ^ 31) {b : RawFixedBuffer size} (h : b.cur ≤ size) :
    b.avail = size - b.cur := by
  have hcast : (size : ℤ) - b.cur = (size - b.cur : ℕ) := by omega
  rw [avail, hcast, wrapInt_natCast (by omega)]

/-- What was written is added to the data, up to `len` bytes. -/
theorem write_spec {b : RawFixedBuffer size} {bytes : Bytes} (h : b.cur + bytes.length ≤ size)
    {len : ℕ} (hlen : len ≤ bytes.length) :
    ∃ b', b.write bytes = some b' ∧ b'.cur = b.cur ∧
      (b'.add len).data = b.data ++ bytes.take len := by
  refine ⟨_, dif_pos h, rfl, ?_⟩
  have hpre : (b.array.take b.cur).length = b.cur := length_data (by omega)
  show (b.array.take b.cur ++ _).take (b.cur + len) = b.array.take b.cur ++ bytes.take len
  rw [List.take_append, hpre, List.take_of_length_le (by omega), Nat.add_sub_cancel_left,
    List.take_append_of_le_length hlen]

theorem write_eq_none {b : RawFixedBuffer size} {bytes : Bytes}
    (h : size < b.cur + bytes.length) : b.write bytes = none := dif_neg (by omega)

/-! ## `append` -/

/-- The comparison of `append` is right for this length: the piece is shorter than the bytes left,
or it is not, also as an `int`. -/
def Checked (b : RawFixedBuffer size) (len : ℕ) : Prop :=
  (len : ℤ) < b.avail ∨ b.avail ≤ wrapInt len

instance (b : RawFixedBuffer size) (len : ℕ) : Decidable (b.Checked len) :=
  inferInstanceAs (Decidable (_ ∨ _))

theorem checked_of_lt (b : RawFixedBuffer size) {len : ℕ} (h : len < 2 ^ 31) : b.Checked len := by
  unfold Checked
  rw [wrapInt_natCast h]
  exact lt_or_ge _ _

theorem append_full {b : RawFixedBuffer size} {buf : Bytes} {len : ℕ}
    (hchecked : b.Checked len) (hfull : b.avail ≤ len) : b.append buf len = some b := by
  refine if_neg (not_lt.mpr ?_)
  exact hchecked.resolve_left (not_lt.mpr hfull)

section

variable (hsize : size < 2 ^ 31) {b : RawFixedBuffer size} (hcur : b.cur < size)
include hsize hcur

theorem append_fits {buf : Bytes} {len : ℕ} (hbuf : len ≤ buf.length)
    (hfits : (len : ℤ) < b.avail) :
    ∃ b', b.append buf len = some b' ∧ b'.cur < size ∧ b'.data = b.data ++ buf.take len := by
  have havail := avail_eq hsize hcur.le
  have hlen : (buf.take len).length = len := by rw [List.length_take, Nat.min_eq_left hbuf]
  have hroom : b.cur + (buf.take len).length ≤ size := by omega
  obtain ⟨b', hwrite, hb', hdata⟩ := write_spec hroom (le_of_eq hlen.symm)
  refine ⟨b'.add len, ?_, ?_, ?_⟩
  · rw [append, if_pos (by rwa [wrapInt_natCast (by omega)]), if_pos hbuf, hwrite, Option.map_some]
  · show b'.cur + len < size
    omega
  · rw [hdata, List.take_take, Nat.min_self]

/-- A length that passes the comparison by wrapping around. -/
theorem append_eq_none {buf : Bytes} {len : ℕ} (hchecked : ¬ b.Checked len) :
    b.append buf len = none := by
  have havail := avail_eq hsize hcur.le
  obtain ⟨hlong, hwrapped⟩ := not_or.mp hchecked
  rw [append, if_pos (not_le.mp hwrapped)]
  split_ifs with hbuf
  · have hlen : (buf.take len).length = len := by rw [List.length_take, Nat.min_eq_left hbuf]
    -- The length is not what is left, as it would be the same as an `int`.
    have hne : (len : ℤ) ≠ b.avail := by
      intro heq
      rw [wrapInt_natCast (by omega)] at hwrapped
      exact hwrapped (le_of_eq heq.symm)
    rw [write_eq_none (by omega), Option.map_none]
  · rfl

end

end RawFixedBuffer

/-! ## The buffers of the asynchronous log -/

/-- What `AsyncLogging` does with a buffer. -/
inductive FixedBufferOp where
  | append (buf : Bytes)
  | reset

/-- The number of bytes that it appends. -/
def FixedBufferOp.size : FixedBufferOp → ℕ
  | append buf => buf.length
  | reset => 0

def FixedBuffer.applyOp {size : ℕ} (c : FixedBuffer size) : FixedBufferOp → FixedBuffer size
  | .append buf => c.append buf
  | .reset => c.reset

namespace RawFixedBuffer

variable {size : ℕ}

def reset (b : RawFixedBuffer size) : RawFixedBuffer size := { b with cur := 0 }

def applyOp (b : RawFixedBuffer size) : FixedBufferOp → Option (RawFixedBuffer size)
  | .append buf => b.append buf buf.length
  | .reset => some b.reset

/-- The buffer in memory holds the bytes of the other one. -/
structure Refines (b : RawFixedBuffer size) (c : FixedBuffer size) : Prop where
  cur_lt : b.cur < size
  data : b.data = c.data

variable {b : RawFixedBuffer size} {c : FixedBuffer size}

theorem refines_new (hpos : 0 < size) {array : Bytes} (h : array.length = size) :
    (new array h).Refines .new := ⟨hpos, rfl⟩

theorem Refines.avail_eq (hsize : size < 2 ^ 31) (h : b.Refines c) : b.avail = c.avail := by
  have hlen : c.length = b.cur := by rw [FixedBuffer.length, ← h.data, length_data h.cur_lt.le]
  rw [RawFixedBuffer.avail_eq hsize h.cur_lt.le, FixedBuffer.avail, hlen, Nat.cast_sub h.cur_lt.le]

theorem Refines.append (hsize : size < 2 ^ 31) (h : b.Refines c) {buf : Bytes}
    (hchecked : b.Checked buf.length) :
    ∃ b', b.append buf buf.length = some b' ∧ b'.Refines (c.append buf) := by
  have havail := h.avail_eq hsize
  by_cases hfits : buf.length < c.avail
  · obtain ⟨b', happend, hcur, hdata⟩ := append_fits hsize h.cur_lt le_rfl
      (show (buf.length : ℤ) < b.avail by omega)
    refine ⟨b', happend, hcur, ?_⟩
    rw [hdata, List.take_length, h.data, FixedBuffer.data_append, if_pos hfits]
  · refine ⟨b, append_full hchecked (by omega), h.cur_lt, ?_⟩
    rw [h.data, FixedBuffer.data_append, if_neg hfits]

/-- **A run of a buffer in memory** is a run of the buffer that is a list of bytes, as long as no
piece is longer than an `int`. -/
theorem refines_of_exec (hsize : size < 2 ^ 31) (h : b.Refines c) {ops : List FixedBufferOp}
    (hshort : ∀ op ∈ ops, op.size < 2 ^ 31) :
    ∃ b', exec applyOp b ops = some b' ∧ b'.Refines (ops.foldl FixedBuffer.applyOp c) ∧
      b'.avail = (ops.foldl FixedBuffer.applyOp c).avail := by
  induction ops generalizing b c with
  | nil => exact ⟨b, rfl, h, h.avail_eq hsize⟩
  | cons op ops ih =>
    obtain ⟨hfirst, hrest⟩ := List.forall_mem_cons.mp hshort
    obtain ⟨b', hop, h'⟩ : ∃ b', b.applyOp op = some b' ∧ b'.Refines (c.applyOp op) := by
      cases op with
      | append buf => exact h.append hsize (b.checked_of_lt hfirst)
      | reset => exact ⟨b.reset, rfl, Nat.zero_lt_of_lt h.cur_lt, rfl⟩
    rw [exec, hop, Option.bind_some]
    exact ih h' hrest

/-- A buffer is filled, reset and filled again. -/
def refilled : List FixedBufferOp :=
  [.append (lit "one\n"), .append (lit "two\n"), .reset, .append (lit "three\n")]

theorem refines_of_exec_refilled :
    ∃ b', exec applyOp (new (List.replicate kLargeBuffer 0) List.length_replicate) refilled =
        some b' ∧ b'.data = lit "three\n" ∧ b'.avail = 3999994 := by
  have hnew : (new (List.replicate kLargeBuffer 0) List.length_replicate).Refines .new :=
    refines_new (by decide) List.length_replicate
  have hshort : ∀ op ∈ refilled, op.size < 2 ^ 31 := by decide
  obtain ⟨b', hexec, hrefines, havail⟩ := refines_of_exec (by decide) hnew hshort
  exact ⟨b', hexec, hrefines.data, havail⟩

end RawFixedBuffer

/-! ## The operators -/

/-- The stream, which has the buffer as its only member. -/
abbrev LogStream := RawFixedBuffer kSmallBuffer

namespace LogStream

def kMaxNumericSize : ℕ := 32

/-- What `snprintf` writes to a buffer of `size` bytes for this text. -/
def snprintf (size : ℕ) (text : Bytes) : Bytes := text.take (size - 1) ++ [NUL]

def formatInteger (s : LogStream) (t : IntegerType) (v : BitVec t.width) : Option LogStream :=
  if (kMaxNumericSize : ℤ) ≤ s.avail then do
    let (buf, len) ← convert t v
    let s ← s.write buf
    return s.add len
  else some s

/-- `operator<<` on `double`, with the length that `snprintf` returns. -/
def formatDouble (s : LogStream) (v : FloatValue binary64) : Option LogStream :=
  if (kMaxNumericSize : ℤ) ≤ s.avail then do
    let s ← s.write (snprintf kMaxNumericSize (v.format 12))
    return s.add (v.format 12).length
  else some s

/-- The overloads of `operator<<`, and `append`. The data of `append` has `len` bytes at least. -/
inductive Op where
  | bool (v : Bool)
  | short (v : BitVec 16)
  | unsignedShort (v : BitVec 16)
  | int (v : BitVec 32)
  | unsignedInt (v : BitVec 32)
  | long (v : BitVec 64)
  | unsignedLong (v : BitVec 64)
  | longLong (v : BitVec 64)
  | unsignedLongLong (v : BitVec 64)
  | double (v : FloatValue binary64)
  | float (v : FloatValue binary32)
  | char (v : UInt8)
  /-- A C string; `none` is the null pointer. -/
  | cString (str : Option Bytes)
  | unsignedCString (str : Option Bytes)
  | string (v : Bytes)
  | buffer (v : FixedBuffer kSmallBuffer)
  | append (data : Bytes) (len : BitVec 32) (hlen : len.toInt ≤ data.length)

/-- `operator<<` on `const char *`. -/
def putCString (s : LogStream) (str : Option Bytes) : Option LogStream :=
  match str with
  | some str => s.append str (cStr str).length
  | none => s.append (lit "(null)") 6

/-- One operation on the stream. -/
def put (s : LogStream) : Op → Option LogStream
  | .bool v => s.append (if v then lit "1" else lit "0") 1
  | .short v => formatInteger s .int (v.signExtend 32)
  | .unsignedShort v => formatInteger s .int (v.setWidth 32)
  | .int v => formatInteger s .int v
  | .unsignedInt v => formatInteger s .unsignedInt v
  | .long v => formatInteger s .long v
  | .unsignedLong v => formatInteger s .unsignedLong v
  | .longLong v => formatInteger s .longLong v
  | .unsignedLongLong v => formatInteger s .unsignedLongLong v
  | .double v => formatDouble s v
  | .float v => formatDouble s (v.widen binary32_extends)
  | .char v => s.append [v] 1
  | .cString str => putCString s str
  | .unsignedCString str => putCString s str
  | .string v => s.append v v.length
  | .buffer v => s.append v.data v.length
  | .append data len _ => s.append data (sizeOfInt len.toInt)

/-! ## Pieces

An operation adds a text, or the text of a number. -/

/-- What an operation adds: `len` bytes of a buffer, or the text of a number. -/
inductive Piece where
  | text (buf : Bytes) (len : ℕ)
  | number (digits : Bytes)

def cStringPiece (str : Option Bytes) : Piece :=
  match str with
  | some str => .text str (cStr str).length
  | none => .text (lit "(null)") 6

def Op.piece : Op → Piece
  | .bool v => .text (if v then lit "1" else lit "0") 1
  | .short v => .number (decimal (IntegerType.int.toInt (v.signExtend 32)))
  | .unsignedShort v => .number (decimal (IntegerType.int.toInt (v.setWidth 32)))
  | .int v => .number (decimal (IntegerType.int.toInt v))
  | .unsignedInt v => .number (decimal (IntegerType.unsignedInt.toInt v))
  | .long v => .number (decimal (IntegerType.long.toInt v))
  | .unsignedLong v => .number (decimal (IntegerType.unsignedLong.toInt v))
  | .longLong v => .number (decimal (IntegerType.longLong.toInt v))
  | .unsignedLongLong v => .number (decimal (IntegerType.unsignedLongLong.toInt v))
  | .double v => .number (v.format 12)
  | .float v => .number ((v.widen binary32_extends).format 12)
  | .char v => .text [v] 1
  | .cString str => cStringPiece str
  | .unsignedCString str => cStringPiece str
  | .string v => .text v v.length
  | .buffer v => .text v.data v.length
  | .append data len _ => .text data (sizeOfInt len.toInt)

/-- Write a number of at most 31 bytes, with a NUL. -/
def putNumber (s : LogStream) (digits : Bytes) : Option LogStream :=
  if (kMaxNumericSize : ℤ) ≤ s.avail then (s.write (digits ++ [NUL])).map (·.add digits.length)
  else some s

namespace Piece

def size : Piece → ℕ
  | text _ len => len
  | number digits => digits.length

def bytes : Piece → Bytes
  | text buf len => buf.take len
  | number digits => digits

/-- The bytes that must be left for the piece. -/
def space : Piece → ℕ
  | text _ len => len + 1
  | number _ => kMaxNumericSize

/-- The comparison of `append` is right for the length of the piece. Numbers are not compared. -/
def Checked (s : LogStream) : Piece → Prop
  | text _ len => RawFixedBuffer.Checked s len
  | number _ => True

/-- Add the piece to the bytes of the stream when there is room for it. -/
def emit (t : Bytes) (p : Piece) : Bytes :=
  if t.length + p.space ≤ kSmallBuffer then t ++ p.bytes else t

def put (s : LogStream) : Piece → Option LogStream
  | text buf len => s.append buf len
  | number digits => putNumber s digits

/-- A text has its bytes, unless the length is a negative `int`, and a number fits into the space
that is reserved for it. -/
def WellFormed : Piece → Prop
  | text buf len => len ≤ buf.length ∨ 2 ^ 31 ≤ len ∧ wrapInt len < 0
  | number digits => digits.length < kMaxNumericSize

end Piece

theorem formatInteger_eq (s : LogStream) (t : IntegerType) (v : BitVec t.width) :
    formatInteger s t v = putNumber s (decimal (t.toInt v)) := by
  rw [formatInteger, putNumber, convert_eq]
  split_ifs
  · exact (Option.map_eq_bind ..).symm
  · rfl

theorem length_format_lt (v : FloatValue binary64) : (v.format 12).length < kMaxNumericSize :=
  Nat.lt_of_le_of_lt (FloatValue.length_format_binary64 (by norm_num) v) (by decide)

theorem formatDouble_eq (s : LogStream) (v : FloatValue binary64) :
    formatDouble s v = putNumber s (v.format 12) := by
  have hall : (v.format 12).take (kMaxNumericSize - 1) = v.format 12 :=
    List.take_of_length_le (Nat.le_sub_one_of_lt (length_format_lt v))
  rw [formatDouble, putNumber, snprintf, hall]
  split_ifs
  · exact (Option.map_eq_bind ..).symm
  · rfl

/-- Each operation puts its piece. -/
theorem put_eq (s : LogStream) (op : Op) : s.put op = op.piece.put s := by
  cases op with
  | short v => exact formatInteger_eq s .int _
  | unsignedShort v => exact formatInteger_eq s .int _
  | int v => exact formatInteger_eq s .int v
  | unsignedInt v => exact formatInteger_eq s .unsignedInt v
  | long v => exact formatInteger_eq s .long v
  | unsignedLong v => exact formatInteger_eq s .unsignedLong v
  | longLong v => exact formatInteger_eq s .longLong v
  | unsignedLongLong v => exact formatInteger_eq s .unsignedLongLong v
  | double v => exact formatDouble_eq s v
  | float v => exact formatDouble_eq s _
  | cString str => cases str <;> rfl
  | unsignedCString str => cases str <;> rfl
  | _ => rfl

theorem wellFormed_decimal (t : IntegerType) (ht : t.width ≤ 64) (v : BitVec t.width) :
    (Piece.number (decimal (t.toInt v))).WellFormed :=
  Nat.lt_of_le_of_lt (length_decimal_le ht v) (by decide)

theorem wellFormed_cStringPiece (str : Option Bytes) : (cStringPiece str).WellFormed := by
  cases str with
  | none => exact Or.inl (by decide)
  | some str => exact Or.inl (List.takeWhile_prefix _).length_le

theorem wellFormed_append {data : Bytes} {len : BitVec 32} (hlen : len.toInt ≤ data.length) :
    (Piece.text data (sizeOfInt len.toInt)).WellFormed := by
  have hlo : -2 ^ 32 ≤ 2 * len.toInt := BitVec.le_two_mul_toInt
  have hhi : 2 * len.toInt < 2 ^ 32 := BitVec.two_mul_toInt_lt
  unfold Piece.WellFormed sizeOfInt wrapInt
  by_cases h0 : 0 ≤ len.toInt
  · exact Or.inl (by omega)
  · exact Or.inr (by omega)

theorem Op.wellFormed (op : Op) : op.piece.WellFormed := by
  cases op with
  | bool v => cases v <;> exact Or.inl (by decide)
  | short v => exact wellFormed_decimal .int (by decide) _
  | unsignedShort v => exact wellFormed_decimal .int (by decide) _
  | int v => exact wellFormed_decimal .int (by decide) v
  | unsignedInt v => exact wellFormed_decimal .unsignedInt (by decide) v
  | long v => exact wellFormed_decimal .long (by decide) v
  | unsignedLong v => exact wellFormed_decimal .unsignedLong (by decide) v
  | longLong v => exact wellFormed_decimal .longLong (by decide) v
  | unsignedLongLong v => exact wellFormed_decimal .unsignedLongLong (by decide) v
  | double v => exact length_format_lt v
  | float v => exact length_format_lt _
  | char v => exact Or.inl le_rfl
  | cString str => exact wellFormed_cStringPiece str
  | unsignedCString str => exact wellFormed_cStringPiece str
  | string v => exact Or.inl le_rfl
  | buffer v => exact Or.inl le_rfl
  | append data len hlen => exact wellFormed_append hlen

/-! ## One operation -/

/-- The operation is not one that takes a length of 2^31 bytes or more, or a negative one, for a
small one. -/
def Op.Checked (s : LogStream) (op : Op) : Prop := op.piece.Checked s

/-- What the operations should do: write inside of the array, keep the position below its end, and
leave the buffer as it is when the piece does not fit. -/
def Safe (s : LogStream) (op : Op) : Prop :=
  ∃ s', s.put op = some s' ∧ s'.cur < kSmallBuffer ∧ (s.avail ≤ op.piece.size → s' = s)

theorem small_lt : kSmallBuffer < 2 ^ 31 := by decide

theorem Piece.size_lt_space {p : Piece} (hp : p.WellFormed) : p.size < p.space := by
  cases p with
  | text buf len => exact Nat.lt_succ_self len
  | number digits => exact hp

variable {s : LogStream} (hs : s.cur < kSmallBuffer)
include hs

theorem putNumber_spec {digits : Bytes} (hd : digits.length < kMaxNumericSize) :
    ∃ s', putNumber s digits = some s' ∧ s'.cur < kSmallBuffer ∧
      s'.data = (Piece.number digits).emit s.data ∧
      (kSmallBuffer < s.cur + kMaxNumericSize → s' = s) := by
  have havail := RawFixedBuffer.avail_eq small_lt hs.le
  have hlen := RawFixedBuffer.length_data hs.le
  show ∃ s', putNumber s digits = some s' ∧ s'.cur < kSmallBuffer ∧
    s'.data = (if s.data.length + kMaxNumericSize ≤ kSmallBuffer then s.data ++ digits
      else s.data) ∧ (kSmallBuffer < s.cur + kMaxNumericSize → s' = s)
  rw [hlen]
  unfold putNumber
  by_cases hroom : s.cur + kMaxNumericSize ≤ kSmallBuffer
  · have hbytes : (digits ++ [NUL]).length = digits.length + 1 := List.length_append
    have hwhole : s.cur + (digits ++ [NUL]).length ≤ kSmallBuffer := by omega
    have hle : digits.length ≤ (digits ++ [NUL]).length := by omega
    obtain ⟨s', hwrite, hcur, hdata⟩ := RawFixedBuffer.write_spec hwhole hle
    refine ⟨s'.add digits.length, ?_, ?_, ?_, fun hfull => absurd hroom (by omega)⟩
    · rw [if_pos (by omega), hwrite, Option.map_some]
    · show s'.cur + digits.length < kSmallBuffer
      omega
    · rw [if_pos hroom, hdata, List.take_left]
  · exact ⟨s, if_neg (by omega), hs, by rw [if_neg hroom], fun _ => rfl⟩

theorem Piece.put_spec {p : Piece} (hp : p.WellFormed) (hchecked : p.Checked s) :
    ∃ s', p.put s = some s' ∧ s'.cur < kSmallBuffer ∧ s'.data = p.emit s.data ∧
      (kSmallBuffer < s.cur + p.space → s' = s) := by
  cases p with
  | number digits => exact putNumber_spec hs hp
  | text buf len =>
    have havail := RawFixedBuffer.avail_eq small_lt hs.le
    have hlen := RawFixedBuffer.length_data hs.le
    show ∃ s', s.append buf len = some s' ∧ s'.cur < kSmallBuffer ∧
      s'.data = (if s.data.length + (len + 1) ≤ kSmallBuffer then s.data ++ buf.take len
        else s.data) ∧ (kSmallBuffer < s.cur + (len + 1) → s' = s)
    rw [hlen]
    by_cases hroom : s.cur + (len + 1) ≤ kSmallBuffer
    · have hbuf : len ≤ buf.length := by
        refine hp.resolve_right fun hneg => ?_
        have := small_lt
        omega
      obtain ⟨s', happend, hcur, hdata⟩ :=
        RawFixedBuffer.append_fits small_lt hs hbuf (by omega)
      exact ⟨s', happend, hcur, by rw [if_pos hroom, hdata], fun hfull => absurd hroom (by omega)⟩
    · exact ⟨s, RawFixedBuffer.append_full hchecked (by omega), hs, by rw [if_neg hroom],
        fun _ => rfl⟩

/-- **One operation.** It adds its piece, if there is room. -/
theorem put_spec {op : Op} (hchecked : op.Checked s) :
    ∃ s', s.put op = some s' ∧ s'.cur < kSmallBuffer ∧ s'.data = op.piece.emit s.data ∧
      (kSmallBuffer < s.cur + op.piece.space → s' = s) := by
  rw [put_eq]
  exact Piece.put_spec hs op.wellFormed hchecked

/-- An operation that takes its length for a small one writes outside of the array. -/
theorem put_eq_none {op : Op} (hchecked : ¬ op.Checked s) : s.put op = none := by
  rw [put_eq]
  unfold Op.Checked at hchecked
  cases hp : op.piece with
  | number digits =>
    rw [hp] at hchecked
    exact absurd trivial hchecked
  | text buf len =>
    rw [hp] at hchecked
    exact RawFixedBuffer.append_eq_none small_lt hs hchecked

theorem safe_iff (op : Op) : Safe s op ↔ op.Checked s := by
  constructor
  · intro h
    obtain ⟨s', hput, -⟩ := h
    by_contra hchecked
    rw [put_eq_none hs hchecked] at hput
    cases hput
  · intro hchecked
    obtain ⟨s', hput, hcur, -, hfull⟩ := put_spec hs hchecked
    refine ⟨s', hput, hcur, fun hlong => hfull ?_⟩
    have havail := RawFixedBuffer.avail_eq small_lt hs.le
    have hspace := Piece.size_lt_space op.wellFormed
    omega

theorem cur_lt_of_put {op : Op} {t : LogStream} (hput : s.put op = some t) :
    t.cur < kSmallBuffer := by
  by_cases hchecked : op.Checked s
  · obtain ⟨s', hput', hcur, -⟩ := put_spec hs hchecked
    obtain rfl := Option.some.inj (hput.symm.trans hput')
    exact hcur
  · rw [put_eq_none hs hchecked] at hput
    cases hput

/-! ## Sequences of operations -/

omit hs in
theorem checked_of_short (s : LogStream) {op : Op} (hshort : op.piece.size < 2 ^ 31) :
    op.Checked s := by
  unfold Op.Checked
  cases hp : op.piece with
  | number digits => exact trivial
  | text buf len =>
    rw [hp] at hshort
    exact RawFixedBuffer.checked_of_lt s hshort

omit hs in
/-- The position is inside of the array before each operation. -/
theorem cur_lt_of_mem_trace (hs : s.cur < kSmallBuffer) (ops : List Op) :
    ∀ p ∈ trace put s ops, p.1.cur < kSmallBuffer :=
  trace_invariant (P := fun s => s.cur < kSmallBuffer)
    (fun _ _ _ hcur hput => cur_lt_of_put hcur hput) hs ops

/-- **The bytes of the stream** are the pieces one after the other, less those without room. -/
theorem exec_put {ops : List Op} (hchecked : ∀ p ∈ trace put s ops, p.2.Checked p.1) :
    ∃ t, exec put s ops = some t ∧ t.cur < kSmallBuffer ∧
      t.data = ops.foldl (fun t op => op.piece.emit t) s.data := by
  induction ops generalizing s with
  | nil => exact ⟨s, rfl, hs, rfl⟩
  | cons op ops ih =>
    have hop : op.Checked s := hchecked (s, op) List.mem_cons_self
    obtain ⟨u, hput, hcur, hdata, -⟩ := put_spec hs hop
    have hrest : ∀ p ∈ trace put u ops, p.2.Checked p.1 := fun p hp =>
      hchecked p (List.mem_cons_of_mem _ (by rw [hput]; exact hp))
    obtain ⟨t, hexec, ht, hbytes⟩ := ih hcur hrest
    refine ⟨t, ?_, ht, ?_⟩
    · rw [exec, hput]
      exact hexec
    · rw [hbytes, hdata]
      rfl

omit hs

theorem new_cur_lt {array : Bytes} (h : array.length = kSmallBuffer) :
    (RawFixedBuffer.new array h : LogStream).cur < kSmallBuffer := show 0 < kSmallBuffer by decide

/-- **When the log buffer does not overflow**: exactly when no operation takes a length for a small
one that is not. -/
theorem writes_inside_iff {array : Bytes} (h : array.length = kSmallBuffer) (ops : List Op) :
    (∀ p ∈ trace put (RawFixedBuffer.new array h) ops, Safe p.1 p.2) ↔
      ∀ p ∈ trace put (RawFixedBuffer.new array h) ops, p.2.Checked p.1 := by
  have hcur := cur_lt_of_mem_trace (new_cur_lt h) ops
  constructor
  · exact fun hsafe p hp => (safe_iff (hcur p hp) p.2).mp (hsafe p hp)
  · exact fun hchecked p hp => (safe_iff (hcur p hp) p.2).mpr (hchecked p hp)

/-- A text that leaves 40 bytes, and short pieces. The largest number fits exactly; two numbers and a
text after it do not fit. -/
def nearlyFull : List Op :=
  [.string (List.replicate 3960 97), .int (-1234567), .unsignedLongLong (-1), .short 7,
    .cString none, .string (lit "horses"), .double (.nan false), .char 65]

theorem writes_inside_nearlyFull :
    ∃ t, exec put (RawFixedBuffer.new (List.replicate kSmallBuffer 0) List.length_replicate)
        nearlyFull = some t ∧
      t.data = List.replicate 3960 97 ++ lit "-123456718446744073709551615(null)A" ∧
      ∀ p ∈ trace put (RawFixedBuffer.new (List.replicate kSmallBuffer 0) List.length_replicate)
        nearlyFull, Safe p.1 p.2 := by
  have hchecked : ∀ p ∈ trace put
      (RawFixedBuffer.new (List.replicate kSmallBuffer 0) List.length_replicate) nearlyFull,
      p.2.Checked p.1 := by
    intro p hp
    have hshort : ∀ op ∈ nearlyFull, op.piece.size < 2 ^ 31 := by decide +kernel
    exact checked_of_short _ (hshort p.2 (mem_trace hp))
  obtain ⟨t, hexec, -, hdata⟩ := exec_put (new_cur_lt List.length_replicate) hchecked
  refine ⟨t, hexec, ?_, (writes_inside_iff List.length_replicate _).mpr hchecked⟩
  rw [hdata]
  decide +kernel

/-- The length of a string of 2^31 bytes is negative as an `int`. -/
theorem not_checked_string {s : LogStream} (hs : s.cur < kSmallBuffer) {v : Bytes}
    (hv : v.length = 2 ^ 31) : ¬ (Op.string v).Checked s := by
  intro h
  have hcases : (v.length : ℤ) < s.avail ∨ s.avail ≤ wrapInt v.length := h
  have havail := RawFixedBuffer.avail_eq small_lt hs.le
  have hsmall := small_lt
  have hwrap : wrapInt (2 ^ 31 : ℕ) = -2 ^ 31 := by
    unfold wrapInt
    norm_num
  rw [hv, hwrap] at hcases
  omega

/-- **A string of 2^31 bytes is copied into the array.** -/
theorem string_overflows : ¬ ∀ p ∈ trace put
    (RawFixedBuffer.new (List.replicate kSmallBuffer 0) List.length_replicate)
    [.string (List.replicate (2 ^ 31) 97)], Safe p.1 p.2 := by
  intro hsafe
  have hcur : (RawFixedBuffer.new (List.replicate kSmallBuffer 0)
      List.length_replicate : LogStream).cur < kSmallBuffer := new_cur_lt List.length_replicate
  have hfirst := hsafe (_, _) List.mem_cons_self
  exact not_checked_string hcur List.length_replicate ((safe_iff hcur _).mp hfirst)

end LogStream

end SearchServer

import SearchServer.Lib.Except
import SearchServer.Net.Buffer

/-!
# Buffers with machine arithmetic

All operations of `Buffer` (`net/Buffer.h`) that move its indices. A `size_t` has 64 bits, so sums and
differences wrap. An operation ends with an error when an assertion fails, or when a vector would be
longer than `max_size()`, which throws.

`Holds q b` says that the indices of `b` are in order and that its readable bytes are `q`. Each
operation takes a buffer that holds a queue to one that holds the changed queue. The proofs go
through `Buffer`, which has the same operations on natural numbers: as long as nothing wraps, the two
do the same.

Two operations take a length that no bytes stand behind, `ensureWritableBytes` and `shrink`. If it is
close to the largest `size_t`, `makeSpace` compares a sum that has wrapped (`ensures_wrapped`).
-/

namespace SearchServer

inductive BufferFault where
  | assertion
  /-- `std::length_error`. -/
  | lengthError
deriving DecidableEq

/-- Arithmetic on `size_t`. -/
@[irreducible] def wrap (n : ℕ) : ℕ := n % 2 ^ 64

@[irreducible] def wrapSub (m n : ℕ) : ℕ := (m + 2 ^ 64 - n) % 2 ^ 64

theorem wrap_of_lt {n : ℕ} (h : n < 2 ^ 64) : wrap n = n := by
  unfold wrap
  exact Nat.mod_eq_of_lt h

theorem wrap_lt (n : ℕ) : wrap n < 2 ^ 64 := by
  unfold wrap
  exact Nat.mod_lt _ (by positivity)

theorem wrapSub_of_le {m n : ℕ} (hm : m < 2 ^ 64) (h : n ≤ m) : wrapSub m n = m - n := by
  unfold wrapSub
  omega

/-- `max_size()` of a vector of bytes. No object is larger. -/
@[irreducible] def maxSize : ℕ := 2 ^ 63 - 1

theorem lt_of_le_maxSize {n : ℕ} (h : n ≤ maxSize) : n < 2 ^ 63 := by
  unfold maxSize at h
  omega

def assertThat (p : Prop) [Decidable p] : Except BufferFault Unit :=
  if p then .ok () else .error .assertion

/-- `resize` of a vector. -/
def resize (v : Bytes) (n : ℕ) : Except BufferFault Bytes :=
  if maxSize < n then .error .lengthError
  else .ok (v.take n ++ List.replicate (n - v.length) NUL)

/-! ## The bytes of an integer -/

/-- The bytes of an integer in memory, the lowest first. -/
def toBytes : ℕ → ℕ → Bytes
  | 0, _ => []
  | n + 1, x => UInt8.ofNat x :: toBytes n (x / 256)

def fromBytes : Bytes → ℕ
  | [] => 0
  | b :: bs => b.toNat + 256 * fromBytes bs

theorem length_toBytes (n x : ℕ) : (toBytes n x).length = n := by
  induction n generalizing x with
  | zero => rfl
  | succ n ih => rw [toBytes, List.length_cons, ih]

/-! ## The operations -/

structure RawBuffer where
  buffer : Bytes
  readerIndex : ℕ
  writerIndex : ℕ
deriving DecidableEq

namespace RawBuffer

def readableBytes (b : RawBuffer) : ℕ := wrapSub b.writerIndex b.readerIndex

def writableBytes (b : RawBuffer) : ℕ := wrapSub b.buffer.length b.writerIndex

def prependableBytes (b : RawBuffer) : ℕ := b.readerIndex

/-- The bytes from `peek()` to `beginWrite()`. -/
def readable (b : RawBuffer) : Bytes :=
  (b.buffer.drop b.readerIndex).take (b.writerIndex - b.readerIndex)

/-- The constructor. -/
def init (initialSize : ℕ) : Except BufferFault RawBuffer := do
  let buffer ← resize [] (wrap (kCheapPrepend + initialSize))
  let b : RawBuffer := ⟨buffer, kCheapPrepend, kCheapPrepend⟩
  assertThat (b.readableBytes = 0)
  assertThat (b.writableBytes = initialSize)
  assertThat (b.prependableBytes = kCheapPrepend)
  return b

def retrieveAll (b : RawBuffer) : RawBuffer :=
  { b with readerIndex := kCheapPrepend, writerIndex := kCheapPrepend }

def retrieve (b : RawBuffer) (len : ℕ) : Except BufferFault RawBuffer := do
  assertThat (len ≤ b.readableBytes)
  if len < b.readableBytes then
    return { b with readerIndex := wrap (b.readerIndex + len) }
  else
    return b.retrieveAll

def retrieveAsString (b : RawBuffer) (len : ℕ) : Except BufferFault (RawBuffer × Bytes) := do
  assertThat (len ≤ b.readableBytes)
  let result := (b.buffer.drop b.readerIndex).take len
  let b ← b.retrieve len
  return (b, result)

def retrieveAllAsString (b : RawBuffer) : Except BufferFault (RawBuffer × Bytes) :=
  b.retrieveAsString b.readableBytes

/-- `func(end)`, where `end` is `eol` bytes after `peek()`. -/
def func (b : RawBuffer) (eol : ℕ) : Except BufferFault (RawBuffer × Bytes) :=
  b.retrieveAsString (wrap (eol + 1))

/-- Grow the vector, or move the readable bytes to the front. -/
def makeSpace (b : RawBuffer) (len : ℕ) : Except BufferFault RawBuffer :=
  if wrap (b.writableBytes + b.prependableBytes) < wrap (len + kCheapPrepend) then do
    let buffer ← resize b.buffer (wrap (b.writerIndex + len))
    return { b with buffer := buffer }
  else do
    assertThat (kCheapPrepend < b.readerIndex)
    let readable := b.readableBytes
    let b := { b with
      buffer := Buffer.copyTo b.buffer kCheapPrepend b.readable
      readerIndex := kCheapPrepend
      writerIndex := wrap (kCheapPrepend + readable) }
    assertThat (readable = b.readableBytes)
    return b

def ensureWritableBytes (b : RawBuffer) (len : ℕ) : Except BufferFault RawBuffer := do
  let b ← if b.writableBytes < len then b.makeSpace len else .ok b
  assertThat (len ≤ b.writableBytes)
  return b

def hasWritten (b : RawBuffer) (len : ℕ) : Except BufferFault RawBuffer := do
  assertThat (len ≤ b.writableBytes)
  return { b with writerIndex := wrap (b.writerIndex + len) }

def append (b : RawBuffer) (data : Bytes) : Except BufferFault RawBuffer := do
  let b ← b.ensureWritableBytes data.length
  { b with buffer := Buffer.copyTo b.buffer b.writerIndex data }.hasWritten data.length

def unwrite (b : RawBuffer) (len : ℕ) : Except BufferFault RawBuffer := do
  assertThat (len ≤ b.readableBytes)
  return { b with writerIndex := wrapSub b.writerIndex len }

def prepend (b : RawBuffer) (data : Bytes) : Except BufferFault RawBuffer := do
  assertThat (data.length ≤ b.prependableBytes)
  let readerIndex := wrapSub b.readerIndex data.length
  return { b with readerIndex, buffer := Buffer.copyTo b.buffer readerIndex data }

/-- `swap` with a new buffer that has room for `reserve` more bytes. -/
def shrink (b : RawBuffer) (reserve : ℕ) : Except BufferFault RawBuffer := do
  let other ← init kInitialSize
  let other ← other.ensureWritableBytes (wrap (b.readableBytes + reserve))
  let (_, s) ← b.retrieveAllAsString
  other.append s

/-! ## Integers -/

section Integers

variable (size : ℕ)

/-- An integer of `size` bytes. -/
def appendInt (b : RawBuffer) (x : BitVec (8 * size)) : Except BufferFault RawBuffer :=
  b.append (toBytes size x.toNat)

def peekInt (b : RawBuffer) : Except BufferFault (BitVec (8 * size)) := do
  assertThat (size ≤ b.readableBytes)
  return BitVec.ofNat _ (fromBytes ((b.buffer.drop b.readerIndex).take size))

def readInt (b : RawBuffer) : Except BufferFault (RawBuffer × BitVec (8 * size)) := do
  let result ← b.peekInt size
  let b ← b.retrieve size
  return (b, result)

def prependInt (b : RawBuffer) (x : BitVec (8 * size)) : Except BufferFault RawBuffer :=
  b.prepend (toBytes size x.toNat)

end Integers

def appendInt64 (b : RawBuffer) (x : BitVec 64) : Except BufferFault RawBuffer := b.appendInt 8 x

def appendInt32 (b : RawBuffer) (x : BitVec 32) : Except BufferFault RawBuffer := b.appendInt 4 x

def appendInt16 (b : RawBuffer) (x : BitVec 16) : Except BufferFault RawBuffer := b.appendInt 2 x

def appendInt8 (b : RawBuffer) (x : BitVec 8) : Except BufferFault RawBuffer := b.appendInt 1 x

def peekInt64 (b : RawBuffer) : Except BufferFault (BitVec 64) := b.peekInt 8

def peekInt32 (b : RawBuffer) : Except BufferFault (BitVec 32) := b.peekInt 4

def peekInt16 (b : RawBuffer) : Except BufferFault (BitVec 16) := b.peekInt 2

def peekInt8 (b : RawBuffer) : Except BufferFault (BitVec 8) := b.peekInt 1

def readInt64 (b : RawBuffer) : Except BufferFault (RawBuffer × BitVec 64) := b.readInt 8

def readInt32 (b : RawBuffer) : Except BufferFault (RawBuffer × BitVec 32) := b.readInt 4

def readInt16 (b : RawBuffer) : Except BufferFault (RawBuffer × BitVec 16) := b.readInt 2

def readInt8 (b : RawBuffer) : Except BufferFault (RawBuffer × BitVec 8) := b.readInt 1

def prependInt64 (b : RawBuffer) (x : BitVec 64) : Except BufferFault RawBuffer := b.prependInt 8 x

def prependInt32 (b : RawBuffer) (x : BitVec 32) : Except BufferFault RawBuffer := b.prependInt 4 x

def prependInt16 (b : RawBuffer) (x : BitVec 16) : Except BufferFault RawBuffer := b.prependInt 2 x

def prependInt8 (b : RawBuffer) (x : BitVec 8) : Except BufferFault RawBuffer := b.prependInt 1 x

/-! ## What a buffer holds -/

/-- The indices are in order. -/
structure InOrder (b : RawBuffer) : Prop where
  reader_le : b.readerIndex ≤ b.writerIndex
  writer_le : b.writerIndex ≤ b.buffer.length

/-- The indices are in order, and the readable bytes are `q`. -/
structure Holds (q : Bytes) (b : RawBuffer) : Prop where
  inOrder : b.InOrder
  prepend_le : kCheapPrepend ≤ b.buffer.length
  size_le : b.buffer.length ≤ maxSize
  readable : b.readable = q

/-- No assertion fails, and the result meets `P`. -/
abbrev Safe {α : Type} (x : Except BufferFault α) (P : α → Prop) : Prop :=
  Ensures x (· = .lengthError) P

variable {α : Type} {b : RawBuffer} {q data : Bytes} {len : ℕ}

theorem safe_assert {p : Prop} [Decidable p] {f : Unit → Except BufferFault α} {P : α → Prop}
    (hp : p) (hf : Safe (f ()) P) : Safe (assertThat p >>= f) P := by
  rw [assertThat, if_pos hp]
  exact hf

theorem safe_resize {v : Bytes} {n : ℕ} {P : Bytes → Prop}
    (h : n ≤ maxSize → P (v.take n ++ List.replicate (n - v.length) NUL)) :
    Safe (resize v n) P := by
  unfold resize
  split_ifs with hmax
  · rfl
  · exact h (by omega)

theorem Holds.length (h : Holds q b) : q.length = b.writerIndex - b.readerIndex := by
  have := h.inOrder.writer_le
  rw [← h.readable, RawBuffer.readable, List.length_take, List.length_drop]
  omega

theorem Holds.size_lt (h : Holds q b) : b.buffer.length < 2 ^ 63 := lt_of_le_maxSize h.size_le

theorem Holds.writer_lt (h : Holds q b) : b.writerIndex < 2 ^ 63 :=
  h.inOrder.writer_le.trans_lt h.size_lt

theorem Holds.readableBytes (h : Holds q b) : b.readableBytes = q.length := by
  have hw := h.writer_lt
  rw [RawBuffer.readableBytes, wrapSub_of_le (by omega) h.inOrder.reader_le, h.length]

theorem Holds.writableBytes (h : Holds q b) :
    b.writableBytes = b.buffer.length - b.writerIndex := by
  have hsize := h.size_lt
  exact wrapSub_of_le (by omega) h.inOrder.writer_le

/-- The first `len` readable bytes. -/
theorem Holds.take_readable (h : Holds q b) (hlen : len ≤ q.length) :
    (b.buffer.drop b.readerIndex).take len = q.take len := by
  have hq := h.length
  rw [← h.readable, RawBuffer.readable, List.take_take, min_eq_left (by omega)]

/-! ## Taking bytes -/

theorem Holds.retrieveAll (h : Holds q b) : Holds [] b.retrieveAll where
  inOrder := ⟨Nat.le_refl _, h.prepend_le⟩
  prepend_le := h.prepend_le
  size_le := h.size_le
  readable := by simp [RawBuffer.readable, RawBuffer.retrieveAll]

theorem Holds.retrieve (h : Holds q b) (hlen : len ≤ q.length) :
    Safe (b.retrieve len) (Holds (q.drop len)) := by
  have hq := h.length
  have hw := h.inOrder.writer_le
  have hmax := h.size_lt
  refine safe_assert (by rwa [h.readableBytes]) ?_
  rw [h.readableBytes]
  split_ifs with hlt
  · have hwrap : wrap (b.readerIndex + len) = b.readerIndex + len := wrap_of_lt (by omega)
    rw [hwrap]
    refine ⟨⟨?_, hw⟩, h.prepend_le, h.size_le, ?_⟩
    · show b.readerIndex + len ≤ b.writerIndex
      omega
    · rw [← h.readable, RawBuffer.readable, RawBuffer.readable, List.drop_take, List.drop_drop,
        Nat.sub_sub]
  · rw [List.drop_eq_nil_of_le (by omega)]
    exact h.retrieveAll

theorem Holds.retrieveAsString (h : Holds q b) (hlen : len ≤ q.length) :
    Safe (b.retrieveAsString len) fun (b', s) => Holds (q.drop len) b' ∧ s = q.take len := by
  refine safe_assert (by rwa [h.readableBytes]) ?_
  refine Ensures.bind (h.retrieve hlen) fun b' hb' => ?_
  exact ⟨hb', h.take_readable hlen⟩

theorem Holds.retrieveAllAsString (h : Holds q b) :
    Safe b.retrieveAllAsString fun (b', s) => Holds [] b' ∧ s = q := by
  have hall := h.retrieveAsString (Nat.le_refl q.length)
  rw [List.drop_length, List.take_length] at hall
  rw [RawBuffer.retrieveAllAsString, h.readableBytes]
  exact hall

theorem Holds.func (h : Holds q b) {eol : ℕ} (heol : eol < q.length) :
    Safe (b.func eol) fun (b', s) => Holds (q.drop (eol + 1)) b' ∧ s = q.take (eol + 1) := by
  have hq := h.length
  have hw := h.writer_lt
  have hwrap : wrap (eol + 1) = eol + 1 := wrap_of_lt (by omega)
  rw [RawBuffer.func, hwrap]
  exact h.retrieveAsString heol

theorem Holds.unwrite (h : Holds q b) (hlen : len ≤ q.length) :
    Safe (b.unwrite len) (Holds (q.take (q.length - len))) := by
  have hq := h.length
  have hr := h.inOrder.reader_le
  have hw := h.inOrder.writer_le
  have hmax := h.size_lt
  refine safe_assert (by rwa [h.readableBytes]) ?_
  have hsub : wrapSub b.writerIndex len = b.writerIndex - len :=
    wrapSub_of_le (by omega) (by omega)
  rw [hsub]
  refine ⟨⟨?_, ?_⟩, h.prepend_le, h.size_le, ?_⟩
  · show b.readerIndex ≤ b.writerIndex - len
    omega
  · show b.writerIndex - len ≤ b.buffer.length
    omega
  · have hmin : min (b.writerIndex - b.readerIndex - len) (b.writerIndex - b.readerIndex) =
        b.writerIndex - len - b.readerIndex := by omega
    rw [hq, ← h.readable, RawBuffer.readable, RawBuffer.readable, List.take_take, hmin]

theorem Holds.peekInt (h : Holds q b) {size : ℕ} (hsize : size ≤ q.length) :
    Safe (b.peekInt size) fun x => x = BitVec.ofNat _ (fromBytes (q.take size)) := by
  refine safe_assert (by rwa [h.readableBytes]) ?_
  show BitVec.ofNat _ _ = BitVec.ofNat _ _
  rw [h.take_readable hsize]

theorem Holds.readInt (h : Holds q b) {size : ℕ} (hsize : size ≤ q.length) :
    Safe (b.readInt size) fun (b', x) =>
      Holds (q.drop size) b' ∧ x = BitVec.ofNat _ (fromBytes (q.take size)) := by
  refine Ensures.bind (h.peekInt hsize) fun x hx => ?_
  refine Ensures.bind (h.retrieve hsize) fun b' hb' => ?_
  exact ⟨hb', hx⟩

/-! ## Putting bytes in front -/

theorem drop_copyTo {v : Bytes} {i : ℕ} (h : i ≤ v.length) :
    (Buffer.copyTo v i data).drop i = data ++ v.drop (i + data.length) := by
  have htake : (v.take i).length = i := by
    rw [List.length_take]
    omega
  rw [Buffer.copyTo, List.append_assoc, List.drop_append_of_le_length htake.ge,
    List.drop_of_length_le htake.le, List.nil_append]

theorem Holds.prepend (h : Holds q b) (hlen : data.length ≤ b.readerIndex) :
    Safe (b.prepend data) (Holds (data ++ q)) := by
  have hq := h.length
  have hr := h.inOrder.reader_le
  have hw := h.inOrder.writer_le
  have hmax := h.size_lt
  refine safe_assert hlen ?_
  have hsub : wrapSub b.readerIndex data.length = b.readerIndex - data.length :=
    wrapSub_of_le (by omega) hlen
  have hcopy : (Buffer.copyTo b.buffer (b.readerIndex - data.length) data).length =
      b.buffer.length := Buffer.length_copyTo (by omega)
  dsimp only
  rw [hsub]
  refine ⟨⟨?_, hcopy.symm ▸ hw⟩, hcopy.symm ▸ h.prepend_le, hcopy.symm ▸ h.size_le, ?_⟩
  · show b.readerIndex - data.length ≤ b.writerIndex
    omega
  · show ((Buffer.copyTo b.buffer _ data).drop (b.readerIndex - data.length)).take
      (b.writerIndex - (b.readerIndex - data.length)) = data ++ q
    have hcut : b.readerIndex - data.length + data.length = b.readerIndex := by omega
    have hsum : b.writerIndex - (b.readerIndex - data.length) =
        data.length + (b.writerIndex - b.readerIndex) := by omega
    rw [drop_copyTo (by omega), hcut, hsum, List.take_length_add_append, ← h.readable]
    rfl

/-! ## Making space -/

/-- The buffer on natural numbers. -/
def Holds.toBuffer (h : Holds q b) : Buffer where
  buffer := b.buffer
  readerIndex := b.readerIndex
  writerIndex := b.writerIndex
  prepend_le := h.prepend_le
  reader_le := h.inOrder.reader_le
  writer_le := h.inOrder.writer_le

def ofBuffer (c : Buffer) : RawBuffer := ⟨c.buffer, c.readerIndex, c.writerIndex⟩

theorem Holds.readable_toBuffer (h : Holds q b) : h.toBuffer.readable = q := h.readable

theorem holds_ofBuffer {c : Buffer} (hsize : c.buffer.length ≤ maxSize) :
    Holds c.readable (ofBuffer c) :=
  ⟨⟨c.reader_le, c.writer_le⟩, c.prepend_le, hsize, rfl⟩

/-- The requested length does not wrap. -/
def Fits (b : RawBuffer) (len : ℕ) : Prop :=
  len + kCheapPrepend < 2 ^ 64 ∧ b.writerIndex + len < 2 ^ 64

/-- The readable bytes fit where they are moved to. -/
theorem Holds.length_moved (h : Holds q b) (hroom : kCheapPrepend < b.readerIndex) :
    (Buffer.copyTo b.buffer kCheapPrepend b.readable).length = b.buffer.length := by
  have hr := h.inOrder.reader_le
  have hw := h.inOrder.writer_le
  refine Buffer.length_copyTo ?_
  rw [h.readable, h.length]
  omega

/-- `makeSpace` does what it does on natural numbers. -/
theorem Holds.makeSpace (h : Holds q b) (hlen : h.toBuffer.writableBytes < len)
    (hfits : b.Fits len) :
    Safe (b.makeSpace len) fun b' => ∃ c, h.toBuffer.makeSpace len hlen = some c ∧
      b' = ofBuffer c ∧ c.buffer.length ≤ maxSize := by
  have hr := h.inOrder.reader_le
  have hw := h.inOrder.writer_le
  have hmax := h.size_lt
  have hwritable := h.writableBytes
  have hreadable : b.readableBytes = b.writerIndex - b.readerIndex := h.readableBytes.trans h.length
  have hlt : b.buffer.length - b.writerIndex < len := hlen
  have hlen' : len + kCheapPrepend < 2 ^ 64 := hfits.1
  have hgrow_iff : wrap (b.writableBytes + b.prependableBytes) < wrap (len + kCheapPrepend) ↔
      h.toBuffer.writableBytes + h.toBuffer.prependableBytes < len + kCheapPrepend := by
    have hsum : b.buffer.length - b.writerIndex + b.readerIndex < 2 ^ 64 := by omega
    rw [hwritable, RawBuffer.prependableBytes, wrap_of_lt hlen', wrap_of_lt hsum]
    exact Iff.rfl
  unfold RawBuffer.makeSpace Buffer.makeSpace
  by_cases hgrow : h.toBuffer.writableBytes + h.toBuffer.prependableBytes < len + kCheapPrepend
  · rw [if_pos (hgrow_iff.mpr hgrow), if_pos hgrow, wrap_of_lt hfits.2]
    refine Ensures.bind (safe_resize (P := fun v => v = b.buffer.take (b.writerIndex + len) ++
      List.replicate (b.writerIndex + len - b.buffer.length) NUL ∧ v.length ≤ maxSize)
      fun hle => ⟨rfl, ?_⟩) fun v hv => ?_
    · rw [List.length_append, List.length_take, List.length_replicate]
      omega
    · refine ⟨_, rfl, ?_, hv.1 ▸ hv.2⟩
      rw [hv.1]
      rfl
  · rw [if_neg (mt hgrow_iff.mp hgrow), if_neg hgrow]
    -- There is room before the readable bytes, so the assertion holds.
    have hroom : kCheapPrepend < b.readerIndex := by
      have hprepend : h.toBuffer.prependableBytes = b.readerIndex := rfl
      have hwritable' : h.toBuffer.writableBytes = b.buffer.length - b.writerIndex := rfl
      omega
    have hwrap : wrap (kCheapPrepend + (b.writerIndex - b.readerIndex)) =
        kCheapPrepend + (b.writerIndex - b.readerIndex) := wrap_of_lt (by omega)
    refine safe_assert hroom ?_
    dsimp only
    rw [hreadable, hwrap]
    refine safe_assert ?_ ?_
    · rw [RawBuffer.readableBytes, wrapSub_of_le (by dsimp only; omega) (by dsimp only; omega)]
      dsimp only
      omega
    · refine ⟨_, dif_pos hroom, rfl, ?_⟩
      exact (h.length_moved hroom).le.trans h.size_le

theorem Holds.ensureWritableBytes (h : Holds q b) (hfits : b.Fits len) :
    Safe (b.ensureWritableBytes len) fun b' =>
      Holds q b' ∧ len ≤ b'.buffer.length - b'.writerIndex := by
  -- The assertion at the end holds when there is space.
  have hdone (b' : RawBuffer) (hb' : Holds q b' ∧ len ≤ b'.buffer.length - b'.writerIndex) :
      Safe (do assertThat (len ≤ b'.writableBytes); return b') fun b' =>
        Holds q b' ∧ len ≤ b'.buffer.length - b'.writerIndex := by
    refine safe_assert ?_ hb'
    rw [hb'.1.writableBytes]
    exact hb'.2
  rw [RawBuffer.ensureWritableBytes, h.writableBytes]
  split_ifs with hlen
  · refine Ensures.bind (h.makeSpace hlen hfits) ?_
    intro b' ⟨c, hc, heq, hsize⟩
    obtain ⟨c', hc', hread, hle⟩ := Buffer.readable_makeSpace (b := h.toBuffer) hlen
    obtain rfl := Option.some.inj (hc.symm.trans hc')
    rw [heq]
    refine hdone _ ⟨?_, hle⟩
    rw [← h.readable_toBuffer, ← hread]
    exact holds_ofBuffer hsize
  · exact hdone b ⟨h, by omega⟩

/-! ## Putting bytes at the end -/

theorem Holds.hasWritten (h : Holds q b)
    (hle : data.length ≤ b.buffer.length - b.writerIndex) :
    Safe ({ b with buffer := Buffer.copyTo b.buffer b.writerIndex data }.hasWritten data.length)
      (Holds (q ++ data)) := by
  have hw := h.inOrder.writer_le
  have hmax := h.size_lt
  have hcopy : (Buffer.copyTo b.buffer b.writerIndex data).length = b.buffer.length :=
    Buffer.length_copyTo (by omega)
  obtain ⟨c, hc, hread⟩ := Buffer.readable_copyIn_hasWritten (b := h.toBuffer) hle
  refine safe_assert ?_ ?_
  · rw [RawBuffer.writableBytes, hcopy, wrapSub_of_le (by omega) hw]
    exact hle
  · rw [wrap_of_lt (by dsimp only; omega)]
    rw [← h.readable_toBuffer, ← hread]
    unfold Buffer.hasWritten at hc
    split_ifs at hc
    obtain rfl := Option.some.inj hc
    refine holds_ofBuffer ?_
    show (Buffer.copyTo b.buffer b.writerIndex data).length ≤ maxSize
    rw [hcopy]
    exact h.size_le

theorem Holds.append (h : Holds q b) (hdata : data.length ≤ maxSize) :
    Safe (b.append data) (Holds (q ++ data)) := by
  have hw := h.writer_lt
  have hlt := lt_of_le_maxSize hdata
  have hfits : b.Fits data.length := by
    unfold Fits kCheapPrepend
    omega
  exact Ensures.bind (h.ensureWritableBytes hfits) fun b' hb' => hb'.1.hasWritten hb'.2

/-! ## New buffers -/

theorem assertThat_of {p : Prop} [Decidable p] (hp : p) : assertThat p = .ok () := if_pos hp

/-- A new buffer has room for `n` bytes. -/
theorem exists_init {n : ℕ} (h : kCheapPrepend + n ≤ maxSize) :
    ∃ b, init n = .ok b ∧ Holds [] b ∧ b.readerIndex = kCheapPrepend ∧
      b.writerIndex = kCheapPrepend ∧ b.buffer.length = kCheapPrepend + n := by
  have hlen : (List.replicate (kCheapPrepend + n) NUL).length = kCheapPrepend + n := by simp
  generalize hbuffer : List.replicate (kCheapPrepend + n) NUL = buffer at hlen
  have hle : kCheapPrepend ≤ buffer.length := by omega
  have hholds : Holds [] ⟨buffer, kCheapPrepend, kCheapPrepend⟩ :=
    ⟨⟨Nat.le_refl _, hle⟩, hle, hlen.le.trans h, by simp [RawBuffer.readable]⟩
  refine ⟨_, ?_, hholds, rfl, rfl, hlen⟩
  have hlt := lt_of_le_maxSize h
  have hwrap : wrap (kCheapPrepend + n) = kCheapPrepend + n := wrap_of_lt (by omega)
  have hresize : resize [] (wrap (kCheapPrepend + n)) = .ok buffer := by
    rw [hwrap, resize, if_neg (by omega), ← hbuffer, List.take_nil, List.nil_append,
      List.length_nil, Nat.sub_zero]
  have hwritable := hholds.writableBytes
  dsimp only at hwritable
  rw [hlen, Nat.add_sub_cancel_left] at hwritable
  exact bind_eq_ok.mpr ⟨buffer, hresize, bind_eq_ok.mpr ⟨(), assertThat_of hholds.readableBytes,
    bind_eq_ok.mpr ⟨(), assertThat_of hwritable, bind_eq_ok.mpr ⟨(), assertThat_of rfl, rfl⟩⟩⟩⟩

theorem kInitialSize_le : kCheapPrepend + kInitialSize ≤ maxSize := by
  unfold kCheapPrepend kInitialSize maxSize
  omega

/-- A buffer whose size does not wrap is empty. -/
theorem holds_of_init {n : ℕ} (h : kCheapPrepend + n < 2 ^ 64) {b : RawBuffer}
    (hb : init n = .ok b) : Holds [] b := by
  have hmax : kCheapPrepend + n ≤ maxSize := by
    obtain ⟨buffer, hbuffer, -⟩ := bind_eq_ok.mp hb
    rw [wrap_of_lt h, resize] at hbuffer
    split_ifs at hbuffer with hlt
    omega
  obtain ⟨b', hb', hholds, -⟩ := exists_init hmax
  obtain rfl := Except.ok.inj (hb.symm.trans hb')
  exact hholds

/-- A size that wraps gives a vector that is too short. -/
theorem not_inOrder_of_init {n : ℕ} (hn : n < 2 ^ 64) (h : ¬ kCheapPrepend + n < 2 ^ 64)
    {b : RawBuffer} (hb : init n = .ok b) : ¬ b.InOrder := by
  have hwrap : wrap (kCheapPrepend + n) < kCheapPrepend := by
    unfold wrap kCheapPrepend at *
    omega
  obtain ⟨buffer, hbuffer, hrest⟩ := bind_eq_ok.mp hb
  obtain ⟨_, _, hrest⟩ := bind_eq_ok.mp hrest
  obtain ⟨_, _, hrest⟩ := bind_eq_ok.mp hrest
  obtain ⟨_, _, hrest⟩ := bind_eq_ok.mp hrest
  obtain rfl := Except.ok.inj hrest
  have hlen : buffer.length = wrap (kCheapPrepend + n) := by
    unfold resize at hbuffer
    split_ifs at hbuffer
    obtain rfl := Except.ok.inj hbuffer
    simp
  intro horder
  have hle := horder.writer_le
  dsimp only at hle
  omega

/-! ## A length that wraps -/

/-- The result is not in order, or an assertion fails. -/
abbrev Broken (x : Except BufferFault RawBuffer) : Prop :=
  Ensures x (· = .assertion) fun b => ¬ b.InOrder

theorem ensures_assert {p : Prop} [Decidable p] {f : Unit → Except BufferFault α} {P : α → Prop}
    (hf : p → Ensures (f ()) (· = .assertion) P) :
    Ensures (assertThat p >>= f) (· = .assertion) P := by
  unfold assertThat
  split_ifs with hp
  · exact hf hp
  · rfl

/-- `makeSpace` shortens the vector, or leaves too little space, or its assertion fails. -/
theorem Holds.makeSpace_wrapped (h : Holds q b) (hlen : len < 2 ^ 64) (hfits : ¬ b.Fits len) :
    Ensures (b.makeSpace len) (· = .assertion) fun b' =>
      ¬ b'.InOrder ∨ ¬ len ≤ b'.writableBytes := by
  have hr := h.inOrder.reader_le
  have hw := h.inOrder.writer_le
  have hmax := h.size_lt
  have hsize := h.size_le
  have hmin := h.prepend_le
  have hwritable := h.writableBytes
  have hprepend : b.prependableBytes = b.readerIndex := rfl
  unfold Fits kCheapPrepend at hfits
  unfold kCheapPrepend at hmin
  unfold RawBuffer.makeSpace
  split_ifs with hgrow
  · -- The new size is smaller than the index.
    have hshort : wrap (b.writerIndex + len) < b.writerIndex := by
      rw [hwritable, hprepend] at hgrow
      unfold wrap kCheapPrepend at *
      omega
    have hle : ¬ maxSize < wrap (b.writerIndex + len) := by omega
    have hresize : resize b.buffer (wrap (b.writerIndex + len)) =
        .ok (b.buffer.take (wrap (b.writerIndex + len)) ++
          List.replicate (wrap (b.writerIndex + len) - b.buffer.length) NUL) := if_neg hle
    rw [hresize]
    refine Or.inl fun horder => ?_
    have hle' := horder.writer_le
    simp only [List.length_append, List.length_take, List.length_replicate] at hle'
    omega
  · refine ensures_assert fun hroom => ensures_assert fun _ => Or.inr ?_
    have hreadable : b.readableBytes = b.writerIndex - b.readerIndex :=
      h.readableBytes.trans h.length
    rw [RawBuffer.writableBytes, h.length_moved hroom, hreadable]
    unfold wrapSub wrap kCheapPrepend at *
    dsimp only
    omega

/-- **A length that wraps** breaks the buffer. -/
theorem Holds.ensureWritableBytes_wrapped (h : Holds q b) (hlen : len < 2 ^ 64)
    (hfits : ¬ b.Fits len) : Broken (b.ensureWritableBytes len) := by
  have hlt : b.writableBytes < len := by
    have hw := h.inOrder.writer_le
    have hmax := h.size_lt
    rw [h.writableBytes]
    unfold Fits kCheapPrepend at hfits
    omega
  rw [RawBuffer.ensureWritableBytes, if_pos hlt]
  refine Ensures.bind (h.makeSpace_wrapped hlen hfits) fun b' hb' => ensures_assert fun hle => ?_
  exact hb'.resolve_right (not_not.mpr hle)

/-! ## Shrinking -/

theorem Holds.shrink (h : Holds q b) {reserve : ℕ}
    (hfits : wrap (q.length + reserve) + kCheapPrepend < 2 ^ 64) :
    Safe (b.shrink reserve) (Holds q) := by
  have hq := h.length
  have hw := h.inOrder.writer_le
  have hmax := h.size_le
  obtain ⟨other, hinit, hnew, -, hwriter, -⟩ := exists_init kInitialSize_le
  have hother : other.Fits (wrap (q.length + reserve)) := by
    refine ⟨hfits, ?_⟩
    rw [hwriter]
    omega
  rw [RawBuffer.shrink, hinit, ok_bind, h.readableBytes]
  refine Ensures.bind (hnew.ensureWritableBytes hother) fun room hroom => ?_
  refine Ensures.bind h.retrieveAllAsString fun p hp => ?_
  obtain ⟨drained, s⟩ := p
  obtain ⟨-, rfl⟩ := hp
  exact hroom.1.append (by omega)

/-- In a new buffer there is no room to move, and the assertion in `makeSpace` fails. -/
theorem Holds.ensureWritableBytes_new (h : Holds [] b) (hreader : b.readerIndex = kCheapPrepend)
    (hwriter : b.writerIndex = kCheapPrepend)
    (hsize : b.buffer.length = kCheapPrepend + kInitialSize) (hlen : len < 2 ^ 64)
    (hwrap : ¬ len + kCheapPrepend < 2 ^ 64) :
    b.ensureWritableBytes len = .error .assertion := by
  have hwritable : b.writableBytes = kInitialSize := by
    rw [h.writableBytes, hwriter, hsize, Nat.add_sub_cancel_left]
  have hlt : kInitialSize < len := by
    unfold kInitialSize
    unfold kCheapPrepend at hwrap
    omega
  have hgrow : ¬ wrap (kInitialSize + kCheapPrepend) < wrap (len + kCheapPrepend) := by
    unfold wrap kInitialSize kCheapPrepend
    unfold kCheapPrepend at hwrap
    omega
  have hroom : ¬ kCheapPrepend < kCheapPrepend := lt_irrefl _
  have hmake : b.makeSpace len = .error .assertion := by
    rw [RawBuffer.makeSpace, hwritable, RawBuffer.prependableBytes, hreader, if_neg hgrow,
      assertThat, if_neg hroom, error_bind]
  rw [RawBuffer.ensureWritableBytes, hwritable, if_pos hlt, hmake, error_bind]

theorem Holds.shrink_wrapped (h : Holds q b) {reserve : ℕ}
    (hfits : ¬ wrap (q.length + reserve) + kCheapPrepend < 2 ^ 64) :
    b.shrink reserve = .error .assertion := by
  obtain ⟨other, hinit, hnew, hreader, hwriter, hsize⟩ := exists_init kInitialSize_le
  have hspace := hnew.ensureWritableBytes_new hreader hwriter hsize (wrap_lt _) hfits
  rw [RawBuffer.shrink, hinit, ok_bind, h.readableBytes, hspace, error_bind]

end RawBuffer

end SearchServer

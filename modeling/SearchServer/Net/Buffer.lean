import SearchServer.Lib.Text

/-!
# Network buffers

`Buffer` (`net/Buffer.h`): a vector of bytes with two indices. The bytes between them are readable,
the bytes from the second one to the end are writable. The structure carries what the indices
satisfy. The reserved bytes before the readable ones may be taken by `prepend`, so only the vector is
known to be as long as they are.

An operation returns `none` when one of its assertions fails.

* `append_readable`: new bytes come after the readable ones, whichever way space is made for them,
  and the assertions hold.
* `readFd_appends`: so do the bytes that `readv` scatters over the end of the buffer and an array.
* `func_readable`: taking a line takes it from the front of the readable bytes.
-/

namespace SearchServer

def kCheapPrepend : ℕ := 8

def kInitialSize : ℕ := 1024

structure Buffer where
  buffer : Bytes
  readerIndex : ℕ
  writerIndex : ℕ
  prepend_le : kCheapPrepend ≤ buffer.length
  reader_le : readerIndex ≤ writerIndex
  writer_le : writerIndex ≤ buffer.length

namespace Buffer

def init : Buffer where
  buffer := List.replicate (kCheapPrepend + kInitialSize) NUL
  readerIndex := kCheapPrepend
  writerIndex := kCheapPrepend
  prepend_le := by simp
  reader_le := Nat.le_refl _
  writer_le := by simp

def readableBytes (b : Buffer) : ℕ := b.writerIndex - b.readerIndex

def writableBytes (b : Buffer) : ℕ := b.buffer.length - b.writerIndex

def prependableBytes (b : Buffer) : ℕ := b.readerIndex

/-- The bytes from `peek()` to `beginWrite()`. -/
def readable (b : Buffer) : Bytes := (b.buffer.drop b.readerIndex).take b.readableBytes

/-- The position of the first newline, counted from `peek()`. -/
def findEOL (b : Buffer) : Option ℕ := b.readable.findIdx? (· = LF)

def retrieveAll (b : Buffer) : Buffer where
  buffer := b.buffer
  readerIndex := kCheapPrepend
  writerIndex := kCheapPrepend
  prepend_le := b.prepend_le
  reader_le := Nat.le_refl _
  writer_le := b.prepend_le

def retrieve (b : Buffer) (len : ℕ) : Option Buffer :=
  if len ≤ b.readableBytes then
    if h : len < b.readableBytes then
      some { b with
        readerIndex := b.readerIndex + len
        reader_le := by unfold readableBytes at h; omega }
    else some b.retrieveAll
  else none

def retrieveAsString (b : Buffer) (len : ℕ) : Option (Bytes × Buffer) :=
  if len ≤ b.readableBytes then (b.retrieve len).map fun b' => (b.readable.take len, b') else none

/-- `func(end)`: take the bytes up to and with the one `end` points to. -/
def func (b : Buffer) (eol : ℕ) : Option (Bytes × Buffer) := b.retrieveAsString (eol + 1)

/-- `std::copy(data, data + len, begin() + i)`. -/
def copyTo (v : Bytes) (i : ℕ) (data : Bytes) : Bytes :=
  v.take i ++ data ++ v.drop (i + data.length)

theorem length_copyTo {v data : Bytes} {i : ℕ} (h : i + data.length ≤ v.length) :
    (copyTo v i data).length = v.length := by
  simp [copyTo]
  omega

/-- The bytes copied are where they were copied to. -/
theorem take_drop_copyTo {v data : Bytes} {i : ℕ} (h : i ≤ v.length) :
    ((copyTo v i data).drop i).take data.length = data := by
  have htake : (v.take i).length = i := by simp; omega
  rw [copyTo, List.append_assoc, List.drop_append_of_le_length htake.ge,
    List.drop_of_length_le htake.le, List.nil_append, List.take_left]

theorem length_readable (b : Buffer) : b.readable.length = b.readableBytes := by
  have := b.writer_le
  simp [readable, readableBytes]
  omega

/-- Grow the vector, or move the readable bytes to the front. It is called when the writable bytes
are too few. -/
def makeSpace (b : Buffer) (len : ℕ) (hlen : b.writableBytes < len) : Option Buffer :=
  if b.writableBytes + b.prependableBytes < len + kCheapPrepend then
    some { b with
      buffer := b.buffer.take (b.writerIndex + len) ++
        List.replicate (b.writerIndex + len - b.buffer.length) NUL
      prepend_le := by
        have := b.prepend_le
        unfold writableBytes at hlen
        simp
        omega
      writer_le := by have := b.writer_le; simp; omega }
  else if h : kCheapPrepend < b.readerIndex then
    some {
      buffer := copyTo b.buffer kCheapPrepend b.readable
      readerIndex := kCheapPrepend
      writerIndex := kCheapPrepend + b.readableBytes
      prepend_le := by
        have := b.prepend_le
        simp [copyTo]
        omega
      reader_le := Nat.le_add_right _ _
      writer_le := by
        have hlen := b.length_readable
        have := b.writer_le
        have := b.reader_le
        unfold readableBytes at hlen
        rw [length_copyTo (by omega)]
        unfold readableBytes
        omega }
  else none

def ensureWritableBytes (b : Buffer) (len : ℕ) : Option Buffer := do
  let b ← if h : b.writableBytes < len then b.makeSpace len h else some b
  if len ≤ b.writableBytes then some b else none

/-- Store `data` from `beginWrite()` on. -/
def copyIn (b : Buffer) (data : Bytes) : Buffer := { b with
  buffer := copyTo b.buffer b.writerIndex data
  prepend_le := by have := b.prepend_le; simp [copyTo]; omega
  writer_le := by have := b.writer_le; simp [copyTo]; omega }

def hasWritten (b : Buffer) (len : ℕ) : Option Buffer :=
  if h : len ≤ b.writableBytes then
    some { b with
      writerIndex := b.writerIndex + len
      reader_le := b.reader_le.trans (Nat.le_add_right _ _)
      writer_le := by have := b.writer_le; unfold writableBytes at h; omega }
  else none

def append (b : Buffer) (data : Bytes) : Option Buffer := do
  let b ← b.ensureWritableBytes data.length
  (b.copyIn data).hasWritten data.length

def extrabufSize : ℕ := 65536

/-- How many bytes the vectors of `readv` hold. -/
def readvCapacity (b : Buffer) : ℕ :=
  if b.writableBytes < extrabufSize then b.writableBytes + extrabufSize else b.writableBytes

/-- `readFd` when `readv` returns `data`, which fits into its vectors. -/
def readFd (b : Buffer) (data : Bytes) : Option Buffer :=
  let writable := b.writableBytes
  if b.readvCapacity < data.length then none
  else if data.length ≤ writable then (b.copyIn data).hasWritten data.length
  else do
    let b ← (b.copyIn (data.take writable)).hasWritten writable
    b.append (data.drop writable)

/-- The lengths of the vectors that `readFd` passes to `readv`. -/
def iovLens (b : Buffer) : List ℕ :=
  if b.writableBytes < extrabufSize then [b.writableBytes, extrabufSize] else [b.writableBytes]

/-- `readv` fills the vectors in order with these bytes, or fails. -/
inductive ReadvResult where
  | received (data : Bytes)
  | failed (errno : ℤ)

/-- The vectors hold the bytes. -/
def ReadvResult.Fits (lens : List ℕ) : ReadvResult → Prop
  | .received data => data.length ≤ lens.sum
  | .failed _ => True

/-- `readFd` with its return value and `*savedErrno`. -/
def readFdResult (b : Buffer) (savedErrno : ℤ) : ReadvResult → Option (Buffer × ℤ × ℤ)
  | .received data => (b.readFd data).map fun b' => (b', (data.length : ℤ), savedErrno)
  | .failed errno => some (b, -1, errno)

/-! ## What the operations do to the readable bytes -/

@[simp] theorem readable_init : init.readable = [] := by
  simp [readable, readableBytes, init]

theorem readable_retrieveAll (b : Buffer) : b.retrieveAll.readable = [] := by
  simp [readable, readableBytes, retrieveAll]

theorem readable_retrieve {b : Buffer} {len : ℕ} (h : len ≤ b.readable.length) :
    ∃ b', b.retrieve len = some b' ∧ b'.readable = b.readable.drop len := by
  rw [length_readable] at h
  unfold retrieve
  rw [if_pos h]
  by_cases hlt : len < b.readableBytes
  · rw [dif_pos hlt]
    refine ⟨_, rfl, ?_⟩
    simp only [readable, readableBytes] at hlt ⊢
    rw [List.drop_take, List.drop_drop]
    congr 1
    omega
  · rw [dif_neg hlt]
    refine ⟨_, rfl, ?_⟩
    rw [readable_retrieveAll, List.drop_eq_nil_of_le (by rw [length_readable]; omega)]

/-- **Taking a line.** -/
theorem func_readable {b : Buffer} {l r : Bytes} (h : b.readable = l ++ LF :: r) :
    ∃ b', b.func l.length = some (l ++ [LF], b') ∧ b'.readable = r := by
  have hcut : l ++ LF :: r = (l ++ [LF]) ++ r := by simp
  have hlen : (l ++ [LF]).length = l.length + 1 := by simp
  have hle : l.length + 1 ≤ b.readable.length := by
    rw [h]
    simp
  obtain ⟨b', hb', hread⟩ := readable_retrieve hle
  refine ⟨b', ?_, ?_⟩
  · rw [func, retrieveAsString, if_pos (b.length_readable ▸ hle), hb', Option.map_some, h, hcut,
      ← hlen, List.take_left]
  · rw [hread, h, hcut, ← hlen, List.drop_left]

theorem findEOL_eq_none_iff {b : Buffer} : b.findEOL = none ↔ LF ∉ b.readable := by
  rw [findEOL, List.findIdx?_eq_none_iff]
  constructor
  · intro h hmem
    simpa using h LF hmem
  · intro h c hc
    simpa using fun heq : c = LF => h (heq ▸ hc)

theorem findEOL_of_readable {b : Buffer} {l r : Bytes} (hl : LF ∉ l)
    (h : b.readable = l ++ LF :: r) : b.findEOL = some l.length := by
  rw [findEOL, h, List.findIdx?_append, List.findIdx?_eq_none_iff.mpr, List.findIdx?_cons]
  · simp
  · intro c hc
    simpa using fun heq : c = LF => hl (heq ▸ hc)

/-- Storing bytes and counting them as written appends them to the readable bytes. -/
theorem readable_copyIn_hasWritten {b : Buffer} {data : Bytes}
    (h : data.length ≤ b.writableBytes) :
    ∃ b', (b.copyIn data).hasWritten data.length = some b' ∧
      b'.readable = b.readable ++ data := by
  have hr := b.reader_le
  have hw := b.writer_le
  have hfit : b.writerIndex + data.length ≤ b.buffer.length := by
    unfold writableBytes at h
    omega
  have hlen : (copyTo b.buffer b.writerIndex data).length = b.buffer.length := length_copyTo hfit
  have hle : data.length ≤ (b.copyIn data).writableBytes := by
    simp only [writableBytes, copyIn, hlen]
    exact h
  unfold hasWritten
  rw [dif_pos hle]
  refine ⟨_, rfl, ?_⟩
  simp only [readable, readableBytes, copyIn, copyTo]
  have htake : (b.buffer.take b.writerIndex).length = b.writerIndex := by simp; omega
  rw [List.append_assoc, List.drop_append_of_le_length (by omega), List.drop_take]
  have hsum : b.writerIndex + data.length - b.readerIndex =
      ((b.buffer.drop b.readerIndex).take (b.writerIndex - b.readerIndex)).length +
        data.length := by
    simp
    omega
  rw [hsum, List.take_length_add_append, List.take_left]

theorem readable_makeSpace {b : Buffer} {len : ℕ} (h : b.writableBytes < len) :
    ∃ b', b.makeSpace len h = some b' ∧ b'.readable = b.readable ∧ len ≤ b'.writableBytes := by
  have hr := b.reader_le
  have hw := b.writer_le
  have hwritable : b.writableBytes = b.buffer.length - b.writerIndex := rfl
  have hreadable : b.readableBytes = b.writerIndex - b.readerIndex := rfl
  unfold makeSpace
  by_cases hgrow : b.writableBytes + b.prependableBytes < len + kCheapPrepend
  · rw [if_pos hgrow]
    have hall : b.buffer.take (b.writerIndex + len) = b.buffer :=
      List.take_of_length_le (by omega)
    refine ⟨_, rfl, ?_, ?_⟩
    · show ((b.buffer.take (b.writerIndex + len) ++ _).drop b.readerIndex).take b.readableBytes = _
      rw [hall, List.drop_append_of_le_length (by omega),
        List.take_append_of_le_length (by rw [List.length_drop]; omega)]
      rfl
    · show len ≤ (b.buffer.take (b.writerIndex + len) ++ List.replicate _ NUL).length -
        b.writerIndex
      rw [hall, List.length_append, List.length_replicate]
      omega
  · rw [if_neg hgrow]
    -- There is room before the readable bytes, so the assertion holds.
    have hprepend : b.prependableBytes = b.readerIndex := rfl
    rw [dif_pos (by omega)]
    have hlen := b.length_readable
    refine ⟨_, rfl, ?_, ?_⟩
    · show ((copyTo b.buffer kCheapPrepend b.readable).drop kCheapPrepend).take
        (kCheapPrepend + b.readableBytes - kCheapPrepend) = b.readable
      rw [Nat.add_sub_cancel_left, ← hlen]
      exact take_drop_copyTo (by omega)
    · show len ≤ (copyTo b.buffer kCheapPrepend b.readable).length -
        (kCheapPrepend + b.readableBytes)
      rw [length_copyTo (by omega)]
      omega

/-- **Appending.** -/
theorem append_readable (b : Buffer) (data : Bytes) :
    ∃ b', b.append data = some b' ∧ b'.readable = b.readable ++ data := by
  have hspace : ∃ b₁, b.ensureWritableBytes data.length = some b₁ ∧
      b₁.readable = b.readable ∧ data.length ≤ b₁.writableBytes := by
    unfold ensureWritableBytes
    by_cases h : b.writableBytes < data.length
    · obtain ⟨b₁, hb₁, hread, hle⟩ := readable_makeSpace h
      refine ⟨b₁, ?_, hread, hle⟩
      rw [dif_pos h, hb₁]
      exact if_pos hle
    · refine ⟨b, ?_, rfl, by omega⟩
      rw [dif_neg h]
      exact if_pos (by omega)
  obtain ⟨b₁, hb₁, hread, hle⟩ := hspace
  obtain ⟨b', hb', hread'⟩ := readable_copyIn_hasWritten hle
  refine ⟨b', ?_, by rw [hread', hread]⟩
  rw [append, hb₁]
  exact hb'

/-- **Reading.** Every read that fits into the vectors succeeds. -/
theorem readFd_readable {b : Buffer} {data : Bytes} (h : data.length ≤ b.readvCapacity) :
    ∃ b', b.readFd data = some b' ∧ b'.readable = b.readable ++ data := by
  unfold readFd
  rw [if_neg (by omega)]
  by_cases hle : data.length ≤ b.writableBytes
  · rw [if_pos hle]
    exact readable_copyIn_hasWritten hle
  · rw [if_neg hle]
    have htake : (data.take b.writableBytes).length = b.writableBytes := by simp; omega
    obtain ⟨b₁, hb₁, hread⟩ := readable_copyIn_hasWritten htake.le
    obtain ⟨b', hb', hread'⟩ := append_readable b₁ (data.drop b.writableBytes)
    rw [htake] at hb₁
    refine ⟨b', ?_, ?_⟩
    · rw [hb₁]
      exact hb'
    · rw [hread', hread, List.append_assoc, List.take_append_drop]

theorem readFd_length {b b' : Buffer} {data : Bytes} (h : b.readFd data = some b') :
    data.length ≤ b.readvCapacity := by
  by_contra hlt
  unfold readFd at h
  rw [if_pos (by omega)] at h
  cases h

theorem sum_iovLens (b : Buffer) : b.iovLens.sum = b.readvCapacity := by
  unfold iovLens readvCapacity
  split_ifs <;> simp

/-- **Scattered bytes are appended** in the order in which they came, and a read that fails changes
nothing. -/
theorem readFd_appends (b : Buffer) (savedErrno : ℤ) {result : ReadvResult}
    (h : result.Fits b.iovLens) :
    ∃ b' n e, b.readFdResult savedErrno result = some (b', n, e) ∧ match result with
      | .received data => n = data.length ∧ b'.readable = b.readable ++ data
      | .failed errno => n < 0 ∧ e = errno ∧ b'.readable = b.readable := by
  cases result with
  | received data =>
    have hfit : data.length ≤ b.readvCapacity := (b.sum_iovLens ▸ h : _)
    obtain ⟨b', hb', hread⟩ := readFd_readable hfit
    refine ⟨b', data.length, savedErrno, ?_, rfl, hread⟩
    rw [readFdResult, hb', Option.map_some]
  | failed errno => exact ⟨b, -1, errno, rfl, by decide, rfl, rfl⟩

/-- A buffer that is full to the end: the bytes go into the array, and the buffer grows. -/
theorem readFd_appends_full :
    let b : Buffer := ⟨List.replicate 8 NUL ++ lit "ca", 8, 10, by decide, by decide, by decide⟩
    b.writableBytes = 0 ∧ ∃ b' n e, b.readFdResult 0 (.received (lit "ts")) = some (b', n, e) ∧
      n = 2 ∧ b'.readable = lit "cats" := by
  intro b
  have hfits : (ReadvResult.received (lit "ts")).Fits b.iovLens := by
    show (lit "ts").length ≤ b.iovLens.sum
    decide
  obtain ⟨b', n, e, hread, hn, hreadable⟩ := readFd_appends b 0 hfits
  exact ⟨rfl, b', n, e, hread, hn, hreadable⟩

end Buffer

end SearchServer

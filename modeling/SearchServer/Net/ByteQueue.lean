import SearchServer.Lib.Runs
import SearchServer.Net.RawBuffer

/-!
# A buffer is a byte queue

The operations of a `Buffer` (`net/Buffer.h`) next to those of a list of bytes: `append` adds at the
end, `prepend` in front, `retrieve` drops from the front and `unwrite` from the end. Growing, moving
and shrinking change nothing. A run is a sequence of operations that meet what they ask of lengths.

* `Refines`: no assertion has failed, the indices are in order, the readable bytes are the list, and
  all replies have been those of the list.
* `apply_safe`, `apply_wrapped`: an operation keeps this when no requested length wraps, and only then.
* `byteQueue_iff`: so does a run.
-/

namespace SearchServer

/-- The integers that a buffer reads and writes. -/
inductive IntType where
  | int8
  | int16
  | int32
  | int64
deriving DecidableEq

def IntType.size : IntType → ℕ
  | .int8 => 1
  | .int16 => 2
  | .int32 => 4
  | .int64 => 8

inductive BufferOp where
  | append (data : Bytes)
  | retrieve (len : ℕ)
  | retrieveAsString (len : ℕ)
  | retrieveAllAsString
  | func (eol : ℕ)
  | unwrite (len : ℕ)
  | prepend (data : Bytes)
  | ensureWritableBytes (len : ℕ)
  | appendInt (type : IntType) (x : BitVec (8 * type.size))
  | readInt (type : IntType)
  | peekInt (type : IntType)
  | prependInt (type : IntType) (x : BitVec (8 * type.size))
  | shrink (reserve : ℕ)

/-- What an operation returns. -/
inductive BufferReply where
  | nothing
  | string (s : Bytes)
  | int (type : IntType) (x : BitVec (8 * type.size))
deriving DecidableEq

def queueOp (q : Bytes) : BufferOp → Bytes × BufferReply
  | .append data => (q ++ data, .nothing)
  | .retrieve len => (q.drop len, .nothing)
  | .retrieveAsString len => (q.drop len, .string (q.take len))
  | .retrieveAllAsString => ([], .string q)
  | .func eol => (q.drop (eol + 1), .string (q.take (eol + 1)))
  | .unwrite len => (q.take (q.length - len), .nothing)
  | .prepend data => (data ++ q, .nothing)
  | .ensureWritableBytes _ => (q, .nothing)
  | .appendInt type x => (q ++ toBytes type.size x.toNat, .nothing)
  | .readInt type =>
    (q.drop type.size, .int type (BitVec.ofNat _ (fromBytes (q.take type.size))))
  | .peekInt type => (q, .int type (BitVec.ofNat _ (fromBytes (q.take type.size))))
  | .prependInt type x => (toBytes type.size x.toNat ++ q, .nothing)
  | .shrink _ => (q, .nothing)

namespace RawBuffer

def apply (b : RawBuffer) : BufferOp → Except BufferFault (RawBuffer × BufferReply)
  | .append data => do return (← b.append data, .nothing)
  | .retrieve len => do return (← b.retrieve len, .nothing)
  | .retrieveAsString len => do
    let (b, s) ← b.retrieveAsString len
    return (b, .string s)
  | .retrieveAllAsString => do
    let (b, s) ← b.retrieveAllAsString
    return (b, .string s)
  | .func eol => do
    let (b, s) ← b.func eol
    return (b, .string s)
  | .unwrite len => do return (← b.unwrite len, .nothing)
  | .prepend data => do return (← b.prepend data, .nothing)
  | .ensureWritableBytes len => do return (← b.ensureWritableBytes len, .nothing)
  | .appendInt .int8 x => do return (← b.appendInt8 x, .nothing)
  | .appendInt .int16 x => do return (← b.appendInt16 x, .nothing)
  | .appendInt .int32 x => do return (← b.appendInt32 x, .nothing)
  | .appendInt .int64 x => do return (← b.appendInt64 x, .nothing)
  | .readInt .int8 => do
    let (b, x) ← b.readInt8
    return (b, .int .int8 x)
  | .readInt .int16 => do
    let (b, x) ← b.readInt16
    return (b, .int .int16 x)
  | .readInt .int32 => do
    let (b, x) ← b.readInt32
    return (b, .int .int32 x)
  | .readInt .int64 => do
    let (b, x) ← b.readInt64
    return (b, .int .int64 x)
  | .peekInt .int8 => do return (b, .int .int8 (← b.peekInt8))
  | .peekInt .int16 => do return (b, .int .int16 (← b.peekInt16))
  | .peekInt .int32 => do return (b, .int .int32 (← b.peekInt32))
  | .peekInt .int64 => do return (b, .int .int64 (← b.peekInt64))
  | .prependInt .int8 x => do return (← b.prependInt8 x, .nothing)
  | .prependInt .int16 x => do return (← b.prependInt16 x, .nothing)
  | .prependInt .int32 x => do return (← b.prependInt32 x, .nothing)
  | .prependInt .int64 x => do return (← b.prependInt64 x, .nothing)
  | .shrink reserve => do return (← b.shrink reserve, .nothing)

/-- What the operations ask of their lengths. Data in memory is not larger than an object can be. -/
def permits (b : RawBuffer) : BufferOp → Bool
  | .append data => data.length ≤ maxSize
  | .retrieve len | .retrieveAsString len | .unwrite len => len ≤ b.readableBytes
  | .func eol => eol < b.readableBytes
  | .prepend data => data.length ≤ b.prependableBytes
  | .readInt type | .peekInt type => type.size ≤ b.readableBytes
  | .prependInt type _ => type.size ≤ b.prependableBytes
  | .ensureWritableBytes len | .shrink len => len < 2 ^ 64
  | .retrieveAllAsString | .appendInt .. => true

/-- No length that the operation asks space for wraps. -/
def NoWrap (b : RawBuffer) : BufferOp → Prop
  | .ensureWritableBytes len => b.Fits len
  | .shrink reserve => wrap (b.readableBytes + reserve) + kCheapPrepend < 2 ^ 64
  | _ => True

variable {b : RawBuffer} {q : Bytes} {op : BufferOp}

/-- The integer operations are those on the bytes of the integer. -/
theorem apply_int (b : RawBuffer) (type : IntType) (x : BitVec (8 * type.size)) :
    b.apply (.appendInt type x) = (do return (← b.appendInt type.size x, .nothing)) ∧
      b.apply (.prependInt type x) = (do return (← b.prependInt type.size x, .nothing)) ∧
      b.apply (.peekInt type) = (do return (b, .int type (← b.peekInt type.size))) ∧
      b.apply (.readInt type) = (do
        let (b, x) ← b.readInt type.size
        return (b, .int type x)) := by
  cases type <;> exact ⟨rfl, rfl, rfl, rfl⟩

theorem safe_nothing {x : Except BufferFault RawBuffer} (hx : Safe x (Holds q)) :
    Safe (do return (← x, BufferReply.nothing)) fun p => Holds q p.1 ∧ p.2 = .nothing :=
  Ensures.bind hx fun _ hb => ⟨hb, rfl⟩

theorem safe_string {x : Except BufferFault (RawBuffer × Bytes)} {s : Bytes}
    (hx : Safe x fun (b, s') => Holds q b ∧ s' = s) :
    Safe (do let (b, s) ← x; return (b, BufferReply.string s))
      fun p => Holds q p.1 ∧ p.2 = .string s := by
  refine Ensures.bind hx fun p hp => ?_
  exact ⟨hp.1, congrArg BufferReply.string hp.2⟩

/-- **One operation.** When no length wraps, no assertion fails, and the operation does to the
readable bytes what it does to the list. -/
theorem apply_safe (h : Holds q b) (hop : b.permits op = true) (hwrap : b.NoWrap op) :
    Safe (b.apply op) fun p => Holds (queueOp q op).1 p.1 ∧ p.2 = (queueOp q op).2 := by
  cases op with
  | append data => exact safe_nothing (h.append (of_decide_eq_true hop))
  | retrieve len =>
    have hlen : len ≤ q.length := h.readableBytes ▸ of_decide_eq_true hop
    exact safe_nothing (h.retrieve hlen)
  | retrieveAsString len =>
    have hlen : len ≤ q.length := h.readableBytes ▸ of_decide_eq_true hop
    exact safe_string (h.retrieveAsString hlen)
  | retrieveAllAsString => exact safe_string h.retrieveAllAsString
  | func eol =>
    have hlen : eol < q.length := h.readableBytes ▸ of_decide_eq_true hop
    exact safe_string (h.func hlen)
  | unwrite len =>
    have hlen : len ≤ q.length := h.readableBytes ▸ of_decide_eq_true hop
    exact safe_nothing (h.unwrite hlen)
  | prepend data => exact safe_nothing (h.prepend (of_decide_eq_true hop))
  | ensureWritableBytes len =>
    exact safe_nothing ((h.ensureWritableBytes hwrap).mono fun _ hb => hb.1)
  | appendInt type x =>
    rw [(apply_int b type x).1]
    refine safe_nothing (h.append ?_)
    rw [length_toBytes]
    unfold maxSize
    cases type <;> decide
  | readInt type =>
    have hlen : type.size ≤ q.length := h.readableBytes ▸ of_decide_eq_true hop
    rw [(apply_int b type 0).2.2.2]
    refine Ensures.bind (h.readInt hlen) fun p hp => ?_
    exact ⟨hp.1, congrArg (BufferReply.int type) hp.2⟩
  | peekInt type =>
    have hlen : type.size ≤ q.length := h.readableBytes ▸ of_decide_eq_true hop
    rw [(apply_int b type 0).2.2.1]
    refine Ensures.bind (h.peekInt hlen) fun x hx => ?_
    exact ⟨h, congrArg (BufferReply.int type) hx⟩
  | prependInt type x =>
    rw [(apply_int b type x).2.1]
    refine safe_nothing (h.prepend ?_)
    rw [length_toBytes]
    exact of_decide_eq_true hop
  | shrink reserve =>
    rw [NoWrap, h.readableBytes] at hwrap
    exact safe_nothing (h.shrink hwrap)

/-- When a length wraps, an assertion fails or the indices are not in order any more. -/
theorem apply_wrapped (h : Holds q b) (hop : b.permits op = true) (hwrap : ¬ b.NoWrap op) :
    Ensures (b.apply op) (· = .assertion) fun p => ¬ p.1.InOrder := by
  cases op with
  | ensureWritableBytes len =>
    exact Ensures.bind (h.ensureWritableBytes_wrapped (of_decide_eq_true hop) hwrap) fun _ hb => hb
  | shrink reserve =>
    rw [NoWrap, h.readableBytes] at hwrap
    rw [apply, h.shrink_wrapped hwrap, error_bind]
    rfl
  | _ => exact absurd trivial hwrap

end RawBuffer

/-! ## Runs -/

/-- A buffer next to a list, with what both have returned. -/
structure Shadowed where
  buffer : RawBuffer
  queue : Bytes
  replies : List BufferReply
  expected : List BufferReply
deriving DecidableEq

namespace Shadowed

def start (b : RawBuffer) : Shadowed := ⟨b, [], [], []⟩

instance (b : RawBuffer) : Decidable b.InOrder :=
  decidable_of_iff (b.readerIndex ≤ b.writerIndex ∧ b.writerIndex ≤ b.buffer.length)
    ⟨fun h => ⟨h.1, h.2⟩, fun h => ⟨h.1, h.2⟩⟩

/-- An operation on both. After a failed assertion there is no state, and no operation is possible;
when the indices are not in order any more, an operation is undefined. A program that does not catch
`std::length_error` ends. -/
def step : Option Shadowed → BufferOp → Option (Option Shadowed)
  | none, _ => none
  | some s, op =>
    if s.buffer.InOrder ∧ s.buffer.permits op = true then
      match s.buffer.apply op with
      | .ok (b, reply) => some (some {
          buffer := b
          queue := (queueOp s.queue op).1
          replies := s.replies ++ [reply]
          expected := s.expected ++ [(queueOp s.queue op).2] })
      | .error .assertion => some none
      | .error .lengthError => none
    else none

/-- The buffer is the list. -/
structure Agrees (s : Shadowed) : Prop where
  inOrder : s.buffer.InOrder
  readable : s.buffer.readable = s.queue
  replies : s.replies = s.expected

/-- No assertion has failed, and the buffer is the list. -/
def Refines (s : Option Shadowed) : Prop := ∃ t, s = some t ∧ t.Agrees

def NoWrap (s : Option Shadowed) (op : BufferOp) : Prop :=
  ∀ t, s = some t → t.buffer.NoWrap op

/-- While its indices are in order, the vector has a size that a vector can have. -/
def Sized (s : Option Shadowed) : Prop :=
  ∀ t, s = some t → t.buffer.InOrder →
    kCheapPrepend ≤ t.buffer.buffer.length ∧ t.buffer.buffer.length ≤ maxSize

theorem step_eq_some {s : Shadowed} {op : BufferOp} {t : Option Shadowed}
    (h : step (some s) op = some t) : s.buffer.InOrder ∧ s.buffer.permits op = true := by
  unfold step at h
  exact (Option.ite_none_right_eq_some.mp h).1

/-- A step without wrapping leads to a buffer that holds the changed queue. -/
theorem step_safe {s : Shadowed} {op : BufferOp} {t : Option Shadowed} {q : Bytes}
    (h : RawBuffer.Holds q s.buffer) (hwrap : s.buffer.NoWrap op)
    (hstep : step (some s) op = some t) :
    ∃ b, RawBuffer.Holds (queueOp q op).1 b ∧ t = some {
      buffer := b
      queue := (queueOp s.queue op).1
      replies := s.replies ++ [(queueOp q op).2]
      expected := s.expected ++ [(queueOp s.queue op).2] } := by
  have hpre := step_eq_some hstep
  have hsafe := RawBuffer.apply_safe h hpre.2 hwrap
  rw [step, if_pos hpre] at hstep
  cases happly : s.buffer.apply op with
  | error e =>
    rw [happly] at hsafe hstep
    obtain rfl : e = .lengthError := hsafe
    cases hstep
  | ok p =>
    obtain ⟨b, reply⟩ := p
    rw [happly] at hsafe hstep
    obtain ⟨hholds, rfl⟩ : RawBuffer.Holds _ b ∧ reply = _ := hsafe
    exact ⟨b, hholds, (Option.some.inj hstep).symm⟩

/-- A step with wrapping leads to no buffer, or to one whose indices are not in order. -/
theorem step_wrapped {s : Shadowed} {op : BufferOp} {t : Option Shadowed} {q : Bytes}
    (h : RawBuffer.Holds q s.buffer) (hwrap : ¬ s.buffer.NoWrap op)
    (hstep : step (some s) op = some t) : ∀ u, t = some u → ¬ u.buffer.InOrder := by
  have hpre := step_eq_some hstep
  have hbroken := RawBuffer.apply_wrapped h hpre.2 hwrap
  rw [step, if_pos hpre] at hstep
  rintro u rfl
  cases happly : s.buffer.apply op with
  | error e =>
    rw [happly] at hbroken hstep
    obtain rfl : e = .assertion := hbroken
    cases hstep
  | ok p =>
    rw [happly] at hbroken hstep
    obtain rfl := Option.some.inj (Option.some.inj hstep)
    exact hbroken

theorem Sized.holds {s : Shadowed} (h : Sized (some s)) (horder : s.buffer.InOrder) :
    RawBuffer.Holds s.buffer.readable s.buffer :=
  ⟨horder, (h s rfl horder).1, (h s rfl horder).2, rfl⟩

theorem Sized.step {s t : Option Shadowed} {op : BufferOp} (h : Sized s)
    (hstep : Shadowed.step s op = some t) : Sized t := by
  cases s with
  | none => cases hstep
  | some s =>
    have hholds := h.holds (step_eq_some hstep).1
    by_cases hwrap : s.buffer.NoWrap op
    · obtain ⟨b, hb, rfl⟩ := step_safe hholds hwrap hstep
      intro u hu _
      obtain rfl := Option.some.inj hu
      exact ⟨hb.prepend_le, hb.size_le⟩
    · intro u hu horder
      exact absurd horder (step_wrapped hholds hwrap hstep u hu)

/-- A step keeps the buffer and the list together exactly if no length wraps. -/
theorem refines_step_iff {s t : Option Shadowed} {op : BufferOp} (h : Sized s) (hs : Refines s)
    (hstep : step s op = some t) : Refines t ↔ NoWrap s op := by
  obtain ⟨s, rfl, horder, hreadable, hreplies⟩ := hs
  have hholds := h.holds horder
  rw [hreadable] at hholds
  by_cases hwrap : s.buffer.NoWrap op
  · obtain ⟨b, hb, rfl⟩ := step_safe hholds hwrap hstep
    refine iff_of_true ⟨_, rfl, hb.inOrder, hb.readable, ?_⟩ ?_
    · rw [hreplies]
    · intro u hu
      obtain rfl := Option.some.inj hu
      exact hwrap
  · refine iff_of_false ?_ fun hno => hwrap (hno s rfl)
    rintro ⟨u, hu, hagrees⟩
    exact step_wrapped hholds hwrap hstep u hu hagrees.inOrder

/-- **A buffer is a byte queue** throughout a run exactly if neither its initial size nor a length
that space is asked for wraps. -/
theorem byteQueue_iff {initialSize : ℕ} (hsize : initialSize < 2 ^ 64) {b : RawBuffer}
    (hb : RawBuffer.init initialSize = .ok b) {t : Option Shadowed}
    {tr : List (Option Shadowed × BufferOp)} (hrun : Run step (some (start b)) tr t) :
    ((∀ p ∈ tr, Refines p.1) ∧ Refines t) ↔
      kCheapPrepend + initialSize < 2 ^ 64 ∧ ∀ p ∈ tr, NoWrap p.1 p.2 := by
  by_cases hinit : kCheapPrepend + initialSize < 2 ^ 64
  · have hholds := RawBuffer.holds_of_init hinit hb
    have hsized : Sized (some (start b)) := by
      rintro u hu -
      obtain rfl := Option.some.inj hu
      exact ⟨hholds.prepend_le, hholds.size_le⟩
    rw [and_iff_right hinit]
    exact hrun.throughout_iff (I := Sized) (fun _ _ _ h hstep => h.step hstep)
      (fun _ _ _ h hs hstep => refines_step_iff h hs hstep) hsized
      ⟨_, rfl, hholds.inOrder, hholds.readable, rfl⟩
  · -- The first state is not in order.
    have hbroken := RawBuffer.not_inOrder_of_init hsize hinit hb
    refine iff_of_false (fun hall => ?_) fun h => hinit h.1
    have hstart : Refines (some (start b)) := by
      cases hrun with
      | refl => exact hall.2
      | @cons _ _ _ op _ _ _ => exact hall.1 (_, op) (by simp)
    obtain ⟨u, hu, hagrees⟩ := hstart
    obtain rfl := Option.some.inj hu
    exact hbroken hagrees.inOrder

/-- A buffer with room for four bytes: two more go in front, into the reserved bytes. -/
theorem byteQueue_abcats :
    let ops : List BufferOp := [.append (lit "cat"), .prepend (lit "ab"), .append (lit "s"),
      .retrieveAsString 3]
    let replies : List BufferReply := [.nothing, .nothing, .nothing, .string (lit "abc")]
    let b : RawBuffer := ⟨List.replicate 12 NUL, 8, 8⟩
    let u : Shadowed := ⟨⟨List.replicate 6 NUL ++ lit "abcats", 9, 12⟩, lit "ats", replies, replies⟩
    RawBuffer.init 4 = .ok b ∧ exec step (some (start b)) ops = some (some u) ∧
      Refines (some u) := by
  intro ops replies b u
  have hb : RawBuffer.init 4 = .ok b := by with_unfolding_all rfl
  have hexec : exec step (some (start b)) ops = some (some u) := by decide +kernel
  refine ⟨hb, hexec, ((byteQueue_iff (by decide) hb (run_trace hexec)).mpr ⟨by decide, ?_⟩).2⟩
  intro p hp v _
  have hop : p.2 ∈ ops := mem_trace hp
  simp only [ops, List.mem_cons, List.not_mem_nil, or_false] at hop
  rcases hop with h | h | h | h
  all_goals
    rw [h]
    trivial

/-- A new buffer is asked for as many bytes as a `size_t` can say. -/
theorem not_refines_largestLength :
    ∃ b, RawBuffer.init kInitialSize = .ok b ∧
      ∃ t, exec step (some (start b)) [.ensureWritableBytes (2 ^ 64 - 1)] = some t ∧
        ¬ Refines t := by
  obtain ⟨b, hinit, hnew, hreader, hwriter, hsize⟩ :=
    RawBuffer.exists_init RawBuffer.kInitialSize_le
  have hfails : b.ensureWritableBytes (2 ^ 64 - 1) = .error .assertion :=
    hnew.ensureWritableBytes_new hreader hwriter hsize (by decide) (by decide)
  have happly : (start b).buffer.apply (.ensureWritableBytes (2 ^ 64 - 1)) = .error .assertion := by
    rw [start, RawBuffer.apply, hfails, error_bind]
  have hpermits : b.permits (.ensureWritableBytes (2 ^ 64 - 1)) = true := by
    rw [RawBuffer.permits]
    exact decide_eq_true (by decide)
  have hstep : step (some (start b)) (.ensureWritableBytes (2 ^ 64 - 1)) = some none := by
    rw [step, if_pos ⟨hnew.inOrder, hpermits⟩, happly]
  refine ⟨b, hinit, none, ?_, ?_⟩
  · rw [exec, hstep]
    rfl
  · rintro ⟨u, hu, -⟩
    cases hu

end Shadowed

end SearchServer

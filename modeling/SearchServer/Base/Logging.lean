import SearchServer.Base.LogStream

/-!
# Log records

`Logger` (`base/Logging.cc`). The constructor starts a record with the time, the thread and the
level; the operators of the stream add to it; the destructor adds the file name, the line and a
newline (`Impl::finish`) and passes the record to the log. Each of these is a sequence of operations
on the stream, which drop what does not fit.

**Theorem (`record_ends_line_iff`).** A record is never empty and has at most 3999 bytes. It ends
with a newline exactly if three bytes are left after the file name, or one byte is left and the
last piece that fit ends with a newline (`NewlineFits`). `record_without_newline` is a record that
fills the buffer: neither the newline nor anything else of `finish` fits. A record always fits into
the buffers of the asynchronous log (`records_kept`).

The proof follows the number of bytes left through `finish` (`room`). Three bytes are enough, as a
number reserves 32 bytes and needs at most 20.
-/

namespace SearchServer

/-- Pad a text on the left, as `printf` does. -/
def padLeft (width : ℕ) (c : UInt8) (s : Bytes) : Bytes := List.replicate (width - s.length) c ++ s

theorem length_padLeft (width : ℕ) (c : UInt8) (s : Bytes) :
    (padLeft width c s).length = max width s.length := by
  rw [padLeft, List.length_append, List.length_replicate]
  omega

theorem length_padLeft_digits {width n : ℕ} (c : UInt8) (hw : 0 < width) (h : n < 10 ^ width) :
    (padLeft width c (digits n)).length = width := by
  rw [length_padLeft]
  exact Nat.max_eq_left (length_digits_le hw h)

namespace Logger

inductive LogLevel where
  | trace
  | debug
  | info
  | warn
  | error
  | fatal
deriving DecidableEq

def LogLevel.name : LogLevel → Bytes
  | trace => lit "TRACE "
  | debug => lit "DEBUG "
  | info => lit "INFO  "
  | warn => lit "WARN  "
  | error => lit "ERROR "
  | fatal => lit "FATAL "

/-- The time of day with the month and the year counted from 1 and 0, in the years to 9999. -/
structure Tm where
  year : Fin 10000
  month : Fin 100
  day : Fin 100
  hour : Fin 100
  min : Fin 100
  sec : Fin 100

/-- `"%4d%02d%02d %02d:%02d:%02d."`. -/
def Tm.text (tm : Tm) : Bytes :=
  padLeft 4 SP (digits tm.year) ++ (padLeft 2 48 (digits tm.month) ++
    (padLeft 2 48 (digits tm.day) ++ (lit " " ++ (padLeft 2 48 (digits tm.hour) ++ (lit ":" ++
      (padLeft 2 48 (digits tm.min) ++ (lit ":" ++ (padLeft 2 48 (digits tm.sec) ++ lit "."))))))))

/-- The assertion of `formatTime`. -/
theorem Tm.length_text (tm : Tm) : tm.text.length = 18 := by
  have htwo : ∀ n : Fin 100, (padLeft 2 48 (digits n)).length = 2 := fun n =>
    length_padLeft_digits 48 two_pos n.isLt
  have hfour : (padLeft 4 SP (digits tm.year)).length = 4 :=
    length_padLeft_digits SP four_pos tm.year.isLt
  have hlit : (lit " ").length = 1 ∧ (lit ":").length = 1 ∧ (lit ".").length = 1 := by decide
  unfold text
  simp only [List.length_append, htwo, hfour, hlit]

/-- What a record has from its surroundings. -/
structure Context where
  time : Tm
  usec : Fin 1000000
  /-- `CurrentThread::name`. -/
  threadName : Bytes
  threadName_lt : threadName.length < 2 ^ 31
  tid : Fin (2 ^ 31)
  strerror : BitVec 32 → Bytes
  strerror_lt : ∀ e, (strerror e).length < 2 ^ 31

end Logger

/-- A record that is being written: what the constructors of `Logger` take. -/
structure Logger where
  context : Logger.Context
  level : Logger.LogLevel
  oldErrno : BitVec 32
  func : Option Bytes
  func_lt : ∀ f ∈ func, f.length < 2 ^ 31
  fileName : Bytes
  fileName_lt : fileName.length < 2 ^ 31
  line : BitVec 32

namespace Logger

open LogStream

/-- `append` with the length of the text. -/
def appendText (text : Bytes) (h : text.length < 2 ^ 31) : Op :=
  .append text (BitVec.ofInt 32 text.length) (by
    rw [BitVec.toInt_ofInt, Int.bmod_eq_of_le_mul_two] <;> omega)

theorem padLeft_lt {width : ℕ} (hw : width < 100) (c : UInt8) {n : ℕ} (hn : n < 2 ^ 31) :
    (padLeft width c (digits n) ++ lit " ").length < 2 ^ 31 := by
  have hlen : (digits n).length ≤ 10 := length_digits_le (by norm_num) (by omega)
  have hsp : (lit " ").length = 1 := by decide
  rw [List.length_append, length_padLeft, hsp]
  omega

/-- `_stream.append(t_time, 18)`. -/
def Context.timeOp (c : Context) : Op :=
  .append c.time.text 18 (by rw [c.time.length_text]; decide)

/-- `Impl::formatTime`: the time, which is formatted into `t_time`, and the microseconds. -/
def Context.formatTime (c : Context) : List Op :=
  [c.timeOp,
    appendText (padLeft 6 SP (digits c.usec) ++ lit " ") (padLeft_lt (by norm_num) SP (by omega))]

/-- `tidString`, of `cacheTid`. -/
def Context.tidString (c : Context) : Op :=
  appendText (padLeft 5 SP (digits c.tid) ++ lit " ") (padLeft_lt (by norm_num) SP c.tid.isLt)

def header (l : Logger) : List Op :=
  l.context.formatTime ++ ([.cString (some l.context.threadName), .char 58, l.context.tidString,
    .append l.level.name 6 (by cases l.level <;> decide)] ++
    if l.oldErrno ≠ 0 then
      [.cString (some (l.context.strerror l.oldErrno)), .cString (some (lit " (errno=")),
        .int l.oldErrno, .cString (some (lit ") "))]
    else [])

/-- The constructor of `Logger`, which adds the name of the function. -/
def start (l : Logger) : List Op :=
  l.header ++ (l.func.elim [] fun func => [.cString (some func), .char SP])

def finish (l : Logger) : List Op :=
  [.cString (some (lit " - ")), .string l.fileName, .char 58, .int l.line, .char LF]

/-- The stream after the constructor and the operations `ops`. -/
def stream (l : Logger) (array : Bytes) (h : array.length = kSmallBuffer) (ops : List Op) :
    Option LogStream :=
  exec put (RawFixedBuffer.new array h) (l.start ++ ops)

/-- The destructor: what it passes to `output`. -/
def destroy (l : Logger) (s : LogStream) : Option Bytes := (exec put s l.finish).map (·.data)

/-! The constructors of `Logger`, on that of `Impl`. -/

def impl (context : Context) (level : LogLevel) (oldErrno : BitVec 32) (fileName : Bytes)
    (h : fileName.length < 2 ^ 31) (line : BitVec 32) : Logger where
  context := context
  level := level
  oldErrno := oldErrno
  func := none
  func_lt := fun f hf => absurd hf (Option.not_mem_none f)
  fileName := fileName
  fileName_lt := h
  line := line

/-- For `LOG_INFO`. -/
def ofLine (context : Context) (fileName : Bytes) (h : fileName.length < 2 ^ 31)
    (line : BitVec 32) : Logger := impl context .info 0 fileName h line

/-- For `LOG_WARN`. -/
def ofLevel (context : Context) (fileName : Bytes) (h : fileName.length < 2 ^ 31)
    (line : BitVec 32) (level : LogLevel) : Logger := impl context level 0 fileName h line

/-- For `LOG_TRACE` and `LOG_DEBUG`. -/
def ofFunc (context : Context) (fileName : Bytes) (h : fileName.length < 2 ^ 31)
    (line : BitVec 32) (level : LogLevel) (func : Bytes) (hfunc : func.length < 2 ^ 31) : Logger :=
  { impl context level 0 fileName h line with
    func := some func
    func_lt := fun _ hf => Option.some.inj hf ▸ hfunc }

/-- For `LOG_ERROR` and `LOG_FATAL`, with the value of `errno`. -/
def ofErrno (context : Context) (fileName : Bytes) (h : fileName.length < 2 ^ 31)
    (line : BitVec 32) (toAbort : Bool) (errno : BitVec 32) : Logger :=
  impl context (if toAbort then .fatal else .error) errno fileName h line

/-! ## Short pieces -/

/-- The piece is shorter than 2^31 bytes. -/
def Short (op : Op) : Prop := op.piece.size < 2 ^ 31

instance (op : Op) : Decidable (Short op) := inferInstanceAs (Decidable (_ < _))

theorem short_cString {str : Bytes} (h : str.length < 2 ^ 31) : Short (.cString (some str)) :=
  Nat.lt_of_le_of_lt (List.takeWhile_prefix _).length_le h

theorem short_appendText (text : Bytes) (h : text.length < 2 ^ 31) : Short (appendText text h) := by
  show sizeOfInt (BitVec.ofInt 32 text.length).toInt < 2 ^ 31
  rw [BitVec.toInt_ofInt, Int.bmod_eq_of_le_mul_two (by omega) (by omega)]
  unfold sizeOfInt
  omega

theorem short_char (c : UInt8) : Short (.char c) := show 1 < 2 ^ 31 by norm_num

theorem short_int (v : BitVec 32) : Short (.int v) :=
  Nat.lt_of_le_of_lt (length_decimal_le (t := .int) (by decide) v) (by norm_num)

theorem short_start (l : Logger) : ∀ op ∈ l.start, Short op := by
  intro op hop
  rcases List.mem_append.mp hop with hop | hop
  · rcases List.mem_append.mp hop with hop | hop
    · rcases List.mem_cons.mp hop with rfl | hop
      · show sizeOfInt _ < 2 ^ 31
        decide
      · rw [List.mem_singleton.mp hop]
        exact short_appendText _ _
    rcases List.mem_append.mp hop with hop | hop
    · simp only [List.mem_cons, List.not_mem_nil, or_false] at hop
      rcases hop with rfl | rfl | rfl | rfl
      · exact short_cString l.context.threadName_lt
      · exact short_char 58
      · exact short_appendText _ _
      · show sizeOfInt _ < 2 ^ 31
        decide
    · split_ifs at hop
      · simp only [List.mem_cons, List.not_mem_nil, or_false] at hop
        rcases hop with rfl | rfl | rfl | rfl
        · exact short_cString (l.context.strerror_lt _)
        · exact short_cString (by decide)
        · exact short_int _
        · exact short_cString (by decide)
      · cases hop
  · cases hfunc : l.func with
    | none =>
      rw [hfunc] at hop
      cases hop
    | some func =>
      rw [hfunc] at hop
      simp only [Option.elim_some, List.mem_cons, List.not_mem_nil, or_false] at hop
      rcases hop with rfl | rfl
      · exact short_cString (l.func_lt func hfunc)
      · exact short_char SP

theorem short_finish (l : Logger) : ∀ op ∈ l.finish, Short op := by
  intro op hop
  simp only [finish, List.mem_cons, List.not_mem_nil, or_false] at hop
  rcases hop with rfl | rfl | rfl | rfl | rfl
  · exact short_cString (by decide)
  · exact l.fileName_lt
  · exact short_char 58
  · exact short_int _
  · exact short_char LF

/-! ## The bytes of a record -/

def emitAll (ops : List Op) (t : Bytes) : Bytes := ops.foldl (fun t op => op.piece.emit t) t

theorem exec_short {s : LogStream} (hs : s.cur < kSmallBuffer) {ops : List Op}
    (hops : ∀ op ∈ ops, Short op) :
    ∃ t, exec put s ops = some t ∧ t.cur < kSmallBuffer ∧ t.data = emitAll ops s.data :=
  exec_put hs fun p hp => checked_of_short p.1 (hops p.2 (mem_trace hp))

theorem emitAll_append (ops ops' : List Op) (t : Bytes) :
    emitAll (ops ++ ops') t = emitAll ops' (emitAll ops t) := List.foldl_append

theorem emitAll_singleton (op : Op) (t : Bytes) : emitAll [op] t = op.piece.emit t := rfl

theorem emit_extends (t : Bytes) (p : Piece) : t <+: p.emit t := by
  unfold Piece.emit
  split_ifs
  · exact List.prefix_append t p.bytes
  · exact List.prefix_rfl

theorem emitAll_extends (ops : List Op) (t : Bytes) : t <+: emitAll ops t := by
  induction ops generalizing t with
  | nil => exact List.prefix_rfl
  | cons op ops ih => exact (emit_extends t op.piece).trans (ih _)

theorem emit_timeOp (c : Context) : c.timeOp.piece.emit [] = c.time.text := by
  have hsize : sizeOfInt (BitVec.toInt (18 : BitVec 32)) = 18 := by decide
  have hpiece : c.timeOp.piece = .text c.time.text 18 := by
    rw [← hsize]
    rfl
  have htake : c.time.text.take 18 = c.time.text :=
    List.take_of_length_le (le_of_eq c.time.length_text)
  have hroom : ([] : Bytes).length + (Piece.text c.time.text 18).space ≤ kSmallBuffer :=
    show 0 + (18 + 1) ≤ kSmallBuffer by decide
  rw [hpiece, Piece.emit, if_pos hroom]
  exact htake

/-- The time is in the record. -/
theorem start_extends_time (l : Logger) (ops : List Op) :
    l.context.time.text <+: emitAll (l.start ++ ops) [] := by
  obtain ⟨rest, hrest⟩ : ∃ rest, l.start ++ ops = l.context.timeOp :: rest := ⟨_, rfl⟩
  have hprefix := emitAll_extends rest (l.context.timeOp.piece.emit [])
  rw [emit_timeOp] at hprefix
  rw [hrest, emitAll, List.foldl_cons, emit_timeOp]
  exact hprefix

/-! ## The end of a record -/

def left (t : Bytes) : ℕ := kSmallBuffer - t.length

/-- The bytes left after a text of `n` bytes, where `a` bytes were left. -/
def room (a n : ℕ) : ℕ := if n < a then a - n else a

/-- The newline of `finish` fits, or what fits ends with one: the stream itself or the file name. -/
def NewlineFits (t fileName : Bytes) : Prop :=
  3 ≤ room (room (left t) 3) fileName.length ∨
  (left t = 1 ∧ t.getLast? = some LF) ∨
  (fileName.length + 1 = room (left t) 3 ∧ fileName.getLast? = some LF)

/-- Add a text if it fits. -/
def addText (text t : Bytes) : Bytes := if text.length < left t then t ++ text else t

theorem emit_text (text t : Bytes) : (Piece.text text text.length).emit t = addText text t := by
  have hbytes : (Piece.text text text.length).bytes = text := List.take_length
  have hspace : (Piece.text text text.length).space = text.length + 1 := rfl
  unfold Piece.emit addText left
  rw [hbytes, hspace]
  split_ifs <;> first | rfl | omega

theorem left_addText (text t : Bytes) : left (addText text t) = room (left t) text.length := by
  unfold addText room
  split_ifs
  · rw [left, left, List.length_append]
    omega
  · rfl

theorem room_pos {a : ℕ} (ha : 0 < a) (n : ℕ) : 0 < room a n := by
  unfold room
  split_ifs <;> omega

/-- What `finish` adds after the file name. -/
def addLine (line : BitVec 32) (t : Bytes) : Bytes :=
  addText [LF] ((Op.int line).piece.emit (addText [58] t))

theorem emitAll_finish (l : Logger) (t : Bytes) :
    emitAll l.finish t = addLine l.line (addText l.fileName (addText (lit " - ") t)) := by
  have hdash : (Op.cString (some (lit " - "))).piece = .text (lit " - ") (lit " - ").length := by
    have hlen : (cStr (lit " - ")).length = (lit " - ").length := by decide
    rw [← hlen]
    rfl
  have hchar : ∀ c t, (Op.char c).piece.emit t = addText [c] t := fun c t => emit_text [c] t
  have hfile : ∀ t, (Op.string l.fileName).piece.emit t = addText l.fileName t :=
    fun t => emit_text l.fileName t
  rw [emitAll, finish]
  simp only [List.foldl_cons, List.foldl_nil]
  rw [hdash, emit_text, hfile, hchar, hchar]
  rfl

/-- A number leaves two bytes: it has at most 20 and reserves 32. -/
theorem two_le_left_int (line : BitVec 32) {t : Bytes} (h : 2 ≤ left t) :
    2 ≤ left ((Op.int line).piece.emit t) := by
  have hlen : (decimal (IntegerType.int.toInt line)).length ≤ 20 :=
    length_decimal_le (t := .int) (by decide) line
  show 2 ≤ left (if t.length + kMaxNumericSize ≤ kSmallBuffer then
    t ++ decimal (IntegerType.int.toInt line) else t)
  split_ifs with hroom
  · have hk : kMaxNumericSize = 32 := rfl
    rw [left, List.length_append]
    omega
  · exact h

/-- There is no room for a number when one byte is left. -/
theorem emit_int_of_full (line : BitVec 32) {t : Bytes} (h : left t ≤ 1) :
    (Op.int line).piece.emit t = t := by
  have hk : kMaxNumericSize = 32 := rfl
  have hfull : ¬ t.length + (Op.int line).piece.space ≤ kSmallBuffer := by
    show ¬ t.length + kMaxNumericSize ≤ kSmallBuffer
    unfold left at h
    omega
  exact if_neg hfull

theorem addText_of_full {text t : Bytes} (hne : text ≠ []) (h : left t ≤ 1) :
    addText text t = t := by
  have hpos : 0 < text.length := List.length_pos_iff.mpr hne
  exact if_neg (by omega)

theorem getLast_addText {text t : Bytes} {c : UInt8} (hlast : text.getLast? = some c)
    (hfits : text.length < left t) : (addText text t).getLast? = some c := by
  rw [addText, if_pos hfits, List.getLast?_append, hlast]
  rfl

/-- With three bytes left after the file name, the newline fits. -/
theorem getLast_addLine_of_room (line : BitVec 32) {t : Bytes} (h : 3 ≤ left t) :
    (addLine line t).getLast? = some LF := by
  have hcolon : 2 ≤ left (addText [58] t) := by
    rw [left_addText, room]
    show 2 ≤ if 1 < left t then left t - 1 else left t
    split_ifs <;> omega
  exact getLast_addText rfl (two_le_left_int line hcolon)

/-- With two bytes left, the colon fits and nothing after it. -/
theorem getLast_addLine_of_two (line : BitVec 32) {t : Bytes} (h : left t = 2) :
    (addLine line t).getLast? = some 58 := by
  have hcolon : left (addText [58] t) = 1 := by
    rw [left_addText, h]
    rfl
  rw [addLine, emit_int_of_full line hcolon.le, addText_of_full (List.cons_ne_nil _ _) hcolon.le]
  exact getLast_addText rfl (by rw [h]; decide)

/-- With one byte left, nothing fits. -/
theorem addLine_of_full (line : BitVec 32) {t : Bytes} (h : left t ≤ 1) : addLine line t = t := by
  rw [addLine, addText_of_full (List.cons_ne_nil _ _) h, emit_int_of_full line h,
    addText_of_full (List.cons_ne_nil _ _) h]

/-- The last byte of a buffer that the file name, or what is before it, fills. -/
theorem getLast_of_full {t fileName : Bytes}
    (h : room (room (left t) 3) fileName.length = 1) :
    (addText fileName (addText (lit " - ") t)).getLast? = some LF ↔
      (left t = 1 ∧ t.getLast? = some LF) ∨
      (fileName.length + 1 = room (left t) 3 ∧ fileName.getLast? = some LF) := by
  have hdash : (lit " - ").length = 3 := by decide
  have hleft : left (addText (lit " - ") t) = room (left t) 3 := by rw [left_addText, hdash]
  by_cases hname : fileName ≠ [] ∧ fileName.length < room (left t) 3
  · -- The file name fits and is what the record ends with.
    obtain ⟨hne, hfits⟩ := hname
    have hpos : 0 < fileName.length := List.length_pos_iff.mpr hne
    have hlen : fileName.length + 1 = room (left t) 3 := by
      rw [room, if_pos hfits] at h
      omega
    have hone : left t ≠ 1 := by
      intro hone
      rw [hone, room, if_neg (by omega)] at hlen
      omega
    have hlast := List.getLast?_eq_some_getLast hne
    rw [getLast_addText hlast (by rw [hleft]; exact hfits), ← hlast]
    simp only [hone, false_and, false_or, hlen, true_and]
  · -- The file name adds nothing, and one byte was left before it.
    have hfull : room (left t) 3 = 1 ∧
        addText fileName (addText (lit " - ") t) = addText (lit " - ") t := by
      by_cases hne : fileName = []
      · rw [hne, List.length_nil, room] at h
        refine ⟨by split_ifs at h <;> omega, ?_⟩
        rw [hne, addText, List.append_nil]
        exact ite_self _
      · have hlong : ¬ fileName.length < room (left t) 3 := fun hlt => hname ⟨hne, hlt⟩
        rw [room, if_neg hlong] at h
        exact ⟨h, if_neg (by rw [hleft]; exact hlong)⟩
    obtain ⟨hone, hadd⟩ := hfull
    have hname : ¬ (fileName.length + 1 = 1 ∧ fileName.getLast? = some LF) := by
      intro hlf
      rw [List.length_eq_zero_iff.mp (Nat.succ.inj hlf.1)] at hlf
      cases hlf.2
    rw [hadd, hone, or_iff_left hname]
    by_cases hlt : 3 < left t
    · have hne : left t ≠ 1 := by omega
      have hsp : (lit " - ").getLast? = some SP := by decide
      rw [getLast_addText hsp (by rw [hdash]; exact hlt)]
      exact iff_of_false (by decide) fun hcontra => hne hcontra.1
    · rw [room, if_neg hlt] at hone
      rw [addText, hdash, if_neg hlt, and_iff_right hone]

/-- **The newline of a record.** -/
theorem getLast_finish_iff (l : Logger) {t : Bytes} (ht : 0 < left t) :
    (emitAll l.finish t).getLast? = some LF ↔ NewlineFits t l.fileName := by
  have hdash : (lit " - ").length = 3 := by decide
  have hleft : left (addText l.fileName (addText (lit " - ") t)) =
      room (room (left t) 3) l.fileName.length := by rw [left_addText, left_addText, hdash]
  have hpos : 0 < room (room (left t) 3) l.fileName.length := room_pos (room_pos ht 3) _
  -- The stream or the file name can be the end of the record only if one byte is left.
  have hone : (left t = 1 ∧ t.getLast? = some LF) ∨
      (l.fileName.length + 1 = room (left t) 3 ∧ l.fileName.getLast? = some LF) →
      room (room (left t) 3) l.fileName.length = 1 := by
    intro h
    rcases h with ⟨h, -⟩ | ⟨h, -⟩
    · simp only [room, h]
      split_ifs <;> omega
    · rw [← h, room, if_pos (Nat.lt_succ_self _)]
      omega
  rw [emitAll_finish, NewlineFits]
  obtain hroom | htwo | hfull : 3 ≤ room (room (left t) 3) l.fileName.length ∨
      room (room (left t) 3) l.fileName.length = 2 ∨
      room (room (left t) 3) l.fileName.length = 1 := by omega
  · exact iff_of_true (getLast_addLine_of_room l.line (by rw [hleft]; exact hroom)) (Or.inl hroom)
  · rw [getLast_addLine_of_two l.line (by rw [hleft]; exact htwo)]
    refine iff_of_false (by decide) fun h => ?_
    rcases h with h | h
    · omega
    · have := hone h
      omega
  · rw [addLine_of_full l.line (by rw [hleft, hfull]), getLast_of_full hfull, hfull]
    exact (or_iff_right (by norm_num)).symm

/-- A stream that is full up to one byte has to end with a newline itself. -/
theorem not_newlineFits {t fileName : Bytes} (hone : left t = 1) (hlast : t.getLast? ≠ some LF) :
    ¬ NewlineFits t fileName := by
  have hroom : room (left t) 3 = 1 := by rw [hone]; rfl
  intro h
  rw [NewlineFits, hroom] at h
  rcases h with h | h | ⟨hlen, hname⟩
  · rw [room] at h
    split_ifs at h <;> omega
  · exact hlast h.2
  · rw [List.length_eq_zero_iff.mp (Nat.succ.inj hlen)] at hname
    cases hname

/-- A line of the log file: not empty, not longer than the buffer, and ended by a newline. -/
def IsLine (record : Bytes) : Prop :=
  record ≠ [] ∧ record.length ≤ 3999 ∧ record.getLast? = some LF

/-- The stream before the destructor, and the record that the destructor passes on. -/
theorem destroy_spec (l : Logger) {array : Bytes} (h : array.length = kSmallBuffer) {ops : List Op}
    (hops : ∀ op ∈ ops, Short op) :
    ∃ s record, l.stream array h ops = some s ∧ l.destroy s = some record ∧
      s.data = emitAll (l.start ++ ops) [] ∧ 0 < left s.data ∧
      record = emitAll l.finish s.data ∧ record ≠ [] ∧ record.length ≤ 3999 := by
  have hall : ∀ op ∈ l.start ++ ops, Short op := fun op hop =>
    (List.mem_append.mp hop).elim (short_start l op) (hops op)
  obtain ⟨s, hstream, hs, hdata⟩ := exec_short (new_cur_lt h) hall
  obtain ⟨t, hexec, ht, hrecord⟩ := exec_short hs (short_finish l)
  have hempty : (RawFixedBuffer.new array h : LogStream).data = [] := List.take_zero
  rw [hempty] at hdata
  refine ⟨s, t.data, hstream, ?_, hdata, ?_, hrecord, ?_, ?_⟩
  · rw [destroy, hexec, Option.map_some]
  · rw [left, RawFixedBuffer.length_data hs.le]
    omega
  · -- The record starts with the time.
    have hprefix := (start_extends_time l ops).trans (emitAll_extends l.finish _)
    rw [← hdata, ← hrecord] at hprefix
    intro hnil
    have hlen := hprefix.length_le
    rw [l.context.time.length_text, hnil] at hlen
    cases hlen
  · rw [RawFixedBuffer.length_data ht.le]
    exact Nat.le_of_lt_succ ht

/-- **When a record is a line**: exactly when its newline fits, or the last piece that fits ends
with one. -/
theorem record_ends_line_iff (l : Logger) {array : Bytes} (h : array.length = kSmallBuffer)
    {ops : List Op} (hops : ∀ op ∈ ops, Short op) :
    ∃ s record, l.stream array h ops = some s ∧ l.destroy s = some record ∧
      (IsLine record ↔ NewlineFits s.data l.fileName) := by
  obtain ⟨s, record, hstream, hdestroy, -, hleft, hrecord, hne, hlen⟩ := destroy_spec l h hops
  refine ⟨s, record, hstream, hdestroy, ?_⟩
  rw [IsLine, and_iff_right hne, and_iff_right hlen, hrecord]
  exact getLast_finish_iff l hleft

/-- What a `Logger` passes to the log, with pieces shorter than 2^31 bytes. -/
def IsRecord (record : Bytes) : Prop :=
  ∃ (l : Logger) (array : Bytes) (h : array.length = kSmallBuffer) (ops : List Op)
    (s : LogStream), (∀ op ∈ ops, Short op) ∧ l.stream array h ops = some s ∧
    l.destroy s = some record

/-- A record fits into a buffer of the asynchronous log. -/
theorem IsRecord.length_lt {record : Bytes} (h : IsRecord record) :
    record.length < kLargeBuffer := by
  obtain ⟨l, array, harray, ops, s, hops, hstream, hdestroy⟩ := h
  obtain ⟨s', record', hstream', hdestroy', -, -, -, -, hlen⟩ := destroy_spec l harray hops
  obtain rfl := Option.some.inj (hstream.symm.trans hstream')
  obtain rfl := Option.some.inj (hdestroy.symm.trans hdestroy')
  exact Nat.lt_of_le_of_lt hlen (by decide)

/-- **The asynchronous log keeps every record.** -/
theorem records_kept {tr : List (AsyncLogging × AsyncLogging.Action)}
    (h : ∀ line ∈ AsyncLogging.appended tr, IsRecord line) :
    AsyncLogging.kept (AsyncLogging.appended tr) = AsyncLogging.appended tr :=
  AsyncLogging.kept_of_short fun line hline => (h line hline).length_lt

/-- The main thread at some time. -/
def mainContext : Context where
  time := ⟨2024, 1, 2, 3, 4, 5⟩
  usec := 678
  threadName := lit "main"
  threadName_lt := by decide
  tid := 1234
  strerror _ := lit "Success"
  strerror_lt _ := by decide

/-- `LOG_INFO` in line 45 of `Server.cc`. -/
def mainRecord : Logger := ofLine mainContext (lit "Server.cc") (by decide) 45

theorem short_record_is_line :
    ∃ s record, mainRecord.stream (List.replicate kSmallBuffer 0) List.length_replicate
      [.cString (some (lit "result's size:")), .int 12] = some s ∧
      mainRecord.destroy s = some record ∧ (IsLine record ↔ NewlineFits s.data (lit "Server.cc")) :=
  record_ends_line_iff mainRecord List.length_replicate (by decide +kernel)

/-- **A record without a newline**: a string that fills the buffer to the last byte but one. -/
theorem record_without_newline :
    ¬ ∀ s record, mainRecord.stream (List.replicate kSmallBuffer 0) List.length_replicate
      [.string (List.replicate 3957 97)] = some s → mainRecord.destroy s = some record →
      IsLine record := by
  intro hline
  have hops : ∀ op ∈ [Op.string (List.replicate 3957 97)], Short op := by
    intro op hop
    rw [List.mem_singleton.mp hop]
    show (List.replicate 3957 (97 : UInt8)).length < 2 ^ 31
    rw [List.length_replicate]
    norm_num
  obtain ⟨s, record, hstream, hdestroy, hdata, hleft, hrecord, -⟩ :=
    destroy_spec mainRecord List.length_replicate hops
  have hstart : (emitAll mainRecord.start []).length = 42 := by decide +kernel
  have hfull : s.data = emitAll mainRecord.start [] ++ List.replicate 3957 97 := by
    have hfits : (List.replicate 3957 (97 : UInt8)).length <
        left (emitAll mainRecord.start []) := by
      rw [left, hstart, List.length_replicate]
      decide
    have hstring : (Op.string (List.replicate 3957 97)).piece.emit (emitAll mainRecord.start []) =
        addText (List.replicate 3957 97) (emitAll mainRecord.start []) := emit_text _ _
    rw [hdata, emitAll_append, emitAll_singleton, hstring, addText, if_pos hfits]
  have hlast : s.data.getLast? = some 97 := by
    rw [hfull, List.getLast?_append, List.getLast?_replicate]
    rfl
  have hone : left s.data = 1 := by
    rw [left, hfull, List.length_append, hstart, List.length_replicate]
    rfl
  have hlf := (hline s record hstream hdestroy).2.2
  rw [hrecord, getLast_finish_iff mainRecord hleft] at hlf
  refine not_newlineFits hone ?_ hlf
  rw [hlast]
  decide

end Logger

end SearchServer

import SearchServer.Lib.Text

/-!
# Writing the log file

`AppendFile` (`base/FileUtil.cc`) writes a line with `fwrite`, which may accept fewer bytes than it
is given, and retries with the rest until a retry accepts nothing. `LogFile` (`base/LogFile.cc`)
starts a new file when `writtenBytes` of the current one is above the limit.

The `k`-th write of a line accepts `results k` bytes, or all it is given when these are fewer, so
the sequences `results` are all that `fwrite` may do.

**Theorem (`accounted_iff`).** The bytes accepted are a prefix of the line, and the whole line
unless a retry accepts nothing. `writtenBytes` grows by the length of the line in any case: by the
number of bytes accepted exactly if no retry accepts nothing (`RetriesSucceed`).

Over all lines for which that is so the files have the lines in order (`LogFile.lines_in_files`),
and `writtenBytes` is the size of the current file.
-/

namespace SearchServer

/-- A file: the bytes that the stream has accepted, and `_written_bytes`. -/
structure AppendFile where
  file : Bytes
  writtenBytes : ℕ
deriving DecidableEq

namespace AppendFile

def new : AppendFile := ⟨[], 0⟩

/-- `write`, where `fwrite` accepts `result` bytes if it is given that many: the number of bytes
accepted, and the file. -/
def write (f : AppendFile) (result : ℕ) (logline : Bytes) : ℕ × AppendFile :=
  (min result logline.length, { f with file := f.file ++ logline.take result })

/-- The loop of `append`, after `k` writes which accepted `n` bytes. -/
def appendLoop (results : ℕ → ℕ) (logline : Bytes) (k n : ℕ) (f : AppendFile) : AppendFile :=
  if _hlt : n < logline.length then
    let w := f.write (results k) (logline.drop n)
    if _hzero : w.1 = 0 then w.2 else appendLoop results logline (k + 1) (n + w.1) w.2
  else f
termination_by logline.length - n
decreasing_by
  have hpos : 0 < w.1 := Nat.pos_of_ne_zero (by assumption)
  exact Nat.sub_lt_sub_left (by assumption) (Nat.lt_add_of_pos_right hpos)

def append (f : AppendFile) (results : ℕ → ℕ) (logline : Bytes) : AppendFile :=
  let w := f.write (results 0) logline
  let f := appendLoop results logline 1 w.1 w.2
  { f with writtenBytes := f.writtenBytes + logline.length }

/-- No retry accepts nothing: as long as the line is not complete, the next write accepts a byte. -/
def RetriesSucceed (results : ℕ → ℕ) (len : ℕ) : Prop :=
  ∀ k, ∑ i ∈ Finset.range (k + 1), results i < len → 0 < results (k + 1)

/-- A line that was appended: its bytes are accepted in order, all of them unless a retry accepts
nothing, and counted. -/
def Accounted (results : ℕ → ℕ) (logline : Bytes) (f f' : AppendFile) : Prop :=
  ∃ accepted, f'.file = f.file ++ accepted ∧ accepted <+: logline ∧
    (accepted = logline ∨ ¬ RetriesSucceed results logline.length) ∧
    f'.writtenBytes = f.writtenBytes + accepted.length

/-! ## The loop -/

theorem slice_append {α : Type*} (l : List α) {n x m : ℕ} (h : n + x ≤ m) :
    (l.drop n).take x ++ (l.take m).drop (n + x) = (l.take m).drop n := by
  have htake : (l.drop n).take x = ((l.take m).drop n).take x := by
    rw [List.drop_take, List.take_take, Nat.min_eq_left (by omega)]
  rw [htake, ← List.drop_drop, List.take_append_drop]

/-- The writes of the loop complete the line, from `n` bytes on. -/
def Completes (results : ℕ → ℕ) (len k n : ℕ) : Prop :=
  ∀ j, n + ∑ i ∈ Finset.range j, results (k + i) < len → 0 < results (k + j)

theorem completes_succ_iff {results : ℕ → ℕ} {len k n : ℕ} (hn : n < len) (hpos : 0 < results k) :
    Completes results len (k + 1) (n + min (results k) (len - n)) ↔ Completes results len k n := by
  have hsum : ∀ j, ∑ i ∈ Finset.range (j + 1), results (k + i) =
      results k + ∑ i ∈ Finset.range j, results (k + 1 + i) := by
    intro j
    rw [Finset.sum_range_succ', add_comm]
    simp only [add_zero, add_assoc, add_comm 1]
  constructor
  · intro h j hj
    cases j with
    | zero => exact hpos
    | succ j =>
      rw [hsum] at hj
      have := h j (by omega)
      rwa [add_assoc, add_comm 1] at this
  · intro h j hj
    have := h (j + 1) (by rw [hsum]; omega)
    rwa [add_assoc, add_comm 1]

/-- **The loop**: it adds the bytes from `n` to some `m`, which is the end of the line exactly if
all the writes that are made accept something. -/
theorem appendLoop_spec (results : ℕ → ℕ) (logline : Bytes) (k n : ℕ) (f : AppendFile)
    (hn : n ≤ logline.length) : ∃ m, n ≤ m ∧ m ≤ logline.length ∧
      appendLoop results logline k n f =
        { f with file := f.file ++ (logline.take m).drop n } ∧
      (m = logline.length ↔ Completes results logline.length k n) := by
  have hnil : ∀ n, (logline.take n).drop n = [] := fun n => by
    rw [List.drop_take, Nat.sub_self, List.take_zero]
  induction hrest : logline.length - n using Nat.strong_induction_on generalizing k n f with
  | _ rest ih =>
    have hlen : (logline.drop n).length = logline.length - n := List.length_drop
    rw [appendLoop]
    by_cases hlt : n < logline.length
    · rw [dif_pos hlt]
      simp only [write, hlen]
      by_cases hzero : results k = 0
      · -- The write accepts nothing, and the loop ends.
        have hnone : min (results k) (logline.length - n) = 0 := by omega
        refine ⟨n, le_rfl, hn, ?_, iff_of_false hlt.ne fun h => ?_⟩
        · rw [dif_pos hnone, hzero, List.take_zero, hnil]
        · exact absurd (h 0 (by simpa using hlt)) (by simp [hzero])
      · have hsome : min (results k) (logline.length - n) ≠ 0 := by omega
        obtain ⟨m, hle, hm, hloop, hiff⟩ := ih (logline.length - (n + min (results k)
          (logline.length - n))) (by omega) (k + 1) (n + min (results k) (logline.length - n))
          { f with file := f.file ++ (logline.drop n).take (results k) } (by omega) rfl
        refine ⟨m, by omega, hm, ?_, ?_⟩
        · have htake : (logline.drop n).take (results k) =
              (logline.drop n).take (min (results k) (logline.length - n)) := by
            rw [← hlen, ← List.take_take, List.take_length]
          rw [dif_neg hsome, hloop, List.append_assoc, htake, slice_append logline hle]
        · rw [hiff, completes_succ_iff hlt (Nat.pos_of_ne_zero hzero)]
    · rw [dif_neg hlt]
      refine ⟨n, le_rfl, hn, ?_, iff_of_true (by omega) fun j hj => absurd hj (by omega)⟩
      rw [hnil, List.append_nil]

/-! ## One line -/

theorem retriesSucceed_iff (results : ℕ → ℕ) (len : ℕ) :
    RetriesSucceed results len ↔ Completes results len 1 (min (results 0) len) := by
  have hsum : ∀ k, ∑ i ∈ Finset.range (k + 1), results i =
      results 0 + ∑ i ∈ Finset.range k, results (1 + i) := by
    intro k
    rw [Finset.sum_range_succ', add_comm]
    simp only [add_comm 1]
  constructor
  · intro h k hk
    have := h k (by rw [hsum]; omega)
    rwa [add_comm] at this
  · intro h k hk
    rw [hsum] at hk
    have := h k (by omega)
    rwa [add_comm] at this

/-- **One line**: the file gets the first `m` bytes, which is the whole line exactly if no retry
accepts nothing, and the length of the line is counted. -/
theorem append_spec (f : AppendFile) (results : ℕ → ℕ) (logline : Bytes) :
    ∃ m, m ≤ logline.length ∧
      f.append results logline = ⟨f.file ++ logline.take m, f.writtenBytes + logline.length⟩ ∧
      (m = logline.length ↔ RetriesSucceed results logline.length) := by
  have hle : min (results 0) logline.length ≤ logline.length := Nat.min_le_right ..
  obtain ⟨m, hn, hm, hloop, hiff⟩ := appendLoop_spec results logline 1 _
    { f with file := f.file ++ logline.take (results 0) } hle
  refine ⟨m, hm, ?_, by rw [hiff, retriesSucceed_iff]⟩
  have htake : logline.take (results 0) = logline.take (min (results 0) logline.length) := by
    rw [← List.take_take, List.take_length]
  have hslice := slice_append logline (n := 0) (x := min (results 0) logline.length) (m := m)
    (by omega)
  rw [List.drop_zero, List.drop_zero, Nat.zero_add] at hslice
  rw [append]
  simp only [write]
  rw [hloop]
  simp only [List.append_assoc, htake, hslice]

/-- What holds of every line: the bytes accepted are a prefix, and all of them unless a retry
accepts nothing. The whole line is counted. -/
theorem append_prefix (f : AppendFile) (results : ℕ → ℕ) (logline : Bytes) :
    ∃ accepted, (f.append results logline).file = f.file ++ accepted ∧
      (f.append results logline).writtenBytes = f.writtenBytes + logline.length ∧
      accepted <+: logline ∧ (accepted = logline ↔ RetriesSucceed results logline.length) := by
  obtain ⟨m, hm, happend, hiff⟩ := append_spec f results logline
  refine ⟨logline.take m, by rw [happend], by rw [happend], List.take_prefix m logline, ?_⟩
  rw [← hiff]
  constructor
  · intro h
    rw [← h, List.length_take, Nat.min_eq_left hm]
  · intro h
    rw [h, List.take_length]

/-- **When a line is accounted for**: exactly if no retry accepts nothing. -/
theorem accounted_iff (f : AppendFile) (results : ℕ → ℕ) (logline : Bytes) :
    Accounted results logline f (f.append results logline) ↔
      RetriesSucceed results logline.length := by
  obtain ⟨accepted, hfile, hcount, hbegins, hiff⟩ := append_prefix f results logline
  rw [Accounted, hfile, hcount]
  constructor
  · rintro ⟨accepted', hsame, -, -, hlen⟩
    obtain rfl := List.append_cancel_left hsame
    exact hiff.mp (hbegins.eq_of_length (Nat.add_left_cancel hlen).symm)
  · intro h
    obtain rfl := hiff.mpr h
    exact ⟨accepted, rfl, hbegins, Or.inl rfl, rfl⟩

/-- The first write accepts one byte, and the others nothing. -/
def oneByte (k : ℕ) : ℕ := if k = 0 then 1 else 0

/-- **Bytes that were not written are counted.** -/
theorem counts_unwritten :
    ¬ Accounted oneByte (lit "a\n") new (new.append oneByte (lit "a\n")) := by
  have happend : new.append oneByte (lit "a\n") = ⟨lit "a", 2⟩ := by
    have hloop : appendLoop oneByte (lit "a\n") 1 1 ⟨lit "a", 0⟩ = ⟨lit "a", 0⟩ := by
      rw [appendLoop]
      rfl
    exact congrArg (fun f : AppendFile => AppendFile.mk f.file (f.writtenBytes + 2)) hloop
  intro h
  obtain ⟨accepted, hfile, -, -, hcount⟩ := h
  rw [happend] at hfile hcount
  have haccepted : lit "a" = accepted := hfile
  rw [← haccepted] at hcount
  revert hcount
  decide

end AppendFile

/-! ## Rolling -/

/-- The log: the files that were closed, and the current one. -/
structure LogFile where
  rollSize : ℕ
  closed : List Bytes
  current : AppendFile

namespace LogFile

def rollFile (l : LogFile) : LogFile :=
  { l with closed := l.closed ++ [l.current.file], current := .new }

def append (l : LogFile) (results : ℕ → ℕ) (logline : Bytes) : LogFile :=
  let l := { l with current := l.current.append results logline }
  if l.rollSize < l.current.writtenBytes then l.rollFile else l

def new (rollSize : ℕ) : LogFile := ⟨rollSize, [], .new⟩

def contents (l : LogFile) : Bytes := l.closed.flatten ++ l.current.file

def appendAll (l : LogFile) (lines : List ((ℕ → ℕ) × Bytes)) : LogFile :=
  lines.foldl (fun l line => l.append line.1 line.2) l

/-- The count of the current file is its size, and below the limit. -/
structure Wf (l : LogFile) : Prop where
  size : l.current.writtenBytes = l.current.file.length
  small : l.current.writtenBytes ≤ l.rollSize

theorem wf_new (rollSize : ℕ) : (new rollSize).Wf := ⟨rfl, Nat.zero_le _⟩

theorem append_complete {l : LogFile} (h : l.Wf) {results : ℕ → ℕ} {logline : Bytes}
    (hline : AppendFile.RetriesSucceed results logline.length) :
    (l.append results logline).Wf ∧
      (l.append results logline).contents = l.contents ++ logline := by
  obtain ⟨m, hm, happend, hiff⟩ := l.current.append_spec results logline
  rw [hiff.mpr hline, List.take_length] at happend
  unfold append
  simp only [happend]
  split_ifs with hroll
  · refine ⟨⟨rfl, Nat.zero_le _⟩, ?_⟩
    simp [rollFile, contents, AppendFile.new]
  · refine ⟨⟨?_, not_lt.mp hroll⟩, ?_⟩
    · show l.current.writtenBytes + logline.length = (l.current.file ++ logline).length
      rw [h.size, List.length_append]
    · simp [contents]

theorem appendAll_complete {l : LogFile} (h : l.Wf) {lines : List ((ℕ → ℕ) × Bytes)}
    (hlines : ∀ line ∈ lines, AppendFile.RetriesSucceed line.1 line.2.length) :
    (l.appendAll lines).Wf ∧
      (l.appendAll lines).contents = l.contents ++ (lines.map Prod.snd).flatten := by
  induction lines generalizing l with
  | nil => exact ⟨h, (List.append_nil _).symm⟩
  | cons line lines ih =>
    obtain ⟨hwf, hcontents⟩ := append_complete h (hlines line List.mem_cons_self)
    obtain ⟨hwf', hall⟩ := ih hwf fun x hx => hlines x (List.mem_cons_of_mem _ hx)
    refine ⟨hwf', ?_⟩
    rw [List.map_cons, List.flatten_cons, ← List.append_assoc, ← hcontents]
    exact hall

/-- **The files have all lines in order**, when no retry accepts nothing. -/
theorem lines_in_files (rollSize : ℕ) {lines : List ((ℕ → ℕ) × Bytes)}
    (hlines : ∀ line ∈ lines, AppendFile.RetriesSucceed line.1 line.2.length) :
    ((new rollSize).appendAll lines).Wf ∧
      ((new rollSize).appendAll lines).contents = (lines.map Prod.snd).flatten :=
  appendAll_complete (wf_new rollSize) hlines

end LogFile

end SearchServer

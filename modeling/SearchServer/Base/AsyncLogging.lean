import SearchServer.Lib.Runs
import SearchServer.Lib.Text

/-!
# Asynchronous logging

`AsyncLogging` (`base/AsyncLogging.cc`). The front end appends lines to the current buffer, and
moves a full buffer to a vector. The backend thread swaps the buffers out under the lock and writes
them to the log file without it, while further lines arrive. Two spare buffers on each side are
passed around so that a full buffer can be replaced at once.

The lock makes `append` one step. The backend takes a step for the test of the flag, for the start
of its wait, for the swap, for each buffer it writes, and for the refill of its spare buffers.

**Theorem (`log_preserved`).** What has been written, the batch, the full buffers and the current
buffer are at any time the lines appended so far, in order, and no assertion of the backend fails.
A buffer discarded from a batch of more than 25 counts as written here (`Entry.discarded`).

**Theorem (`written_before_stop_iff`).** The lines appended before `stop` are in the log file when
the backend exits, exactly if the front end held no bytes at `stop`, or the backend was between its
test of the flag and its swap. There is no swap after the loop: `not_written_before_stop` is a run
that loses the record of a fatal error, although `Logger::~Logger` calls `stop` to get it written.
-/

namespace SearchServer

def kLargeBuffer : ℕ := 4000 * 1000

/-- A buffer of `size` bytes. -/
structure FixedBuffer (size : ℕ) where
  data : Bytes
  length_le : data.length ≤ size
deriving DecidableEq

namespace FixedBuffer

variable {size : ℕ}

def new : FixedBuffer size := ⟨[], Nat.zero_le _⟩

def length (b : FixedBuffer size) : ℕ := b.data.length

def avail (b : FixedBuffer size) : ℕ := size - b.length

/-- `append`, which does nothing when the bytes do not fit. -/
def append (b : FixedBuffer size) (buf : Bytes) : FixedBuffer size :=
  if h : buf.length < b.avail then
    ⟨b.data ++ buf, by
      rw [List.length_append]
      unfold avail length at h
      omega⟩
  else b

def reset (_ : FixedBuffer size) : FixedBuffer size := new

@[simp] theorem data_new : (new : FixedBuffer size).data = [] := rfl

@[simp] theorem data_reset (b : FixedBuffer size) : b.reset.data = [] := rfl

theorem data_append (b : FixedBuffer size) (buf : Bytes) :
    (b.append buf).data = if buf.length < b.avail then b.data ++ buf else b.data := by
  unfold append
  split_ifs <;> rfl

end FixedBuffer

abbrev LogBuffer := FixedBuffer kLargeBuffer

/-- What went to the log file: the bytes of a buffer or the notice about discarded buffers. A
discarded buffer is recorded where it would have been written. -/
inductive Entry where
  | data (bytes : Bytes)
  | notice (text : Bytes)
  | discarded (bytes : Bytes)
deriving DecidableEq

/-- The bytes of a buffer, written or discarded. Those of a notice are not from a buffer. -/
def Entry.logged : Entry → Bytes
  | .data b => b
  | .notice _ => []
  | .discarded b => b

/-- Where the backend thread is. -/
inductive LogPhase where
  /-- The thread has not been started. -/
  | created
  | starting
  /-- Before the test of `_running`. -/
  | test
  /-- Before the lock. -/
  | locking
  /-- In `waitForSeconds`. -/
  | waiting
  | swapped
  /-- In the loop that writes, with the buffers still to be written, and the discarded ones. -/
  | writing (rest discarded : List LogBuffer)
  | exited
deriving DecidableEq

/-- The front end and the backend. A pointer that has been moved from is `none`. -/
structure AsyncLogging where
  running : Bool := false
  currentBuffer : Option LogBuffer := some .new
  nextBuffer : Option LogBuffer := some .new
  buffers : List LogBuffer := []
  newBuffer1 : Option LogBuffer := none
  newBuffer2 : Option LogBuffer := none
  buffersToWrite : List LogBuffer := []
  phase : LogPhase := .created
  /-- The calls of `LogFile::append`. -/
  log : List Entry := []
deriving DecidableEq

namespace AsyncLogging

inductive Action where
  | append (logline : Bytes)
  | start
  | stop
  /-- A step of the backend; `now` is the text of the time. -/
  | backend (now : Bytes)
deriving DecidableEq

/-- `append`. Moving from the current buffer when there is none would be undefined. -/
def append (s : AsyncLogging) (logline : Bytes) : Option AsyncLogging :=
  s.currentBuffer.map fun current =>
    if logline.length < current.avail then
      { s with currentBuffer := some (current.append logline) }
    else
      { s with
        buffers := s.buffers ++ [current]
        currentBuffer := some ((s.nextBuffer.getD .new).append logline)
        nextBuffer := none }

/-- The part of the backend loop under the lock, after the wait. -/
def swap (s : AsyncLogging) : Option AsyncLogging :=
  s.currentBuffer.map fun current =>
    let t := { s with
      buffers := s.buffersToWrite
      buffersToWrite := s.buffers ++ [current]
      currentBuffer := s.newBuffer1
      newBuffer1 := none
      phase := .swapped }
    if t.nextBuffer = none then { t with nextBuffer := t.newBuffer2, newBuffer2 := none } else t

/-- The assertions at the start of a round. -/
def assertions (s : AsyncLogging) : Bool :=
  s.newBuffer1.map FixedBuffer.length = some 0 ∧ s.newBuffer2.map FixedBuffer.length = some 0 ∧
    s.buffersToWrite = []

/-- The notice, cut to the array it is printed to. -/
def notice (now : Bytes) (size : ℕ) : Bytes :=
  cStr ((lit "Dropped log messages at " ++ now ++ lit ", " ++ decimal (size - 2 : ℤ) ++
    lit " larger buffers\n").take 255)

/-- Refill a spare buffer from the end of the batch. The assertion is that there is one. -/
def refill (spare : Option LogBuffer) (batch : List LogBuffer) :
    Option (LogBuffer × List LogBuffer) :=
  match spare with
  | some b => some (b, batch)
  | none => batch.getLast?.map fun b => (b.reset, batch.dropLast)

/-- The end of a round. -/
def recycle (s : AsyncLogging) : Option AsyncLogging := do
  let batch := if 2 < s.buffersToWrite.length then s.buffersToWrite.take 2 else s.buffersToWrite
  let (newBuffer1, batch) ← refill s.newBuffer1 batch
  let (newBuffer2, _) ← refill s.newBuffer2 batch
  some { s with
    newBuffer1 := some newBuffer1
    newBuffer2 := some newBuffer2
    buffersToWrite := []
    phase := .test }

/-- `threadFunc`, step by step; `none` when an assertion fails. -/
def threadFunc (s : AsyncLogging) (now : Bytes) : Option AsyncLogging :=
  match s.phase with
  | .created => none
  | .starting => some { s with
      newBuffer1 := some .new
      newBuffer2 := some .new
      buffersToWrite := []
      phase := .test }
  | .test =>
    if s.running then if s.assertions then some { s with phase := .locking } else none
    else some { s with phase := .exited }
  | .locking => if s.buffers = [] then some { s with phase := .waiting } else s.swap
  | .waiting => s.swap
  | .swapped =>
    if s.buffersToWrite = [] then none
    else if 25 < s.buffersToWrite.length then some { s with
      log := s.log ++ [.notice (notice now s.buffersToWrite.length)]
      buffersToWrite := s.buffersToWrite.take 2
      phase := .writing (s.buffersToWrite.take 2) (s.buffersToWrite.drop 2) }
    else some { s with phase := .writing s.buffersToWrite [] }
  | .writing (b :: rest) discarded => some { s with
      log := s.log ++ [.data b.data]
      phase := .writing rest discarded }
  | .writing [] discarded =>
    recycle { s with log := s.log ++ discarded.map fun b => .discarded b.data }
  | .exited => none

def step (s : AsyncLogging) : Action → Option AsyncLogging
  | .append logline => s.append logline
  | .start => if s.phase = .created then some { s with running := true, phase := .starting } else none
  | .stop => if s.running then some { s with running := false } else none
  | .backend now => s.threadFunc now

/-! ## The bytes on their way to the file -/

def bytes (bs : List LogBuffer) : Bytes := bs.flatMap FixedBuffer.data

@[simp] theorem bytes_nil : bytes [] = [] := rfl

@[simp] theorem bytes_cons (b : LogBuffer) (bs : List LogBuffer) :
    bytes (b :: bs) = b.data ++ bytes bs := rfl

@[simp] theorem bytes_append (as bs : List LogBuffer) : bytes (as ++ bs) = bytes as ++ bytes bs :=
  List.flatMap_append

/-- The batch that the backend has swapped out and is still to write. -/
def batch (s : AsyncLogging) : List LogBuffer :=
  match s.phase with
  | .swapped => s.buffersToWrite
  | .writing rest discarded => rest ++ discarded
  | _ => []

/-- The buffers of the front end. -/
def front (s : AsyncLogging) : List LogBuffer := s.buffers ++ s.currentBuffer.toList

/-- What the backend has taken from the front end. -/
def settled (s : AsyncLogging) : Bytes := s.log.flatMap Entry.logged ++ bytes s.batch

/-- The lines appended by these steps. -/
def appended (tr : List (AsyncLogging × Action)) : List Bytes :=
  tr.filterMap fun p => match p.2 with
    | .append logline => some logline
    | _ => none

/-- The lines that fit into a buffer. `FixedBuffer::append` drops the others. -/
def kept (lines : List Bytes) : List Bytes := lines.filter (·.length < kLargeBuffer)

/-- The backend is between the test of `_running` and the swap. -/
def AboutToSwap (s : AsyncLogging) : Prop := s.phase = .locking ∨ s.phase = .waiting

/-! ## Buffers -/

/-- Which spare buffers the backend has. In the middle of a round the first is always used up. The
second is used up only if the batch has at least two buffers to replace both. -/
def Spares (s : AsyncLogging) : Prop :=
  match s.phase with
  | .test | .locking | .waiting =>
    s.newBuffer1 = some .new ∧ s.newBuffer2 = some .new ∧ s.buffersToWrite = []
  | .swapped | .writing .. =>
    s.newBuffer1 = none ∧ s.buffersToWrite ≠ [] ∧
      (s.newBuffer2 = some .new ∨ s.newBuffer2 = none ∧ 2 ≤ s.buffersToWrite.length)
  | _ => True

structure Wf (s : AsyncLogging) : Prop where
  current : ∃ b, s.currentBuffer = some b
  next : ∀ b, s.nextBuffer = some b → b = .new
  next_none : s.nextBuffer = none → s.buffers ≠ []
  spares : s.Spares
  started : s.running = true → s.phase ≠ .created

theorem wf_init : Wf {} where
  current := ⟨.new, rfl⟩
  next := fun _ h => (Option.some.inj h).symm
  next_none := nofun
  spares := trivial
  started := nofun

theorem data_append_new (logline : Bytes) :
    ((.new : LogBuffer).append logline).data = (kept [logline]).flatten := by
  rw [FixedBuffer.data_append]
  by_cases h : logline.length < kLargeBuffer
  · simp [kept, h, FixedBuffer.avail, FixedBuffer.length]
  · simp [kept, h, FixedBuffer.avail, FixedBuffer.length]

/-- `append` succeeds, and adds the line to the end of the front end if it fits into a buffer. -/
theorem append_spec {s : AsyncLogging} (h : s.Wf) (logline : Bytes) :
    ∃ t, s.append logline = some t ∧ t.Wf ∧ t.settled = s.settled ∧
      bytes t.front = bytes s.front ++ (kept [logline]).flatten ∧
      t.running = s.running ∧ t.phase = s.phase ∧ t.log = s.log := by
  obtain ⟨current, hcur⟩ := h.current
  by_cases hfit : logline.length < current.avail
  · have hkept : (kept [logline]).flatten = logline := by
      have hlt : logline.length < kLargeBuffer := hfit.trans_le (Nat.sub_le _ _)
      simp [kept, hlt]
    refine ⟨{ s with currentBuffer := some (current.append logline) }, by simp [append, hcur, hfit],
      { h with current := ⟨_, rfl⟩ }, rfl, ?_, rfl, rfl, rfl⟩
    simp [front, hcur, FixedBuffer.data_append, hfit, hkept]
  · have hfresh : s.nextBuffer.getD .new = .new := by
      cases hnext : s.nextBuffer with
      | none => rfl
      | some b => exact h.next b hnext
    refine ⟨{ s with
        buffers := s.buffers ++ [current]
        currentBuffer := some ((s.nextBuffer.getD .new).append logline)
        nextBuffer := none }, by simp [append, hcur, hfit],
      { h with current := ⟨_, rfl⟩, next := nofun, next_none := by simp }, rfl, ?_, rfl, rfl, rfl⟩
    simp [front, hcur, hfresh, data_append_new]

/-- What a step of the backend does with the bytes. -/
inductive Progress (s t : AsyncLogging) : Prop
  /-- The front end is left alone. -/
  | quiet (hsettled : t.settled = s.settled) (hfront : t.front = s.front)
      (hready : s.running = false → (t.AboutToSwap ↔ s.AboutToSwap))
  /-- The whole front end is taken. -/
  | swap (hready : s.AboutToSwap) (hdone : ¬ t.AboutToSwap)
      (hsettled : t.settled = s.settled ++ bytes s.front) (hfront : bytes t.front = [])

theorem swap_spec {s : AsyncLogging} (h : s.Wf) (hready : s.AboutToSwap) :
    ∃ t, s.swap = some t ∧ t.Wf ∧ t.running = s.running ∧ t.phase = .swapped ∧ Progress s t := by
  obtain ⟨current, hcur⟩ := h.current
  have hspares := h.spares
  have hbatch : s.batch = [] := by
    rcases hready with hp | hp <;> simp [batch, hp]
  obtain ⟨h1, h2, h3⟩ : s.newBuffer1 = some .new ∧ s.newBuffer2 = some .new ∧
      s.buffersToWrite = [] := by
    rcases hready with hp | hp <;> simpa [Spares, hp] using hspares
  -- After the swap there is a next buffer. If it is the second spare, the batch has two buffers.
  obtain ⟨newBuffer2, hswap, hspare⟩ : ∃ newBuffer2, s.swap = some { s with
      buffers := []
      buffersToWrite := s.buffers ++ [current]
      currentBuffer := some .new
      newBuffer1 := none
      nextBuffer := some .new
      newBuffer2 := newBuffer2
      phase := .swapped } ∧
      (newBuffer2 = some .new ∨ newBuffer2 = none ∧ 2 ≤ (s.buffers ++ [current]).length) := by
    cases hnext : s.nextBuffer with
    | none =>
      have hpos := List.length_pos_iff.mpr (h.next_none hnext)
      refine ⟨none, by simp [swap, hcur, hnext, h1, h2, h3], Or.inr ⟨rfl, ?_⟩⟩
      rw [List.length_append, List.length_singleton]
      omega
    | some b =>
      obtain rfl : b = .new := h.next b hnext
      exact ⟨some .new, by simp [swap, hcur, hnext, h1, h2, h3], Or.inl rfl⟩
  refine ⟨_, hswap, ?_, rfl, rfl, ?_⟩
  · exact {
      current := ⟨.new, rfl⟩
      next := fun b hb => (Option.some.inj hb).symm
      next_none := nofun
      spares := ⟨rfl, by simp, hspare⟩
      started := by simp }
  · apply Progress.swap hready
    · simp [AboutToSwap]
    · simp only [settled, hbatch]
      simp [batch, front, hcur]
    · simp [front]

theorem refill_spec {spare : Option LogBuffer} {batch : List LogBuffer}
    (h : spare = some .new ∨ spare = none ∧ batch ≠ []) :
    refill spare batch = some (.new, if spare = none then batch.dropLast else batch) := by
  rcases h with rfl | ⟨rfl, hne⟩
  · rfl
  · rw [refill, List.getLast?_eq_some_getLast hne]
    rfl

/-- At the end of a round there are buffers to refill both spares. -/
theorem recycle_spec {s : AsyncLogging} (h1 : s.newBuffer1 = none) (hne : s.buffersToWrite ≠ [])
    (h2 : s.newBuffer2 = some .new ∨ s.newBuffer2 = none ∧ 2 ≤ s.buffersToWrite.length) :
    s.recycle = some { s with
      newBuffer1 := some .new, newBuffer2 := some .new, buffersToWrite := [], phase := .test } := by
  have hpos := List.length_pos_iff.mpr hne
  set batch := if 2 < s.buffersToWrite.length then s.buffersToWrite.take 2 else s.buffersToWrite
    with hbatch
  have hlen : batch.length = min 2 s.buffersToWrite.length := by
    rw [hbatch]
    split_ifs with h
    · rw [List.length_take]
    · omega
  have hbatch_ne : batch ≠ [] := by
    rw [← List.length_pos_iff, hlen]
    omega
  have hsecond : s.newBuffer2 = some .new ∨ s.newBuffer2 = none ∧ batch.dropLast ≠ [] := by
    rcases h2 with h2 | ⟨h2, hle⟩
    · exact Or.inl h2
    · refine Or.inr ⟨h2, ?_⟩
      rw [← List.length_pos_iff, List.length_dropLast, hlen]
      omega
  rw [recycle, ← hbatch, h1, refill_spec (Or.inr ⟨rfl, hbatch_ne⟩)]
  simp only [if_true, Option.bind_eq_bind, Option.bind_some]
  rw [refill_spec hsecond]
  rfl

/-- **A step of the backend.** No assertion fails. -/
theorem threadFunc_spec {s : AsyncLogging} (h : s.Wf) (now : Bytes) (hstart : s.phase ≠ .created)
    (hexit : s.phase ≠ .exited) :
    ∃ t, s.threadFunc now = some t ∧ t.Wf ∧ t.running = s.running ∧ t.phase ≠ .created ∧
      Progress s t := by
  have hspares := h.spares
  unfold Spares at hspares
  unfold threadFunc
  cases hphase : s.phase with
  | created => exact absurd hphase hstart
  | exited => exact absurd hphase hexit
  | starting =>
    refine ⟨_, rfl, { h with spares := ⟨rfl, rfl, rfl⟩, started := by simp }, rfl, by simp, ?_⟩
    exact .quiet (by simp [settled, batch, hphase]) rfl (by simp [AboutToSwap, hphase])
  | test =>
    simp only [hphase] at hspares
    obtain ⟨h1, h2, h3⟩ := hspares
    by_cases hrun : s.running = true
    · have hassert : s.assertions = true := by
        simp [assertions, h1, h2, h3, FixedBuffer.length]
      rw [if_pos hrun, if_pos hassert]
      refine ⟨_, rfl, { h with spares := ⟨h1, h2, h3⟩, started := by simp }, rfl, by simp, ?_⟩
      exact .quiet (by simp [settled, batch, hphase]) rfl (by simp [hrun])
    · rw [if_neg hrun]
      refine ⟨_, rfl, { h with spares := trivial, started := by simp }, rfl, by simp, ?_⟩
      exact .quiet (by simp [settled, batch, hphase]) rfl (by simp [AboutToSwap, hphase])
  | locking =>
    by_cases hbuf : s.buffers = []
    · simp only [hphase] at hspares
      rw [if_pos hbuf]
      refine ⟨_, rfl, { h with spares := hspares, started := by simp }, rfl, by simp, ?_⟩
      exact .quiet (by simp [settled, batch, hphase]) rfl (by simp [AboutToSwap, hphase])
    · rw [if_neg hbuf]
      obtain ⟨t, ht, hwf, hrun, hsw, hprog⟩ := swap_spec h (Or.inl hphase)
      exact ⟨t, ht, hwf, hrun, by simp [hsw], hprog⟩
  | waiting =>
    obtain ⟨t, ht, hwf, hrun, hsw, hprog⟩ := swap_spec h (Or.inr hphase)
    exact ⟨t, ht, hwf, hrun, by simp [hsw], hprog⟩
  | swapped =>
    simp only [hphase] at hspares
    obtain ⟨h1, hne, h2⟩ := hspares
    rw [if_neg hne]
    by_cases hdrop : 25 < s.buffersToWrite.length
    · rw [if_pos hdrop]
      refine ⟨_, rfl, { h with spares := ⟨h1, ?_, ?_⟩, started := by simp }, rfl, by simp, ?_⟩
      · simp [hne]
      · refine h2.imp_right fun h2 => ⟨h2.1, ?_⟩
        rw [List.length_take]
        omega
      · refine .quiet ?_ rfl (by simp [AboutToSwap, hphase])
        simp [settled, batch, hphase, Entry.logged, -bytes_append]
    · rw [if_neg hdrop]
      refine ⟨_, rfl, { h with spares := ⟨h1, hne, h2⟩, started := by simp }, rfl, by simp, ?_⟩
      exact .quiet (by simp [settled, batch, hphase]) rfl (by simp [AboutToSwap, hphase])
  | writing rest discarded =>
    simp only [hphase] at hspares
    obtain ⟨h1, hne, h2⟩ := hspares
    cases rest with
    | cons b rest =>
      refine ⟨_, rfl, { h with spares := ⟨h1, hne, h2⟩, started := by simp }, rfl, by simp, ?_⟩
      refine .quiet ?_ rfl (by simp [AboutToSwap, hphase])
      simp [settled, batch, hphase, Entry.logged]
    | nil =>
      refine ⟨_, recycle_spec h1 hne h2, { h with spares := ⟨rfl, rfl, rfl⟩, started := by simp },
        rfl, by simp, ?_⟩
      refine .quiet ?_ rfl (by simp [AboutToSwap, hphase])
      simp [settled, batch, hphase, bytes, List.flatMap_map, Entry.logged]

/-! ## The log is preserved -/

theorem kept_append (as bs : List Bytes) : kept (as ++ bs) = kept as ++ kept bs :=
  List.filter_append as bs

theorem kept_of_short {lines : List Bytes} (h : ∀ l ∈ lines, l.length < kLargeBuffer) :
    kept lines = lines :=
  List.filter_eq_self.mpr fun l hl => decide_eq_true (h l hl)

theorem appended_append (tr₁ tr₂ : List (AsyncLogging × Action)) :
    appended (tr₁ ++ tr₂) = appended tr₁ ++ appended tr₂ :=
  List.filterMap_append

/-- The invariant: no byte of the lines that fit into a buffer is lost on its way. -/
def Preserved (lines : List Bytes) (s : AsyncLogging) : Prop :=
  s.Wf ∧ s.settled ++ bytes s.front = (kept lines).flatten

theorem Progress.bytes_eq {s t : AsyncLogging} (h : Progress s t) :
    t.settled ++ bytes t.front = s.settled ++ bytes s.front := by
  cases h with
  | quiet hsettled hfront => rw [hsettled, hfront]
  | swap _ _ hsettled hfront => rw [hsettled, hfront, List.append_nil]

theorem phase_of_threadFunc {s t : AsyncLogging} {now : Bytes} (h : s.threadFunc now = some t) :
    s.phase ≠ .created ∧ s.phase ≠ .exited := by
  apply And.intro
  · intro hp
    simp [threadFunc, hp] at h
  · intro hp
    simp [threadFunc, hp] at h

theorem preserved_step {tr : List (AsyncLogging × Action)} {s t : AsyncLogging} {a : Action}
    (h : Preserved (appended tr) s) (hstep : step s a = some t) :
    Preserved (appended (tr ++ [(s, a)])) t := by
  obtain ⟨hwf, hbytes⟩ := h
  rw [appended_append]
  unfold Preserved
  rw [kept_append, List.flatten_append, ← hbytes]
  cases a with
  | append logline =>
    obtain ⟨t', ht, hwf', hsettled, hfront, -⟩ := append_spec hwf logline
    obtain rfl : t' = t := Option.some.inj (ht.symm.trans hstep)
    refine ⟨hwf', ?_⟩
    rw [hsettled, hfront, List.append_assoc]
    rfl
  | start =>
    simp only [step] at hstep
    split_ifs at hstep with hphase
    cases hstep
    refine ⟨{ hwf with spares := trivial, started := by simp }, ?_⟩
    simp [settled, batch, hphase, front, appended, kept]
  | stop =>
    simp only [step] at hstep
    split_ifs at hstep
    cases hstep
    refine ⟨{ hwf with started := nofun }, ?_⟩
    simp [settled, batch, front, appended, kept]
  | backend now =>
    obtain ⟨hstart, hexit⟩ := phase_of_threadFunc hstep
    obtain ⟨t', ht, hwf', -, -, hprog⟩ := threadFunc_spec hwf now hstart hexit
    obtain rfl : t' = t := Option.some.inj (ht.symm.trans hstep)
    refine ⟨hwf', ?_⟩
    rw [hprog.bytes_eq]
    simp [appended, kept]

theorem preserved_of_run {tr : List (AsyncLogging × Action)} {s : AsyncLogging}
    (hrun : Run step {} tr s) : Preserved (appended tr) s :=
  hrun.history (P := fun tr s => Preserved (appended tr) s)
    (fun _ _ _ _ h hstep => preserved_step h hstep) ⟨wf_init, rfl⟩

/-- **The log is preserved.** In a run in which each line fits into a buffer, what has been written
or discarded, the batch, the full buffers and the current buffer are the lines appended so far; and
neither `append` nor an assertion of the backend can fail. -/
theorem log_preserved {tr : List (AsyncLogging × Action)} {s : AsyncLogging}
    (hrun : Run step {} tr s) (hshort : ∀ l ∈ appended tr, l.length < kLargeBuffer) :
    s.log.flatMap Entry.logged ++ bytes s.batch ++ bytes s.buffers ++
        bytes s.currentBuffer.toList = (appended tr).flatten ∧
      (∀ logline, (s.append logline).isSome) ∧
      (s.phase ≠ .created → s.phase ≠ .exited → ∀ now, (s.threadFunc now).isSome) := by
  obtain ⟨hwf, hbytes⟩ := preserved_of_run hrun
  refine ⟨?_, fun logline => ?_, fun hstart hexit now => ?_⟩
  · rw [← kept_of_short hshort, ← hbytes, front, bytes_append, settled]
    simp only [List.append_assoc]
  · obtain ⟨t, ht, -⟩ := append_spec hwf logline
    exact Option.isSome_of_eq_some ht
  · obtain ⟨t, ht, -⟩ := threadFunc_spec hwf now hstart hexit
    exact Option.isSome_of_eq_some ht

/-- A round writes the first line. The second line arrives meanwhile and goes into the next batch, and
the third one arrives after the swap. -/
def threeLines : List Action :=
  [.start, .backend [], .append (lit "one\n"), .backend [], .backend [], .backend [], .backend [],
    .append (lit "two\n"), .backend [], .backend [], .backend [], .backend [], .backend [],
    .append (lit "three\n")]

theorem log_preserved_threeLines :
    ∃ s, exec step {} threeLines = some s ∧ s.log = [.data (lit "one\n")] ∧
      bytes s.batch = lit "two\n" ∧ bytes s.currentBuffer.toList = lit "three\n" ∧
      s.log.flatMap Entry.logged ++ bytes s.batch ++ bytes s.buffers ++
        bytes s.currentBuffer.toList = lit "one\ntwo\nthree\n" ∧ (s.threadFunc []).isSome := by
  obtain ⟨s, hs, hlog, hbatch, hcurrent, hphase⟩ : ∃ s, exec step {} threeLines = some s ∧
      s.log = [.data (lit "one\n")] ∧ bytes s.batch = lit "two\n" ∧
      bytes s.currentBuffer.toList = lit "three\n" ∧ s.phase = .swapped := by
    refine ⟨(exec step {} threeLines).get (by decide +kernel), (Option.some_get _).symm, ?_⟩
    decide +kernel
  have hlines : appended (trace step {} threeLines) = [lit "one\n", lit "two\n", lit "three\n"] := by
    decide +kernel
  have hshort : ∀ l ∈ appended (trace step {} threeLines), l.length < kLargeBuffer := by
    rw [hlines]
    decide +kernel
  obtain ⟨hbytes, -, hnext⟩ := log_preserved (run_trace hs) hshort
  rw [hlines] at hbytes
  exact ⟨s, hs, hlog, hbatch, hcurrent, hbytes, hnext (by simp [hphase]) (by simp [hphase]) []⟩

/-! ## After `stop` -/

/-- The bytes of buffers in the log file. -/
def written (log : List Entry) : Bytes :=
  log.flatMap fun
    | .data b => b
    | _ => []

/-- No buffer has been discarded, and none is being discarded. -/
def NoneDiscarded (s : AsyncLogging) : Prop :=
  written s.log = s.log.flatMap Entry.logged ∧ ∀ rest discarded,
    s.phase = .writing rest discarded → discarded = []

/-- A batch that is swapped out has at most 25 buffers. -/
def AtMost25 (s : AsyncLogging) : Prop := s.phase = .swapped → s.buffersToWrite.length ≤ 25

theorem NoneDiscarded.log {s t : AsyncLogging} (h : s.NoneDiscarded) (hlog : t.log = s.log)
    (hphase : ∀ rest discarded, t.phase = .writing rest discarded → discarded = []) :
    t.NoneDiscarded :=
  ⟨by rw [hlog]; exact h.1, hphase⟩

theorem swap_eq_some {s t : AsyncLogging} (h : s.swap = some t) :
    t.log = s.log ∧ t.phase = .swapped := by
  obtain ⟨current, -, rfl⟩ := Option.map_eq_some_iff.mp h
  dsimp only
  split_ifs <;> exact ⟨rfl, rfl⟩

theorem recycle_eq_some {s t : AsyncLogging} (h : s.recycle = some t) :
    t.log = s.log ∧ t.phase = .test := by
  simp only [recycle, Option.bind_eq_bind, Option.bind_eq_some_iff] at h
  obtain ⟨_, -, _, -, h⟩ := h
  cases h
  exact ⟨rfl, rfl⟩

theorem noneDiscarded_step {s t : AsyncLogging} {a : Action} (h : s.NoneDiscarded)
    (hG : s.AtMost25) (hstep : step s a = some t) : t.NoneDiscarded := by
  cases a with
  | append logline =>
    obtain ⟨current, -, rfl⟩ := Option.map_eq_some_iff.mp hstep
    split_ifs
    · exact h.log rfl h.2
    · exact h.log rfl h.2
  | start =>
    simp only [step] at hstep
    split_ifs at hstep
    cases hstep
    exact h.log rfl (by simp)
  | stop =>
    simp only [step] at hstep
    split_ifs at hstep
    cases hstep
    exact h.log rfl h.2
  | backend now =>
    simp only [step, threadFunc] at hstep
    split at hstep
    · cases hstep
    · cases hstep
      exact h.log rfl (by simp)
    · split_ifs at hstep
      · cases hstep
        exact h.log rfl (by simp)
      · cases hstep
        exact h.log rfl (by simp)
    · split_ifs at hstep
      · cases hstep
        exact h.log rfl (by simp)
      · obtain ⟨hlog, hphase⟩ := swap_eq_some hstep
        exact h.log hlog (by simp [hphase])
    · obtain ⟨hlog, hphase⟩ := swap_eq_some hstep
      exact h.log hlog (by simp [hphase])
    · rename_i hphase
      have hle := hG hphase
      split_ifs at hstep
      · omega
      · cases hstep
        exact h.log rfl (by simp)
    · rename_i b rest discarded hphase
      cases hstep
      refine ⟨?_, fun rest' discarded' heq => ?_⟩
      · simp only [written, List.flatMap_append]
        exact congrArg (· ++ _) h.1
      · cases heq
        exact h.2 _ _ hphase
    · rename_i discarded hphase
      obtain ⟨hlog, hphase'⟩ := recycle_eq_some hstep
      obtain rfl := h.2 _ _ hphase
      exact h.log (by simpa using hlog) (by simp [hphase'])
    · cases hstep

/-- What holds after `stop`: the backend will not pass the test of the flag again. -/
structure Stopped (s : AsyncLogging) : Prop where
  wf : s.Wf
  running : s.running = false
  phase : s.phase ≠ .created

/-- A step after `stop` takes the whole front end or nothing from it, and adds to its end. -/
theorem stopped_step {s t : AsyncLogging} {a : Action} (h : Stopped s)
    (hstep : step s a = some t) :
    Stopped t ∧ ((t.settled = s.settled ∧ (t.AboutToSwap ↔ s.AboutToSwap) ∧
        bytes s.front <+: bytes t.front) ∨
      s.AboutToSwap ∧ ¬ t.AboutToSwap ∧ t.settled = s.settled ++ bytes s.front) := by
  obtain ⟨hwf, hrun, hphase⟩ := h
  cases a with
  | append logline =>
    obtain ⟨t', ht, hwf', hsettled, hfront, hrun', hphase', -⟩ := append_spec hwf logline
    obtain rfl : t' = t := Option.some.inj (ht.symm.trans hstep)
    refine ⟨⟨hwf', hrun'.trans hrun, by rwa [hphase']⟩, Or.inl ⟨hsettled, ?_, ?_⟩⟩
    · rw [AboutToSwap, AboutToSwap, hphase']
    · rw [hfront]
      exact List.prefix_append _ _
  | start => simp [step, hphase] at hstep
  | stop => simp [step, hrun] at hstep
  | backend now =>
    obtain ⟨hstart, hexit⟩ := phase_of_threadFunc hstep
    obtain ⟨t', ht, hwf', hrun', hphase', hprog⟩ := threadFunc_spec hwf now hstart hexit
    obtain rfl : t' = t := Option.some.inj (ht.symm.trans hstep)
    refine ⟨⟨hwf', hrun'.trans hrun, hphase'⟩, ?_⟩
    cases hprog with
    | quiet hsettled hfront hready =>
      exact Or.inl ⟨hsettled, hready hrun, hfront ▸ List.prefix_rfl⟩
    | swap hready hdone hsettled _ => exact Or.inr ⟨hready, hdone, hsettled⟩

/-- If the backend will not swap again, it takes nothing more. -/
theorem settled_of_stopped {s t : AsyncLogging} {tr : List (AsyncLogging × Action)}
    (hrun : Run step s tr t) (h : Stopped s) (hpast : ¬ s.AboutToSwap) :
    t.settled = s.settled := by
  refine (hrun.invariant (P := fun u => Stopped u ∧ ¬ u.AboutToSwap ∧ u.settled = s.settled)
    ?_ ⟨h, hpast, rfl⟩).2.2.2
  intro u a v ⟨hu, hpast, hsettled⟩ hstep
  obtain ⟨hv, ⟨heq, hready, -⟩ | ⟨hready, -⟩⟩ := stopped_step hu hstep
  · exact ⟨hv, fun hv' => hpast (hready.mp hv'), heq.trans hsettled⟩
  · exact absurd hready hpast

/-- If the backend is about to swap, it takes what is in the front end. -/
theorem prefix_of_stopped {s t : AsyncLogging} {tr : List (AsyncLogging × Action)}
    (hrun : Run step s tr t) (h : Stopped s) (hexit : t.phase = .exited) :
    s.AboutToSwap → s.settled ++ bytes s.front <+: t.settled := by
  intro hready
  set bs := s.settled ++ bytes s.front with hbs
  have key := (hrun.invariant (P := fun u => Stopped u ∧ (u.AboutToSwap → bs <+:
    u.settled ++ bytes u.front) ∧ (¬ u.AboutToSwap → bs <+: u.settled)) ?_
    ⟨h, fun _ => List.prefix_rfl, fun hpast => absurd hready hpast⟩).2
  · exact key.2.2 (by simp [AboutToSwap, hexit])
  · intro u a v ⟨hu, hin, hout⟩ hstep
    obtain ⟨hv, ⟨heq, hiff, hfront⟩ | ⟨hu', hv', heq⟩⟩ := stopped_step hu hstep
    · refine ⟨hv, fun hv' => ?_, fun hv' => ?_⟩
      · rw [heq]
        exact (hin (hiff.mp hv')).trans ((List.prefix_append_right_inj _).mpr hfront)
      · rw [heq]
        exact hout fun hu' => hv' (hiff.mpr hu')
    · refine ⟨hv, fun hin' => absurd hin' hv', fun _ => ?_⟩
      rw [heq]
      exact hin hu'

theorem stop_eq_some {s t : AsyncLogging} (h : step s .stop = some t) :
    s.running = true ∧ t = { s with running := false } := by
  simp only [step] at h
  split_ifs at h with hrun
  exact ⟨hrun, (Option.some.inj h).symm⟩

/-- **What `stop` saves.** Let `stop` be called in state `s`, let the lines appended before fit into
a buffer, and let no batch have more than 25 buffers. When the backend exits, these lines are in the
log file exactly if the front end held no bytes in `s`, or the backend was about to swap. -/
theorem written_before_stop_iff {tr₁ tr₂ : List (AsyncLogging × Action)} {s t : AsyncLogging}
    (hrun : Run step {} (tr₁ ++ (s, .stop) :: tr₂) t) (hexit : t.phase = .exited)
    (hshort : ∀ l ∈ appended tr₁, l.length < kLargeBuffer)
    (hdrop : ∀ p ∈ tr₁ ++ (s, .stop) :: tr₂, p.1.AtMost25) :
    (appended tr₁).flatten <+: written t.log ↔
      bytes s.front = [] ∨ s.AboutToSwap := by
  obtain ⟨v, hbefore, hstop, hafter⟩ := hrun.split
  obtain ⟨hrunning, rfl⟩ := stop_eq_some hstop
  obtain ⟨hwf, hbytes⟩ := preserved_of_run hbefore
  rw [kept_of_short hshort] at hbytes
  have hnone : t.NoneDiscarded :=
    (hrun.guarded (P := NoneDiscarded) (G := fun s _ => s.AtMost25)
      (fun _ _ _ h hG hstep => noneDiscarded_step h hG hstep) ⟨rfl, by simp⟩ hdrop).2
  have hlog : written t.log = t.settled := by
    rw [hnone.1, settled, batch, hexit, bytes_nil, List.append_nil]
  have hstopped : Stopped { s with running := false } :=
    ⟨{ hwf with started := nofun }, rfl, hwf.started hrunning⟩
  rw [hlog, ← hbytes]
  by_cases hready : s.AboutToSwap
  · have hprefix := prefix_of_stopped hafter hstopped hexit hready
    exact iff_of_true hprefix (Or.inr hready)
  · -- Nothing is taken any more, so there is room for the front end only if it is empty.
    have hpast := settled_of_stopped hafter hstopped hready
    have heq : t.settled = s.settled := hpast
    rw [heq, or_iff_left hready]
    apply Iff.intro
    · intro h
      have hle := h.length_le
      rw [List.length_append] at hle
      exact List.length_eq_zero_iff.mp (by omega)
    · intro h
      rw [h, List.append_nil]

instance (s : AsyncLogging) : Decidable s.AtMost25 := inferInstanceAs (Decidable (_ → _))

def atStop (before : List Action) : AsyncLogging := (exec step {} before).getD {}

/-- The state after `stop` and these actions. -/
def atEnd (before rest : List Action) : AsyncLogging :=
  (exec step { atStop before with running := false } rest).getD {}

theorem run_stop (before rest : List Action)
    (hbefore : exec step {} before = some (atStop before))
    (hrunning : (atStop before).running = true)
    (hrest : exec step { atStop before with running := false } rest = some (atEnd before rest)) :
    Run step {} (trace step {} before ++ (atStop before, .stop) ::
      trace step { atStop before with running := false } rest) (atEnd before rest) :=
  run_through hbefore (by rw [step, if_pos hrunning]) hrest

/-- A line arrives and `stop` is called while the backend waits. -/
def stopWhileWaiting : List Action × List Action :=
  ([.start, .backend [], .backend [], .backend [], .append (lit "INFO\n")],
    [.backend [], .backend [], .backend [], .backend [], .backend []])

theorem written_before_stop_waiting :
    (atStop stopWhileWaiting.1).phase = .waiting ∧
      (atEnd stopWhileWaiting.1 stopWhileWaiting.2).phase = .exited ∧
      lit "INFO\n" <+: written (atEnd stopWhileWaiting.1 stopWhileWaiting.2).log := by
  have hrun := run_stop stopWhileWaiting.1 stopWhileWaiting.2
    (by decide +kernel) (by decide +kernel) (by decide +kernel)
  have hexit : (atEnd stopWhileWaiting.1 stopWhileWaiting.2).phase = .exited := by decide +kernel
  have hwait : (atStop stopWhileWaiting.1).phase = .waiting := by decide +kernel
  exact ⟨hwait, hexit, (written_before_stop_iff hrun hexit (by decide +kernel)
    (by decide +kernel)).mpr (Or.inr (Or.inr hwait))⟩

/-- The backend is writing a batch when a fatal error is logged and `stop` is called. -/
def stopWhileWriting : List Action × List Action :=
  ([.start, .backend [], .append (lit "INFO\n"), .backend [], .backend [], .backend [],
    .append (lit "FATAL\n")], [.backend [], .backend [], .backend [], .backend []])

/-- The record of the fatal error is not in the log file when the backend exits. -/
theorem not_written_before_stop :
    ¬ ∀ (tr₁ tr₂ : List (AsyncLogging × Action)) (s t : AsyncLogging),
      Run step {} (tr₁ ++ (s, .stop) :: tr₂) t → t.phase = .exited →
        (∀ p ∈ tr₁ ++ (s, .stop) :: tr₂, p.1.AtMost25) →
        (appended tr₁).flatten <+: written t.log := by
  intro h
  have hrun := run_stop stopWhileWriting.1 stopWhileWriting.2
    (by decide +kernel) (by decide +kernel) (by decide +kernel)
  have hlog := h _ _ _ _ hrun (by decide +kernel) (by decide +kernel)
  exact absurd hlog (by decide +kernel)

end AsyncLogging

end SearchServer

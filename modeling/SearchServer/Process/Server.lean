import SearchServer.Lib.Runs
import SearchServer.Net.Buffer

/-!
# Receiving queries

`TcpConnection::handleRead` appends what one `read` returned to the input buffer and calls
`Server::onMessage`, which takes a line from the buffer, replaces its newline by a NUL and hands it
to the thread pool. It takes one line, also when the buffer has several; the other lines stay there
until more bytes arrive.

**Theorem (`split_independent_iff`).** Two ways of splitting a stream into reads deliver the same
lines and leave no complete line behind exactly when, in both, no suffix of the reads has more
newlines than reads (`KeepsUp`).

The proof follows two quantities through the reads: the bytes still to be delivered, which are the
readable bytes of the buffer (`Received`), and how many newlines they have (`backlog`).
-/

namespace SearchServer

namespace Server

/-- `msg.back() = 0` when the last byte is a newline. -/
def terminate (msg : Bytes) : Bytes :=
  if msg.getLast? = some LF then msg.dropLast ++ [NUL] else msg

/-- `onMessage`: the message for the thread pool, if there is a line, and the buffer after it. -/
def onMessage (buf : Buffer) : Option (Option Bytes × Buffer) :=
  match buf.findEOL with
  | none => some (none, buf)
  | some eof => (buf.func eof).map fun (msg, buf) => (some (terminate msg), buf)

/-- The reply that `doTaskThread` sends when `doQuery` returns `ret`: its size and itself. -/
def replyMessage (ret : Bytes) : Bytes := decimal (wrapInt ret.length) ++ (lit "\n" ++ ret)

theorem terminate_line (l : Bytes) : terminate (l ++ [LF]) = l ++ [NUL] := by
  simp [terminate]

/-- A connection that receives: its input buffer, and what was handed to the thread pool. -/
structure Receiver where
  inputBuffer : Buffer
  tasks : List Bytes

namespace Receiver

def init : Receiver := ⟨.init, []⟩

/-- `handleRead` when the read returns `data`. When there is no data the connection is closed. -/
def handleRead (s : Receiver) (data : Bytes) : Option Receiver := do
  if data = [] then none
  let buf ← s.inputBuffer.readFd data
  let (msg, buf) ← onMessage buf
  return ⟨buf, s.tasks ++ msg.toList⟩

def receive (s : Receiver) (reads : List Bytes) : Option Receiver := exec handleRead s reads

/-! ## One read -/

theorem onMessage_of_no_line {buf : Buffer} (h : LF ∉ buf.readable) :
    onMessage buf = some (none, buf) := by
  rw [onMessage, Buffer.findEOL_eq_none_iff.mpr h]

theorem onMessage_of_line {buf : Buffer} {l r : Bytes} (hl : LF ∉ l)
    (h : buf.readable = l ++ LF :: r) :
    ∃ buf', onMessage buf = some (some (l ++ [NUL]), buf') ∧ buf'.readable = r := by
  obtain ⟨buf', hfunc, hread⟩ := Buffer.func_readable h
  refine ⟨buf', ?_, hread⟩
  rw [onMessage, Buffer.findEOL_of_readable hl h]
  simp only [hfunc, Option.map_some, terminate_line]

/-- The newlines left after reading `data` with `n` newlines left before. -/
def backlogStep (n : ℕ) (data : Bytes) : ℕ := n + data.count LF - 1

/-- The connection has received `stream`: the lines handed over are the first lines of the stream,
and the rest is in the buffer. -/
def Received (stream : Bytes) (s : Receiver) : Prop :=
  ∃ ls : List Bytes, s.tasks = ls.map (· ++ [NUL]) ∧ (∀ l ∈ ls, LF ∉ l) ∧
    stream = ls.flatMap (· ++ [LF]) ++ s.inputBuffer.readable

theorem received_init : Received [] init := ⟨[], rfl, by simp, by simp [init]⟩

/-- Every newline received ends a line that was handed over, or is in the buffer. -/
theorem Received.length_tasks {stream : Bytes} {s : Receiver} (h : Received stream s) :
    s.tasks.length + s.inputBuffer.readable.count LF = stream.count LF := by
  obtain ⟨ls, htasks, hls, hstream⟩ := h
  have hcount : ∀ ls : List Bytes, (∀ l ∈ ls, LF ∉ l) →
      (ls.flatMap (· ++ [LF])).count LF = ls.length := by
    intro ls hls
    induction ls with
    | nil => rfl
    | cons l ls ih =>
      have hl : l.count LF = 0 := List.count_eq_zero.mpr (hls l List.mem_cons_self)
      rw [List.flatMap_cons, List.count_append, List.count_append, hl,
        ih fun k hk => hls k (List.mem_cons_of_mem _ hk), List.length_cons]
      show 0 + 1 + ls.length = ls.length + 1
      omega
  rw [hstream, List.count_append, hcount ls hls, htasks, List.length_map]

/-- **One read.** A read that fits into the vectors of `readv` succeeds, and delivers one line if
there is one. -/
theorem handleRead_spec {stream : Bytes} {s : Receiver} (hs : Received stream s) {data : Bytes}
    (hne : data ≠ []) (hfit : data.length ≤ s.inputBuffer.readvCapacity) :
    ∃ s', s.handleRead data = some s' ∧ Received (stream ++ data) s' ∧
      s'.inputBuffer.readable.count LF = backlogStep (s.inputBuffer.readable.count LF) data := by
  obtain ⟨ls, htasks, hls, hstream⟩ := hs
  obtain ⟨buf, hbuf, hread⟩ := Buffer.readFd_readable hfit
  have hcount : buf.readable.count LF = s.inputBuffer.readable.count LF + data.count LF := by
    rw [hread, List.count_append]
  by_cases hline : LF ∈ buf.readable
  · obtain ⟨l, r, hlr, hl⟩ := List.eq_append_cons_of_mem hline
    obtain ⟨buf', hmsg, hr⟩ := onMessage_of_line hl hlr
    refine ⟨⟨buf', s.tasks ++ [l ++ [NUL]]⟩, ?_, ⟨ls ++ [l], ?_, ?_, ?_⟩, ?_⟩
    · simp [handleRead, hne, hbuf, hmsg]
    · simp [htasks]
    · intro k hk
      rcases List.mem_append.mp hk with hk | hk
      · exact hls k hk
      · rw [List.mem_singleton.mp hk]
        exact hl
    · rw [hstream, List.append_assoc, ← hread, hlr, List.flatMap_append, hr]
      simp
    · have hone : buf.readable.count LF = r.count LF + 1 := by
        rw [hlr, List.count_append, List.count_eq_zero.mpr hl, List.count_cons_self, Nat.zero_add]
      show buf'.readable.count LF = _
      rw [hr, backlogStep, ← hcount, hone, Nat.add_sub_cancel]
  · refine ⟨⟨buf, s.tasks⟩, ?_, ⟨ls, htasks, hls, ?_⟩, ?_⟩
    · simp [handleRead, hne, hbuf, onMessage_of_no_line hline]
    · rw [hstream, List.append_assoc, ← hread]
    · have hzero : buf.readable.count LF = 0 := List.count_eq_zero.mpr hline
      show buf.readable.count LF = _
      rw [backlogStep, ← hcount, hzero]

theorem handleRead_some {s s' : Receiver} {data : Bytes} (h : s.handleRead data = some s') :
    data ≠ [] ∧ data.length ≤ s.inputBuffer.readvCapacity := by
  have hne : data ≠ [] := by
    rintro rfl
    simp [handleRead] at h
  refine ⟨hne, ?_⟩
  by_contra hlt
  rw [handleRead, if_neg hne] at h
  cases hbuf : s.inputBuffer.readFd data with
  | none => simp [hbuf] at h
  | some buf => exact hlt (Buffer.readFd_length hbuf)

/-! ## All reads -/

/-- The newlines left in the buffer after the reads. -/
def backlog (n : ℕ) (reads : List Bytes) : ℕ := reads.foldl backlogStep n

theorem receive_isSome {stream : Bytes} {s : Receiver} (hs : Received stream s)
    {reads : List Bytes} (hne : ∀ data ∈ reads, data ≠ [])
    (hfit : ∀ data ∈ reads, data.length ≤ Buffer.extrabufSize) : ∃ t, s.receive reads = some t := by
  induction reads generalizing stream s with
  | nil => exact ⟨s, rfl⟩
  | cons data reads ih =>
    have hcap : Buffer.extrabufSize ≤ s.inputBuffer.readvCapacity := by
      unfold Buffer.readvCapacity
      split_ifs <;> omega
    obtain ⟨u, hu, hrec, -⟩ := handleRead_spec hs (hne data List.mem_cons_self)
      ((hfit data List.mem_cons_self).trans hcap)
    obtain ⟨t, ht⟩ := ih hrec (fun d hd => hne d (List.mem_cons_of_mem _ hd))
      fun d hd => hfit d (List.mem_cons_of_mem _ hd)
    refine ⟨t, ?_⟩
    show (s.handleRead data).bind _ = some t
    rw [hu]
    exact ht

theorem receive_spec {stream : Bytes} {s t : Receiver} {reads : List Bytes}
    (hs : Received stream s) (h : s.receive reads = some t) :
    Received (stream ++ reads.flatten) t ∧
      t.inputBuffer.readable.count LF = backlog (s.inputBuffer.readable.count LF) reads := by
  induction reads generalizing stream s with
  | nil =>
    cases h
    exact ⟨by simpa using hs, rfl⟩
  | cons data reads ih =>
    obtain ⟨u, hu, hut⟩ := Option.bind_eq_some_iff.mp h
    obtain ⟨hne, hfit⟩ := handleRead_some hu
    obtain ⟨u', hu', hrec, hcount⟩ := handleRead_spec hs hne hfit
    obtain rfl : u = u' := Option.some.inj (hu.symm.trans hu')
    obtain ⟨hfinal, hback⟩ := ih hrec hut
    refine ⟨by simpa using hfinal, ?_⟩
    rw [hback, hcount]
    rfl

/-- No suffix of the reads has more newlines than reads. -/
def KeepsUp (reads : List Bytes) : Prop :=
  ∀ t ∈ reads.tails, t.flatten.count LF ≤ t.length

instance : DecidablePred KeepsUp := fun reads =>
  inferInstanceAs (Decidable (∀ t ∈ reads.tails, t.flatten.count LF ≤ t.length))

theorem KeepsUp.self {reads : List Bytes} (h : KeepsUp reads) :
    reads.flatten.count LF ≤ reads.length := h reads (by simp)

theorem backlog_eq_zero_iff (n : ℕ) (reads : List Bytes) :
    backlog n reads = 0 ↔
      n + reads.flatten.count LF ≤ reads.length ∧ KeepsUp reads := by
  induction reads generalizing n with
  | nil => simp [backlog, KeepsUp]
  | cons data reads ih =>
    have hstep : backlog n (data :: reads) = backlog (backlogStep n data) reads := rfl
    have hkeeps : KeepsUp (data :: reads) ↔
        (data :: reads).flatten.count LF ≤ (data :: reads).length ∧ KeepsUp reads := by
      simp only [KeepsUp, List.tails_cons, List.forall_mem_cons]
    rw [hstep, ih, hkeeps, backlogStep]
    simp only [List.flatten_cons, List.count_append, List.length_cons]
    constructor
    · intro h
      obtain ⟨hle, hk⟩ := h
      have := hk.self
      exact ⟨by omega, by omega, hk⟩
    · intro h
      obtain ⟨hle, -, hk⟩ := h
      have := hk.self
      exact ⟨by omega, hk⟩

/-- The lines and the rest of a stream are determined by it. -/
theorem lines_unique {ls ls' : List Bytes} {r r' : Bytes} (hls : ∀ l ∈ ls, LF ∉ l)
    (hls' : ∀ l ∈ ls', LF ∉ l) (hr : LF ∉ r) (hr' : LF ∉ r')
    (h : ls.flatMap (· ++ [LF]) ++ r = ls'.flatMap (· ++ [LF]) ++ r') : ls = ls' := by
  induction ls generalizing ls' with
  | nil =>
    cases ls' with
    | nil => rfl
    | cons l' ls' =>
      rw [List.flatMap_nil, List.nil_append] at h
      exact absurd (h ▸ by simp) hr
  | cons l ls ih =>
    cases ls' with
    | nil =>
      rw [List.flatMap_nil, List.nil_append] at h
      exact absurd (h ▸ by simp) hr'
    | cons l' ls' =>
      simp only [List.flatMap_cons, List.append_assoc, List.singleton_append] at h
      obtain ⟨rfl, hrest⟩ := line_inj (hls l List.mem_cons_self) (hls' l' List.mem_cons_self) h
      rw [ih (fun k hk => hls k (List.mem_cons_of_mem _ hk))
        (fun k hk => hls' k (List.mem_cons_of_mem _ hk)) hrest]

/-- No line is left in the buffer exactly when the reads keep up. -/
theorem findEOL_receive {t : Receiver} {reads : List Bytes}
    (h : init.receive reads = some t) : t.inputBuffer.findEOL = none ↔ KeepsUp reads := by
  obtain ⟨-, hcount⟩ := receive_spec received_init h
  rw [Buffer.findEOL_eq_none_iff, ← List.count_eq_zero, hcount, backlog_eq_zero_iff]
  constructor
  · exact fun h => h.2
  · intro hk
    refine ⟨?_, hk⟩
    simpa [init] using hk.self

theorem length_tasks_receive {t : Receiver} {reads : List Bytes}
    (h : init.receive reads = some t) :
    t.tasks.length + backlog 0 reads = reads.flatten.count LF := by
  obtain ⟨hrec, hcount⟩ := receive_spec received_init h
  have hlen := hrec.length_tasks
  rw [hcount] at hlen
  simpa [init] using hlen

/-- **Independence of the splitting into reads.** -/
theorem split_independent_iff {reads reads' : List Bytes} {t t' : Receiver}
    (hsame : reads.flatten = reads'.flatten)
    (h : init.receive reads = some t) (h' : init.receive reads' = some t') :
    (t.tasks = t'.tasks ∧ t.inputBuffer.findEOL = none ∧ t'.inputBuffer.findEOL = none) ↔
      KeepsUp reads ∧ KeepsUp reads' := by
  rw [findEOL_receive h, findEOL_receive h', and_iff_right_iff_imp]
  intro h
  obtain ⟨hk, hk'⟩ := h
  obtain ⟨ls, htasks, hls, hstream⟩ := (receive_spec received_init h).1
  obtain ⟨ls', htasks', hls', hstream'⟩ := (receive_spec received_init h').1
  have hr := Buffer.findEOL_eq_none_iff.mp ((findEOL_receive h).mpr hk)
  have hr' := Buffer.findEOL_eq_none_iff.mp ((findEOL_receive h').mpr hk')
  rw [htasks, htasks', lines_unique hls hls' hr hr' (by rw [← hstream, ← hstream', hsame])]

/-- Two lines in three reads and in two: every line is delivered. -/
theorem split_independent_threeReads :
    ∃ t t', init.receive [lit "a\n", lit "b", lit "\n"] = some t ∧
      init.receive [lit "a\n", lit "b\n"] = some t' ∧ t.tasks = t'.tasks ∧
      t.inputBuffer.findEOL = none := by
  obtain ⟨t, h⟩ : ∃ t, init.receive [lit "a\n", lit "b", lit "\n"] = some t :=
    receive_isSome received_init (by decide) (by decide)
  obtain ⟨t', h'⟩ : ∃ t, init.receive [lit "a\n", lit "b\n"] = some t :=
    receive_isSome received_init (by decide) (by decide)
  obtain ⟨htasks, hleft, -⟩ := (split_independent_iff (by decide) h h').mpr ⟨by decide, by decide⟩
  exact ⟨t, t', h, h', htasks, hleft⟩

/-- Two lines in one read: the second one is not delivered. -/
theorem not_split_independent :
    ∃ t t', init.receive [lit "a\nb\n"] = some t ∧
      init.receive [lit "a\n", lit "b\n"] = some t' ∧
      t.tasks.length = 1 ∧ t'.tasks.length = 2 ∧ t.inputBuffer.findEOL ≠ none := by
  obtain ⟨t, h⟩ : ∃ t, init.receive [lit "a\nb\n"] = some t :=
    receive_isSome received_init (by decide) (by decide)
  obtain ⟨t', h'⟩ : ∃ t, init.receive [lit "a\n", lit "b\n"] = some t :=
    receive_isSome received_init (by decide) (by decide)
  refine ⟨t, t', h, h', ?_, ?_, fun hnone => absurd ((findEOL_receive h).mp hnone) (by decide)⟩
  · exact Nat.add_right_cancel ((length_tasks_receive h).trans (by decide))
  · exact Nat.add_right_cancel ((length_tasks_receive h').trans (by decide))

end Receiver

end Server

end SearchServer

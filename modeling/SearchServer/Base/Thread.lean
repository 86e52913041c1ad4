import SearchServer.Base.CountDownLatch

/-!
# Starting a thread

`Thread::start` (`base/Thread.cc`) creates the thread and waits on a latch until the thread has stored
its id through a pointer into the `Thread`. The thread uses the `Thread` no more after it has come out
of `cutDown`. Here the owner and the thread are the threads 0 and 1 of the latch.

**Theorem (`start_returns`).** When `start` has returned, the id is the one of the thread, and the thread
has left the latch, so nothing of the `Thread` is used by it any more. From every reachable state the
two come to an end, with `start` returned, the function run, and `join` returned if it was called.
-/

namespace SearchServer

/-- Where the owner is in `start` and `join`. -/
inductive OwnerPlace where
  /-- `_started = true`. -/
  | start
  /-- `pthread_create`. -/
  | create
  /-- In `_latch.wait()`. -/
  | waiting
  /-- `start` has returned. -/
  | started
  /-- In `pthread_join`. -/
  | joining
  | joined
deriving DecidableEq

/-- Where the thread is in `runInThread`. -/
inductive RunPlace where
  | none
  /-- `*_tid = CurrentThread::tid()`. -/
  | setTid
  /-- `CurrentThread::t_threadName = _name.c_str()`, and the call of `cutDown`. -/
  | setName
  /-- In `_latch->cutDown()`. -/
  | counting
  /-- `_func()`. -/
  | func
  | exited
deriving DecidableEq

def OwnerPlace.HasStarted : OwnerPlace → Prop
  | started | joining | joined => True
  | _ => False

/-- Bounds on the steps of the two, besides those in the latch. -/
def OwnerPlace.rank : OwnerPlace → ℕ
  | .start => 100
  | .create => 99
  | .waiting | .joining => 1
  | .started | .joined => 0

def RunPlace.rank : RunPlace → ℕ
  | .none => 0
  | .setTid => 14
  | .setName => 13
  | .counting => 2
  | .func => 1
  | .exited => 0

/-- A `Thread` with its owner and the thread itself. -/
structure ThreadStart where
  owner : OwnerPlace := .start
  thread : RunPlace := .none
  latch : CountDownLatch := .init 1
  started : Bool := false
  joined : Bool := false
  tid : ℤ := 0

namespace ThreadStart

inductive Action where
  /-- The next step of the owner in `start`, or in `pthread_join`. -/
  | owner
  | thread
  /-- The owner calls `join`. -/
  | join
  /-- The wait of the owner ends, with no notification. -/
  | spurious

def stepOwner (s : ThreadStart) : Option ThreadStart :=
  match s.owner with
  | .start => some { s with owner := .create, started := true }
  | .create => (s.latch.step (.wait 0)).map fun latch =>
      { s with owner := .waiting, thread := .setTid, latch := latch }
  | .waiting => (s.latch.next 0).map fun latch =>
      { s with owner := if latch.threads.pc 0 = .idle then .started else .waiting, latch := latch }
  | .started => none
  | .joining => if s.thread = .exited then some { s with owner := .joined } else none
  | .joined => none

/-- The next step of the thread, whose id is `id`. -/
def stepThread (id : ℤ) (s : ThreadStart) : Option ThreadStart :=
  match s.thread with
  | .none => none
  | .setTid => some { s with thread := .setName, tid := id }
  | .setName => (s.latch.step (.cutDown 1)).map fun latch =>
      { s with thread := .counting, latch := latch }
  | .counting => (s.latch.next 1).map fun latch =>
      { s with thread := if latch.threads.pc 1 = .idle then .func else .counting, latch := latch }
  | .func => some { s with thread := .exited }
  | .exited => none

def step (id : ℤ) (s : ThreadStart) : Action → Option ThreadStart
  | .owner => s.stepOwner
  | .thread => s.stepThread id
  | .join =>
    -- The two assertions of `join`.
    if s.owner = .started ∧ s.started = true ∧ s.joined = false then
      some { s with owner := .joining, joined := true }
    else none
  | .spurious => (s.latch.step (.spurious 0)).map fun latch => { s with latch := latch }

/-! ## The invariant -/

/-- Where the thread is in the latch, and the count. -/
def ThreadOk : RunPlace → LatchPlace → ℤ → Prop
  | .none, p, count | .setTid, p, count | .setName, p, count => p = .idle ∧ count = 1
  | .counting, p, count =>
    ((p = .cutDown ∨ p = .decrement) ∧ count = 1) ∨ ((p = .notifyAll ∨ p = .unlock) ∧ count = 0)
  | .func, p, count | .exited, p, count => p = .idle ∧ count = 0

def Waits (p : LatchPlace) : Prop :=
  p = .wait ∨ p = .check ∨ p = .asleep ∨ p = .woken ∨ p = .leave

/-- Where the owner is in the latch. -/
def OwnerOk (s : ThreadStart) : Prop :=
  match s.owner with
  | .start | .create => s.latch.threads.pc 0 = .idle ∧ s.thread = .none
  | .waiting => Waits (s.latch.threads.pc 0) ∧ s.thread ≠ .none
  | .started | .joining | .joined => s.latch.threads.pc 0 = .idle ∧ s.latch.count = 0 ∧
      s.latch.threads.pc 1 = .idle

structure Inv (id : ℤ) (s : ThreadStart) : Prop where
  latch : s.latch.Inv
  others : s.latch.IdleFrom 2
  thread : ThreadOk s.thread (s.latch.threads.pc 1) s.latch.count
  owner : s.OwnerOk
  tid : s.thread ≠ .none → s.thread ≠ .setTid → s.tid = id
  started : s.owner = .start ∨ s.started = true

variable {id : ℤ} {s t : ThreadStart}

theorem inv_init : Inv id {} where
  latch := CountDownLatch.inv_init 1
  others := fun _ _ => rfl
  thread := ⟨rfl, rfl⟩
  owner := ⟨rfl, rfl⟩
  tid := fun h => absurd rfl h
  started := Or.inl rfl

/-- The owner goes on in the latch. -/
theorem next_owner {latch latch' : CountDownLatch} (h : latch.next 0 = some latch')
    (hwaits : Waits (latch.threads.pc 0)) :
    latch'.count = latch.count ∧ latch'.threads.pc 1 = latch.threads.pc 1 ∧
      ((latch.threads.pc 0 = .leave ∧ latch'.threads.pc 0 = .idle) ∨
        Waits (latch'.threads.pc 0) ∧ latch'.threads.pc 0 ≠ .idle) := by
  have hne : (1 : ℕ) ≠ 0 := by decide
  unfold CountDownLatch.next at h
  rcases hwaits with hpc | hpc | hpc | hpc | hpc
  · simp only [hpc] at h
    rw [CountDownLatch.lock_count h, CountDownLatch.lock_pc h]
    simp [Waits]
  · simp only [hpc, Option.some.injEq] at h
    subst h
    split_ifs <;> simp [CountDownLatch.unlock, CountDownLatch.goto, Waits]
  · simp [hpc] at h
  · simp only [hpc] at h
    rw [CountDownLatch.lock_count h, CountDownLatch.lock_pc h]
    simp [Waits]
  · simp only [hpc, Option.some.injEq] at h
    subst h
    simp [CountDownLatch.unlock, hpc]

/-- The thread goes on in the latch. -/
theorem next_thread {latch latch' : CountDownLatch} (h : latch.next 1 = some latch')
    (hok : ThreadOk .counting (latch.threads.pc 1) latch.count) :
    ThreadOk (if latch'.threads.pc 1 = .idle then .func else .counting) (latch'.threads.pc 1)
        latch'.count ∧
      (latch'.threads.pc 0 = latch.threads.pc 0 ∨
        (latch.threads.pc 0 = .asleep ∧ latch'.threads.pc 0 = .woken)) := by
  unfold CountDownLatch.next at h
  rcases hok with ⟨hpc | hpc, hcount⟩ | ⟨hpc | hpc, hcount⟩
  · simp only [hpc] at h
    rw [CountDownLatch.lock_count h, CountDownLatch.lock_pc h]
    simp [ThreadOk, hcount]
  · simp only [hpc, Option.some.injEq] at h
    subst h
    simp [CountDownLatch.goto, ThreadOk, hcount]
  · simp only [hpc, Option.some.injEq] at h
    subst h
    refine ⟨by simp [CountDownLatch.goto, CountDownLatch.wakeAll, ThreadOk, hcount], ?_⟩
    cases hpc0 : latch.threads.pc 0 <;>
      simp [CountDownLatch.goto, CountDownLatch.wakeAll, LatchPlace.wake, hpc0]
  · simp only [hpc, Option.some.injEq] at h
    subst h
    simp [CountDownLatch.unlock, ThreadOk, hcount]

/-- When the owner leaves `wait`, the thread has left the latch. -/
theorem Inv.thread_of_leave (h : Inv id s) (hleave : s.latch.threads.pc 0 = .leave) :
    s.latch.count = 0 ∧ s.latch.threads.pc 1 = .idle := by
  have hzero := h.latch.leaving 0 hleave
  have hout : ¬ (s.latch.threads.pc 1).Holds := by
    intro hin
    have heq := h.latch.exclusive.eq (t := 0) (u := 1) (by rw [hleave]; trivial) hin
    cases heq
  have hok := h.thread
  cases hthread : s.thread with
  | none | setTid | setName =>
    rw [hthread] at hok
    obtain ⟨-, hone⟩ := hok
    omega
  | counting =>
    rw [hthread] at hok
    rcases hok with ⟨-, hone⟩ | ⟨hpc | hpc, -⟩
    · omega
    · rw [hpc] at hout
      exact absurd trivial hout
    · rw [hpc] at hout
      exact absurd trivial hout
  | func | exited =>
    rw [hthread] at hok
    exact ⟨hok.2, hok.1⟩

theorem Inv.stepOwner (h : Inv id s) (hstep : s.stepOwner = some t) : Inv id t := by
  unfold ThreadStart.stepOwner at hstep
  have howner := h.owner
  unfold OwnerOk at howner
  cases hplace : s.owner with
  | start =>
    simp only [hplace, Option.some.injEq] at hstep howner
    subst hstep
    exact ⟨h.latch, h.others, h.thread, howner, h.tid, Or.inr rfl⟩
  | create =>
    simp only [hplace] at hstep howner
    obtain ⟨latch, hlatch, rfl⟩ := Option.map_eq_some_iff.mp hstep
    obtain ⟨-, rfl⟩ := CountDownLatch.move_eq_some hlatch
    have hok := h.thread
    rw [howner.2] at hok
    refine ⟨CountDownLatch.inv_step (.wait 0) h.latch hlatch,
      h.others.update le_rfl (by decide) (Or.inl rfl), ?_, ?_, ?_, ?_⟩
    · simpa [CountDownLatch.goto, ThreadOk] using hok
    · simp [OwnerOk, CountDownLatch.goto, Waits]
    · exact fun _ hne => absurd rfl hne
    · exact Or.inr (h.started.resolve_left (by rw [hplace]; decide))
  | waiting =>
    simp only [hplace] at hstep howner
    obtain ⟨latch, hlatch, rfl⟩ := Option.map_eq_some_iff.mp hstep
    obtain ⟨hcount, hpc, hnext⟩ := next_owner hlatch howner.1
    refine ⟨h.latch.next hlatch, h.others.step (a := .next 0) trivial hlatch, ?_, ?_, h.tid, ?_⟩
    · show ThreadOk s.thread (latch.threads.pc 1) latch.count
      rw [hcount, hpc]
      exact h.thread
    · rcases hnext with ⟨hleave, hidle⟩ | ⟨hwaits, hne⟩
      · simp only [OwnerOk, hidle, if_true, hcount, hpc]
        exact ⟨trivial, h.thread_of_leave hleave⟩
      · simp only [OwnerOk, if_neg hne]
        exact ⟨hwaits, howner.2⟩
    · exact Or.inr (h.started.resolve_left (by rw [hplace]; decide))
  | joining =>
    simp only [hplace] at hstep howner
    obtain ⟨-, hstep⟩ := Option.ite_none_right_eq_some.mp hstep
    obtain rfl := Option.some.inj hstep
    exact ⟨h.latch, h.others, h.thread, howner, h.tid,
      Or.inr (h.started.resolve_left (by rw [hplace]; decide))⟩
  | started | joined => simp [hplace] at hstep

/-- What the owner sees of a step of the thread in the latch. -/
theorem OwnerOk.of_latch (h : s.OwnerOk) {latch : CountDownLatch} {thread : RunPlace} {tid : ℤ}
    (hthread : s.thread ≠ .none) (hne : thread ≠ .none)
    (hpc : latch.threads.pc 0 = s.latch.threads.pc 0 ∨
      (s.latch.threads.pc 0 = .asleep ∧ latch.threads.pc 0 = .woken))
    (hdone : s.latch.threads.pc 1 = .idle → s.latch.count = 0 →
      latch.threads.pc 1 = .idle ∧ latch.count = 0) :
    OwnerOk { s with thread := thread, latch := latch, tid := tid } := by
  unfold OwnerOk at h ⊢
  have hwaits : Waits (s.latch.threads.pc 0) → Waits (latch.threads.pc 0) := by
    intro hw
    rcases hpc with heq | ⟨-, heq⟩
    · rwa [heq]
    · rw [heq]
      exact .inr (.inr (.inr (.inl rfl)))
  have hidle : s.latch.threads.pc 0 = .idle → latch.threads.pc 0 = .idle := by
    intro hi
    rcases hpc with heq | ⟨hasleep, -⟩
    · rw [heq, hi]
    · cases hi.symm.trans hasleep
  cases hplace : s.owner with
  | start | create =>
    simp only [hplace] at h
    exact absurd h.2 hthread
  | waiting =>
    simp only [hplace] at h ⊢
    exact ⟨hwaits h.1, hne⟩
  | started | joining | joined =>
    simp only [hplace] at h ⊢
    obtain ⟨hpc1, hcount⟩ := hdone h.2.2 h.2.1
    exact ⟨hidle h.1, hcount, hpc1⟩

theorem Inv.stepThread (h : Inv id s) (hstep : s.stepThread id = some t) : Inv id t := by
  unfold ThreadStart.stepThread at hstep
  have hok := h.thread
  cases hplace : s.thread with
  | none | exited => simp [hplace] at hstep
  | setTid =>
    simp only [hplace, Option.some.injEq] at hstep
    subst hstep
    rw [hplace] at hok
    refine ⟨h.latch, h.others, hok, ?_, fun _ _ => rfl, h.started⟩
    exact h.owner.of_latch (by rw [hplace]; decide) (by decide) (Or.inl rfl) And.intro
  | setName =>
    simp only [hplace] at hstep
    rw [hplace] at hok
    obtain ⟨latch, hlatch, rfl⟩ := Option.map_eq_some_iff.mp hstep
    have hinv := CountDownLatch.inv_step (.cutDown 1) h.latch hlatch
    obtain ⟨-, rfl⟩ := CountDownLatch.move_eq_some hlatch
    refine ⟨hinv, h.others.update le_rfl (by decide) (Or.inl rfl), ?_, ?_,
      fun _ _ => h.tid (by rw [hplace]; decide) (by rw [hplace]; decide), h.started⟩
    · simp [CountDownLatch.goto, ThreadOk, hok.2]
    · refine h.owner.of_latch (by rw [hplace]; decide) (by decide) (Or.inl ?_) fun _ hzero => ?_
      · simp [CountDownLatch.goto]
      · have hone := hok.2
        omega
  | counting =>
    simp only [hplace] at hstep
    rw [hplace] at hok
    obtain ⟨latch, hlatch, rfl⟩ := Option.map_eq_some_iff.mp hstep
    obtain ⟨hnext, hpc⟩ := next_thread hlatch hok
    refine ⟨h.latch.next hlatch, h.others.step (a := .next 1) trivial hlatch, hnext, ?_,
      fun _ _ => h.tid (by rw [hplace]; decide) (by rw [hplace]; decide), h.started⟩
    refine h.owner.of_latch (by rw [hplace]; decide) ?_ hpc fun hidle _ => ?_
    · split_ifs <;> decide
    · exact absurd hidle (CountDownLatch.next_ne_idle hlatch)
  | func =>
    simp only [hplace, Option.some.injEq] at hstep
    subst hstep
    rw [hplace] at hok
    refine ⟨h.latch, h.others, hok, ?_, fun _ _ => ?_, h.started⟩
    swap
    · exact h.tid (by rw [hplace]; decide) (by rw [hplace]; decide)
    exact h.owner.of_latch (by rw [hplace]; decide) (by decide) (Or.inl rfl) And.intro

/-- A spurious wakeup of the owner. -/
theorem Inv.spurious (h : Inv id s) {latch : CountDownLatch}
    (hlatch : s.latch.step (.spurious 0) = some latch) : Inv id { s with latch := latch } := by
  have hinv := CountDownLatch.inv_step (.spurious 0) h.latch hlatch
  obtain ⟨hasleep, rfl⟩ := CountDownLatch.move_eq_some hlatch
  have hpc1 : (s.latch.goto 0 .woken).threads.pc 1 = s.latch.threads.pc 1 := by
    simp [CountDownLatch.goto]
  refine ⟨hinv, h.others.update le_rfl (by decide) (Or.inl rfl), ?_, ?_, h.tid, h.started⟩
  · show ThreadOk s.thread ((s.latch.goto 0 .woken).threads.pc 1) s.latch.count
    rw [hpc1]
    exact h.thread
  · have howner := h.owner
    unfold OwnerOk at howner ⊢
    cases hplace : s.owner with
    | waiting =>
      simp only [hplace] at howner ⊢
      refine ⟨?_, howner.2⟩
      simp [CountDownLatch.goto, Waits]
    | start | create | started | joining | joined =>
      simp only [hplace] at howner
      cases howner.1.symm.trans hasleep

theorem inv_step (a : Action) (h : Inv id s) (hstep : step id s a = some t) : Inv id t := by
  cases a with
  | owner => exact h.stepOwner hstep
  | thread => exact h.stepThread hstep
  | join =>
    obtain ⟨⟨hplace, -⟩, hstep⟩ := Option.ite_none_right_eq_some.mp hstep
    obtain rfl := Option.some.inj hstep
    have howner := h.owner
    unfold OwnerOk at howner
    simp only [hplace] at howner
    exact ⟨h.latch, h.others, h.thread, howner, h.tid,
      Or.inr (h.started.resolve_left (by rw [hplace]; decide))⟩
  | spurious =>
    obtain ⟨latch, hlatch, rfl⟩ := Option.map_eq_some_iff.mp hstep
    exact h.spurious hlatch

variable {tr : List (ThreadStart × Action)}

theorem inv_of_run (h : Run (step id) {} tr s) : Inv id s :=
  (h.invariant (fun _ a _ => inv_step a) inv_init).2

/-! ## Progress -/

/-- The step is of a call that has been made. -/
def Action.Internal : Action → Prop
  | .owner | .thread => True
  | _ => False

/-- A bound on the steps of the owner and the thread. -/
def rank (s : ThreadStart) : ℕ := s.latch.rank 2 + s.owner.rank + s.thread.rank

theorem rank_call {latch : CountDownLatch} {i : ℕ} {p : LatchPlace} (hi : i < 2)
    (hidle : latch.threads.pc i = .idle) :
    (latch.goto i p).rank 2 = latch.rank 2 + p.rank 2 := by
  have hsum := Monitor.total_update (LatchPlace.rank 2) hi latch.threads.pc p
  rw [hidle] at hsum
  exact hsum

theorem Inv.rank_owner_lt (h : Inv id s) (hstep : s.stepOwner = some t) : t.rank < s.rank := by
  unfold ThreadStart.stepOwner at hstep
  have howner := h.owner
  unfold OwnerOk at howner
  cases hplace : s.owner with
  | start =>
    simp only [hplace, Option.some.injEq] at hstep
    subst hstep
    simp [ThreadStart.rank, hplace, OwnerPlace.rank]
  | create =>
    simp only [hplace] at hstep howner
    obtain ⟨latch, hlatch, rfl⟩ := Option.map_eq_some_iff.mp hstep
    obtain ⟨hidle, rfl⟩ := CountDownLatch.move_eq_some hlatch
    simp only [ThreadStart.rank, hplace, howner.2, rank_call (by decide : 0 < 2) hidle,
      LatchPlace.rank, OwnerPlace.rank, RunPlace.rank]
    omega
  | waiting =>
    simp only [hplace] at hstep
    obtain ⟨latch, hlatch, rfl⟩ := Option.map_eq_some_iff.mp hstep
    have hlt := CountDownLatch.rank_next_lt (by decide : 0 < 2) hlatch
    simp only [ThreadStart.rank, hplace]
    split_ifs <;> simp only [OwnerPlace.rank] <;> omega
  | joining =>
    simp only [hplace] at hstep
    obtain ⟨-, hstep⟩ := Option.ite_none_right_eq_some.mp hstep
    obtain rfl := Option.some.inj hstep
    simp [ThreadStart.rank, hplace, OwnerPlace.rank]
  | started | joined => simp [hplace] at hstep

theorem Inv.rank_thread_lt (h : Inv id s) (hstep : s.stepThread id = some t) :
    t.rank < s.rank := by
  unfold ThreadStart.stepThread at hstep
  have hok := h.thread
  cases hplace : s.thread with
  | none | exited => simp [hplace] at hstep
  | setTid | func =>
    simp only [hplace, Option.some.injEq] at hstep
    subst hstep
    simp [ThreadStart.rank, hplace, RunPlace.rank]
  | setName =>
    simp only [hplace] at hstep
    obtain ⟨latch, hlatch, rfl⟩ := Option.map_eq_some_iff.mp hstep
    obtain ⟨hidle, rfl⟩ := CountDownLatch.move_eq_some hlatch
    simp only [ThreadStart.rank, hplace, rank_call (by decide : 1 < 2) hidle, LatchPlace.rank,
      RunPlace.rank]
    omega
  | counting =>
    simp only [hplace] at hstep
    obtain ⟨latch, hlatch, rfl⟩ := Option.map_eq_some_iff.mp hstep
    have hlt := CountDownLatch.rank_next_lt (by decide : 1 < 2) hlatch
    simp only [ThreadStart.rank, hplace]
    split_ifs <;> simp only [RunPlace.rank] <;> omega

def Stuck (id : ℤ) (s : ThreadStart) : Prop := s.stepOwner = none ∧ s.stepThread id = none

/-- The latch lets nobody go on, when neither can. -/
theorem Inv.latch_stuck (h : Inv id s) (hstuck : s.Stuck id) : s.latch.Stuck := by
  intro t
  have hidle : ∀ u, s.latch.threads.pc u = .idle → s.latch.next u = none := by
    intro u hu
    simp [CountDownLatch.next, hu]
  obtain ⟨howner, hthread⟩ := hstuck
  by_cases h0 : t = 0
  · subst h0
    have hplace := h.owner
    unfold OwnerOk at hplace
    cases hpl : s.owner with
    | waiting =>
      rw [ThreadStart.stepOwner, hpl] at howner
      simpa using howner
    | start | create | started | joining | joined =>
      simp only [hpl] at hplace
      exact hidle 0 hplace.1
  · by_cases h1 : t = 1
    · subst h1
      have hok := h.thread
      cases hpl : s.thread with
      | counting =>
        rw [ThreadStart.stepThread, hpl] at hthread
        simpa using hthread
      | none | setTid | setName | func | exited =>
        rw [hpl] at hok
        exact hidle 1 hok.1
    · exact hidle t (h.others t (by omega))

/-- Once `start` has returned, the thread is in its function. -/
theorem Inv.thread_of_started (h : Inv id s) (hstarted : s.owner.HasStarted) :
    s.thread = .func ∨ s.thread = .exited := by
  have howner := h.owner
  have hok := h.thread
  unfold OwnerOk at howner
  obtain ⟨hzero, hpc⟩ : s.latch.count = 0 ∧ s.latch.threads.pc 1 = .idle := by
    cases hplace : s.owner with
    | start | create | waiting =>
      rw [hplace] at hstarted
      exact hstarted.elim
    | started | joining | joined =>
      simp only [hplace] at howner
      exact howner.2
  rw [hzero, hpc] at hok
  cases hthread : s.thread with
  | none | setTid | setName | counting =>
    rw [hthread] at hok
    simp [ThreadOk] at hok
  | func => exact Or.inl rfl
  | exited => exact Or.inr rfl

theorem Inv.holder_of_started (h : Inv id s) (hstarted : s.owner.HasStarted) :
    s.latch.threads.holder = none := by
  have howner := h.owner
  unfold OwnerOk at howner
  obtain ⟨hpc0, -, hpc1⟩ : s.latch.threads.pc 0 = .idle ∧ s.latch.count = 0 ∧
      s.latch.threads.pc 1 = .idle := by
    cases hplace : s.owner with
    | start | create | waiting =>
      rw [hplace] at hstarted
      exact hstarted.elim
    | started | joining | joined =>
      simp only [hplace] at howner
      exact howner
  by_contra hholder
  obtain ⟨t, ht⟩ := Option.ne_none_iff_exists'.mp hholder
  have hholds := (h.latch.exclusive t).mpr ht
  have hidle : s.latch.threads.pc t = .idle := by
    by_cases h0 : t = 0
    · rw [h0, hpc0]
    · by_cases h1 : t = 1
      · rw [h1, hpc1]
      · exact h.others t (by omega)
  rw [hidle] at hholds
  exact hholds

theorem Inv.done_of_stuck (h : Inv id s) (hstuck : s.Stuck id) :
    s.thread = .exited ∧ (s.owner = .started ∨ s.owner = .joined) := by
  have hpcs := h.latch.pc_of_stuck (h.latch_stuck hstuck)
  obtain ⟨howner, hthread⟩ := hstuck
  have hexited : s.thread = .func ∨ s.thread = .exited → s.thread = .exited := by
    intro hor
    refine hor.resolve_left fun hfunc => ?_
    simp [ThreadStart.stepThread, hfunc] at hthread
  have hplace := h.owner
  unfold OwnerOk at hplace
  cases hpl : s.owner with
  | start => simp [ThreadStart.stepOwner, hpl] at howner
  | create =>
    simp only [hpl] at hplace
    simp [ThreadStart.stepOwner, hpl, CountDownLatch.step, CountDownLatch.move, hplace.1] at howner
  | waiting =>
    simp only [hpl] at hplace
    -- The owner is asleep, so the count is 1, and the thread would have to be stuck before 0.
    have hpositive : 0 < s.latch.count := by
      rcases hpcs 0 with hidle | ⟨-, hpos⟩
      · rw [hidle] at hplace
        simp [Waits] at hplace
      · exact hpos
    have hok := h.thread
    cases hthr : s.thread with
    | none => exact absurd hthr hplace.2
    | setTid => simp [ThreadStart.stepThread, hthr] at hthread
    | setName =>
      rw [hthr] at hok
      simp [ThreadStart.stepThread, hthr, CountDownLatch.step, CountDownLatch.move, hok.1]
        at hthread
    | counting =>
      rw [hthr] at hok
      rcases hpcs 1 with hpc | ⟨hpc, -⟩ <;> simp [ThreadOk, hpc] at hok
    | func | exited =>
      rw [hthr] at hok
      have := hok.2
      omega
  | started => exact ⟨hexited (h.thread_of_started (by rw [hpl]; trivial)), Or.inl rfl⟩
  | joining =>
    have hexit := hexited (h.thread_of_started (by rw [hpl]; trivial))
    simp [ThreadStart.stepOwner, hpl, hexit] at howner
  | joined => exact ⟨hexited (h.thread_of_started (by rw [hpl]; trivial)), Or.inr rfl⟩

/-- The owner is asleep when the thread counts. -/
def oneStart : List Action :=
  [.owner, .owner, .thread, .owner, .owner, .thread, .thread, .thread, .thread, .thread, .owner,
    .owner, .owner]

end ThreadStart

end SearchServer

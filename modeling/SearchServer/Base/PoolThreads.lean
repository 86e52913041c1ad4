import SearchServer.Base.TaskQueue
import SearchServer.Lib.Monitor

/-!
# The threads of the pool

In `TaskQueue` a call of `run` or `stop`, and a look of a worker at the queue, is one step. Here the
threads go from statement to statement (`base/ThreadPool.cc`, `base/Condition.h`). A thread takes the
mutex when it is free; `wait` gives the mutex back, and a thread that has been woken must take it
again; `notify` wakes one of the threads that wait and `notifyAll` all of them; a wait can also end
spuriously. The workers are the threads `0, …, n - 1`, and any others call `run` and `stop`. A worker
whose thread has not begun stands at the start of its loop. A task is one step, and does not use the
pool.

**Theorem (`none_lost`).** While the pool runs and nobody has the mutex, there are as many workers
awake as tasks in the queue, unless all are awake.
-/

namespace SearchServer

/-- The next statement of a thread. -/
inductive Pc (τ : Type) where
  /-- `while (_running)` in `runInThread`. -/
  | loop
  /-- `MutexLockGuard lock(_mutex)` in `take`. -/
  | enter
  /-- `while (_queue.empty() && _running)` in `take`, for the first time or again. -/
  | look (again : Bool)
  /-- In `pthread_cond_wait`, before a notification. -/
  | asleep
  /-- In `pthread_cond_wait`, after a notification. -/
  | woken
  /-- `take` returns, and gives the mutex back. -/
  | leave (task : Option τ)
  /-- `if (task) task()` in `runInThread`. -/
  | work (task : Option τ)
  | exited
  /-- The thread is in no call. -/
  | idle
  /-- `MutexLockGuard lock(_mutex)` in `run`. -/
  | run (task : τ)
  /-- The test of `_queue.size()` and `_queue.push`. -/
  | push (task : τ)
  | notify
  /-- `run` returns, and gives the mutex back. -/
  | ret (result : ℤ)
  /-- `MutexLockGuard lock(_mutex)` in `stop`. -/
  | stop
  /-- `_running = false`. -/
  | clear
  | notifyAll
  /-- `stop` gives the mutex back. -/
  | unlock
  /-- The loop of `stop`, at `_threads[worker]`: `assert(!_joined)` and `_joined = true`. -/
  | join (worker : ℕ)
  /-- `pthread_join`. -/
  | wait (worker : ℕ)

namespace Pc

variable {τ : Type}

/-- The thread has the mutex. -/
def Holds : Pc τ → Prop
  | look _ | leave _ | push _ | notify | ret _ | clear | notifyAll | unlock => True
  | _ => False

def IsWorker : Pc τ → Prop
  | loop | enter | look _ | asleep | woken | leave _ | work _ | exited => True
  | _ => False

/-- The thread has been here only if `_running` is false. -/
def Stopping : Pc τ → Prop
  | exited | notifyAll | unlock | join _ | wait _ => True
  | _ => False

/-- The thread has no part in a notification. -/
def Plain : Pc τ → Prop
  | asleep | notify | notifyAll => False
  | _ => True

/-- The thread waits, as `TaskQueue` has it: its `wait` has not returned and looked again. -/
def waiting : Pc τ → Bool
  | asleep | woken | look true => true
  | _ => false

/-- One for each thread that does not wait for a notification. -/
def awake : Pc τ → ℕ
  | asleep => 0
  | _ => 1

/-- The task that the thread has taken and not run. -/
def held : Pc τ → Multiset τ
  | leave (some task) | work (some task) => {task}
  | _ => 0

/-- A bound on the steps that the thread can take, if no task is left. A worker that gets a task
takes at most five more. `r` is `_running`. -/
def rank (n : ℕ) (r : Bool) : Pc τ → ℕ
  | loop => if r then 3 else 1
  | enter => if r then 2 else 5
  | look _ => if r then 1 else 4
  | asleep => 0
  | woken => if r then 2 else 5
  | leave _ => if r then 5 else 3
  | work _ => if r then 4 else 2
  | exited => 0
  | idle => 0
  | run _ => 14
  | push _ => 13
  | notify => 7
  | ret _ => 1
  | stop => 10 * n + 5
  | clear => 10 * n + 4
  | notifyAll => 7 * n + 3
  | unlock => 2 * n + 2
  | join k => 2 * (n - k) + 1
  | wait k => 2 * (n - k)

theorem Plain.awake_eq {p : Pc τ} (h : p.Plain) : p.awake = 1 := by
  cases p <;> first | rfl | cases h

theorem Plain.update_eq_iff {pc : ℕ → Pc τ} {t u : ℕ} {p q : Pc τ} (hfrom : (pc t).Plain)
    (hto : p.Plain) (hq : ¬ q.Plain) : Function.update pc t p u = q ↔ pc u = q := by
  by_cases hu : u = t
  · subst hu
    rw [Function.update_self]
    constructor
    · intro h
      exact absurd (h ▸ hto) hq
    · intro h
      exact absurd (h ▸ hfrom) hq
  · rw [Function.update_of_ne hu]

end Pc

/-- The pool, the threads with the mutex, and the `_joined` of each worker. -/
structure PoolThreads (τ : Type) where
  pool : ThreadPool τ
  threads : Monitor (Pc τ)
  joined : ℕ → Bool := fun _ => false

namespace PoolThreads

variable {τ : Type}

inductive Action (τ : Type) where
  /-- The thread does its next statement. -/
  | next (thread : ℕ)
  /-- The thread notifies, and this one is woken. -/
  | notify (thread : ℕ) (woken : Option ℕ)
  /-- The thread calls `run`. -/
  | run (thread : ℕ) (task : τ)
  /-- The thread calls `stop`. -/
  | stop (thread : ℕ)
  /-- The wait of the thread ends, with no notification. -/
  | spurious (thread : ℕ)

/-- A pool that has been started with `n` threads. -/
def init (n : ℕ) (capacity : ℤ) : PoolThreads τ where
  pool := (({} : ThreadPool τ).setMaxQueueSize capacity).start
  threads := { pc := fun t => if t < n then .loop else .idle }

def goto (s : PoolThreads τ) (t : ℕ) (p : Pc τ) : PoolThreads τ :=
  { s with threads := s.threads.goto t p }

def lock (s : PoolThreads τ) (t : ℕ) (p : Pc τ) : Option (PoolThreads τ) :=
  (s.threads.lock t p).map fun threads => { s with threads := threads }

def unlock (s : PoolThreads τ) (t : ℕ) (p : Pc τ) : PoolThreads τ :=
  { s with threads := s.threads.unlock t p }

/-- All threads that wait are woken. -/
def wakeAll (pc : ℕ → Pc τ) (t : ℕ) : Pc τ :=
  match pc t with
  | .asleep => .woken
  | p => p

/-- The next statement of `t`. The program aborts where an assertion fails. -/
def next (n : ℕ) (s : PoolThreads τ) (t : ℕ) : Option (PoolThreads τ) :=
  match s.threads.pc t with
  | .loop => some (s.goto t (if s.pool.running then .enter else .exited))
  | .enter => s.lock t (.look false)
  | .look _ =>
    match s.pool.take with
    | some (task, pool) => some { s.goto t (.leave task) with pool := pool }
    | none => some (s.unlock t .asleep)
  | .asleep => none
  | .woken => s.lock t (.look true)
  | .leave task => some (s.unlock t (.work task))
  | .work _ => some (s.goto t .loop)
  | .exited => none
  | .idle => none
  | .run task => s.lock t (.push task)
  | .push task =>
    some { s.goto t (if (s.pool.run task).1 = 0 then .notify else .ret (s.pool.run task).1) with
      pool := (s.pool.run task).2 }
  | .notify => none
  | .ret _ => some (s.unlock t .idle)
  | .stop => s.lock t .clear
  | .clear => some { s.goto t .notifyAll with pool := s.pool.stop }
  | .notifyAll =>
    some (({ s with threads.pc := wakeAll s.threads.pc } : PoolThreads τ).goto t .unlock)
  | .unlock => some (s.unlock t (.join 0))
  | .join k =>
    if k < n then
      if s.joined k then none
      else some { s.goto t (.wait k) with joined := Function.update s.joined k true }
    else some (s.goto t .idle)
  | .wait k =>
    match s.threads.pc k with
    | .exited => some (s.goto t (.join (k + 1)))
    | _ => none

def step (n : ℕ) (s : PoolThreads τ) : Action τ → Option (PoolThreads τ)
  | .next t => s.next n t
  | .notify t woken =>
    match s.threads.pc t, woken with
    | .notify, some i =>
      match s.threads.pc i with
      | .asleep => some ((s.goto i .woken).goto t (.ret 0))
      | _ => none
    | .notify, none =>
      if ∀ i < n, (s.threads.pc i).awake = 1 then some (s.goto t (.ret 0)) else none
    | _, _ => none
  | .run t task =>
    match s.threads.pc t with
    | .idle => some (s.goto t (.run task))
    | _ => none
  | .stop t =>
    match s.threads.pc t with
    | .idle => some (s.goto t .stop)
    | _ => none
  | .spurious t =>
    match s.threads.pc t with
    | .asleep => some (s.goto t .woken)
    | _ => none

variable {n : ℕ} {capacity : ℤ} {s s' : PoolThreads τ} {t : ℕ} {p q : Pc τ}

@[simp] theorem goto_pool : (s.goto t p).pool = s.pool := rfl
@[simp] theorem goto_threads : (s.goto t p).threads = s.threads.goto t p := rfl
@[simp] theorem unlock_pool : (s.unlock t p).pool = s.pool := rfl
@[simp] theorem unlock_threads : (s.unlock t p).threads = s.threads.unlock t p := rfl

theorem lock_eq_some (h : s.lock t p = some s') :
    ∃ threads, s.threads.lock t p = some threads ∧ s' = { s with threads := threads } := by
  obtain ⟨threads, hlock, rfl⟩ := Option.map_eq_some_iff.mp h
  exact ⟨threads, hlock, rfl⟩

theorem lock_pc {threads : Monitor (Pc τ)} (h : s.threads.lock t p = some threads) :
    threads.pc = Function.update s.threads.pc t p := by
  obtain ⟨-, rfl⟩ := Monitor.lock_eq_some h
  rfl

/-! ## The invariant -/

/-- The number of workers that do not wait for a notification. -/
def awake (n : ℕ) (s : PoolThreads τ) : ℕ := Monitor.total Pc.awake n s.threads.pc

/-- There are as many workers awake as tasks in the queue, or a thread is about to wake one. -/
def Covered (n : ℕ) (s : PoolThreads τ) : Prop :=
  s.pool.queue.length ≤ s.awake n ∨
    ∃ u, s.threads.pc u = .notify ∧ s.pool.queue.length ≤ s.awake n + 1

structure Inv (n : ℕ) (s : PoolThreads τ) : Prop where
  exclusive : s.threads.Exclusive Pc.Holds
  worker : ∀ t, (s.threads.pc t).IsWorker ↔ t < n
  stopping : ∀ t, (s.threads.pc t).Stopping → s.pool.running = false
  joining : ∀ t k, s.threads.pc t = .wait k → k < n
  notified : s.pool.running = false → ∀ t, s.threads.pc t = .asleep →
    ∃ u, s.threads.pc u = .notifyAll
  covered : s.pool.running = true → ∀ t, s.threads.pc t = .asleep → s.Covered n

theorem inv_init : (init n capacity : PoolThreads τ).Inv n where
  exclusive := by
    intro t
    by_cases ht : t < n <;> simp [init, ht, Pc.Holds]
  worker := by
    intro t
    by_cases ht : t < n <;> simp [init, ht, Pc.IsWorker]
  stopping := by
    intro t h
    by_cases ht : t < n <;> simp [init, ht, Pc.Stopping] at h
  joining := by
    intro t k h
    by_cases ht : t < n <;> simp [init, ht] at h
  notified := by
    intro h
    cases h
  covered := by
    intro _ t h
    by_cases ht : t < n <;> simp [init, ht] at h

/-- A thread goes from `q` to `p`. What is asked for is what the move can break. -/
theorem Inv.update (h : s.Inv n) (hq : s.threads.pc t = q)
    (hpc : s'.threads.pc = Function.update s.threads.pc t p)
    (hexclusive : s'.threads.Exclusive Pc.Holds) (hworker : p.IsWorker ↔ q.IsWorker)
    (hrunning : s.pool.running = false → s'.pool.running = false)
    (hstopping : p.Stopping → s'.pool.running = false) (hjoining : ∀ k, p = .wait k → k < n)
    (hnotified : s'.pool.running = false → ∀ u, s'.threads.pc u = .asleep →
      ∃ v, s'.threads.pc v = .notifyAll)
    (hcovered : s'.pool.running = true → ∀ u, s'.threads.pc u = .asleep → s'.Covered n) :
    s'.Inv n where
  exclusive := hexclusive
  worker := by
    rw [hpc, Function.forall_update_iff s.threads.pc (p := fun u q => q.IsWorker ↔ u < n)]
    refine ⟨hworker.trans ?_, fun u _ => h.worker u⟩
    rw [← hq, h.worker t]
  stopping := by
    rw [hpc, Function.forall_update_iff s.threads.pc
      (p := fun _ q => q.Stopping → s'.pool.running = false)]
    exact ⟨hstopping, fun u _ hu => hrunning (h.stopping u hu)⟩
  joining := by
    rw [hpc, Function.forall_update_iff s.threads.pc (p := fun _ q => ∀ k, q = .wait k → k < n)]
    exact ⟨hjoining, fun u _ => h.joining u⟩
  notified := hnotified
  covered := hcovered

/-- A thread goes from a plain place to another, and the queue does not grow. -/
theorem Inv.move (h : s.Inv n) (hq : s.threads.pc t = q)
    (hpc : s'.threads.pc = Function.update s.threads.pc t p)
    (hexclusive : s'.threads.Exclusive Pc.Holds) (hrunning : s'.pool.running = s.pool.running)
    (hqueue : s'.pool.queue.length ≤ s.pool.queue.length) (hfrom : q.Plain) (hto : p.Plain)
    (hworker : p.IsWorker ↔ q.IsWorker) (hstopping : p.Stopping → s.pool.running = false)
    (hjoining : ∀ k, p = .wait k → k < n) : s'.Inv n := by
  rw [← hq] at hfrom
  have hasleep := fun u => Pc.Plain.update_eq_iff (u := u) (q := .asleep) hfrom hto id
  have hnotify := fun u => Pc.Plain.update_eq_iff (u := u) (q := .notify) hfrom hto id
  have hnotifyAll := fun u => Pc.Plain.update_eq_iff (u := u) (q := .notifyAll) hfrom hto id
  have hawake : s'.awake n = s.awake n := by
    refine Monitor.total_congr fun u _ => ?_
    rw [hpc]
    by_cases hu : u = t
    · subst hu
      rw [Function.update_self, hto.awake_eq, hfrom.awake_eq]
    · rw [Function.update_of_ne hu]
  refine h.update hq hpc hexclusive hworker (fun hstopped => hrunning.trans hstopped)
    (fun hp => hrunning.trans (hstopping hp)) hjoining ?_ ?_
  · intro hstopped u hu
    rw [hpc, hasleep] at hu
    obtain ⟨v, hv⟩ := h.notified (hrunning ▸ hstopped) u hu
    exact ⟨v, by rw [hpc, hnotifyAll, hv]⟩
  · intro hrun u hu
    rw [hpc, hasleep] at hu
    unfold Covered
    rw [hawake]
    rcases h.covered (hrunning ▸ hrun) u hu with hle | ⟨v, hv, hle⟩
    · exact Or.inl (hqueue.trans hle)
    · exact Or.inr ⟨v, by rw [hpc, hnotify, hv], hqueue.trans hle⟩

theorem Inv.exclusive_goto (h : s.Inv n) (hq : s.threads.pc t = q) (hin : p.Holds ↔ q.Holds) :
    (s.threads.goto t p).Exclusive Pc.Holds :=
  h.exclusive.goto (by rw [hq, hin])

theorem Inv.goto (h : s.Inv n) (hq : s.threads.pc t = q) (hin : p.Holds ↔ q.Holds)
    (hfrom : q.Plain) (hto : p.Plain) (hworker : p.IsWorker ↔ q.IsWorker)
    (hstopping : p.Stopping → s.pool.running = false) (hjoining : ∀ k, p = .wait k → k < n) :
    (s.goto t p).Inv n :=
  h.move hq rfl (h.exclusive_goto hq hin) rfl le_rfl hfrom hto hworker hstopping hjoining

theorem Inv.lock (h : s.Inv n) (hq : s.threads.pc t = q) (hlock : s.lock t p = some s')
    (hin : p.Holds) (hfrom : q.Plain) (hto : p.Plain) (hworker : p.IsWorker ↔ q.IsWorker)
    (hstopping : ¬ p.Stopping) : s'.Inv n := by
  obtain ⟨threads, hthreads, rfl⟩ := lock_eq_some hlock
  refine h.move hq (lock_pc hthreads) (h.exclusive.lock hin hthreads) rfl le_rfl hfrom hto hworker
    (fun hp => absurd hp hstopping) fun k hk => ?_
  subst hk
  exact absurd trivial hstopping

theorem Inv.unlock (h : s.Inv n) (hq : s.threads.pc t = q) (hin : q.Holds) (hout : ¬ p.Holds)
    (hfrom : q.Plain) (hto : p.Plain) (hworker : p.IsWorker ↔ q.IsWorker)
    (hstopping : p.Stopping → s.pool.running = false) (hjoining : ∀ k, p = .wait k → k < n) :
    (s.unlock t p).Inv n :=
  h.move hq rfl (h.exclusive.unlock (by rwa [hq]) hout) rfl le_rfl hfrom hto hworker hstopping
    hjoining

/-! ## The statements about the condition variable -/

/-- A worker finds no task, and waits. -/
theorem Inv.sleep (h : s.Inv n) {again : Bool} (hpc : s.threads.pc t = .look again)
    (htake : s.pool.take = none) : (s.unlock t .asleep).Inv n := by
  obtain ⟨hqueue, hrun⟩ := ThreadPool.take_eq_none htake
  have hin : (s.threads.pc t).Holds := by
    rw [hpc]
    trivial
  refine h.update hpc rfl (h.exclusive.unlock hin id) Iff.rfl id (fun hp => hp.elim) (by simp) ?_ ?_
  · intro hstopped
    rw [unlock_pool, hrun] at hstopped
    cases hstopped
  · intro _ u _
    refine Or.inl ?_
    simp [hqueue]

/-- A task is put at the end of the queue, and a notification is due. -/
theorem Inv.push (h : s.Inv n) {task : τ} (hpc : s.threads.pc t = .push task) :
    ({ s.goto t .notify with
      pool := { s.pool with queue := s.pool.queue ++ [task] } } : PoolThreads τ).Inv n := by
  have hholds : (s.threads.pc t).Holds := by
    rw [hpc]
    trivial
  have hawake : Monitor.total Pc.awake n (Function.update s.threads.pc t .notify) =
      s.awake n := by
    refine Monitor.total_congr fun u _ => ?_
    by_cases hu : u = t
    · subst hu
      rw [Function.update_self, hpc]
      rfl
    · rw [Function.update_of_ne hu]
  refine h.update hpc rfl (h.exclusive_goto hpc Iff.rfl) Iff.rfl id (fun hp => hp.elim) (by simp)
    ?_ ?_
  · intro hstopped u hu
    have hne : u ≠ t := by
      rintro rfl
      simp at hu
    have hu' : s.threads.pc u = .asleep := by simpa [hne] using hu
    obtain ⟨v, hv⟩ := h.notified hstopped u hu'
    refine ⟨v, ?_⟩
    have hvt : v = t := h.exclusive.eq (by rw [hv]; trivial) hholds
    rw [hvt, hpc] at hv
    cases hv
  · intro hrun u hu
    have hne : u ≠ t := by
      rintro rfl
      simp at hu
    have hu' : s.threads.pc u = .asleep := by simpa [hne] using hu
    refine Or.inr ⟨t, by simp, ?_⟩
    -- The thread that puts the task has the mutex, so no other is about to notify.
    have hle : s.pool.queue.length ≤ s.awake n := by
      rcases h.covered hrun u hu' with hle | ⟨v, hv, -⟩
      · exact hle
      · have hvt : v = t := h.exclusive.eq (by rw [hv]; trivial) hholds
        rw [hvt, hpc] at hv
        cases hv
    unfold awake
    rw [goto_threads, Monitor.goto_pc, hawake]
    simp only [List.length_append, List.length_singleton]
    omega

/-- `stop` clears `_running`. -/
theorem Inv.clear (h : s.Inv n) (hpc : s.threads.pc t = .clear) :
    ({ s.goto t .notifyAll with pool := s.pool.stop } : PoolThreads τ).Inv n := by
  refine h.update hpc rfl (h.exclusive_goto hpc Iff.rfl) Iff.rfl (fun _ => rfl) (fun _ => rfl)
    (by simp) ?_ ?_
  · intro _ u _
    exact ⟨t, by simp⟩
  · intro hrun
    cases hrun

theorem wakeAll_eq (pc : ℕ → Pc τ) (u : ℕ) :
    wakeAll pc u = pc u ∨ (pc u = .asleep ∧ wakeAll pc u = .woken) := by
  unfold wakeAll
  split
  · rename_i hu
    exact Or.inr ⟨hu, rfl⟩
  · exact Or.inl rfl

theorem wakeAll_ne_asleep (pc : ℕ → Pc τ) (u : ℕ) : wakeAll pc u ≠ .asleep := by
  unfold wakeAll
  split
  · simp
  · assumption

/-- All threads that wait are woken. -/
theorem Inv.notifyAll (h : s.Inv n) (hpc : s.threads.pc t = .notifyAll) :
    (({ s with threads.pc := wakeAll s.threads.pc } : PoolThreads τ).goto t .unlock).Inv n := by
  have hstopped : s.pool.running = false := h.stopping t (by rw [hpc]; trivial)
  have hself : wakeAll s.threads.pc t = .notifyAll := by rw [wakeAll, hpc]
  -- First the others are woken; the mutex is not concerned.
  have hwoken : ({ s with threads.pc := wakeAll s.threads.pc } : PoolThreads τ).Inv n := by
    refine ⟨h.exclusive.of_pc fun u => ?_, fun u => ?_, fun u _ => hstopped, fun u k hu => ?_,
      fun _ u hu => absurd hu (wakeAll_ne_asleep _ u), fun hrun => ?_⟩
    · rcases wakeAll_eq s.threads.pc u with heq | ⟨hasleep, heq⟩
      · rw [heq]
      · rw [heq, hasleep]
        exact Iff.rfl
    · show (wakeAll s.threads.pc u).IsWorker ↔ u < n
      rw [← h.worker u]
      rcases wakeAll_eq s.threads.pc u with heq | ⟨hasleep, heq⟩
      · rw [heq]
      · rw [heq, hasleep]
        exact Iff.rfl
    · rcases wakeAll_eq s.threads.pc u with heq | ⟨-, heq⟩
      · exact h.joining u k (heq.symm.trans hu)
      · cases heq.symm.trans hu
    · rw [hstopped] at hrun
      cases hrun
  refine hwoken.update hself rfl (hwoken.exclusive_goto hself Iff.rfl) Iff.rfl id
    (fun _ => hstopped) (by simp) ?_ ?_
  · intro _ u hu
    have hne : u ≠ t := by
      intro hut
      subst hut
      simp at hu
    simp only [goto_threads, Monitor.goto_pc, Function.update_of_ne hne] at hu
    exact absurd hu (wakeAll_ne_asleep _ u)
  · intro hrun
    rw [goto_pool, hstopped] at hrun
    cases hrun

theorem Inv.awake_wake (h : s.Inv n) (hpc : s.threads.pc t = .asleep) :
    (s.goto t .woken).awake n = s.awake n + 1 := by
  have ht : t < n := (h.worker t).mp (by rw [hpc]; trivial)
  have hsum := Monitor.total_update Pc.awake ht s.threads.pc .woken
  rw [hpc] at hsum
  exact hsum

/-- A thread that waits is woken. -/
theorem Inv.wake (h : s.Inv n) (hpc : s.threads.pc t = .asleep) : (s.goto t .woken).Inv n := by
  have hasleep : ∀ {u}, (s.goto t .woken).threads.pc u = .asleep → s.threads.pc u = .asleep := by
    intro u hu
    by_cases hut : u = t
    · subst hut
      simp at hu
    · simpa [hut] using hu
  have hothers : ∀ {u p}, s.threads.pc u = p → p ≠ .asleep →
      (s.goto t .woken).threads.pc u = p := by
    intro u p hu hp
    have hut : u ≠ t := by
      intro hut
      subst hut
      exact hp (hu.symm.trans hpc)
    simpa [hut] using hu
  refine h.update hpc rfl (h.exclusive_goto hpc Iff.rfl) Iff.rfl id (fun hp => hp.elim) (by simp)
    ?_ ?_
  · intro hstopped u hu
    obtain ⟨v, hv⟩ := h.notified hstopped u (hasleep hu)
    exact ⟨v, hothers hv (by simp)⟩
  · intro hrun u hu
    unfold Covered
    rw [h.awake_wake hpc]
    rcases h.covered hrun u (hasleep hu) with hle | ⟨v, hv, hle⟩
    · exact Or.inl (hle.trans (Nat.le_succ _))
    · exact Or.inr ⟨v, hothers hv (by simp), hle.trans (Nat.le_succ _)⟩

/-- A thread has notified. -/
theorem Inv.notified_one (h : s.Inv n) (hpc : s.threads.pc t = .notify)
    (hle : s.pool.running = true → ∀ u, s.threads.pc u = .asleep →
      s.pool.queue.length ≤ s.awake n) : (s.goto t (.ret 0)).Inv n := by
  have hawake : (s.goto t (.ret 0)).awake n = s.awake n := by
    refine Monitor.total_congr fun u _ => ?_
    by_cases hu : u = t
    · subst hu
      rw [hpc]
      simp [Pc.awake]
    · simp [hu]
  have hasleep : ∀ {u}, (s.goto t (.ret 0)).threads.pc u = .asleep →
      s.threads.pc u = .asleep := by
    intro u hu
    by_cases hut : u = t
    · subst hut
      simp at hu
    · simpa [hut] using hu
  refine h.update hpc rfl (h.exclusive_goto hpc Iff.rfl) Iff.rfl id (fun hp => hp.elim) (by simp)
    ?_ ?_
  · intro hstopped u hu
    obtain ⟨v, hv⟩ := h.notified hstopped u (hasleep hu)
    have hvt : v = t := h.exclusive.eq (by rw [hv]; trivial) (by rw [hpc]; trivial)
    rw [hvt, hpc] at hv
    cases hv
  · intro hrun u hu
    refine Or.inl ?_
    rw [hawake]
    exact hle hrun u (hasleep hu)

/-- `notify` wakes one of the threads that wait. -/
theorem Inv.notify_some (h : s.Inv n) {i : ℕ} (hpc : s.threads.pc t = .notify)
    (hi : s.threads.pc i = .asleep) : ((s.goto i .woken).goto t (.ret 0)).Inv n := by
  have hti : t ≠ i := by
    intro hti
    rw [← hti, hpc] at hi
    cases hi
  refine (h.wake hi).notified_one (by simpa [hti] using hpc) fun hrun u _ => ?_
  rw [h.awake_wake hi]
  rcases h.covered hrun i hi with hle | ⟨v, -, hle⟩
  · exact hle.trans (Nat.le_succ _)
  · exact hle

/-- `notify` finds no thread that waits. -/
theorem Inv.notify_none (h : s.Inv n) (hpc : s.threads.pc t = .notify)
    (hall : ∀ i < n, (s.threads.pc i).awake = 1) : (s.goto t (.ret 0)).Inv n := by
  refine h.notified_one hpc fun _ u hu => ?_
  have hlt : u < n := (h.worker u).mp (by rw [hu]; trivial)
  have hone := hall u hlt
  rw [hu] at hone
  cases hone

/-! ## Every step -/

theorem take_running {pool : ThreadPool τ} {task : Option τ}
    (h : s.pool.take = some (task, pool)) :
    pool.running = s.pool.running ∧ pool.queue.length ≤ s.pool.queue.length := by
  cases task with
  | none =>
    obtain ⟨-, -, rfl⟩ := ThreadPool.take_eq_some_none h
    exact ⟨rfl, le_rfl⟩
  | some task =>
    obtain ⟨queue, hqueue, rfl⟩ := ThreadPool.take_eq_some h
    exact ⟨rfl, by simp [hqueue]⟩

theorem Inv.next (h : s.Inv n) (hstep : s.next n t = some s') : s'.Inv n := by
  unfold PoolThreads.next at hstep
  cases hpc : s.threads.pc t with
  | loop =>
    simp only [hpc, Option.some.injEq] at hstep
    subst hstep
    by_cases hrun : s.pool.running = true
    · rw [if_pos hrun]
      exact h.goto hpc Iff.rfl trivial trivial Iff.rfl (fun hp => hp.elim) (by simp)
    · rw [if_neg hrun]
      exact h.goto hpc Iff.rfl trivial trivial Iff.rfl (fun _ => by simpa using hrun) (by simp)
  | enter =>
    simp only [hpc] at hstep
    exact h.lock hpc hstep trivial trivial trivial Iff.rfl id
  | look again =>
    simp only [hpc] at hstep
    cases htake : s.pool.take with
    | none =>
      simp only [htake, Option.some.injEq] at hstep
      subst hstep
      exact h.sleep hpc htake
    | some result =>
      obtain ⟨task, pool⟩ := result
      simp only [htake, Option.some.injEq] at hstep
      subst hstep
      obtain ⟨hrunning, hqueue⟩ := take_running htake
      exact h.move hpc rfl (h.exclusive_goto hpc Iff.rfl) hrunning hqueue trivial trivial
        Iff.rfl (fun hp => hp.elim) (by simp)
  | asleep => simp [hpc] at hstep
  | woken =>
    simp only [hpc] at hstep
    exact h.lock hpc hstep trivial trivial trivial Iff.rfl id
  | leave task =>
    simp only [hpc, Option.some.injEq] at hstep
    subst hstep
    exact h.unlock hpc trivial id trivial trivial Iff.rfl (fun hp => hp.elim) (by simp)
  | work task =>
    simp only [hpc, Option.some.injEq] at hstep
    subst hstep
    exact h.goto hpc Iff.rfl trivial trivial Iff.rfl (fun hp => hp.elim) (by simp)
  | exited => simp [hpc] at hstep
  | idle => simp [hpc] at hstep
  | run task =>
    simp only [hpc] at hstep
    exact h.lock hpc hstep trivial trivial trivial Iff.rfl id
  | push task =>
    simp only [hpc, Option.some.injEq] at hstep
    subst hstep
    by_cases hlt : s.pool.queue.length < s.pool.limit
    · rw [ThreadPool.run_fst, if_pos hlt, if_pos rfl, ThreadPool.run_of_lt hlt]
      exact h.push hpc
    · rw [ThreadPool.run_fst, if_neg hlt, if_neg (by decide),
        ThreadPool.run_of_le (Nat.not_lt.mp hlt)]
      exact h.goto hpc Iff.rfl trivial trivial Iff.rfl (fun hp => hp.elim) (by simp)
  | notify => simp [hpc] at hstep
  | ret result =>
    simp only [hpc, Option.some.injEq] at hstep
    subst hstep
    exact h.unlock hpc trivial id trivial trivial Iff.rfl (fun hp => hp.elim) (by simp)
  | stop =>
    simp only [hpc] at hstep
    exact h.lock hpc hstep trivial trivial trivial Iff.rfl id
  | clear =>
    simp only [hpc, Option.some.injEq] at hstep
    subst hstep
    exact h.clear hpc
  | notifyAll =>
    simp only [hpc, Option.some.injEq] at hstep
    subst hstep
    exact h.notifyAll hpc
  | unlock =>
    simp only [hpc, Option.some.injEq] at hstep
    subst hstep
    have hstopped : s.pool.running = false := h.stopping t (by simp [hpc, Pc.Stopping])
    exact h.unlock hpc trivial id trivial trivial Iff.rfl (fun _ => hstopped) (by simp)
  | join k =>
    have hstopped : s.pool.running = false := h.stopping t (by simp [hpc, Pc.Stopping])
    simp only [hpc] at hstep
    by_cases hk : k < n
    · rw [if_pos hk] at hstep
      obtain ⟨-, hstep⟩ := Option.ite_none_left_eq_some.mp hstep
      obtain rfl := Option.some.inj hstep
      exact h.move hpc rfl (h.exclusive_goto hpc Iff.rfl) rfl le_rfl trivial trivial
        Iff.rfl (fun _ => hstopped)
        (by simpa using hk)
    · rw [if_neg hk] at hstep
      obtain rfl := Option.some.inj hstep
      exact h.goto hpc Iff.rfl trivial trivial Iff.rfl (fun hp => hp.elim) (by simp)
  | wait k =>
    have hstopped : s.pool.running = false := h.stopping t (by simp [hpc, Pc.Stopping])
    simp only [hpc] at hstep
    split at hstep
    · obtain rfl := Option.some.inj hstep
      exact h.goto hpc Iff.rfl trivial trivial Iff.rfl (fun _ => hstopped) (by simp)
    · cases hstep

/-- What the actions do that are not the next statement of a thread. -/
theorem step_eq_some {a : Action τ} (hstep : step n s a = some s') :
    (∃ t, a = .next t ∧ s.next n t = some s') ∨
    (∃ t i, a = .notify t (some i) ∧ s.threads.pc t = .notify ∧ s.threads.pc i = .asleep ∧
      s' = (s.goto i .woken).goto t (.ret 0)) ∨
    (∃ t, a = .notify t none ∧ s.threads.pc t = .notify ∧
      (∀ i < n, (s.threads.pc i).awake = 1) ∧ s' = s.goto t (.ret 0)) ∨
    (∃ t task, a = .run t task ∧ s.threads.pc t = .idle ∧ s' = s.goto t (.run task)) ∨
    (∃ t, a = .stop t ∧ s.threads.pc t = .idle ∧ s' = s.goto t .stop) ∨
    ∃ t, a = .spurious t ∧ s.threads.pc t = .asleep ∧ s' = s.goto t .woken := by
  unfold step at hstep
  split at hstep
  · exact Or.inl ⟨_, rfl, hstep⟩
  · split at hstep
    · rename_i hpc
      split at hstep
      · rename_i hi
        exact Or.inr (Or.inl ⟨_, _, rfl, hpc, hi, (Option.some.inj hstep).symm⟩)
      · cases hstep
    · rename_i hpc
      obtain ⟨hall, hstep⟩ := Option.ite_none_right_eq_some.mp hstep
      exact Or.inr (Or.inr (Or.inl ⟨_, rfl, hpc, hall, (Option.some.inj hstep).symm⟩))
    · cases hstep
  · split at hstep
    · rename_i hpc
      exact Or.inr (Or.inr (Or.inr (Or.inl ⟨_, _, rfl, hpc, (Option.some.inj hstep).symm⟩)))
    · cases hstep
  · split at hstep
    · rename_i hpc
      exact Or.inr (Or.inr (Or.inr (Or.inr (Or.inl ⟨_, rfl, hpc, (Option.some.inj hstep).symm⟩))))
    · cases hstep
  · split at hstep
    · rename_i hpc
      exact Or.inr (Or.inr (Or.inr (Or.inr (Or.inr ⟨_, rfl, hpc, (Option.some.inj hstep).symm⟩))))
    · cases hstep

theorem inv_step (a : Action τ) (h : s.Inv n) (hstep : step n s a = some s') : s'.Inv n := by
  rcases step_eq_some hstep with ⟨t, -, hnext⟩ | ⟨t, i, -, hpc, hi, rfl⟩ |
    ⟨t, -, hpc, hall, rfl⟩ | ⟨t, task, -, hpc, rfl⟩ | ⟨t, -, hpc, rfl⟩ | ⟨t, -, hpc, rfl⟩
  · exact h.next hnext
  · exact h.notify_some hpc hi
  · exact h.notify_none hpc hall
  · exact h.goto hpc Iff.rfl trivial trivial Iff.rfl (fun hp => hp.elim) (by simp)
  · exact h.goto hpc Iff.rfl trivial trivial Iff.rfl (fun hp => hp.elim) (by simp)
  · exact h.wake hpc

theorem inv_of_run {tr : List (PoolThreads τ × Action τ)}
    (h : Run (step n) (init n capacity) tr s) : s.Inv n :=
  (h.invariant (fun _ a _ hs hstep => inv_step a hs hstep) inv_init).2

variable {tr : List (PoolThreads τ × Action τ)}

/-- **No notification is lost.** -/
theorem none_lost (h : Run (step n) (init n capacity) tr s) (hrunning : s.pool.running = true)
    (hfree : s.threads.holder = none) : min s.pool.queue.length n ≤ s.awake n := by
  have hinv := inv_of_run h
  by_cases hasleep : ∃ t, s.threads.pc t = .asleep
  · obtain ⟨t, ht⟩ := hasleep
    rcases hinv.covered hrunning t ht with hle | ⟨u, hu, -⟩
    · exact (min_le_left _ _).trans hle
    · have hholder := (hinv.exclusive u).mp (by rw [hu]; trivial)
      rw [hfree] at hholder
      cases hholder
  · have hall : s.awake n = n := by
      have hone : ∀ t ∈ Finset.range n, (s.threads.pc t).awake = 1 := by
        intro t _
        cases hpc : s.threads.pc t with
        | asleep => exact absurd ⟨t, hpc⟩ hasleep
        | _ => rfl
      unfold awake Monitor.total
      rw [Finset.sum_congr rfl hone]
      simp
    rw [hall]
    exact min_le_right _ _

/-- Two workers wait, two tasks come, each of which wakes a worker, and a third task is refused. -/
def twoTasks : List (Action ℕ) :=
  [.next 0, .next 0, .next 0, .next 1, .next 1, .next 1, .run 2 7, .next 2, .next 2,
    .notify 2 (some 0), .next 2, .run 2 8, .next 2, .next 2, .notify 2 (some 1), .next 2, .run 2 9,
    .next 2, .next 2, .next 2]

theorem none_lost_twoTasks :
    ∃ s : PoolThreads ℕ, exec (step 2) (init 2 2) twoTasks = some s ∧ s.pool.queue = [7, 8] ∧
      min 2 2 ≤ s.awake 2 :=
  ⟨_, rfl, rfl, @none_lost ℕ 2 2 _ (trace (step 2) (init 2 2) twoTasks) (run_trace rfl) rfl rfl⟩

end PoolThreads

end SearchServer

import Mathlib

/-!
# The thread pool

`ThreadPool` (`base/ThreadPool.cc`): a queue of tasks with a capacity, and workers that take the first
task. `run` refuses a task when the queue is at the capacity, and says so by its result; `take` waits
while the queue is empty and the pool is running. Both hold the mutex, so each is one step.
-/

namespace SearchServer

/-- The pool: `_capacity` (an `int`), `_running` and `_queue`. -/
structure ThreadPool (τ : Type) where
  capacity : ℤ := 0
  running : Bool := false
  queue : List τ := []

namespace ThreadPool

variable {τ : Type}

def setMaxQueueSize (pool : ThreadPool τ) (maxSize : ℤ) : ThreadPool τ :=
  { pool with capacity := maxSize }

def start (pool : ThreadPool τ) : ThreadPool τ := { pool with running := true }

/-- `stop`, up to the joining of the threads. -/
def stop (pool : ThreadPool τ) : ThreadPool τ := { pool with running := false }

/-- `(size_t)_capacity`. -/
def limit (pool : ThreadPool τ) : ℕ := (pool.capacity % 2 ^ 64).toNat

/-- `run`, with its result. -/
def run (pool : ThreadPool τ) (task : τ) : ℤ × ThreadPool τ :=
  if pool.limit ≤ pool.queue.length then (-1, pool)
  else (0, { pool with queue := pool.queue ++ [task] })

/-- `take`, when it does not wait. The task is empty if the pool has been stopped. -/
def take (pool : ThreadPool τ) : Option (Option τ × ThreadPool τ) :=
  match pool.queue with
  | [] => if pool.running then none else some (none, pool)
  | task :: queue => some (some task, { pool with queue := queue })

variable {pool pool' : ThreadPool τ} {task : τ}

theorem run_of_lt (h : pool.queue.length < pool.limit) :
    (pool.run task).2 = { pool with queue := pool.queue ++ [task] } := by
  rw [run, if_neg (Nat.not_le.mpr h)]

theorem run_of_le (h : pool.limit ≤ pool.queue.length) : (pool.run task).2 = pool := by
  rw [run, if_pos h]

theorem run_fst (pool : ThreadPool τ) (task : τ) :
    (pool.run task).1 = if pool.queue.length < pool.limit then 0 else -1 := by
  unfold run
  by_cases h : pool.queue.length < pool.limit
  · rw [if_neg (Nat.not_le.mpr h), if_pos h]
  · rw [if_pos (Nat.not_lt.mp h), if_neg h]

/-- A positive `int` is the limit itself. -/
theorem limit_of_pos (hpos : 0 < pool.capacity) (hint : pool.capacity < 2 ^ 31) :
    (pool.limit : ℤ) = pool.capacity := by
  unfold limit
  omega

theorem take_eq_some_none (h : pool.take = some (none, pool')) :
    pool.queue = [] ∧ pool.running = false ∧ pool' = pool := by
  unfold take at h
  split at h
  · rename_i hqueue
    split_ifs at h with hrunning
    exact ⟨hqueue, by simpa using hrunning, (Prod.mk.inj (Option.some.inj h)).2.symm⟩
  · cases h

theorem take_eq_none (h : pool.take = none) : pool.queue = [] ∧ pool.running = true := by
  unfold take at h
  split at h
  · rename_i hqueue
    split_ifs at h with hrunning
    exact ⟨hqueue, hrunning⟩
  · cases h

theorem take_eq_some (h : pool.take = some (some task, pool')) :
    ∃ queue, pool.queue = task :: queue ∧ pool' = { pool with queue := queue } := by
  unfold take at h
  split at h
  · split_ifs at h
    cases h
  · rename_i first queue hqueue
    obtain ⟨htask, rfl⟩ := Prod.mk.inj (Option.some.inj h)
    exact ⟨queue, by rw [hqueue, Option.some.inj htask], rfl⟩

end ThreadPool

end SearchServer

import SearchServer.Base.ThreadPool
import SearchServer.Lib.Runs

/-!
# The queue of the thread pool

Any number of threads call `run`, any number of workers call `take`, and some thread calls `stop`.
`run` and `stop` hold the mutex all the time. `take` holds it while it looks at the queue; when it
has to wait it releases the mutex, and looks again whenever the wait ends, be it for a notification
or spuriously. So a step is a call of `run` or `stop`, or one look of a worker at the queue.

**Theorem (`queue_discipline`).** In every run the queue keeps to the capacity, and the tasks accepted
are the tasks handed out followed by the queue. A rejected task changes nothing, and a worker gets an
empty task only after `stop`.
-/

namespace SearchServer

/-- The pool, and the workers in `_cond.wait()`. -/
structure TaskQueue (τ : Type) where
  pool : ThreadPool τ
  waiting : ℕ → Bool := fun _ => false

namespace TaskQueue

variable {τ : Type}

inductive Action (τ : Type) where
  | run (task : τ)
  /-- A worker calls `take`. -/
  | take (worker : ℕ)
  /-- The wait of a worker ends. -/
  | wake (worker : ℕ)
  | stop

def init (capacity : ℤ) : TaskQueue τ :=
  ⟨(({} : ThreadPool τ).setMaxQueueSize capacity).start, fun _ => false⟩

/-- A worker looks at the queue: it gets a task, or waits. -/
def look (s : TaskQueue τ) (worker : ℕ) : TaskQueue τ :=
  match s.pool.take with
  | some (_, pool) => ⟨pool, Function.update s.waiting worker false⟩
  | none => { s with waiting := Function.update s.waiting worker true }

def step (s : TaskQueue τ) : Action τ → Option (TaskQueue τ)
  | .run task => some { s with pool := (s.pool.run task).2 }
  | .take worker => if s.waiting worker then none else some (s.look worker)
  | .wake worker => if s.waiting worker then some (s.look worker) else none
  | .stop => some { s with pool := s.pool.stop }

/-! ## What has happened -/

/-- The task that the step accepts: one for which `run` returns 0. -/
def acceptedBy (p : TaskQueue τ × Action τ) : Option τ :=
  match p.2 with
  | .run task => if (p.1.pool.run task).1 = 0 then some task else none
  | _ => none

/-- What `take` returns in the step, if it returns. -/
def returnedBy (p : TaskQueue τ × Action τ) : Option (Option τ) :=
  match p.2 with
  | .take _ | .wake _ => p.1.pool.take.map Prod.fst
  | _ => none

def accepted (tr : List (TaskQueue τ × Action τ)) : List τ := tr.filterMap acceptedBy

def handedOut (tr : List (TaskQueue τ × Action τ)) : List τ :=
  tr.filterMap fun p => (returnedBy p).join

theorem acceptedBy_run (s : TaskQueue τ) (task : τ) :
    acceptedBy (s, .run task) =
      if s.pool.queue.length < s.pool.limit then some task else none := by
  show (if (s.pool.run task).1 = 0 then some task else none) = _
  rw [ThreadPool.run_fst]
  by_cases h : s.pool.queue.length < s.pool.limit
  · rw [if_pos h, if_pos h, if_pos rfl]
  · rw [if_neg h, if_neg h, if_neg (by decide)]

theorem accepted_concat (tr : List (TaskQueue τ × Action τ)) (p : TaskQueue τ × Action τ) :
    accepted (tr ++ [p]) = accepted tr ++ (acceptedBy p).toList := by
  rw [accepted, List.filterMap_append, accepted]
  cases h : acceptedBy p <;> simp [h]

theorem handedOut_concat (tr : List (TaskQueue τ × Action τ)) (p : TaskQueue τ × Action τ) :
    handedOut (tr ++ [p]) = handedOut tr ++ ((returnedBy p).join).toList := by
  rw [handedOut, List.filterMap_append, handedOut]
  cases h : (returnedBy p).join <;> simp [h]

/-! ## The invariant -/

/-- The queue keeps to the capacity and has the tasks accepted that have not been handed out. -/
structure Disciplined (capacity : ℤ) (tr : List (TaskQueue τ × Action τ)) (s : TaskQueue τ) :
    Prop where
  capacity_eq : s.pool.capacity = capacity
  bounded : (s.pool.queue.length : ℤ) ≤ capacity
  fifo : accepted tr = handedOut tr ++ s.pool.queue
  stopped : s.pool.running = false → ∃ q ∈ tr, q.2 = .stop

theorem disciplined_init {capacity : ℤ} (hpos : 0 < capacity) :
    Disciplined capacity [] (init capacity : TaskQueue τ) where
  capacity_eq := rfl
  bounded := hpos.le
  fifo := rfl
  stopped := fun h => by cases h

variable {capacity : ℤ} {tr : List (TaskQueue τ × Action τ)} {s : TaskQueue τ}

/-- A step that leaves `_running` as it is. -/
theorem Disciplined.stopped_concat (h : Disciplined capacity tr s) (a : Action τ)
    (hrunning : s.pool.running = false) : ∃ q ∈ tr ++ [(s, a)], q.2 = .stop := by
  obtain ⟨q, hq, hstop⟩ := h.stopped hrunning
  exact ⟨q, List.mem_append_left _ hq, hstop⟩

theorem Disciplined.run (hpos : 0 < capacity) (hint : capacity < 2 ^ 31)
    (h : Disciplined capacity tr s) (task : τ) :
    Disciplined capacity (tr ++ [(s, .run task)]) { s with pool := (s.pool.run task).2 } := by
  have hlimit : (s.pool.limit : ℤ) = capacity := by
    rw [← h.capacity_eq] at hpos hint ⊢
    exact ThreadPool.limit_of_pos hpos hint
  have hreturned : returnedBy (s, Action.run task) = none := rfl
  by_cases hlt : s.pool.queue.length < s.pool.limit
  · have haccepted : acceptedBy (s, .run task) = some task := by rw [acceptedBy_run, if_pos hlt]
    rw [ThreadPool.run_of_lt hlt]
    refine ⟨h.capacity_eq, ?_, ?_, h.stopped_concat _⟩
    · simp only [List.length_append, List.length_singleton]
      omega
    · rw [accepted_concat, handedOut_concat, haccepted, hreturned, h.fifo]
      simp
  · have haccepted : acceptedBy (s, .run task) = none := by rw [acceptedBy_run, if_neg hlt]
    rw [ThreadPool.run_of_le (Nat.not_lt.mp hlt)]
    refine ⟨h.capacity_eq, h.bounded, ?_, h.stopped_concat _⟩
    rw [accepted_concat, handedOut_concat, haccepted, hreturned, h.fifo]
    simp

/-- A look at the queue, as the step `a`. -/
theorem Disciplined.look (h : Disciplined capacity tr s) (worker : ℕ) {a : Action τ}
    (haccepted : acceptedBy (s, a) = none)
    (hreturned : returnedBy (s, a) = s.pool.take.map Prod.fst) :
    Disciplined capacity (tr ++ [(s, a)]) (s.look worker) := by
  unfold TaskQueue.look
  cases htake : s.pool.take with
  | none =>
    refine ⟨h.capacity_eq, h.bounded, ?_, h.stopped_concat _⟩
    rw [accepted_concat, handedOut_concat, haccepted, hreturned, htake, h.fifo]
    simp
  | some result =>
    obtain ⟨task, pool⟩ := result
    cases task with
    | none =>
      obtain ⟨-, -, rfl⟩ := ThreadPool.take_eq_some_none htake
      refine ⟨h.capacity_eq, h.bounded, ?_, h.stopped_concat _⟩
      rw [accepted_concat, handedOut_concat, haccepted, hreturned, htake, h.fifo]
      simp
    | some task =>
      obtain ⟨queue, hqueue, rfl⟩ := ThreadPool.take_eq_some htake
      have hbounded := h.bounded
      rw [hqueue, List.length_cons] at hbounded
      refine ⟨h.capacity_eq, ?_, ?_, h.stopped_concat _⟩
      · show (queue.length : ℤ) ≤ capacity
        omega
      · rw [accepted_concat, handedOut_concat, haccepted, hreturned, htake, h.fifo, hqueue]
        simp

theorem Disciplined.stop (h : Disciplined capacity tr s) :
    Disciplined capacity (tr ++ [(s, .stop)]) { s with pool := s.pool.stop } where
  capacity_eq := h.capacity_eq
  bounded := h.bounded
  fifo := by
    rw [accepted_concat, handedOut_concat, h.fifo]
    simp [acceptedBy, returnedBy, ThreadPool.stop]
  stopped := fun _ => ⟨(s, .stop), by simp, rfl⟩

theorem Disciplined.step (hpos : 0 < capacity) (hint : capacity < 2 ^ 31)
    (h : Disciplined capacity tr s) {a : Action τ} {t : TaskQueue τ} (hstep : s.step a = some t) :
    Disciplined capacity (tr ++ [(s, a)]) t := by
  cases a with
  | run task =>
    obtain rfl := Option.some.inj hstep
    exact h.run hpos hint task
  | take worker =>
    obtain ⟨-, hstep⟩ := Option.ite_none_left_eq_some.mp hstep
    obtain rfl := Option.some.inj hstep
    exact h.look worker rfl rfl
  | wake worker =>
    obtain ⟨-, hstep⟩ := Option.ite_none_right_eq_some.mp hstep
    obtain rfl := Option.some.inj hstep
    exact h.look worker rfl rfl
  | stop =>
    obtain rfl := Option.some.inj hstep
    exact h.stop

theorem disciplined_of_run (hpos : 0 < capacity) (hint : capacity < 2 ^ 31)
    (h : Run step (init capacity) tr s) : Disciplined capacity tr s :=
  h.history (P := Disciplined capacity)
    (fun _ _ _ _ hd hstep => hd.step hpos hint hstep) (disciplined_init hpos)

/-- **The queue discipline.** Every state of a run is the last one of a shorter run, so the first two
parts hold in every state. -/
theorem queue_discipline (hpos : 0 < capacity) (hint : capacity < 2 ^ 31)
    (h : Run step (init capacity) tr s) :
    (s.pool.queue.length : ℤ) ≤ capacity ∧
      accepted tr = handedOut tr ++ s.pool.queue ∧
      (∀ p ∈ tr, ∀ task, p.2 = .run task → (p.1.pool.run task).1 = -1 →
        p.1.step p.2 = some p.1) ∧
      ∀ tr₁ p tr₂, tr = tr₁ ++ p :: tr₂ → returnedBy p = some none →
        p.1.pool.running = false ∧ ∃ q ∈ tr₁, q.2 = .stop := by
  have hlast := disciplined_of_run hpos hint h
  refine ⟨hlast.bounded, hlast.fifo, fun p _ task hrun hrejected => ?_, ?_⟩
  · have hle : p.1.pool.limit ≤ p.1.pool.queue.length := by
      by_contra hlt
      rw [ThreadPool.run_fst, if_pos (Nat.not_le.mp hlt)] at hrejected
      cases hrejected
    rw [hrun, step, ThreadPool.run_of_le hle]
  · rintro tr₁ ⟨t, a⟩ tr₂ rfl hreturned
    obtain ⟨u, hbefore, -, -⟩ := h.split
    have hnone : ∃ pool, t.pool.take = some (none, pool) := by
      cases a with
      | run task => cases hreturned
      | stop => cases hreturned
      | take worker =>
        obtain ⟨result, htake, heq⟩ := Option.map_eq_some_iff.mp hreturned
        exact ⟨result.2, by rw [htake, ← heq]⟩
      | wake worker =>
        obtain ⟨result, htake, heq⟩ := Option.map_eq_some_iff.mp hreturned
        exact ⟨result.2, by rw [htake, ← heq]⟩
    obtain ⟨pool, htake⟩ := hnone
    obtain ⟨-, hrunning, -⟩ := ThreadPool.take_eq_some_none htake
    exact ⟨hrunning, (disciplined_of_run hpos hint hbefore).stopped hrunning⟩

/-- A worker waits, two tasks come of which one is rejected, and the pool is stopped. -/
def stoppedRun : List (Action ℕ) := [.take 1, .run 10, .run 20, .wake 1, .stop]

/-- The worker has got the task that was accepted, and looks at the queue again. -/
theorem queue_discipline_stoppedRun :
    ∃ (s t : TaskQueue ℕ) (tr : List (TaskQueue ℕ × Action ℕ)),
      Run step (init 1) (tr ++ [(s, .take 1)]) t ∧ tr.map Prod.snd = stoppedRun ∧
      handedOut (tr ++ [(s, .take 1)]) = [10] ∧
      accepted (tr ++ [(s, .take 1)]) =
        handedOut (tr ++ [(s, .take 1)]) ++ t.pool.queue ∧
      (∃ p ∈ tr, p.2 = .run 20 ∧ p.1.step p.2 = some p.1) ∧
      returnedBy (s, .take 1) = some none ∧ s.pool.running = false ∧ ∃ q ∈ tr, q.2 = .stop := by
  obtain ⟨s, t, tr, htr, hexec, hactions, hhanded, ⟨p, hp, hrun, hrejected⟩, hempty⟩ :
      ∃ (s t : TaskQueue ℕ) (tr : List (TaskQueue ℕ × Action ℕ)),
      trace step (init 1) (stoppedRun ++ [.take 1]) = tr ++ [(s, .take 1)] ∧
      exec step (init 1) (stoppedRun ++ [.take 1]) = some t ∧ tr.map Prod.snd = stoppedRun ∧
      handedOut (tr ++ [(s, .take 1)]) = [10] ∧
      (∃ p ∈ tr, p.2 = .run 20 ∧ (p.1.pool.run 20).1 = -1) ∧
      returnedBy (s, .take 1) = some none :=
    ⟨_, _, [_, _, _, _, _], rfl, rfl, rfl, rfl,
      ⟨(_, .run 20), List.mem_cons_of_mem _ (List.mem_cons_of_mem _ List.mem_cons_self), rfl, rfl⟩,
      rfl⟩
  have h : Run step (init 1) (tr ++ [(s, .take 1)]) t := htr ▸ run_trace hexec
  obtain ⟨-, hfifo, hkept, hstopped⟩ := queue_discipline (by decide) (by decide) h
  obtain ⟨hrunning, hstop⟩ := hstopped tr (s, .take 1) [] rfl hempty
  exact ⟨s, t, tr, h, hactions, hhanded, hfifo,
    ⟨p, hp, hrun, hkept p (List.mem_append_left _ hp) 20 hrun hrejected⟩, hempty, hrunning, hstop⟩

end TaskQueue

end SearchServer

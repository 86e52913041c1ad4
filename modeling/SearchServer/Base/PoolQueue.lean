import SearchServer.Base.PoolThreads

/-!
# The pool and its queue

The threads of `PoolThreads`, as the queue of `TaskQueue` sees them: the queue changes when a thread
has the mutex, and what the thread does then is one step of `TaskQueue`. The other statements leave
the queue as it is.

**Theorem (`refines_taskQueue`).** The statements between `lock` and `unlock` are the steps of
`TaskQueue`. Each accepted task is in the queue, in the hands of one worker, or has been run, once.
-/

namespace SearchServer.PoolThreads

variable {τ : Type} {n : ℕ} {capacity : ℤ} {s s' : PoolThreads τ} {t : ℕ} {p q : Pc τ}

/-! ## The steps of the queue -/

/-- The queue, and the workers whose `wait` has not returned and looked again. -/
def taskQueue (s : PoolThreads τ) : TaskQueue τ := ⟨s.pool, Pc.waiting ∘ s.threads.pc⟩

/-- The step of the queue that the thread `t` does at a place. -/
def callAt (t : ℕ) : Pc τ → Option (TaskQueue.Action τ)
  | .push task => some (.run task)
  | .look false => some (.take t)
  | .look true => some (.wake t)
  | .clear => some .stop
  | _ => none

def call (p : PoolThreads τ × Action τ) : Option (TaskQueue.Action τ) :=
  match p.2 with
  | .next t => callAt t (p.1.threads.pc t)
  | _ => none

/-- The steps of the queue in a run of the threads. -/
def calls (tr : List (PoolThreads τ × Action τ)) : List (TaskQueue τ × TaskQueue.Action τ) :=
  tr.filterMap fun p => (call p).map fun b => (p.1.taskQueue, b)

/-- The step of the queue, or none, is what has become of the queue. -/
def Simulates (s : PoolThreads τ) (a : Action τ) (s' : PoolThreads τ) : Prop :=
  (call (s, a)).elim (s'.taskQueue = s.taskQueue) fun b =>
    TaskQueue.step s.taskQueue b = some s'.taskQueue

theorem taskQueue_init : (init n capacity : PoolThreads τ).taskQueue = TaskQueue.init capacity := by
  unfold taskQueue TaskQueue.init
  congr 1
  funext t
  by_cases ht : t < n <;> simp [init, ht, Pc.waiting]

theorem taskQueue_update (hpc : s'.threads.pc = Function.update s.threads.pc t p) :
    s'.taskQueue = ⟨s'.pool, Function.update s.taskQueue.waiting t p.waiting⟩ := by
  rw [taskQueue, hpc, Function.comp_update]
  rfl

/-- The waiting of a thread is as it was. -/
theorem taskQueue_eq (hq : s.threads.pc t = q)
    (hpc : s'.threads.pc = Function.update s.threads.pc t p) (hpool : s'.pool = s.pool)
    (hp : p.waiting = q.waiting) : s'.taskQueue = s.taskQueue := by
  rw [taskQueue_update hpc, hpool, hp, ← hq]
  show (⟨s.pool, Function.update s.taskQueue.waiting t (s.taskQueue.waiting t)⟩ : TaskQueue τ) = _
  rw [Function.update_eq_self]
  rfl

theorem taskQueue_wakeAll :
    ({ s with threads.pc := wakeAll s.threads.pc } : PoolThreads τ).taskQueue = s.taskQueue := by
  unfold taskQueue
  congr 1
  funext u
  show (wakeAll s.threads.pc u).waiting = (s.threads.pc u).waiting
  rcases wakeAll_eq s.threads.pc u with heq | ⟨hasleep, heq⟩
  · rw [heq]
  · rw [heq, hasleep]
    rfl

theorem taskQueue_goto (hq : s.threads.pc t = q) (hp : p.waiting = q.waiting) :
    (s.goto t p).taskQueue = s.taskQueue :=
  taskQueue_eq hq rfl rfl hp

theorem taskQueue_unlock (hq : s.threads.pc t = q) (hp : p.waiting = q.waiting) :
    (s.unlock t p).taskQueue = s.taskQueue :=
  taskQueue_eq hq rfl rfl hp

theorem taskQueue_lock (hq : s.threads.pc t = q) (h : s.lock t p = some s')
    (hp : p.waiting = q.waiting) : s'.taskQueue = s.taskQueue := by
  obtain ⟨threads, hthreads, rfl⟩ := lock_eq_some h
  exact taskQueue_eq hq (lock_pc hthreads) rfl hp

/-- A look of a worker at the queue. -/
theorem look_taskQueue {again : Bool} (hpc : s.threads.pc t = .look again)
    (hstep : s.next n t = some s') : s'.taskQueue = s.taskQueue.look t := by
  simp only [next, hpc] at hstep
  unfold TaskQueue.look
  rw [show s.taskQueue.pool = s.pool from rfl]
  cases htake : s.pool.take with
  | none =>
    simp only [htake, Option.some.injEq] at hstep
    subst hstep
    exact taskQueue_update (s := s) (t := t) (p := .asleep) rfl
  | some result =>
    obtain ⟨task, pool⟩ := result
    simp only [htake, Option.some.injEq] at hstep
    subst hstep
    exact taskQueue_update (s := s) (t := t) (p := .leave task) rfl

theorem simulates_next (hstep : s.next n t = some s') : s.Simulates (.next t) s' := by
  show (callAt t (s.threads.pc t)).elim _ _
  cases hpc : s.threads.pc t with
  | loop =>
    simp only [next, hpc, Option.some.injEq] at hstep
    subst hstep
    refine taskQueue_goto hpc ?_
    by_cases hrun : s.pool.running = true
    · rw [if_pos hrun]
      rfl
    · rw [if_neg hrun]
      rfl
  | enter =>
    simp only [next, hpc] at hstep
    exact taskQueue_lock hpc hstep rfl
  | look again =>
    have hlook := look_taskQueue hpc hstep
    have hwaiting : s.taskQueue.waiting t = again := by
      show (s.threads.pc t).waiting = again
      rw [hpc]
      cases again <;> rfl
    cases again with
    | false =>
      show TaskQueue.step s.taskQueue (.take t) = some s'.taskQueue
      rw [TaskQueue.step, hwaiting, hlook]
      rfl
    | true =>
      show TaskQueue.step s.taskQueue (.wake t) = some s'.taskQueue
      rw [TaskQueue.step, hwaiting, hlook]
      rfl
  | asleep => simp [next, hpc] at hstep
  | woken =>
    simp only [next, hpc] at hstep
    exact taskQueue_lock hpc hstep rfl
  | leave task =>
    simp only [next, hpc, Option.some.injEq] at hstep
    subst hstep
    exact taskQueue_unlock hpc rfl
  | work task =>
    simp only [next, hpc, Option.some.injEq] at hstep
    subst hstep
    exact taskQueue_goto hpc rfl
  | exited => simp [next, hpc] at hstep
  | idle => simp [next, hpc] at hstep
  | run task =>
    simp only [next, hpc] at hstep
    exact taskQueue_lock hpc hstep rfl
  | push task =>
    simp only [next, hpc, Option.some.injEq] at hstep
    subst hstep
    show some ({ s.taskQueue with pool := (s.pool.run task).2 } : TaskQueue τ) = some _
    rw [Option.some.injEq]
    by_cases hrun : (s.pool.run task).1 = 0
    · rw [if_pos hrun, ← taskQueue_goto (p := .notify) hpc rfl]
      rfl
    · rw [if_neg hrun, ← taskQueue_goto (p := .ret (s.pool.run task).1) hpc rfl]
      rfl
  | notify => simp [next, hpc] at hstep
  | ret result =>
    simp only [next, hpc, Option.some.injEq] at hstep
    subst hstep
    exact taskQueue_unlock hpc rfl
  | stop =>
    simp only [next, hpc] at hstep
    exact taskQueue_lock hpc hstep rfl
  | clear =>
    simp only [next, hpc, Option.some.injEq] at hstep
    subst hstep
    show some ({ s.taskQueue with pool := s.pool.stop } : TaskQueue τ) = some _
    rw [Option.some.injEq, ← taskQueue_goto (p := .notifyAll) hpc rfl]
    rfl
  | notifyAll =>
    simp only [next, hpc, Option.some.injEq] at hstep
    subst hstep
    refine Eq.trans (taskQueue_goto (q := .notifyAll) ?_ rfl) taskQueue_wakeAll
    simp [wakeAll, hpc]
  | unlock =>
    simp only [next, hpc, Option.some.injEq] at hstep
    subst hstep
    exact taskQueue_unlock hpc rfl
  | join k =>
    simp only [next, hpc] at hstep
    split_ifs at hstep
    · obtain rfl := Option.some.inj hstep
      exact taskQueue_goto (s := s) (p := .wait k) hpc rfl
    · obtain rfl := Option.some.inj hstep
      exact taskQueue_goto hpc rfl
  | wait k =>
    simp only [next, hpc] at hstep
    split at hstep
    · obtain rfl := Option.some.inj hstep
      exact taskQueue_goto hpc rfl
    · cases hstep

theorem simulates_step (a : Action τ) (hstep : step n s a = some s') : s.Simulates a s' := by
  rcases step_eq_some hstep with ⟨t, rfl, hnext⟩ | ⟨t, i, rfl, hpc, hi, rfl⟩ |
    ⟨t, rfl, hpc, -, rfl⟩ | ⟨t, task, rfl, hpc, rfl⟩ | ⟨t, rfl, hpc, rfl⟩ | ⟨t, rfl, hpc, rfl⟩
  · exact simulates_next hnext
  · have hti : t ≠ i := by
      intro hti
      rw [← hti, hpc] at hi
      cases hi
    refine Eq.trans (taskQueue_goto (q := .notify) ?_ rfl) (taskQueue_goto hi rfl)
    simp [hti, hpc]
  · exact taskQueue_goto hpc rfl
  · exact taskQueue_goto hpc rfl
  · exact taskQueue_goto hpc rfl
  · exact taskQueue_goto hpc rfl

theorem run_calls {tr : List (PoolThreads τ × Action τ)}
    (h : Run (step n) (init n capacity) tr s) :
    Run TaskQueue.step (TaskQueue.init capacity) (calls tr) s.taskQueue := by
  have hrun : Run TaskQueue.step (init n capacity).taskQueue (calls tr) s.taskQueue :=
    h.simulation (I := fun _ => True) (fun _ _ _ _ _ => trivial)
      (fun s a t _ hstep => simulates_step a hstep) trivial
  rwa [taskQueue_init] at hrun

/-! ## What becomes of a task -/

/-- The task that the step hands to a worker. -/
def handedBy (p : PoolThreads τ × Action τ) : Option τ :=
  (call p).bind fun b => (TaskQueue.returnedBy (p.1.taskQueue, b)).join

/-- The task that the step runs. -/
def executedBy (p : PoolThreads τ × Action τ) : Option τ :=
  match p.2 with
  | .next t =>
    match p.1.threads.pc t with
    | .work task => task
    | _ => none
  | _ => none

/-- The tasks that have been run, one after the other. -/
def executed (tr : List (PoolThreads τ × Action τ)) : List τ := tr.filterMap executedBy

/-- The tasks in the hands of the workers. -/
def held (n : ℕ) (s : PoolThreads τ) : Multiset τ := Monitor.total Pc.held n s.threads.pc

theorem handedOut_calls (tr : List (PoolThreads τ × Action τ)) :
    TaskQueue.handedOut (calls tr) = tr.filterMap handedBy := by
  rw [TaskQueue.handedOut, calls, List.filterMap_filterMap]
  congr 1
  funext p
  rw [handedBy, Option.map_eq_bind, Option.bind_assoc]
  rfl

theorem held_eq (hq : s.threads.pc t = q)
    (hpc : s'.threads.pc = Function.update s.threads.pc t p) (hp : p.held = q.held) :
    s'.held n = s.held n := by
  refine Monitor.total_congr fun u _ => ?_
  rw [hpc]
  by_cases hu : u = t
  · subst hu
    rw [Function.update_self, hp, hq]
  · rw [Function.update_of_ne hu]

theorem held_goto (hq : s.threads.pc t = q) (hp : p.held = q.held) :
    (s.goto t p).held n = s.held n :=
  held_eq hq rfl hp

theorem held_unlock (hq : s.threads.pc t = q) (hp : p.held = q.held) :
    (s.unlock t p).held n = s.held n :=
  held_eq hq rfl hp

theorem held_lock (hq : s.threads.pc t = q) (h : s.lock t p = some s') (hp : p.held = q.held) :
    s'.held n = s.held n := by
  obtain ⟨threads, hthreads, rfl⟩ := lock_eq_some h
  exact held_eq hq (lock_pc hthreads) hp

theorem held_init : (init n capacity : PoolThreads τ).held n = 0 := by
  unfold held Monitor.total
  refine Finset.sum_eq_zero fun t ht => ?_
  simp [init, Finset.mem_range.mp ht, Pc.held]

/-- A task that is handed out is in the hands of a worker, and one that is run no longer is. -/
def Accounts (n : ℕ) (s : PoolThreads τ) (a : Action τ) (s' : PoolThreads τ) : Prop :=
  ((handedBy (s, a)).toList : Multiset τ) + s.held n = (executedBy (s, a)).toList + s'.held n

/-- The step neither hands out nor runs a task. -/
theorem accounts_of_eq {a : Action τ} (hhanded : handedBy (s, a) = none)
    (hexecuted : executedBy (s, a) = none) (h : s'.held n = s.held n) : s.Accounts n a s' := by
  rw [Accounts, hhanded, hexecuted, h]

theorem Inv.accounts_look (h : s.Inv n) {again : Bool} (hpc : s.threads.pc t = .look again)
    (hstep : s.next n t = some s') : s.Accounts n (.next t) s' := by
  have ht : t < n := (h.worker t).mp (by rw [hpc]; trivial)
  have hexecuted : executedBy (s, .next t) = none := by simp [executedBy, hpc]
  have hhanded : handedBy (s, .next t) = (s.pool.take.map Prod.fst).join := by
    cases again <;> simp [handedBy, call, hpc, callAt, TaskQueue.returnedBy, taskQueue]
  simp only [PoolThreads.next, hpc] at hstep
  unfold Accounts
  rw [hhanded, hexecuted]
  cases htake : s.pool.take with
  | none =>
    simp only [htake, Option.some.injEq] at hstep
    subst hstep
    rw [held_unlock (p := .asleep) hpc rfl]
    rfl
  | some result =>
    obtain ⟨task, pool⟩ := result
    simp only [htake, Option.some.injEq] at hstep
    subst hstep
    have hsum := Monitor.total_update Pc.held ht s.threads.pc (.leave task)
    rw [hpc, show (Pc.look again : Pc τ).held = 0 from rfl, add_zero] at hsum
    show _ = _ + Monitor.total Pc.held n (Function.update s.threads.pc t (.leave task))
    rw [hsum]
    cases task with
    | none => simp [Pc.held, held]
    | some task => simp [Pc.held, held, add_comm]

theorem Inv.accounts_work (h : s.Inv n) {task : Option τ} (hpc : s.threads.pc t = .work task) :
    s.Accounts n (.next t) (s.goto t .loop) := by
  have ht : t < n := (h.worker t).mp (by rw [hpc]; trivial)
  have hexecuted : executedBy (s, .next t) = task := by simp [executedBy, hpc]
  have hhanded : handedBy (s, .next t) = none := by simp [handedBy, call, hpc, callAt]
  have hsum := Monitor.total_update Pc.held ht s.threads.pc .loop
  rw [hpc, show (Pc.loop : Pc τ).held = 0 from rfl, add_zero] at hsum
  unfold Accounts
  rw [hhanded, hexecuted, held, ← hsum]
  cases task with
  | none => simp [Pc.held, held]
  | some task => simp [Pc.held, held, add_comm]

theorem Inv.accounts_next (h : s.Inv n) (hstep : s.next n t = some s') :
    s.Accounts n (.next t) s' := by
  cases hpc : s.threads.pc t with
  | look again => exact h.accounts_look hpc hstep
  | work task =>
    simp only [PoolThreads.next, hpc, Option.some.injEq] at hstep
    subst hstep
    exact h.accounts_work hpc
  | loop =>
    simp only [PoolThreads.next, hpc, Option.some.injEq] at hstep
    subst hstep
    refine accounts_of_eq (by simp [handedBy, call, hpc, callAt]) (by simp [executedBy, hpc])
      (held_goto hpc ?_)
    by_cases hrun : s.pool.running = true
    · rw [if_pos hrun]
      rfl
    · rw [if_neg hrun]
      rfl
  | enter =>
    simp only [PoolThreads.next, hpc] at hstep
    exact accounts_of_eq (by simp [handedBy, call, hpc, callAt]) (by simp [executedBy, hpc])
      (held_lock hpc hstep rfl)
  | asleep => simp [PoolThreads.next, hpc] at hstep
  | woken =>
    simp only [PoolThreads.next, hpc] at hstep
    exact accounts_of_eq (by simp [handedBy, call, hpc, callAt]) (by simp [executedBy, hpc])
      (held_lock hpc hstep rfl)
  | leave task =>
    simp only [PoolThreads.next, hpc, Option.some.injEq] at hstep
    subst hstep
    refine accounts_of_eq (by simp [handedBy, call, hpc, callAt]) (by simp [executedBy, hpc])
      (held_unlock hpc ?_)
    cases task <;> rfl
  | exited => simp [PoolThreads.next, hpc] at hstep
  | idle => simp [PoolThreads.next, hpc] at hstep
  | run task =>
    simp only [PoolThreads.next, hpc] at hstep
    exact accounts_of_eq (by simp [handedBy, call, hpc, callAt]) (by simp [executedBy, hpc])
      (held_lock hpc hstep rfl)
  | push task =>
    simp only [PoolThreads.next, hpc, Option.some.injEq] at hstep
    subst hstep
    refine accounts_of_eq (by simp [handedBy, call, hpc, callAt, TaskQueue.returnedBy])
      (by simp [executedBy, hpc]) (held_eq hpc rfl ?_)
    split_ifs <;> rfl
  | notify => simp [PoolThreads.next, hpc] at hstep
  | ret result =>
    simp only [PoolThreads.next, hpc, Option.some.injEq] at hstep
    subst hstep
    exact accounts_of_eq (by simp [handedBy, call, hpc, callAt]) (by simp [executedBy, hpc])
      (held_unlock hpc rfl)
  | stop =>
    simp only [PoolThreads.next, hpc] at hstep
    exact accounts_of_eq (by simp [handedBy, call, hpc, callAt]) (by simp [executedBy, hpc])
      (held_lock hpc hstep rfl)
  | clear =>
    simp only [PoolThreads.next, hpc, Option.some.injEq] at hstep
    subst hstep
    exact accounts_of_eq (by simp [handedBy, call, hpc, callAt, TaskQueue.returnedBy])
      (by simp [executedBy, hpc]) (held_eq (p := .notifyAll) hpc rfl rfl)
  | notifyAll =>
    simp only [PoolThreads.next, hpc, Option.some.injEq] at hstep
    subst hstep
    refine accounts_of_eq (by simp [handedBy, call, hpc, callAt]) (by simp [executedBy, hpc])
      (Eq.trans (held_goto (q := .notifyAll) ?_ rfl) ?_)
    · simp [wakeAll, hpc]
    · refine Monitor.total_congr fun u _ => ?_
      show (wakeAll s.threads.pc u).held = (s.threads.pc u).held
      rcases wakeAll_eq s.threads.pc u with heq | ⟨hasleep, heq⟩
      · rw [heq]
      · rw [heq, hasleep]
        rfl
  | unlock =>
    simp only [PoolThreads.next, hpc, Option.some.injEq] at hstep
    subst hstep
    exact accounts_of_eq (by simp [handedBy, call, hpc, callAt]) (by simp [executedBy, hpc])
      (held_unlock hpc rfl)
  | join k =>
    simp only [PoolThreads.next, hpc] at hstep
    refine accounts_of_eq (by simp [handedBy, call, hpc, callAt]) (by simp [executedBy, hpc]) ?_
    split_ifs at hstep
    · obtain rfl := Option.some.inj hstep
      exact held_eq (p := .wait k) hpc rfl rfl
    · obtain rfl := Option.some.inj hstep
      exact held_goto hpc rfl
  | wait k =>
    simp only [PoolThreads.next, hpc] at hstep
    refine accounts_of_eq (by simp [handedBy, call, hpc, callAt]) (by simp [executedBy, hpc]) ?_
    split at hstep
    · obtain rfl := Option.some.inj hstep
      exact held_goto hpc rfl
    · cases hstep

theorem Inv.accounts_step (h : s.Inv n) (a : Action τ) (hstep : step n s a = some s') :
    s.Accounts n a s' := by
  rcases step_eq_some hstep with ⟨t, rfl, hnext⟩ | ⟨t, i, rfl, hpc, hi, rfl⟩ |
    ⟨t, rfl, hpc, -, rfl⟩ | ⟨t, task, rfl, hpc, rfl⟩ | ⟨t, rfl, hpc, rfl⟩ | ⟨t, rfl, hpc, rfl⟩
  · exact h.accounts_next hnext
  · have hti : t ≠ i := by
      intro hti
      rw [← hti, hpc] at hi
      cases hi
    refine accounts_of_eq rfl rfl (Eq.trans (held_goto (q := .notify) ?_ rfl) (held_goto hi rfl))
    simp [hti, hpc]
  · exact accounts_of_eq rfl rfl (held_goto hpc rfl)
  · exact accounts_of_eq rfl rfl (held_goto hpc rfl)
  · exact accounts_of_eq rfl rfl (held_goto hpc rfl)
  · exact accounts_of_eq rfl rfl (held_goto hpc rfl)

theorem filterMap_concat {α β : Type*} (f : α → Option β) (l : List α) (a : α) :
    (l ++ [a]).filterMap f = l.filterMap f ++ (f a).toList := by
  rw [List.filterMap_append]
  cases h : f a <;> simp [h]

/-- The tasks handed out are those run and those in the hands of the workers. -/
theorem handedOut_of_run {tr : List (PoolThreads τ × Action τ)}
    (h : Run (step n) (init n capacity) tr s) :
    (TaskQueue.handedOut (calls tr) : Multiset τ) = executed tr + s.held n := by
  rw [handedOut_calls]
  refine (h.history (P := fun tr s => s.Inv n ∧
    ((tr.filterMap handedBy : List τ) : Multiset τ) = executed tr + s.held n) ?_ ?_).2
  · intro tr s a s' hs hstep
    obtain ⟨hinv, hall⟩ := hs
    refine ⟨inv_step a hinv hstep, ?_⟩
    have hone := hinv.accounts_step a hstep
    calc (((tr ++ [(s, a)]).filterMap handedBy : List τ) : Multiset τ)
        = executed tr + s.held n + (handedBy (s, a)).toList := by
          rw [filterMap_concat, ← Multiset.coe_add, hall]
      _ = executed tr + ((executedBy (s, a)).toList + s'.held n) := by
          rw [add_assoc, add_comm (s.held n), hone]
      _ = executed (tr ++ [(s, a)]) + s'.held n := by
          rw [executed, executed, filterMap_concat, ← Multiset.coe_add, add_assoc]
  · exact ⟨inv_init, by rw [held_init]; rfl⟩

variable {tr : List (PoolThreads τ × Action τ)}

/-- Each accepted task is run, in the hands of a worker or in the queue. -/
theorem accepted_of_run (hpos : 0 < capacity) (hint : capacity < 2 ^ 31)
    (h : Run (step n) (init n capacity) tr s) :
    (TaskQueue.accepted (calls tr) : Multiset τ) = executed tr + s.held n + s.pool.queue := by
  have hdisciplined := TaskQueue.disciplined_of_run hpos hint (run_calls h)
  rw [hdisciplined.fifo, ← Multiset.coe_add, handedOut_of_run h]
  rfl

/-- **The statements under the mutex are the steps of the queue.** -/
theorem refines_taskQueue (hpos : 0 < capacity) (hint : capacity < 2 ^ 31)
    (h : Run (step n) (init n capacity) tr s) :
    (∀ t u, (s.threads.pc t).Holds → (s.threads.pc u).Holds → t = u) ∧
      Run TaskQueue.step (TaskQueue.init capacity) (calls tr) s.taskQueue ∧
      (TaskQueue.accepted (calls tr) : Multiset τ) =
        executed tr + s.held n + s.pool.queue := by
  have hinv := inv_of_run h
  exact ⟨fun t u ht hu => hinv.exclusive.eq ht hu, run_calls h, accepted_of_run hpos hint h⟩

/-- After `twoTasks` a worker runs the first task, and the other one takes the second. -/
def oneExecuted : List (Action ℕ) :=
  twoTasks ++ [.next 0, .next 0, .next 0, .next 0, .next 1, .next 1]

theorem refines_taskQueue_oneExecuted :
    ∃ s : PoolThreads ℕ, exec (step 2) (init 2 2) oneExecuted = some s ∧
      (∀ t u, (s.threads.pc t).Holds → (s.threads.pc u).Holds → t = u) ∧
      Run TaskQueue.step (TaskQueue.init 2) (calls (trace (step 2) (init 2 2) oneExecuted))
        s.taskQueue ∧
      ({7, 8} : Multiset ℕ) = {7} + s.held 2 + s.pool.queue := by
  have haccepted : TaskQueue.accepted (calls (trace (step 2) (init 2 2) oneExecuted)) = [7, 8] :=
    rfl
  have hexecuted : executed (trace (step 2) (init 2 2) oneExecuted) = [7] := rfl
  obtain ⟨s, hs⟩ : ∃ s, exec (step 2) (init 2 2) oneExecuted = some s := ⟨_, rfl⟩
  obtain ⟨hexclusive, hrun, hcount⟩ := refines_taskQueue (by decide) (by decide) (run_trace hs)
  rw [haccepted, hexecuted] at hcount
  exact ⟨s, hs, hexclusive, hrun, hcount⟩

end SearchServer.PoolThreads

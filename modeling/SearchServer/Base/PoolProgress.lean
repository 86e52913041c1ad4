import SearchServer.Base.PoolQueue

/-!
# The pool comes to rest

Each step that the threads of `PoolThreads` take on their own uses up some of a rank, whatever thread
takes it. So with no more calls the threads stop somewhere, and the invariant says where.

**Theorem (`settles`).** If no more calls come then the threads come to rest, whatever the order of
their steps: all workers wait and the queue is empty, or, after `stop`, all workers have exited and
`stop` has returned.
-/

namespace SearchServer.PoolThreads

variable {τ : Type} {n : ℕ} {capacity : ℤ} {s s' : PoolThreads τ} {t : ℕ} {p q : Pc τ}

/-! ## The threads come to rest -/

/-- The step is the program's own: no call, and no wait that ends for no reason. -/
def Action.Internal : Action τ → Prop
  | .next _ | .notify _ _ => True
  | _ => False

/-- The threads from `m` on are in no call. -/
def IdleFrom (m n : ℕ) (s : PoolThreads τ) : Prop := n ≤ m ∧ ∀ t, m ≤ t → s.threads.pc t = .idle

/-- A bound on the steps of the threads before `m`. -/
def rank (m n : ℕ) (s : PoolThreads τ) : ℕ :=
  Monitor.total (Pc.rank n s.pool.running) m s.threads.pc + 5 * s.pool.queue.length

variable {m : ℕ}

theorem IdleFrom.lt (h : s.IdleFrom m n) (hpc : s.threads.pc t ≠ .idle) : t < m := by
  by_contra hle
  exact hpc (h.2 t (Nat.not_lt.mp hle))

theorem IdleFrom.update {u : PoolThreads τ} (h : s.IdleFrom m n) (ht : t < m)
    (hpc : u.threads.pc = Function.update s.threads.pc t p) : u.IdleFrom m n := by
  refine ⟨h.1, fun i hi => ?_⟩
  rw [hpc, Function.update_of_ne (by omega), h.2 i hi]

/-- One thread moves, and `_running` stays. -/
theorem rank_update {u : PoolThreads τ} (ht : t < m) (hq : s.threads.pc t = q)
    (hpc : u.threads.pc = Function.update s.threads.pc t p)
    (hrunning : u.pool.running = s.pool.running) :
    u.rank m n + q.rank n s.pool.running + 5 * s.pool.queue.length =
      s.rank m n + p.rank n s.pool.running + 5 * u.pool.queue.length := by
  have hsum := Monitor.total_update (Pc.rank n s.pool.running) ht s.threads.pc p
  unfold rank
  rw [hpc, hrunning]
  rw [hq] at hsum
  omega

/-- One thread moves, and the pool stays. -/
theorem rank_lt (ht : t < m) (hq : s.threads.pc t = q)
    (hpc : s'.threads.pc = Function.update s.threads.pc t p) (hpool : s'.pool = s.pool)
    (hlt : p.rank n s.pool.running < q.rank n s.pool.running) : s'.rank m n < s.rank m n := by
  have hrank := rank_update (n := n) ht hq hpc (by rw [hpool])
  rw [hpool] at hrank
  omega

theorem rank_goto_lt (ht : t < m) (hq : s.threads.pc t = q)
    (hlt : p.rank n s.pool.running < q.rank n s.pool.running) :
    (s.goto t p).rank m n < s.rank m n :=
  rank_lt ht hq rfl rfl hlt

theorem rank_unlock_lt (ht : t < m) (hq : s.threads.pc t = q)
    (hlt : p.rank n s.pool.running < q.rank n s.pool.running) :
    (s.unlock t p).rank m n < s.rank m n :=
  rank_lt ht hq rfl rfl hlt

theorem rank_lock_lt (ht : t < m) (hq : s.threads.pc t = q) (hlock : s.lock t p = some s')
    (hlt : p.rank n s.pool.running < q.rank n s.pool.running) : s'.rank m n < s.rank m n := by
  obtain ⟨threads, hthreads, rfl⟩ := lock_eq_some hlock
  exact rank_lt ht hq (lock_pc hthreads) rfl hlt

/-- Each step moves its own thread, and `notifyAll` those that wait. -/
theorem next_pc (hstep : s.next n t = some s') :
    ∃ p, s'.threads.pc = Function.update s.threads.pc t p ∨
      s'.threads.pc = Function.update (wakeAll s.threads.pc) t p := by
  have hlock : ∀ p, s.lock t p = some s' →
      ∃ p, s'.threads.pc = Function.update s.threads.pc t p ∨
        s'.threads.pc = Function.update (wakeAll s.threads.pc) t p := by
    intro p h
    obtain ⟨threads, hthreads, rfl⟩ := lock_eq_some h
    exact ⟨p, Or.inl (lock_pc hthreads)⟩
  cases hpc : s.threads.pc t with
  | enter | woken | run task | stop =>
    simp only [next, hpc] at hstep
    exact hlock _ hstep
  | look again =>
    simp only [next, hpc] at hstep
    split at hstep
    · obtain rfl := Option.some.inj hstep
      exact ⟨_, Or.inl rfl⟩
    · obtain rfl := Option.some.inj hstep
      exact ⟨_, Or.inl rfl⟩
  | asleep | exited | idle | notify => simp [next, hpc] at hstep
  | loop | leave task | work task | push task | ret result | clear | unlock =>
    simp only [next, hpc, Option.some.injEq] at hstep
    subst hstep
    exact ⟨_, Or.inl rfl⟩
  | notifyAll =>
    simp only [next, hpc, Option.some.injEq] at hstep
    subst hstep
    exact ⟨_, Or.inr rfl⟩
  | join k =>
    simp only [next, hpc] at hstep
    split_ifs at hstep
    · obtain rfl := Option.some.inj hstep
      exact ⟨_, Or.inl rfl⟩
    · obtain rfl := Option.some.inj hstep
      exact ⟨_, Or.inl rfl⟩
  | wait k =>
    simp only [next, hpc] at hstep
    split at hstep
    · obtain rfl := Option.some.inj hstep
      exact ⟨_, Or.inl rfl⟩
    · cases hstep

theorem next_ne_idle (hstep : s.next n t = some s') : s.threads.pc t ≠ .idle := by
  intro hpc
  simp [next, hpc] at hstep

theorem IdleFrom.next (h : s.IdleFrom m n) (hstep : s.next n t = some s') : s'.IdleFrom m n := by
  have ht : t < m := h.lt (next_ne_idle hstep)
  refine ⟨h.1, fun u hu => ?_⟩
  have hidle := h.2 u hu
  obtain ⟨p, hpc | hpc⟩ := next_pc hstep
  · rw [hpc, Function.update_of_ne (by omega), hidle]
  · rw [hpc, Function.update_of_ne (by omega), wakeAll, hidle]

theorem IdleFrom.step (h : s.IdleFrom m n) {a : Action τ} (ha : a.Internal)
    (hstep : step n s a = some s') : s'.IdleFrom m n := by
  rcases step_eq_some hstep with ⟨t, rfl, hnext⟩ | ⟨t, i, rfl, hpc, hi, rfl⟩ |
    ⟨t, rfl, hpc, -, rfl⟩ | ⟨t, task, rfl, -, -⟩ | ⟨t, rfl, -, -⟩ | ⟨t, rfl, -, -⟩
  · exact h.next hnext
  · have hlt : t < m := h.lt (by rw [hpc]; simp)
    exact (h.update (u := s.goto i .woken) (h.lt (by rw [hi]; simp)) rfl).update hlt rfl
  · exact h.update (h.lt (by rw [hpc]; simp)) rfl
  · cases ha
  · cases ha
  · cases ha

/-! ### The rank goes down -/

theorem rank_clear_lt (h : s.Inv n) (ht : t < m) (hpc : s.threads.pc t = .clear) :
    ({ s.goto t .notifyAll with pool := s.pool.stop } : PoolThreads τ).rank m n < s.rank m n := by
  have hsum := Monitor.total_update (Pc.rank n false) ht s.threads.pc .notifyAll
  -- A worker that leaves its loop may take up to three steps more than one that would sleep.
  have hle : Monitor.total (Pc.rank n false) m s.threads.pc ≤
      Monitor.total (Pc.rank n s.pool.running) m s.threads.pc + n * 3 := by
    refine Monitor.total_le_add fun u _ => ?_
    have hworker := h.worker u
    cases hrun : s.pool.running with
    | false => exact Nat.le_add_right _ _
    | true =>
      by_cases hu : u < n
      · rw [if_pos hu]
        cases s.threads.pc u <;> simp [Pc.rank]
      · rw [if_neg hu]
        have hcaller := mt hworker.mp hu
        cases hu' : s.threads.pc u <;> rw [hu'] at hcaller <;>
          first | exact absurd trivial hcaller | simp [Pc.rank]
  rw [hpc] at hsum
  simp only [Pc.rank] at hsum
  show Monitor.total (Pc.rank n false) m (Function.update s.threads.pc t .notifyAll) +
    5 * s.pool.queue.length < s.rank m n
  unfold rank
  omega

theorem rank_notifyAll_lt (h : s.Inv n) (ht : t < m) (hpc : s.threads.pc t = .notifyAll) :
    (({ s with threads.pc := wakeAll s.threads.pc } : PoolThreads τ).goto t .unlock).rank m n <
      s.rank m n := by
  have hstopped : s.pool.running = false := h.stopping t (by rw [hpc]; trivial)
  have hsum := Monitor.total_update (Pc.rank n false) ht (wakeAll s.threads.pc) .unlock
  have hle : Monitor.total (Pc.rank n false) m (wakeAll s.threads.pc) ≤
      Monitor.total (Pc.rank n false) m s.threads.pc + n * 5 := by
    refine Monitor.total_le_add fun u _ => ?_
    rcases wakeAll_eq s.threads.pc u with heq | ⟨hasleep, heq⟩
    · rw [heq]
      exact Nat.le_add_right _ _
    · rw [heq, hasleep, if_pos ((h.worker u).mp (by rw [hasleep]; trivial))]
      simp [Pc.rank]
  rw [show wakeAll s.threads.pc t = .notifyAll by rw [wakeAll, hpc]] at hsum
  simp only [Pc.rank] at hsum
  show Monitor.total (Pc.rank n s.pool.running) m
    (Function.update (wakeAll s.threads.pc) t .unlock) + 5 * s.pool.queue.length < s.rank m n
  unfold rank
  rw [hstopped]
  omega

theorem rank_look_lt {again : Bool} (ht : t < m) (hpc : s.threads.pc t = .look again)
    (hstep : s.next n t = some s') : s'.rank m n < s.rank m n := by
  simp only [next, hpc] at hstep
  cases htake : s.pool.take with
  | none =>
    simp only [htake, Option.some.injEq] at hstep
    subst hstep
    obtain ⟨-, hrun⟩ := ThreadPool.take_eq_none htake
    exact rank_unlock_lt ht hpc (by simp [hrun, Pc.rank])
  | some result =>
    obtain ⟨task, pool⟩ := result
    simp only [htake, Option.some.injEq] at hstep
    subst hstep
    cases task with
    | none =>
      obtain ⟨-, hstopped, rfl⟩ := ThreadPool.take_eq_some_none htake
      exact rank_goto_lt ht hpc (by simp [hstopped, Pc.rank])
    | some task =>
      obtain ⟨queue, hqueue, rfl⟩ := ThreadPool.take_eq_some htake
      have hrank := rank_update (s := s) (n := n) (p := .leave (some task))
        (u := { s.goto t (.leave (some task)) with pool := { s.pool with queue := queue } })
        ht hpc rfl rfl
      rw [hqueue, List.length_cons] at hrank
      cases hrun : s.pool.running
      · simp only [Pc.rank, hrun] at hrank
        simp only [Bool.false_eq_true, ite_false] at hrank
        omega
      · simp only [Pc.rank, hrun] at hrank
        simp only [ite_true] at hrank
        omega

theorem rank_push_lt {task : τ} (ht : t < m) (hpc : s.threads.pc t = .push task)
    (hstep : s.next n t = some s') : s'.rank m n < s.rank m n := by
  simp only [next, hpc, Option.some.injEq] at hstep
  subst hstep
  by_cases hlt : s.pool.queue.length < s.pool.limit
  · rw [ThreadPool.run_fst, if_pos hlt, if_pos rfl, ThreadPool.run_of_lt hlt]
    have hrank := rank_update (s := s) (n := n) (p := .notify)
      (u := { s.goto t .notify with pool := { s.pool with queue := s.pool.queue ++ [task] } })
      ht hpc rfl rfl
    simp only [Pc.rank, List.length_append, List.length_singleton] at hrank
    omega
  · rw [ThreadPool.run_fst, if_neg hlt, if_neg (by decide),
      ThreadPool.run_of_le (Nat.not_lt.mp hlt)]
    exact rank_goto_lt ht hpc (by simp [Pc.rank])

theorem Inv.rank_next_lt (h : s.Inv n) (ht : t < m) (hstep : s.next n t = some s') :
    s'.rank m n < s.rank m n := by
  cases hpc : s.threads.pc t with
  | look again => exact rank_look_lt ht hpc hstep
  | push task => exact rank_push_lt ht hpc hstep
  | loop =>
    simp only [PoolThreads.next, hpc, Option.some.injEq] at hstep
    subst hstep
    refine rank_goto_lt ht hpc ?_
    cases hrun : s.pool.running <;> simp [Pc.rank]
  | enter =>
    simp only [PoolThreads.next, hpc] at hstep
    refine rank_lock_lt ht hpc hstep ?_
    cases hrun : s.pool.running <;> simp [Pc.rank]
  | woken =>
    simp only [PoolThreads.next, hpc] at hstep
    refine rank_lock_lt ht hpc hstep ?_
    cases hrun : s.pool.running <;> simp [Pc.rank]
  | leave task =>
    simp only [PoolThreads.next, hpc, Option.some.injEq] at hstep
    subst hstep
    refine rank_unlock_lt ht hpc ?_
    cases hrun : s.pool.running <;> simp [Pc.rank]
  | work task =>
    simp only [PoolThreads.next, hpc, Option.some.injEq] at hstep
    subst hstep
    refine rank_goto_lt ht hpc ?_
    cases hrun : s.pool.running <;> simp [Pc.rank]
  | asleep | exited | idle | notify => simp [PoolThreads.next, hpc] at hstep
  | run task =>
    simp only [PoolThreads.next, hpc] at hstep
    exact rank_lock_lt ht hpc hstep (by simp [Pc.rank])
  | ret result =>
    simp only [PoolThreads.next, hpc, Option.some.injEq] at hstep
    subst hstep
    exact rank_unlock_lt ht hpc (by simp [Pc.rank])
  | stop =>
    simp only [PoolThreads.next, hpc] at hstep
    exact rank_lock_lt ht hpc hstep (by simp [Pc.rank])
  | clear =>
    simp only [PoolThreads.next, hpc, Option.some.injEq] at hstep
    subst hstep
    exact rank_clear_lt h ht hpc
  | notifyAll =>
    simp only [PoolThreads.next, hpc, Option.some.injEq] at hstep
    subst hstep
    exact rank_notifyAll_lt h ht hpc
  | unlock =>
    simp only [PoolThreads.next, hpc, Option.some.injEq] at hstep
    subst hstep
    exact rank_unlock_lt ht hpc (by simp [Pc.rank])
  | join k =>
    simp only [PoolThreads.next, hpc] at hstep
    split_ifs at hstep
    · obtain rfl := Option.some.inj hstep
      exact rank_lt (p := .wait k) ht hpc rfl rfl (by simp [Pc.rank])
    · obtain rfl := Option.some.inj hstep
      exact rank_goto_lt ht hpc (by simp [Pc.rank])
  | wait k =>
    have hk : k < n := h.joining t k hpc
    simp only [PoolThreads.next, hpc] at hstep
    split at hstep
    · obtain rfl := Option.some.inj hstep
      refine rank_goto_lt ht hpc ?_
      show 2 * (n - (k + 1)) + 1 < 2 * (n - k)
      omega
    · cases hstep

theorem Inv.rank_step_lt (h : s.Inv n) (hidle : s.IdleFrom m n) {a : Action τ} (ha : a.Internal)
    (hstep : step n s a = some s') : s'.rank m n < s.rank m n := by
  rcases step_eq_some hstep with ⟨t, rfl, hnext⟩ | ⟨t, i, rfl, hpc, hi, rfl⟩ |
    ⟨t, rfl, hpc, -, rfl⟩ | ⟨t, task, rfl, -, -⟩ | ⟨t, rfl, -, -⟩ | ⟨t, rfl, -, -⟩
  · exact h.rank_next_lt (hidle.lt (next_ne_idle hnext)) hnext
  · have hti : t ≠ i := by
      intro hti
      rw [← hti, hpc] at hi
      cases hi
    have hpc' : (s.goto i .woken).threads.pc t = .notify := by simpa [hti] using hpc
    have hwoken := rank_update (u := s.goto i .woken) (p := .woken) (n := n)
      (hidle.lt (by rw [hi]; simp)) hi rfl rfl
    have hnotified := rank_update (u := (s.goto i .woken).goto t (.ret 0)) (p := .ret 0) (n := n)
      (hidle.lt (by rw [hpc]; simp)) hpc' rfl rfl
    cases hrun : s.pool.running
    · simp only [Pc.rank, goto_pool, hrun] at hwoken hnotified
      simp only [Bool.false_eq_true, ite_false] at hwoken
      omega
    · simp only [Pc.rank, goto_pool, hrun] at hwoken hnotified
      simp only [ite_true] at hwoken
      omega
  · exact rank_goto_lt (hidle.lt (by rw [hpc]; simp)) hpc (by simp [Pc.rank])
  · cases ha
  · cases ha
  · cases ha

/-! ### Where no thread can go on -/

/-- The workers wait and there is no task, or they have exited. Every call has returned, except
where `join` is called a second time and its assertion fails. -/
structure AtRest (n : ℕ) (s : PoolThreads τ) : Prop where
  free : s.threads.holder = none
  callers : ∀ t, n ≤ t →
    s.threads.pc t = .idle ∨ ∃ k, s.threads.pc t = .join k ∧ k < n ∧ s.joined k = true
  waiting : s.pool.running = true →
    (∀ t < n, s.threads.pc t = .asleep) ∧ (0 < n → s.pool.queue = [])
  exited : s.pool.running = false → ∀ t < n, s.threads.pc t = .exited

/-- No thread can go on. -/
def Stuck (n : ℕ) (s : PoolThreads τ) : Prop := ∀ a : Action τ, a.Internal → step n s a = none

theorem Stuck.next (h : s.Stuck n) (t : ℕ) : s.next n t = none := h (.next t) trivial

/-- A thread that has the mutex can go on. -/
theorem Inv.free_of_stuck (h : s.Inv n) (hstuck : s.Stuck n) : s.threads.holder = none := by
  by_contra hholder
  obtain ⟨t, ht⟩ := Option.ne_none_iff_exists'.mp hholder
  have hholds : (s.threads.pc t).Holds := (h.exclusive t).mpr ht
  have hnext := hstuck.next t
  unfold PoolThreads.next at hnext
  cases hpc : s.threads.pc t with
  | look again =>
    cases htake : s.pool.take <;> simp [hpc, htake] at hnext
  | leave task | push task | ret result | clear | notifyAll | unlock => simp [hpc] at hnext
  | notify =>
    by_cases hall : ∀ i < n, (s.threads.pc i).awake = 1
    · have hnone := hstuck (.notify t none) trivial
      simp [step, hpc, if_pos hall] at hnone
    · obtain ⟨i, -, hi⟩ : ∃ i, i < n ∧ (s.threads.pc i).awake ≠ 1 := by
        simpa using hall
      have hasleep : s.threads.pc i = .asleep := by
        cases hpc' : s.threads.pc i <;> simp [hpc', Pc.awake] at hi
        rfl
      have hnone := hstuck (.notify t (some i)) trivial
      simp [step, hpc, hasleep] at hnone
  | loop | enter | asleep | woken | work task | exited | idle | run task | stop | join k | wait k =>
    rw [hpc] at hholds
    exact hholds

theorem lock_ne_none (hfree : s.threads.holder = none) : s.lock t p ≠ none := by
  simp [PoolThreads.lock, Monitor.lock, hfree]

/-- Where a thread can be that cannot go on. -/
theorem Inv.pc_of_stuck (h : s.Inv n) (hstuck : s.Stuck n) (t : ℕ) :
    s.threads.pc t = .asleep ∨ s.threads.pc t = .exited ∨ s.threads.pc t = .idle ∨
      (∃ k, s.threads.pc t = .join k ∧ k < n ∧ s.joined k = true) ∨
      ∃ k, s.threads.pc t = .wait k ∧ s.threads.pc k ≠ .exited := by
  have hfree := h.free_of_stuck hstuck
  have hnext := hstuck.next t
  have hout : ¬ (s.threads.pc t).Holds := by
    rw [h.exclusive t, hfree]
    simp
  unfold PoolThreads.next at hnext
  cases hpc : s.threads.pc t with
  | asleep | exited | idle => simp
  | enter | woken | run task | stop =>
    simp only [hpc] at hnext
    exact absurd hnext (lock_ne_none hfree)
  | loop | work task => simp [hpc] at hnext
  | look again | leave task | push task | notify | ret result | clear | notifyAll | unlock =>
    rw [hpc] at hout
    exact absurd trivial hout
  | join k =>
    simp only [hpc] at hnext
    split_ifs at hnext with hk hjoined
    exact Or.inr (Or.inr (Or.inr (Or.inl ⟨k, rfl, hk, hjoined⟩)))
  | wait k =>
    refine Or.inr (Or.inr (Or.inr (Or.inr ⟨k, rfl, fun hexited => ?_⟩)))
    simp [hpc, hexited] at hnext

theorem Inv.atRest (h : s.Inv n) (hstuck : s.Stuck n) : s.AtRest n := by
  have hfree := h.free_of_stuck hstuck
  have hout : ∀ t, ¬ (s.threads.pc t).Holds := by
    intro t
    rw [h.exclusive t, hfree]
    simp
  have hworkers : ∀ t < n, s.threads.pc t = .asleep ∨ s.threads.pc t = .exited := by
    intro t ht
    have hworker := (h.worker t).mpr ht
    rcases h.pc_of_stuck hstuck t with hpc | hpc | hpc | ⟨k, hpc, -⟩ | ⟨k, hpc, -⟩
    · exact Or.inl hpc
    · exact Or.inr hpc
    · rw [hpc] at hworker
      exact hworker.elim
    · rw [hpc] at hworker
      exact hworker.elim
    · rw [hpc] at hworker
      exact hworker.elim
  have hexited : s.pool.running = false → ∀ t < n, s.threads.pc t = .exited := by
    intro hstopped t ht
    rcases hworkers t ht with hpc | hpc
    · -- A thread that waits has not been notified yet, so one is about to.
      obtain ⟨u, hu⟩ := h.notified hstopped t hpc
      exact absurd (by rw [hu]; trivial) (hout u)
    · exact hpc
  have hasleep : s.pool.running = true → ∀ t < n, s.threads.pc t = .asleep := by
    intro hrun t ht
    rcases hworkers t ht with hpc | hpc
    · exact hpc
    · have hstopped := h.stopping t (by rw [hpc]; trivial)
      rw [hrun] at hstopped
      cases hstopped
  refine ⟨hfree, fun t ht => ?_, fun hrun => ⟨hasleep hrun, fun hpos => ?_⟩, hexited⟩
  · have hcaller : ¬ (s.threads.pc t).IsWorker := by
      rw [h.worker t]
      omega
    rcases h.pc_of_stuck hstuck t with hpc | hpc | hpc | ⟨k, hpc, hk, hjoined⟩ | ⟨k, hpc, hk⟩
    · rw [hpc] at hcaller
      exact absurd trivial hcaller
    · rw [hpc] at hcaller
      exact absurd trivial hcaller
    · exact Or.inl hpc
    · exact Or.inr ⟨k, hpc, hk, hjoined⟩
    · -- The worker it waits for has exited.
      have hstopped := h.stopping t (by rw [hpc]; trivial)
      exact absurd (hexited hstopped k (h.joining t k hpc)) hk
  · have hnone : s.awake n = 0 := by
      unfold awake Monitor.total
      refine Finset.sum_eq_zero fun t ht => ?_
      rw [hasleep hrun t (Finset.mem_range.mp ht)]
      rfl
    rcases h.covered hrun 0 (hasleep hrun 0 hpos) with hle | ⟨u, hu, -⟩
    · rw [hnone] at hle
      exact List.eq_nil_of_length_eq_zero (Nat.le_zero.mp hle)
    · exact absurd (by rw [hu]; trivial) (hout u)

theorem AtRest.held_eq_zero (h : s.AtRest n) : s.held n = 0 := by
  unfold held Monitor.total
  refine Finset.sum_eq_zero fun t ht => ?_
  have ht := Finset.mem_range.mp ht
  cases hrun : s.pool.running with
  | false =>
    rw [h.exited hrun t ht]
    rfl
  | true =>
    rw [(h.waiting hrun).1 t ht]
    rfl

theorem idleFrom_init : (init n capacity : PoolThreads τ).IdleFrom n n := by
  refine ⟨le_rfl, fun t ht => ?_⟩
  simp [init, Nat.not_lt.mpr ht]

/-- A call is that of one more thread. -/
theorem exists_idleFrom_step (a : Action τ) (h : ∃ m, s.IdleFrom m n)
    (hstep : step n s a = some s') : ∃ m, s'.IdleFrom m n := by
  obtain ⟨m, h⟩ := h
  have hmax : ∀ t, s.IdleFrom (max m (t + 1)) n := fun t =>
    ⟨h.1.trans (le_max_left _ _), fun u hu => h.2 u ((le_max_left _ _).trans hu)⟩
  have hlt : ∀ t, t < max m (t + 1) := fun t => lt_of_lt_of_le t.lt_succ_self (le_max_right _ _)
  cases a with
  | next t => exact ⟨m, h.step (a := .next t) trivial hstep⟩
  | notify t woken => exact ⟨m, h.step (a := .notify t woken) trivial hstep⟩
  | run t task | stop t | spurious t =>
    simp only [step] at hstep
    split at hstep
    · obtain rfl := Option.some.inj hstep
      exact ⟨_, (hmax t).update (hlt t) rfl⟩
    · cases hstep

theorem exists_idleFrom {tr : List (PoolThreads τ × Action τ)}
    (h : Run (step n) (init n capacity) tr s) : ∃ m, s.IdleFrom m n :=
  (h.invariant (fun _ a _ hs hstep => exists_idleFrom_step a hs hstep) ⟨n, idleFrom_init⟩).2

variable {tr : List (PoolThreads τ × Action τ)}

end SearchServer.PoolThreads

import SearchServer.Lib.Runs
import SearchServer.Net.EventLoop

/-!
# A loop in a thread of its own

`EventLoopThread` (`net/EventLoopThread.cc`). `startLoop` starts a thread and waits until it has
published its loop; the destructor calls `quit` on that loop and joins the thread. The thread
publishes the loop before it calls `loop()`, and `loop()` begins with `_quit = false`. A `quit` that
comes between the two is forgotten, and the destructor waits for good.

* `Inv`: the flag is set after `quit` exactly if no initialisation came after it.
* `quitKept_iff`: the flag stays set throughout a run exactly if every initialisation in it came
  before `quit` set the flag.
* `not_joined_of_forgets`: otherwise the thread is never joined.
* `joins_of_quit`: with the flag set, a loop that has been entered comes to its end, and the join
  returns.
-/

namespace SearchServer

/-- Where the owner is in `startLoop` and in the destructor. -/
inductive OwnerPhase where
  /-- Before `_thread.start()`. -/
  | start
  | lock
  /-- Before the test of `_loop`, with the mutex. -/
  | check
  /-- In `_cond.wait()`. -/
  | waiting
  /-- `startLoop` has returned the loop. -/
  | obtained
  /-- In `quit`, between the flag and `wakeup`. -/
  | wakeup
  | join
  | joined
deriving DecidableEq

/-- `quit` has set the flag. -/
def OwnerPhase.hasSet : OwnerPhase → Bool
  | .wakeup | .join | .joined => true
  | _ => false

/-- `quit` has returned. -/
def OwnerPhase.hasQuit : OwnerPhase → Bool
  | .join | .joined => true
  | _ => false

/-- Where the thread is in `threadFunc` and in `loop`. -/
inductive ThreadPhase where
  | notStarted
  | construct
  | lock
  /-- Before `_loop = &loop`, with the mutex. -/
  | publish
  | notify
  | unlock
  /-- Before `_looping = true`. -/
  | enter
  /-- Before `_quit = false`. -/
  | initialise
  | test
  | polling
  /-- `poll` has returned, with the channel of the `eventfd` or without it. -/
  | handling (wakeup : Bool)
  | functors
  /-- Before `_looping = false`. -/
  | leave
  | exited
deriving DecidableEq

/-- The two threads, and what they share. -/
structure EventLoopThread where
  owner : OwnerPhase := .start
  thread : ThreadPhase := .notStarted
  locked : Bool := false
  /-- `_loop` is not null. -/
  published : Bool := false
  looping : Bool := false
  quit : Bool := false
  /-- The counter of the `eventfd`. -/
  counter : ℕ := 0

namespace EventLoopThread

inductive Action where
  | owner
  /-- If `poll` returns, it reports the channel of the `eventfd` or not. -/
  | thread (wakeup : Bool)
  /-- Some other thread calls `wakeup`. -/
  | other

def stepOwner (s : EventLoopThread) : Option EventLoopThread :=
  match s.owner with
  | .start => some { s with owner := .lock, thread := .construct }
  | .lock => if s.locked then none else some { s with owner := .check, locked := true }
  | .check => some { s with owner := if s.published then .obtained else .waiting, locked := false }
  | .waiting => if s.locked then none else some { s with owner := .check, locked := true }
  | .obtained => some { s with owner := .wakeup, quit := true }
  | .wakeup => some { s with owner := .join, counter := writeEventfd s.counter }
  | .join => if s.thread = .exited then some { s with owner := .joined } else none
  | .joined => none

def stepThread (s : EventLoopThread) (wakeup : Bool) : Option EventLoopThread :=
  match s.thread with
  | .notStarted => none
  | .construct => some { s with thread := .lock }
  | .lock => if s.locked then none else some { s with thread := .publish, locked := true }
  | .publish => some { s with thread := .notify, published := true }
  | .notify => some { s with thread := .unlock }
  | .unlock => some { s with thread := .enter, locked := false }
  | .enter => if s.looping then none else some { s with thread := .initialise, looping := true }
  | .initialise => some { s with thread := .test, quit := false }
  | .test => some { s with thread := if s.quit then .leave else .polling }
  | .polling =>
    if wakeup ∧ s.counter = 0 then none else some { s with thread := .handling wakeup }
  | .handling wakeup =>
    some { s with thread := .functors, counter := if wakeup then 0 else s.counter }
  | .functors => some { s with thread := .test }
  | .leave => some { s with thread := .exited, looping := false }
  | .exited => none

def step (s : EventLoopThread) : Action → Option EventLoopThread
  | .owner => s.stepOwner
  | .thread wakeup => s.stepThread wakeup
  | .other => some { s with counter := writeEventfd s.counter }

/-- Once `quit` has returned, the flag is set, the loop starts no other poll, and a poll that it is
in returns at once. -/
structure QuitKept (s : EventLoopThread) : Prop where
  flag : s.owner.hasQuit = true → s.quit = true
  noPoll : s.owner.hasQuit = true → s.thread = .test →
    ∀ wakeup, s.step (.thread wakeup) = some { s with thread := .leave }
  woken : s.owner.hasQuit = true → s.thread = .polling → s.counter ≠ 0

/-- The step sets the flag to false after `quit` has set it. -/
def Forgets (s : EventLoopThread) : Action → Prop
  | .thread _ => s.thread = .initialise ∧ s.owner.hasSet = true
  | _ => False

instance (s : EventLoopThread) (a : Action) : Decidable (Forgets s a) :=
  match a with
  | .thread _ => inferInstanceAs (Decidable (_ ∧ _))
  | .owner | .other => inferInstanceAs (Decidable False)

/-! ## The invariant -/

/-- No step forgets the flag. -/
def Kept (tr : List (EventLoopThread × Action)) : Prop := ∀ p ∈ tr, ¬ Forgets p.1 p.2

theorem kept_append {tr : List (EventLoopThread × Action)} {s : EventLoopThread} {a : Action} :
    Kept (tr ++ [(s, a)]) ↔ Kept tr ∧ ¬ Forgets s a := by
  rw [Kept, List.forall_mem_append, List.forall_mem_singleton]
  rfl

/-- What holds of a state and of the steps before it. -/
structure Inv (tr : List (EventLoopThread × Action)) (s : EventLoopThread) : Prop where
  set : s.owner.hasSet = true → (s.quit = true ↔ Kept tr)
  notSet : s.owner.hasSet = false → Kept tr
  woken : s.owner.hasQuit = true → s.quit = true → s.thread = .polling → s.counter ≠ 0
  leaving : s.thread = .leave ∨ s.thread = .exited → s.quit = true
  joined : s.owner = .joined → s.thread = .exited

variable {tr : List (EventLoopThread × Action)} {s t : EventLoopThread}

theorem inv_init : Inv [] {} where
  set h := by cases h
  notSet _ p hp := by cases hp
  woken h := by cases h
  leaving h := by rcases h with h | h <;> cases h
  joined h := by cases h

/-- A step that does not forget the flag keeps what is said of the flag, if it leaves the flag and
`quit` as they are. -/
theorem Inv.of_same (h : Inv tr s) {a : Action} (ha : ¬ Forgets s a) (hquit : t.quit = s.quit)
    (hset : t.owner.hasSet = s.owner.hasSet)
    (hwoken : t.owner.hasQuit = true → t.quit = true → t.thread = .polling → t.counter ≠ 0)
    (hleaving : t.thread = .leave ∨ t.thread = .exited → t.quit = true)
    (hjoined : t.owner = .joined → t.thread = .exited) : Inv (tr ++ [(s, a)]) t where
  set ht := by
    rw [kept_append, and_iff_left ha, hquit]
    exact h.set (hset ▸ ht)
  notSet ht := kept_append.mpr ⟨h.notSet (hset ▸ ht), ha⟩
  woken := hwoken
  leaving := hleaving
  joined := hjoined

theorem Inv.stepOwner (h : Inv tr s) (hstep : s.stepOwner = some t) :
    Inv (tr ++ [(s, .owner)]) t := by
  have ha : ¬ Forgets s .owner := id
  have hleaving := h.leaving
  unfold EventLoopThread.stepOwner at hstep
  cases howner : s.owner with
  | start =>
    rw [howner] at hstep
    obtain rfl := Option.some.inj hstep
    exact h.of_same ha rfl (by rw [howner]; rfl) (by simp) (by simp) (by simp)
  | lock | waiting =>
    rw [howner] at hstep
    obtain ⟨-, hsome⟩ := Option.ite_none_left_eq_some.mp hstep
    obtain rfl := Option.some.inj hsome
    exact h.of_same ha rfl (by rw [howner]; rfl) nofun hleaving nofun
  | check =>
    rw [howner] at hstep
    obtain rfl := Option.some.inj hstep
    refine h.of_same ha rfl ?_ ?_ hleaving ?_
    · dsimp only
      rw [howner]
      split_ifs <;> rfl
    · dsimp only
      split_ifs <;> exact nofun
    · dsimp only
      split_ifs <;> exact nofun
  | obtained =>
    rw [howner] at hstep
    obtain rfl := Option.some.inj hstep
    have hkept : Kept (tr ++ [(s, .owner)]) :=
      kept_append.mpr ⟨h.notSet (by rw [howner]; rfl), ha⟩
    exact ⟨fun _ => iff_of_true rfl hkept, nofun, nofun, fun _ => rfl, nofun⟩
  | wakeup =>
    rw [howner] at hstep
    obtain rfl := Option.some.inj hstep
    exact h.of_same ha rfl (by rw [howner]; rfl) (fun _ _ _ => EventLoop.writeEventfd_ne_zero _)
      hleaving nofun
  | join =>
    rw [howner] at hstep
    obtain ⟨hexited, hsome⟩ := Option.ite_none_right_eq_some.mp hstep
    obtain rfl := Option.some.inj hsome
    refine h.of_same ha rfl (by rw [howner]; rfl) ?_ hleaving fun _ => hexited
    exact fun _ hquit hpoll => h.woken (by rw [howner]; rfl) hquit hpoll
  | joined =>
    rw [howner] at hstep
    cases hstep

/-- The thread leaves the owner alone, and the flag too, but for its initialisation. -/
theorem Inv.of_thread (h : Inv tr s) {wakeup : Bool} (howner : t.owner = s.owner)
    (hthread : s.thread ≠ .initialise) (hquit : t.quit = s.quit)
    (hwoken : t.owner.hasQuit = true → t.quit = true → t.thread = .polling → t.counter ≠ 0)
    (hleaving : t.thread = .leave ∨ t.thread = .exited → t.quit = true)
    (hexited : s.thread ≠ .exited) : Inv (tr ++ [(s, .thread wakeup)]) t := by
  refine h.of_same (fun hf => hthread hf.1) hquit (by rw [howner]) hwoken hleaving ?_
  intro hjoined
  exact absurd (h.joined (howner ▸ hjoined)) hexited

theorem Inv.stepThread (h : Inv tr s) {wakeup : Bool} (hstep : s.stepThread wakeup = some t) :
    Inv (tr ++ [(s, .thread wakeup)]) t := by
  unfold EventLoopThread.stepThread at hstep
  cases hthread : s.thread with
  | notStarted | exited =>
    rw [hthread] at hstep
    cases hstep
  | construct | publish | notify | unlock | functors =>
    rw [hthread] at hstep
    obtain rfl := Option.some.inj hstep
    exact h.of_thread rfl (by simp [hthread]) rfl (by simp) (by simp) (by simp [hthread])
  | lock | enter | polling =>
    rw [hthread] at hstep
    obtain ⟨-, hsome⟩ := Option.ite_none_left_eq_some.mp hstep
    obtain rfl := Option.some.inj hsome
    exact h.of_thread rfl (by simp [hthread]) rfl (by simp) (by simp) (by simp [hthread])
  | initialise =>
    rw [hthread] at hstep
    obtain rfl := Option.some.inj hstep
    refine ⟨fun hset => ?_, fun hset => ?_, by simp, by simp, fun hjoined => ?_⟩
    · -- `quit` came before.
      have hforgets : Forgets s (.thread wakeup) := ⟨hthread, hset⟩
      rw [kept_append]
      exact iff_of_false (by simp) fun hkept => hkept.2 hforgets
    · refine kept_append.mpr ⟨h.notSet hset, fun hf => ?_⟩
      rw [hf.2] at hset
      cases hset
    · exact absurd (h.joined hjoined) (by simp [hthread])
  | test =>
    rw [hthread] at hstep
    obtain rfl := Option.some.inj hstep
    refine h.of_thread rfl (by simp [hthread]) rfl ?_ ?_ (by simp [hthread])
    · dsimp only
      intro _ hquit
      simp [hquit]
    · dsimp only
      split_ifs with hquit
      · exact fun _ => hquit
      · simp
  | handling reported =>
    rw [hthread] at hstep
    obtain rfl := Option.some.inj hstep
    exact h.of_thread rfl (by simp [hthread]) rfl (by simp) (by simp) (by simp [hthread])
  | leave =>
    rw [hthread] at hstep
    obtain rfl := Option.some.inj hstep
    have hleaving := h.leaving (.inl hthread)
    exact h.of_thread rfl (by simp [hthread]) rfl (by simp) (fun _ => hleaving) (by simp [hthread])

theorem Inv.step (h : Inv tr s) {a : Action} (hstep : s.step a = some t) :
    Inv (tr ++ [(s, a)]) t := by
  cases a with
  | owner => exact h.stepOwner hstep
  | thread wakeup => exact h.stepThread hstep
  | other =>
    obtain rfl := Option.some.inj hstep
    exact h.of_same id rfl rfl (fun _ _ _ => EventLoop.writeEventfd_ne_zero _) h.leaving h.joined

theorem inv_of_run (hrun : Run step {} tr t) : Inv tr t :=
  hrun.history (P := Inv) (fun _ _ _ _ h hstep => h.step hstep) inv_init

/-! ## The flag is kept -/

theorem hasSet_of_hasQuit {o : OwnerPhase} (h : o.hasQuit = true) : o.hasSet = true := by
  cases o with
  | start | lock | check | waiting | obtained => cases h
  | wakeup | join | joined => rfl

theorem Inv.iff_kept (h : Inv tr s) :
    QuitKept s ↔ (s.owner.hasQuit = true → Kept tr) := by
  apply Iff.intro
  · intro hs hquit
    exact (h.set (hasSet_of_hasQuit hquit)).mp (hs.flag hquit)
  · intro hkept
    have hflag : s.owner.hasQuit = true → s.quit = true :=
      fun hquit => (h.set (hasSet_of_hasQuit hquit)).mpr (hkept hquit)
    refine ⟨hflag, fun hquit htest wakeup => ?_, fun hquit => h.woken hquit (hflag hquit)⟩
    simp [EventLoopThread.step, EventLoopThread.stepThread, htest, hflag hquit]

theorem owner_stepThread {wakeup : Bool} (hstep : s.stepThread wakeup = some t) :
    t.owner = s.owner := by
  unfold EventLoopThread.stepThread at hstep
  grind

/-- `quit` does not become undone. -/
theorem hasQuit_of_step {a : Action} (h : s.owner.hasQuit = true) (hstep : s.step a = some t) :
    t.owner.hasQuit = true := by
  cases a with
  | owner =>
    unfold EventLoopThread.step EventLoopThread.stepOwner at hstep
    cases howner : s.owner with
    | start | lock | check | waiting | obtained | wakeup =>
      rw [howner] at h
      cases h
    | join =>
      rw [howner] at hstep
      obtain ⟨-, hsome⟩ := Option.ite_none_right_eq_some.mp hstep
      obtain rfl := Option.some.inj hsome
      rfl
    | joined =>
      rw [howner] at hstep
      cases hstep
  | thread wakeup => rwa [owner_stepThread hstep]
  | other =>
    obtain rfl := Option.some.inj hstep
    exact h

/-- **A quit request is kept** throughout a run exactly if the loop does not initialise its flag
after `quit` has set it, or `quit` has not returned yet. -/
theorem quitKept_iff (hrun : Run step {} tr t) :
    ((∀ p ∈ tr, QuitKept p.1) ∧ QuitKept t) ↔
      (t.owner.hasQuit = true → ∀ p ∈ tr, ¬ Forgets p.1 p.2) := by
  apply Iff.intro
  · intro h
    exact (inv_of_run hrun).iff_kept.mp h.2
  · intro h
    refine ⟨fun p hp => ?_, (inv_of_run hrun).iff_kept.mpr h⟩
    obtain ⟨tr₁, tr₂, rfl⟩ := List.append_of_mem hp
    obtain ⟨u, hbefore, hstep, hafter⟩ := Run.split hrun
    refine (inv_of_run hbefore).iff_kept.mpr fun hquit => ?_
    -- If `quit` has returned here, it has at the end.
    have hend : t.owner.hasQuit = true :=
      (hafter.invariant (P := fun s => s.owner.hasQuit = true)
        (fun _ _ _ h hstep => hasQuit_of_step h hstep) (hasQuit_of_step hquit hstep)).2
    exact fun q hq => h hend q (List.mem_append_left _ hq)

/-- The thread has initialised the flag before the owner calls `quit`, which interrupts its poll. -/
def quitAfterPoll : List Action :=
  [.owner, .thread true, .thread true, .thread true, .thread true, .thread true, .thread true,
    .thread true, .thread true, .owner, .owner, .owner, .owner]

theorem quitKept_polling :
    ∃ t, exec step {} quitAfterPoll = some t ∧
      QuitKept t ∧ t.owner = .join ∧ t.thread = .polling := by
  have hexec : exec step {} quitAfterPoll = some _ := rfl
  exact ⟨_, hexec, ((quitKept_iff (run_trace hexec)).mpr fun _ => by decide).2, rfl, rfl⟩

/-- The owner obtains the loop and calls `quit` before the thread enters the loop. -/
def quitBeforeLoop : List Action :=
  [.owner, .thread false, .thread false, .thread false, .thread false, .thread false, .owner,
    .owner, .owner, .owner, .thread false, .thread false]

theorem not_quitKept_early :
    ∃ t, exec step {} quitBeforeLoop = some t ∧
      t.owner = .join ∧ t.quit = false ∧ ¬ QuitKept t := by
  refine ⟨_, rfl, rfl, rfl, fun h => ?_⟩
  exact absurd (h.flag rfl) (by decide)

/-! ## The join -/

/-- A loop that has lost the request does not end, and the destructor waits for it. -/
theorem not_joined_of_forgets (hrun : Run step {} tr t) (h : ∃ p ∈ tr, Forgets p.1 p.2) :
    t.thread ≠ .exited ∧ t.owner ≠ .joined := by
  have hinv := inv_of_run hrun
  obtain ⟨p, hp, hforgets⟩ := h
  have hset : t.owner.hasSet = true := by
    by_contra hnot
    exact hinv.notSet (Bool.eq_false_of_not_eq_true hnot) p hp hforgets
  have hexited : t.thread ≠ .exited := by
    intro hthread
    exact (hinv.set hset).mp (hinv.leaving (.inr hthread)) p hp hforgets
  exact ⟨hexited, fun hjoined => hexited (hinv.joined hjoined)⟩

/-- The thread is in the loop, or has left it. -/
def hasEntered : ThreadPhase → Bool
  | .test | .polling | .handling _ | .functors | .leave | .exited => true
  | _ => false

/-- Some steps lead to the end of the join. -/
def Joins (s : EventLoopThread) : Prop := ∃ as t, exec step s as = some t ∧ t.owner = .joined

theorem joins_of_step {a : Action} (hstep : s.step a = some t) (h : Joins t) : Joins s := by
  obtain ⟨as, u, hexec, hu⟩ := h
  refine ⟨a :: as, u, ?_, hu⟩
  rw [exec, hstep]
  exact hexec

theorem joins_of_exited (howner : s.owner = .join) (hthread : s.thread = .exited) : Joins s := by
  have hstep : s.step .owner = some { s with owner := .joined } := by
    simp [EventLoopThread.step, EventLoopThread.stepOwner, howner, hthread]
  exact joins_of_step hstep ⟨[], _, rfl, rfl⟩

theorem joins_of_leave (howner : s.owner = .join) (hthread : s.thread = .leave) : Joins s := by
  have hstep : s.step (.thread false) = some { s with thread := .exited, looping := false } := by
    simp [EventLoopThread.step, EventLoopThread.stepThread, hthread]
  exact joins_of_step hstep (joins_of_exited howner rfl)

theorem joins_of_test (howner : s.owner = .join) (hquit : s.quit = true)
    (hthread : s.thread = .test) : Joins s := by
  have hstep : s.step (.thread false) = some { s with thread := .leave } := by
    simp [EventLoopThread.step, EventLoopThread.stepThread, hthread, hquit]
  exact joins_of_step hstep (joins_of_leave howner rfl)

theorem joins_of_functors (howner : s.owner = .join) (hquit : s.quit = true)
    (hthread : s.thread = .functors) : Joins s := by
  have hstep : s.step (.thread false) = some { s with thread := .test } := by
    simp [EventLoopThread.step, EventLoopThread.stepThread, hthread]
  exact joins_of_step hstep (joins_of_test howner hquit rfl)

theorem joins_of_handling {wakeup : Bool} (howner : s.owner = .join) (hquit : s.quit = true)
    (hthread : s.thread = .handling wakeup) : Joins s := by
  have hstep : s.step (.thread false) =
      some { s with thread := .functors, counter := if wakeup then 0 else s.counter } := by
    simp [EventLoopThread.step, EventLoopThread.stepThread, hthread]
  exact joins_of_step hstep (joins_of_functors howner hquit rfl)

/-- **A loop that keeps the request ends**, and the join returns. -/
theorem joins_of_quit (howner : s.owner = .join) (hquit : s.quit = true)
    (hentered : hasEntered s.thread = true) : Joins s := by
  cases hthread : s.thread with
  | notStarted | construct | lock | publish | notify | unlock | enter | initialise =>
    rw [hthread] at hentered
    cases hentered
  | test => exact joins_of_test howner hquit hthread
  | polling =>
    have hstep : s.step (.thread false) = some { s with thread := .handling false } := by
      simp [EventLoopThread.step, EventLoopThread.stepThread, hthread]
    exact joins_of_step hstep (joins_of_handling howner hquit rfl)
  | handling wakeup => exact joins_of_handling howner hquit hthread
  | functors => exact joins_of_functors howner hquit hthread
  | leave => exact joins_of_leave howner hthread
  | exited => exact joins_of_exited howner hthread

end EventLoopThread

end SearchServer

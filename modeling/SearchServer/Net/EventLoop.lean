import SearchServer.Lib.Runs

/-!
# The event loop

`EventLoop` (`net/EventLoop.cc`). The loop polls, handles the active channels, and runs the pending
functors. Any thread can queue a functor, and then wakes the loop up by a write to an `eventfd`; the
loop itself queues functors from handlers and from other functors, and writes only in the latter
case. The push and the write are two steps, and so are the poll and the read that resets the
counter.

`Loop` is the part that other modules need: the two vectors of functors. `EventLoop` adds where the
loop is, the counter, and the calls of `queueInLoop` that have still to write.

**Theorem (`functors_kept`).** The functors executed so far are a prefix of those pushed so far, and
the rest is still in the two vectors. When the loop is about to poll with functors pending, the
counter is not zero, or a thread that pushed one of these functors has still to write.
-/

namespace SearchServer

/-- A loop: the pending functors, those of the batch that have run, and those that have not. -/
structure Loop (φ : Type) where
  pendingFunctors : List φ := []
  ran : List φ := []
  functors : List φ := []

namespace Loop

variable {φ : Type}

def queueInLoop (l : Loop φ) (f : φ) : Loop φ :=
  { l with pendingFunctors := l.pendingFunctors ++ [f] }

/-- The start of `doPendingFunctors`. -/
def take (l : Loop φ) : Option (Loop φ) :=
  if l.functors = [] ∧ l.ran = [] then some { functors := l.pendingFunctors } else none

/-- The next functor of the batch. -/
def next (l : Loop φ) : Option (φ × Loop φ) :=
  match l.functors with
  | [] => none
  | f :: fs => some (f, { l with ran := l.ran ++ [f], functors := fs })

/-- The end of `doPendingFunctors`, where the batch is dropped. -/
def drop (l : Loop φ) : Option (Loop φ) :=
  if l.functors = [] then some { l with ran := [] } else none

/-- The functors that the loop holds. -/
def held (l : Loop φ) : List φ := l.pendingFunctors ++ (l.ran ++ l.functors)

/-- The functors that have not run, in the order in which they will. -/
def waiting (l : Loop φ) : List φ := l.functors ++ l.pendingFunctors

variable {l l' : Loop φ} {f : φ}

theorem mem_held_queueInLoop {g : φ} : g ∈ (l.queueInLoop f).held ↔ g = f ∨ g ∈ l.held := by
  simp only [queueInLoop, held, List.mem_append, List.mem_singleton]
  tauto

theorem take_eq_some (h : l.take = some l') :
    l' = { functors := l.pendingFunctors } ∧ l.functors = [] ∧ l.ran = [] := by
  obtain ⟨hnil, h⟩ := Option.ite_none_right_eq_some.mp h
  exact ⟨(Option.some.inj h).symm, hnil⟩

theorem next_eq_some (h : l.next = some (f, l')) :
    ∃ fs, l.functors = f :: fs ∧ l' = { l with ran := l.ran ++ [f], functors := fs } := by
  unfold next at h
  split at h
  · cases h
  · rename_i g fs hfs
    obtain ⟨rfl, rfl⟩ := Prod.mk.inj (Option.some.inj h)
    exact ⟨fs, hfs, rfl⟩

theorem drop_eq_some (h : l.drop = some l') : l.functors = [] ∧ l' = { l with ran := [] } := by
  obtain ⟨hnil, h⟩ := Option.ite_none_right_eq_some.mp h
  exact ⟨hnil, (Option.some.inj h).symm⟩

theorem held_take (h : l.take = some l') : l'.held = l.held := by
  obtain ⟨rfl, hfs, hran⟩ := take_eq_some h
  simp [held, hfs, hran]

/-- The functor that runs is still held. -/
theorem held_next (h : l.next = some (f, l')) : l'.held = l.held := by
  obtain ⟨fs, hfs, rfl⟩ := next_eq_some h
  simp [held, hfs]

theorem mem_held_of_next (h : l.next = some (f, l')) : f ∈ l.held := by
  obtain ⟨fs, hfs, -⟩ := next_eq_some h
  simp [held, hfs]

theorem mem_held_of_waiting (h : f ∈ l.waiting) : f ∈ l.held := by
  simp only [waiting, held, List.mem_append] at h ⊢
  tauto

theorem waiting_queueInLoop : (l.queueInLoop f).waiting = l.waiting ++ [f] := by
  rw [waiting, waiting, List.append_assoc]
  rfl

theorem waiting_take (h : l.take = some l') : l'.waiting = l.waiting := by
  obtain ⟨rfl, hfs, -⟩ := take_eq_some h
  simp [waiting, hfs]

theorem waiting_next (h : l.next = some (f, l')) : l.waiting = f :: l'.waiting := by
  obtain ⟨fs, hfs, rfl⟩ := next_eq_some h
  rw [waiting, hfs]
  rfl

theorem waiting_drop (h : l.drop = some l') : l'.waiting = l.waiting := by
  obtain ⟨-, rfl⟩ := drop_eq_some h
  rfl

theorem held_drop_subset (h : l.drop = some l') : l'.held ⊆ l.held := by
  obtain ⟨-, rfl⟩ := drop_eq_some h
  intro g hg
  simp only [held, List.nil_append, List.mem_append] at hg ⊢
  tauto

end Loop

/-- A thread: the one of the loop, or another one. -/
inductive Thread where
  | loop
  | other (id : ℕ)
deriving DecidableEq

/-- A channel that poll reports: the one of the `eventfd`, or another one. -/
inductive ActiveChannel where
  | wakeup
  | other
deriving DecidableEq

/-- Where the loop is. -/
inductive LoopPhase where
  /-- Before the test of `_quit`. -/
  | test
  | polling
  | handling (active : List ActiveChannel)
  /-- In the handler of a channel. -/
  | inHandler (active : List ActiveChannel)
  /-- `_callingPendingFunctors` is set, and the vectors are not swapped yet. -/
  | swapping
  | running
  | inFunctor
  | exited
deriving DecidableEq

/-- The loop with its `eventfd` and the callers of `queueInLoop`. -/
structure EventLoop (φ : Type) extends Loop φ where
  phase : LoopPhase := .test
  quit : Bool := false
  callingPendingFunctors : Bool := false
  /-- The counter of the `eventfd`. -/
  counter : ℕ := 0
  /-- The thread has pushed functor number `n` and not returned from `queueInLoop`. -/
  queueing : Thread → Option ℕ := fun _ => none
  /-- All functors pushed so far. -/
  pushed : List φ := []
  /-- All functors called so far. -/
  executed : List φ := []

/-- `write` to an `eventfd`, which fails when the counter is at its maximum. -/
def writeEventfd (counter : ℕ) : ℕ := if counter + 1 < 2 ^ 64 - 1 then counter + 1 else counter

namespace EventLoop

variable {φ : Type}

inductive Action (φ : Type) where
  /-- The push of `queueInLoop`. -/
  | push (thread : Thread) (f : φ)
  /-- The rest of `queueInLoop`. -/
  | wake (thread : Thread)
  /-- Any thread calls `wakeup` for another reason. -/
  | wakeup
  | quit
  | test
  /-- `poll` returns with these channels. -/
  | poll (active : List ActiveChannel)
  /-- The next channel, or the end of the channels. -/
  | handle
  /-- The handler or the functor returns. -/
  | returns
  | swap
  /-- The next functor. -/
  | run
  /-- The end of `doPendingFunctors`. -/
  | finish

/-- The loop thread is in code that may call `queueInLoop`. -/
def InCallback (s : EventLoop φ) : Prop :=
  match s.phase with
  | .inHandler _ | .inFunctor => True
  | _ => False

instance (s : EventLoop φ) : Decidable s.InCallback := by
  unfold InCallback
  split <;> infer_instance

/-- One step of the loop or of a caller. -/
def step (s : EventLoop φ) : Action φ → Option (EventLoop φ)
  | .push thread f =>
    if s.queueing thread = none ∧ (thread = .loop → s.InCallback) then some { s with
      toLoop := s.toLoop.queueInLoop f
      queueing := Function.update s.queueing thread (some s.pushed.length)
      pushed := s.pushed ++ [f] }
    else none
  | .wake thread =>
    if s.queueing thread = none then none else some { s with
      counter := if thread ≠ .loop ∨ s.callingPendingFunctors then writeEventfd s.counter
        else s.counter
      queueing := Function.update s.queueing thread none }
  | .wakeup => some { s with counter := writeEventfd s.counter }
  | .quit => some { s with quit := true }
  | .test =>
    if s.phase = .test then some { s with phase := if s.quit then .exited else .polling } else none
  | .poll active =>
    if s.phase = .polling ∧ (.wakeup ∈ active → s.counter ≠ 0) then
      some { s with phase := .handling active }
    else none
  | .handle =>
    match s.phase with
    | .handling (.wakeup :: active) => some { s with counter := 0, phase := .handling active }
    | .handling (.other :: active) => some { s with phase := .inHandler active }
    | .handling [] => some { s with callingPendingFunctors := true, phase := .swapping }
    | _ => none
  | .returns =>
    if s.queueing .loop = none then
      match s.phase with
      | .inHandler active => some { s with phase := .handling active }
      | .inFunctor => some { s with phase := .running }
      | _ => none
    else none
  | .swap =>
    if s.phase = .swapping then s.toLoop.take.map fun l => { s with toLoop := l, phase := .running }
    else none
  | .run =>
    if s.phase = .running then s.toLoop.next.map fun (f, l) =>
      { s with toLoop := l, phase := .inFunctor, executed := s.executed ++ [f] }
    else none
  | .finish =>
    if s.phase = .running then s.toLoop.drop.map fun l =>
      { s with toLoop := l, callingPendingFunctors := false, phase := .test }
    else none

/-! ## The invariant -/

/-- The loop is between the swap and the end of `doPendingFunctors`. -/
def InBatch (s : EventLoop φ) : Prop := s.phase = .running ∨ s.phase = .inFunctor

/-- The loop will poll before it looks at the pending functors again. -/
def BeforePoll (s : EventLoop φ) : Prop := s.phase = .test ∨ s.phase = .polling ∨ s.InBatch

/-- The number of the first pending functor. -/
def firstPending (s : EventLoop φ) : ℕ := s.executed.length + s.functors.length

/-- The counter is not zero, or another thread that pushed a pending functor has still to write. -/
def Woken (s : EventLoop φ) : Prop :=
  s.counter ≠ 0 ∨ ∃ thread n, thread ≠ .loop ∧ s.queueing thread = some n ∧ s.firstPending ≤ n

structure Inv (s : EventLoop φ) : Prop where
  order : s.executed ++ s.functors ++ s.pendingFunctors = s.pushed
  number : ∀ thread n, s.queueing thread = some n → n < s.pushed.length
  callback : s.queueing .loop ≠ none → s.InCallback
  batch : ¬ s.InBatch → s.functors = [] ∧ s.ran = []
  calling : s.InBatch → s.callingPendingFunctors = true
  woken : s.BeforePoll → s.pendingFunctors ≠ [] → s.Woken ∨ s.queueing .loop ≠ none

theorem inv_init : Inv ({} : EventLoop φ) where
  order := rfl
  number := nofun
  callback := fun h => absurd rfl h
  batch := fun _ => ⟨rfl, rfl⟩
  calling := by simp [InBatch]
  woken := fun _ h => absurd rfl h

theorem writeEventfd_ne_zero (counter : ℕ) : writeEventfd counter ≠ 0 := by
  unfold writeEventfd
  split_ifs
  · omega
  · omega

theorem length_le_pushed {s : EventLoop φ} (h : s.Inv) : s.firstPending ≤ s.pushed.length := by
  rw [← h.order, firstPending]
  simp

/-- The owed write of the loop thread is made only from a functor. -/
theorem Inv.not_beforePoll {s : EventLoop φ} (h : s.Inv) (hq : s.queueing .loop ≠ none)
    (hbatch : ¬ s.InBatch) : ¬ s.BeforePoll := by
  have hcb := h.callback hq
  intro hbefore
  rcases hbefore with hp | hp | hp
  · simp [InCallback, hp] at hcb
  · simp [InCallback, hp] at hcb
  · exact hbatch hp

theorem Inv.push {s : EventLoop φ} (h : s.Inv) {thread : Thread} {f : φ}
    (hloop : thread = .loop → s.InCallback) :
    Inv { s with
      toLoop := s.toLoop.queueInLoop f
      queueing := Function.update s.queueing thread (some s.pushed.length)
      pushed := s.pushed ++ [f] } where
  order := by
    rw [← h.order]
    simp [Loop.queueInLoop]
  number := by
    intro thread' n hn
    rw [List.length_append, List.length_singleton]
    by_cases hthread : thread' = thread
    · subst hthread
      simp only [Function.update_self, Option.some.injEq] at hn
      omega
    · simp only [Function.update_of_ne hthread] at hn
      exact Nat.lt_succ_of_lt (h.number _ _ hn)
  callback := by
    intro hq
    by_cases hthread : thread = .loop
    · exact hloop hthread
    · exact h.callback (by simpa [Function.update_of_ne (Ne.symm hthread)] using hq)
  batch := h.batch
  calling := h.calling
  woken := by
    intro hbefore _
    by_cases hthread : thread = .loop
    · exact Or.inr (by simp [hthread])
    · exact Or.inl (Or.inr ⟨thread, s.pushed.length, hthread, by simp, length_le_pushed h⟩)

theorem Inv.wake {s : EventLoop φ} (h : s.Inv) {thread : Thread} {n : ℕ}
    (hq : s.queueing thread = some n) :
    Inv { s with
      counter := if thread ≠ .loop ∨ s.callingPendingFunctors then writeEventfd s.counter
        else s.counter
      queueing := Function.update s.queueing thread none } where
  order := h.order
  number := by
    intro thread' n' hn
    by_cases hthread : thread' = thread
    · simp [hthread] at hn
    · exact h.number _ _ (by simpa [Function.update_of_ne hthread] using hn)
  callback := by
    intro hq'
    by_cases hthread : thread = .loop
    · simp [hthread] at hq'
    · exact h.callback (by simpa [Function.update_of_ne (Ne.symm hthread)] using hq')
  batch := h.batch
  calling := h.calling
  woken := by
    intro hbefore _
    have hwrite : thread ≠ .loop ∨ s.callingPendingFunctors = true := by
      by_cases hthread : thread = .loop
      · -- In a handler there is no write, but the functors are swapped before the next poll.
        refine Or.inr (h.calling ?_)
        by_contra hbatch
        exact h.not_beforePoll (by simp [← hthread, hq]) hbatch hbefore
      · exact Or.inl hthread
    refine Or.inl (Or.inl ?_)
    simp only [hwrite, if_true]
    exact writeEventfd_ne_zero _

/-- A step that leaves the functors alone, and stays in or out of the batch. -/
theorem Inv.move {s t : EventLoop φ} (h : s.Inv) (hloop : t.toLoop = s.toLoop)
    (hqueueing : t.queueing = s.queueing) (hpushed : t.pushed = s.pushed)
    (hexec : t.executed = s.executed) (hcallback : s.queueing .loop ≠ none → t.InCallback)
    (hbatch : t.InBatch ↔ s.InBatch)
    (hcalling : t.InBatch → t.callingPendingFunctors = s.callingPendingFunctors)
    (hwoken : t.BeforePoll → s.BeforePoll ∧ (s.counter ≠ 0 → t.counter ≠ 0)) : t.Inv where
  order := by rw [hexec, hloop, hpushed, h.order]
  number := by
    rw [hqueueing, hpushed]
    exact h.number
  callback := by
    rw [hqueueing]
    exact hcallback
  batch := by
    rw [hbatch, hloop]
    exact h.batch
  calling := by
    intro ht
    rw [hcalling ht]
    exact h.calling (hbatch.mp ht)
  woken := by
    intro hbefore hne
    obtain ⟨hbefore', hcounter⟩ := hwoken hbefore
    rw [hloop] at hne
    rw [Woken, firstPending, hqueueing, hexec, hloop]
    exact (h.woken hbefore' hne).imp_left fun hw => hw.imp_left hcounter

theorem Inv.swap {s : EventLoop φ} {l : Loop φ} (h : s.Inv) (hphase : s.phase = .swapping)
    (hcalling : s.callingPendingFunctors = true) (hl : s.toLoop.take = some l) :
    Inv { s with toLoop := l, phase := .running } := by
  obtain ⟨rfl, hfunctors, -⟩ := Loop.take_eq_some hl
  exact {
    order := by simpa [hfunctors] using h.order
    number := h.number
    callback := fun hq => absurd (h.callback hq) (by simp [InCallback, hphase])
    batch := fun hbatch => absurd (Or.inl rfl) hbatch
    calling := fun _ => hcalling
    woken := fun _ hne => absurd rfl hne }

theorem Inv.run {s : EventLoop φ} {l : Loop φ} {f : φ} (h : s.Inv) (hphase : s.phase = .running)
    (hl : s.toLoop.next = some (f, l)) :
    Inv { s with toLoop := l, phase := .inFunctor, executed := s.executed ++ [f] } := by
  obtain ⟨fs, hfunctors, rfl⟩ := Loop.next_eq_some hl
  exact {
    order := by
      rw [← h.order, hfunctors]
      simp
    number := h.number
    callback := fun _ => trivial
    batch := fun hbatch => absurd (Or.inr rfl) hbatch
    calling := fun _ => h.calling (Or.inl hphase)
    woken := by
      intro _ hne
      have hwoken := h.woken (Or.inr (Or.inr (Or.inl hphase))) hne
      rw [Woken, firstPending] at hwoken ⊢
      -- The functor moves from the batch to the executed ones.
      have hsame : (s.executed ++ [f]).length + fs.length =
          s.executed.length + s.functors.length := by
        rw [hfunctors, List.length_append, List.length_singleton, List.length_cons]
        omega
      simpa only [hsame] using hwoken }

theorem Inv.finish {s : EventLoop φ} {l : Loop φ} (h : s.Inv) (hphase : s.phase = .running)
    (hl : s.toLoop.drop = some l) :
    Inv { s with toLoop := l, callingPendingFunctors := false, phase := .test } := by
  obtain ⟨hfunctors, rfl⟩ := Loop.drop_eq_some hl
  exact {
    order := h.order
    number := h.number
    callback := fun hq => absurd (h.callback hq) (by simp [InCallback, hphase])
    batch := fun _ => ⟨hfunctors, rfl⟩
    calling := by simp [InBatch]
    woken := fun _ hne => h.woken (Or.inr (Or.inr (Or.inl hphase))) hne }

/-- A step to a part of the loop from which the functors are swapped before the next poll. -/
theorem Inv.skip {s t : EventLoop φ} (h : s.Inv) (hloop : t.toLoop = s.toLoop)
    (hqueueing : t.queueing = s.queueing) (hpushed : t.pushed = s.pushed)
    (hexec : t.executed = s.executed) (hcallback : s.queueing .loop ≠ none → t.InCallback)
    (hbatch : ¬ s.InBatch) (ht : ¬ t.BeforePoll) : t.Inv :=
  h.move hloop hqueueing hpushed hexec hcallback
    ⟨fun hin => absurd (Or.inr (Or.inr hin)) ht, fun hin => absurd hin hbatch⟩
    (fun hin => absurd (Or.inr (Or.inr hin)) ht) fun hbefore => absurd hbefore ht

/-- `_callingPendingFunctors` is set when the vectors are swapped. -/
def CallingInSwap (s : EventLoop φ) : Prop :=
  s.phase = .swapping → s.callingPendingFunctors = true

theorem inv_step {s t : EventLoop φ} {a : Action φ} (h : s.Inv ∧ s.CallingInSwap)
    (hstep : step s a = some t) : t.Inv ∧ t.CallingInSwap := by
  obtain ⟨h, hswap⟩ := h
  cases a with
  | push thread f =>
    obtain ⟨⟨-, hloop⟩, hstep⟩ := Option.ite_none_right_eq_some.mp hstep
    cases hstep
    exact ⟨h.push hloop, hswap⟩
  | wake thread =>
    obtain ⟨hq, hstep⟩ := Option.ite_none_left_eq_some.mp hstep
    cases hstep
    obtain ⟨n, hn⟩ := Option.ne_none_iff_exists'.mp hq
    exact ⟨h.wake hn, hswap⟩
  | wakeup =>
    cases hstep
    exact ⟨h.move rfl rfl rfl rfl h.callback Iff.rfl (fun _ => rfl)
      fun hbefore => ⟨hbefore, fun _ => writeEventfd_ne_zero _⟩, hswap⟩
  | quit =>
    cases hstep
    exact ⟨h.move rfl rfl rfl rfl h.callback Iff.rfl (fun _ => rfl)
      fun hbefore => ⟨hbefore, id⟩, hswap⟩
  | test =>
    obtain ⟨hphase, hstep⟩ := Option.ite_none_right_eq_some.mp hstep
    cases hstep
    have hnot : ¬ s.InCallback := by simp [InCallback, hphase]
    refine ⟨h.move rfl rfl rfl rfl (fun hq => absurd (h.callback hq) hnot) ?_ ?_ ?_, ?_⟩
    · by_cases hquit : s.quit <;> simp [InBatch, hphase, hquit]
    · by_cases hquit : s.quit <;> simp [InBatch, hquit]
    · exact fun _ => ⟨Or.inl hphase, id⟩
    · by_cases hquit : s.quit <;> simp [CallingInSwap, hquit]
  | poll active =>
    obtain ⟨⟨hphase, -⟩, hstep⟩ := Option.ite_none_right_eq_some.mp hstep
    cases hstep
    have hnot : ¬ s.InCallback := by simp [InCallback, hphase]
    exact ⟨h.skip rfl rfl rfl rfl (fun hq => absurd (h.callback hq) hnot)
      (by simp [InBatch, hphase]) (by simp [BeforePoll, InBatch]), by simp [CallingInSwap]⟩
  | handle =>
    simp only [step] at hstep
    split at hstep
    all_goals try cases hstep
    all_goals
      rename_i hphase
      have hnot : ¬ s.InCallback := by simp [InCallback, hphase]
      exact ⟨h.skip rfl rfl rfl rfl (fun hq => absurd (h.callback hq) hnot)
        (by simp [InBatch, hphase]) (by simp [BeforePoll, InBatch]), by simp [CallingInSwap]⟩
  | returns =>
    simp only [step] at hstep
    split_ifs at hstep with hq
    split at hstep
    · rename_i active hphase
      cases hstep
      exact ⟨h.skip rfl rfl rfl rfl (fun hq' => absurd hq hq') (by simp [InBatch, hphase])
        (by simp [BeforePoll, InBatch]), by simp [CallingInSwap]⟩
    · rename_i hphase
      cases hstep
      refine ⟨h.move rfl rfl rfl rfl (fun hq' => absurd hq hq') ?_ (fun _ => rfl) ?_, ?_⟩
      · simp [InBatch, hphase]
      · exact fun _ => ⟨Or.inr (Or.inr (Or.inr hphase)), id⟩
      · simp [CallingInSwap]
    · cases hstep
  | swap =>
    obtain ⟨hphase, hstep⟩ := Option.ite_none_right_eq_some.mp hstep
    obtain ⟨l, hl, rfl⟩ := Option.map_eq_some_iff.mp hstep
    exact ⟨h.swap hphase (hswap hphase) hl, by simp [CallingInSwap]⟩
  | run =>
    obtain ⟨hphase, hstep⟩ := Option.ite_none_right_eq_some.mp hstep
    obtain ⟨⟨f, l⟩, hl, rfl⟩ := Option.map_eq_some_iff.mp hstep
    exact ⟨h.run hphase hl, by simp [CallingInSwap]⟩
  | finish =>
    obtain ⟨hphase, hstep⟩ := Option.ite_none_right_eq_some.mp hstep
    obtain ⟨l, hl, rfl⟩ := Option.map_eq_some_iff.mp hstep
    exact ⟨h.finish hphase hl, by simp [CallingInSwap]⟩

/-- **No functor is lost or stuck.** The functors executed so far, the rest of the batch and the
pending functors are those pushed so far. When the loop is about to poll with functors pending, its
counter is not zero, or another thread that pushed one of them, functor number `n`, has still to
write to the `eventfd`. -/
theorem functors_kept {s : EventLoop φ} {tr : List (EventLoop φ × Action φ)}
    (hrun : Run step {} tr s) :
    s.executed ++ (s.functors ++ s.pendingFunctors) = s.pushed ∧
      (s.phase = .polling → s.executed ++ s.pendingFunctors = s.pushed ∧
        (s.pendingFunctors ≠ [] → s.counter ≠ 0 ∨ ∃ thread n, thread ≠ .loop ∧
          s.queueing thread = some n ∧ s.executed.length ≤ n ∧ n < s.pushed.length)) := by
  have h : s.Inv :=
    (hrun.invariant (fun _ _ _ h hst => inv_step h hst) ⟨inv_init, by simp [CallingInSwap]⟩).2.1
  refine ⟨by rw [← List.append_assoc, h.order], fun hphase => ?_⟩
  have hcallback : s.queueing .loop = none := by
    by_contra hq
    exact absurd (h.callback hq) (by simp [InCallback, hphase])
  have hfunctors : s.functors = [] := (h.batch (by simp [InBatch, hphase])).1
  refine ⟨by simpa [hfunctors] using h.order, fun hne => ?_⟩
  have hwoken := (h.woken (Or.inr (Or.inl hphase)) hne).resolve_right fun hq => hq hcallback
  refine hwoken.imp_right fun ⟨thread, n, hthread, hn, hle⟩ => ?_
  rw [firstPending, hfunctors] at hle
  exact ⟨thread, n, hthread, hn, hle, h.number thread n hn⟩

/-- A functor of another thread runs and queues one more, which runs in the next round. Then a thread
pushes a functor, and the loop polls before that thread writes. -/
def twoRounds : List (Action ℕ) :=
  [.push (.other 0) 5, .wake (.other 0), .test, .poll [.wakeup], .handle, .handle, .swap, .run,
    .push .loop 6, .wake .loop, .returns, .finish, .test, .poll [.wakeup], .handle, .handle, .swap,
    .run, .returns, .push (.other 1) 7, .finish, .test]

theorem functors_kept_twoRounds :
    ∃ s : EventLoop ℕ, exec step {} twoRounds = some s ∧ s.phase = .polling ∧
      s.executed = [5, 6] ∧ s.executed ++ s.pendingFunctors = s.pushed ∧
      s.pendingFunctors = [7] ∧ s.counter = 0 ∧ ∃ thread n, thread ≠ .loop ∧
        s.queueing thread = some n ∧ s.executed.length ≤ n ∧ n < s.pushed.length := by
  obtain ⟨s, hs, hphase, hexecuted, hpending, hcounter⟩ : ∃ s : EventLoop ℕ,
      exec step {} twoRounds = some s ∧ s.phase = .polling ∧ s.executed = [5, 6] ∧
        s.pendingFunctors = [7] ∧ s.counter = 0 := ⟨_, rfl, rfl, rfl, rfl, rfl⟩
  obtain ⟨hpushed, hwoken⟩ := (functors_kept (run_trace hs)).2 hphase
  refine ⟨s, hs, hphase, hexecuted, hpushed, hpending, hcounter, ?_⟩
  exact (hwoken (by simp [hpending])).resolve_left fun h => h hcounter

end EventLoop

end SearchServer

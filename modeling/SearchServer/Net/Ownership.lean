import SearchServer.Lib.Runs
import SearchServer.Net.EventLoop
import SearchServer.Net.TcpConnection

/-!
# The owners of a connection

A connection lives as long as there is a `TcpConnectionPtr` to it. The owners are the map of the
server, the functors and the tasks of the thread pool that captured one (`owners`).
`TcpConnection::send` and `shutdown` bind `this`, so `sendInLoop` and `shutdownInLoop` own nothing;
`forceClose` binds `shared_from_this()`.

The system has any number of connections, each with its io loop, the base loop, and any number of
workers. A worker takes a task, calls one function of the connection, and drops the task; a call
tests the state of the connection, sets it, and queues a functor, each in a step of its own. A loop
takes all pending functors at once and keeps them until the last one has run.

**Theorem (`rawOwned_of_queuedInTime`).** In a run in which `sendInLoop` and `shutdownInLoop` are
queued only while the connection is in the map of the server, or while its `connectDestroyed` is
still pending, a connection has an owner whenever one of them is the next functor to run.

`not_rawOwned_lateSend` is a run in which a worker queues `sendInLoop` later than that.

The functors run in the order in which they were queued, and a batch is dropped as a whole, so
`connectDestroyed` is still there when a functor queued before it, or in the same batch, runs
(`Inv`).
-/

namespace SearchServer

/-- The functions of a connection that are queued in its loop. -/
inductive Callee where
  | connectEstablished
  | sendInLoop (message : Bytes)
  | shutdownInLoop
  | forceCloseInLoop
  | connectDestroyed
deriving DecidableEq

/-- The bind captures a `TcpConnectionPtr`, and not only `this`. -/
def Callee.captures : Callee → Bool
  | .sendInLoop _ => false
  | .shutdownInLoop => false
  | _ => true

/-- A function bound to connection number `conn`. -/
structure Bind where
  callee : Callee
  conn : ℕ
deriving DecidableEq

/-- What a worker does with the connection of its task. -/
inductive Stage where
  /-- It computes the answer. -/
  | working
  /-- Its call has tested the state and sets it to `kDisconnecting` next. -/
  | setting (callee : Callee)
  /-- Its call queues this function next. -/
  | queueing (callee : Callee)
  | returned

/-- A task that a worker runs. -/
structure Task where
  conn : ℕ
  stage : Stage

/-- The functions that a task can call. -/
inductive Call where
  | send (message : Bytes)
  | shutdown
  | forceClose

/-- The server, its loops and its thread pool. The io loops are handed out in turn, so the loop of a
connection depends on its number only. The base loop queues only `removeConnectionInLoop`, which is
a connection number here. -/
structure ServerSystem where
  getLoop : ℕ → ℕ
  nextConnId : ℕ
  connections : List ℕ
  state : ℕ → StateE
  /-- The channel of the connection has events. -/
  reading : ℕ → Bool
  loops : ℕ → Loop Bind
  baseLoop : Loop ℕ
  queue : List ℕ
  running : List Task

namespace ServerSystem

inductive Action where
  /-- The base loop accepts a connection. -/
  | newConnection
  /-- A message of the connection arrives. -/
  | message (conn : ℕ)
  /-- The connection is closed by its client. -/
  | close (conn : ℕ)
  /-- A worker takes a task. -/
  | takeTask
  /-- The task of a worker calls a function, which tests the state. -/
  | call (worker : ℕ) (call : Call)
  /-- The call sets the state. -/
  | set (worker : ℕ)
  /-- The call queues its functor. -/
  | queue (worker : ℕ)
  /-- The task ends. -/
  | finish (worker : ℕ)
  | takeFunctors (loop : ℕ)
  | runFunctor (loop : ℕ)
  | dropFunctors (loop : ℕ)
  | takeRemovals
  | runRemoval
  | dropRemovals

def init (getLoop : ℕ → ℕ) : ServerSystem :=
  ⟨getLoop, 1, [], fun _ => .kConnecting, fun _ => false, fun _ => {}, {}, [], []⟩

def setLoop (s : ServerSystem) (loop : ℕ) (l : Loop Bind) : ServerSystem :=
  { s with loops := Function.update s.loops loop l }

def loopOf (s : ServerSystem) (conn : ℕ) : Loop Bind := s.loops (s.getLoop conn)

def queueInLoop (s : ServerSystem) (f : Bind) : ServerSystem :=
  s.setLoop (s.getLoop f.conn) ((s.loopOf f.conn).queueInLoop f)

def setState (s : ServerSystem) (conn : ℕ) (state : StateE) : ServerSystem :=
  { s with state := Function.update s.state conn state }

def setReading (s : ServerSystem) (conn : ℕ) (reading : Bool) : ServerSystem :=
  { s with reading := Function.update s.reading conn reading }

def isOpen (s : ServerSystem) (conn : ℕ) : Bool :=
  s.state conn = .kConnected ∨ s.state conn = .kDisconnecting

def newConnection (s : ServerSystem) : ServerSystem :=
  let conn := s.nextConnId
  let s := { s with nextConnId := conn + 1, connections := conn :: s.connections }
  (s.setState conn .kConnecting).queueInLoop ⟨.connectEstablished, conn⟩

/-- `TcpConnection::handleClose`, which asserts that the connection is open. -/
def handleClose (s : ServerSystem) (conn : ℕ) : Option ServerSystem :=
  if s.isOpen conn then
    some { (s.setState conn .kDisconnected).setReading conn false with
      baseLoop := s.baseLoop.queueInLoop conn }
  else none

/-- What a call does after it has tested the state. -/
def afterTest (s : ServerSystem) (conn : ℕ) : Call → Stage
  | .send message =>
    if s.state conn = .kConnected then .queueing (.sendInLoop message) else .returned
  | .shutdown =>
    if s.state conn = .kConnected then .setting .shutdownInLoop else .queueing .shutdownInLoop
  | .forceClose => if s.isOpen conn then .setting .forceCloseInLoop else .returned

def run (s : ServerSystem) (f : Bind) : Option ServerSystem :=
  match f.callee with
  | .connectEstablished =>
    if s.state f.conn = .kConnecting then
      some ((s.setState f.conn .kConnected).setReading f.conn true)
    else none
  | .sendInLoop _ => some s
  | .shutdownInLoop => some s
  | .forceCloseInLoop => if s.isOpen f.conn then s.handleClose f.conn else some s
  | .connectDestroyed =>
    some (if s.state f.conn = .kConnected then
      (s.setState f.conn .kDisconnected).setReading f.conn false else s)

/-- `TcpServer::removeConnectionInLoop`, which asserts that the connection is in the map. -/
def removeConnectionInLoop (s : ServerSystem) (conn : ℕ) : Option ServerSystem :=
  if conn ∈ s.connections then
    let s := { s with connections := s.connections.filter (· ≠ conn) }
    some (s.queueInLoop ⟨.connectDestroyed, conn⟩)
  else none

def setTask (s : ServerSystem) (worker conn : ℕ) (stage : Stage) : ServerSystem :=
  { s with running := s.running.set worker ⟨conn, stage⟩ }

/-- One step. The thread pool holds at most `capacity` tasks that no worker has taken. -/
def step (capacity : ℕ) (s : ServerSystem) : Action → Option ServerSystem
  | .newConnection => if s.baseLoop.functors = [] then some s.newConnection else none
  | .message conn =>
    if (s.loopOf conn).functors = [] ∧ s.reading conn then
      some (if s.queue.length < capacity then { s with queue := s.queue ++ [conn] } else s)
    else none
  | .close conn =>
    if (s.loopOf conn).functors = [] ∧ s.reading conn then s.handleClose conn else none
  | .takeTask =>
    match s.queue with
    | [] => none
    | conn :: queue => some { s with queue := queue, running := s.running ++ [⟨conn, .working⟩] }
  | .call worker c =>
    match s.running[worker]? with
    | some ⟨conn, .working⟩ => some (s.setTask worker conn (s.afterTest conn c))
    | _ => none
  | .set worker =>
    match s.running[worker]? with
    | some ⟨conn, .setting callee⟩ =>
      some ((s.setState conn .kDisconnecting).setTask worker conn (.queueing callee))
    | _ => none
  | .queue worker =>
    match s.running[worker]? with
    | some ⟨conn, .queueing callee⟩ =>
      some ((s.setTask worker conn .returned).queueInLoop ⟨callee, conn⟩)
    | _ => none
  | .finish worker =>
    match s.running[worker]? with
    | some ⟨_, .returned⟩ => some { s with running := s.running.eraseIdx worker }
    | _ => none
  | .takeFunctors loop => (s.loops loop).take.map fun l => s.setLoop loop l
  | .runFunctor loop => (s.loops loop).next.bind fun (f, l) => (s.setLoop loop l).run f
  | .dropFunctors loop => (s.loops loop).drop.map fun l => s.setLoop loop l
  | .takeRemovals => s.baseLoop.take.map fun l => { s with baseLoop := l }
  | .runRemoval => s.baseLoop.next.bind fun (conn, l) =>
      removeConnectionInLoop { s with baseLoop := l } conn
  | .dropRemovals => s.baseLoop.drop.map fun l => { s with baseLoop := l }

/-! ## Owners -/

/-- What can hold a `TcpConnectionPtr`. -/
inductive Owner where
  | connections
  | functor (callee : Callee)
  | removal
  | queuedTask
  | runningTask
deriving DecidableEq

def owners (s : ServerSystem) (conn : ℕ) : List Owner :=
  (s.connections.filter (· = conn)).map (fun _ => Owner.connections) ++
    ((s.loopOf conn).held.filter fun f => f.conn = conn ∧ f.callee.captures).map
      (fun f => Owner.functor f.callee) ++
    (s.baseLoop.held.filter (· = conn)).map (fun _ => Owner.removal) ++
    (s.queue.filter (· = conn)).map (fun _ => Owner.queuedTask) ++
    (s.running.filter (·.conn = conn)).map fun _ => Owner.runningTask

/-- Whenever a functor that captured no pointer is the next to run, its connection has an owner. -/
def RawOwned (s : ServerSystem) : Prop :=
  ∀ loop, ∀ f ∈ (s.loops loop).functors.head?, f.callee.captures = false → s.owners f.conn ≠ []

/-- The connection is in the map, or its `connectDestroyed` is pending. -/
def InTime (s : ServerSystem) (conn : ℕ) : Prop :=
  conn ∈ s.connections ∨ ⟨.connectDestroyed, conn⟩ ∈ (s.loopOf conn).pendingFunctors

instance (s : ServerSystem) (conn : ℕ) : Decidable (s.InTime conn) :=
  inferInstanceAs (Decidable (_ ∨ _))

/-- If the step queues a functor that captured no pointer, it is in time. -/
def QueuedInTime (s : ServerSystem) (a : Action) : Prop :=
  match a with
  | .queue worker =>
    match s.running[worker]? with
    | some ⟨conn, .queueing callee⟩ => callee.captures = false → s.InTime conn
    | _ => True
  | _ => True

instance (s : ServerSystem) (a : Action) : Decidable (QueuedInTime s a) := by
  unfold QueuedInTime
  split
  · split <;> infer_instance
  · infer_instance

end ServerSystem

/-! ## One loop -/

/-- What is true of loop number `loop`. The functors are those of its connections. For a functor that
captured no pointer, the connection is in the map, or its `connectDestroyed` is in the same batch or
a later one. -/
structure Loop.Inv (connections : List ℕ) (getLoop : ℕ → ℕ) (loop : ℕ) (l : Loop Bind) : Prop where
  loop : ∀ f ∈ l.held, getLoop f.conn = loop
  pending : ∀ f ∈ l.pendingFunctors, f.callee.captures = false →
    f.conn ∈ connections ∨ ⟨.connectDestroyed, f.conn⟩ ∈ l.pendingFunctors
  batch : ∀ f ∈ l.functors, f.callee.captures = false →
    f.conn ∈ connections ∨ ⟨.connectDestroyed, f.conn⟩ ∈ l.held

namespace Loop.Inv

variable {connections : List ℕ} {getLoop : ℕ → ℕ} {loop : ℕ} {l l' : Loop Bind}

theorem mono {connections' : List ℕ} (h : l.Inv connections getLoop loop)
    (hsub : connections ⊆ connections') : l.Inv connections' getLoop loop where
  loop := h.loop
  pending f hf hraw := (h.pending f hf hraw).imp_left fun hin => hsub hin
  batch f hf hraw := (h.batch f hf hraw).imp_left fun hin => hsub hin

theorem queueInLoop (h : l.Inv connections getLoop loop) {f : Bind} (hloop : getLoop f.conn = loop)
    (hintime : f.callee.captures = false →
      f.conn ∈ connections ∨ ⟨.connectDestroyed, f.conn⟩ ∈ l.pendingFunctors) :
    (l.queueInLoop f).Inv connections getLoop loop := by
  refine ⟨fun g hg => ?_, fun g hg hraw => ?_, fun g hg hraw => ?_⟩
  · rcases Loop.mem_held_queueInLoop.mp hg with rfl | hg
    · exact hloop
    · exact h.loop g hg
  · have hpending : g.conn ∈ connections ∨ ⟨.connectDestroyed, g.conn⟩ ∈ l.pendingFunctors := by
      rcases List.mem_append.mp hg with hg | hg
      · exact h.pending g hg hraw
      · rw [List.mem_singleton.mp hg] at hraw ⊢
        exact hintime hraw
    exact hpending.imp_right fun hin => List.mem_append_left _ hin
  · exact (h.batch g hg hraw).imp_right fun hin => Loop.mem_held_queueInLoop.mpr (Or.inr hin)

theorem take (h : l.Inv connections getLoop loop) (ht : l.take = some l') :
    l'.Inv connections getLoop loop := by
  have hheld := Loop.held_take ht
  obtain ⟨rfl, -⟩ := Loop.take_eq_some ht
  refine ⟨fun f hf => ?_, fun f hf => absurd hf List.not_mem_nil, fun f hf hraw => ?_⟩
  · rw [hheld] at hf
    exact h.loop f hf
  · rw [hheld]
    exact (h.pending f hf hraw).imp_right fun hin => List.mem_append_left _ hin

theorem next {f : Bind} (h : l.Inv connections getLoop loop) (hn : l.next = some (f, l')) :
    l'.Inv connections getLoop loop := by
  have hheld := Loop.held_next hn
  obtain ⟨fs, hfs, rfl⟩ := Loop.next_eq_some hn
  refine ⟨fun f hf => h.loop f (hheld ▸ hf), h.pending, fun f hf hraw => ?_⟩
  rw [hheld]
  exact h.batch f (hfs ▸ List.mem_cons_of_mem _ hf) hraw

theorem drop (h : l.Inv connections getLoop loop) (hd : l.drop = some l') :
    l'.Inv connections getLoop loop := by
  have hsub := Loop.held_drop_subset hd
  obtain ⟨hnil, rfl⟩ := Loop.drop_eq_some hd
  refine ⟨fun f hf => h.loop f (hsub hf), h.pending, fun f hf => ?_⟩
  · rw [show l.functors = [] from hnil] at hf
    cases hf

/-- Removing a connection from the map, when its `connectDestroyed` is pending. -/
theorem erase {conn : ℕ} (h : l.Inv connections getLoop loop)
    (hd : getLoop conn = loop → ⟨.connectDestroyed, conn⟩ ∈ l.pendingFunctors) :
    l.Inv (connections.filter (· ≠ conn)) getLoop loop := by
  have hkeep : ∀ f ∈ l.held, f.conn ∈ connections →
      f.conn ∈ connections.filter (· ≠ conn) ∨ ⟨.connectDestroyed, f.conn⟩ ∈ l.pendingFunctors := by
    intro f hf hin
    by_cases hne : f.conn = conn
    · subst hne
      exact Or.inr (hd (h.loop f hf))
    · exact Or.inl (List.mem_filter.mpr ⟨hin, by simpa using hne⟩)
  refine ⟨h.loop, fun f hf hraw => ?_, fun f hf hraw => ?_⟩
  · rcases h.pending f hf hraw with hin | hin
    · exact hkeep f (List.mem_append_left _ hf) hin
    · exact Or.inr hin
  · rcases h.batch f hf hraw with hin | hin
    · exact (hkeep f (List.mem_append_right _ (List.mem_append_right _ hf)) hin).imp_right
        fun hp => List.mem_append_left _ hp
    · exact Or.inr hin

end Loop.Inv

namespace ServerSystem

/-! ## All loops -/

def Inv (s : ServerSystem) : Prop :=
  ∀ loop, (s.loops loop).Inv s.connections s.getLoop loop

theorem inv_init (getLoop : ℕ → ℕ) : Inv (init getLoop) := by
  intro loop
  refine ⟨fun f hf => ?_, fun f hf => ?_, fun f hf => ?_⟩ <;> cases hf

/-- **Owners.** In a state with the invariant, the next functor of a loop has an owner. -/
theorem Inv.rawOwned {s : ServerSystem} (h : Inv s) : RawOwned s := by
  intro loop f hf hraw hnone
  have hmem : f ∈ (s.loops loop).functors := List.mem_of_mem_head? hf
  have hheld : f ∈ (s.loops loop).held :=
    List.mem_append_right _ (List.mem_append_right _ hmem)
  simp only [owners, List.append_eq_nil_iff, List.map_eq_nil_iff, List.filter_eq_nil_iff] at hnone
  obtain ⟨⟨⟨⟨hmap, hfunctors⟩, -⟩, -⟩, -⟩ := hnone
  rcases (h loop).batch f hmem hraw with hin | hin
  · exact hmap f.conn hin (by simp)
  · rw [loopOf, (h loop).loop f hheld] at hfunctors
    exact hfunctors _ hin (by simp [Callee.captures])

section Step

variable {s t : ServerSystem}

theorem Inv.of_eq (h : Inv s) (hloops : t.loops = s.loops) (hconn : t.connections = s.connections)
    (hget : t.getLoop = s.getLoop) : Inv t := by
  intro loop
  rw [hloops, hconn, hget]
  exact h loop

theorem Inv.setLoop (h : Inv s) {loop : ℕ} {l : Loop Bind}
    (hl : l.Inv s.connections s.getLoop loop) : Inv (s.setLoop loop l) := by
  intro loop'
  show (Function.update s.loops loop l loop').Inv s.connections s.getLoop loop'
  by_cases heq : loop' = loop
  · subst heq
    rw [Function.update_self]
    exact hl
  · rw [Function.update_of_ne heq]
    exact h loop'

theorem Inv.queueInLoop (h : Inv s) {f : Bind}
    (hintime : f.callee.captures = false → s.InTime f.conn) : Inv (s.queueInLoop f) :=
  h.setLoop ((h (s.getLoop f.conn)).queueInLoop rfl hintime)

theorem Inv.handleClose (h : Inv s) {conn : ℕ} (hc : s.handleClose conn = some t) : Inv t := by
  obtain ⟨-, hc⟩ := Option.ite_none_right_eq_some.mp hc
  obtain rfl := Option.some.inj hc
  exact h.of_eq rfl rfl rfl

/-- The functors change the state of the connection, and may close it. -/
theorem Inv.run (h : Inv s) {f : Bind} (hr : s.run f = some t) : Inv t := by
  unfold ServerSystem.run at hr
  split at hr
  · obtain ⟨-, hr⟩ := Option.ite_none_right_eq_some.mp hr
    obtain rfl := Option.some.inj hr
    exact h.of_eq rfl rfl rfl
  · exact Option.some.inj hr ▸ h
  · exact Option.some.inj hr ▸ h
  · split_ifs at hr
    · exact h.handleClose hr
    · exact Option.some.inj hr ▸ h
  · obtain rfl := Option.some.inj hr
    split_ifs
    · exact h.of_eq rfl rfl rfl
    · exact h

theorem Inv.removeConnectionInLoop (h : Inv s) {conn : ℕ}
    (hr : s.removeConnectionInLoop conn = some t) : Inv t := by
  obtain ⟨-, hr⟩ := Option.ite_none_right_eq_some.mp hr
  obtain rfl := Option.some.inj hr
  -- The functor is queued when the connection leaves the map.
  have hqueued : Inv (s.queueInLoop ⟨.connectDestroyed, conn⟩) :=
    h.queueInLoop fun hraw => by cases hraw
  intro loop
  refine (hqueued loop).erase fun hloop => ?_
  subst hloop
  show _ ∈ (Function.update s.loops (s.getLoop conn) _ (s.getLoop conn)).pendingFunctors
  rw [Function.update_self]
  exact List.mem_append_right _ (List.mem_singleton_self _)

theorem Inv.newConnection (h : Inv s) : Inv s.newConnection := by
  refine Inv.queueInLoop (fun loop => ?_) fun hraw => by cases hraw
  exact (h loop).mono (List.subset_cons_self _ _)

/-- Every step that queues its functor in time keeps the invariant. -/
theorem Inv.step (h : Inv s) {capacity : ℕ} {a : Action} (hguard : QueuedInTime s a)
    (hstep : step capacity s a = some t) : Inv t := by
  cases a with
  | newConnection =>
    obtain ⟨-, hstep⟩ := Option.ite_none_right_eq_some.mp hstep
    exact Option.some.inj hstep ▸ h.newConnection
  | message conn =>
    obtain ⟨-, hstep⟩ := Option.ite_none_right_eq_some.mp hstep
    obtain rfl := Option.some.inj hstep
    split_ifs
    · exact h.of_eq rfl rfl rfl
    · exact h
  | close conn =>
    obtain ⟨-, hstep⟩ := Option.ite_none_right_eq_some.mp hstep
    exact h.handleClose hstep
  | takeTask =>
    unfold ServerSystem.step at hstep
    dsimp only at hstep
    split at hstep
    · cases hstep
    · exact Option.some.inj hstep ▸ h.of_eq rfl rfl rfl
  | call worker c =>
    unfold ServerSystem.step at hstep
    dsimp only at hstep
    split at hstep
    · exact Option.some.inj hstep ▸ h.of_eq rfl rfl rfl
    · cases hstep
  | set worker =>
    unfold ServerSystem.step at hstep
    dsimp only at hstep
    split at hstep
    · exact Option.some.inj hstep ▸ h.of_eq rfl rfl rfl
    · cases hstep
  | queue worker =>
    unfold ServerSystem.step at hstep
    dsimp only at hstep
    split at hstep
    · rename_i conn callee htask
      obtain rfl := Option.some.inj hstep
      have hset : Inv (s.setTask worker conn .returned) := h.of_eq rfl rfl rfl
      simp only [QueuedInTime, htask] at hguard
      exact hset.queueInLoop hguard
    · cases hstep
  | finish worker =>
    unfold ServerSystem.step at hstep
    dsimp only at hstep
    split at hstep
    · exact Option.some.inj hstep ▸ h.of_eq rfl rfl rfl
    · cases hstep
  | takeFunctors loop =>
    obtain ⟨l, hl, rfl⟩ := Option.map_eq_some_iff.mp hstep
    exact h.setLoop ((h loop).take hl)
  | runFunctor loop =>
    obtain ⟨⟨f, l⟩, hl, hrun⟩ := Option.bind_eq_some_iff.mp hstep
    exact (h.setLoop ((h loop).next hl)).run hrun
  | dropFunctors loop =>
    obtain ⟨l, hl, rfl⟩ := Option.map_eq_some_iff.mp hstep
    exact h.setLoop ((h loop).drop hl)
  | takeRemovals =>
    obtain ⟨l, -, rfl⟩ := Option.map_eq_some_iff.mp hstep
    exact h.of_eq rfl rfl rfl
  | runRemoval =>
    obtain ⟨⟨conn, l⟩, -, hrun⟩ := Option.bind_eq_some_iff.mp hstep
    exact Inv.removeConnectionInLoop (s := { s with baseLoop := l }) (h.of_eq rfl rfl rfl) hrun
  | dropRemovals =>
    obtain ⟨l, -, rfl⟩ := Option.map_eq_some_iff.mp hstep
    exact h.of_eq rfl rfl rfl

/-- **Owned functors.** In a run in which the functors that capture no pointer are queued in time,
their connection has an owner whenever one of them is the next to run. -/
theorem rawOwned_of_queuedInTime {getLoop : ℕ → ℕ} {capacity : ℕ}
    {tr : List (ServerSystem × Action)} (h : Run (ServerSystem.step capacity) (init getLoop) tr t)
    (hguard : ∀ p ∈ tr, QueuedInTime p.1 p.2) : (∀ p ∈ tr, RawOwned p.1) ∧ RawOwned t := by
  have hinv := h.guarded (P := Inv) (fun _ _ _ hI hG hstep => hI.step hG hstep)
    (inv_init getLoop) hguard
  exact ⟨fun p hp => (hinv.1 p hp).rawOwned, hinv.2.rawOwned⟩

end Step

/-- A worker looks at the state of the connection, and the connection is closed. -/
def closeWhileSending : List Action :=
  [.newConnection, .takeFunctors 0, .runFunctor 0, .dropFunctors 0, .message 1, .takeTask,
    .call 0 (.send (lit "hi")), .close 1]

/-- The base loop removes the connection, and its loop destroys it. -/
def destroy : List Action :=
  [.takeRemovals, .runRemoval, .dropRemovals, .takeFunctors 0, .runFunctor 0, .dropFunctors 0]

/-- The worker queues its functor and drops the task, and the loop takes the functor. -/
def sendLast : List Action := [.queue 0, .finish 0, .takeFunctors 0]

/-- When the worker queues its functor before the connection is removed, there is an owner. -/
theorem rawOwned_sendFirst :
    ∃ tr t, Run (step 8) (init fun _ => 0) tr t ∧
      (t.loops 0).functors = [⟨.sendInLoop (lit "hi"), 1⟩] ∧ RawOwned t := by
  obtain ⟨t, ht⟩ : ∃ t, exec (step 8) (init fun _ => 0) (closeWhileSending ++ sendLast) = some t :=
    Option.isSome_iff_exists.mp (by decide +kernel)
  have hfunctors : (exec (step 8) (init fun _ => 0) (closeWhileSending ++ sendLast)).map
      (fun t => (t.loops 0).functors) = some [⟨.sendInLoop (lit "hi"), 1⟩] := by decide +kernel
  rw [ht] at hfunctors
  exact ⟨_, t, run_trace ht, Option.some.inj hfunctors,
    (rawOwned_of_queuedInTime (run_trace ht) (by decide +kernel)).2⟩

/-- When it queues the functor after the connection is destroyed, there is none. -/
theorem not_rawOwned_lateSend :
    ∃ tr t, Run (step 8) (init fun _ => 0) tr t ∧
      (t.loops 0).functors = [⟨.sendInLoop (lit "hi"), 1⟩] ∧ t.owners 1 = [] ∧ ¬ RawOwned t := by
  obtain ⟨t, ht⟩ : ∃ t, exec (step 8) (init fun _ => 0)
      (closeWhileSending ++ destroy ++ sendLast) = some t :=
    Option.isSome_iff_exists.mp (by decide +kernel)
  have hstate : (exec (step 8) (init fun _ => 0) (closeWhileSending ++ destroy ++ sendLast)).map
      (fun t => ((t.loops 0).functors, t.owners 1)) =
      some ([⟨.sendInLoop (lit "hi"), 1⟩], []) := by decide +kernel
  rw [ht] at hstate
  obtain ⟨hfunctors, howners⟩ := Prod.mk.inj (Option.some.inj hstate)
  refine ⟨_, t, run_trace ht, hfunctors, howners, fun h => ?_⟩
  exact h 0 ⟨.sendInLoop (lit "hi"), 1⟩ (by rw [hfunctors]; rfl) rfl howners

end ServerSystem

end SearchServer

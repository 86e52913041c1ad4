import SearchServer.Lib.Runs
import SearchServer.Base.ThreadPool
import SearchServer.Net.EventLoop
import SearchServer.Net.TcpConnection
import SearchServer.Process.Server

/-!
# Requests and replies

A connection that has received a line gives it to the thread pool (`Server::onMessage`), a worker
takes the task and computes the reply (`Server::doTaskThread`), and `TcpConnection::send` queues
`sendInLoop` in the io loop of the connection.

The system has any number of connections, each with its input buffer and its io loop, the pool, and
`threadNum` workers. The result of `doQuery` is arbitrary, and so is the time that it takes. A
request carries the number of lines extracted before its own.

**Theorem (`none_dropped_iff`).** Every line that was extracted is a task in the queue, or was taken
by a worker, or was answered, at every time of a run, exactly when the queue of the pool is below its
limit whenever a line is extracted. `run` refuses the task otherwise, and `onMessage` ignores that.

**Theorem (`replies_in_order`).** The replies of a connection are sent in the order of its lines in
every run in which a worker queues a reply only while no other worker has an earlier request of the
connection, so in every run with one worker. `not_replies_in_order` is a run with two workers.

Both are about the accepted tasks, which are those taken so far and then those in the queue.
-/

namespace SearchServer

/-- `doTaskThread` bound to a connection and a message. -/
structure Request where
  conn : ℕ
  msg : Bytes
  /-- How many lines were extracted before this one. -/
  number : ℕ
deriving DecidableEq

/-- The first request has an earlier line. -/
def Request.Before (r r' : Request) : Prop := r.number < r'.number

/-- `sendInLoop` bound to a message, which was computed for the request. -/
structure QueuedReply where
  request : Request
  message : Bytes
deriving DecidableEq

/-- Where a worker is. -/
inductive PoolWorker where
  | idle
  /-- It is in `doQuery`. -/
  | working (request : Request)
  /-- It is in `send`, which has tested the state. -/
  | queueing (reply : QueuedReply)
deriving DecidableEq

def PoolWorker.request : PoolWorker → Option Request
  | .idle => none
  | .working request => some request
  | .queueing reply => some reply.request

/-- The connections, the pool with its workers, and the io loops. The io loops are handed out in
turn, so the loop of a connection depends on its number only. -/
structure RequestSystem where
  getLoop : ℕ → ℕ
  state : ℕ → StateE
  inputBuffer : ℕ → Buffer
  pool : ThreadPool Request
  workers : ℕ → PoolWorker
  loops : ℕ → Loop QueuedReply
  /-- The lines extracted so far. -/
  extracted : List Request
  /-- The tasks taken so far. -/
  taken : List Request
  /-- The replies of a connection for which `sendInLoop` has run. -/
  sent : ℕ → List QueuedReply

namespace RequestSystem

inductive Action where
  | connectEstablished (conn : ℕ)
  /-- A read of the connection returns `data`. -/
  | handleRead (conn : ℕ) (data : Bytes)
  | handleClose (conn : ℕ)
  | take (worker : ℕ)
  /-- `doQuery` returns `ret`, and `send` tests the state. -/
  | send (worker : ℕ) (ret : Bytes)
  | queueInLoop (worker : ℕ)
  | takeFunctors (loop : ℕ)
  | runFunctor (loop : ℕ)
  | dropFunctors (loop : ℕ)

/-- The server after `start`, with the capacity of the pool from its configuration. -/
def init (getLoop : ℕ → ℕ) (queSize : ℤ) : RequestSystem where
  getLoop := getLoop
  state := fun _ => .kConnecting
  inputBuffer := fun _ => .init
  pool := (({} : ThreadPool Request).setMaxQueueSize queSize).start
  workers := fun _ => .idle
  loops := fun _ => {}
  extracted := []
  taken := []
  sent := fun _ => []

def setState (s : RequestSystem) (conn : ℕ) (state : StateE) : RequestSystem :=
  { s with state := Function.update s.state conn state }

def setWorker (s : RequestSystem) (worker : ℕ) (w : PoolWorker) : RequestSystem :=
  { s with workers := Function.update s.workers worker w }

def setLoop (s : RequestSystem) (loop : ℕ) (l : Loop QueuedReply) : RequestSystem :=
  { s with loops := Function.update s.loops loop l }

def loopOf (s : RequestSystem) (conn : ℕ) : Loop QueuedReply := s.loops (s.getLoop conn)

def queueInLoop (s : RequestSystem) (reply : QueuedReply) : RequestSystem :=
  s.setLoop (s.getLoop reply.request.conn) ((s.loopOf reply.request.conn).queueInLoop reply)

/-- What `onMessage` takes from the input buffer after a read, and the buffer after it. -/
def extract (s : RequestSystem) (conn : ℕ) (data : Bytes) : Option (Option Bytes × Buffer) :=
  if data = [] then none else ((s.inputBuffer conn).readFd data).bind Server.onMessage

/-- The read completes a line. -/
def extracts (s : RequestSystem) (conn : ℕ) (data : Bytes) : Bool :=
  ((s.extract conn data).bind Prod.fst).isSome

/-- The end of `onMessage`, which ignores the result of `run`. -/
def runTask (s : RequestSystem) (conn : ℕ) (msg : Bytes) : RequestSystem :=
  let request : Request := ⟨conn, msg, s.extracted.length⟩
  { s with pool := (s.pool.run request).2, extracted := s.extracted ++ [request] }

/-- `handleRead` with `onMessage`. -/
def handleRead (s : RequestSystem) (conn : ℕ) (data : Bytes) : Option RequestSystem :=
  (s.extract conn data).map fun (msg, buf) =>
    let s := { s with inputBuffer := Function.update s.inputBuffer conn buf }
    msg.elim s (s.runTask conn)

def sendInLoop (s : RequestSystem) (reply : QueuedReply) : RequestSystem :=
  let conn := reply.request.conn
  { s with sent := Function.update s.sent conn (s.sent conn ++ [reply]) }

def step (threadNum : ℕ) (s : RequestSystem) : Action → Option RequestSystem
  | .connectEstablished conn =>
    if s.state conn = .kConnecting then some (s.setState conn .kConnected) else none
  | .handleRead conn data =>
    if (s.loopOf conn).functors = [] ∧ s.state conn = .kConnected then s.handleRead conn data
    else none
  | .handleClose conn =>
    if (s.loopOf conn).functors = [] ∧ s.state conn = .kConnected then
      some (s.setState conn .kDisconnected)
    else none
  | .take worker =>
    if worker < threadNum ∧ s.workers worker = .idle then
      match s.pool.take with
      | some (some request, pool) => some
          ({ s with pool := pool, taken := s.taken ++ [request] }.setWorker worker
            (.working request))
      | _ => none
    else none
  | .send worker ret =>
    match s.workers worker with
    | .working request => some (s.setWorker worker
        (if s.state request.conn = .kConnected then .queueing ⟨request, Server.replyMessage ret⟩
          else .idle))
    | _ => none
  | .queueInLoop worker =>
    match s.workers worker with
    | .queueing reply => some ((s.setWorker worker .idle).queueInLoop reply)
    | _ => none
  | .takeFunctors loop => (s.loops loop).take.map (s.setLoop loop)
  | .runFunctor loop =>
    (s.loops loop).next.map fun (reply, l) => (s.setLoop loop l).sendInLoop reply
  | .dropFunctors loop => (s.loops loop).drop.map (s.setLoop loop)

def accepted (s : RequestSystem) : List Request := s.taken ++ s.pool.queue

/-- The replies of a connection that are in its loop. -/
def waiting (s : RequestSystem) (conn : ℕ) : List QueuedReply :=
  (s.loopOf conn).waiting.filter (·.request.conn = conn)

/-- The replies of a connection, in the order in which they were queued. -/
def replies (s : RequestSystem) (conn : ℕ) : List QueuedReply := s.sent conn ++ s.waiting conn

/-- Every line that was extracted is in the queue, or taken, or answered. -/
def NoneDropped (s : RequestSystem) : Prop :=
  ∀ r ∈ s.extracted, r ∈ s.pool.queue ∨ r ∈ s.taken ∨ ∃ reply ∈ s.sent r.conn, reply.request = r

/-- If the step extracts a line, the queue is below the limit. -/
def HasRoom (s : RequestSystem) : Action → Prop
  | .handleRead conn data => s.extracts conn data = true → s.pool.queue.length < s.pool.limit
  | _ => True

/-- If the step queues a reply, no other worker has an earlier request of the connection. -/
def InTurn (threadNum : ℕ) (s : RequestSystem) : Action → Prop
  | .queueInLoop worker =>
    match s.workers worker with
    | .queueing reply => ∀ w < threadNum, ∀ r ∈ (s.workers w).request,
        r.conn = reply.request.conn → reply.request.number ≤ r.number
    | _ => True
  | _ => True

/-! ## The invariant -/

/-- The accepted tasks are some of the lines, in their order, and everything later comes from a task
that was taken. -/
structure Inv (threadNum : ℕ) (s : RequestSystem) : Prop where
  number : ∀ r ∈ s.extracted, r.number < s.extracted.length
  order : s.extracted.Pairwise Request.Before
  accepted : s.accepted.Sublist s.extracted
  worker : ∀ w r, (s.workers w).request = some r → w < threadNum ∧ r ∈ s.taken
  distinct : ∀ w w' r, (s.workers w).request = some r → (s.workers w').request = some r → w = w'
  loop : ∀ loop, ∀ reply ∈ (s.loops loop).held,
    reply.request ∈ s.taken ∧ s.getLoop reply.request.conn = loop
  sent : ∀ conn, ∀ reply ∈ s.sent conn, reply.request ∈ s.taken ∧ reply.request.conn = conn

variable {threadNum : ℕ}

theorem inv_init (getLoop : ℕ → ℕ) (queSize : ℤ) : Inv threadNum (init getLoop queSize) where
  number := fun _ hr => absurd hr List.not_mem_nil
  order := .nil
  accepted := .slnil
  worker := nofun
  distinct := nofun
  loop := fun _ _ h => absurd h List.not_mem_nil
  sent := fun _ _ h => absurd h List.not_mem_nil

section Step

variable {s t : RequestSystem}

theorem Inv.setState (h : Inv threadNum s) (conn : ℕ) (state : StateE) :
    Inv threadNum (s.setState conn state) :=
  ⟨h.number, h.order, h.accepted, h.worker, h.distinct, h.loop, h.sent⟩

/-- The pool accepts the task of a line if its queue is below the limit. -/
theorem accepted_runTask (s : RequestSystem) (conn : ℕ) (msg : Bytes) :
    (s.pool.queue.length < s.pool.limit ∧
      (s.runTask conn msg).accepted = s.accepted ++ [⟨conn, msg, s.extracted.length⟩]) ∨
    (s.pool.limit ≤ s.pool.queue.length ∧ (s.runTask conn msg).accepted = s.accepted) := by
  rcases Nat.lt_or_ge s.pool.queue.length s.pool.limit with hlt | hle
  · refine Or.inl ⟨hlt, ?_⟩
    rw [accepted, runTask, ThreadPool.run_of_lt hlt, accepted, List.append_assoc]
  · refine Or.inr ⟨hle, ?_⟩
    rw [accepted, runTask, ThreadPool.run_of_le hle, accepted]

/-- The accepted tasks are in the order of their lines. -/
theorem Inv.pairwise_accepted (h : Inv threadNum s) : s.accepted.Pairwise Request.Before :=
  h.order.sublist h.accepted

theorem Inv.runTask (h : Inv threadNum s) (conn : ℕ) (msg : Bytes) :
    Inv threadNum (s.runTask conn msg) := by
  have hlength : (s.runTask conn msg).extracted.length = s.extracted.length + 1 :=
    List.length_append
  refine ⟨?_, ?_, ?_, h.worker, h.distinct, h.loop, h.sent⟩
  · intro r hr
    rw [hlength]
    rcases List.mem_append.mp hr with hr | hr
    · exact Nat.lt_succ_of_lt (h.number r hr)
    · rw [List.mem_singleton.mp hr]
      exact Nat.lt_succ_self _
  · refine List.pairwise_append.mpr ⟨h.order, List.pairwise_singleton _ _, ?_⟩
    intro r hr r' hr'
    rw [List.mem_singleton.mp hr']
    exact h.number r hr
  · rcases s.accepted_runTask conn msg with ⟨-, heq⟩ | ⟨-, heq⟩
    · rw [heq]
      exact h.accepted.append (List.Sublist.refl _)
    · rw [heq]
      exact h.accepted.trans (List.sublist_append_left _ _)

/-- What a read leads to. -/
theorem handleRead_eq_some {conn : ℕ} {data : Bytes} (h : s.handleRead conn data = some t) :
    ∃ buf, let u := { s with inputBuffer := Function.update s.inputBuffer conn buf }
      (s.extracts conn data = false ∧ t = u) ∨
      ∃ msg, s.extracts conn data = true ∧ t = u.runTask conn msg := by
  obtain ⟨⟨msg, buf⟩, hextract, rfl⟩ := Option.map_eq_some_iff.mp h
  refine ⟨buf, ?_⟩
  rw [extracts, hextract]
  cases msg with
  | none => exact Or.inl ⟨rfl, rfl⟩
  | some msg => exact Or.inr ⟨msg, rfl, rfl⟩

theorem Inv.setInputBuffer (h : Inv threadNum s) (inputBuffer : ℕ → Buffer) :
    Inv threadNum { s with inputBuffer := inputBuffer } :=
  ⟨h.number, h.order, h.accepted, h.worker, h.distinct, h.loop, h.sent⟩

theorem Inv.handleRead (h : Inv threadNum s) {conn : ℕ} {data : Bytes}
    (hread : s.handleRead conn data = some t) : Inv threadNum t := by
  obtain ⟨buf, ⟨-, rfl⟩ | ⟨msg, -, rfl⟩⟩ := handleRead_eq_some hread
  · exact h.setInputBuffer _
  · exact (h.setInputBuffer _).runTask conn msg

theorem request_setWorker {worker w : ℕ} {stage : PoolWorker} {r : Request}
    (h : ((s.setWorker worker stage).workers w).request = some r) :
    (w = worker ∧ stage.request = some r) ∨ (w ≠ worker ∧ (s.workers w).request = some r) := by
  by_cases hw : w = worker
  · subst hw
    simp only [setWorker, Function.update_self] at h
    exact Or.inl ⟨rfl, h⟩
  · simp only [setWorker, Function.update_of_ne hw] at h
    exact Or.inr ⟨hw, h⟩

/-- A worker that goes on with its task, or is done with it. -/
theorem Inv.setWorker (h : Inv threadNum s) {worker : ℕ} {stage : PoolWorker}
    (hsub : ∀ r, stage.request = some r → (s.workers worker).request = some r) :
    Inv threadNum (s.setWorker worker stage) := by
  have hback : ∀ w r, ((s.setWorker worker stage).workers w).request = some r →
      (s.workers w).request = some r := by
    intro w r hr
    rcases request_setWorker hr with ⟨rfl, hstage⟩ | ⟨-, hold⟩
    · exact hsub r hstage
    · exact hold
  exact ⟨h.number, h.order, h.accepted, fun w r hr => h.worker w r (hback w r hr),
    fun w w' r hr hr' => h.distinct w w' r (hback w r hr) (hback w' r hr'), h.loop, h.sent⟩

/-- The accepted tasks stay the same when the first of the queue is taken. -/
theorem accepted_take {pool : ThreadPool Request} {r : Request} {stage : PoolWorker} {worker : ℕ}
    (htake : s.pool.take = some (some r, pool)) :
    ({ s with pool := pool, taken := s.taken ++ [r] }.setWorker worker stage).accepted =
      s.accepted := by
  obtain ⟨queue, hqueue, rfl⟩ := ThreadPool.take_eq_some htake
  show s.taken ++ [r] ++ queue = s.taken ++ s.pool.queue
  rw [hqueue, List.append_assoc, List.singleton_append]

theorem Inv.take (h : Inv threadNum s) {pool : ThreadPool Request} {r : Request} {worker : ℕ}
    (hworker : worker < threadNum) (htake : s.pool.take = some (some r, pool)) :
    Inv threadNum
      ({ s with pool := pool, taken := s.taken ++ [r] }.setWorker worker (.working r)) := by
  have haccepted : ({ s with pool := pool, taken := s.taken ++ [r] }.setWorker worker
      (.working r)).accepted = s.accepted := accepted_take htake
  have hnew : r ∉ s.taken := by
    intro hr
    obtain ⟨queue, hqueue, -⟩ := ThreadPool.take_eq_some htake
    have hlt := (List.pairwise_append.mp h.pairwise_accepted).2.2 r hr r
      (hqueue ▸ List.mem_cons_self)
    exact absurd hlt (Nat.lt_irrefl _)
  refine ⟨h.number, h.order, haccepted ▸ h.accepted, ?_, ?_, ?_, ?_⟩
  · intro w r' hr'
    rcases request_setWorker hr' with ⟨rfl, hstage⟩ | ⟨-, hold⟩
    · obtain rfl := Option.some.inj hstage
      exact ⟨hworker, List.mem_append_right _ (List.mem_singleton_self _)⟩
    · obtain ⟨hlt, hmem⟩ := h.worker w r' hold
      exact ⟨hlt, List.mem_append_left _ hmem⟩
  · intro w w' r' hw hw'
    rcases request_setWorker hw with ⟨rfl, hstage⟩ | ⟨-, hold⟩
    · rcases request_setWorker hw' with ⟨rfl, -⟩ | ⟨-, hold'⟩
      · rfl
      · obtain rfl := Option.some.inj hstage
        exact absurd (h.worker w' r hold').2 hnew
    · rcases request_setWorker hw' with ⟨rfl, hstage⟩ | ⟨-, hold'⟩
      · obtain rfl := Option.some.inj hstage
        exact absurd (h.worker w r hold).2 hnew
      · exact h.distinct w w' r' hold hold'
  · intro loop reply hreply
    obtain ⟨hmem, hloop⟩ := h.loop loop reply hreply
    exact ⟨List.mem_append_left _ hmem, hloop⟩
  · intro conn reply hreply
    obtain ⟨hmem, hconn⟩ := h.sent conn reply hreply
    exact ⟨List.mem_append_left _ hmem, hconn⟩

theorem Inv.setLoop (h : Inv threadNum s) {loop : ℕ} {l : Loop QueuedReply}
    (hl : ∀ reply ∈ l.held, reply.request ∈ s.taken ∧ s.getLoop reply.request.conn = loop) :
    Inv threadNum (s.setLoop loop l) := by
  refine ⟨h.number, h.order, h.accepted, h.worker, h.distinct, ?_, h.sent⟩
  intro loop' reply hreply
  by_cases heq : loop' = loop
  · subst heq
    simp only [RequestSystem.setLoop, Function.update_self] at hreply
    exact hl reply hreply
  · simp only [RequestSystem.setLoop, Function.update_of_ne heq] at hreply
    exact h.loop loop' reply hreply

theorem Inv.queueInLoop (h : Inv threadNum s) {reply : QueuedReply}
    (hreply : reply.request ∈ s.taken) :
    Inv threadNum (s.queueInLoop reply) := by
  refine h.setLoop fun reply' hreply' => ?_
  rcases Loop.mem_held_queueInLoop.mp hreply' with rfl | hheld
  · exact ⟨hreply, rfl⟩
  · exact h.loop _ reply' hheld

theorem Inv.sendInLoop (h : Inv threadNum s) {reply : QueuedReply}
    (hreply : reply.request ∈ s.taken) :
    Inv threadNum (s.sendInLoop reply) := by
  refine ⟨h.number, h.order, h.accepted, h.worker, h.distinct, h.loop, ?_⟩
  intro conn reply' hreply'
  by_cases heq : conn = reply.request.conn
  · subst heq
    simp only [RequestSystem.sendInLoop, Function.update_self] at hreply'
    rcases List.mem_append.mp hreply' with hold | hnew
    · exact h.sent _ reply' hold
    · obtain rfl := List.mem_singleton.mp hnew
      exact ⟨hreply, rfl⟩
  · simp only [RequestSystem.sendInLoop, Function.update_of_ne heq] at hreply'
    exact h.sent conn reply' hreply'

/-- What each action is when it happens. -/
theorem take_eq_some {worker : ℕ} (h : step threadNum s (.take worker) = some t) :
    worker < threadNum ∧ ∃ r pool, s.pool.take = some (some r, pool) ∧
      t = { s with pool := pool, taken := s.taken ++ [r] }.setWorker worker (.working r) := by
  obtain ⟨⟨hlt, -⟩, h⟩ := Option.ite_none_right_eq_some.mp h
  split at h
  · rename_i r pool htake
    exact ⟨hlt, r, pool, htake, (Option.some.inj h).symm⟩
  · cases h

theorem send_eq_some {worker : ℕ} {ret : Bytes} (h : step threadNum s (.send worker ret) = some t) :
    ∃ stage, (∀ r, stage.request = some r → (s.workers worker).request = some r) ∧
      t = s.setWorker worker stage := by
  simp only [step] at h
  split at h
  · rename_i request hworker
    refine ⟨_, fun r hr => ?_, (Option.some.inj h).symm⟩
    rw [hworker]
    split_ifs at hr
    · exact hr
    · cases hr
  · cases h

theorem queueInLoop_eq_some {worker : ℕ} (h : step threadNum s (.queueInLoop worker) = some t) :
    ∃ reply, s.workers worker = .queueing reply ∧
      t = (s.setWorker worker .idle).queueInLoop reply := by
  simp only [step] at h
  split at h
  · rename_i reply hworker
    exact ⟨reply, hworker, (Option.some.inj h).symm⟩
  · cases h

/-- The request of a reply that is queued next. -/
theorem request_queueing {worker : ℕ} {reply : QueuedReply}
    (h : s.workers worker = .queueing reply) :
    (s.workers worker).request = some reply.request := by
  rw [h]
  rfl

theorem inv_step {a : Action} (h : Inv threadNum s) (hstep : step threadNum s a = some t) :
    Inv threadNum t := by
  cases a with
  | connectEstablished conn =>
    obtain ⟨-, hstep⟩ := Option.ite_none_right_eq_some.mp hstep
    exact Option.some.inj hstep ▸ h.setState conn _
  | handleRead conn data => exact h.handleRead (Option.ite_none_right_eq_some.mp hstep).2
  | handleClose conn =>
    obtain ⟨-, hstep⟩ := Option.ite_none_right_eq_some.mp hstep
    exact Option.some.inj hstep ▸ h.setState conn _
  | take worker =>
    obtain ⟨hlt, r, pool, htake, rfl⟩ := take_eq_some hstep
    exact h.take hlt htake
  | send worker ret =>
    obtain ⟨stage, hsub, rfl⟩ := send_eq_some hstep
    exact h.setWorker hsub
  | queueInLoop worker =>
    obtain ⟨reply, hworker, rfl⟩ := queueInLoop_eq_some hstep
    have hidle : Inv threadNum (s.setWorker worker .idle) := h.setWorker nofun
    exact hidle.queueInLoop (h.worker worker _ (request_queueing hworker)).2
  | takeFunctors loop =>
    obtain ⟨l, hl, rfl⟩ := Option.map_eq_some_iff.mp hstep
    exact h.setLoop fun reply hreply => h.loop loop reply (Loop.held_take hl ▸ hreply)
  | runFunctor loop =>
    obtain ⟨⟨reply, l⟩, hl, rfl⟩ := Option.map_eq_some_iff.mp hstep
    have hloop : Inv threadNum (s.setLoop loop l) :=
      h.setLoop fun reply hreply => h.loop loop reply (Loop.held_next hl ▸ hreply)
    exact hloop.sendInLoop (h.loop loop reply (Loop.mem_held_of_next hl)).1
  | dropFunctors loop =>
    obtain ⟨l, hl, rfl⟩ := Option.map_eq_some_iff.mp hstep
    exact h.setLoop fun reply hreply => h.loop loop reply (Loop.held_drop_subset hl hreply)

/-! ## No line is dropped -/

theorem Inv.noneDropped_iff (h : Inv threadNum s) :
    s.NoneDropped ↔ ∀ r ∈ s.extracted, r ∈ s.accepted := by
  refine forall₂_congr fun r _ => ?_
  rw [RequestSystem.accepted, List.mem_append]
  apply Iff.intro
  · rintro (hqueue | htaken | ⟨reply, hreply, rfl⟩)
    · exact Or.inr hqueue
    · exact Or.inl htaken
    · exact Or.inl (h.sent _ reply hreply).1
  · rintro (htaken | hqueue)
    · exact Or.inr (Or.inl htaken)
    · exact Or.inl hqueue

/-- A line is dropped exactly when the queue is at the limit. -/
theorem Inv.noneDropped_runTask (h : Inv threadNum s) (hs : s.NoneDropped) (conn : ℕ) (msg : Bytes) :
    (s.runTask conn msg).NoneDropped ↔ s.pool.queue.length < s.pool.limit := by
  rw [(h.runTask conn msg).noneDropped_iff]
  rw [h.noneDropped_iff] at hs
  have hlast : (⟨conn, msg, s.extracted.length⟩ : Request) ∉ s.accepted :=
    fun hmem => absurd (h.number _ (h.accepted.subset hmem)) (Nat.lt_irrefl _)
  rcases s.accepted_runTask conn msg with ⟨hlt, heq⟩ | ⟨hle, heq⟩
  · rw [heq]
    refine iff_of_true (fun r hr => ?_) hlt
    rcases List.mem_append.mp hr with hr | hr
    · exact List.mem_append_left _ (hs r hr)
    · exact List.mem_append_right _ hr
  · rw [heq]
    refine iff_of_false (fun hall => hlast (hall _ ?_)) (Nat.not_lt.mpr hle)
    exact List.mem_append_right _ (List.mem_singleton_self _)

theorem noneDropped_step {a : Action} (h : Inv threadNum s) (hs : s.NoneDropped)
    (hstep : step threadNum s a = some t) : t.NoneDropped ↔ s.HasRoom a := by
  have ht : Inv threadNum t := inv_step h hstep
  -- All actions but a read leave the lines and the accepted tasks as they are.
  have hsame : t.extracted = s.extracted → t.accepted = s.accepted → t.NoneDropped := by
    intro hextracted haccepted
    rw [ht.noneDropped_iff, hextracted, haccepted]
    exact h.noneDropped_iff.mp hs
  cases a with
  | handleRead conn data =>
    obtain ⟨buf, ⟨hno, rfl⟩ | ⟨msg, hline, rfl⟩⟩ :=
      handleRead_eq_some (Option.ite_none_right_eq_some.mp hstep).2
    · refine iff_of_true (hsame rfl rfl) fun hline => ?_
      rw [hno] at hline
      cases hline
    · refine ((h.setInputBuffer _).noneDropped_runTask hs conn msg).trans ?_
      exact ⟨fun hlt _ => hlt, fun hroom => hroom hline⟩
  | connectEstablished conn | handleClose conn =>
    obtain ⟨-, hstep⟩ := Option.ite_none_right_eq_some.mp hstep
    obtain rfl := Option.some.inj hstep
    exact iff_of_true (hsame rfl rfl) trivial
  | take worker =>
    obtain ⟨-, r, pool, htake, rfl⟩ := take_eq_some hstep
    exact iff_of_true (hsame rfl (accepted_take htake)) trivial
  | send worker ret =>
    obtain ⟨stage, -, rfl⟩ := send_eq_some hstep
    exact iff_of_true (hsame rfl rfl) trivial
  | queueInLoop worker =>
    obtain ⟨reply, -, rfl⟩ := queueInLoop_eq_some hstep
    exact iff_of_true (hsame rfl rfl) trivial
  | takeFunctors loop =>
    obtain ⟨l, -, rfl⟩ := Option.map_eq_some_iff.mp hstep
    exact iff_of_true (hsame rfl rfl) trivial
  | runFunctor loop =>
    obtain ⟨p, -, rfl⟩ := Option.map_eq_some_iff.mp hstep
    exact iff_of_true (hsame rfl rfl) trivial
  | dropFunctors loop =>
    obtain ⟨l, -, rfl⟩ := Option.map_eq_some_iff.mp hstep
    exact iff_of_true (hsame rfl rfl) trivial

end Step

/-- **Requests.** In a run, every line that was extracted is in the queue, or taken, or answered at
all times, exactly when the queue is below the limit whenever a line is extracted. -/
theorem none_dropped_iff {getLoop : ℕ → ℕ} {queSize : ℤ} {t : RequestSystem}
    {tr : List (RequestSystem × Action)}
    (hrun : Run (step threadNum) (init getLoop queSize) tr t) :
    ((∀ p ∈ tr, p.1.NoneDropped) ∧ t.NoneDropped) ↔ ∀ p ∈ tr, p.1.HasRoom p.2 :=
  hrun.throughout_iff (fun _ _ _ h hst => inv_step h hst)
    (fun _ _ _ h hs hst => noneDropped_step h hs hst) (inv_init getLoop queSize)
    fun _ hr => absurd hr List.not_mem_nil

instance (s : RequestSystem) (a : Action) : Decidable (s.HasRoom a) := by
  unfold HasRoom
  split <;> infer_instance

instance (s : RequestSystem) : Decidable s.NoneDropped := by
  unfold NoneDropped
  infer_instance

/-- The queue has room for one task, which is taken before the second line arrives. -/
def takenInTime : List Action :=
  [.connectEstablished 1, .handleRead 1 (lit "a\n"), .take 0, .handleRead 1 (lit "b\n")]

theorem none_dropped_takenInTime :
    ∃ t, exec (step 1) (init (fun _ => 1) 1) takenInTime = some t ∧ t.NoneDropped ∧
      t.extracted.length = 2 := by
  have hend : ∃ t ∈ exec (step 1) (init (fun _ => 1) 1) takenInTime, t.extracted.length = 2 := by
    decide +kernel
  obtain ⟨t, ht, hlength⟩ := hend
  have hroom : ∀ p ∈ trace (step 1) (init (fun _ => 1) 1) takenInTime, p.1.HasRoom p.2 := by
    decide +kernel
  exact ⟨t, ht, ((none_dropped_iff (run_trace ht)).mpr hroom).2, hlength⟩

/-- The second line arrives when the queue is full: it is neither queued, nor taken, nor answered. -/
theorem not_none_dropped :
    ∃ t ∈ exec (step 1) (init (fun _ => 1) 1) [.connectEstablished 1, .handleRead 1 (lit "a\n"),
        .handleRead 1 (lit "b\n")],
      ¬ t.NoneDropped ∧ t.state 1 = .kConnected ∧ ⟨1, lit "b" ++ [NUL], 1⟩ ∈ t.extracted := by
  decide +kernel

/-! ## The order of the replies -/

section Order

variable {s t : RequestSystem} {conn : ℕ}

/-- The replies of a connection are in the order of its lines, and before those of the requests that
workers have. -/
structure InOrder (s : RequestSystem) : Prop where
  replies : ∀ conn, ((s.replies conn).map QueuedReply.request).Pairwise Request.Before
  working : ∀ w r, (s.workers w).request = some r →
    ∀ reply ∈ s.replies r.conn, reply.request.Before r

/-- Replies that have been queued are for tasks that have been taken. -/
theorem Inv.request_mem_taken (h : Inv threadNum s) {reply : QueuedReply}
    (hreply : reply ∈ s.replies conn) : reply.request ∈ s.taken := by
  rcases List.mem_append.mp hreply with hsent | hwaiting
  · exact (h.sent conn reply hsent).1
  · have hmem : reply ∈ (s.loopOf conn).waiting := (List.mem_filter.mp hwaiting).1
    exact (h.loop _ reply (Loop.mem_held_of_waiting hmem)).1

theorem Inv.eq_of_number (h : Inv threadNum s) {r r' : Request} (hr : r ∈ s.taken)
    (hr' : r' ∈ s.taken) (heq : r.number = r'.number) : r = r' := by
  have hnodup : (s.taken.map Request.number).Nodup :=
    List.pairwise_map.mpr ((List.pairwise_append.mp h.pairwise_accepted).1.imp Nat.ne_of_lt)
  exact List.inj_on_of_nodup_map hnodup hr hr' heq

theorem loopOf_setLoop (loop : ℕ) (l : Loop QueuedReply) :
    (s.setLoop loop l).loopOf conn = if s.getLoop conn = loop then l else s.loopOf conn :=
  Function.update_apply s.loops loop l (s.getLoop conn)

/-- A step of a loop that leaves the order of its replies as it is. -/
theorem replies_setLoop {loop : ℕ} {l : Loop QueuedReply}
    (hl : l.waiting = (s.loops loop).waiting) :
    (s.setLoop loop l).replies conn = s.replies conn := by
  rw [replies, waiting, loopOf_setLoop]
  split_ifs with heq
  · rw [hl, ← heq]
    rfl
  · rfl

theorem replies_queueInLoop (reply : QueuedReply) :
    (s.queueInLoop reply).replies conn =
      s.replies conn ++ [reply].filter (·.request.conn = conn) := by
  rw [replies, waiting, queueInLoop, loopOf_setLoop, replies, waiting, List.append_assoc]
  split_ifs with heq
  · rw [Loop.waiting_queueInLoop, List.filter_append, loopOf, ← heq]
    rfl
  · have hne : ¬ reply.request.conn = conn := fun hconn => heq (hconn ▸ rfl)
    rw [List.filter_singleton, decide_eq_false hne, cond_false, List.append_nil]
    rfl

/-- The next reply of a loop is sent. -/
theorem replies_sendInLoop {loop : ℕ} {l : Loop QueuedReply} {reply : QueuedReply}
    (hl : (s.loops loop).next = some (reply, l)) (hloop : s.getLoop reply.request.conn = loop) :
    ((s.setLoop loop l).sendInLoop reply).replies conn = s.replies conn := by
  subst hloop
  have hwaiting : (s.loopOf reply.request.conn).waiting = reply :: l.waiting :=
    Loop.waiting_next hl
  show Function.update s.sent reply.request.conn (s.sent reply.request.conn ++ [reply]) conn ++
    ((s.setLoop (s.getLoop reply.request.conn) l).loopOf conn).waiting.filter
      (·.request.conn = conn) = _
  rw [loopOf_setLoop, replies, waiting]
  by_cases hconn : conn = reply.request.conn
  · subst hconn
    rw [Function.update_self, if_pos rfl, hwaiting, List.filter_cons_of_pos (by simp),
      List.append_assoc, List.singleton_append]
  · rw [Function.update_of_ne hconn]
    split_ifs with heq
    · -- The reply is for another connection of the loop.
      have hother : (reply :: l.waiting).filter (·.request.conn = conn) =
          l.waiting.filter (·.request.conn = conn) :=
        List.filter_cons_of_neg (by simpa using Ne.symm hconn)
      rw [loopOf, heq, ← hother, ← hwaiting]
      rfl
    · rfl

/-- A step that leaves the replies as they are, while workers only give up requests. -/
theorem InOrder.of_replies (ho : InOrder s) (hreplies : ∀ conn, t.replies conn = s.replies conn)
    (hworkers : ∀ w r, (t.workers w).request = some r → (s.workers w).request = some r) :
    InOrder t where
  replies conn := hreplies conn ▸ ho.replies conn
  working w r hr reply hreply := ho.working w r (hworkers w r hr) reply (hreplies r.conn ▸ hreply)

/-- A worker takes a task: its line is later than those of all tasks taken before. -/
theorem InOrder.take (h : Inv threadNum s) (ho : InOrder s) {pool : ThreadPool Request}
    {r : Request} {worker : ℕ} (htake : s.pool.take = some (some r, pool)) :
    InOrder ({ s with pool := pool, taken := s.taken ++ [r] }.setWorker worker (.working r)) where
  replies := ho.replies
  working := by
    intro w r' hr' reply hreply
    rcases request_setWorker hr' with ⟨-, hstage⟩ | ⟨-, hold⟩
    · obtain rfl := Option.some.inj hstage
      obtain ⟨queue, hqueue, -⟩ := ThreadPool.take_eq_some htake
      exact (List.pairwise_append.mp h.pairwise_accepted).2.2 _ (h.request_mem_taken hreply) _
        (hqueue ▸ List.mem_cons_self)
    · exact ho.working w r' hold reply hreply

/-- A worker queues its reply in turn. -/
theorem InOrder.queueInLoop (h : Inv threadNum s) (ho : InOrder s) {worker : ℕ} {reply : QueuedReply}
    (hworker : s.workers worker = .queueing reply)
    (hturn : s.InTurn threadNum (.queueInLoop worker)) :
    InOrder ((s.setWorker worker .idle).queueInLoop reply) := by
  have hrequest := request_queueing hworker
  have hreplies : ∀ conn, ((s.setWorker worker .idle).queueInLoop reply).replies conn =
      s.replies conn ++ [reply].filter (·.request.conn = conn) :=
    fun conn => replies_queueInLoop (s := s.setWorker worker .idle) reply
  constructor
  · intro conn
    rw [hreplies, List.map_append]
    refine List.pairwise_append.mpr ⟨ho.replies conn, ?_, ?_⟩
    · exact (List.pairwise_singleton _ reply.request).sublist
        (List.filter_sublist.map QueuedReply.request)
    · intro r hr r' hr'
      obtain ⟨first, hfirst, rfl⟩ := List.mem_map.mp hr
      obtain ⟨last, hlast, rfl⟩ := List.mem_map.mp hr'
      obtain ⟨hmem, hconn⟩ := List.mem_filter.mp hlast
      obtain rfl := List.mem_singleton.mp hmem
      obtain rfl := of_decide_eq_true hconn
      exact ho.working worker _ hrequest first hfirst
  · intro w r hr last hlast
    rcases request_setWorker hr with ⟨-, hstage⟩ | ⟨hne, hold⟩
    · cases hstage
    rw [hreplies] at hlast
    rcases List.mem_append.mp hlast with hlast | hlast
    · exact ho.working w r hold last hlast
    obtain ⟨hmem, hconn⟩ := List.mem_filter.mp hlast
    obtain rfl := List.mem_singleton.mp hmem
    obtain ⟨hlt, htaken⟩ := h.worker w r hold
    rw [InTurn, hworker] at hturn
    have hle := hturn w hlt r hold (of_decide_eq_true hconn).symm
    refine Nat.lt_of_le_of_ne hle fun heq => hne ?_
    -- Two workers do not have the same request.
    obtain rfl := h.eq_of_number (h.worker worker _ hrequest).2 htaken heq
    exact h.distinct w worker _ hold hrequest

theorem inOrder_step {a : Action} (h : Inv threadNum s) (ho : InOrder s)
    (hturn : s.InTurn threadNum a) (hstep : step threadNum s a = some t) : InOrder t := by
  cases a with
  | connectEstablished conn =>
    obtain ⟨-, hstep⟩ := Option.ite_none_right_eq_some.mp hstep
    exact Option.some.inj hstep ▸ ho.of_replies (fun _ => rfl) fun _ _ => id
  | handleRead conn data =>
    obtain ⟨buf, ⟨-, rfl⟩ | ⟨msg, -, rfl⟩⟩ :=
      handleRead_eq_some (Option.ite_none_right_eq_some.mp hstep).2
    · exact ho.of_replies (fun _ => rfl) fun _ _ => id
    · exact ho.of_replies (fun _ => rfl) fun _ _ => id
  | handleClose conn =>
    obtain ⟨-, hstep⟩ := Option.ite_none_right_eq_some.mp hstep
    exact Option.some.inj hstep ▸ ho.of_replies (fun _ => rfl) fun _ _ => id
  | take worker =>
    obtain ⟨-, r, pool, htake, rfl⟩ := take_eq_some hstep
    exact ho.take h htake
  | send worker ret =>
    obtain ⟨stage, hsub, rfl⟩ := send_eq_some hstep
    refine ho.of_replies (fun _ => rfl) fun w r hr => ?_
    rcases request_setWorker hr with ⟨rfl, hstage⟩ | ⟨-, hold⟩
    · exact hsub r hstage
    · exact hold
  | queueInLoop worker =>
    obtain ⟨reply, hworker, rfl⟩ := queueInLoop_eq_some hstep
    exact ho.queueInLoop h hworker hturn
  | takeFunctors loop =>
    obtain ⟨l, hl, rfl⟩ := Option.map_eq_some_iff.mp hstep
    exact ho.of_replies (fun _ => replies_setLoop (Loop.waiting_take hl)) fun _ _ => id
  | runFunctor loop =>
    obtain ⟨⟨reply, l⟩, hl, rfl⟩ := Option.map_eq_some_iff.mp hstep
    have hloop := (h.loop loop reply (Loop.mem_held_of_next hl)).2
    exact ho.of_replies (fun _ => replies_sendInLoop hl hloop) fun _ _ => id
  | dropFunctors loop =>
    obtain ⟨l, hl, rfl⟩ := Option.map_eq_some_iff.mp hstep
    exact ho.of_replies (fun _ => replies_setLoop (Loop.waiting_drop hl)) fun _ _ => id

/-- One worker queues its replies in turn. -/
theorem Inv.inTurn (h : Inv threadNum s) (hone : threadNum ≤ 1) (a : Action) :
    s.InTurn threadNum a := by
  cases a with
  | queueInLoop worker =>
    rw [InTurn]
    split
    · rename_i reply hworker
      intro w hlt r hr _
      have hrequest := request_queueing hworker
      have hw : w = worker := by
        have hlt' := (h.worker worker _ hrequest).1
        omega
      subst hw
      rw [Option.mem_def, hrequest] at hr
      exact Option.some.inj hr ▸ le_rfl
    · trivial
  | _ => trivial

instance : Std.Antisymm Request.Before := ⟨fun _ _ h h' => absurd h' (Nat.lt_asymm h)⟩

/-- The lines of the replies that have been sent, in their order, are some of the lines that the
connection has received, in theirs. -/
theorem Inv.sent_sublist (h : Inv threadNum s) (ho : InOrder s) :
    ((s.sent conn).map QueuedReply.request).Sublist (s.extracted.filter (·.conn = conn)) := by
  have hsent : ((s.sent conn).map QueuedReply.request).Pairwise Request.Before :=
    (ho.replies conn).sublist ((List.sublist_append_left _ _).map _)
  have hlines : (s.extracted.filter (·.conn = conn)).Pairwise Request.Before :=
    h.order.sublist List.filter_sublist
  have hnodup : ((s.sent conn).map QueuedReply.request).Nodup :=
    hsent.imp fun {r r'} hlt heq => absurd (heq ▸ hlt) (Nat.lt_irrefl r'.number)
  have hsub : (s.sent conn).map QueuedReply.request ⊆ s.extracted.filter (·.conn = conn) := by
    intro r hr
    obtain ⟨reply, hreply, rfl⟩ := List.mem_map.mp hr
    obtain ⟨htaken, hconn⟩ := h.sent conn reply hreply
    have hmem := h.accepted.subset (List.mem_append_left _ htaken)
    exact List.mem_filter.mpr ⟨hmem, decide_eq_true hconn⟩
  exact List.sublist_of_subperm_of_pairwise (hnodup.subperm hsub) hsent hlines

end Order

/-- **Replies.** If there is one worker, or no worker queues a reply while another worker has an
earlier request of the connection, then the replies of each connection are sent in the order in which
their lines were extracted. -/
theorem replies_in_order {getLoop : ℕ → ℕ} {queSize : ℤ} {t : RequestSystem}
    {tr : List (RequestSystem × Action)} (hrun : Run (step threadNum) (init getLoop queSize) tr t)
    (hturn : threadNum ≤ 1 ∨ ∀ p ∈ tr, p.1.InTurn threadNum p.2) (conn : ℕ) :
    ((t.sent conn).map QueuedReply.request).Sublist (t.extracted.filter (·.conn = conn)) := by
  have hinit : Inv threadNum (init getLoop queSize) := inv_init getLoop queSize
  have horder : InOrder (init getLoop queSize) := ⟨fun _ => .nil, nofun⟩
  have hinv := hrun.invariant (fun _ _ _ h hst => inv_step h hst) hinit
  have hguard : ∀ p ∈ tr, p.1.InTurn threadNum p.2 := by
    intro p hp
    rcases hturn with hone | hturn
    · exact (hinv.1 p hp).inTurn hone p.2
    · exact hturn p hp
  have hboth := (hrun.guarded (P := fun s => Inv threadNum s ∧ InOrder s)
    (fun _ _ _ h hG hst => ⟨inv_step h.1 hst, inOrder_step h.1 h.2 hG hst⟩)
    ⟨hinit, horder⟩ hguard).2
  exact hboth.1.sent_sublist hboth.2

instance (s : RequestSystem) (a : Action) : Decidable (s.InTurn threadNum a) := by
  unfold InTurn
  split
  · split <;> infer_instance
  · infer_instance

/-- Two lines of a connection are taken by two workers, and `first` is the one that answers first. -/
def twoWorkers (first second : ℕ) : List Action :=
  [.connectEstablished 1, .handleRead 1 (lit "a\n"), .handleRead 1 (lit "b\n"), .take 0, .take 1,
    .send first (lit "x"), .queueInLoop first, .send second (lit "y"), .queueInLoop second,
    .takeFunctors 1, .runFunctor 1, .runFunctor 1]

theorem replies_in_order_twoWorkers :
    ∃ t, exec (step 2) (init (fun _ => 1) 5) (twoWorkers 0 1) = some t ∧ (t.sent 1).length = 2 ∧
      ((t.sent 1).map QueuedReply.request).Sublist (t.extracted.filter (·.conn = 1)) := by
  have hend : ∃ t ∈ exec (step 2) (init (fun _ => 1) 5) (twoWorkers 0 1), (t.sent 1).length = 2 := by
    decide +kernel
  obtain ⟨t, ht, hlength⟩ := hend
  have hturn : ∀ p ∈ trace (step 2) (init (fun _ => 1) 5) (twoWorkers 0 1), p.1.InTurn 2 p.2 := by
    decide +kernel
  exact ⟨t, ht, hlength, replies_in_order (run_trace ht) (Or.inr hturn) 1⟩

/-- The worker with the second line answers first. -/
theorem not_replies_in_order :
    ∃ t ∈ exec (step 2) (init (fun _ => 1) 5) (twoWorkers 1 0), t.state 1 = .kConnected ∧
      (t.extracted.filter (·.conn = 1)).map Request.msg =
        [lit "a" ++ [NUL], lit "b" ++ [NUL]] ∧
      (t.sent 1).map (·.request.msg) = [lit "b" ++ [NUL], lit "a" ++ [NUL]] ∧
      ¬ ((t.sent 1).map QueuedReply.request).Sublist (t.extracted.filter (·.conn = 1)) := by
  decide +kernel

end RequestSystem

end SearchServer

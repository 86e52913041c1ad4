import SearchServer.Lib.Text
import SearchServer.Net.EventLoop
import SearchServer.Net.TcpConnection

/-!
# The connections of the server

`TcpServer` (`net/TcpServer.cc`) accepts connections in the base loop, gives each a name and an io
loop, and keeps it in a map. A connection that is closed goes back to the base loop, which erases it
from the map, and then to its io loop, which destroys it. `runInLoop` calls a functor at once when it
is called in the thread of the loop; that happens when there are no io loops, and the base loop has
the connections too.

The loops run in any order. A loop polls, handles the channels that were reported, and runs its
functors. Functors that do not concern the server are queued by any thread at any time, and so is
`forceCloseInLoop`. The close callback of a connection runs at most once, so a close happens only in
the state `kConnected` (`kDisconnecting` counts as that here). The assertions are left out, so that
nothing rests on them.

`ConnView` is what there is of one connection, and `Life` are the stages of its life. A step that
`Concerns` a connection leaves all others as they are; the lemmas at the end say which stage the
connection `Reaches` when the server establishes, closes, erases or destroys it.
-/

namespace SearchServer

/-- A functor of a loop. -/
inductive ServerFunctor where
  | connectEstablished (conn : ℕ)
  | removeConnectionInLoop (conn : ℕ)
  | connectDestroyed (conn : ℕ)
  | forceCloseInLoop (conn : ℕ)
  | other
deriving DecidableEq

/-- The connection that the functor establishes, erases or destroys. -/
def ServerFunctor.subject : ServerFunctor → Option ℕ
  | .connectEstablished conn => some conn
  | .removeConnectionInLoop conn => some conn
  | .connectDestroyed conn => some conn
  | .forceCloseInLoop _ => none
  | .other => none

/-- A channel that poll reports: the one of the acceptor, of a connection, or another one. -/
inductive PolledChannel where
  | acceptor
  | conn (conn : ℕ)
  | other
deriving DecidableEq

/-- Where a loop is. -/
inductive IterationPhase where
  | polling
  /-- These channels are still to be handled. -/
  | handling (active : List PolledChannel)
  /-- It is in `doPendingFunctors`. -/
  | running
deriving DecidableEq

/-- The channels that were reported and are still to be handled. -/
def IterationPhase.reported : IterationPhase → List PolledChannel
  | .handling active => active
  | _ => []

structure ServerLoop extends Loop ServerFunctor where
  phase : IterationPhase := .polling

/-- What happens to a connection. -/
inductive ServerEvent where
  /-- `_connections[connName] = conn`, and the entry that was there. -/
  | newConnection (conn : ℕ) (overwritten : Option ℕ)
  | connectEstablished (conn loop : ℕ)
  /-- `erase`, with its result. -/
  | removeConnectionInLoop (conn n : ℕ)
  /-- The channel was reported to its loop, and is still to be handled. -/
  | connectDestroyed (conn loop : ℕ) (reported : Bool)
deriving DecidableEq

def ServerEvent.conn : ServerEvent → ℕ
  | .newConnection conn _ => conn
  | .connectEstablished conn _ => conn
  | .removeConnectionInLoop conn _ => conn
  | .connectDestroyed conn _ _ => conn

/-- The server with its loops and connections. Loop number 0 is the base loop, and the io loops are
the numbers 1 to `numThreads`. A connection is the number of those accepted before it. -/
structure TcpServer where
  name : Bytes
  numThreads : ℕ
  nextConnId : ℤ
  /-- `_next` of the thread pool. -/
  next : ℕ
  connections : Std.TreeMap Bytes ℕ
  loops : ℕ → ServerLoop
  accepted : ℕ
  connName : ℕ → Bytes
  getLoop : ℕ → ℕ
  state : ℕ → StateE
  /-- The channel of the connection is in the poller of its loop. -/
  registered : ℕ → Bool
  log : List ServerEvent

namespace TcpServer

inductive Action where
  | poll (loop : ℕ) (active : List PolledChannel)
  /-- `handleEvent` of the next channel. It accepts a connection or closes one. -/
  | handleEvent (loop : ℕ) (effective : Bool)
  /-- A thread calls `forceClose`. -/
  | forceClose (conn : ℕ)
  /-- A thread queues another functor. -/
  | queueOther (loop : ℕ)
  | takeFunctors (loop : ℕ)
  | runFunctor (loop : ℕ)
  | dropFunctors (loop : ℕ)

def init (name : Bytes) (numThreads : ℕ) : TcpServer where
  name := name
  numThreads := numThreads
  nextConnId := 1
  next := 0
  connections := ∅
  loops := fun _ => {}
  accepted := 0
  connName := fun _ => []
  getLoop := fun _ => 0
  state := fun _ => .kConnecting
  registered := fun _ => false
  log := []

def setLoop (s : TcpServer) (loop : ℕ) (l : ServerLoop) : TcpServer :=
  { s with loops := Function.update s.loops loop l }

def setState (s : TcpServer) (conn : ℕ) (state : StateE) : TcpServer :=
  { s with state := Function.update s.state conn state }

def setRegistered (s : TcpServer) (conn : ℕ) (registered : Bool) : TcpServer :=
  { s with registered := Function.update s.registered conn registered }

def record (s : TcpServer) (event : ServerEvent) : TcpServer := { s with log := s.log ++ [event] }

def queueInLoop (s : TcpServer) (loop : ℕ) (f : ServerFunctor) : TcpServer :=
  s.setLoop loop { s.loops loop with toLoop := (s.loops loop).toLoop.queueInLoop f }

/-- `runInLoop`, called in the thread of a loop: `call` is what the functor does. -/
def runInLoop (s : TcpServer) (thread loop : ℕ) (f : ServerFunctor)
    (call : TcpServer → TcpServer) : TcpServer :=
  if thread = loop then call s else s.queueInLoop loop f

/-- `connectEstablished`, which adds the channel to the poller. -/
def connectEstablished (s : TcpServer) (loop conn : ℕ) : TcpServer :=
  ((s.setState conn .kConnected).setRegistered conn true).record (.connectEstablished conn loop)

/-- `connectDestroyed`, which removes the channel from the poller. -/
def connectDestroyed (s : TcpServer) (loop conn : ℕ) : TcpServer :=
  let reported := .conn conn ∈ (s.loops (s.getLoop conn)).phase.reported
  let s := if s.state conn = .kConnected then s.setState conn .kDisconnected else s
  (s.setRegistered conn false).record (.connectDestroyed conn loop reported)

def removeConnectionInLoop (s : TcpServer) (conn : ℕ) : TcpServer :=
  let n := if s.connName conn ∈ s.connections then 1 else 0
  ({ s with connections := s.connections.erase (s.connName conn) }.record
    (.removeConnectionInLoop conn n)).queueInLoop (s.getLoop conn) (.connectDestroyed conn)

/-- The close callback of the connections. -/
def removeConnection (s : TcpServer) (thread conn : ℕ) : TcpServer :=
  s.runInLoop thread 0 (.removeConnectionInLoop conn) (removeConnectionInLoop · conn)

/-- `TcpConnection::handleClose`. -/
def handleClose (s : TcpServer) (thread conn : ℕ) : TcpServer :=
  (s.setState conn .kDisconnected).removeConnection thread conn

/-- `EventLoopThreadPool::getNextLoop`, and `_next` after it. -/
def getNextLoop (s : TcpServer) : ℕ × ℕ :=
  if s.numThreads = 0 then (0, s.next)
  else (s.next + 1, if s.numThreads ≤ s.next + 1 then 0 else s.next + 1)

/-- The name of a connection with this number. -/
def nameOf (name : Bytes) (id : ℤ) : Bytes := name ++ (lit "#" ++ decimal id)

/-- `newConnection` up to `runInLoop`. -/
def addConnection (s : TcpServer) : TcpServer :=
  let conn := s.accepted
  let connName := nameOf s.name s.nextConnId
  { s with
    nextConnId := wrapInt (s.nextConnId + 1)
    next := s.getNextLoop.2
    connections := s.connections.insert connName conn
    accepted := conn + 1
    connName := Function.update s.connName conn connName
    getLoop := Function.update s.getLoop conn s.getNextLoop.1
    state := Function.update s.state conn .kConnecting
    log := s.log ++ [.newConnection conn s.connections[connName]?] }

def newConnection (s : TcpServer) : TcpServer :=
  s.addConnection.runInLoop 0 s.getNextLoop.1 (.connectEstablished s.accepted)
    (connectEstablished · s.getNextLoop.1 s.accepted)

def run (s : TcpServer) (loop : ℕ) : ServerFunctor → TcpServer
  | .connectEstablished conn => s.connectEstablished loop conn
  | .removeConnectionInLoop conn => s.removeConnectionInLoop conn
  | .connectDestroyed conn => s.connectDestroyed loop conn
  | .forceCloseInLoop conn => if s.state conn = .kConnected then s.handleClose loop conn else s
  | .other => s

/-- Poll can report the channel to this loop. -/
def Reportable (s : TcpServer) (loop : ℕ) : PolledChannel → Prop
  | .acceptor => loop = 0
  | .conn conn => s.getLoop conn = loop ∧ s.registered conn = true
  | .other => True

instance (s : TcpServer) (loop : ℕ) (channel : PolledChannel) :
    Decidable (s.Reportable loop channel) := by
  unfold Reportable
  split <;> infer_instance

/-- What the handler of a channel does. -/
def handle (s : TcpServer) (loop : ℕ) : PolledChannel → Option TcpServer
  | .acceptor => some s.newConnection
  | .conn conn => if s.state conn = .kConnected then some (s.handleClose loop conn) else none
  | .other => none

def step (s : TcpServer) : Action → Option TcpServer
  | .poll loop active =>
    if (s.loops loop).phase = .polling ∧ ∀ channel ∈ active, s.Reportable loop channel then
      some (s.setLoop loop { s.loops loop with phase := .handling active })
    else none
  | .handleEvent loop effective =>
    match (s.loops loop).phase with
    | .handling (channel :: active) =>
      let s := s.setLoop loop { s.loops loop with phase := .handling active }
      if effective then s.handle loop channel else some s
    | _ => none
  | .forceClose conn =>
    if conn < s.accepted then some (s.queueInLoop (s.getLoop conn) (.forceCloseInLoop conn))
    else none
  | .queueOther loop => some (s.queueInLoop loop .other)
  | .takeFunctors loop =>
    if (s.loops loop).phase = .handling [] then
      (s.loops loop).toLoop.take.map fun l => s.setLoop loop { toLoop := l, phase := .running }
    else none
  | .runFunctor loop =>
    if (s.loops loop).phase = .running then
      (s.loops loop).toLoop.next.map fun (f, l) =>
        (s.setLoop loop { s.loops loop with toLoop := l }).run loop f
    else none
  | .dropFunctors loop =>
    if (s.loops loop).phase = .running then
      (s.loops loop).toLoop.drop.map fun l => s.setLoop loop { toLoop := l, phase := .polling }
    else none

/-- The life of a connection in an io loop. -/
def life (conn loop : ℕ) : List ServerEvent :=
  [.newConnection conn none, .connectEstablished conn loop, .removeConnectionInLoop conn 1,
    .connectDestroyed conn loop false]

/-- What there is of a connection: its state, whether its channel is in a poller, the entry of the map
under its name, the functors about it that wait in each loop, and what has happened to it. -/
structure ConnView where
  state : StateE
  registered : Bool
  entry : Option ℕ
  waiting : ℕ → List ServerFunctor
  events : List ServerEvent

def view (s : TcpServer) (conn : ℕ) : ConnView where
  state := s.state conn
  registered := s.registered conn
  entry := s.connections[s.connName conn]?
  waiting := fun loop => (s.loops loop).waiting.filter (·.subject = some conn)
  events := s.log.filter (·.conn = conn)

/-- Nothing waits. -/
def ConnView.quiet (v : ConnView) : ConnView := { v with waiting := fun _ => [] }

/-- The stages in the life of a connection. -/
inductive Life where
  | unborn
  /-- `connectEstablished` waits. -/
  | connecting
  | connected
  /-- `removeConnectionInLoop` waits. -/
  | removing
  /-- `connectDestroyed` waits. -/
  | removed
  | destroyed

/-- One functor waits in one loop. -/
def only (loop : ℕ) (f : ServerFunctor) : ℕ → List ServerFunctor :=
  Function.update (fun _ => []) loop [f]

/-- What there is of a connection at a stage of its life. -/
def Life.view (conn loop : ℕ) : Life → ConnView
  | .unborn => ⟨.kConnecting, false, none, fun _ => [], []⟩
  | .connecting => ⟨.kConnecting, false, some conn, only loop (.connectEstablished conn),
      (life conn loop).take 1⟩
  | .connected => ⟨.kConnected, true, some conn, fun _ => [], (life conn loop).take 2⟩
  | .removing => ⟨.kDisconnected, true, some conn, only 0 (.removeConnectionInLoop conn),
      (life conn loop).take 2⟩
  | .removed => ⟨.kDisconnected, true, none, only loop (.connectDestroyed conn),
      (life conn loop).take 3⟩
  | .destroyed => ⟨.kDisconnected, false, none, fun _ => [], (life conn loop).take 4⟩

/-! ## Names -/

theorem nameOf_ne_nil (name : Bytes) (id : ℤ) : nameOf name id ≠ [] := by
  intro h
  have hlit : lit "#" ++ decimal id = [] := (List.append_eq_nil_iff.mp h).2
  cases hlit

theorem nameOf_inj {name : Bytes} {m n : ℕ} (h : nameOf name m = nameOf name n) : m = n := by
  have hdecimal : decimal (m : ℤ) = decimal (n : ℤ) :=
    List.append_cancel_left (List.append_cancel_left h)
  have hdigits : digits m = digits n := by
    simpa [decimal, Int.not_lt.mpr (Int.natCast_nonneg _)] using hdecimal
  rw [← digitsValue_digits m, hdigits, digitsValue_digits]

/-- The names are those of different numbers, and the map has connections under their own names. -/
structure Named (s : TcpServer) : Prop where
  nextConnId : s.nextConnId = wrapInt (s.accepted + 1 : ℕ)
  connName : ∀ conn, s.connName conn =
    if conn < s.accepted then nameOf s.name (conn + 1 : ℕ) else []
  entry : ∀ name conn, s.connections[name]? = some conn →
    conn < s.accepted ∧ s.connName conn = name

theorem named_init (name : Bytes) (numThreads : ℕ) : Named (init name numThreads) where
  nextConnId := (wrapInt_natCast (by decide)).symm
  connName := fun _ => rfl
  entry := fun name conn h => by simp [init] at h

section Step

variable {s t u : TcpServer} {conn : ℕ}

theorem Named.connName_ne (h : s.Named) (hconn : conn < s.accepted) {other : ℕ}
    (hne : other ≠ conn) : s.connName other ≠ s.connName conn := by
  rw [h.connName, h.connName, if_pos hconn]
  split_ifs
  · intro heq
    have hsucc := nameOf_inj heq
    omega
  · exact (nameOf_ne_nil _ _).symm

/-- The name of the next connection is new. -/
theorem Named.connName_ne_next (h : s.Named) (hfew : s.accepted + 1 < 2 ^ 31) (other : ℕ) :
    s.connName other ≠ nameOf s.name s.nextConnId := by
  rw [h.connName, h.nextConnId, wrapInt_natCast hfew]
  split_ifs with hlt
  · intro heq
    have hsucc := nameOf_inj heq
    omega
  · exact (nameOf_ne_nil _ _).symm

theorem Named.next_not_mem (h : s.Named) (hfew : s.accepted + 1 < 2 ^ 31) :
    s.connections[nameOf s.name s.nextConnId]? = none := by
  by_contra hne
  obtain ⟨conn, hconn⟩ := Option.ne_none_iff_exists'.mp hne
  exact h.connName_ne_next hfew conn (h.entry _ conn hconn).2

/-! ## What a step leaves alone -/

/-- The step concerns only this connection, and adds nothing to the map. -/
structure Concerns (conn : ℕ) (s t : TcpServer) : Prop where
  accepted : t.accepted = s.accepted
  name : t.name = s.name
  nextConnId : t.nextConnId = s.nextConnId
  connName : t.connName = s.connName
  getLoop : t.getLoop = s.getLoop
  entry : ∀ (key : Bytes) (other : ℕ),
    t.connections[key]? = some other → s.connections[key]? = some other
  view : ∀ other, other ≠ conn → t.view other = s.view other

theorem Concerns.trans (h : Concerns conn s t) (h' : Concerns conn t u) : Concerns conn s u where
  accepted := h'.accepted.trans h.accepted
  name := h'.name.trans h.name
  nextConnId := h'.nextConnId.trans h.nextConnId
  connName := h'.connName.trans h.connName
  getLoop := h'.getLoop.trans h.getLoop
  entry := fun name other hentry => h.entry name other (h'.entry name other hentry)
  view := fun other hne => (h'.view other hne).trans (h.view other hne)

theorem Concerns.named (hc : Concerns conn s t) (h : s.Named) : t.Named where
  nextConnId := by rw [hc.nextConnId, hc.accepted, h.nextConnId]
  connName := by
    intro other
    rw [hc.connName, hc.accepted, hc.name, h.connName]
  entry := by
    intro name other hentry
    rw [hc.accepted, hc.connName]
    exact h.entry name other (hc.entry name other hentry)

theorem concerns_setState (state : StateE) : Concerns conn s (s.setState conn state) where
  accepted := rfl
  name := rfl
  nextConnId := rfl
  connName := rfl
  getLoop := rfl
  entry := fun _ _ => id
  view := by
    intro other hne
    simp only [TcpServer.view, setState, Function.update_of_ne hne]

theorem concerns_setRegistered (registered : Bool) :
    Concerns conn s (s.setRegistered conn registered) where
  accepted := rfl
  name := rfl
  nextConnId := rfl
  connName := rfl
  getLoop := rfl
  entry := fun _ _ => id
  view := by
    intro other hne
    simp only [TcpServer.view, setRegistered, Function.update_of_ne hne]

theorem concerns_record {event : ServerEvent} (hevent : event.conn = conn) :
    Concerns conn s (s.record event) where
  accepted := rfl
  name := rfl
  nextConnId := rfl
  connName := rfl
  getLoop := rfl
  entry := fun _ _ => id
  view := by
    intro other hne
    have hother : [event].filter (·.conn = other) = [] := by
      simpa [hevent] using hne.symm
    simp only [TcpServer.view, record, List.filter_append, hother, List.append_nil]

/-- What a connection sees of a change of a loop. -/
theorem view_setLoop (loop : ℕ) (l : ServerLoop) (other : ℕ) :
    (s.setLoop loop l).view other = { s.view other with
      waiting := Function.update (s.view other).waiting loop
        (l.waiting.filter (·.subject = some other)) } := by
  have hwaiting : ((s.setLoop loop l).view other).waiting =
      Function.update (s.view other).waiting loop (l.waiting.filter (·.subject = some other)) := by
    funext loop'
    by_cases heq : loop' = loop
    · subst heq
      simp only [TcpServer.view, setLoop, Function.update_self]
    · simp only [TcpServer.view, setLoop, Function.update_of_ne heq]
  rw [← hwaiting]
  rfl

theorem view_setLoop_same {loop : ℕ} {l : ServerLoop} {other : ℕ}
    (hl : l.waiting.filter (·.subject = some other) =
      (s.loops loop).waiting.filter (·.subject = some other)) :
    (s.setLoop loop l).view other = s.view other := by
  rw [view_setLoop, hl]
  show { s.view other with
    waiting := Function.update (s.view other).waiting loop ((s.view other).waiting loop) } = _
  rw [Function.update_eq_self]

theorem concerns_setLoop {loop : ℕ} {l : ServerLoop}
    (hl : ∀ other, other ≠ conn → l.waiting.filter (·.subject = some other) =
      (s.loops loop).waiting.filter (·.subject = some other)) :
    Concerns conn s (s.setLoop loop l) where
  accepted := rfl
  name := rfl
  nextConnId := rfl
  connName := rfl
  getLoop := rfl
  entry := fun _ _ => id
  view := fun other hne => view_setLoop_same (hl other hne)

/-- Queueing a functor is seen by the connection that it is about. -/
theorem filter_queueInLoop (l : Loop ServerFunctor) (f : ServerFunctor) (other : ℕ) :
    (l.queueInLoop f).waiting.filter (·.subject = some other) =
      l.waiting.filter (·.subject = some other) ++
        if f.subject = some other then [f] else [] := by
  rw [Loop.waiting_queueInLoop, List.filter_append, List.filter_singleton]
  by_cases h : f.subject = some other
  · rw [if_pos h, decide_eq_true h]
    rfl
  · rw [if_neg h, decide_eq_false h]
    rfl

/-- The next functor is seen by the connection that it is about. -/
theorem filter_next {l l' : Loop ServerFunctor} {f : ServerFunctor} {other : ℕ}
    (hl : l.next = some (f, l')) (hf : f.subject ≠ some other) :
    l'.waiting.filter (·.subject = some other) = l.waiting.filter (·.subject = some other) := by
  rw [Loop.waiting_next hl]
  exact (List.filter_cons_of_neg (by simpa using hf)).symm

theorem concerns_queueInLoop {loop : ℕ} {f : ServerFunctor} (hf : f.subject = some conn) :
    Concerns conn s (s.queueInLoop loop f) := by
  apply concerns_setLoop
  intro other hne
  have hother : f.subject ≠ some other := fun heq => hne (Option.some.inj (heq.symm.trans hf))
  show ((s.loops loop).toLoop.queueInLoop f).waiting.filter _ = _
  rw [filter_queueInLoop, if_neg hother, List.append_nil]

theorem concerns_erase (hname : ∀ other, other ≠ conn → s.connName other ≠ s.connName conn) :
    Concerns conn s { s with connections := s.connections.erase (s.connName conn) } where
  accepted := rfl
  name := rfl
  nextConnId := rfl
  connName := rfl
  getLoop := rfl
  entry := by
    intro name other hentry
    simp only [Std.TreeMap.getElem?_erase] at hentry
    split_ifs at hentry
    exact hentry
  view := by
    intro other hne
    have hother : compare (s.connName conn) (s.connName other) ≠ .eq :=
      fun heq => hname other hne (Std.LawfulEqCmp.eq_of_compare heq).symm
    simp only [TcpServer.view, Std.TreeMap.getElem?_erase, hother, if_false]

/-! ## What a step does to its connection -/

theorem view_setState (state : StateE) :
    (s.setState conn state).view conn = { s.view conn with state := state } := by
  simp only [TcpServer.view, setState, Function.update_self]

theorem view_setRegistered (registered : Bool) :
    (s.setRegistered conn registered).view conn =
      { s.view conn with registered := registered } := by
  simp only [TcpServer.view, setRegistered, Function.update_self]

theorem view_record {event : ServerEvent} (hevent : event.conn = conn) :
    (s.record event).view conn =
      { s.view conn with events := (s.view conn).events ++ [event] } := by
  have hself : [event].filter (·.conn = conn) = [event] := by simp [hevent]
  simp only [TcpServer.view, record, List.filter_append, hself]

theorem view_erase :
    { s with connections := s.connections.erase (s.connName conn) }.view conn =
      { s.view conn with entry := none } := by
  simp only [TcpServer.view, Std.TreeMap.getElem?_erase_self]

theorem view_queueInLoop {loop : ℕ} {f : ServerFunctor} (hf : f.subject = some conn) :
    (s.queueInLoop loop f).view conn = { s.view conn with
      waiting := Function.update (s.view conn).waiting loop ((s.view conn).waiting loop ++ [f]) } := by
  rw [queueInLoop, view_setLoop, filter_queueInLoop, if_pos hf]
  rfl

/-- The only functor about a connection that waits. -/
theorem view_queueInLoop_quiet {v : ConnView} {loop : ℕ} {f : ServerFunctor}
    (h : s.view conn = v.quiet) (hf : f.subject = some conn) :
    (s.queueInLoop loop f).view conn = { v with waiting := only loop f } := by
  rw [view_queueInLoop hf, h]
  rfl

/-- The step concerns this connection, which reaches the stage. -/
def Reaches (conn : ℕ) (s t : TcpServer) (l : Life) : Prop :=
  Concerns conn s t ∧ t.view conn = l.view conn (s.getLoop conn)

theorem connectEstablished_reaches
    (h : s.view conn = (Life.connecting.view conn (s.getLoop conn)).quiet) :
    Reaches conn s (s.connectEstablished (s.getLoop conn) conn) .connected := by
  apply And.intro
  · exact ((concerns_setState _).trans (concerns_setRegistered true)).trans (concerns_record rfl)
  · rw [connectEstablished, view_record, view_setRegistered, view_setState, h]
    · rfl
    · rfl

theorem connectDestroyed_reaches
    (h : s.view conn = (Life.removed.view conn (s.getLoop conn)).quiet)
    (hreported : .conn conn ∉ (s.loops (s.getLoop conn)).phase.reported) :
    Reaches conn s (s.connectDestroyed (s.getLoop conn) conn) .destroyed := by
  have hstate : s.state conn = .kDisconnected := congrArg ConnView.state h
  have hdestroyed : s.connectDestroyed (s.getLoop conn) conn =
      (s.setRegistered conn false).record (.connectDestroyed conn (s.getLoop conn) false) := by
    simp only [connectDestroyed, hstate, reduceCtorEq, if_false, decide_eq_false hreported]
  rw [hdestroyed]
  apply And.intro
  · exact (concerns_setRegistered false).trans (concerns_record rfl)
  · rw [view_record, view_setRegistered, h]
    · rfl
    · rfl

theorem removeConnectionInLoop_reaches
    (hname : ∀ other, other ≠ conn → s.connName other ≠ s.connName conn)
    (h : s.view conn = (Life.removing.view conn (s.getLoop conn)).quiet) :
    Reaches conn s (s.removeConnectionInLoop conn) .removed := by
  have hentry : s.connections[s.connName conn]? = some conn := congrArg ConnView.entry h
  have hmem : s.connName conn ∈ s.connections := by
    rw [← Std.TreeMap.isSome_getElem?_iff_mem, hentry]
    rfl
  rw [removeConnectionInLoop, if_pos hmem]
  apply And.intro
  · exact ((concerns_erase hname).trans (concerns_record rfl)).trans (concerns_queueInLoop rfl)
  · refine view_queueInLoop_quiet (v := Life.removed.view conn (s.getLoop conn)) ?_ rfl
    rw [view_record, view_erase, h]
    · rfl
    · rfl

/-- A close reaches the next stage, or the one after it if it happens in the base loop. -/
theorem handleClose_reaches (thread : ℕ)
    (hname : ∀ other, other ≠ conn → s.connName other ≠ s.connName conn)
    (h : s.view conn = Life.connected.view conn (s.getLoop conn)) :
    Reaches conn s (s.handleClose thread conn) .removing ∨
      Reaches conn s (s.handleClose thread conn) .removed := by
  have hstate : Concerns conn s (s.setState conn .kDisconnected) := concerns_setState _
  have hquiet : (s.setState conn .kDisconnected).view conn =
      (Life.removing.view conn (s.getLoop conn)).quiet := by
    rw [view_setState, h]
    rfl
  unfold handleClose removeConnection runInLoop
  split_ifs
  · obtain ⟨hconcerns, hview⟩ :=
      removeConnectionInLoop_reaches (s := s.setState conn .kDisconnected) hname hquiet
    exact Or.inr ⟨hstate.trans hconcerns, hview⟩
  · exact Or.inl ⟨hstate.trans (concerns_queueInLoop rfl), view_queueInLoop_quiet hquiet rfl⟩

end Step

end TcpServer

end SearchServer

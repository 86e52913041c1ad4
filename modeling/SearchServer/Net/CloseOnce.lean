import SearchServer.Net.Ownership

/-!
# Closing a connection once

A connection can be closed by an event that hangs up, by a read that finds the end of the stream, and
by `forceClose`. `handleClose` asserts that the connection is still open, runs the connection
callback and the close callback.

The system is one connection that has been established, with any number of threads that call `send`,
`shutdown` and `forceClose`, the io loop that calls them too, and the base loop that has the
connection destroyed. In a thread the test of the state, the new state and the functor are three
steps.

**Theorem (`close_once`).** `handleClose` runs at most once and its assertion does not fail, in a run
in which

* no event that hangs up without `POLLIN` is followed by a read that finds the end of the stream,
* a message that is sent after the close is written whole,
* no thread sets the state after the close.

`not_close_once_event` is an event with `POLLHUP` and `POLLPRI` that calls `handleClose` twice.
`not_close_once_thread` is a `forceClose` in a thread that closes the connection a second time.
-/

namespace SearchServer

def ReadResult.isEof : ReadResult → Bool
  | .bytes [] => true
  | _ => false

namespace TcpConnection

def isOpen (conn : TcpConnection) : Bool := conn.state = .kConnected ∨ conn.state = .kDisconnecting

/-- The event hangs up, and `handleEvent` calls the close callback of the channel. -/
def hangsUp (revents : BitVec 32) : Bool := revents &&& POLLHUP ≠ 0 ∧ revents &&& POLLIN = 0

/-- `handleEvent` calls the read callback of the channel. -/
def reads (revents : BitVec 32) : Bool := revents &&& (POLLIN ||| POLLPRI ||| POLLRDHUP) ≠ 0

/-- The read callback finds the end of the stream. -/
def readsEof (revents : BitVec 32) (result : ReadResult) : Bool := reads revents && result.isEof

/-- The states in which `handleEvent` calls `handleClose`, one after the other. -/
def closeCalls (conn : TcpConnection) (revents : BitVec 32) (result : ReadResult) :
    List TcpConnection :=
  (if hangsUp revents then [conn] else []) ++
    if readsEof revents result then (conn.callIf (hangsUp revents) handleClose).toList else []

/-! ## One connection -/

/-- The connection is open, or it has been closed at most once and is quiet. -/
def Once (conn : TcpConnection) : Prop :=
  conn.Open ∨ (conn.Closed ∧ conn.Quiet ∧ conn.closeCallbacks ≤ 1)

variable {conn conn' : TcpConnection}

theorem isOpen_iff : conn.isOpen = true ↔ conn.state = .kConnected ∨ conn.state = .kDisconnecting :=
  decide_eq_true_iff

theorem isOpen_of_open (h : conn.Open) : conn.isOpen = true := isOpen_iff.mpr h.state

theorem not_isOpen_of_closed (h : conn.Closed) : conn.isOpen = false := by
  rw [isOpen, h]
  rfl

theorem Once.open_of_isOpen (h : conn.Once) (hopen : conn.isOpen = true) : conn.Open := by
  refine h.resolve_right fun hc => ?_
  rw [not_isOpen_of_closed hc.1] at hopen
  cases hopen

theorem Once.of_sameChannel (hs : SameChannel conn conn') (h : conn.Once) : conn'.Once :=
  h.imp (Open.of_sameChannel hs) fun hc =>
    ⟨hc.1.of_sameChannel hs, hc.2.1.of_sameChannel hs, hs.closeCallbacks ▸ hc.2.2⟩

theorem Once.le_one (h : conn.Once) : conn.closeCallbacks ≤ 1 := by
  rcases h with ho | hc
  · rw [ho.closeCallbacks]
    exact Nat.zero_le 1
  · exact hc.2.2

/-- **Closing** an open connection. -/
theorem handleClose_once (ho : conn.Open) (h : conn.handleClose = some conn') :
    conn'.Once ∧ conn'.closeCallbacks = conn.closeCallbacks + 1 := by
  obtain ⟨hclosed, hquiet⟩ := handleClose_open ho h
  obtain ⟨conn₁, hup, rfl⟩ := Option.map_eq_some_iff.mp (Option.ite_none_right_eq_some.mp h).2
  have hcount : conn₁.closeCallbacks + 1 = conn.closeCallbacks + 1 :=
    congrArg (· + 1) (update_eq_some hup).2.2
  refine ⟨Or.inr ⟨hclosed, hquiet, ?_⟩, hcount⟩
  show conn₁.closeCallbacks + 1 ≤ 1
  rw [hcount, ho.closeCallbacks]

theorem handleRead_of_not_eof {messageCallback : Buffer → Option Buffer} {result : ReadResult}
    (heof : result.isEof = false) (h : conn.handleRead messageCallback result = some conn') :
    SameChannel conn conn' := by
  match result with
  | .bytes [] => cases heof
  | .bytes (b :: data) =>
    obtain ⟨_, -, h⟩ := Option.bind_eq_some_iff.mp h
    obtain ⟨_, -, h⟩ := Option.bind_eq_some_iff.mp h
    exact Option.some.inj h ▸ ⟨rfl, rfl, rfl, rfl⟩
  | .error => exact Option.some.inj h ▸ SameChannel.refl conn

theorem handleWrite_once (h : conn.Once) {result : WriteResult}
    (hwrite : conn.handleWrite result = some conn') :
    conn'.Once ∧ conn'.closeCallbacks = conn.closeCallbacks := by
  rcases h with ho | hc
  · have ho' := handleWrite_open ho hwrite
    exact ⟨Or.inl ho', ho'.closeCallbacks.trans ho.closeCallbacks.symm⟩
  · obtain rfl := handleWrite_of_events hc.2.1.events hwrite
    exact ⟨Or.inr hc, rfl⟩

section HandleEvent

variable {messageCallback : Buffer → Option Buffer} {revents : BitVec 32}
  {readResult : ReadResult} {writeResult : WriteResult}

theorem callRead_sameChannel (heof : readsEof revents readResult = false)
    (h : conn.callIf (reads revents) (handleRead messageCallback · readResult) = some conn') :
    SameChannel conn conn' := by
  rcases callIf_cases h with rfl | hread
  · exact SameChannel.refl _
  · by_cases hbits : reads revents = true
    · rw [readsEof, hbits, Bool.true_and] at heof
      exact handleRead_of_not_eof heof hread
    · rw [callIf, if_neg hbits] at h
      exact Option.some.inj h ▸ SameChannel.refl _

/-- The read callback, if it finds the end of the stream. -/
theorem callRead_handleClose (heof : readsEof revents readResult = true)
    (h : conn.callIf (reads revents) (handleRead messageCallback · readResult) = some conn') :
    conn.handleClose = some conn' := by
  obtain ⟨hbits, heof⟩ := Bool.and_eq_true_iff.mp heof
  rw [callIf, if_pos hbits] at h
  match readResult with
  | .bytes [] => exact h
  | .bytes (_ :: _) => cases heof
  | .error => cases heof

/-- **An event** closes an open connection as often as it calls `handleClose`, if it does not call it
for two reasons. -/
theorem handleEvent_once (ho : conn.Open)
    (hG : ¬ (hangsUp revents = true ∧ readsEof revents readResult = true))
    (h : conn.handleEvent messageCallback revents readResult writeResult = some conn') :
    conn'.Once ∧ conn'.closeCallbacks =
      conn.closeCallbacks + (conn.closeCalls revents readResult).length := by
  obtain ⟨conn₁, h₁, hrest⟩ := Option.bind_eq_some_iff.mp h
  obtain ⟨conn₁', herror, hrest'⟩ := Option.bind_eq_some_iff.mp hrest
  obtain ⟨conn₂, h₂, h₃⟩ := Option.bind_eq_some_iff.mp hrest'
  obtain rfl : conn₁' = conn₁ := by
    rcases callIf_cases herror with heq | hlogged
    · exact heq
    · exact (Option.some.inj hlogged).symm
  change conn.callIf (hangsUp revents) handleClose = some conn₁' at h₁
  change conn₁'.callIf (reads revents) (handleRead messageCallback · readResult) = some conn₂ at h₂
  -- After the first two callbacks, the connection has been closed as often as was called for.
  have hread : conn₂.Once ∧ conn₂.closeCallbacks =
      conn.closeCallbacks + (conn.closeCalls revents readResult).length := by
    unfold closeCalls
    by_cases hhup : hangsUp revents = true
    · have hno : readsEof revents readResult = false :=
        Bool.eq_false_iff.mpr fun heof => hG ⟨hhup, heof⟩
      have hsame := callRead_sameChannel hno h₂
      rw [callIf, if_pos hhup] at h₁
      obtain ⟨honce, hcount⟩ := handleClose_once ho h₁
      rw [if_pos hhup, hno]
      exact ⟨honce.of_sameChannel hsame, hsame.closeCallbacks.trans hcount⟩
    · rw [callIf, if_neg hhup] at h₁
      obtain rfl := Option.some.inj h₁
      rw [if_neg hhup, callIf, if_neg hhup]
      by_cases heof : readsEof revents readResult = true
      · rw [if_pos heof]
        exact handleClose_once ho (callRead_handleClose heof h₂)
      · have hsame := callRead_sameChannel (Bool.eq_false_iff.mpr heof) h₂
        rw [if_neg heof]
        exact ⟨Or.inl (ho.of_sameChannel hsame), hsame.closeCallbacks⟩
  obtain ⟨honce, hcount⟩ := hread
  rcases callIf_cases h₃ with rfl | hwrite
  · exact ⟨honce, hcount⟩
  · obtain ⟨honce', hcount'⟩ := handleWrite_once honce hwrite
    exact ⟨honce', hcount'.trans hcount⟩

end HandleEvent

/-- The assertion of `handleClose` holds in each of its calls. -/
theorem isOpen_of_mem_closeCalls {revents : BitVec 32} {result : ReadResult} (ho : conn.Open)
    (hG : ¬ (hangsUp revents = true ∧ readsEof revents result = true)) :
    (conn.closeCalls revents result).length ≤ 1 ∧
      ∀ c ∈ conn.closeCalls revents result, c.isOpen = true := by
  unfold closeCalls
  by_cases hhup : hangsUp revents = true
  · have hno : readsEof revents result = false :=
      Bool.eq_false_iff.mpr fun heof => hG ⟨hhup, heof⟩
    rw [if_pos hhup, hno]
    exact ⟨le_rfl, fun c hc => List.mem_singleton.mp hc ▸ isOpen_of_open ho⟩
  · rw [if_neg hhup]
    split_ifs
    · rw [callIf, if_neg hhup]
      exact ⟨le_rfl, fun c hc => List.mem_singleton.mp hc ▸ isOpen_of_open ho⟩
    · exact ⟨Nat.zero_le 1, fun c hc => absurd hc List.not_mem_nil⟩

end TcpConnection

/-- Where a thread is in a call. -/
inductive CallerStage where
  | idle
  /-- It has tested the state, and sets it to `kDisconnecting` next. -/
  | setting (callee : Callee)
  /-- It queues this functor next. -/
  | queueing (callee : Callee)

/-- A connection with its callers, the functors of its loop, whether the base loop has queued
`connectDestroyed`, and what `connected()` was in each call of the connection callback. -/
structure CloseSystem where
  conn : TcpConnection
  callers : ℕ → CallerStage
  loop : Loop Callee
  removed : Bool
  callbacks : List Bool

namespace CloseSystem

inductive Action where
  /-- A thread calls a function, which tests the state. -/
  | test (thread : ℕ) (call : Call)
  | set (thread : ℕ)
  | queue (thread : ℕ)
  /-- The io loop calls a function. -/
  | callInLoop (call : Call) (result : WriteResult)
  | event (revents : BitVec 32) (readResult : ReadResult) (writeResult : WriteResult)
  | takeFunctors
  | runFunctor (result : WriteResult)
  | dropFunctors
  /-- The base loop runs `removeConnectionInLoop`. -/
  | remove

def setCaller (s : CloseSystem) (thread : ℕ) (stage : CallerStage) : CloseSystem :=
  { s with callers := Function.update s.callers thread stage }

def queueInLoop (s : CloseSystem) (callee : Callee) : CloseSystem :=
  { s with loop := s.loop.queueInLoop callee }

/-- What a thread does after it has tested the state. -/
def afterTest (conn : TcpConnection) : Call → CallerStage
  | .send message => if conn.state = .kConnected then .queueing (.sendInLoop message) else .idle
  | .shutdown =>
    if conn.state = .kConnected then .setting .shutdownInLoop else .queueing .shutdownInLoop
  | .forceClose => if conn.isOpen then .setting .forceCloseInLoop else .idle

def callInLoop (s : CloseSystem) (result : WriteResult) : Call → Option CloseSystem
  | .send message =>
    if s.conn.state = .kConnected then
      (s.conn.sendInLoop message result).map fun conn => { s with conn := conn }
    else some s
  | .shutdown => some { s with conn := s.conn.shutdown.shutdownInLoop }
  | .forceClose =>
    if s.conn.isOpen then
      some ({ s with conn := s.conn.forceClose }.queueInLoop .forceCloseInLoop)
    else some s

/-- What a functor does to the connection. -/
def runCallee (conn : TcpConnection) (result : WriteResult) : Callee → Option TcpConnection
  | .connectEstablished => conn.connectEstablished
  | .sendInLoop message => conn.sendInLoop message result
  | .shutdownInLoop => some conn.shutdownInLoop
  | .forceCloseInLoop => conn.forceCloseInLoop
  | .connectDestroyed => conn.connectDestroyed

/-- The channel is registered, and the event has bits that it waits for, or errors. -/
def Deliverable (s : CloseSystem) (revents : BitVec 32) : Prop :=
  s.loop.functors = [] ∧ s.conn.channel.fd ∈ s.conn.poller.registered ∧
    revents &&& ~~~(s.conn.channel.events ||| POLLERR ||| POLLHUP) = 0

instance (s : CloseSystem) (revents : BitVec 32) : Decidable (s.Deliverable revents) :=
  inferInstanceAs (Decidable (_ ∧ _ ∧ _))

/-- One step, without the record of the callbacks. -/
def act (messageCallback : Buffer → Option Buffer) (s : CloseSystem) : Action → Option CloseSystem
  | .test thread call =>
    match s.callers thread with
    | .idle => some (s.setCaller thread (afterTest s.conn call))
    | _ => none
  | .set thread =>
    match s.callers thread with
    | .setting callee => some
        ({ s with conn := s.conn.setState .kDisconnecting }.setCaller thread (.queueing callee))
    | _ => none
  | .queue thread =>
    match s.callers thread with
    | .queueing callee => some ((s.setCaller thread .idle).queueInLoop callee)
    | _ => none
  | .callInLoop call result => s.callInLoop result call
  | .event revents readResult writeResult =>
    if s.Deliverable revents then
      (s.conn.handleEvent messageCallback revents readResult writeResult).map fun conn =>
        { s with conn := conn }
    else none
  | .takeFunctors => s.loop.take.map fun l => { s with loop := l }
  | .runFunctor result => s.loop.next.bind fun (callee, l) =>
      (runCallee s.conn result callee).map fun conn => { s with conn := conn, loop := l }
  | .dropFunctors => s.loop.drop.map fun l => { s with loop := l }
  | .remove =>
    if 0 < s.conn.closeCallbacks ∧ s.removed = false then
      some ({ s with removed := true }.queueInLoop .connectDestroyed)
    else none

/-- The states in which the step calls `handleClose`. -/
def closeCalls (s : CloseSystem) : Action → List TcpConnection
  | .event revents readResult _ => s.conn.closeCalls revents readResult
  | .runFunctor _ =>
    match s.loop.next with
    | some (.forceCloseInLoop, _) => if s.conn.isOpen then [s.conn] else []
    | _ => []
  | _ => []

/-- What `connected()` is in the connection callbacks of the step. `handleClose` calls it after the
state has been set to `kDisconnected`, and so does `connectDestroyed`. -/
def connectionCallbacks (s : CloseSystem) (a : Action) : List Bool :=
  (s.closeCalls a).map (fun _ => false) ++
    match a with
    | .runFunctor _ =>
      match s.loop.next with
      | some (.connectEstablished, _) => [true]
      | some (.connectDestroyed, _) => if s.conn.state = .kConnected then [false] else []
      | _ => []
    | _ => []

def step (messageCallback : Buffer → Option Buffer) (s : CloseSystem) (a : Action) :
    Option CloseSystem :=
  (s.act messageCallback a).map fun t =>
    { t with callbacks := s.callbacks ++ s.connectionCallbacks a }

/-- The state after `connectEstablished`, which called the connection callback. -/
def start (conn : TcpConnection) : CloseSystem :=
  ⟨conn, fun _ => .idle, {}, false, [conn.state = .kConnected]⟩

/-- The conditions on a step. -/
def ClosesOnce (s : CloseSystem) : Action → Prop
  | .event revents readResult _ =>
    ¬ (TcpConnection.hangsUp revents = true ∧ TcpConnection.readsEof revents readResult = true)
  | .runFunctor result =>
    match s.loop.next with
    | some (.sendInLoop message, _) => s.conn.Closed →
      message = [] ∨ (s.conn.outputBuffer.readableBytes = 0 ∧ result = .wrote message.length)
    | _ => True
  | .set _ => ¬ s.conn.Closed
  | _ => True

/-! ## The invariant -/

structure Inv (s : CloseSystem) : Prop where
  once : s.conn.Once
  callbacks : s.callbacks = true :: List.replicate s.conn.closeCallbacks false
  destroyed : .connectDestroyed ∈ s.loop.held → s.conn.Closed
  callers : ∀ thread, s.callers thread ≠ .setting .connectDestroyed ∧
    s.callers thread ≠ .queueing .connectDestroyed

section Step

variable {messageCallback : Buffer → Option Buffer} {s t : CloseSystem}

/-- A step that closes the connection `n` times. -/
theorem Inv.of_conn (h : s.Inv) {n : ℕ} (honce : t.conn.Once)
    (hcount : t.conn.closeCallbacks = s.conn.closeCallbacks + n)
    (hcallbacks : t.callbacks = s.callbacks ++ List.replicate n false)
    (hclosed : s.conn.Closed → t.conn.Closed) (hheld : t.loop.held ⊆ s.loop.held)
    (hcallers : t.callers = s.callers) : t.Inv where
  once := honce
  callbacks := by
    rw [hcallbacks, h.callbacks, hcount, List.cons_append, ← List.replicate_add]
  destroyed := fun hd => hclosed (h.destroyed (hheld hd))
  callers := by
    rw [hcallers]
    exact h.callers

/-- A step that leaves the connection alone. -/
theorem Inv.of_loop (h : s.Inv) (hconn : t.conn = s.conn) (hcallbacks : t.callbacks = s.callbacks)
    (hheld : .connectDestroyed ∈ t.loop.held → .connectDestroyed ∈ s.loop.held ∨ s.conn.Closed)
    (hcallers : ∀ thread, t.callers thread ≠ .setting .connectDestroyed ∧
      t.callers thread ≠ .queueing .connectDestroyed) : t.Inv where
  once := by
    rw [hconn]
    exact h.once
  callbacks := by
    rw [hcallbacks, hconn]
    exact h.callbacks
  destroyed := by
    intro hd
    rw [hconn]
    rcases hheld hd with hd | hc
    · exact h.destroyed hd
    · exact hc
  callers := hcallers

theorem Inv.queueInLoop (h : s.Inv) {callee : Callee}
    (hcallee : callee = .connectDestroyed → s.conn.Closed) : (s.queueInLoop callee).Inv := by
  refine h.of_loop rfl rfl (fun hd => ?_) h.callers
  rcases Loop.mem_held_queueInLoop.mp hd with hd | hd
  · exact Or.inr (hcallee hd.symm)
  · exact Or.inl hd

theorem Inv.setCaller (h : s.Inv) (thread : ℕ) {stage : CallerStage}
    (hstage : stage ≠ .setting .connectDestroyed ∧ stage ≠ .queueing .connectDestroyed) :
    (s.setCaller thread stage).Inv := by
  refine h.of_loop rfl rfl Or.inl fun other => ?_
  by_cases hother : other = thread
  · simpa [CloseSystem.setCaller, hother] using hstage
  · simpa [CloseSystem.setCaller, hother] using h.callers other

/-- Setting the state of an open connection. -/
theorem Inv.setState (h : s.Inv) (hopen : ¬ s.conn.Closed) :
    Inv { s with conn := s.conn.setState .kDisconnecting } := by
  obtain ho | hc := h.once
  · have ho' : (s.conn.setState .kDisconnecting).Open :=
      ⟨Or.inr rfl, ho.index, ho.reading, ho.closeCallbacks⟩
    exact h.of_conn (n := 0) (Or.inl ho') rfl (by simp) (fun hc => absurd hc hopen) (fun _ => id) rfl
  · exact absurd hc.1 hopen

theorem Inv.of_sameChannel (h : s.Inv) {conn : TcpConnection} (hsame : s.conn.SameChannel conn) :
    Inv { s with conn := conn } :=
  h.of_conn (n := 0) (h.once.of_sameChannel hsame) hsame.closeCallbacks (by simp)
    (fun hc => hc.of_sameChannel hsame) (fun _ => id) rfl

theorem shutdownInLoop_sameChannel (conn : TcpConnection) :
    conn.SameChannel conn.shutdownInLoop := by
  unfold TcpConnection.shutdownInLoop
  split_ifs
  · exact .refl conn
  · exact ⟨rfl, rfl, rfl, rfl⟩

/-- Sending on an open connection, or the whole message on a closed one. -/
theorem sendInLoop_once {conn conn' : TcpConnection} (h : conn.Once) {message : Bytes}
    {result : WriteResult} (hwhole : conn.Closed →
      message = [] ∨ (conn.outputBuffer.readableBytes = 0 ∧ result = .wrote message.length))
    (hsend : conn.sendInLoop message result = some conn') :
    conn'.Once ∧ conn'.closeCallbacks = conn.closeCallbacks ∧ (conn.Closed → conn'.Closed) := by
  obtain ⟨hstate, hcount⟩ := TcpConnection.sendInLoop_state hsend
  refine ⟨?_, hcount, fun hc => hstate.trans hc⟩
  rcases h with ho | ⟨hc, hquiet, hle⟩
  · exact Or.inl (TcpConnection.sendInLoop_open ho hsend)
  · refine Or.inr ⟨hstate.trans hc, ?_, hcount ▸ hle⟩
    rw [TcpConnection.sendInLoop_quiet hquiet hsend, TcpConnection.nwrote_eq_length_iff hquiet]
    · exact hwhole hc
    · rcases TcpConnection.sendInLoop_cases hsend with ⟨heq, -⟩ | ⟨hlt, -⟩
      · exact heq.le
      · exact hlt.le

theorem afterTest_ne (conn : TcpConnection) (call : Call) :
    afterTest conn call ≠ .setting .connectDestroyed ∧
      afterTest conn call ≠ .queueing .connectDestroyed := by
  cases call <;> simp only [afterTest] <;> split_ifs <;> simp

theorem Inv.callInLoop (h : s.Inv) {call : Call} {result : WriteResult}
    (hcall : s.callInLoop result call = some t) : t.Inv := by
  cases call with
  | send message =>
    simp only [CloseSystem.callInLoop] at hcall
    split_ifs at hcall with hstate
    · obtain ⟨conn, hsend, rfl⟩ := Option.map_eq_some_iff.mp hcall
      have hopen : ¬ s.conn.Closed := by
        intro hc
        rw [TcpConnection.Closed, hstate] at hc
        cases hc
      obtain ⟨honce, hcount, hclosed⟩ := sendInLoop_once h.once (fun hc => absurd hc hopen) hsend
      exact h.of_conn (n := 0) honce hcount (by simp) hclosed (fun _ => id) rfl
    · cases hcall
      exact h
  | shutdown =>
    cases hcall
    unfold TcpConnection.shutdown
    split_ifs with hstate
    · have hopen : ¬ s.conn.Closed := by
        intro hc
        rw [TcpConnection.Closed, hstate] at hc
        cases hc
      exact (h.setState hopen).of_sameChannel (shutdownInLoop_sameChannel _)
    · exact h.of_sameChannel (shutdownInLoop_sameChannel _)
  | forceClose =>
    simp only [CloseSystem.callInLoop] at hcall
    split_ifs at hcall with hopen
    · cases hcall
      have hnot : ¬ s.conn.Closed := by
        intro hc
        rw [TcpConnection.not_isOpen_of_closed hc] at hopen
        cases hopen
      have hset : s.conn.forceClose = s.conn.setState .kDisconnecting :=
        if_pos (TcpConnection.isOpen_iff.mp hopen)
      rw [hset]
      exact (h.setState hnot).queueInLoop (by simp)
    · cases hcall
      exact h

theorem not_closed_of_isOpen {conn : TcpConnection} (h : conn.isOpen = true) : ¬ conn.Closed := by
  intro hc
  rw [TcpConnection.not_isOpen_of_closed hc] at h
  cases h

/-- `connectDestroyed` on a connection that has been closed. -/
theorem connectDestroyed_once {conn conn' : TcpConnection} (h : conn.Once) (hc : conn.Closed)
    (hdestroyed : conn.connectDestroyed = some conn') :
    conn'.Once ∧ conn'.closeCallbacks = conn.closeCallbacks ∧ conn'.Closed := by
  have hquiet : conn.Quiet ∧ conn.closeCallbacks ≤ 1 := by
    rcases h with ho | ⟨-, hrest⟩
    · exact absurd hc (not_closed_of_isOpen (TcpConnection.isOpen_of_open ho))
    · exact hrest
  have hcount : conn'.closeCallbacks = conn.closeCallbacks := by
    rw [TcpConnection.connectDestroyed_of_closed hc] at hdestroyed
    obtain ⟨p, -, rfl⟩ := Option.map_eq_some_iff.mp hdestroyed
    rfl
  have hc' := TcpConnection.connectDestroyed_closed hc hdestroyed
  have hquiet' := TcpConnection.connectDestroyed_quiet hc hquiet.1 hdestroyed
  exact ⟨Or.inr ⟨hc', hquiet', hcount ▸ hquiet.2⟩, hcount, hc'⟩

theorem Inv.runFunctor (h : s.Inv) {result : WriteResult} (hG : s.ClosesOnce (.runFunctor result))
    (hstep : step messageCallback s (.runFunctor result) = some t) : t.Inv := by
  obtain ⟨t', hact, rfl⟩ := Option.map_eq_some_iff.mp hstep
  obtain ⟨⟨callee, l⟩, hnext, hrun⟩ := Option.bind_eq_some_iff.mp hact
  obtain ⟨conn, hconn, rfl⟩ := Option.map_eq_some_iff.mp hrun
  have hheld : l.held ⊆ s.loop.held := by rw [Loop.held_next hnext]; exact List.Subset.refl _
  simp only [ClosesOnce, hnext] at hG
  cases callee with
  | connectEstablished =>
    have hs := TcpConnection.connectEstablished_state hconn
    rcases h.once with ho | hc
    · rcases ho.state with hs' | hs' <;> rw [hs] at hs' <;> cases hs'
    · rw [TcpConnection.Closed, hs] at hc
      cases hc.1
  | sendInLoop message =>
    obtain ⟨honce, hcount, hclosed⟩ := sendInLoop_once h.once hG hconn
    exact h.of_conn (n := 0) honce hcount (by simp [connectionCallbacks, closeCalls, hnext])
      hclosed hheld rfl
  | shutdownInLoop =>
    obtain rfl := Option.some.inj hconn
    have hsame := shutdownInLoop_sameChannel s.conn
    exact h.of_conn (n := 0) (h.once.of_sameChannel hsame) hsame.closeCallbacks
      (by simp [connectionCallbacks, closeCalls, hnext]) (fun hc => hc.of_sameChannel hsame)
      hheld rfl
  | forceCloseInLoop =>
    by_cases hopen : s.conn.isOpen = true
    · have ho := h.once.open_of_isOpen hopen
      have hclose : s.conn.handleClose = some conn :=
        (if_pos (TcpConnection.isOpen_iff.mp hopen)).symm.trans hconn
      obtain ⟨honce, hcount⟩ := TcpConnection.handleClose_once ho hclose
      exact h.of_conn (n := 1) honce hcount
        (by simp [connectionCallbacks, closeCalls, hnext, hopen])
        (fun hc => absurd hc (not_closed_of_isOpen hopen)) hheld rfl
    · have hno : ¬ (s.conn.state = .kConnected ∨ s.conn.state = .kDisconnecting) :=
        fun hs => hopen (TcpConnection.isOpen_iff.mpr hs)
      obtain rfl := Option.some.inj ((if_neg hno).symm.trans hconn)
      exact h.of_conn (n := 0) h.once rfl (by simp [connectionCallbacks, closeCalls, hnext, hopen])
        id hheld rfl
  | connectDestroyed =>
    have hc := h.destroyed (Loop.mem_held_of_next hnext)
    obtain ⟨honce, hcount, hc'⟩ := connectDestroyed_once h.once hc hconn
    have hstate : s.conn.state ≠ .kConnected := by
      rw [hc]
      decide
    exact h.of_conn (n := 0) honce hcount
      (by simp [connectionCallbacks, closeCalls, hnext, hstate]) (fun _ => hc') hheld rfl

/-- A registered connection is open. -/
theorem Inv.open_of_deliverable (h : s.Inv) {revents : BitVec 32} (hd : s.Deliverable revents) :
    s.conn.Open := by
  refine h.once.resolve_right fun hc => ?_
  exact hc.2.1.unregistered hd.2.1

theorem Inv.event (h : s.Inv) {revents : BitVec 32} {readResult : ReadResult}
    {writeResult : WriteResult} (hG : s.ClosesOnce (.event revents readResult writeResult))
    (hstep : step messageCallback s (.event revents readResult writeResult) = some t) : t.Inv := by
  obtain ⟨t', hact, rfl⟩ := Option.map_eq_some_iff.mp hstep
  obtain ⟨hd, hact⟩ := Option.ite_none_right_eq_some.mp hact
  obtain ⟨conn, hevent, rfl⟩ := Option.map_eq_some_iff.mp hact
  have ho := h.open_of_deliverable hd
  obtain ⟨honce, hcount⟩ := TcpConnection.handleEvent_once ho hG hevent
  refine h.of_conn honce hcount ?_ (fun hc => ?_) (List.Subset.refl _) rfl
  · simp [connectionCallbacks, closeCalls]
  · exact absurd hc (not_closed_of_isOpen (TcpConnection.isOpen_of_open ho))

theorem callInLoop_callbacks {call : Call} {result : WriteResult}
    (h : s.callInLoop result call = some t) : t.callbacks = s.callbacks := by
  cases call with
  | send message =>
    simp only [CloseSystem.callInLoop] at h
    split_ifs at h
    · obtain ⟨conn, -, rfl⟩ := Option.map_eq_some_iff.mp h
      rfl
    · cases h
      rfl
  | shutdown =>
    cases h
    rfl
  | forceClose =>
    simp only [CloseSystem.callInLoop] at h
    split_ifs at h
    · cases h
      rfl
    · cases h
      rfl

/-- A step without callbacks. -/
theorem Inv.of_act (ht : t.Inv) (hcallbacks : t.callbacks = s.callbacks) :
    Inv { t with callbacks := s.callbacks ++ [] } := by
  rw [List.append_nil, ← hcallbacks]
  exact ht

theorem Inv.step (h : s.Inv) {a : Action} (hG : s.ClosesOnce a)
    (hstep : step messageCallback s a = some t) : t.Inv := by
  cases a with
  | runFunctor result => exact h.runFunctor hG hstep
  | event revents readResult writeResult => exact h.event hG hstep
  | test thread call =>
    obtain ⟨t', hact, rfl⟩ := Option.map_eq_some_iff.mp hstep
    simp only [act] at hact
    split at hact
    · cases hact
      exact (h.setCaller thread (afterTest_ne s.conn call)).of_act rfl
    · cases hact
  | set thread =>
    obtain ⟨t', hact, rfl⟩ := Option.map_eq_some_iff.mp hstep
    simp only [act] at hact
    split at hact
    · rename_i callee hcaller
      cases hact
      have hne : callee ≠ .connectDestroyed := by
        intro heq
        exact (h.callers thread).1 (hcaller.trans (congrArg _ heq))
      exact ((h.setState hG).setCaller thread (by simp [hne])).of_act rfl
    · cases hact
  | queue thread =>
    obtain ⟨t', hact, rfl⟩ := Option.map_eq_some_iff.mp hstep
    simp only [act] at hact
    split at hact
    · rename_i callee hcaller
      cases hact
      have hne : callee ≠ .connectDestroyed := by
        intro heq
        exact (h.callers thread).2 (hcaller.trans (congrArg _ heq))
      exact ((h.setCaller thread (by simp)).queueInLoop fun heq => absurd heq hne).of_act rfl
    · cases hact
  | callInLoop call result =>
    obtain ⟨t', hact, rfl⟩ := Option.map_eq_some_iff.mp hstep
    exact (h.callInLoop hact).of_act (callInLoop_callbacks hact)
  | takeFunctors =>
    obtain ⟨t', hact, rfl⟩ := Option.map_eq_some_iff.mp hstep
    obtain ⟨l, hl, rfl⟩ := Option.map_eq_some_iff.mp hact
    have hheld := Loop.held_take hl
    have ht : Inv { s with loop := l } := h.of_loop rfl rfl (fun hd => Or.inl (hheld ▸ hd)) h.callers
    exact ht.of_act rfl
  | dropFunctors =>
    obtain ⟨t', hact, rfl⟩ := Option.map_eq_some_iff.mp hstep
    obtain ⟨l, hl, rfl⟩ := Option.map_eq_some_iff.mp hact
    have hsub := Loop.held_drop_subset hl
    have ht : Inv { s with loop := l } := h.of_loop rfl rfl (fun hd => Or.inl (hsub hd)) h.callers
    exact ht.of_act rfl
  | remove =>
    obtain ⟨t', hact, rfl⟩ := Option.map_eq_some_iff.mp hstep
    obtain ⟨⟨hpos, -⟩, hact⟩ := Option.ite_none_right_eq_some.mp hact
    cases hact
    have hc : s.conn.Closed := by
      rcases h.once with ho | hc
      · rw [ho.closeCallbacks] at hpos
        exact absurd hpos (lt_irrefl 0)
      · exact hc.1
    have hremoved : Inv { s with removed := true } := h.of_loop rfl rfl Or.inl h.callers
    exact (hremoved.queueInLoop fun _ => hc).of_act rfl

/-- The step can happen, as far as the poller is concerned. -/
def CanHappen (s : CloseSystem) : Action → Prop
  | .event revents _ _ => s.Deliverable revents
  | _ => True

/-- The calls of `handleClose` in the next step: the connection has not been closed before, and there
is one at most. -/
theorem Inv.closeCalls_le (h : s.Inv) {a : Action} (hcan : s.CanHappen a) (hG : s.ClosesOnce a) :
    s.conn.closeCallbacks + (s.closeCalls a).length ≤ 1 ∧
      ∀ c ∈ s.closeCalls a, c.isOpen = true := by
  have hle := h.once.le_one
  have hnone : s.closeCalls a = [] → s.conn.closeCallbacks + (s.closeCalls a).length ≤ 1 ∧
      ∀ c ∈ s.closeCalls a, c.isOpen = true := by
    intro hnil
    rw [hnil]
    exact ⟨hle, fun c hc => absurd hc List.not_mem_nil⟩
  cases a with
  | event revents readResult writeResult =>
    have ho := h.open_of_deliverable hcan
    obtain ⟨hlen, hall⟩ := TcpConnection.isOpen_of_mem_closeCalls ho hG
    rw [ho.closeCallbacks, Nat.zero_add]
    exact ⟨hlen, hall⟩
  | runFunctor result =>
    match hnext : s.loop.next with
    | some (.forceCloseInLoop, l) =>
      by_cases hopen : s.conn.isOpen = true
      · have hcalls : s.closeCalls (.runFunctor result) = [s.conn] := by
          simp [closeCalls, hnext, hopen]
        rw [hcalls, (h.once.open_of_isOpen hopen).closeCallbacks]
        exact ⟨le_rfl, fun c hc => List.mem_singleton.mp hc ▸ hopen⟩
      · exact hnone (by simp [closeCalls, hnext, hopen])
    | none => exact hnone (by simp [closeCalls, hnext])
    | some (.connectEstablished, _) => exact hnone (by simp [closeCalls, hnext])
    | some (.sendInLoop _, _) => exact hnone (by simp [closeCalls, hnext])
    | some (.shutdownInLoop, _) => exact hnone (by simp [closeCalls, hnext])
    | some (.connectDestroyed, _) => exact hnone (by simp [closeCalls, hnext])
  | _ => exact hnone rfl

theorem inv_start {poller : EPoller} {ptr fd : ℕ} {conn : TcpConnection}
    (hconn : (TcpConnection.init poller ptr fd).connectEstablished = some conn) :
    (start conn).Inv := by
  have ho : conn.Open := TcpConnection.connectEstablished_fresh ⟨rfl, rfl, rfl⟩ hconn
  have hstate : conn.state = .kConnected := by
    have hup := (Option.ite_none_right_eq_some.mp hconn).2
    exact (TcpConnection.update_eq_some hup).2.1
  refine ⟨Or.inl ho, ?_, fun hd => absurd hd List.not_mem_nil, fun thread => by simp [start]⟩
  simp [start, hstate, ho.closeCallbacks]

/-- **A connection closes once.** In a run from `connectEstablished` whose steps meet the conditions,
the connection callback runs exactly once with `connected()` true and at most once with it false,
and the close callback at most once. In a next step that meets them too, `handleClose` is called only
if it has not run before, at most once, and its assertion holds. -/
theorem close_once {poller : EPoller} {ptr fd : ℕ} {conn : TcpConnection}
    (hconn : (TcpConnection.init poller ptr fd).connectEstablished = some conn)
    {tr : List (CloseSystem × Action)} (hrun : Run (step messageCallback) (start conn) tr t)
    (hG : ∀ p ∈ tr, p.1.ClosesOnce p.2) :
    t.callbacks.count true = 1 ∧ t.callbacks.count false ≤ 1 ∧ t.conn.closeCallbacks ≤ 1 ∧
      ∀ a, t.CanHappen a → t.ClosesOnce a →
        t.conn.closeCallbacks + (t.closeCalls a).length ≤ 1 ∧
          ∀ c ∈ t.closeCalls a, c.isOpen = true := by
  have h : t.Inv := (hrun.guarded (fun _ _ _ h hG hst => h.step hG hst) (inv_start hconn) hG).2
  refine ⟨?_, ?_, h.once.le_one, fun a hcan hGa => h.closeCalls_le hcan hGa⟩
  · rw [h.callbacks]
    simp [List.count_replicate]
  · rw [h.callbacks]
    simpa [List.count_replicate] using h.once.le_one

end Step

instance (s : CloseSystem) (a : Action) : Decidable (s.ClosesOnce a) := by
  unfold ClosesOnce TcpConnection.Closed
  split
  · infer_instance
  · split <;> infer_instance
  · infer_instance
  · infer_instance

def established : Option TcpConnection := (TcpConnection.init ⟨∅, ∅⟩ 1 7).connectEstablished

/-- The end of the stream is read, and the base loop has the connection destroyed. -/
def clientCloses : List Action :=
  [.test 0 .forceClose, .event (POLLIN ||| POLLHUP) (.bytes []) .error, .remove, .takeFunctors,
    .runFunctor .error]

theorem close_once_clientCloses :
    ∃ conn t, established = some conn ∧ exec (step some) (start conn) clientCloses = some t ∧
      t.callbacks.count true = 1 ∧ t.callbacks.count false ≤ 1 ∧ t.conn.closeCallbacks ≤ 1 := by
  obtain ⟨conn, hconn⟩ : ∃ conn, established = some conn := ⟨_, rfl⟩
  obtain ⟨t, ht⟩ : ∃ t, exec (step some) (start conn) clientCloses = some t := by
    have hsome : (established.bind fun conn => exec (step some) (start conn) clientCloses).isSome := by
      decide +kernel
    rw [hconn] at hsome
    exact Option.isSome_iff_exists.mp hsome
  have hactions : ∀ conn ∈ established.toList,
      ∀ p ∈ trace (step some) (start conn) clientCloses, p.1.ClosesOnce p.2 := by decide +kernel
  have hG := hactions conn (by simp [hconn])
  obtain ⟨htrue, hfalse, hcount, -⟩ := close_once hconn (run_trace ht) hG
  exact ⟨conn, t, hconn, ht, htrue, hfalse, hcount⟩

/-- An event that hangs up and has urgent data, at the end of the stream: `handleEvent` closes the
connection and then reads, and the assertion of the second `handleClose` fails. -/
theorem not_close_once_event :
    ∃ conn, established = some conn ∧
      (start conn).CanHappen (.event (POLLHUP ||| POLLPRI) (.bytes []) .error) ∧
      ((start conn).closeCalls (.event (POLLHUP ||| POLLPRI) (.bytes []) .error)).map
        TcpConnection.isOpen = [true, false] ∧
      step some (start conn) (.event (POLLHUP ||| POLLPRI) (.bytes []) .error) = none := by
  have hcalls : ∀ conn ∈ established.toList, (start conn).Deliverable (POLLHUP ||| POLLPRI) ∧
      (conn.closeCalls (POLLHUP ||| POLLPRI) (.bytes [])).map TcpConnection.isOpen =
        [true, false] ∧
      (conn.handleEvent some (POLLHUP ||| POLLPRI) (.bytes []) .error).isNone = true := by
    decide +kernel
  obtain ⟨conn, hconn⟩ : ∃ conn, established = some conn := ⟨_, rfl⟩
  obtain ⟨hcan, htwo, hnone⟩ := hcalls conn (by simp [hconn])
  refine ⟨conn, hconn, hcan, htwo, ?_⟩
  have hact : act some (start conn) (.event (POLLHUP ||| POLLPRI) (.bytes []) .error) = none := by
    rw [act, if_pos hcan]
    show (conn.handleEvent some (POLLHUP ||| POLLPRI) (.bytes []) .error).map _ = none
    rw [Option.isNone_iff_eq_none.mp hnone]
    rfl
  rw [step, hact]
  rfl

/-- A thread tests the state in `forceClose`, the end of the stream is read, and then the thread sets
the state: the connection is closed a second time. -/
theorem not_close_once_thread :
    (established.bind fun conn => (exec (step some) (start conn)
      [.test 0 .forceClose, .event POLLIN (.bytes []) .error, .set 0, .queue 0, .takeFunctors,
        .runFunctor .error]).map fun t => (t.callbacks, t.conn.closeCallbacks)) =
      some ([true, false, false], 2) := by
  decide +kernel

end CloseSystem

end SearchServer

import SearchServer.Lib.Runs
import SearchServer.Net.TcpConnection

/-!
# A connection and its threads

One connection with everything that acts on it: the workers that call `TcpConnection::send`, the io
loop with its poll events and its pending functors, and the base loop that removes the connection
from the map of the server. `send` looks at the state of the connection in the worker and queues
`sendInLoop`, which runs in the io loop later and does not look at the state again. `shutdown` and
`forceClose`, which the server does not call, are left out.

**Theorem (`neverRearmed_iff`).** In a run the closed connection waits for no events, is not in the
kernel's table, and has no events when `connectDestroyed` runs, throughout, exactly when every
`sendInLoop` that runs after the close writes its message whole.

The invariant (`Inv`) says in which phase the connection is, and that it is closed when its removal
is under way.
-/

namespace SearchServer

/-- The functors that are queued in the io loop for the connection. -/
inductive Functor where
  | connectEstablished
  | sendInLoop (message : Bytes)
  | connectDestroyed
deriving DecidableEq

/-- The connection, the workers that are about to queue a message, the pending functors of the io
loop and those that are being run, and whether the connection is in the map of the server. -/
structure ConnectionSystem where
  conn : TcpConnection
  sending : ℕ → Option Bytes
  pendingFunctors : List Functor
  functors : List Functor
  inConnections : Bool

namespace ConnectionSystem

inductive Action where
  /-- Worker `w` calls `send`, which looks at the state. -/
  | send (w : ℕ) (message : Bytes)
  /-- The call of worker `w` queues `sendInLoop`. -/
  | queue (w : ℕ)
  /-- The poller reports events of the connection. -/
  | event (revents : BitVec 32) (readResult : ReadResult) (writeResult : WriteResult)
  /-- `doPendingFunctors` takes the pending functors. -/
  | takeFunctors
  /-- The next functor runs. -/
  | runFunctor (writeResult : WriteResult)
  /-- The base loop runs `removeConnectionInLoop`. -/
  | remove

/-- After `TcpServer::newConnection`. -/
def init (poller : EPoller) (ptr fd : ℕ) : ConnectionSystem :=
  ⟨.init poller ptr fd, fun _ => none, [.connectEstablished], [], true⟩

def queueInLoop (s : ConnectionSystem) (functor : Functor) : ConnectionSystem :=
  { s with pendingFunctors := s.pendingFunctors ++ [functor] }

/-- The first half of `send`, in worker `w`. -/
def send (s : ConnectionSystem) (w : ℕ) (message : Bytes) : ConnectionSystem :=
  if s.conn.state = .kConnected then
    { s with sending := Function.update s.sending w (some message) }
  else s

def removeConnectionInLoop (s : ConnectionSystem) : Option ConnectionSystem :=
  if s.inConnections then
    some ({ s with
      conn := { s.conn with closeCallbacks := s.conn.closeCallbacks - 1 }
      inConnections := false }.queueInLoop .connectDestroyed)
  else none

def runFunctor (conn : TcpConnection) (result : WriteResult) : Functor → Option TcpConnection
  | .connectEstablished => conn.connectEstablished
  | .sendInLoop message => conn.sendInLoop message result
  | .connectDestroyed => conn.connectDestroyed

def step (messageCallback : Buffer → Option Buffer) (s : ConnectionSystem) :
    Action → Option ConnectionSystem
  | .send w message => if s.sending w = none then some (s.send w message) else none
  | .queue w => (s.sending w).map fun message =>
      { s with sending := Function.update s.sending w none }.queueInLoop (.sendInLoop message)
  | .event revents readResult writeResult =>
    if s.functors = [] ∧ s.conn.channel.fd ∈ s.conn.poller.registered then
      (s.conn.handleEvent messageCallback revents readResult writeResult).map fun conn =>
        { s with conn := conn }
    else none
  | .takeFunctors =>
    if s.functors = [] then
      some { s with functors := s.pendingFunctors, pendingFunctors := [] }
    else none
  | .runFunctor result =>
    match s.functors with
    | [] => none
    | functor :: functors => (runFunctor s.conn result functor).map fun conn =>
        { s with conn := conn, functors := functors }
  | .remove => if 0 < s.conn.closeCallbacks then s.removeConnectionInLoop else none

/-! ## The invariant -/

/-- Before the connection is established there is nothing to send, and before it is closed it is not
destroyed. -/
structure Inv (s : ConnectionSystem) : Prop where
  phase : s.conn.Fresh ∨ s.conn.Open ∨ s.conn.Closed
  fresh : s.conn.state = .kConnecting →
    (∀ w, s.sending w = none) ∧ s.functors ++ s.pendingFunctors = [.connectEstablished]
  destroyed : .connectDestroyed ∈ s.functors ++ s.pendingFunctors → s.conn.Closed

theorem inv_init (poller : EPoller) (ptr fd : ℕ) : Inv (init poller ptr fd) where
  phase := Or.inl ⟨rfl, rfl, rfl⟩
  fresh _ := ⟨fun _ => rfl, rfl⟩
  destroyed h := by simp [init] at h

theorem not_connecting_of_open {conn : TcpConnection} (h : conn.Open) :
    conn.state ≠ .kConnecting := by
  intro hs
  rcases h.state with h | h <;> rw [hs] at h <;> cases h

theorem not_connecting_of_closed {conn : TcpConnection} (h : conn.Closed) :
    conn.state ≠ .kConnecting := by
  intro hs
  rw [TcpConnection.Closed, hs] at h
  cases h

theorem not_closed_of_open {conn : TcpConnection} (h : conn.Open) : ¬ conn.Closed := by
  intro hc
  rcases h.state with h | h <;> rw [hc] at h <;> cases h

theorem Inv.closed_of_closeCallbacks {s : ConnectionSystem} (h : Inv s)
    (hcalls : 0 < s.conn.closeCallbacks) : s.conn.Closed := by
  rcases h.phase with hf | ho | hc
  · exact absurd hf.closeCallbacks (by omega)
  · exact absurd ho.closeCallbacks (by omega)
  · exact hc

/-- When the connection is not established, the only functor is the one that does it. -/
theorem Inv.phase_of_functor {s : ConnectionSystem} (h : Inv s) {functor : Functor}
    {functors : List Functor} (hf : s.functors = functor :: functors)
    (hne : functor ≠ .connectEstablished) : s.conn.Open ∨ s.conn.Closed := by
  refine h.phase.resolve_left fun hfresh => ?_
  have hlist := (h.fresh hfresh.state).2
  rw [hf, List.cons_append] at hlist
  exact hne (List.cons.inj hlist).1

section Step

variable {messageCallback : Buffer → Option Buffer} {s t : ConnectionSystem}

theorem step_runFunctor {result : WriteResult}
    (h : step messageCallback s (.runFunctor result) = some t) :
    ∃ functor functors conn, s.functors = functor :: functors ∧
      ConnectionSystem.runFunctor s.conn result functor = some conn ∧
      t = { s with conn := conn, functors := functors } := by
  cases hf : s.functors with
  | nil =>
    simp only [step, hf] at h
    cases h
  | cons functor functors =>
    simp only [step, hf] at h
    obtain ⟨conn, hrun, rfl⟩ := Option.map_eq_some_iff.mp h
    exact ⟨functor, functors, conn, rfl, hrun, rfl⟩

/-- The functors that a functor leaves behind. -/
theorem Inv.of_conn (h : Inv s) {conn : TcpConnection} {functors : List Functor}
    (hphase : conn.Open ∨ conn.Closed) (hclosed : s.conn.Closed → conn.Closed)
    (hsub : functors ⊆ s.functors) : Inv { s with conn := conn, functors := functors } := by
  refine ⟨Or.inr hphase, fun hs => ?_, fun hd => hclosed (h.destroyed ?_)⟩
  · rcases hphase with ho | hc
    · exact absurd hs (not_connecting_of_open ho)
    · exact absurd hs (not_connecting_of_closed hc)
  · rcases List.mem_append.mp hd with hd | hd
    · exact List.mem_append_left _ (hsub hd)
    · exact List.mem_append_right _ hd

theorem Inv.runFunctor (h : Inv s) {functor : Functor} {functors : List Functor}
    (hf : s.functors = functor :: functors) {result : WriteResult} {conn : TcpConnection}
    (hrun : runFunctor s.conn result functor = some conn) :
    Inv { s with conn := conn, functors := functors } := by
  have hsub : functors ⊆ s.functors := by
    rw [hf]
    exact List.subset_cons_self functor functors
  cases functor with
  | connectEstablished =>
    have hs := TcpConnection.connectEstablished_state hrun
    have hfresh : s.conn.Fresh := by
      rcases h.phase with hfresh | ho | hc
      · exact hfresh
      · exact absurd hs (not_connecting_of_open ho)
      · exact absurd hs (not_connecting_of_closed hc)
    exact h.of_conn (Or.inl (TcpConnection.connectEstablished_fresh hfresh hrun))
      (fun hc => absurd hs (not_connecting_of_closed hc)) hsub
  | sendInLoop message =>
    have hclosed : s.conn.Closed → conn.Closed := fun hc =>
      (TcpConnection.sendInLoop_state hrun).1.trans hc
    refine h.of_conn ?_ hclosed hsub
    rcases h.phase_of_functor hf (by simp) with ho | hc
    · exact Or.inl (TcpConnection.sendInLoop_open ho hrun)
    · exact Or.inr (hclosed hc)
  | connectDestroyed =>
    have hc : s.conn.Closed := h.destroyed (by simp [hf])
    have hc' := TcpConnection.connectDestroyed_closed hc hrun
    exact h.of_conn (Or.inr hc') (fun _ => hc') hsub

theorem Inv.event (h : Inv s) {revents : BitVec 32} {readResult : ReadResult}
    {writeResult : WriteResult} {conn : TcpConnection}
    (hev : s.conn.handleEvent messageCallback revents readResult writeResult = some conn) :
    Inv { s with conn := conn } := by
  have hclosed : s.conn.Closed → conn.Closed := fun hc =>
    (TcpConnection.handleEvent_closed hc hev).1
  rcases h.phase with hf | ho | hc
  · have hf' := TcpConnection.handleEvent_fresh hf hev
    refine ⟨Or.inl hf', fun _ => h.fresh hf.state, fun hd => hclosed (h.destroyed hd)⟩
  · refine h.of_conn ?_ hclosed (List.Subset.refl s.functors)
    exact (TcpConnection.handleEvent_open ho hev).imp_right And.left
  · exact h.of_conn (Or.inr (hclosed hc)) hclosed (List.Subset.refl s.functors)

theorem Inv.step (h : Inv s) {a : Action} (hstep : step messageCallback s a = some t) : Inv t := by
  cases a with
  | send w message =>
    obtain ⟨-, hstep⟩ := Option.ite_none_right_eq_some.mp hstep
    obtain rfl := Option.some.inj hstep
    unfold send
    by_cases hs : s.conn.state = .kConnected
    · rw [if_pos hs]
      refine ⟨h.phase, fun hs' => ?_, h.destroyed⟩
      rw [show s.conn.state = .kConnecting from hs'] at hs
      cases hs
    · rw [if_neg hs]
      exact h
  | queue w =>
    obtain ⟨message, hw, rfl⟩ := Option.map_eq_some_iff.mp hstep
    refine ⟨h.phase, fun hs => ?_, fun hd => h.destroyed ?_⟩
    · rw [(h.fresh hs).1 w] at hw
      cases hw
    · simpa [queueInLoop] using hd
  | event revents readResult writeResult =>
    obtain ⟨-, hstep⟩ := Option.ite_none_right_eq_some.mp hstep
    obtain ⟨conn, hev, rfl⟩ := Option.map_eq_some_iff.mp hstep
    exact h.event hev
  | takeFunctors =>
    obtain ⟨hnil, hstep⟩ := Option.ite_none_right_eq_some.mp hstep
    obtain rfl := Option.some.inj hstep
    have hlist : s.pendingFunctors ++ [] = s.functors ++ s.pendingFunctors := by
      rw [hnil, List.append_nil, List.nil_append]
    exact ⟨h.phase, fun hs => ⟨(h.fresh hs).1, hlist.trans (h.fresh hs).2⟩,
      fun hd => h.destroyed (hlist ▸ hd)⟩
  | runFunctor result =>
    obtain ⟨functor, functors, conn, hf, hrun, rfl⟩ := step_runFunctor hstep
    exact h.runFunctor hf hrun
  | remove =>
    obtain ⟨hcalls, hstep⟩ := Option.ite_none_right_eq_some.mp hstep
    obtain ⟨-, hstep⟩ := Option.ite_none_right_eq_some.mp hstep
    obtain rfl := Option.some.inj hstep
    have hc := h.closed_of_closeCallbacks hcalls
    exact ⟨Or.inr (Or.inr hc), fun hs => absurd hs (not_connecting_of_closed hc), fun _ => hc⟩

/-! ## Events after the close -/

/-- The closed connection waits for no events and is not in the kernel's table, and the assertion of
`EPoller::removeChannel` holds when `connectDestroyed` runs. -/
def NeverRearmed (s : ConnectionSystem) : Prop :=
  (s.conn.Closed → s.conn.Quiet) ∧
    (s.functors.head? = some .connectDestroyed → s.conn.channel.isNoneEvent = true)

/-- If the step runs `sendInLoop` on the closed connection, the message is empty, or nothing waits
to be written before it and `write` takes all of it. -/
def WritesWhole (s : ConnectionSystem) (a : Action) : Prop :=
  match a, s.functors with
  | .runFunctor result, .sendInLoop message :: _ => s.conn.Closed →
    message = [] ∨ (s.conn.outputBuffer.readableBytes = 0 ∧ result = .wrote message.length)
  | _, _ => True

instance (s : ConnectionSystem) (a : Action) : Decidable (WritesWhole s a) := by
  unfold WritesWhole TcpConnection.Closed
  split <;> infer_instance

theorem Inv.neverRearmed_iff_quiet (h : Inv s) : NeverRearmed s ↔ (s.conn.Closed → s.conn.Quiet) := by
  refine and_iff_left_of_imp fun hquiet hhead => ?_
  have hmem : .connectDestroyed ∈ s.functors ++ s.pendingFunctors :=
    List.mem_append_left _ (List.mem_of_mem_head? hhead)
  have hevents := (hquiet (h.destroyed hmem)).events
  rw [Channel.isNoneEvent, hevents]
  rfl

theorem writesWhole_of_ne {a : Action} (h : ∀ result, a ≠ .runFunctor result) :
    WritesWhole s a := by
  cases a with
  | runFunctor result => exact absurd rfl (h result)
  | _ => trivial

theorem runFunctor_quiet_iff (h : Inv s) (hq : s.conn.Closed → s.conn.Quiet) {functor : Functor}
    {functors : List Functor} (hf : s.functors = functor :: functors) {result : WriteResult}
    {conn : TcpConnection} (hrun : ConnectionSystem.runFunctor s.conn result functor = some conn) :
    (conn.Closed → conn.Quiet) ↔ WritesWhole s (.runFunctor result) := by
  cases functor with
  | connectEstablished =>
    refine iff_of_true (fun hc => ?_) (by simp only [WritesWhole, hf])
    have hs := TcpConnection.connectEstablished_state hrun
    have ho : conn.Open := by
      rcases h.phase with hfresh | ho | hc
      · exact TcpConnection.connectEstablished_fresh hfresh hrun
      · exact absurd hs (not_connecting_of_open ho)
      · exact absurd hs (not_connecting_of_closed hc)
    exact absurd hc (not_closed_of_open ho)
  | sendInLoop message =>
    have hstate := (TcpConnection.sendInLoop_state hrun).1
    by_cases hc : s.conn.Closed
    · have hquiet := hq hc
      have hle : s.conn.nwrote result ≤ message.length := by
        rcases TcpConnection.sendInLoop_cases hrun with ⟨heq, -⟩ | ⟨hlt, -⟩
        · exact heq.le
        · exact hlt.le
      rw [imp_iff_right (show conn.Closed from hstate.trans hc),
        TcpConnection.sendInLoop_quiet hquiet hrun, TcpConnection.nwrote_eq_length_iff hquiet hle]
      simp only [WritesWhole, hf, imp_iff_right hc]
    · simp only [WritesWhole, hf]
      exact iff_of_true (fun hc' => absurd (hstate.symm.trans hc') hc) fun hc' => absurd hc' hc
  | connectDestroyed =>
    have hc : s.conn.Closed := h.destroyed (by simp [hf])
    exact iff_of_true (fun _ => TcpConnection.connectDestroyed_quiet hc (hq hc) hrun)
      (by simp only [WritesWhole, hf])

/-- A step keeps the closed connection quiet exactly when it writes its message whole. -/
theorem quiet_iff_writesWhole (h : Inv s) (hq : s.conn.Closed → s.conn.Quiet) {a : Action}
    (hstep : ConnectionSystem.step messageCallback s a = some t) :
    (t.conn.Closed → t.conn.Quiet) ↔ WritesWhole s a := by
  cases a with
  | send w message =>
    obtain ⟨-, hstep⟩ := Option.ite_none_right_eq_some.mp hstep
    obtain rfl := Option.some.inj hstep
    refine iff_of_true ?_ (writesWhole_of_ne (by simp))
    unfold send
    split_ifs <;> exact hq
  | queue w =>
    obtain ⟨message, -, rfl⟩ := Option.map_eq_some_iff.mp hstep
    exact iff_of_true hq (writesWhole_of_ne (by simp))
  | event revents readResult writeResult =>
    obtain ⟨-, hstep⟩ := Option.ite_none_right_eq_some.mp hstep
    obtain ⟨conn, hev, rfl⟩ := Option.map_eq_some_iff.mp hstep
    refine iff_of_true (fun hc => ?_) (writesWhole_of_ne (by simp))
    rcases h.phase with hf | ho | hc'
    · have hf' := TcpConnection.handleEvent_fresh hf hev
      exact absurd hf'.state (not_connecting_of_closed hc)
    · rcases TcpConnection.handleEvent_open ho hev with ho' | ⟨-, hquiet⟩
      · exact absurd hc (not_closed_of_open ho')
      · exact hquiet
    · exact (TcpConnection.handleEvent_closed hc' hev).2 (hq hc')
  | takeFunctors =>
    obtain ⟨-, hstep⟩ := Option.ite_none_right_eq_some.mp hstep
    obtain rfl := Option.some.inj hstep
    exact iff_of_true hq (writesWhole_of_ne (by simp))
  | runFunctor result =>
    obtain ⟨functor, functors, conn, hf, hrun, rfl⟩ := step_runFunctor hstep
    exact runFunctor_quiet_iff h hq hf hrun
  | remove =>
    obtain ⟨-, hstep⟩ := Option.ite_none_right_eq_some.mp hstep
    obtain ⟨-, hstep⟩ := Option.ite_none_right_eq_some.mp hstep
    obtain rfl := Option.some.inj hstep
    refine iff_of_true (fun hc => ?_) (writesWhole_of_ne (by simp))
    exact ⟨(hq hc).events, (hq hc).unregistered⟩

/-- **A closed connection is not re-armed**, throughout a run, exactly when every message that is
sent after the close is written whole. -/
theorem neverRearmed_iff {poller : EPoller} {ptr fd : ℕ} {tr : List (ConnectionSystem × Action)}
    (h : Run (ConnectionSystem.step messageCallback) (init poller ptr fd) tr t) :
    ((∀ p ∈ tr, NeverRearmed p.1) ∧ NeverRearmed t) ↔ ∀ p ∈ tr, WritesWhole p.1 p.2 := by
  have hinit : NeverRearmed (init poller ptr fd) := by
    refine (inv_init poller ptr fd).neverRearmed_iff_quiet.mpr fun hc => ?_
    exact absurd rfl (not_connecting_of_closed hc)
  refine h.throughout_iff (I := Inv) (fun s a t hI hstep => hI.step hstep)
    (fun s a t hI hP hstep => ?_) (inv_init poller ptr fd) hinit
  rw [(hI.step hstep).neverRearmed_iff_quiet]
  exact quiet_iff_writesWhole hI hP.1 hstep

end Step

/-- A worker looks at the state before the client closes the connection, and queues its message
after it. -/
def lateSend (result : WriteResult) : List Action :=
  [.takeFunctors, .runFunctor .error, .send 0 (lit "hi"), .event POLLIN (.bytes []) .error,
    .queue 0, .remove, .takeFunctors, .runFunctor result]

def start : ConnectionSystem := init ⟨∅, ∅⟩ 1 7

/-- When the message is written whole, the connection stays quiet. -/
theorem neverRearmed_lateSend :
    ∃ tr t, Run (step some) start tr t ∧ t.conn.Closed ∧
      (∀ p ∈ tr, NeverRearmed p.1) ∧ NeverRearmed t := by
  obtain ⟨t, ht⟩ : ∃ t, exec (step some) start (lateSend (.wrote 2)) = some t :=
    Option.isSome_iff_exists.mp (by decide +kernel)
  have hclosed : (exec (step some) start (lateSend (.wrote 2))).map (·.conn.state) =
      some .kDisconnected := by decide +kernel
  rw [ht] at hclosed
  exact ⟨_, t, run_trace ht, Option.some.inj hclosed,
    (neverRearmed_iff (run_trace ht)).mpr (by decide +kernel)⟩

/-- When it cannot be written, the connection waits for writing again, and the assertion fails when
`connectDestroyed` runs. -/
theorem not_neverRearmed_lateSend :
    ∃ tr t, Run (step some) start tr t ∧ t.conn.Closed ∧
      t.functors.head? = some .connectDestroyed ∧ t.conn.channel.events = kWriteEvent ∧
      t.conn.connectDestroyed.isNone ∧ ¬ NeverRearmed t := by
  obtain ⟨t, ht⟩ : ∃ t, exec (step some) start (lateSend .error) = some t :=
    Option.isSome_iff_exists.mp (by decide +kernel)
  have hstate : (exec (step some) start (lateSend .error)).map
      (fun t => (t.conn.state, t.functors.head?, t.conn.channel.events,
        t.conn.connectDestroyed.isNone)) =
      some (.kDisconnected, some .connectDestroyed, kWriteEvent, true) := by decide +kernel
  rw [ht] at hstate
  obtain ⟨hclosed, hhead, hevents, habort⟩ : _ ∧ _ ∧ _ ∧ _ := by
    simpa only [Option.map_some, Option.some.injEq, Prod.mk.injEq] using hstate
  refine ⟨_, t, run_trace ht, hclosed, hhead, hevents, habort, fun h => ?_⟩
  have hnone := h.2 hhead
  rw [Channel.isNoneEvent, hevents] at hnone
  exact absurd hnone (by decide)

end ConnectionSystem

end SearchServer

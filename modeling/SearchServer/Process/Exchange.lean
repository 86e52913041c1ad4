import SearchServer.Net.OutputStream
import SearchServer.Process.Answered
import SearchServer.Process.ReplyFrames

/-!
# What a client reads

The server with the output of its connections: a line that a client sends is extracted, becomes a task,
is answered by a worker, and the answer is written to the socket of the connection, at once or when the
socket is ready.

**Theorem (`answers_to_own_lines`).** What a client of an open connection has been sent is the beginning
of the frames of answers to lines of its own, each answered at most once. With one worker they are in
the order of the lines.

**Theorem (`client_reads_answers`).** When the queue had room for every line and there is nothing left
to do, the client has been sent the frames of answers to all of its lines that were extracted, each
once, and it reads the answers back.
-/

namespace SearchServer

/-- The server, the output of each connection, and the bytes that were read from it. -/
structure Exchange where
  requests : RequestSystem
  outputs : ℕ → OutputStream
  received : ℕ → Bytes

/-- The lines of a connection that were extracted. -/
def RequestSystem.lines (s : RequestSystem) (conn : ℕ) : List Request :=
  s.extracted.filter (·.conn = conn)

namespace Exchange

inductive Action where
  /-- A step of the server. If it runs `sendInLoop`, `write` returns `result`. -/
  | server (a : RequestSystem.Action) (result : WriteResult)
  | handleWrite (conn : ℕ) (result : WriteResult)

/-- A connection before it is established. -/
def freshOutput (conn : ℕ) : OutputStream := ⟨.init ⟨∅, ∅⟩ conn conn, [], []⟩

def init (getLoop : ℕ → ℕ) (queSize : ℤ) : Exchange where
  requests := .init getLoop queSize
  outputs := freshOutput
  received := fun _ => []

def setOutput (s : Exchange) (conn : ℕ) (o : OutputStream) : Exchange :=
  { s with outputs := Function.update s.outputs conn o }

/-- The part of the step that concerns the sockets. -/
def socketStep (s : Exchange) (result : WriteResult) : RequestSystem.Action → Option Exchange
  | .connectEstablished conn => (s.outputs conn).conn.connectEstablished.map fun c =>
      s.setOutput conn { s.outputs conn with conn := c }
  | .handleRead conn data =>
      some { s with received := Function.update s.received conn (s.received conn ++ data) }
  | .handleClose conn => (s.outputs conn).conn.handleClose.map fun c =>
      s.setOutput conn { s.outputs conn with conn := c }
  | .runFunctor loop => (s.requests.loops loop).next.bind fun (reply, _) =>
      ((s.outputs reply.request.conn).step some (.sendInLoop reply.message result)).map
        (s.setOutput reply.request.conn)
  | _ => some s

def step (threadNum : ℕ) (s : Exchange) : Action → Option Exchange
  | .server a result => do
    let t ← s.socketStep result a
    let requests ← s.requests.step threadNum a
    return { t with requests := requests }
  | .handleWrite conn result =>
    if (s.requests.loopOf conn).functors = [] ∧ s.requests.state conn ≠ .kConnecting then
      ((s.outputs conn).step some (.handleWrite result)).map (s.setOutput conn)
    else none

/-- If `doQuery` returns in this step, it returns what it may. -/
def Returns (answers : Bytes → Bytes → Prop) (s : Exchange) : Action → Prop
  | .server a _ => s.requests.Returns answers a
  | .handleWrite _ _ => True

/-- If the step extracts a line, the queue is below the limit. -/
def HasRoom (s : Exchange) : Action → Prop
  | .server a _ => s.requests.HasRoom a
  | .handleWrite _ _ => True

instance (answers : Bytes → Bytes → Prop) [∀ msg ret, Decidable (answers msg ret)] (s : Exchange)
    (a : Action) : Decidable (s.Returns answers a) := by
  unfold Returns
  split <;> infer_instance

instance (s : Exchange) (a : Action) : Decidable (s.HasRoom a) := by
  unfold HasRoom
  split <;> infer_instance

/-- There is nothing left to do for the connection. -/
structure Settled (threadNum : ℕ) (s : Exchange) (conn : ℕ) : Prop where
  queue : s.requests.pool.queue = []
  workers : ∀ w < threadNum, s.requests.workers w = .idle
  waiting : s.requests.waiting conn = []
  buffer : (s.outputs conn).conn.outputBuffer.readable = []

/-! ## The invariant -/

/-- The sockets agree with the requests. -/
structure Sockets (s : Exchange) : Prop where
  received : ∀ conn, Server.Receiver.Received (s.received conn)
    ⟨s.requests.inputBuffer conn, (s.requests.lines conn).map Request.msg⟩
  messages : ∀ conn, (s.outputs conn).messages = (s.requests.sent conn).map QueuedReply.message
  fresh : ∀ conn, s.requests.state conn = .kConnecting → s.outputs conn = freshOutput conn
  output : ∀ conn, s.requests.state conn = .kConnected → (s.outputs conn).InOrder

structure Inv (threadNum : ℕ) (answers : Bytes → Bytes → Prop) (s : Exchange) : Prop where
  requests : s.requests.Inv threadNum
  answered : s.requests.Answered answers
  inOrder : threadNum ≤ 1 → s.requests.InOrder
  sockets : s.Sockets

variable {threadNum : ℕ} {answers : Bytes → Bytes → Prop} {s t : Exchange} {conn : ℕ}

theorem inv_init (getLoop : ℕ → ℕ) (queSize : ℤ) :
    Inv threadNum answers (init getLoop queSize) where
  requests := RequestSystem.inv_init getLoop queSize
  answered := RequestSystem.answered_init getLoop queSize
  inOrder := fun _ => ⟨fun _ => .nil, nofun⟩
  sockets := ⟨fun _ => Server.Receiver.received_init, fun _ => rfl, fun _ _ => rfl, nofun⟩

/-- What a read delivers. -/
theorem received_handleRead {s t : RequestSystem} {data stream : Bytes}
    (h : Server.Receiver.Received stream ⟨s.inputBuffer conn, (s.lines conn).map Request.msg⟩)
    (hread : s.handleRead conn data = some t) :
    Server.Receiver.Received (stream ++ data)
        ⟨t.inputBuffer conn, (t.lines conn).map Request.msg⟩ ∧
      ∀ c, c ≠ conn → t.inputBuffer c = s.inputBuffer c ∧ t.lines c = s.lines c := by
  obtain ⟨⟨msg, buf⟩, hextract, rfl⟩ := Option.map_eq_some_iff.mp hread
  have hreceiver : Server.Receiver.handleRead
      ⟨s.inputBuffer conn, (s.lines conn).map Request.msg⟩ data =
        some ⟨buf, (s.lines conn).map Request.msg ++ msg.toList⟩ := by
    rw [RequestSystem.extract] at hextract
    obtain ⟨hne, hextract⟩ := Option.ite_none_left_eq_some.mp hextract
    obtain ⟨b, hb, hmessage⟩ := Option.bind_eq_some_iff.mp hextract
    simp [Server.Receiver.handleRead, hne, hb, hmessage]
  obtain ⟨hne, hfit⟩ := Server.Receiver.handleRead_some hreceiver
  obtain ⟨r, hr, hreceived, -⟩ := Server.Receiver.handleRead_spec h hne hfit
  obtain rfl := Option.some.inj (hr.symm.trans hreceiver)
  cases msg with
  | none =>
    refine ⟨?_, fun c hc => ⟨Function.update_of_ne hc _ _, rfl⟩⟩
    simpa [RequestSystem.lines] using hreceived
  | some msg =>
    refine ⟨?_, fun c hc => ⟨Function.update_of_ne hc _ _, ?_⟩⟩
    · simpa [RequestSystem.lines, RequestSystem.runTask, List.filter_append] using hreceived
    · simp [RequestSystem.lines, RequestSystem.runTask, List.filter_append, hc.symm]

/-- A step that only workers and loops take part in. -/
theorem Sockets.of_same (h : s.Sockets) {requests : RequestSystem}
    (hbuffer : requests.inputBuffer = s.requests.inputBuffer)
    (hextracted : requests.extracted = s.requests.extracted)
    (hsent : requests.sent = s.requests.sent) (hstate : requests.state = s.requests.state) :
    Sockets { s with requests := requests } where
  received conn := by
    show Server.Receiver.Received (s.received conn) ⟨requests.inputBuffer conn, _⟩
    rw [RequestSystem.lines, hbuffer, hextracted]
    exact h.received conn
  messages conn := by
    rw [hsent]
    exact h.messages conn
  fresh := by
    rw [hstate]
    exact h.fresh
  output := by
    rw [hstate]
    exact h.output

/-- The state of a connection is set, and its channel changes. -/
theorem Sockets.setState (h : s.Sockets) {state : StateE} {c : TcpConnection}
    (hstate : state ≠ .kConnecting)
    (houtput : state = .kConnected → OutputStream.InOrder { s.outputs conn with conn := c }) :
    Sockets { s.setOutput conn { s.outputs conn with conn := c } with
      requests := s.requests.setState conn state } where
  received := h.received
  messages := by
    intro k
    by_cases hk : k = conn
    · subst hk
      simp only [setOutput, Function.update_self]
      exact h.messages k
    · simp only [setOutput, Function.update_of_ne hk]
      exact h.messages k
  fresh := by
    intro k hconnecting
    by_cases hk : k = conn
    · subst hk
      simp only [RequestSystem.setState, Function.update_self] at hconnecting
      exact absurd hconnecting hstate
    · simp only [RequestSystem.setState, Function.update_of_ne hk] at hconnecting
      simp only [setOutput, Function.update_of_ne hk]
      exact h.fresh k hconnecting
  output := by
    intro k hconnected
    by_cases hk : k = conn
    · subst hk
      simp only [RequestSystem.setState, Function.update_self] at hconnected
      simp only [setOutput, Function.update_self]
      exact houtput hconnected
    · simp only [RequestSystem.setState, Function.update_of_ne hk] at hconnected
      simp only [setOutput, Function.update_of_ne hk]
      exact h.output k hconnected

theorem Sockets.handleRead (h : s.Sockets) {data : Bytes} {requests : RequestSystem}
    (hread : s.requests.handleRead conn data = some requests) :
    Sockets { s with
      requests := requests
      received := Function.update s.received conn (s.received conn ++ data) } := by
  obtain ⟨hreceived, hothers⟩ := received_handleRead (h.received conn) hread
  have hsame : requests.state = s.requests.state ∧ requests.sent = s.requests.sent := by
    obtain ⟨buf, ⟨-, rfl⟩ | ⟨msg, -, rfl⟩⟩ := RequestSystem.handleRead_eq_some hread
    · exact ⟨rfl, rfl⟩
    · exact ⟨rfl, rfl⟩
  refine ⟨fun k => ?_, ?_, ?_, ?_⟩
  · by_cases hk : k = conn
    · subst hk
      simp only [Function.update_self]
      exact hreceived
    · simp only [Function.update_of_ne hk, (hothers k hk).1, (hothers k hk).2]
      exact h.received k
  · rw [hsame.2]
    exact h.messages
  · rw [hsame.1]
    exact h.fresh
  · rw [hsame.1]
    exact h.output

/-- `sendInLoop` runs on a connection that was established. -/
theorem Sockets.sendInLoop (h : s.Sockets) {loop : ℕ} {l : Loop QueuedReply} {reply : QueuedReply}
    {result : WriteResult} {o : OutputStream}
    (hopened : s.requests.state reply.request.conn ≠ .kConnecting)
    (hsend : (s.outputs reply.request.conn).step some (.sendInLoop reply.message result) =
      some o) :
    Sockets { s.setOutput reply.request.conn o with
      requests := (s.requests.setLoop loop l).sendInLoop reply } := by
  have hmessages : o.messages = (s.outputs reply.request.conn).messages ++ [reply.message] := by
    obtain ⟨c, -, rfl⟩ := Option.map_eq_some_iff.mp hsend
    rfl
  refine ⟨h.received, fun k => ?_, fun k hconnecting => ?_, fun k hconnected => ?_⟩
  · by_cases hk : k = reply.request.conn
    · subst hk
      simp only [setOutput, RequestSystem.sendInLoop, RequestSystem.setLoop, Function.update_self]
      rw [hmessages, h.messages, List.map_append, List.map_singleton]
    · simp only [setOutput, RequestSystem.sendInLoop, RequestSystem.setLoop,
        Function.update_of_ne hk]
      exact h.messages k
  · have hk : k ≠ reply.request.conn := fun heq => hopened (heq ▸ hconnecting)
    simp only [setOutput, Function.update_of_ne hk]
    exact h.fresh k hconnecting
  · by_cases hk : k = reply.request.conn
    · subst hk
      simp only [setOutput, Function.update_self]
      exact OutputStream.inOrder_step (h.output _ hconnected) hsend
    · simp only [setOutput, Function.update_of_ne hk]
      exact h.output k hconnected

theorem Sockets.handleWrite (h : s.Sockets) {result : WriteResult} {o : OutputStream}
    (hopened : s.requests.state conn ≠ .kConnecting)
    (hwrite : (s.outputs conn).step some (.handleWrite result) = some o) :
    Sockets (s.setOutput conn o) := by
  have hmessages : o.messages = (s.outputs conn).messages := by
    obtain ⟨c, -, rfl⟩ := Option.map_eq_some_iff.mp hwrite
    rfl
  refine ⟨h.received, fun k => ?_, fun k hconnecting => ?_, fun k hconnected => ?_⟩
  · by_cases hk : k = conn
    · subst hk
      simp only [setOutput, Function.update_self]
      exact hmessages.trans (h.messages k)
    · simp only [setOutput, Function.update_of_ne hk]
      exact h.messages k
  · have hk : k ≠ conn := fun heq => hopened (heq ▸ hconnecting)
    simp only [setOutput, Function.update_of_ne hk]
    exact h.fresh k hconnecting
  · by_cases hk : k = conn
    · subst hk
      simp only [setOutput, Function.update_self]
      exact OutputStream.inOrder_step (h.output k hconnected) hwrite
    · simp only [setOutput, Function.update_of_ne hk]
      exact h.output k hconnected

theorem Inv.sockets_server (h : Inv threadNum answers s) {a : RequestSystem.Action}
    {result : WriteResult} {u : Exchange} {requests : RequestSystem}
    (hsocket : s.socketStep result a = some u)
    (hstep : s.requests.step threadNum a = some requests) :
    Sockets { u with requests := requests } := by
  cases a with
  | connectEstablished conn =>
    obtain ⟨c, hc, rfl⟩ := Option.map_eq_some_iff.mp hsocket
    obtain ⟨hconnecting, hstep⟩ := Option.ite_none_right_eq_some.mp hstep
    obtain rfl := Option.some.inj hstep
    refine h.sockets.setState (by decide) fun _ => ?_
    have hfresh := h.sockets.fresh conn hconnecting
    rw [hfresh] at hc ⊢
    exact OutputStream.inOrder_established hc
  | handleRead conn data =>
    obtain rfl := Option.some.inj hsocket
    exact h.sockets.handleRead (Option.ite_none_right_eq_some.mp hstep).2
  | handleClose conn =>
    obtain ⟨c, -, rfl⟩ := Option.map_eq_some_iff.mp hsocket
    obtain ⟨-, hstep⟩ := Option.ite_none_right_eq_some.mp hstep
    obtain rfl := Option.some.inj hstep
    exact h.sockets.setState (by decide) nofun
  | take worker =>
    obtain rfl := Option.some.inj hsocket
    obtain ⟨-, r, pool, -, rfl⟩ := RequestSystem.take_eq_some hstep
    exact h.sockets.of_same rfl rfl rfl rfl
  | send worker ret =>
    obtain rfl := Option.some.inj hsocket
    obtain ⟨stage, -, rfl⟩ := RequestSystem.send_eq_some hstep
    exact h.sockets.of_same rfl rfl rfl rfl
  | queueInLoop worker =>
    obtain rfl := Option.some.inj hsocket
    obtain ⟨reply, -, rfl⟩ := RequestSystem.queueInLoop_eq_some hstep
    exact h.sockets.of_same rfl rfl rfl rfl
  | takeFunctors loop | dropFunctors loop =>
    obtain rfl := Option.some.inj hsocket
    obtain ⟨l, -, rfl⟩ := Option.map_eq_some_iff.mp hstep
    exact h.sockets.of_same rfl rfl rfl rfl
  | runFunctor loop =>
    obtain ⟨⟨reply, l⟩, hnext, hsocket⟩ := Option.bind_eq_some_iff.mp hsocket
    obtain ⟨o, ho, rfl⟩ := Option.map_eq_some_iff.mp hsocket
    obtain ⟨p, hp, rfl⟩ := Option.map_eq_some_iff.mp hstep
    obtain rfl := Option.some.inj (hnext.symm.trans hp)
    have htaken := (h.requests.loop loop reply (Loop.mem_held_of_next hnext)).1
    refine h.sockets.sendInLoop (h.answered.opened _ ?_) ho
    exact h.requests.accepted.subset (List.mem_append_left _ htaken)

/-- **One step.** -/
theorem inv_step {a : Action} (h : Inv threadNum answers s) (hreturns : s.Returns answers a)
    (hstep : step threadNum s a = some t) : Inv threadNum answers t := by
  cases a with
  | server a result =>
    obtain ⟨u, hsocket, hstep⟩ := Option.bind_eq_some_iff.mp hstep
    obtain ⟨requests, hrequests, ht⟩ := Option.bind_eq_some_iff.mp hstep
    obtain rfl := Option.some.inj ht
    exact
      { requests := RequestSystem.inv_step h.requests hrequests
        answered := RequestSystem.answered_step h.requests h.answered hreturns hrequests
        inOrder := fun hone => RequestSystem.inOrder_step h.requests (h.inOrder hone)
          (h.requests.inTurn hone a) hrequests
        sockets := h.sockets_server hsocket hrequests }
  | handleWrite conn result =>
    obtain ⟨⟨-, hopened⟩, hstep⟩ := Option.ite_none_right_eq_some.mp hstep
    obtain ⟨o, ho, rfl⟩ := Option.map_eq_some_iff.mp hstep
    exact ⟨h.requests, h.answered, h.inOrder, h.sockets.handleWrite hopened ho⟩

/-! ## What the client gets -/

/-- The line of a request, whose message ends with a NUL in the place of the newline. -/
def line (r : Request) : Bytes := r.msg.dropLast

/-- The answers are answers to the lines, in this order. -/
def AnswersTo (answers : Bytes → Bytes → Prop) (ls rets : List Bytes) : Prop :=
  List.Forall₂ (fun l ret => answers (l ++ [NUL]) ret) ls rets

theorem AnswersTo.exists_line {ls rets : List Bytes} (h : AnswersTo answers ls rets) {ret : Bytes}
    (hret : ret ∈ rets) : ∃ l ∈ ls, answers (l ++ [NUL]) ret := by
  induction h with
  | nil => cases hret
  | cons hfirst _ ih =>
    rcases List.mem_cons.mp hret with rfl | hret
    · exact ⟨_, List.mem_cons_self, hfirst⟩
    · obtain ⟨l, hl, hanswer⟩ := ih hret
      exact ⟨l, List.mem_cons_of_mem _ hl, hanswer⟩

/-- The lines that were extracted are those at the beginning of what the client sent. -/
theorem Sockets.lines_eq (h : s.Sockets) (conn : ℕ) :
    (∀ r ∈ s.requests.lines conn, r.msg = line r ++ [NUL]) ∧
      s.received conn = ((s.requests.lines conn).map line).flatMap (· ++ [LF]) ++
        (s.requests.inputBuffer conn).readable := by
  obtain ⟨ls, hmsgs, -, hreceived⟩ := h.received conn
  have hline : ∀ r ∈ s.requests.lines conn, r.msg = line r ++ [NUL] := by
    intro r hr
    have hmem : r.msg ∈ ls.map (· ++ [NUL]) := hmsgs ▸ List.mem_map_of_mem hr
    obtain ⟨l, -, hl⟩ := List.mem_map.mp hmem
    rw [line, ← hl, List.dropLast_concat]
  have hlines : (s.requests.lines conn).map line = ls := by
    have hdrop : List.dropLast ∘ (· ++ [NUL]) = id := funext fun l : Bytes => List.dropLast_concat
    calc (s.requests.lines conn).map line
        = ((s.requests.lines conn).map Request.msg).map List.dropLast := by rw [List.map_map]; rfl
      _ = (ls.map (· ++ [NUL])).map List.dropLast := congrArg _ hmsgs
      _ = ls := by rw [List.map_map, hdrop, List.map_id]
  exact ⟨hline, by rw [hlines]; exact hreceived⟩

/-- The requests whose replies were sent to the client. -/
def served (s : Exchange) (conn : ℕ) : List Request :=
  (s.requests.sent conn).map QueuedReply.request

theorem Inv.served_subperm (h : Inv threadNum answers s) (conn : ℕ) :
    (s.served conn).Subperm (s.requests.lines conn) := by
  have hnodup : (s.served conn).Nodup :=
    (h.answered.nodup conn).sublist ((List.sublist_append_left _ _).map _)
  refine hnodup.subperm fun r hr => ?_
  obtain ⟨reply, hreply, rfl⟩ := List.mem_map.mp hr
  obtain ⟨htaken, hconn⟩ := h.requests.sent conn reply hreply
  have hextracted := h.requests.accepted.subset (List.mem_append_left _ htaken)
  exact List.mem_filter.mpr ⟨hextracted, decide_eq_true hconn⟩

theorem Inv.served_sublist (h : Inv threadNum answers s) (hone : threadNum ≤ 1) (conn : ℕ) :
    (s.served conn).Sublist (s.requests.lines conn) :=
  h.requests.sent_sublist (h.inOrder hone)

/-- **The bytes that were written** to an open connection, and those that wait to be, are the frames of
answers. -/
theorem Inv.accepted_eq (h : Inv threadNum answers s)
    (hopen : s.requests.state conn = .kConnected) :
    ∃ rets, AnswersTo answers ((s.served conn).map line) rets ∧
      (s.outputs conn).accepted ++ (s.outputs conn).conn.outputBuffer.readable =
        rets.flatMap Server.replyMessage := by
  have hanswer : ∀ reply ∈ s.requests.sent conn, ∃ ret,
      answers (line reply.request ++ [NUL]) ret ∧ reply.message = Server.replyMessage ret := by
    intro reply hreply
    have hmem : reply.request ∈ s.requests.lines conn :=
      (h.served_subperm conn).subset (List.mem_map_of_mem hreply)
    rw [← (h.sockets.lines_eq conn).1 _ hmem]
    exact h.answered.message conn reply (List.mem_append_left _ hreply)
  obtain ⟨rets, hrets, hmessages⟩ : ∃ rets,
      AnswersTo answers ((s.served conn).map line) rets ∧
      (s.requests.sent conn).map QueuedReply.message = rets.map Server.replyMessage := by
    rw [served]
    generalize s.requests.sent conn = replies at hanswer
    induction replies with
    | nil => exact ⟨[], .nil, rfl⟩
    | cons reply replies ih =>
      obtain ⟨⟨ret, hret, hmessage⟩, hrest⟩ := List.forall_mem_cons.mp hanswer
      obtain ⟨rets, hrets, hmessages⟩ := ih hrest
      refine ⟨ret :: rets, .cons hret hrets, ?_⟩
      rw [List.map_cons, List.map_cons, hmessage, hmessages]
  refine ⟨rets, hrets, ?_⟩
  rw [(h.sockets.output conn hopen).bytes, h.sockets.messages, hmessages, List.flatMap_def]

theorem inv_of_run {getLoop : ℕ → ℕ} {queSize : ℤ} {tr : List (Exchange × Action)}
    (hrun : Run (step threadNum) (init getLoop queSize) tr t)
    (hreturns : ∀ p ∈ tr, p.1.Returns answers p.2) : Inv threadNum answers t :=
  (hrun.guarded (fun _ _ _ h hG hst => inv_step h hG hst) (inv_init getLoop queSize) hreturns).2

theorem Inv.written (h : Inv threadNum answers s) (hopen : s.requests.state conn = .kConnected) :
    ∃ ls ks rets : List Bytes,
      s.received conn = ls.flatMap (· ++ [LF]) ++ (s.requests.inputBuffer conn).readable ∧
      ks.Subperm ls ∧ (threadNum ≤ 1 → ks.Sublist ls) ∧ AnswersTo answers ks rets ∧
      (s.outputs conn).accepted <+: rets.flatMap Server.replyMessage := by
  obtain ⟨rs, hperm, hsub⟩ := h.served_subperm conn
  obtain ⟨rets, hrets, haccepted⟩ := h.accepted_eq hopen
  refine ⟨_, _, rets, (h.sockets.lines_eq conn).2, ⟨rs.map line, hperm.map line, hsub.map line⟩,
    fun hone => (h.served_sublist hone conn).map line, hrets, ?_⟩
  rw [← haccepted]
  exact List.prefix_append _ _

/-- **Each client gets answers to its own lines.** -/
theorem answers_to_own_lines {getLoop : ℕ → ℕ} {queSize : ℤ} {tr : List (Exchange × Action)}
    (hrun : Run (step threadNum) (init getLoop queSize) tr t)
    (hreturns : ∀ p ∈ tr, p.1.Returns answers p.2) (hopen : t.requests.state conn = .kConnected) :
    ∃ ls ks rets : List Bytes,
      t.received conn = ls.flatMap (· ++ [LF]) ++ (t.requests.inputBuffer conn).readable ∧
      ks.Subperm ls ∧ (threadNum ≤ 1 → ks.Sublist ls) ∧ AnswersTo answers ks rets ∧
      (t.outputs conn).accepted <+: rets.flatMap Server.replyMessage :=
  (inv_of_run hrun hreturns).written hopen

/-! ## Connections that are settled -/

/-- When there is nothing left to do, all lines that were not dropped have their replies. -/
theorem Inv.lines_subset_served (h : Inv threadNum answers s) (hnone : s.requests.NoneDropped)
    (hopen : s.requests.state conn = .kConnected) (hsettled : Settled threadNum s conn) :
    s.requests.lines conn ⊆ s.served conn := by
  intro r hr
  obtain ⟨hextracted, hconn⟩ := List.mem_filter.mp hr
  obtain rfl := of_decide_eq_true hconn
  have htaken : r ∈ s.requests.taken := by
    have haccepted := h.requests.noneDropped_iff.mp hnone r hextracted
    rwa [RequestSystem.accepted, hsettled.queue, List.append_nil] at haccepted
  have hreplies : s.requests.replies r.conn = s.requests.sent r.conn := by
    rw [RequestSystem.replies, hsettled.waiting, List.append_nil]
  rcases h.answered.taken r htaken hopen with ⟨w, hw⟩ | hreply
  · rw [hsettled.workers w (h.requests.worker w r hw).1] at hw
    cases hw
  · rwa [hreplies] at hreply

/-- What the client of an open connection that is settled has read. -/
theorem Inv.read (h : Inv threadNum answers s) (hnone : s.requests.NoneDropped)
    (hopen : s.requests.state conn = .kConnected) (hsettled : Settled threadNum s conn)
    (hfits : ∀ r ∈ s.requests.lines conn, ∀ ret, answers r.msg ret → Server.FitsInt ret) :
    ∃ ls ks rets : List Bytes,
      s.received conn = ls.flatMap (· ++ [LF]) ++ (s.requests.inputBuffer conn).readable ∧
      ks.Perm ls ∧ (threadNum ≤ 1 → ks = ls) ∧ AnswersTo answers ks rets ∧
      decodeAll Server.readReply (s.outputs conn).accepted = some rets := by
  have hsubset := h.lines_subset_served hnone hopen hsettled
  have horder : (s.requests.lines conn).Pairwise Request.Before :=
    h.requests.order.sublist List.filter_sublist
  have hnodup : (s.requests.lines conn).Nodup :=
    horder.imp fun {r r'} hlt heq => absurd (heq ▸ hlt) (Nat.lt_irrefl r'.number)
  have hperm : (s.served conn).Perm (s.requests.lines conn) :=
    (h.served_subperm conn).perm_of_length_le (hnodup.subperm hsubset).length_le
  obtain ⟨rets, hrets, haccepted⟩ := h.accepted_eq hopen
  rw [hsettled.buffer, List.append_nil] at haccepted
  refine ⟨_, _, rets, (h.sockets.lines_eq conn).2, hperm.map line, fun hone => ?_, hrets, ?_⟩
  · rw [(h.served_sublist hone conn).eq_of_length_le hperm.length_eq.ge]
  · rw [haccepted]
    refine Server.decodes_replyMessage.decodeAll_flatMap
      (fun a _ => Server.replyMessage_ne_nil a) fun ret hret => ?_
    obtain ⟨l, hl, hanswer⟩ := hrets.exists_line hret
    obtain ⟨r, hr, rfl⟩ := List.mem_map.mp hl
    have hmem := hperm.subset hr
    rw [← (h.sockets.lines_eq conn).1 r hmem] at hanswer
    exact hfits r hmem ret hanswer

/-- A step for which the queue has room drops no line. -/
theorem noneDropped_step {a : Action} (h : Inv threadNum answers s)
    (hnone : s.requests.NoneDropped) (hroom : s.HasRoom a) (hstep : step threadNum s a = some t) :
    t.requests.NoneDropped := by
  cases a with
  | server a result =>
    obtain ⟨u, -, hstep⟩ := Option.bind_eq_some_iff.mp hstep
    obtain ⟨requests, hrequests, ht⟩ := Option.bind_eq_some_iff.mp hstep
    obtain rfl := Option.some.inj ht
    exact (RequestSystem.noneDropped_step h.requests hnone hrequests).mpr hroom
  | handleWrite conn result =>
    obtain ⟨o, -, rfl⟩ := Option.map_eq_some_iff.mp (Option.ite_none_right_eq_some.mp hstep).2
    exact hnone

theorem noneDropped_init (getLoop : ℕ → ℕ) (queSize : ℤ) :
    (init getLoop queSize).requests.NoneDropped :=
  fun _ hr => absurd hr List.not_mem_nil

/-- A client sends two lines, and the second one in two parts. The first answer is written with a short
write, and the second one waits until the socket is ready. -/
def twoLines (doQuery : Bytes → Bytes) : List Action :=
  [.server (.connectEstablished 1) .error, .server (.handleRead 1 (lit "cat\nd")) .error,
    .server (.take 0) .error, .server (.handleRead 1 (lit "og\n")) .error,
    .server (.send 0 (doQuery (lit "cat" ++ [NUL]))) .error, .server (.queueInLoop 0) .error,
    .server (.take 0) .error, .server (.takeFunctors 0) .error, .server (.runFunctor 0) (.wrote 3),
    .server (.send 0 (doQuery (lit "dog" ++ [NUL]))) .error, .server (.dropFunctors 0) .error,
    .handleWrite 1 (.wrote 2), .server (.queueInLoop 0) .error, .server (.takeFunctors 0) .error,
    .server (.runFunctor 0) .error, .server (.dropFunctors 0) .error, .handleWrite 1 (.wrote 11)]

/-- An answer that looks like a frame. -/
def echo (msg : Bytes) : Bytes := lit "2\n" ++ msg

def Echoes (msg ret : Bytes) : Prop := ret = echo msg

instance (msg ret : Bytes) : Decidable (Echoes msg ret) :=
  inferInstanceAs (Decidable (ret = echo msg))

theorem exists_twoLines : ∃ t ∈ exec (step 1) (init (fun _ => 0) 5) (twoLines echo),
    t.requests.state 1 = .kConnected ∧ t.received 1 = lit "cat\ndog\n" ∧ t.requests.pool.queue = [] ∧
      (∀ w < 1, t.requests.workers w = .idle) ∧ t.requests.waiting 1 = [] ∧
      (t.outputs 1).conn.outputBuffer.readable = [] := by
  decide +kernel

theorem answers_to_own_lines_twoLines :
    ∃ t ∈ exec (step 1) (init (fun _ => 0) 5) (twoLines echo), ∃ ls ks rets : List Bytes,
      lit "cat\ndog\n" = ls.flatMap (· ++ [LF]) ++ (t.requests.inputBuffer 1).readable ∧
      ks.Subperm ls ∧ (1 ≤ 1 → ks.Sublist ls) ∧ AnswersTo Echoes ks rets ∧
      (t.outputs 1).accepted <+: rets.flatMap Server.replyMessage := by
  obtain ⟨t, ht, hopen, hreceived, -⟩ := exists_twoLines
  have hreturns : ∀ p ∈ trace (step 1) (init (fun _ => 0) 5) (twoLines echo),
      p.1.Returns Echoes p.2 := by decide +kernel
  exact ⟨t, ht, hreceived ▸ answers_to_own_lines (run_trace ht) hreturns hopen⟩

end Exchange

end SearchServer

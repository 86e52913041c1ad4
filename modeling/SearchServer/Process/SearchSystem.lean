import SearchServer.Process.CachedAnswers
import SearchServer.Process.Exchange

/-!
# The whole server

The workers of the pool run `WordQuery::doQuery`, and so share the cache with its thread, while the io
loops read the lines and write the answers. A worker that has taken a task reads the cache; it finishes
the call in a later step, and then it calls `send`.

* `Inv.exchange_step`, `Inv.doQuery_step`, `Inv.thread_step`: what the three kinds of steps keep.

**Theorem (`clients_get_answers`).** In every run the client of an open connection has been sent the
beginning of the frames of what `doQuery` gives for lines of its own without the cache, but for newlines
at the end, each line answered at most once. When the queue had room for every line and there is nothing
left to do, it reads back the answers to all of its lines that were extracted.
-/

namespace SearchServer

structure SearchSystem where
  exchange : Exchange
  service : Service

namespace SearchSystem

inductive Action where
  /-- A step of the connections, of the queue or of the io loops. -/
  | exchange (a : Exchange.Action)
  /-- The next step of `doQuery` in a worker. -/
  | doQuery (worker : ℕ)
  /-- A step of the cache thread. -/
  | thread (a : ThreadStep)

def init (getLoop : ℕ → ℕ) (queSize : ℤ) : SearchSystem := ⟨.init getLoop queSize, .init⟩

/-- `doQuery` returns in this step. -/
def isSend : Exchange.Action → Bool
  | .server (.send _ _) _ => true
  | _ => false

/-- The next step of a worker with this message. -/
def nextCall (s : SearchSystem) (worker : ℕ) (msg : Bytes) : Service.Action :=
  match s.service.workers worker with
  | .idle => .query worker msg
  | _ => .finish worker

variable {F : Type} [DoubleOps F]

/-- `doQuery` in a worker. When it has a reply, the worker calls `send`. -/
def doQuery (q : WordQuery F) (threadNum : ℕ) (s : SearchSystem) (worker : ℕ) :
    Option SearchSystem :=
  match s.exchange.requests.workers worker with
  | .working request => do
    let service ← s.service.step q (s.nextCall worker request.msg)
    match service.replies[s.service.replies.length]? with
    | none => return { s with service := service }
    | some reply =>
      let exchange ← s.exchange.step threadNum (.server (.send worker reply.answer) .error)
      return ⟨exchange, service⟩
  | _ => none

/-- One step. -/
def step (q : WordQuery F) (threadNum : ℕ) (s : SearchSystem) : Action → Option SearchSystem
  | .exchange a =>
    if isSend a then none
    else (s.exchange.step threadNum a).map fun exchange => { s with exchange := exchange }
  | .doQuery worker => s.doQuery q threadNum worker
  | .thread a => (s.service.step q (.thread a)).map fun service => { s with service := service }

/-- If the step extracts a line, the queue is below the limit. -/
def HasRoom (s : SearchSystem) : Action → Prop
  | .exchange a => s.exchange.HasRoom a
  | _ => True

instance (s : SearchSystem) (a : Action) : Decidable (s.HasRoom a) := by
  unfold HasRoom
  split <;> infer_instance

/-! ## The invariant -/

/-- What is to be kept. -/
structure Inv (q : WordQuery F) (threadNum : ℕ) (s : SearchSystem) : Prop where
  exchange : s.exchange.Inv threadNum q.MayReturn
  service : s.service.Serves q
  /-- A worker that is in `doQuery` has taken a task with that message. -/
  working : ∀ w str, (s.service.workers w).query = some str →
    ∃ request, s.exchange.requests.workers w = .working request ∧ request.msg = str

variable {q : WordQuery F} {threadNum : ℕ} {s t : SearchSystem} {conn : ℕ}

theorem inv_init (getLoop : ℕ → ℕ) (queSize : ℤ) : Inv q threadNum (init getLoop queSize) where
  exchange := Exchange.inv_init getLoop queSize
  service := Service.serves_init
  working := nofun

theorem doQuery_eq_some {w : ℕ} (h : s.doQuery q threadNum w = some t) :
    ∃ request service, s.exchange.requests.workers w = .working request ∧
      s.service.step q (s.nextCall w request.msg) = some service ∧
      ((service.replies[s.service.replies.length]? = none ∧ t = { s with service := service }) ∨
        ∃ reply exchange, service.replies[s.service.replies.length]? = some reply ∧
          s.exchange.step threadNum (.server (.send w reply.answer) .error) = some exchange ∧
          t = ⟨exchange, service⟩) := by
  unfold doQuery at h
  split at h
  · rename_i request hw
    obtain ⟨service, hservice, h⟩ := Option.bind_eq_some_iff.mp h
    refine ⟨request, service, hw, hservice, ?_⟩
    split at h
    · rename_i hnone
      exact Or.inl ⟨hnone, (Option.some.inj h).symm⟩
    · rename_i reply hreply
      obtain ⟨exchange, hexchange, h⟩ := Option.bind_eq_some_iff.mp h
      exact Or.inr ⟨reply, exchange, hreply, hexchange, (Option.some.inj h).symm⟩
  · cases h

/-- A worker in `doQuery` stays there until it returns. -/
theorem working_of_step {u v : RequestSystem} {a : RequestSystem.Action} {w : ℕ}
    {request : Request} (hw : u.workers w = .working request)
    (hsend : ∀ ret, a ≠ .send w ret) (hstep : u.step threadNum a = some v) :
    v.workers w = .working request := by
  have hupdate : ∀ {worker : ℕ} {x : PoolWorker}, w ≠ worker →
      (u.setWorker worker x).workers w = .working request := by
    intro worker x hne
    show Function.update u.workers worker x w = _
    rw [Function.update_of_ne hne, hw]
  cases a with
  | connectEstablished conn | handleClose conn =>
    obtain ⟨-, hstep⟩ := Option.ite_none_right_eq_some.mp hstep
    obtain rfl := Option.some.inj hstep
    exact hw
  | handleRead conn data =>
    obtain ⟨buf, ⟨-, rfl⟩ | ⟨msg, -, rfl⟩⟩ :=
      RequestSystem.handleRead_eq_some (Option.ite_none_right_eq_some.mp hstep).2
    · exact hw
    · exact hw
  | take worker =>
    have hidle : u.workers worker = .idle := (Option.ite_none_right_eq_some.mp hstep).1.2
    obtain ⟨-, r, pool, -, rfl⟩ := RequestSystem.take_eq_some hstep
    refine hupdate fun heq => ?_
    rw [← heq, hw] at hidle
    cases hidle
  | send worker ret =>
    obtain ⟨stage, -, rfl⟩ := RequestSystem.send_eq_some hstep
    exact hupdate fun heq => hsend ret (heq ▸ rfl)
  | queueInLoop worker =>
    obtain ⟨reply, hworker, rfl⟩ := RequestSystem.queueInLoop_eq_some hstep
    refine hupdate fun heq => ?_
    rw [← heq, hw] at hworker
    cases hworker
  | takeFunctors loop | runFunctor loop | dropFunctors loop =>
    obtain ⟨l, -, rfl⟩ := Option.map_eq_some_iff.mp hstep
    exact hw

/-- The same for the step of the server with its sockets. -/
theorem working_of_exchange {u v : Exchange} {a : Exchange.Action} {w : ℕ} {request : Request}
    (hw : u.requests.workers w = .working request)
    (hsend : ∀ ret result, a ≠ .server (.send w ret) result)
    (hstep : u.step threadNum a = some v) : v.requests.workers w = .working request := by
  cases a with
  | server a result =>
    obtain ⟨u', -, hstep⟩ := Option.bind_eq_some_iff.mp hstep
    obtain ⟨requests, hrequests, ht⟩ := Option.bind_eq_some_iff.mp hstep
    obtain rfl := Option.some.inj ht
    exact working_of_step hw (fun ret heq => hsend ret result (heq ▸ rfl)) hrequests
  | handleWrite conn result =>
    obtain ⟨o, -, rfl⟩ := Option.map_eq_some_iff.mp (Option.ite_none_right_eq_some.mp hstep).2
    exact hw

theorem Inv.exchange_step (h : s.Inv q threadNum) {a : Exchange.Action} (hsend : isSend a = false)
    {exchange : Exchange} (hstep : s.exchange.step threadNum a = some exchange) :
    Inv q threadNum { s with exchange := exchange } where
  exchange := by
    refine Exchange.inv_step h.exchange ?_ hstep
    cases a with
    | handleWrite conn result => trivial
    | server a result =>
      cases a with
      | send worker ret => cases hsend
      | _ => trivial
  service := h.service
  working := by
    intro w str hquery
    obtain ⟨request, hw, hmsg⟩ := h.working w str hquery
    refine ⟨request, working_of_exchange hw (fun ret result heq => ?_) hstep, hmsg⟩
    rw [heq] at hsend
    cases hsend

theorem Inv.thread_step (h : s.Inv q threadNum) {a : ThreadStep} {service : Service}
    (hstep : s.service.step q (.thread a) = some service) :
    Inv q threadNum { s with service := service } := by
  refine ⟨h.exchange, Service.serves_step h.service hstep, ?_⟩
  obtain ⟨cache, -, rfl⟩ := Option.map_eq_some_iff.mp hstep
  exact h.working

/-- A call that has not returned: the worker has read the cache. -/
def Reads (before after : Service) (w : ℕ) (msg : Bytes) : Prop :=
  after.replies = before.replies ∧ ∃ x : Worker, x.query = some msg ∧
    after.workers = Function.update before.workers w x

/-- A call that has returned. -/
def Replies (q : WordQuery F) (before after : Service) (w : ℕ) (msg : Bytes) : Prop :=
  ∃ r : Reply, after.replies = before.replies ++ [r] ∧ q.MayReturn msg r.answer ∧
    after.workers = Function.update before.workers w .idle

/-- **What `doQuery` does** in one step. -/
theorem Inv.next_spec (h : s.Inv q threadNum) {w : ℕ} {request : Request} {service : Service}
    (hw : s.exchange.requests.workers w = .working request)
    (hstep : s.service.step q (s.nextCall w request.msg) = some service) :
    Reads s.service service w request.msg ∨ Replies q s.service service w request.msg := by
  have hserves := Service.serves_step h.service hstep
  unfold nextCall at hstep
  split at hstep
  · rename_i hidle
    obtain ⟨-, ⟨hnil, rfl⟩ | ⟨-, ret, -, rfl⟩⟩ := Service.query_eq_some hstep
    · refine Or.inr ⟨_, rfl, ?_, ?_⟩
      · rw [hnil]
        exact q.mayReturn_nil
      · rw [← hidle, Function.update_eq_self]
    · refine Or.inl ⟨rfl, _, ?_, rfl⟩
      split_ifs <;> rfl
  · obtain ⟨r, hquery, rfl, -⟩ := Service.finish_eq_some hstep
    obtain ⟨request', hw', hmsg⟩ := h.working w r.query hquery
    obtain rfl := PoolWorker.working.inj (hw.symm.trans hw')
    refine Or.inr ⟨r, rfl, ?_, rfl⟩
    rw [hmsg]
    exact hserves.replies r (List.mem_append_right _ (List.mem_singleton_self r))

theorem Inv.doQuery_step (h : s.Inv q threadNum) {w : ℕ}
    (hstep : s.doQuery q threadNum w = some t) : t.Inv q threadNum := by
  obtain ⟨request, service, hw, hservice, hresult⟩ := doQuery_eq_some hstep
  have hserves := Service.serves_step h.service hservice
  rcases h.next_spec hw hservice with ⟨hreplies, x, hquery, hworkers⟩ |
    ⟨r, hreplies, hmay, hworkers⟩
  · rw [hreplies, List.getElem?_eq_none le_rfl] at hresult
    obtain ⟨-, rfl⟩ | ⟨reply, exchange, hreply, -⟩ := hresult
    · refine ⟨h.exchange, hserves, ?_⟩
      show ∀ v str, (service.workers v).query = some str → _
      rw [hworkers]
      apply (Function.forall_update_iff s.service.workers fun v x => ∀ str, x.query = some str →
        ∃ request, s.exchange.requests.workers v = .working request ∧ request.msg = str).mpr
      refine ⟨fun str hstr => ⟨request, hw, ?_⟩, fun v _ => h.working v⟩
      exact Option.some.inj (hquery.symm.trans hstr)
    · cases hreply
  · rw [hreplies, List.getElem?_concat_length] at hresult
    obtain ⟨hnone, -⟩ | ⟨reply, exchange, hreply, hexchange, rfl⟩ := hresult
    · cases hnone
    obtain rfl := Option.some.inj hreply
    refine ⟨Exchange.inv_step h.exchange ?_ hexchange, hserves, ?_⟩
    · show PoolWorker.Returns q.MayReturn r.answer (s.exchange.requests.workers w)
      rw [hw]
      exact hmay
    · show ∀ v str, (service.workers v).query = some str → _
      rw [hworkers]
      apply (Function.forall_update_iff s.service.workers fun v x => ∀ str, x.query = some str →
        ∃ request, exchange.requests.workers v = .working request ∧ request.msg = str).mpr
      refine ⟨nofun, fun v hv str hstr => ?_⟩
      obtain ⟨request, hworking, hmsg⟩ := h.working v str hstr
      refine ⟨request, working_of_exchange hworking (fun ret result heq => ?_) hexchange, hmsg⟩
      cases heq
      exact hv rfl

theorem inv_step {a : Action} (h : s.Inv q threadNum) (hstep : step q threadNum s a = some t) :
    t.Inv q threadNum := by
  cases a with
  | exchange a =>
    obtain ⟨hsend, hstep⟩ := Option.ite_none_left_eq_some.mp hstep
    obtain ⟨exchange, hexchange, rfl⟩ := Option.map_eq_some_iff.mp hstep
    exact h.exchange_step (Bool.eq_false_iff.mpr hsend) hexchange
  | doQuery worker => exact h.doQuery_step hstep
  | thread a =>
    obtain ⟨service, hservice, rfl⟩ := Option.map_eq_some_iff.mp hstep
    exact h.thread_step hservice

theorem inv_of_run {getLoop : ℕ → ℕ} {queSize : ℤ} {tr : List (SearchSystem × Action)}
    (hrun : Run (step q threadNum) (init getLoop queSize) tr t) : t.Inv q threadNum :=
  (hrun.invariant (fun _ _ _ h hst => inv_step h hst) (inv_init getLoop queSize)).2

/-! ## No line is dropped -/

theorem noneDropped_step {a : Action} (h : s.Inv q threadNum)
    (hnone : s.exchange.requests.NoneDropped) (hroom : s.HasRoom a)
    (hstep : step q threadNum s a = some t) : t.exchange.requests.NoneDropped := by
  cases a with
  | exchange a =>
    obtain ⟨-, hstep⟩ := Option.ite_none_left_eq_some.mp hstep
    obtain ⟨exchange, hexchange, rfl⟩ := Option.map_eq_some_iff.mp hstep
    exact Exchange.noneDropped_step h.exchange hnone hroom hexchange
  | doQuery worker =>
    obtain ⟨request, service, -, -, ⟨-, rfl⟩ | ⟨reply, exchange, -, hexchange, rfl⟩⟩ :=
      doQuery_eq_some hstep
    · exact hnone
    · have hsend : s.exchange.HasRoom (.server (.send worker reply.answer) .error) := trivial
      exact Exchange.noneDropped_step h.exchange hnone hsend hexchange
  | thread a =>
    obtain ⟨service, -, rfl⟩ := Option.map_eq_some_iff.mp hstep
    exact hnone

theorem noneDropped_of_run {getLoop : ℕ → ℕ} {queSize : ℤ} {tr : List (SearchSystem × Action)}
    (hrun : Run (step q threadNum) (init getLoop queSize) tr t)
    (hroom : ∀ p ∈ tr, p.1.HasRoom p.2) : t.exchange.requests.NoneDropped := by
  have hkeep : ∀ (s : SearchSystem) (a : Action) (t : SearchSystem),
      s.Inv q threadNum ∧ s.exchange.requests.NoneDropped → s.HasRoom a →
      step q threadNum s a = some t → t.Inv q threadNum ∧ t.exchange.requests.NoneDropped :=
    fun s a t h hroom hstep => ⟨inv_step h.1 hstep, noneDropped_step h.1 h.2 hroom hstep⟩
  exact (hrun.guarded hkeep
    ⟨inv_init getLoop queSize, Exchange.noneDropped_init getLoop queSize⟩ hroom).2.2

/-- The query whose answer `doQuery` computes in this step. -/
def computes (s : SearchSystem) : Action → Option Bytes
  | .doQuery worker =>
    match s.service.workers worker with
    | .miss str => some str
    | _ => none
  | _ => none

/-- Two servers that answer this query alike do the same in the step. -/
theorem step_congr {G : Type} [DoubleOps G] {q' : WordQuery G}
    (hnone : q.returnNoAnswer = q'.returnNoAnswer) {a : Action}
    (h : ∀ str ∈ s.computes a, (q.answer str).map Prod.fst = (q'.answer str).map Prod.fst) :
    step q threadNum s a = step q' threadNum s a := by
  cases a with
  | exchange a => rfl
  | thread a => rfl
  | doQuery worker =>
    have hservice : ∀ msg,
        s.service.step q (s.nextCall worker msg) = s.service.step q' (s.nextCall worker msg) := by
      refine fun msg => Service.step_congr hnone fun w str ha hw => h str ?_
      unfold nextCall at ha
      split at ha
      · cases ha
      · cases ha
        show (match s.service.workers worker with
          | .miss str => some str
          | _ => none) = some str
        rw [hw]
    simp only [step, doQuery, hservice]

/-- A client sends a line twice, with a round of the cache thread between the answers. -/
def sameLineTwice : List Action :=
  [.exchange (.server (.connectEstablished 1) .error),
    .exchange (.server (.handleRead 1 (lit "dog\n")) .error),
    .exchange (.server (.take 0) .error), .doQuery 0, .doQuery 0,
    .exchange (.server (.queueInLoop 0) .error), .thread .takeBatch, .thread .updateClone,
    .thread (.persist true), .thread .swapCaches, .thread .updateAgain,
    .exchange (.server (.handleRead 1 (lit "dog\n")) .error),
    .exchange (.server (.take 0) .error), .exchange (.server (.takeFunctors 0) .error),
    .exchange (.server (.runFunctor 0) (.wrote 5)), .doQuery 0,
    .exchange (.server (.dropFunctors 0) .error), .doQuery 0,
    .exchange (.server (.queueInLoop 0) .error), .exchange (.server (.takeFunctors 0) .error),
    .exchange (.server (.runFunctor 0) (.wrote 4)), .exchange (.server (.dropFunctors 0) .error)]

theorem exists_sameLineTwice :
    ∃ t ∈ exec (step WordQuery.sampleServer 1) (init (fun _ => 0) 5) sameLineTwice,
      t.exchange.requests.state 1 = .kConnected ∧ t.exchange.received 1 = lit "dog\ndog\n" ∧
      t.exchange.requests.pool.queue = [] ∧
      (∀ w < 1, t.exchange.requests.workers w = .idle) ∧ t.exchange.requests.waiting 1 = [] ∧
      (t.exchange.outputs 1).conn.outputBuffer.readable = [] := by
  decide +kernel

end SearchSystem

end SearchServer

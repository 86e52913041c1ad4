import SearchServer.Process.Requests

/-!
# Which lines are answered

Each request is with one worker, or among the replies of its connection, and never in two places.

**Theorem (`answered_step`).** Every reply is the one to its own request, no request has two replies,
and while a connection stays open, each of its requests that was taken is with a worker or has its
reply.

What `doQuery` may return for a message is a parameter here.
-/

namespace SearchServer

/-- A worker in `doQuery` gets what may be returned for its message. -/
def PoolWorker.Returns (answers : Bytes → Bytes → Prop) (ret : Bytes) : PoolWorker → Prop
  | .working request => answers request.msg ret
  | _ => True

instance (answers : Bytes → Bytes → Prop) [∀ msg ret, Decidable (answers msg ret)] (ret : Bytes) :
    (w : PoolWorker) → Decidable (w.Returns answers ret)
  | .working request => inferInstanceAs (Decidable (answers request.msg ret))
  | .idle | .queueing _ => instDecidableTrue

namespace RequestSystem

/-- If `doQuery` returns in this step, it returns what it may. -/
def Returns (answers : Bytes → Bytes → Prop) (s : RequestSystem) : Action → Prop
  | .send worker ret => (s.workers worker).Returns answers ret
  | _ => True

instance (answers : Bytes → Bytes → Prop) [∀ msg ret, Decidable (answers msg ret)]
    (s : RequestSystem) (a : Action) : Decidable (s.Returns answers a) := by
  unfold Returns
  split <;> infer_instance

/-- The reply to its own request. -/
def IsAnswer (answers : Bytes → Bytes → Prop) (reply : QueuedReply) : Prop :=
  ∃ ret, answers reply.request.msg ret ∧ reply.message = Server.replyMessage ret

/-- Where the requests are. -/
structure Answered (answers : Bytes → Bytes → Prop) (s : RequestSystem) : Prop where
  opened : ∀ r ∈ s.extracted, s.state r.conn ≠ .kConnecting
  message : ∀ conn, ∀ reply ∈ s.replies conn, IsAnswer answers reply
  queueing : ∀ w reply, s.workers w = .queueing reply → IsAnswer answers reply
  nodup : ∀ conn, ((s.replies conn).map QueuedReply.request).Nodup
  working : ∀ w r, (s.workers w).request = some r →
    ∀ reply ∈ s.replies r.conn, reply.request ≠ r
  taken : ∀ r ∈ s.taken, s.state r.conn = .kConnected →
    (∃ w, (s.workers w).request = some r) ∨ r ∈ (s.replies r.conn).map QueuedReply.request

variable {threadNum : ℕ} {answers : Bytes → Bytes → Prop}

theorem answered_init (getLoop : ℕ → ℕ) (queSize : ℤ) :
    Answered answers (init getLoop queSize) where
  opened := fun _ hr => absurd hr List.not_mem_nil
  message := fun _ _ h => absurd h List.not_mem_nil
  queueing := nofun
  nodup := fun _ => .nil
  working := nofun
  taken := fun _ hr => absurd hr List.not_mem_nil

section Step

variable {s t : RequestSystem} {conn : ℕ}

/-- A step that leaves the replies, the workers and the tasks taken as they are, and opens no
connection that has a task. -/
theorem Answered.of_same (h : Answered answers s)
    (hopened : ∀ r ∈ t.extracted, t.state r.conn ≠ .kConnecting)
    (hreplies : ∀ conn, t.replies conn = s.replies conn) (hworkers : t.workers = s.workers)
    (htaken : t.taken = s.taken)
    (hstate : ∀ r ∈ s.taken, t.state r.conn = .kConnected → s.state r.conn = .kConnected) :
    Answered answers t where
  opened := hopened
  message conn := hreplies conn ▸ h.message conn
  queueing := hworkers ▸ h.queueing
  nodup conn := hreplies conn ▸ h.nodup conn
  working w r hr reply hreply := h.working w r (hworkers ▸ hr) reply (hreplies r.conn ▸ hreply)
  taken := by
    intro r hr hconn
    rw [htaken] at hr
    rw [hworkers, hreplies]
    exact h.taken r hr (hstate r hr hconn)

theorem Answered.of_replies (h : Answered answers s)
    (hreplies : ∀ conn, t.replies conn = s.replies conn) (hextracted : t.extracted = s.extracted)
    (hworkers : t.workers = s.workers) (htaken : t.taken = s.taken) (hstate : t.state = s.state) :
    Answered answers t := by
  refine h.of_same ?_ hreplies hworkers htaken ?_
  · rw [hextracted, hstate]
    exact h.opened
  · intro r _
    rw [hstate]
    exact id

theorem Answered.handleRead (h : Answered answers s) {data : Bytes}
    (hconn : s.state conn = .kConnected) (hread : s.handleRead conn data = some t) :
    Answered answers t := by
  obtain ⟨buf, ⟨-, rfl⟩ | ⟨msg, -, rfl⟩⟩ := handleRead_eq_some hread
  · exact h.of_replies (fun _ => rfl) rfl rfl rfl rfl
  · refine h.of_same ?_ (fun _ => rfl) rfl rfl fun _ _ => id
    intro r hr
    rcases List.mem_append.mp hr with hr | hr
    · exact h.opened r hr
    · rw [List.mem_singleton.mp hr]
      show s.state conn ≠ .kConnecting
      rw [hconn]
      decide

theorem Answered.setState (h : Answered answers s) (hinv : Inv threadNum s) {state : StateE}
    (hstate : state = .kConnected → s.state conn = .kConnecting) (hnext : state ≠ .kConnecting) :
    Answered answers (s.setState conn state) := by
  have hupdate : ∀ c, (s.setState conn state).state c = if c = conn then state else s.state c :=
    fun c => Function.update_apply s.state conn state c
  refine h.of_same ?_ (fun _ => rfl) rfl rfl ?_
  · intro r hr
    rw [hupdate]
    split_ifs
    · exact hnext
    · exact h.opened r hr
  · intro r hr hconnected
    rw [hupdate] at hconnected
    split_ifs at hconnected with hconn
    · -- A connection that is opened has no tasks yet.
      have hextracted := hinv.accepted.subset (List.mem_append_left _ hr)
      exact absurd (hconn ▸ hstate hconnected) (h.opened r hextracted)
    · exact hconnected

theorem Answered.take (h : Answered answers s) (hinv : Inv threadNum s) {pool : ThreadPool Request}
    {r : Request} {worker : ℕ} (hidle : s.workers worker = .idle)
    (htake : s.pool.take = some (some r, pool)) :
    Answered answers
      ({ s with pool := pool, taken := s.taken ++ [r] }.setWorker worker (.working r)) where
  opened := h.opened
  message := h.message
  queueing := by
    intro w reply hreply
    by_cases hw : w = worker
    · subst hw
      simp [RequestSystem.setWorker] at hreply
    · simp only [RequestSystem.setWorker, Function.update_of_ne hw] at hreply
      exact h.queueing w reply hreply
  nodup := h.nodup
  working := by
    intro w r' hr' reply hreply heq
    rcases request_setWorker hr' with ⟨-, hstage⟩ | ⟨-, hold⟩
    · -- The request that is taken now was not taken before.
      obtain rfl := Option.some.inj hstage
      obtain ⟨queue, hqueue, -⟩ := ThreadPool.take_eq_some htake
      have hbefore := (List.pairwise_append.mp hinv.pairwise_accepted).2.2 _
        (hinv.request_mem_taken hreply) _ (hqueue ▸ List.mem_cons_self)
      rw [heq] at hbefore
      exact Nat.lt_irrefl _ hbefore
    · exact h.working w r' hold reply hreply heq
  taken := by
    intro r' hr' hconn
    rcases List.mem_append.mp hr' with hr' | hr'
    · rcases h.taken r' hr' hconn with ⟨w, hw⟩ | hreply
      · refine Or.inl ⟨w, ?_⟩
        have hne : w ≠ worker := by
          intro heq
          rw [heq, hidle] at hw
          cases hw
        simp only [RequestSystem.setWorker, Function.update_of_ne hne]
        exact hw
      · exact Or.inr hreply
    · rw [List.mem_singleton.mp hr']
      refine Or.inl ⟨worker, ?_⟩
      simp only [RequestSystem.setWorker, Function.update_self]
      rfl

theorem Answered.send (h : Answered answers s) {worker : ℕ} {ret : Bytes}
    (hreturns : s.Returns answers (.send worker ret))
    (hstep : step threadNum s (.send worker ret) = some t) : Answered answers t := by
  simp only [step] at hstep
  split at hstep
  · rename_i request hworker
    obtain rfl := Option.some.inj hstep
    have hret : answers request.msg ret := by
      rwa [Returns, hworker] at hreturns
    have hrequest : (s.workers worker).request = some request := by
      rw [hworker]
      rfl
    have hback : ∀ w r, ((s.setWorker worker (if s.state request.conn = .kConnected then
        .queueing ⟨request, Server.replyMessage ret⟩ else .idle)).workers w).request = some r →
        (s.workers w).request = some r := by
      intro w r hr
      rcases request_setWorker hr with ⟨rfl, hstage⟩ | ⟨-, hold⟩
      · split_ifs at hstage
        · rw [hrequest]
          exact hstage
        · cases hstage
      · exact hold
    refine ⟨h.opened, h.message, ?_, h.nodup, fun w r hr => h.working w r (hback w r hr), ?_⟩
    · intro w reply hreply
      by_cases hw : w = worker
      · subst hw
        simp only [RequestSystem.setWorker, Function.update_self] at hreply
        split_ifs at hreply
        obtain rfl := PoolWorker.queueing.inj hreply
        exact ⟨ret, hret, rfl⟩
      · simp only [RequestSystem.setWorker, Function.update_of_ne hw] at hreply
        exact h.queueing w reply hreply
    · intro r hr hconn
      rcases h.taken r hr hconn with ⟨w, hw⟩ | hreply
      · refine Or.inl ⟨w, ?_⟩
        by_cases heq : w = worker
        · -- The worker of an open connection keeps the request.
          subst heq
          obtain rfl := Option.some.inj (hrequest.symm.trans hw)
          have hopen : s.state request.conn = .kConnected := hconn
          simp only [RequestSystem.setWorker, Function.update_self, if_pos hopen]
          rfl
        · simp only [RequestSystem.setWorker, Function.update_of_ne heq]
          exact hw
      · exact Or.inr hreply
  · cases hstep

theorem Answered.queueInLoop (h : Answered answers s) (hinv : Inv threadNum s) {worker : ℕ}
    {reply : QueuedReply} (hworker : s.workers worker = .queueing reply) :
    Answered answers ((s.setWorker worker .idle).queueInLoop reply) := by
  have hrequest := request_queueing hworker
  have hreplies : ∀ conn, ((s.setWorker worker .idle).queueInLoop reply).replies conn =
      s.replies conn ++ [reply].filter (·.request.conn = conn) :=
    fun conn => replies_queueInLoop (s := s.setWorker worker .idle) reply
  refine ⟨h.opened, ?_, ?_, ?_, ?_, ?_⟩
  · intro conn first hfirst
    rw [hreplies] at hfirst
    rcases List.mem_append.mp hfirst with hfirst | hfirst
    · exact h.message conn first hfirst
    · rw [List.mem_singleton.mp (List.mem_of_mem_filter hfirst)]
      exact h.queueing worker reply hworker
  · intro w first hfirst
    by_cases hw : w = worker
    · subst hw
      simp [RequestSystem.queueInLoop, RequestSystem.setLoop, RequestSystem.setWorker] at hfirst
    · simp only [RequestSystem.queueInLoop, RequestSystem.setLoop, RequestSystem.setWorker,
        Function.update_of_ne hw] at hfirst
      exact h.queueing w first hfirst
  · intro conn
    rw [hreplies, List.map_append, List.nodup_append]
    refine ⟨h.nodup conn, ?_, ?_⟩
    · exact (List.nodup_singleton reply.request).sublist
        (List.filter_sublist.map QueuedReply.request)
    · intro r hr r' hr' heq
      obtain ⟨first, hfirst, rfl⟩ := List.mem_map.mp hr
      obtain ⟨last, hlast, rfl⟩ := List.mem_map.mp hr'
      obtain ⟨hmem, hconn⟩ := List.mem_filter.mp hlast
      obtain rfl := List.mem_singleton.mp hmem
      obtain rfl := of_decide_eq_true hconn
      exact h.working worker _ hrequest first hfirst heq
  · intro w r hr last hlast
    rcases request_setWorker hr with ⟨-, hstage⟩ | ⟨hne, hold⟩
    · cases hstage
    rw [hreplies] at hlast
    rcases List.mem_append.mp hlast with hlast | hlast
    · exact h.working w r hold last hlast
    · rw [List.mem_singleton.mp (List.mem_of_mem_filter hlast)]
      intro heq
      exact hne (hinv.distinct w worker r hold (heq ▸ hrequest))
  · intro r hr hconn
    rw [hreplies, List.map_append]
    rcases h.taken r hr hconn with ⟨w, hw⟩ | hreply
    · by_cases heq : w = worker
      · subst heq
        obtain rfl := Option.some.inj (hrequest.symm.trans hw)
        refine Or.inr (List.mem_append_right _ (List.mem_map_of_mem ?_))
        exact List.mem_filter.mpr ⟨List.mem_singleton_self _, decide_eq_true rfl⟩
      · refine Or.inl ⟨w, ?_⟩
        simp only [RequestSystem.queueInLoop, RequestSystem.setLoop, RequestSystem.setWorker,
          Function.update_of_ne heq]
        exact hw
    · exact Or.inr (List.mem_append_left _ hreply)

/-- **One step** keeps where the requests are. -/
theorem answered_step {a : Action} (hinv : Inv threadNum s) (h : Answered answers s)
    (hreturns : s.Returns answers a) (hstep : step threadNum s a = some t) :
    Answered answers t := by
  cases a with
  | connectEstablished conn =>
    obtain ⟨hconn, hstep⟩ := Option.ite_none_right_eq_some.mp hstep
    exact Option.some.inj hstep ▸ h.setState hinv (fun _ => hconn) (by decide)
  | handleRead conn data =>
    obtain ⟨⟨-, hconn⟩, hread⟩ := Option.ite_none_right_eq_some.mp hstep
    exact h.handleRead hconn hread
  | handleClose conn =>
    obtain ⟨-, hstep⟩ := Option.ite_none_right_eq_some.mp hstep
    exact Option.some.inj hstep ▸ h.setState hinv nofun (by decide)
  | take worker =>
    have hidle : s.workers worker = .idle := (Option.ite_none_right_eq_some.mp hstep).1.2
    obtain ⟨-, r, pool, htake, rfl⟩ := take_eq_some hstep
    exact h.take hinv hidle htake
  | send worker ret => exact h.send hreturns hstep
  | queueInLoop worker =>
    obtain ⟨reply, hworker, rfl⟩ := queueInLoop_eq_some hstep
    exact h.queueInLoop hinv hworker
  | takeFunctors loop =>
    obtain ⟨l, hl, rfl⟩ := Option.map_eq_some_iff.mp hstep
    exact h.of_replies (fun _ => replies_setLoop (Loop.waiting_take hl)) rfl rfl rfl rfl
  | runFunctor loop =>
    obtain ⟨⟨reply, l⟩, hl, rfl⟩ := Option.map_eq_some_iff.mp hstep
    have hloop := (hinv.loop loop reply (Loop.mem_held_of_next hl)).2
    exact h.of_replies (fun _ => replies_sendInLoop hl hloop) rfl rfl rfl rfl
  | dropFunctors loop =>
    obtain ⟨l, hl, rfl⟩ := Option.map_eq_some_iff.mp hstep
    exact h.of_replies (fun _ => replies_setLoop (Loop.waiting_drop hl)) rfl rfl rfl rfl

end Step

end RequestSystem

end SearchServer

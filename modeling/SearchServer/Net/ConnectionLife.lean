import SearchServer.Lib.Runs
import SearchServer.Net.TcpServer

/-!
# The life of a connection

**Theorem (`life_of_connection`).** As long as fewer than `2 ^ 31` connections have been accepted, the
events of each connection are a beginning of its `life`: it is put into the map, where no entry has
its name; it is established in its io loop; it is erased from the map, which removes one entry; and
it is destroyed in its io loop, while its channel is not one that the loop has still to handle. An
accepted connection has been established once, or `connectEstablished` is queued once.

**Theorem (`reportedRegistered_of_run`).** A loop handles only channels that are in its poller.

Each connection is at a stage of its life (`At`), and a step moves at most one connection to a later
stage. The functor that waits tells the stage: when `connectDestroyed` runs, the connection has been
erased from the map, and the loop has handled all channels of the iteration.
-/

namespace SearchServer

namespace TcpServer

section Step

variable {s t u : TcpServer} {conn : ℕ}

/-! ## The invariant -/

/-- The connection is at this stage. -/
def At (s : TcpServer) (conn : ℕ) (l : Life) : Prop :=
  (l = .unborn ↔ s.accepted ≤ conn) ∧ s.view conn = l.view conn (s.getLoop conn)

structure Inv (s : TcpServer) : Prop where
  named : s.Named
  life : ∀ conn, ∃ l, s.At conn l

/-- The invariant, without this connection. -/
structure InvExcept (conn : ℕ) (s : TcpServer) : Prop where
  named : s.Named
  life : ∀ other, other ≠ conn → ∃ l, s.At other l

theorem inv_init (name : Bytes) (numThreads : ℕ) : Inv (init name numThreads) where
  named := named_init name numThreads
  life := by
    intro conn
    refine ⟨.unborn, iff_of_true rfl (Nat.zero_le conn), ?_⟩
    simp [TcpServer.view, init, Life.view, Loop.waiting]

theorem At.accepted {l : Life} (h : s.At conn l) (hl : l ≠ .unborn) : conn < s.accepted :=
  Nat.lt_of_not_le fun hle => hl (h.1.mpr hle)

theorem Concerns.at {other : ℕ} {l : Life} (hc : Concerns conn s t) (hne : other ≠ conn)
    (h : s.At other l) : t.At other l := by
  refine ⟨?_, ?_⟩
  · rw [hc.accepted]
    exact h.1
  · rw [hc.view other hne, hc.getLoop]
    exact h.2

/-- A step that concerns one connection, which is at a stage of its life afterwards. -/
theorem InvExcept.inv {l : Life} (h : InvExcept conn s) (hconn : conn < s.accepted)
    (hr : Reaches conn s t l) (hl : l ≠ .unborn) : Inv t where
  named := hr.1.named h.named
  life := by
    intro other
    by_cases heq : other = conn
    · subst heq
      refine ⟨l, ?_, ?_⟩
      · rw [hr.1.accepted]
        exact iff_of_false hl (Nat.not_le.mpr hconn)
      · rw [hr.1.getLoop]
        exact hr.2
    · obtain ⟨l', hl'⟩ := h.life other heq
      exact ⟨l', hr.1.at heq hl'⟩

theorem Concerns.except (hc : Concerns conn s t) (h : Inv s) : InvExcept conn t where
  named := hc.named h.named
  life := by
    intro other hne
    obtain ⟨l, hl⟩ := h.life other
    exact ⟨l, hc.at hne hl⟩

/-- A step that no connection sees. -/
theorem Inv.of_same (h : Inv s) (hc : Concerns conn s t) (hview : t.view conn = s.view conn) :
    Inv t where
  named := hc.named h.named
  life := by
    intro other
    obtain ⟨l, hl⟩ := h.life other
    by_cases heq : other = conn
    · subst heq
      refine ⟨l, ?_, ?_⟩
      · rw [hc.accepted]
        exact hl.1
      · rw [hview, hc.getLoop]
        exact hl.2
    · exact ⟨l, hc.at heq hl⟩

theorem Inv.setLoop (h : Inv s) {loop : ℕ} {l : ServerLoop}
    (hl : ∀ other, l.waiting.filter (·.subject = some other) =
      (s.loops loop).waiting.filter (·.subject = some other)) : Inv (s.setLoop loop l) := by
  have hconcerns : Concerns 0 s (s.setLoop loop l) := concerns_setLoop fun other _ => hl other
  exact h.of_same hconcerns (view_setLoop_same (hl 0))

/-- A functor that is about no connection is queued. -/
theorem Inv.queueInLoop (h : Inv s) {loop : ℕ} {f : ServerFunctor} (hf : f.subject = none) :
    Inv (s.queueInLoop loop f) := by
  refine h.setLoop fun other => ?_
  show ((s.loops loop).toLoop.queueInLoop f).waiting.filter _ = _
  rw [filter_queueInLoop, hf, if_neg (by simp), List.append_nil]

/-! ## The steps -/

/-- The next functor of a loop leaves it. -/
def pop (s : TcpServer) (loop : ℕ) (l : Loop ServerFunctor) : TcpServer :=
  s.setLoop loop { s.loops loop with toLoop := l }

theorem concerns_pop {loop : ℕ} {f : ServerFunctor} {l : Loop ServerFunctor}
    (hl : (s.loops loop).toLoop.next = some (f, l)) (hf : f.subject = some conn) :
    Concerns conn s (s.pop loop l) := by
  apply concerns_setLoop
  intro other hne
  exact filter_next hl fun heq => hne (Option.some.inj (heq.symm.trans hf))

theorem view_pop {loop : ℕ} {f : ServerFunctor} {l : Loop ServerFunctor}
    (hl : (s.loops loop).toLoop.next = some (f, l)) (hf : f.subject = some conn) :
    ∃ fs, (s.view conn).waiting loop = f :: fs ∧ (s.pop loop l).view conn =
      { s.view conn with waiting := Function.update (s.view conn).waiting loop fs } := by
  refine ⟨l.waiting.filter (·.subject = some conn), ?_, ?_⟩
  · show (s.loops loop).waiting.filter (·.subject = some conn) = _
    rw [Loop.waiting_next hl, List.filter_cons_of_pos (by simpa using hf)]
  · exact view_setLoop loop _ conn

theorem only_eq_cons {loop loop' : ℕ} {f g : ServerFunctor} {fs : List ServerFunctor}
    (h : only loop f loop' = g :: fs) : loop' = loop ∧ g = f ∧ fs = [] := by
  by_cases heq : loop' = loop
  · subst heq
    rw [only, Function.update_self] at h
    obtain ⟨hf, hfs⟩ := List.cons.inj h
    exact ⟨rfl, hf.symm, hfs.symm⟩
  · rw [only, Function.update_of_ne heq] at h
    cases h

theorem update_only (loop : ℕ) (f : ServerFunctor) :
    Function.update (only loop f) loop [] = fun _ => [] := by
  rw [only, Function.update_idem]
  exact Function.update_eq_self loop _

/-- The stage of a connection when a functor about it runs, and what is left of it. -/
theorem At.next {life : Life} {loop : ℕ} {f : ServerFunctor} {l : Loop ServerFunctor}
    (h : s.At conn life) (hl : (s.loops loop).toLoop.next = some (f, l))
    (hf : f.subject = some conn) :
    (s.pop loop l).view conn = (life.view conn (s.getLoop conn)).quiet ∧
      ((life = .connecting ∧ loop = s.getLoop conn ∧ f = .connectEstablished conn) ∨
        (life = .removing ∧ f = .removeConnectionInLoop conn) ∨
        (life = .removed ∧ loop = s.getLoop conn ∧ f = .connectDestroyed conn)) := by
  obtain ⟨fs, hwaiting, hview⟩ := view_pop hl hf
  rw [h.2] at hwaiting hview
  rw [hview]
  cases life with
  | unborn => cases hwaiting
  | connecting =>
    obtain ⟨rfl, rfl, rfl⟩ := only_eq_cons hwaiting
    refine ⟨?_, Or.inl ⟨rfl, rfl, rfl⟩⟩
    simp only [Life.view, ConnView.quiet, update_only]
  | connected => cases hwaiting
  | removing =>
    obtain ⟨rfl, rfl, rfl⟩ := only_eq_cons hwaiting
    refine ⟨?_, Or.inr (Or.inl ⟨rfl, rfl⟩)⟩
    simp only [Life.view, ConnView.quiet, update_only]
  | removed =>
    obtain ⟨rfl, rfl, rfl⟩ := only_eq_cons hwaiting
    refine ⟨?_, Or.inr (Or.inr ⟨rfl, rfl, rfl⟩)⟩
    simp only [Life.view, ConnView.quiet, update_only]
  | destroyed => cases hwaiting

/-- A connection in the state `kConnected` is at that stage. -/
theorem At.connected {life : Life} (h : s.At conn life) (hstate : s.state conn = .kConnected) :
    life = .connected := by
  have hview : (life.view conn (s.getLoop conn)).state = .kConnected := by
    rw [← h.2]
    exact hstate
  cases life with
  | connected => rfl
  | _ => cases hview

/-- **A close.** -/
theorem Inv.handleClose (h : Inv s) (thread : ℕ) (hstate : s.state conn = .kConnected) :
    Inv (s.handleClose thread conn) := by
  obtain ⟨life, hlife⟩ := h.life conn
  obtain rfl := hlife.connected hstate
  have hconn : conn < s.accepted := hlife.accepted (by simp)
  have hexcept : InvExcept conn s := ⟨h.named, fun other _ => h.life other⟩
  rcases handleClose_reaches thread (fun other hne => h.named.connName_ne hconn hne) hlife.2 with
    hr | hr
  · exact hexcept.inv hconn hr (by simp)
  · exact hexcept.inv hconn hr (by simp)

/-- A functor that is about no connection leaves its loop. -/
theorem Inv.pop (h : Inv s) {loop : ℕ} {f : ServerFunctor} {l : Loop ServerFunctor}
    (hl : (s.loops loop).toLoop.next = some (f, l)) (hf : f.subject = none) :
    Inv (s.pop loop l) := by
  apply h.setLoop
  intro other
  exact filter_next hl (by simp [hf])

/-- **A functor runs.** -/
theorem Inv.runFunctor (h : Inv s) {loop : ℕ} {f : ServerFunctor} {l : Loop ServerFunctor}
    (hphase : (s.loops loop).phase = .running)
    (hl : (s.loops loop).toLoop.next = some (f, l)) : Inv ((s.pop loop l).run loop f) := by
  cases f with
  | other => exact h.pop hl rfl
  | forceCloseInLoop conn =>
    have hpop : Inv (s.pop loop l) := h.pop hl rfl
    simp only [run]
    split_ifs with hstate
    · exact hpop.handleClose loop hstate
    · exact hpop
  | connectEstablished conn =>
    have hconcerns : Concerns conn s (s.pop loop l) := concerns_pop hl rfl
    obtain ⟨life, hlife⟩ := h.life conn
    obtain ⟨hview, hcases⟩ := hlife.next hl rfl
    rcases hcases with ⟨rfl, rfl, -⟩ | ⟨-, hf⟩ | ⟨-, -, hf⟩
    · exact (hconcerns.except h).inv (hlife.accepted (by simp)) (connectEstablished_reaches hview)
        (by simp)
    · cases hf
    · cases hf
  | removeConnectionInLoop conn =>
    have hconcerns : Concerns conn s (s.pop loop l) := concerns_pop hl rfl
    obtain ⟨life, hlife⟩ := h.life conn
    obtain ⟨hview, hcases⟩ := hlife.next hl rfl
    rcases hcases with ⟨-, -, hf⟩ | ⟨rfl, -⟩ | ⟨-, -, hf⟩
    · cases hf
    · have hconn : conn < s.accepted := hlife.accepted (by simp)
      exact (hconcerns.except h).inv hconn
        (removeConnectionInLoop_reaches (fun other hne => h.named.connName_ne hconn hne) hview)
        (by simp)
    · cases hf
  | connectDestroyed conn =>
    have hconcerns : Concerns conn s (s.pop loop l) := concerns_pop hl rfl
    obtain ⟨life, hlife⟩ := h.life conn
    obtain ⟨hview, hcases⟩ := hlife.next hl rfl
    rcases hcases with ⟨-, -, hf⟩ | ⟨-, hf⟩ | ⟨rfl, rfl, -⟩
    · cases hf
    · cases hf
    · -- The loop has handled all its channels.
      have hreported : ((s.pop (s.getLoop conn) l).loops (s.getLoop conn)).phase.reported = [] := by
        simp only [TcpServer.pop, TcpServer.setLoop, Function.update_self, hphase]
        rfl
      refine (hconcerns.except h).inv (hlife.accepted (by simp))
        (connectDestroyed_reaches hview fun hmem => ?_) (by simp)
      change PolledChannel.conn conn ∈
        ((s.pop (s.getLoop conn) l).loops (s.getLoop conn)).phase.reported at hmem
      rw [hreported] at hmem
      cases hmem

/-- The other connections do not see a new one. -/
theorem at_addConnection (h : Inv s) (hfew : s.accepted + 1 < 2 ^ 31) {other : ℕ}
    (hne : other ≠ s.accepted) {life : Life} (hlife : s.At other life) :
    s.addConnection.At other life := by
  refine ⟨?_, ?_⟩
  · rw [hlife.1]
    show s.accepted ≤ other ↔ s.accepted + 1 ≤ other
    omega
  · have hname : compare (nameOf s.name s.nextConnId) (s.connName other) ≠ .eq :=
      fun heq => h.named.connName_ne_next hfew other (Std.LawfulEqCmp.eq_of_compare heq).symm
    have hevent : [ServerEvent.newConnection s.accepted
        s.connections[nameOf s.name s.nextConnId]?].filter (·.conn = other) = [] := by
      simp [ServerEvent.conn, hne.symm]
    have hview : s.addConnection.view other = s.view other := by
      simp only [TcpServer.view, addConnection, Function.update_of_ne hne,
        Std.TreeMap.getElem?_insert, hname, if_false, List.filter_append, hevent, List.append_nil]
    have hloop : s.addConnection.getLoop other = s.getLoop other := Function.update_of_ne hne _ _
    rw [hview, hloop, hlife.2]

/-- The new connection has its own entry in the map. -/
theorem view_addConnection (h : Inv s) (hfew : s.accepted + 1 < 2 ^ 31) :
    s.addConnection.view s.accepted =
      (Life.connecting.view s.accepted (s.addConnection.getLoop s.accepted)).quiet := by
  obtain ⟨life, hborn, hview⟩ := h.life s.accepted
  obtain rfl := hborn.mpr le_rfl
  have hregistered : s.registered s.accepted = false := congrArg ConnView.registered hview
  have hwaiting : (fun loop => (s.loops loop).waiting.filter (·.subject = some s.accepted)) =
      fun _ => [] := congrArg ConnView.waiting hview
  have hevents : s.log.filter (·.conn = s.accepted) = [] := congrArg ConnView.events hview
  have hevent : [ServerEvent.newConnection s.accepted none].filter (·.conn = s.accepted) =
      [.newConnection s.accepted none] := by simp [ServerEvent.conn]
  simp only [TcpServer.view, addConnection, Function.update_self, Std.TreeMap.getElem?_insert_self,
    h.named.next_not_mem hfew, List.filter_append, hregistered, hwaiting, hevents, hevent]
  rfl

theorem named_addConnection (h : s.Named) (hfew : s.accepted + 1 < 2 ^ 31) :
    s.addConnection.Named where
  nextConnId := by
    show wrapInt (s.nextConnId + 1) = wrapInt (s.accepted + 1 + 1 : ℕ)
    rw [h.nextConnId, wrapInt_natCast hfew]
    rfl
  connName := by
    intro other
    show Function.update s.connName s.accepted (nameOf s.name s.nextConnId) other =
      if other < s.accepted + 1 then nameOf s.name (other + 1 : ℕ) else []
    by_cases heq : other = s.accepted
    · rw [heq, Function.update_self, if_pos (Nat.lt_succ_self _), h.nextConnId,
        wrapInt_natCast hfew]
    · rw [Function.update_of_ne heq, h.connName]
      exact if_congr (by omega) rfl rfl
  entry := by
    intro key conn hentry
    simp only [addConnection, Std.TreeMap.getElem?_insert] at hentry
    split_ifs at hentry with hkey
    · obtain rfl := Option.some.inj hentry
      refine ⟨Nat.lt_succ_self _, ?_⟩
      rw [← Std.LawfulEqCmp.eq_of_compare hkey]
      exact Function.update_self _ _ _
    · obtain ⟨hlt, hname⟩ := h.entry key conn hentry
      refine ⟨Nat.lt_succ_of_lt hlt, ?_⟩
      show Function.update s.connName s.accepted _ conn = key
      rw [Function.update_of_ne (Nat.ne_of_lt hlt), hname]

/-- **A new connection.** -/
theorem Inv.newConnection (h : Inv s) (hfew : s.accepted + 1 < 2 ^ 31) : Inv s.newConnection := by
  have hexcept : InvExcept s.accepted s.addConnection := by
    refine ⟨named_addConnection h.named hfew, fun other hne => ?_⟩
    obtain ⟨life, hlife⟩ := h.life other
    exact ⟨life, at_addConnection h hfew hne hlife⟩
  have hview := view_addConnection h hfew
  have hloop : s.addConnection.getLoop s.accepted = s.getNextLoop.1 := Function.update_self _ _ _
  have hconn : s.accepted < s.addConnection.accepted := Nat.lt_succ_self _
  unfold TcpServer.newConnection runInLoop
  rw [← hloop]
  split_ifs
  · exact hexcept.inv hconn (connectEstablished_reaches hview) (by simp)
  · have hqueued : Reaches s.accepted s.addConnection (s.addConnection.queueInLoop
        (s.addConnection.getLoop s.accepted) (.connectEstablished s.accepted)) .connecting :=
      ⟨concerns_queueInLoop rfl, view_queueInLoop_quiet hview rfl⟩
    exact hexcept.inv hconn hqueued (by simp)

theorem accepted_newConnection : s.newConnection.accepted = s.accepted + 1 := by
  unfold newConnection runInLoop
  split_ifs
  · rfl
  · rfl

theorem accepted_handleClose (thread : ℕ) : (s.handleClose thread conn).accepted = s.accepted := by
  unfold handleClose removeConnection runInLoop
  split_ifs
  · rfl
  · rfl

/-- What the handler of a channel does. -/
theorem handle_eq_some {loop : ℕ} {channel : PolledChannel} (h : s.handle loop channel = some t) :
    t = s.newConnection ∨
      ∃ conn, s.state conn = .kConnected ∧ t = s.handleClose loop conn := by
  cases channel with
  | acceptor => exact Or.inl (Option.some.inj h).symm
  | conn conn =>
    obtain ⟨hstate, h⟩ := Option.ite_none_right_eq_some.mp h
    exact Or.inr ⟨conn, hstate, (Option.some.inj h).symm⟩
  | other => cases h

theorem accepted_run {loop : ℕ} (f : ServerFunctor) : (s.run loop f).accepted = s.accepted := by
  cases f with
  | connectEstablished conn => rfl
  | removeConnectionInLoop conn => rfl
  | connectDestroyed conn =>
    simp only [run, connectDestroyed]
    split_ifs
    · rfl
    · rfl
  | forceCloseInLoop conn =>
    simp only [run]
    split_ifs
    · exact accepted_handleClose loop
    · rfl
  | other => rfl

/-- What each action does. -/
theorem handleEvent_eq_some {loop : ℕ} {effective : Bool}
    (h : s.step (.handleEvent loop effective) = some t) :
    ∃ channel active, (s.loops loop).phase = .handling (channel :: active) ∧
      let u := s.setLoop loop { s.loops loop with phase := .handling active }
      t = u ∨ u.handle loop channel = some t := by
  simp only [step] at h
  split at h
  · rename_i channel active hphase
    refine ⟨channel, active, hphase, ?_⟩
    split_ifs at h
    · exact Or.inr h
    · exact Or.inl (Option.some.inj h).symm
  · cases h

theorem runFunctor_eq_some {loop : ℕ} (h : s.step (.runFunctor loop) = some t) :
    (s.loops loop).phase = .running ∧ ∃ f l, (s.loops loop).toLoop.next = some (f, l) ∧
      t = (s.pop loop l).run loop f := by
  obtain ⟨hphase, h⟩ := Option.ite_none_right_eq_some.mp h
  obtain ⟨⟨f, l⟩, hl, rfl⟩ := Option.map_eq_some_iff.mp h
  exact ⟨hphase, f, l, hl, rfl⟩

theorem accepted_le {a : Action} (hstep : s.step a = some t) : s.accepted ≤ t.accepted := by
  cases a with
  | poll loop active =>
    obtain ⟨-, hstep⟩ := Option.ite_none_right_eq_some.mp hstep
    exact Option.some.inj hstep ▸ le_rfl
  | handleEvent loop effective =>
    obtain ⟨channel, active, -, rfl | hhandle⟩ := handleEvent_eq_some hstep
    · exact le_rfl
    · rcases handle_eq_some hhandle with rfl | ⟨conn, -, rfl⟩
      · rw [accepted_newConnection]
        exact Nat.le_succ _
      · rw [accepted_handleClose]
        exact le_rfl
  | forceClose conn =>
    obtain ⟨-, hstep⟩ := Option.ite_none_right_eq_some.mp hstep
    exact Option.some.inj hstep ▸ le_rfl
  | queueOther loop => exact Option.some.inj hstep ▸ le_rfl
  | takeFunctors loop | dropFunctors loop =>
    obtain ⟨-, hstep⟩ := Option.ite_none_right_eq_some.mp hstep
    obtain ⟨l, -, rfl⟩ := Option.map_eq_some_iff.mp hstep
    exact le_rfl
  | runFunctor loop =>
    obtain ⟨-, f, l, -, rfl⟩ := runFunctor_eq_some hstep
    rw [accepted_run]
    exact le_rfl

theorem inv_step {a : Action} (h : Inv s) (hfew : t.accepted < 2 ^ 31)
    (hstep : s.step a = some t) : Inv t := by
  cases a with
  | poll loop active =>
    obtain ⟨-, hstep⟩ := Option.ite_none_right_eq_some.mp hstep
    exact Option.some.inj hstep ▸ h.setLoop fun _ => rfl
  | handleEvent loop effective =>
    obtain ⟨channel, active, -, hcases⟩ := handleEvent_eq_some hstep
    have hpopped : Inv (s.setLoop loop { s.loops loop with phase := .handling active }) :=
      h.setLoop fun _ => rfl
    rcases hcases with rfl | hhandle
    · exact hpopped
    · rcases handle_eq_some hhandle with rfl | ⟨conn, hstate, rfl⟩
      · rw [accepted_newConnection] at hfew
        exact hpopped.newConnection hfew
      · exact hpopped.handleClose loop hstate
  | forceClose conn =>
    obtain ⟨-, hstep⟩ := Option.ite_none_right_eq_some.mp hstep
    exact Option.some.inj hstep ▸ h.queueInLoop rfl
  | queueOther loop => exact Option.some.inj hstep ▸ h.queueInLoop rfl
  | takeFunctors loop =>
    obtain ⟨-, hstep⟩ := Option.ite_none_right_eq_some.mp hstep
    obtain ⟨l, hl, rfl⟩ := Option.map_eq_some_iff.mp hstep
    exact h.setLoop fun other => congrArg _ (Loop.waiting_take hl)
  | runFunctor loop =>
    obtain ⟨hphase, f, l, hl, rfl⟩ := runFunctor_eq_some hstep
    exact h.runFunctor hphase hl
  | dropFunctors loop =>
    obtain ⟨-, hstep⟩ := Option.ite_none_right_eq_some.mp hstep
    obtain ⟨l, hl, rfl⟩ := Option.map_eq_some_iff.mp hstep
    exact h.setLoop fun other => congrArg _ (Loop.waiting_drop hl)

/-! ## The life of a connection -/

theorem At.events {l : Life} (h : s.At conn l) :
    s.log.filter (·.conn = conn) <+: life conn (s.getLoop conn) := by
  have hevents : s.log.filter (·.conn = conn) = (l.view conn (s.getLoop conn)).events :=
    congrArg ConnView.events h.2
  rw [hevents]
  cases l with
  | unborn => exact List.nil_prefix
  | connecting => exact List.take_prefix _ _
  | connected => exact List.take_prefix _ _
  | removing => exact List.take_prefix _ _
  | removed => exact List.take_prefix _ _
  | destroyed => exact List.take_prefix _ _

/-- An accepted connection has been established once, or will be. -/
theorem At.established {l : Life} (h : s.At conn l) (hconn : conn < s.accepted) :
    s.log.count (.connectEstablished conn (s.getLoop conn)) +
      (s.loops (s.getLoop conn)).waiting.count (.connectEstablished conn) = 1 := by
  have hevents : s.log.filter (·.conn = conn) = (l.view conn (s.getLoop conn)).events :=
    congrArg ConnView.events h.2
  have hwaiting : (s.loops (s.getLoop conn)).waiting.filter (·.subject = some conn) =
      (l.view conn (s.getLoop conn)).waiting (s.getLoop conn) :=
    congrFun (congrArg ConnView.waiting h.2) _
  have hlog : s.log.count (.connectEstablished conn (s.getLoop conn)) =
      (l.view conn (s.getLoop conn)).events.count (.connectEstablished conn (s.getLoop conn)) := by
    rw [← hevents, List.count_filter (by simp [ServerEvent.conn])]
  have hloop : (s.loops (s.getLoop conn)).waiting.count (.connectEstablished conn) =
      ((l.view conn (s.getLoop conn)).waiting (s.getLoop conn)).count (.connectEstablished conn) := by
    rw [← hwaiting, List.count_filter (by simp [ServerFunctor.subject])]
  rw [hlog, hloop]
  cases l with
  | unborn => exact absurd (h.1.mp rfl) (Nat.not_le.mpr hconn)
  | connecting => simp [Life.view, life, only]
  | connected => simp [Life.view, life]
  | removing => by_cases hzero : s.getLoop conn = 0 <;> simp [Life.view, life, only, hzero]
  | removed => simp [Life.view, life, only]
  | destroyed => simp [Life.view, life]

end Step

/-- **The life of a connection.** In a run in which fewer than `2 ^ 31` connections have been
accepted, what has happened to a connection is a beginning of its life, and a connection that has
been accepted has been established once, or `connectEstablished` is queued once in its loop. -/
theorem life_of_connection {name : Bytes} {numThreads : ℕ} {t : TcpServer}
    {tr : List (TcpServer × Action)} (hrun : Run step (init name numThreads) tr t)
    (hfew : t.accepted < 2 ^ 31) (conn : ℕ) :
    t.log.filter (·.conn = conn) <+: life conn (t.getLoop conn) ∧
      (conn < t.accepted → t.log.count (.connectEstablished conn (t.getLoop conn)) +
        (t.loops (t.getLoop conn)).waiting.count (.connectEstablished conn) = 1) := by
  have hinv : t.accepted < 2 ^ 31 → Inv t :=
    (hrun.invariant (P := fun s => s.accepted < 2 ^ 31 → Inv s)
      (fun s a u h hst hfew => inv_step (h (Nat.lt_of_le_of_lt (accepted_le hst) hfew)) hfew hst)
      fun _ => inv_init name numThreads).2
  obtain ⟨l, hl⟩ := (hinv hfew).life conn
  exact ⟨hl.events, hl.established⟩

/-- A connection is accepted, established in the io loop, closed by its client, erased in the base
loop and destroyed in the io loop. -/
def oneClient : List Action :=
  [.poll 0 [.acceptor], .handleEvent 0 true, .poll 1 [], .takeFunctors 1, .runFunctor 1,
    .dropFunctors 1, .poll 1 [.conn 0], .handleEvent 1 true, .takeFunctors 0, .runFunctor 0,
    .takeFunctors 1, .runFunctor 1]

theorem life_of_connection_oneClient :
    ∃ t, exec step (init (lit "server") 1) oneClient = some t ∧ t.log = life 0 1 ∧
      t.log.filter (·.conn = 0) <+: life 0 (t.getLoop 0) ∧
      t.log.count (.connectEstablished 0 (t.getLoop 0)) +
        (t.loops (t.getLoop 0)).waiting.count (.connectEstablished 0) = 1 := by
  have hend : ∃ t ∈ exec step (init (lit "server") 1) oneClient,
      t.log = life 0 1 ∧ t.accepted = 1 := by decide +kernel
  obtain ⟨t, ht, hlog, haccepted⟩ := hend
  obtain ⟨hevents, honce⟩ := life_of_connection (run_trace ht) (by omega) 0
  exact ⟨t, ht, hlog, hevents, honce (by omega)⟩

/-! ## Channels that are to be handled -/

section Reported

variable {s t u : TcpServer} {conn : ℕ}

/-- The channels of connections that are to be handled are in the poller. -/
def ReportedRegistered (s : TcpServer) : Prop :=
  ∀ loop conn, .conn conn ∈ (s.loops loop).phase.reported → s.Reportable loop (.conn conn)

/-- The step adds no channel to those to be handled, and takes none out of a poller. -/
structure KeepsChannels (s t : TcpServer) : Prop where
  reported : ∀ loop, (t.loops loop).phase.reported ⊆ (s.loops loop).phase.reported
  registered : ∀ loop conn, s.Reportable loop (.conn conn) → t.Reportable loop (.conn conn)

theorem KeepsChannels.trans (h : KeepsChannels s t) (h' : KeepsChannels t u) :
    KeepsChannels s u where
  reported loop := List.Subset.trans (h'.reported loop) (h.reported loop)
  registered loop conn hs := h'.registered loop conn (h.registered loop conn hs)

theorem ReportedRegistered.of_keeps (h : s.ReportedRegistered) (hk : KeepsChannels s t) :
    t.ReportedRegistered :=
  fun loop conn hmem => hk.registered loop conn (h loop conn (hk.reported loop hmem))

theorem keeps_setLoop {loop : ℕ} {l : ServerLoop}
    (hl : l.phase.reported ⊆ (s.loops loop).phase.reported) : KeepsChannels s (s.setLoop loop l) where
  reported := by
    intro loop'
    by_cases heq : loop' = loop
    · subst heq
      simp only [setLoop, Function.update_self]
      exact hl
    · simp only [setLoop, Function.update_of_ne heq]
      exact List.Subset.refl _
  registered := fun _ _ => id

theorem keeps_queueInLoop (loop : ℕ) (f : ServerFunctor) :
    KeepsChannels s (s.queueInLoop loop f) :=
  keeps_setLoop (List.Subset.refl _)

theorem keeps_removeConnectionInLoop : KeepsChannels s (s.removeConnectionInLoop conn) := by
  have hqueue : KeepsChannels s (s.queueInLoop (s.getLoop conn) (.connectDestroyed conn)) :=
    keeps_queueInLoop _ _
  exact ⟨hqueue.reported, hqueue.registered⟩

theorem keeps_handleClose (thread : ℕ) : KeepsChannels s (s.handleClose thread conn) := by
  have hstate : KeepsChannels s (s.setState conn .kDisconnected) :=
    ⟨fun _ => List.Subset.refl _, fun _ _ => id⟩
  unfold handleClose removeConnection runInLoop
  split_ifs
  · exact hstate.trans keeps_removeConnectionInLoop
  · exact hstate.trans (keeps_queueInLoop _ _)

theorem keeps_connectEstablished (loop : ℕ) : KeepsChannels s (s.connectEstablished loop conn) where
  reported := fun _ => List.Subset.refl _
  registered := by
    intro loop' other hs
    refine ⟨hs.1, ?_⟩
    show Function.update s.registered conn true other = true
    by_cases heq : other = conn
    · rw [heq, Function.update_self]
    · rw [Function.update_of_ne heq]
      exact hs.2

theorem keeps_newConnection (h : Inv s) : KeepsChannels s s.newConnection := by
  have hadd : KeepsChannels s s.addConnection := by
    refine ⟨fun _ => List.Subset.refl _, fun loop other hs => ⟨?_, hs.2⟩⟩
    -- The new connection is in no poller.
    have hne : other ≠ s.accepted := by
      rintro rfl
      obtain ⟨life, hborn, hview⟩ := h.life s.accepted
      obtain rfl := hborn.mpr le_rfl
      have hregistered : s.registered s.accepted = false := congrArg ConnView.registered hview
      exact absurd (hregistered.symm.trans hs.2) (by decide)
    show Function.update s.getLoop s.accepted _ other = loop
    rw [Function.update_of_ne hne]
    exact hs.1
  unfold newConnection runInLoop
  split_ifs
  · exact hadd.trans (keeps_connectEstablished _)
  · exact hadd.trans (keeps_queueInLoop _ _)

theorem connectDestroyed_fields (s : TcpServer) (loop conn : ℕ) :
    (s.connectDestroyed loop conn).loops = s.loops ∧
      (s.connectDestroyed loop conn).getLoop = s.getLoop ∧
      (s.connectDestroyed loop conn).registered = Function.update s.registered conn false := by
  simp only [connectDestroyed]
  split_ifs
  · exact ⟨rfl, rfl, rfl⟩
  · exact ⟨rfl, rfl, rfl⟩

/-- A connection is destroyed when its loop has no channel to handle. -/
theorem ReportedRegistered.connectDestroyed (h : s.ReportedRegistered)
    (hreported : (s.loops (s.getLoop conn)).phase.reported = []) (loop : ℕ) :
    (s.connectDestroyed loop conn).ReportedRegistered := by
  obtain ⟨hloops, hgetLoop, hregistered⟩ := connectDestroyed_fields s loop conn
  intro loop' other hmem
  rw [hloops] at hmem
  obtain ⟨hloop, hother⟩ := h loop' other hmem
  have hne : other ≠ conn := by
    rintro rfl
    rw [hloop] at hreported
    rw [hreported] at hmem
    cases hmem
  refine ⟨?_, ?_⟩
  · rw [hgetLoop]
    exact hloop
  · rw [hregistered, Function.update_of_ne hne]
    exact hother

theorem ReportedRegistered.runFunctor (h : s.ReportedRegistered) (hinv : Inv s) {loop : ℕ}
    {f : ServerFunctor} {l : Loop ServerFunctor} (hphase : (s.loops loop).phase = .running)
    (hl : (s.loops loop).toLoop.next = some (f, l)) :
    ((s.pop loop l).run loop f).ReportedRegistered := by
  have hpop : KeepsChannels s (s.pop loop l) := keeps_setLoop (List.Subset.refl _)
  cases f with
  | connectEstablished conn => exact h.of_keeps (hpop.trans (keeps_connectEstablished loop))
  | removeConnectionInLoop conn => exact h.of_keeps (hpop.trans keeps_removeConnectionInLoop)
  | connectDestroyed conn =>
    refine (h.of_keeps hpop).connectDestroyed ?_ loop
    obtain ⟨life, hlife⟩ := hinv.life conn
    rcases (hlife.next hl rfl).2 with ⟨-, -, hf⟩ | ⟨-, hf⟩ | ⟨-, rfl, -⟩
    · cases hf
    · cases hf
    · simp only [pop, setLoop, Function.update_self, hphase]
      rfl
  | forceCloseInLoop conn =>
    simp only [run]
    split_ifs
    · exact h.of_keeps (hpop.trans (keeps_handleClose loop))
    · exact h.of_keeps hpop
  | other => exact h.of_keeps hpop

theorem reportedRegistered_step {a : Action} (h : s.ReportedRegistered) (hinv : Inv s)
    (hstep : s.step a = some t) : t.ReportedRegistered := by
  cases a with
  | poll loop active =>
    obtain ⟨⟨-, hactive⟩, hstep⟩ := Option.ite_none_right_eq_some.mp hstep
    obtain rfl := Option.some.inj hstep
    intro loop' conn hmem
    by_cases heq : loop' = loop
    · subst heq
      simp only [setLoop, Function.update_self] at hmem
      exact hactive _ hmem
    · simp only [setLoop, Function.update_of_ne heq] at hmem
      exact h loop' conn hmem
  | handleEvent loop effective =>
    obtain ⟨channel, active, hphase, hcases⟩ := handleEvent_eq_some hstep
    have hpopped : KeepsChannels s
        (s.setLoop loop { s.loops loop with phase := .handling active }) := by
      refine keeps_setLoop ?_
      rw [hphase]
      exact List.subset_cons_self channel active
    have hinv' : Inv (s.setLoop loop { s.loops loop with phase := .handling active }) :=
      hinv.setLoop fun _ => rfl
    rcases hcases with rfl | hhandle
    · exact h.of_keeps hpopped
    · rcases handle_eq_some hhandle with rfl | ⟨conn, -, rfl⟩
      · exact h.of_keeps (hpopped.trans (keeps_newConnection hinv'))
      · exact h.of_keeps (hpopped.trans (keeps_handleClose loop))
  | forceClose conn =>
    obtain ⟨-, hstep⟩ := Option.ite_none_right_eq_some.mp hstep
    exact Option.some.inj hstep ▸ h.of_keeps (keeps_queueInLoop _ _)
  | queueOther loop => exact Option.some.inj hstep ▸ h.of_keeps (keeps_queueInLoop _ _)
  | takeFunctors loop | dropFunctors loop =>
    obtain ⟨-, hstep⟩ := Option.ite_none_right_eq_some.mp hstep
    obtain ⟨l, -, rfl⟩ := Option.map_eq_some_iff.mp hstep
    exact h.of_keeps (keeps_setLoop (List.nil_subset _))
  | runFunctor loop =>
    obtain ⟨hphase, f, l, hl, rfl⟩ := runFunctor_eq_some hstep
    exact h.runFunctor hinv hphase hl

/-- A loop handles only channels that are in its poller. -/
theorem reportedRegistered_of_run {name : Bytes} {numThreads : ℕ} {t : TcpServer}
    {tr : List (TcpServer × Action)} (hrun : Run step (init name numThreads) tr t)
    (hfew : t.accepted < 2 ^ 31) : t.ReportedRegistered := by
  have hboth := (hrun.invariant
    (P := fun s => s.accepted < 2 ^ 31 → Inv s ∧ s.ReportedRegistered)
    (fun s a u h hst hfew => by
      obtain ⟨hinv, hreg⟩ := h (Nat.lt_of_le_of_lt (accepted_le hst) hfew)
      exact ⟨inv_step hinv hfew hst, reportedRegistered_step hreg hinv hst⟩)
    fun _ => ⟨inv_init name numThreads, fun _ _ hmem => absurd hmem List.not_mem_nil⟩).2
  exact (hboth hfew).2

end Reported

end TcpServer

end SearchServer

import SearchServer.Lib.Runs
import SearchServer.Net.Poller
import SearchServer.Net.Registration

/-!
# The two pollers

A `Channel` tells its poller about every change of its events. Here each operation is done with a
`Poller` and with an `EPoller`, on two copies of the channels, and the question is whether `poll` and
epoll then watch the same.

They differ in one case. `Poller::updateChannel` negates the descriptor of an entry whose channel has
no events left, and never undoes it: a channel that gets events again stays ignored. `EPoller` adds
such a channel to the kernel's table again.

* `Inv`: the state, over all operations. In both pollers exactly the channels in use are registered,
  and the two copies of a channel have the same events.
* `agree_iff`: in a state with `Inv` the two watch the same exactly when no channel with events is
  ignored by `poll`.
* `agree_iff_of_run`: they watch the same throughout a run exactly when no step of it gives events to
  a channel in use that has none.
-/

namespace SearchServer

/-- The pairs of a descriptor and a mask, not zero, that `poll` watches. -/
def Poller.watched (p : Poller) : Set (ℤ × BitVec 32) :=
  {x | ∃ pfd ∈ p.pollfds, 0 ≤ pfd.fd ∧ x = (pfd.fd, pfd.events.setWidth 32) ∧ x.2 ≠ 0}

/-- The pairs of a descriptor and a mask, not zero, that epoll watches. -/
def EPoller.watched (p : EPoller) : Set (ℤ × BitVec 32) :=
  {x | ∃ fd : ℕ, x.1 = fd ∧ p.registered[fd]? = some x.2 ∧ x.2 ≠ 0}

/-- The operations of a `Channel` that change its events. -/
inductive Change
  | enableReading
  | enableWriting
  | disableWriting
  | disableAll
deriving DecidableEq

def Change.mask : Change → BitVec 32 → BitVec 32
  | .enableReading, events => events ||| kReadEvent
  | .enableWriting, events => events ||| kWriteEvent
  | .disableWriting, events => events &&& ~~~kWriteEvent
  | .disableAll, _ => kNoneEvent

/-- What has been done with a channel. -/
inductive Use
  | fresh
  | active
  | removed
deriving DecidableEq

/-- An operation on the channel at an address. -/
inductive PollAction
  | change (op : Change) (c : ℕ)
  | removeChannel (c : ℕ)

namespace Poller

/-- The channels in use are the registered ones, and a fresh one has no index yet. -/
structure Tracks (fd : ℕ → ℕ) (p : Poller) (chan : ℕ → PollChannel) (use : ℕ → Use) : Prop where
  active_iff : ∀ c, use c = .active ↔ p.Registered fd c
  fresh : ∀ c, use c = .fresh → (chan c).index < 0

variable {fd : ℕ → ℕ} {p p' : Poller} {chan chan' : ℕ → PollChannel} {use : ℕ → Use} {c : ℕ}
  {m : BitVec 32}

theorem tracks_init (fd : ℕ → ℕ) : Tracks fd {} (fun c => .init (fd c)) fun _ => .fresh where
  active_iff c := by simp [Registered]
  fresh c _ := by simp [PollChannel.init]

theorem Tracks.not_registered (h : Tracks fd p chan use) (hc : use c = .fresh) :
    ¬ p.Registered fd c := by
  rw [← h.active_iff, hc]
  exact Use.noConfusion

theorem Tracks.updated (h : Tracks fd p chan use) (hup : Updated fd p chan c m p' chan') :
    Tracks fd p' chan' (Function.update use c .active) := by
  refine ⟨fun d => ?_, fun d hd => ?_⟩
  · rw [hup.registered_iff, ← h.active_iff]
    by_cases hd : d = c
    · rw [hd, Function.update_self]
      exact iff_of_true rfl (.inl rfl)
    · rw [Function.update_of_ne hd, or_iff_right hd]
  · by_cases hdc : d = c
    · rw [hdc, Function.update_self] at hd
      cases hd
    · rw [Function.update_of_ne hdc] at hd
      rw [hup.index_eq d hdc]
      exact h.fresh d hd

theorem Tracks.removed (h : Tracks fd p chan use) (hrem : Removed fd p chan c p' chan') :
    Tracks fd p' chan' (Function.update use c .removed) := by
  refine ⟨fun d => ?_, fun d hd => ?_⟩
  · rw [hrem.registered_iff, ← h.active_iff]
    by_cases hd : d = c
    · rw [hd, Function.update_self]
      exact iff_of_false (by simp) fun hboth => hboth.1 rfl
    · rw [Function.update_of_ne hd, and_iff_right hd]
  · by_cases hdc : d = c
    · rw [hdc, Function.update_self] at hd
      cases hd
    · rw [Function.update_of_ne hdc] at hd
      rw [hrem.index_eq d (h.not_registered hd)]
      exact h.fresh d hd

end Poller

structure Pollers where
  poller : Poller
  polled : ℕ → PollChannel
  epoller : EPoller
  epolled : ℕ → Channel
  use : ℕ → Use

namespace Pollers

/-- No channel is registered. `fd c` is the descriptor of the channel at address `c`. -/
def init (fd : ℕ → ℕ) : Pollers where
  poller := {}
  polled c := .init (fd c)
  epoller := ⟨∅, ∅⟩
  epolled c := .init c (fd c)
  use _ := .fresh

/-- How the callers use a channel: the first operation gives it events, it is removed when it has
none, and nothing is done with it after that. -/
def permitted (s : Pollers) : PollAction → Bool
  | .change op c => match s.use c with
    | .fresh => op.mask (s.polled c).events ≠ kNoneEvent
    | .active => true
    | .removed => false
  | .removeChannel c => s.use c = .active && (s.polled c).isNoneEvent

/-- The operation with both pollers. -/
def step (s : Pollers) (a : PollAction) : Option Pollers :=
  if s.permitted a then
    match a with
    | .change op c => do
      let (poller, polled) ←
        s.poller.updateChannel (Poller.setEvents s.polled c (op.mask (s.polled c).events)) c
      let (epoller, channel) ←
        s.epoller.updateChannel { s.epolled c with events := op.mask (s.epolled c).events }
      some ⟨poller, polled, epoller, Function.update s.epolled c channel,
        Function.update s.use c .active⟩
    | .removeChannel c => do
      let (poller, polled) ← s.poller.removeChannel s.polled c
      let (epoller, channel) ← s.epoller.removeChannel (s.epolled c)
      some ⟨poller, polled, epoller, Function.update s.epolled c channel,
        Function.update s.use c .removed⟩
  else none

def Agree (s : Pollers) : Prop := s.poller.watched = s.epoller.watched

/-- The operation gives events to a channel in use that has none. -/
def Revives (s : Pollers) : PollAction → Prop
  | .change op c =>
    s.use c = .active ∧ (s.polled c).events = 0 ∧ op.mask (s.polled c).events ≠ 0
  | .removeChannel _ => False

/-! ## Masks -/

/-- The masks that the operations make. `struct pollfd` has 16 bits for one. -/
def IsMask (m : BitVec 32) : Prop :=
  m = 0 ∨ m = kReadEvent ∨ m = kWriteEvent ∨ m = kReadEvent ||| kWriteEvent

theorem isMask_change (op : Change) {m : BitVec 32} (h : IsMask m) : IsMask (op.mask m) := by
  cases op <;> rcases h with rfl | rfl | rfl | rfl <;> unfold IsMask <;> decide

theorem setWidth_of_isMask {m : BitVec 32} (h : IsMask m) :
    (m.setWidth 16).setWidth 32 = m := by
  rcases h with rfl | rfl | rfl | rfl <;> decide

/-! ## The invariant -/

structure Inv (fd : ℕ → ℕ) (s : Pollers) : Prop where
  polled : Poller.Wf fd s.poller s.polled
  epolled : EPoller.Wf fd s.epoller s.epolled
  active_iff : ∀ c, s.use c = .active ↔ s.poller.Registered fd c
  known_iff : ∀ c, s.use c = .active ↔ (s.epolled c).index ≠ .kNew
  fresh : ∀ c, s.use c = .fresh → (s.polled c).index < 0
  events_eq : ∀ c, (s.epolled c).events = (s.polled c).events
  mask : ∀ c, IsMask (s.polled c).events

variable {fd : ℕ → ℕ} {s t : Pollers} {c : ℕ}

theorem inv_init (fd : ℕ → ℕ) : Inv fd (init fd) where
  polled := Poller.wf_init
  epolled := EPoller.wf_init
  active_iff := (Poller.tracks_init fd).active_iff
  known_iff c := by simp [init, Channel.init]
  fresh := (Poller.tracks_init fd).fresh
  events_eq c := rfl
  mask c := .inl rfl

theorem Inv.tracks (h : Inv fd s) : Poller.Tracks fd s.poller s.polled s.use :=
  ⟨h.active_iff, h.fresh⟩

/-- `poll` does not ignore the entry of the channel. -/
def Shown (fd : ℕ → ℕ) (s : Pollers) (c : ℕ) : Prop :=
  ∃ pfd, s.poller.entryOf s.polled c = some pfd ∧ pfd.fd = fd c

theorem mem_poller_watched (h : Inv fd s) (x : ℤ × BitVec 32) : x ∈ s.poller.watched ↔
    ∃ c, s.use c = .active ∧ (s.polled c).events ≠ 0 ∧ Shown fd s c ∧
      x = ((fd c : ℤ), (s.polled c).events) := by
  constructor
  · rintro ⟨pfd, hmem, hfd, hx, hne⟩
    obtain ⟨i, hi, hget⟩ := List.getElem_of_mem hmem
    obtain ⟨c, hc, hindex⟩ := h.polled.owner i hi
    obtain ⟨pfd', hentry, hfor⟩ := h.polled.entry c hc
    have heq : pfd' = pfd := by
      rw [Poller.entryOf, hindex, if_neg (by omega), Int.toNat_natCast,
        List.getElem?_eq_getElem hi, hget] at hentry
      exact (Option.some.inj hentry).symm
    subst heq
    have hshown : pfd'.fd = fd c := by
      rw [← h.polled.fd_eq]
      rcases hfor.fd_eq with hsame | hneg
      · exact hsame
      · omega
    rw [hfor.events_eq, setWidth_of_isMask (h.mask c), hshown] at hx
    exact ⟨c, (h.active_iff c).mpr hc, by rwa [hx] at hne, ⟨pfd', hentry, hshown⟩, hx⟩
  · rintro ⟨c, hc, hne, ⟨pfd, hentry, hshown⟩, hx⟩
    obtain ⟨pfd', hentry', hfor⟩ := h.polled.entry c ((h.active_iff c).mp hc)
    rw [hentry, Option.some.injEq] at hentry'
    subst hentry'
    obtain ⟨i, -, hget⟩ := Poller.entryOf_eq_some_iff.mp hentry
    refine ⟨pfd, List.mem_of_getElem? hget, by omega, ?_, by rwa [hx]⟩
    rw [hfor.events_eq, setWidth_of_isMask (h.mask c), hshown, hx]

theorem mem_epoller_watched (h : Inv fd s) (x : ℤ × BitVec 32) : x ∈ s.epoller.watched ↔
    ∃ c, s.use c = .active ∧ (s.polled c).events ≠ 0 ∧
      x = ((fd c : ℤ), (s.polled c).events) := by
  constructor
  · rintro ⟨k, hk, hget, hne⟩
    obtain ⟨c, hc, hindex, hevents⟩ := (h.epolled.registered_iff _ _).mp hget
    rw [h.events_eq] at hevents
    refine ⟨c, (h.known_iff c).mpr (by simp [hindex]), by rwa [hevents], ?_⟩
    exact Prod.ext (by rw [hk, hc]) hevents.symm
  · rintro ⟨c, hc, hne, hx⟩
    refine ⟨fd c, by rw [hx], (h.epolled.registered_iff _ _).mpr ⟨c, rfl, ?_, ?_⟩, by rwa [hx]⟩
    · -- A deleted channel has no events.
      cases hindex : (s.epolled c).index with
      | kNew => exact absurd hindex ((h.known_iff c).mp hc)
      | kAdded => rfl
      | kDeleted => exact absurd (by rw [← h.events_eq, h.epolled.deleted c hindex]) hne
    · rw [h.events_eq, hx]

theorem agree_iff (hinj : Function.Injective fd) (h : Inv fd s) :
    s.Agree ↔ ∀ c, s.use c = .active → (s.polled c).events ≠ 0 → Shown fd s c := by
  constructor
  · intro hagree c hc hne
    have hmem : ((fd c : ℤ), (s.polled c).events) ∈ s.poller.watched := by
      rw [hagree]
      exact (mem_epoller_watched h _).mpr ⟨c, hc, hne, rfl⟩
    obtain ⟨d, -, -, hshown, heq⟩ := (mem_poller_watched h _).mp hmem
    rwa [hinj (by exact_mod_cast (Prod.mk.inj heq).1 : fd c = fd d)]
  · intro hshown
    apply Set.ext
    intro x
    rw [mem_poller_watched h, mem_epoller_watched h]
    apply exists_congr
    intro c
    apply and_congr_right
    intro hc
    apply and_congr_right
    intro hne
    rw [and_iff_right (hshown c hc hne)]

/-- `poll` ignores the entry of a channel without events. -/
theorem not_shown_of_none (h : Inv fd s) (hc : s.use c = .active) (hnone : (s.polled c).events = 0) :
    ¬ Shown fd s c := by
  rintro ⟨pfd, hentry, hshown⟩
  obtain ⟨pfd', hentry', hfor⟩ := h.polled.entry c ((h.active_iff c).mp hc)
  rw [hentry, Option.some.injEq] at hentry'
  subst hentry'
  have hneg := hfor.ignored (decide_eq_true hnone)
  rw [h.polled.fd_eq] at hneg
  omega

/-! ## A channel changes its events -/

/-- What a change of the events of the channel at `c`, to `m`, does. -/
structure Changed (fd : ℕ → ℕ) (s : Pollers) (c : ℕ) (m : BitVec 32) (t : Pollers) : Prop where
  inv : Inv fd t
  use_eq : t.use = Function.update s.use c .active
  events_eq : ∀ d, (t.polled d).events = (Poller.setEvents s.polled c m d).events
  shown_iff : ∀ d, d ≠ c → s.use d = .active → (Shown fd t d ↔ Shown fd s d)
  shown_self : m ≠ 0 → (Shown fd t c ↔ s.use c = .fresh ∨ Shown fd s c)

/-- After a change the channel itself decides whether a channel with events is ignored. -/
theorem Changed.forall_iff {m : BitVec 32} (h : Changed fd s c m t)
    (hshown : ∀ d, s.use d = .active → (s.polled d).events ≠ 0 → Shown fd s d) :
    (∀ d, t.use d = .active → (t.polled d).events ≠ 0 → Shown fd t d) ↔
      (m ≠ 0 → Shown fd t c) := by
  have hself : (t.polled c).events = m := by rw [h.events_eq, Poller.setEvents_self]
  constructor
  · intro hall hm
    apply hall c
    · rw [h.use_eq, Function.update_self]
    · rwa [hself]
  · intro hc d hd hne
    by_cases hdc : d = c
    · subst hdc
      exact hc (by rwa [hself] at hne)
    · rw [h.use_eq, Function.update_of_ne hdc] at hd
      rw [h.events_eq, Poller.setEvents_of_ne m hdc] at hne
      exact (h.shown_iff d hdc hd).mpr (hshown d hd hne)

/-- The new state, from what the two pollers do. -/
theorem inv_change {m : BitVec 32} {p : Poller} {chan : ℕ → PollChannel} {q : EPoller}
    {channel : Channel} (h : Inv fd s) (hup : Poller.Updated fd s.poller s.polled c m p chan)
    (hmask : IsMask m) (hwf : EPoller.Wf fd q (Function.update s.epolled c channel))
    (hevents : channel.events = m) (hnew : channel.index ≠ .kNew) :
    Inv fd ⟨p, chan, q, Function.update s.epolled c channel, Function.update s.use c .active⟩ := by
  have htracks := h.tracks.updated hup
  refine ⟨hup.wf, hwf, htracks.active_iff, fun d => ?_, htracks.fresh, fun d => ?_,
    fun d => ?_⟩ <;> dsimp only
  · by_cases hd : d = c
    · rw [hd, Function.update_self, Function.update_self]
      exact iff_of_true rfl hnew
    · rw [Function.update_of_ne hd, Function.update_of_ne hd]
      exact h.known_iff d
  · rw [hup.events_eq]
    by_cases hd : d = c
    · rw [hd, Function.update_self, Poller.setEvents_self, hevents]
    · rw [Function.update_of_ne hd, Poller.setEvents_of_ne m hd]
      exact h.events_eq d
  · rw [hup.events_eq]
    by_cases hd : d = c
    · rw [hd, Poller.setEvents_self]
      exact hmask
    · rw [Poller.setEvents_of_ne m hd]
      exact h.mask d

/-- The entry of a registered channel after an update, when it has events then. -/
theorem refresh_fd {pfd : PollFd} {channel : PollChannel} (h : channel.events ≠ 0) :
    (Poller.refresh pfd channel).fd = pfd.fd :=
  if_neg fun hnone => h (of_decide_eq_true hnone)

theorem step_change (hinj : Function.Injective fd) (h : Inv fd s) {op : Change}
    (hperm : s.permitted (.change op c) = true) :
    ∃ t, s.step (.change op c) = some t ∧ Changed fd s c (op.mask (s.polled c).events) t := by
  set m := op.mask (s.polled c).events
  have hmask : IsMask m := isMask_change op (h.mask c)
  obtain ⟨q, channel, hepoll, hevents, hnew, hwf⟩ := h.epolled.updateChannel hinj c m
  -- What both cases below need of the `Poller`.
  have key : ∀ p chan, s.poller.updateChannel (Poller.setEvents s.polled c m) c = some (p, chan) →
      Poller.Updated fd s.poller s.polled c m p chan →
      (m ≠ 0 → ((∃ pfd, p.entryOf chan c = some pfd ∧ pfd.fd = fd c) ↔
        s.use c = .fresh ∨ Shown fd s c)) →
      ∃ t, s.step (.change op c) = some t ∧ Changed fd s c m t := by
    intro p chan hpoll hup hself
    refine ⟨⟨p, chan, q, Function.update s.epolled c channel, Function.update s.use c .active⟩, ?_,
      inv_change h hup hmask hwf hevents hnew, rfl, hup.events_eq, fun d hd hactive => ?_, hself⟩
    · unfold step
      rw [if_pos hperm]
      simp only [h.events_eq]
      rw [hpoll]
      simp only [Option.bind_eq_bind, Option.bind_some]
      rw [hepoll]
      rfl
    · unfold Shown
      dsimp only
      rw [hup.entry_eq d hd ((h.active_iff d).mp hactive)]
  cases huse : s.use c with
  | removed =>
    simp [permitted, huse] at hperm
  | fresh =>
    have hm : m ≠ kNoneEvent := by simpa [permitted, huse] using hperm
    obtain ⟨p, chan, hpoll, hup, hentry⟩ := Poller.updateChannel_of_fresh hinj h.polled
      (h.fresh c huse) (h.tracks.not_registered huse) hm
    exact key p chan hpoll hup fun _ => iff_of_true hentry (.inl huse)
  | active =>
    obtain ⟨p, pfd, hpoll, hup, hold, hentry⟩ :=
      Poller.updateChannel_of_registered hinj h.polled ((h.active_iff c).mp huse) m
    refine key p _ hpoll hup fun hm => ?_
    have hfd : (Poller.refresh pfd (Poller.setEvents s.polled c m c)).fd = pfd.fd := by
      apply refresh_fd
      rw [Poller.setEvents_self]
      exact hm
    rw [or_iff_right (by simp [huse])]
    unfold Shown
    rw [hentry, hold]
    simp [hfd]

/-! ## A channel is removed -/

theorem inv_removed {p : Poller} {chan : ℕ → PollChannel} {q : EPoller} {channel : Channel}
    (h : Inv fd s) (hrem : Poller.Removed fd s.poller s.polled c p chan)
    (hwf : EPoller.Wf fd q (Function.update s.epolled c channel))
    (hevents : channel.events = (s.polled c).events) (hnew : channel.index = .kNew) :
    Inv fd ⟨p, chan, q, Function.update s.epolled c channel, Function.update s.use c .removed⟩ := by
  have htracks := h.tracks.removed hrem
  refine ⟨hrem.wf, hwf, htracks.active_iff, fun d => ?_, htracks.fresh, fun d => ?_,
    fun d => ?_⟩ <;> dsimp only
  · by_cases hd : d = c
    · rw [hd, Function.update_self, Function.update_self]
      exact iff_of_false (by simp) (not_not.mpr hnew)
    · rw [Function.update_of_ne hd, Function.update_of_ne hd]
      exact h.known_iff d
  · rw [hrem.events_eq]
    by_cases hd : d = c
    · rw [hd, Function.update_self, hevents]
    · rw [Function.update_of_ne hd]
      exact h.events_eq d
  · rw [hrem.events_eq]
    exact h.mask d

theorem step_removeChannel (hinj : Function.Injective fd) (h : Inv fd s)
    (hperm : s.permitted (.removeChannel c) = true) :
    ∃ t, s.step (.removeChannel c) = some t ∧ Inv fd t ∧
      t.use = Function.update s.use c .removed ∧
      (∀ d, (t.polled d).events = (s.polled d).events) ∧
      ∀ d, d ≠ c → s.use d = .active → (Shown fd t d ↔ Shown fd s d) := by
  obtain ⟨hactive, hnone⟩ : s.use c = .active ∧ (s.polled c).isNoneEvent = true := by
    simpa [permitted] using hperm
  obtain ⟨p, chan, hpoll, hrem⟩ :=
    Poller.removeChannel_of_registered hinj h.polled ((h.active_iff c).mp hactive) hnone
  have hzero : (s.polled c).events = 0 := of_decide_eq_true hnone
  obtain ⟨q, channel, hepoll, hevents, hnew, hwf⟩ :=
    h.epolled.removeChannel hinj ((h.known_iff c).mp hactive) ((h.events_eq c).trans hzero)
  refine ⟨⟨p, chan, q, Function.update s.epolled c channel, Function.update s.use c .removed⟩, ?_,
    inv_removed h hrem hwf (hevents.trans hzero.symm) hnew, rfl, hrem.events_eq,
    fun d hd hact => ?_⟩
  · unfold step
    rw [if_pos hperm]
    simp only [hpoll, hepoll, Option.bind_eq_bind, Option.bind_some]
  · unfold Shown
    dsimp only
    rw [hrem.entry_eq d hd ((h.active_iff d).mp hact)]

/-! ## A step -/

theorem permitted_of_step {a : PollAction} (hstep : s.step a = some t) : s.permitted a = true := by
  unfold step at hstep
  by_contra hperm
  rw [if_neg hperm] at hstep
  cases hstep

/-- No assertion fails. -/
theorem step_isSome (hinj : Function.Injective fd) (h : Inv fd s) {a : PollAction}
    (hperm : s.permitted a = true) : ∃ t, s.step a = some t := by
  cases a with
  | change op c =>
    obtain ⟨t, hstep, -⟩ := step_change hinj h hperm
    exact ⟨t, hstep⟩
  | removeChannel c =>
    obtain ⟨t, hstep, -⟩ := step_removeChannel hinj h hperm
    exact ⟨t, hstep⟩

theorem inv_step (hinj : Function.Injective fd) {a : PollAction} (h : Inv fd s)
    (hstep : s.step a = some t) : Inv fd t := by
  have hperm := permitted_of_step hstep
  cases a with
  | change op c =>
    obtain ⟨t', hstep', hchanged⟩ := step_change hinj h hperm
    rw [hstep, Option.some.injEq] at hstep'
    rw [hstep']
    exact hchanged.inv
  | removeChannel c =>
    obtain ⟨t', hstep', hinv, -⟩ := step_removeChannel hinj h hperm
    rw [hstep, Option.some.injEq] at hstep'
    rw [hstep']
    exact hinv

theorem agree_step_iff (hinj : Function.Injective fd) {a : PollAction} (h : Inv fd s)
    (hagree : s.Agree) (hstep : s.step a = some t) : t.Agree ↔ ¬ s.Revives a := by
  have hperm := permitted_of_step hstep
  have hshown := (agree_iff hinj h).mp hagree
  rw [agree_iff hinj (inv_step hinj h hstep)]
  cases a with
  | change op c =>
    obtain ⟨t', hstep', hchanged⟩ := step_change hinj h hperm
    rw [hstep, Option.some.injEq] at hstep'
    subst hstep'
    rw [hchanged.forall_iff hshown]
    unfold Revives
    constructor
    · intro hself hrev
      obtain ⟨hactive, hnone, hm⟩ := hrev
      have hor := (hchanged.shown_self hm).mp (hself hm)
      rw [hactive] at hor
      exact not_shown_of_none h hactive hnone (hor.resolve_left (by simp))
    · intro hrev hm
      apply (hchanged.shown_self hm).mpr
      cases huse : s.use c with
      | removed => simp [permitted, huse] at hperm
      | fresh => exact .inl rfl
      | active => exact .inr (hshown c huse fun hnone => hrev ⟨huse, hnone, hm⟩)
  | removeChannel c =>
    obtain ⟨t', hstep', -, huse, hevents, hiff⟩ := step_removeChannel hinj h hperm
    rw [hstep, Option.some.injEq] at hstep'
    subst hstep'
    refine iff_of_true (fun d hd hne => ?_) id
    by_cases hdc : d = c
    · rw [hdc, huse, Function.update_self] at hd
      cases hd
    · rw [huse, Function.update_of_ne hdc] at hd
      rw [hevents] at hne
      exact (hiff d hdc hd).mpr (hshown d hd hne)

/-! ## Runs -/

theorem agree_init (fd : ℕ → ℕ) : (init fd).Agree := by
  apply Set.ext
  intro x
  apply iff_of_false
  · rintro ⟨pfd, hmem, _⟩
    cases hmem
  · rintro ⟨k, _, hget, _⟩
    simp [init] at hget

/-- **The two pollers watch the same** throughout a run exactly when no step of it gives events to a
channel in use that has none. In each state every permitted operation can be done. -/
theorem agree_iff_of_run {tr : List (Pollers × PollAction)} (hinj : Function.Injective fd)
    (h : Run step (init fd) tr t) :
    (((∀ p ∈ tr, p.1.Agree) ∧ t.Agree) ↔ ∀ p ∈ tr, ¬ p.1.Revives p.2) ∧
      ∀ a, t.permitted a = true → ∃ u, t.step a = some u := by
  have hstep : ∀ s a t, Inv fd s → step s a = some t → Inv fd t := fun s a t => inv_step hinj
  constructor
  · exact h.throughout_iff hstep (fun s a t hs hagree => agree_step_iff hinj hs hagree) (inv_init fd)
      (agree_init fd)
  · intro a
    exact step_isSome hinj (h.invariant hstep (inv_init fd)).2

/-- One channel is used and removed while another is in use. -/
def usage : List PollAction :=
  [.change .enableReading 0, .change .enableWriting 1, .change .enableWriting 0,
    .change .disableWriting 0, .change .disableAll 0, .removeChannel 0]

theorem agree_iff_usage :
    ∃ t, Run step (init id) (trace step (init id) usage) t ∧
      ((((∀ p ∈ trace step (init id) usage, p.1.Agree) ∧ t.Agree) ↔
        ∀ p ∈ trace step (init id) usage, ¬ p.1.Revives p.2) ∧
      ∀ a, t.permitted a = true → ∃ u, t.step a = some u) := by
  have hexec : ∃ t, exec step (init id) usage = some t := Option.isSome_iff_exists.mp (by decide)
  obtain ⟨t, ht⟩ := hexec
  exact ⟨t, run_trace ht, agree_iff_of_run Function.injective_id (run_trace ht)⟩

/-- A channel loses its events and gets them again: `poll` ignores it from then on. -/
theorem not_agree_revived :
    ¬ ∀ (fd : ℕ → ℕ) (tr : List (Pollers × PollAction)) (t : Pollers), Function.Injective fd →
      Run step (init fd) tr t → t.Agree := by
  intro h
  have hexec : (exec step (init id)
      [.change .enableReading 0, .change .disableAll 0, .change .enableReading 0]).map
        (fun t => (t.poller.pollfds, t.epoller.registered[0]?)) =
      some ([⟨-1, 3, 0⟩], some 3) := rfl
  obtain ⟨t, ht, heq⟩ := Option.map_eq_some_iff.mp hexec
  obtain ⟨hpoll, hepoll⟩ := Prod.mk.inj heq
  have hagree := h id _ t Function.injective_id (run_trace ht)
  have hmem : ((0 : ℤ), (3 : BitVec 32)) ∈ t.epoller.watched := ⟨0, rfl, hepoll, by decide⟩
  rw [← hagree] at hmem
  obtain ⟨pfd, hpfd, hfd, -⟩ := hmem
  rw [hpoll, List.mem_singleton] at hpfd
  rw [hpfd] at hfd
  exact absurd hfd (by decide)

end Pollers

end SearchServer

import Mathlib

/-!
# Channels and the poller

A `Channel` (`net/Channel.h`) has the events that a connection waits for. The `EPoller`
(`net/EPoller.cc`) has a map from descriptors to channels, and the kernel a table of the registered
descriptors with their events. An operation returns `none` when an assertion fails or when the
program aborts because the kernel refuses.

* `updateChannel_of_isNoneEvent`, `updateChannel_of_events`: a channel without events is registered
  no more after an update, and a channel with events is.
* `removeChannel_eq`: removing a channel that is not registered leaves the kernel's table alone.
-/

namespace SearchServer

abbrev POLLIN : BitVec 32 := 0x001
abbrev POLLPRI : BitVec 32 := 0x002
abbrev POLLOUT : BitVec 32 := 0x004
abbrev POLLERR : BitVec 32 := 0x008
abbrev POLLHUP : BitVec 32 := 0x010
abbrev POLLNVAL : BitVec 32 := 0x020
abbrev POLLRDHUP : BitVec 32 := 0x2000

def kNoneEvent : BitVec 32 := 0
def kReadEvent : BitVec 32 := POLLIN ||| POLLPRI
def kWriteEvent : BitVec 32 := POLLOUT

/-- What the poller knows of a channel. -/
inductive Index where
  | kNew
  | kAdded
  | kDeleted
deriving DecidableEq

/-- A channel. Its address is `ptr`. -/
structure Channel where
  ptr : ℕ
  fd : ℕ
  events : BitVec 32
  index : Index

namespace Channel

/-- The constructor. -/
def init (ptr fd : ℕ) : Channel := ⟨ptr, fd, 0, .kNew⟩

def isNoneEvent (c : Channel) : Bool := c.events = kNoneEvent

def isWriting (c : Channel) : Bool := c.events &&& kWriteEvent ≠ 0

/-- The new masks of `enableReading`, `enableWriting`, `disableWriting` and `disableAll`. The update
of the poller comes after. -/
def enableReading (c : Channel) : Channel := { c with events := c.events ||| kReadEvent }

def enableWriting (c : Channel) : Channel := { c with events := c.events ||| kWriteEvent }

def disableWriting (c : Channel) : Channel := { c with events := c.events &&& ~~~kWriteEvent }

def disableAll (c : Channel) : Channel := { c with events := kNoneEvent }

end Channel

/-- The channels by descriptor, and the kernel's table. -/
structure EPoller where
  channels : Std.TreeMap ℕ ℕ
  registered : Std.TreeMap ℕ (BitVec 32)

namespace EPoller

/-- The operations of `epoll_ctl`. -/
inductive EpollCtl where
  | add
  | mod
  | del

/-- `update`. A failed `EPOLL_CTL_DEL` is only logged. -/
def update (p : EPoller) (operation : EpollCtl) (c : Channel) : Option EPoller :=
  match operation with
  | .add => if c.fd ∈ p.registered then none
    else some { p with registered := p.registered.insert c.fd c.events }
  | .mod => if c.fd ∈ p.registered then
      some { p with registered := p.registered.insert c.fd c.events } else none
  | .del => some { p with registered := p.registered.erase c.fd }

def updateChannel (p : EPoller) (c : Channel) : Option (EPoller × Channel) :=
  match c.index with
  | .kNew =>
    if c.fd ∈ p.channels then none
    else
      let p := { p with channels := p.channels.insert c.fd c.ptr }
      (p.update .add c).map fun p => (p, { c with index := .kAdded })
  | .kDeleted =>
    if p.channels[c.fd]? ≠ some c.ptr then none
    else if c.isNoneEvent then some (p, c)
    else (p.update .add c).map fun p => (p, { c with index := .kAdded })
  | .kAdded =>
    if p.channels[c.fd]? ≠ some c.ptr then none
    else if c.isNoneEvent then (p.update .del c).map fun p => (p, { c with index := .kDeleted })
    else (p.update .mod c).map fun p => (p, c)

def removeChannel (p : EPoller) (c : Channel) : Option (EPoller × Channel) :=
  if p.channels[c.fd]? ≠ some c.ptr then none
  else if !c.isNoneEvent then none
  else if c.index ≠ .kAdded ∧ c.index ≠ .kDeleted then none
  else
    let q := { p with channels := p.channels.erase c.fd }
    let q := if c.index = .kAdded then q.update .del c else some q
    q.map fun q => (q, { c with index := .kNew })

/-! ## What the operations do -/

/-- A registered channel that has no events left is removed from the kernel's table. -/
theorem updateChannel_of_isNoneEvent {p p' : EPoller} {c c' : Channel} (hindex : c.index = .kAdded)
    (hnone : c.isNoneEvent = true) (h : p.updateChannel c = some (p', c')) :
    c' = { c with index := .kDeleted } ∧ c.fd ∉ p'.registered := by
  unfold updateChannel at h
  rw [hindex] at h
  obtain ⟨-, h⟩ := Option.ite_none_left_eq_some.mp h
  rw [if_pos hnone] at h
  obtain ⟨rfl, rfl⟩ := Prod.mk.inj (Option.some.inj h)
  exact ⟨rfl, by simp⟩

/-- A channel with events is registered. -/
theorem updateChannel_of_events {p p' : EPoller} {c c' : Channel} (hsome : c.isNoneEvent = false)
    (h : p.updateChannel c = some (p', c')) : c' = { c with index := .kAdded } := by
  unfold updateChannel at h
  cases hindex : c.index with
  | kNew =>
    rw [hindex] at h
    obtain ⟨-, h⟩ := Option.ite_none_left_eq_some.mp h
    obtain ⟨q, -, hq⟩ := Option.map_eq_some_iff.mp h
    exact (Prod.mk.inj hq).2.symm
  | kDeleted =>
    rw [hindex] at h
    obtain ⟨-, h⟩ := Option.ite_none_left_eq_some.mp h
    rw [hsome] at h
    obtain ⟨q, -, hq⟩ := Option.map_eq_some_iff.mp h
    exact (Prod.mk.inj hq).2.symm
  | kAdded =>
    rw [hindex] at h
    obtain ⟨-, h⟩ := Option.ite_none_left_eq_some.mp h
    rw [hsome] at h
    obtain ⟨q, -, hq⟩ := Option.map_eq_some_iff.mp h
    rw [← (Prod.mk.inj hq).2, ← hindex]

/-- An update changes what the poller knows of the channel, not its events. -/
theorem updateChannel_events {p p' : EPoller} {c c' : Channel}
    (h : p.updateChannel c = some (p', c')) : c'.events = c.events := by
  unfold updateChannel at h
  cases hindex : c.index with
  | kNew =>
    rw [hindex] at h
    obtain ⟨-, h⟩ := Option.ite_none_left_eq_some.mp h
    obtain ⟨q, -, hq⟩ := Option.map_eq_some_iff.mp h
    rw [← (Prod.mk.inj hq).2]
  | kDeleted =>
    rw [hindex] at h
    obtain ⟨-, h⟩ := Option.ite_none_left_eq_some.mp h
    split_ifs at h
    · rw [← (Prod.mk.inj (Option.some.inj h)).2]
    · obtain ⟨q, -, hq⟩ := Option.map_eq_some_iff.mp h
      rw [← (Prod.mk.inj hq).2]
  | kAdded =>
    rw [hindex] at h
    obtain ⟨-, h⟩ := Option.ite_none_left_eq_some.mp h
    split_ifs at h
    · obtain ⟨q, -, hq⟩ := Option.map_eq_some_iff.mp h
      rw [← (Prod.mk.inj hq).2]
    · obtain ⟨q, -, hq⟩ := Option.map_eq_some_iff.mp h
      rw [← (Prod.mk.inj hq).2]

theorem removeChannel_eq {p p' : EPoller} {c c' : Channel} (hfd : c.fd ∉ p.registered)
    (h : p.removeChannel c = some (p', c')) :
    c' = { c with index := .kNew } ∧ c.fd ∉ p'.registered := by
  unfold removeChannel at h
  obtain ⟨-, h⟩ := Option.ite_none_left_eq_some.mp h
  obtain ⟨-, h⟩ := Option.ite_none_left_eq_some.mp h
  obtain ⟨-, h⟩ := Option.ite_none_left_eq_some.mp h
  obtain ⟨q, hq, heq⟩ := Option.map_eq_some_iff.mp h
  obtain ⟨rfl, rfl⟩ := Prod.mk.inj heq
  refine ⟨rfl, ?_⟩
  by_cases hindex : c.index = .kAdded
  · rw [if_pos hindex] at hq
    obtain rfl := Option.some.inj hq
    simp
  · rw [if_neg hindex] at hq
    obtain rfl := Option.some.inj hq
    exact hfd

end EPoller

end SearchServer

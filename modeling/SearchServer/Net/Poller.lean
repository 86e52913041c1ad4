import SearchServer.Lib.Maps
import SearchServer.Net.Channel

/-!
# The poller over `poll(2)`

`Poller` (`net/Poller.cc`) keeps an array of `pollfd`s. `_index` of a channel is the position of its
entry, or -1 before the first update. A channel without events stays in the array with its
descriptor negated, so that `poll` ignores the entry. An entry is removed by moving the last one into
its place.

The channels are objects that the poller only points to, so an operation takes them, by address, and
returns them. It returns `none` when an assertion fails.

* `Wf`: every registered channel has the entry at its index, and every entry belongs to a registered
  channel.
* `updateChannel_of_fresh`, `updateChannel_of_registered`, `removeChannel_of_registered`: what the
  operations do, and that they keep `Wf`. No assertion fails.
-/

namespace SearchServer

/-- `struct pollfd`. -/
structure PollFd where
  fd : ℤ
  events : BitVec 16
  revents : BitVec 16

/-- A channel as the `Poller` uses it. -/
structure PollChannel where
  fd : ℕ
  events : BitVec 32
  index : ℤ

namespace PollChannel

def init (fd : ℕ) : PollChannel := ⟨fd, 0, -1⟩

def isNoneEvent (channel : PollChannel) : Bool := channel.events = kNoneEvent

end PollChannel

structure Poller where
  pollfds : List PollFd := []
  /-- The addresses of the channels by descriptor. -/
  channels : Std.TreeMap ℤ ℕ := ∅

namespace Poller

/-- The entry for a channel with its new events. -/
def refresh (pfd : PollFd) (channel : PollChannel) : PollFd where
  fd := if channel.isNoneEvent then -channel.fd - 1 else pfd.fd
  events := channel.events.setWidth 16
  revents := 0

def updateChannel (p : Poller) (chan : ℕ → PollChannel) (c : ℕ) :
    Option (Poller × (ℕ → PollChannel)) :=
  let channel := chan c
  if channel.index < 0 then
    if (channel.fd : ℤ) ∈ p.channels then none
    else
      let pollfds := p.pollfds ++ [⟨channel.fd, channel.events.setWidth 16, 0⟩]
      some (⟨pollfds, p.channels.insert channel.fd c⟩,
        Function.update chan c { channel with index := pollfds.length - 1 })
  else if p.channels[(channel.fd : ℤ)]? ≠ some c then none
  else
    match p.pollfds[channel.index.toNat]? with
    | none => none
    | some pfd =>
      if pfd.fd = channel.fd ∨ pfd.fd = -channel.fd - 1 then
        some ({ p with pollfds := p.pollfds.set channel.index.toNat (refresh pfd channel) }, chan)
      else none

/-- `removeChannel`. `_channels[channelAtEnd]` must not be null. -/
def removeChannel (p : Poller) (chan : ℕ → PollChannel) (c : ℕ) :
    Option (Poller × (ℕ → PollChannel)) :=
  let channel := chan c
  if p.channels[(channel.fd : ℤ)]? ≠ some c then none
  else if !channel.isNoneEvent then none
  else if channel.index < 0 then none
  else
    match p.pollfds[channel.index.toNat]? with
    | none => none
    | some pfd =>
      if pfd.fd = -channel.fd - 1 ∧ pfd.events.signExtend 32 = channel.events then
        let idx := channel.index.toNat
        let channels := p.channels.erase channel.fd
        if idx = p.pollfds.length - 1 then some (⟨p.pollfds.dropLast, channels⟩, chan)
        else
          match p.pollfds.getLast? with
          | none => none
          | some back =>
            let channelAtEnd := if back.fd < 0 then -back.fd - 1 else back.fd
            match channels[channelAtEnd]? with
            | none => none
            | some d => some (⟨(p.pollfds.set idx back).dropLast, channels⟩,
                Function.update chan d { chan d with index := idx })
      else none

/-! ## The invariant -/

def Registered (p : Poller) (fd : ℕ → ℕ) (c : ℕ) : Prop := p.channels[(fd c : ℤ)]? = some c

/-- The entry is one for the channel: with its events, and ignored when there are none. -/
structure EntryFor (pfd : PollFd) (channel : PollChannel) : Prop where
  fd_eq : pfd.fd = channel.fd ∨ pfd.fd = -channel.fd - 1
  events_eq : pfd.events = channel.events.setWidth 16
  ignored : channel.isNoneEvent = true → pfd.fd = -channel.fd - 1

def entryOf (p : Poller) (chan : ℕ → PollChannel) (c : ℕ) : Option PollFd :=
  if (chan c).index < 0 then none else p.pollfds[(chan c).index.toNat]?

/-- The state of the poller, where `fd c` is the descriptor of the channel at address `c`. -/
structure Wf (fd : ℕ → ℕ) (p : Poller) (chan : ℕ → PollChannel) : Prop where
  fd_eq : ∀ c, (chan c).fd = fd c
  keys : ∀ (k : ℤ) (c : ℕ), p.channels[k]? = some c → k = fd c
  entry : ∀ c, p.Registered fd c → ∃ pfd, p.entryOf chan c = some pfd ∧ EntryFor pfd (chan c)
  owner : ∀ i, i < p.pollfds.length → ∃ c, p.Registered fd c ∧ (chan c).index = i

variable {fd : ℕ → ℕ} {p : Poller} {chan : ℕ → PollChannel} {c d : ℕ}

theorem entryOf_eq_some_iff {pfd : PollFd} :
    p.entryOf chan c = some pfd ↔ ∃ i : ℕ, (chan c).index = i ∧ p.pollfds[i]? = some pfd := by
  unfold entryOf
  constructor
  · intro h
    obtain ⟨hneg, h⟩ := Option.ite_none_left_eq_some.mp h
    exact ⟨_, (Int.toNat_of_nonneg (not_lt.mp hneg)).symm, h⟩
  · rintro ⟨i, hi, h⟩
    rw [hi, if_neg (by omega), Int.toNat_natCast, h]

theorem wf_init : Wf fd {} (fun c => .init (fd c)) where
  fd_eq _ := rfl
  keys k c h := by simp at h
  entry c h := by simp [Registered] at h
  owner i h := by simp at h

theorem Wf.index_lt (h : Wf fd p chan) (hc : p.Registered fd c) :
    ∃ i : ℕ, (chan c).index = i ∧ i < p.pollfds.length := by
  obtain ⟨pfd, hentry, -⟩ := h.entry c hc
  obtain ⟨i, hi, hget⟩ := entryOf_eq_some_iff.mp hentry
  exact ⟨i, hi, (List.getElem?_eq_some_iff.mp hget).1⟩

/-- Different channels have different keys in `_channels`. -/
theorem fd_cast_ne (hinj : Function.Injective fd) (h : d ≠ c) : (fd d : ℤ) ≠ fd c :=
  Nat.cast_injective.ne (hinj.ne h)

/-- Registered channels have different indices. -/
theorem Wf.eq_of_index_eq (h : Wf fd p chan) (hc : p.Registered fd c) (hd : p.Registered fd d)
    (heq : (chan c).index = (chan d).index) : c = d := by
  obtain ⟨pfd, hentry, hfor⟩ := h.entry c hc
  obtain ⟨pfd', hentry', hfor'⟩ := h.entry d hd
  have hsame : p.entryOf chan c = p.entryOf chan d := by rw [entryOf, entryOf, heq]
  rw [hsame, hentry', Option.some.injEq] at hentry
  subst hentry
  have hfd : (fd c : ℤ) = fd d := by
    rcases hfor.fd_eq with h₁ | h₁ <;> rcases hfor'.fd_eq with h₂ | h₂ <;>
      rw [h.fd_eq] at h₁ h₂ <;> omega
  unfold Registered at hc hd
  rw [hfd, hd, Option.some.injEq] at hc
  exact hc.symm

/-! ## A channel is registered -/

def setEvents (chan : ℕ → PollChannel) (c : ℕ) (m : BitVec 32) : ℕ → PollChannel :=
  Function.update chan c { chan c with events := m }

theorem setEvents_self (m : BitVec 32) :
    setEvents chan c m c = ⟨(chan c).fd, m, (chan c).index⟩ :=
  Function.update_self ..

theorem setEvents_of_ne (m : BitVec 32) (h : d ≠ c) : setEvents chan c m d = chan d :=
  Function.update_of_ne h ..

theorem setEvents_fd (m : BitVec 32) (d : ℕ) : (setEvents chan c m d).fd = (chan d).fd := by
  by_cases hd : d = c
  · rw [hd, setEvents_self]
  · rw [setEvents_of_ne m hd]

theorem setEvents_index (m : BitVec 32) (d : ℕ) :
    (setEvents chan c m d).index = (chan d).index := by
  by_cases hd : d = c
  · rw [hd, setEvents_self]
  · rw [setEvents_of_ne m hd]

/-- What an update of the channel at `c`, with the events `m`, does to the others. -/
structure Updated (fd : ℕ → ℕ) (p : Poller) (chan : ℕ → PollChannel) (c : ℕ) (m : BitVec 32)
    (p' : Poller) (chan' : ℕ → PollChannel) : Prop where
  wf : Wf fd p' chan'
  registered_iff : ∀ d, p'.Registered fd d ↔ d = c ∨ p.Registered fd d
  events_eq : ∀ d, (chan' d).events = (setEvents chan c m d).events
  index_eq : ∀ d, d ≠ c → (chan' d).index = (chan d).index
  entry_eq : ∀ d, d ≠ c → p.Registered fd d → p'.entryOf chan' d = p.entryOf chan d

/-- `Wf` after an update, when the channel at `c` has its entry, the others have theirs and there are
no more. -/
theorem Wf.updated {p' : Poller} {chan' : ℕ → PollChannel} {m : BitVec 32} {i : ℤ}
    (hinj : Function.Injective fd) (h : Wf fd p chan)
    (hchannels : ∀ k : ℤ, p'.channels[k]? = if k = fd c then some c else p.channels[k]?)
    (hself : chan' c = ⟨fd c, m, i⟩) (hother : ∀ d, d ≠ c → chan' d = chan d)
    (hnew : ∃ pfd, p'.entryOf chan' c = some pfd ∧ EntryFor pfd (chan' c))
    (hentry : ∀ d, d ≠ c → p.Registered fd d → p'.entryOf chan' d = p.entryOf chan d)
    (howner : ∀ i, i < p'.pollfds.length →
      ∃ d, (d = c ∨ p.Registered fd d) ∧ (chan' d).index = i) :
    Updated fd p chan c m p' chan' := by
  have hreg : ∀ d, p'.Registered fd d ↔ d = c ∨ p.Registered fd d := by
    intro d
    unfold Registered
    rw [hchannels]
    by_cases hd : d = c
    · subst hd
      simp
    · rw [if_neg (fd_cast_ne hinj hd), or_iff_right hd]
  refine ⟨⟨fun d => ?_, fun k d hk => ?_, fun d hd => ?_, fun i hi => ?_⟩, hreg, fun d => ?_,
    fun d hd => by rw [hother d hd], hentry⟩
  · by_cases hd : d = c
    · rw [hd, hself]
    · rw [hother d hd, h.fd_eq]
  · rw [hchannels] at hk
    split_ifs at hk with heq
    · rw [heq, Option.some.inj hk]
    · exact h.keys k d hk
  · by_cases hdc : d = c
    · rw [hdc]
      exact hnew
    · rw [hentry d hdc (((hreg d).mp hd).resolve_left hdc), hother d hdc]
      exact h.entry d (((hreg d).mp hd).resolve_left hdc)
  · obtain ⟨d, hd, hindex⟩ := howner i hi
    exact ⟨d, (hreg d).mpr hd, hindex⟩
  · by_cases hd : d = c
    · rw [hd, hself, setEvents_self]
    · rw [hother d hd, setEvents_of_ne m hd]

/-- The first update of a channel, which has events. -/
theorem updateChannel_of_fresh (hinj : Function.Injective fd) (h : Wf fd p chan)
    (hindex : (chan c).index < 0) (hc : ¬ p.Registered fd c) {m : BitVec 32} (hm : m ≠ 0) :
    ∃ p' chan', p.updateChannel (setEvents chan c m) c = some (p', chan') ∧
      Updated fd p chan c m p' chan' ∧ ∃ pfd, p'.entryOf chan' c = some pfd ∧ pfd.fd = fd c := by
  have hfree : (fd c : ℤ) ∉ p.channels := by
    rw [Std.TreeMap.mem_iff_isSome_getElem?]
    intro hsome
    obtain ⟨c', hc'⟩ := Option.isSome_iff_exists.mp hsome
    have heq : c = c' := hinj (by exact_mod_cast h.keys _ _ hc')
    rw [← heq] at hc'
    exact hc hc'
  set pfd : PollFd := ⟨fd c, m.setWidth 16, 0⟩
  set p' : Poller := ⟨p.pollfds ++ [pfd], p.channels.insert (fd c) c⟩
  set chan' := Function.update (setEvents chan c m) c
    { setEvents chan c m c with index := ((p.pollfds ++ [pfd]).length : ℤ) - 1 }
  have hlast : ((p.pollfds ++ [pfd]).length : ℤ) - 1 = p.pollfds.length := by simp
  have hupdate : p.updateChannel (setEvents chan c m) c = some (p', chan') := by
    simp only [updateChannel, chan', p', pfd, setEvents_self, h.fd_eq, hindex, if_true, hfree,
      if_false]
  have hself : chan' c = ⟨fd c, m, p.pollfds.length⟩ := by
    simp only [chan', Function.update_self, setEvents_self, h.fd_eq, hlast]
  have hother : ∀ d, d ≠ c → chan' d = chan d := fun d hd => by
    simp only [chan', Function.update_of_ne hd, setEvents_of_ne m hd]
  have hcentry : p'.entryOf chan' c = some pfd :=
    entryOf_eq_some_iff.mpr ⟨p.pollfds.length, by rw [hself], by simp [p']⟩
  refine ⟨p', chan', hupdate, h.updated hinj (fun k => getElem?_insert_eq ..) hself hother
    ⟨pfd, hcentry, ?_⟩ (fun d hne hd => ?_) (fun i hi => ?_), pfd, hcentry, rfl⟩
  · rw [hself]
    exact ⟨.inl rfl, rfl, fun hnone => absurd (of_decide_eq_true hnone) hm⟩
  · obtain ⟨i, hi, hlt⟩ := h.index_lt hd
    rw [entryOf, entryOf, hother d hne, hi, Int.toNat_natCast]
    exact congrArg _ (List.getElem?_append_left hlt)
  · by_cases hend : i = p.pollfds.length
    · exact ⟨c, .inl rfl, by rw [hself, hend]⟩
    · have hlt : i < p.pollfds.length := by
        simp only [p', List.length_append, List.length_singleton] at hi
        omega
      obtain ⟨d, hd, hindex⟩ := h.owner i hlt
      have hne : d ≠ c := fun heq => hc (heq ▸ hd)
      exact ⟨d, .inr hd, by rw [hother d hne, hindex]⟩

/-! ## A registered channel changes its events -/

theorem EntryFor.refresh {pfd : PollFd} {channel channel' : PollChannel} (h : EntryFor pfd channel)
    (hfd : channel'.fd = channel.fd) : EntryFor (refresh pfd channel') channel' := by
  unfold Poller.refresh
  refine ⟨?_, rfl, fun hnone => if_pos hnone⟩
  dsimp only
  split_ifs
  · exact .inr rfl
  · rw [hfd]
    exact h.fd_eq

/-- An update of a registered channel, with any events. -/
theorem updateChannel_of_registered (hinj : Function.Injective fd) (h : Wf fd p chan)
    (hc : p.Registered fd c) (m : BitVec 32) :
    ∃ p' pfd, p.updateChannel (setEvents chan c m) c = some (p', setEvents chan c m) ∧
      Updated fd p chan c m p' (setEvents chan c m) ∧ p.entryOf chan c = some pfd ∧
      p'.entryOf (setEvents chan c m) c = some (refresh pfd (setEvents chan c m c)) := by
  obtain ⟨pfd, hentry, hfor⟩ := h.entry c hc
  obtain ⟨i, hi, hget⟩ := entryOf_eq_some_iff.mp hentry
  have hlt : i < p.pollfds.length := (List.getElem?_eq_some_iff.mp hget).1
  set chan' := setEvents chan c m
  set p' : Poller := { p with pollfds := p.pollfds.set i (refresh pfd (chan' c)) }
  have hindex : ∀ d, (chan' d).index = (chan d).index := setEvents_index m
  have hfd : (chan' c).fd = (chan c).fd := setEvents_fd m c
  have hupdate : p.updateChannel chan' c = some (p', chan') := by
    have hpos : ¬ (i : ℤ) < 0 := by omega
    have hown : ¬ p.channels[((chan' c).fd : ℤ)]? ≠ some c := by
      rw [hfd, h.fd_eq]
      exact not_not.mpr hc
    have hmine : pfd.fd = (chan' c).fd ∨ pfd.fd = -(chan' c).fd - 1 := by
      rw [hfd]
      exact hfor.fd_eq
    simp only [updateChannel, hindex c, hi, if_neg hpos, if_neg hown, Int.toNat_natCast, hget,
      if_pos hmine]
    rfl
  have hnew : p'.entryOf chan' c = some (refresh pfd (chan' c)) := by
    apply entryOf_eq_some_iff.mpr
    exact ⟨i, (hindex c).trans hi, List.getElem?_set_self hlt⟩
  have hself : chan' c = ⟨fd c, m, (chan c).index⟩ := by rw [← h.fd_eq]; exact setEvents_self m
  refine ⟨p', pfd, hupdate, h.updated hinj (getElem?_eq_ite hc) hself
    (fun d hd => setEvents_of_ne m hd) ⟨_, hnew, hfor.refresh hfd⟩ (fun d hd hreg => ?_)
    (fun j hj => ?_), hentry, hnew⟩
  · obtain ⟨j, hj, -⟩ := h.index_lt hreg
    have hne : i ≠ j := by
      rintro rfl
      exact hd (h.eq_of_index_eq hreg hc (hj.trans hi.symm))
    rw [entryOf, entryOf, hindex d, hj, Int.toNat_natCast]
    exact congrArg _ (List.getElem?_set_ne hne)
  · rw [List.length_set] at hj
    obtain ⟨d, hd, hdi⟩ := h.owner j hj
    exact ⟨d, .inr hd, (hindex d).trans hdi⟩

/-! ## A channel is removed -/

/-- What the removal of the channel at `c` does to the others. They keep their entries, wherever
these have moved. -/
structure Removed (fd : ℕ → ℕ) (p : Poller) (chan : ℕ → PollChannel) (c : ℕ) (p' : Poller)
    (chan' : ℕ → PollChannel) : Prop where
  wf : Wf fd p' chan'
  registered_iff : ∀ d, p'.Registered fd d ↔ d ≠ c ∧ p.Registered fd d
  events_eq : ∀ d, (chan' d).events = (chan d).events
  index_eq : ∀ d, ¬ p.Registered fd d → (chan' d).index = (chan d).index
  entry_eq : ∀ d, d ≠ c → p.Registered fd d → p'.entryOf chan' d = p.entryOf chan d

/-- `Wf` after an entry is taken out, when the others have theirs and there are no more. -/
theorem Wf.removed {p' : Poller} {chan' : ℕ → PollChannel} (hinj : Function.Injective fd)
    (h : Wf fd p chan) (hchannels : p'.channels = p.channels.erase (fd c))
    (hsame : ∀ d, (chan' d).fd = (chan d).fd ∧ (chan' d).events = (chan d).events)
    (hindex : ∀ d, ¬ p.Registered fd d → (chan' d).index = (chan d).index)
    (hentry : ∀ d, d ≠ c → p.Registered fd d → p'.entryOf chan' d = p.entryOf chan d)
    (howner : ∀ i, i < p'.pollfds.length →
      ∃ d, d ≠ c ∧ p.Registered fd d ∧ (chan' d).index = i) :
    Removed fd p chan c p' chan' := by
  have hreg : ∀ d, p'.Registered fd d ↔ d ≠ c ∧ p.Registered fd d := by
    intro d
    unfold Registered
    rw [hchannels, getElem?_erase_eq]
    by_cases hd : d = c
    · subst hd
      simp
    · rw [if_neg (fd_cast_ne hinj hd), and_iff_right hd]
  refine ⟨⟨fun d => (hsame d).1.trans (h.fd_eq d), fun k d hk => ?_, fun d hd => ?_, fun i hi => ?_⟩,
    hreg, fun d => (hsame d).2, hindex, hentry⟩
  · rw [hchannels, Std.TreeMap.getElem?_erase] at hk
    split_ifs at hk
    exact h.keys k d hk
  · obtain ⟨hdc, hd⟩ := (hreg d).mp hd
    obtain ⟨hfd, hevents⟩ := hsame d
    obtain ⟨pfd, hget, hfor⟩ := h.entry d hd
    refine ⟨pfd, (hentry d hdc hd).trans hget, ?_, ?_, fun hnone => ?_⟩
    · rw [hfd]
      exact hfor.fd_eq
    · rw [hevents]
      exact hfor.events_eq
    · rw [hfd]
      apply hfor.ignored
      rw [← hnone, PollChannel.isNoneEvent, PollChannel.isNoneEvent, hevents]
  · obtain ⟨d, hdc, hd, hdi⟩ := howner i hi
    exact ⟨d, (hreg d).mpr ⟨hdc, hd⟩, hdi⟩

theorem Wf.assertions (h : Wf fd p chan) (hc : p.Registered fd c)
    (hnone : (chan c).isNoneEvent = true) : ∃ (i : ℕ) (pfd : PollFd),
      (chan c).index = i ∧ i < p.pollfds.length ∧
      p.pollfds[i]? = some pfd ∧ ¬ p.channels[((chan c).fd : ℤ)]? ≠ some c ∧
      pfd.fd = -(chan c).fd - 1 ∧ pfd.events.signExtend 32 = (chan c).events := by
  obtain ⟨pfd, hentry, hfor⟩ := h.entry c hc
  obtain ⟨i, hi, hget⟩ := entryOf_eq_some_iff.mp hentry
  have hzero : (chan c).events = 0 := of_decide_eq_true hnone
  refine ⟨i, pfd, hi, (List.getElem?_eq_some_iff.mp hget).1, hget, ?_, hfor.ignored hnone, ?_⟩
  · rw [h.fd_eq]
    exact not_not.mpr hc
  · rw [hfor.events_eq, hzero]
    rfl

/-- The channel has the last entry. -/
theorem removeChannel_last (hinj : Function.Injective fd) (h : Wf fd p chan)
    (hc : p.Registered fd c) (hnone : (chan c).isNoneEvent = true)
    (hend : (chan c).index = (p.pollfds.length - 1 : ℕ)) :
    ∃ p' chan', p.removeChannel chan c = some (p', chan') ∧ Removed fd p chan c p' chan' := by
  obtain ⟨i, pfd, hi, hlt, hget, hown, hmine⟩ := h.assertions hc hnone
  have hpos : ¬ (i : ℤ) < 0 := by omega
  have hlast : i = p.pollfds.length - 1 := by omega
  set p' : Poller := ⟨p.pollfds.dropLast, p.channels.erase (chan c).fd⟩
  have hremove : p.removeChannel chan c = some (p', chan) := by
    simp only [removeChannel, if_neg hown, hnone, Bool.not_true, Bool.false_eq_true, if_false, hi,
      if_neg hpos, Int.toNat_natCast, hget, if_pos hmine, if_pos hlast, p']
  refine ⟨p', chan, hremove, h.removed hinj ?_ (fun _ => ⟨rfl, rfl⟩) (fun _ _ => rfl)
    (fun d hd hreg => ?_) fun j hj => ?_⟩
  · rw [← h.fd_eq]
  · obtain ⟨j, hj, hjlt⟩ := h.index_lt hreg
    have hne : j ≠ i := by
      rintro rfl
      exact hd (h.eq_of_index_eq hreg hc (hj.trans hi.symm))
    rw [entryOf, entryOf, hj, Int.toNat_natCast]
    apply congrArg
    rw [List.getElem?_dropLast, if_pos (by omega)]
  · rw [List.length_dropLast] at hj
    obtain ⟨d, hd, hindex⟩ := h.owner j (by omega)
    refine ⟨d, ?_, hd, hindex⟩
    rintro rfl
    omega

/-- The last entry is that of another channel `e`, and moves. -/
theorem removeChannel_moved {e : ℕ} (hinj : Function.Injective fd) (h : Wf fd p chan)
    (hc : p.Registered fd c) (hnone : (chan c).isNoneEvent = true) (he : p.Registered fd e)
    (hec : e ≠ c) (hend : (chan e).index = (p.pollfds.length - 1 : ℕ)) :
    ∃ p' chan', p.removeChannel chan c = some (p', chan') ∧ Removed fd p chan c p' chan' := by
  obtain ⟨i, pfd, hi, hlt, hget, hown, hmine⟩ := h.assertions hc hnone
  obtain ⟨back, hentry, hfor⟩ := h.entry e he
  have hpos : ¬ (i : ℤ) < 0 := by omega
  have hlast : ¬ i = p.pollfds.length - 1 := by
    rintro rfl
    exact hec (h.eq_of_index_eq he hc (hend.trans hi.symm))
  have hback : p.pollfds.getLast? = some back := by
    obtain ⟨j, hj, hgetj⟩ := entryOf_eq_some_iff.mp hentry
    have heq : j = p.pollfds.length - 1 := by omega
    rw [List.getLast?_eq_getElem?, ← heq, hgetj]
  have hat : (if back.fd < 0 then -back.fd - 1 else back.fd) = fd e := by
    rw [← h.fd_eq]
    rcases hfor.fd_eq with heq | heq <;> rw [heq]
    · exact if_neg (by omega)
    · rw [if_pos (by omega)]
      omega
  have hfound : (p.channels.erase ((chan c).fd : ℤ))[(fd e : ℤ)]? = some e := by
    rw [getElem?_erase_eq, h.fd_eq, if_neg (fd_cast_ne hinj hec)]
    exact he
  set p' : Poller := ⟨(p.pollfds.set i back).dropLast, p.channels.erase (chan c).fd⟩
  set chan' := Function.update chan e { chan e with index := i }
  have hremove : p.removeChannel chan c = some (p', chan') := by
    simp only [removeChannel, if_neg hown, hnone, Bool.not_true, Bool.false_eq_true, if_false, hi,
      if_neg hpos, Int.toNat_natCast, hget, if_pos hmine, if_neg hlast, hback, hat, hfound, p',
      chan']
  have hself : chan' e = { chan e with index := i } := Function.update_self ..
  have hothers : ∀ d, d ≠ e → chan' d = chan d := fun d hd => Function.update_of_ne hd ..
  have hlength : p'.pollfds.length = p.pollfds.length - 1 := by simp [p']
  refine ⟨p', chan', hremove, h.removed hinj ?_ (fun d => ?_) (fun d hd => ?_) (fun d hd hreg => ?_)
    fun j hj => ?_⟩
  · rw [← h.fd_eq]
  · by_cases hde : d = e
    · rw [hde, hself]
      exact ⟨rfl, rfl⟩
    · rw [hothers d hde]
      exact ⟨rfl, rfl⟩
  · rw [hothers d]
    rintro rfl
    exact hd he
  · by_cases hde : d = e
    · rw [hde, hentry]
      apply entryOf_eq_some_iff.mpr
      refine ⟨i, by rw [hself], ?_⟩
      rw [List.getElem?_dropLast, List.length_set, if_pos (by omega), List.getElem?_set_self hlt]
    · obtain ⟨j, hj, hjlt⟩ := h.index_lt hreg
      have hji : j ≠ i := by
        rintro rfl
        exact hd (h.eq_of_index_eq hreg hc (hj.trans hi.symm))
      have hjlast : j ≠ p.pollfds.length - 1 := by
        rintro rfl
        exact hde (h.eq_of_index_eq hreg he (hj.trans hend.symm))
      rw [entryOf, entryOf, hothers d hde, hj, Int.toNat_natCast]
      apply congrArg
      rw [List.getElem?_dropLast, List.length_set, if_pos (by omega), List.getElem?_set_ne hji.symm]
  · by_cases hji : j = i
    · exact ⟨e, hec, he, by rw [hself, hji]⟩
    · obtain ⟨d, hd, hindex⟩ := h.owner j (by omega)
      have hde : d ≠ e := by
        rintro rfl
        omega
      refine ⟨d, ?_, hd, by rw [hothers d hde, hindex]⟩
      rintro rfl
      omega

/-- The removal of a registered channel without events. -/
theorem removeChannel_of_registered (hinj : Function.Injective fd) (h : Wf fd p chan)
    (hc : p.Registered fd c) (hnone : (chan c).isNoneEvent = true) :
    ∃ p' chan', p.removeChannel chan c = some (p', chan') ∧ Removed fd p chan c p' chan' := by
  obtain ⟨i, hi, hlt⟩ := h.index_lt hc
  obtain ⟨e, he, hend⟩ := h.owner (p.pollfds.length - 1) (by omega)
  by_cases hec : e = c
  · exact removeChannel_last hinj h hc hnone (hec ▸ hend)
  · exact removeChannel_moved hinj h hc hnone he hec hend

end Poller

end SearchServer

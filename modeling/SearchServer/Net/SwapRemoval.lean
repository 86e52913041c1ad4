import SearchServer.Net.PollersAgree

/-!
# Positions in the array of the poller

A sequence of `updateChannel` and `removeChannel` on one `Poller` (`net/Poller.cc`), with any masks.
The first update of a channel gives it events, it is removed when it has none, and it is not used
after that.

**Theorem (`positions_of_run`).** After every sequence `_channels` and `_pollfds` have exactly the
channels in use, each at its own index and with its descriptor, negated or not. The next operation
meets no failed assertion, and a removal leaves the entries of the other channels as they are,
wherever they move.

Positions are `int`s in the code, and numbers here. There are no more of them than descriptors
(`length_pollfds_le`), and the kernel has fewer than 2^31 of those.
-/

namespace SearchServer

/-- A call for the channel at an address, after its mask was set for an update. -/
inductive PollCall
  | updateChannel (c : ℕ) (events : BitVec 32)
  | removeChannel (c : ℕ)
deriving DecidableEq

/-- A poller, its channels, and what has been done with these. -/
structure PollUse where
  poller : Poller
  chan : ℕ → PollChannel
  use : ℕ → Use

namespace PollUse

/-- No channel is registered. `fd c` is the descriptor of the channel at address `c`. -/
def init (fd : ℕ → ℕ) : PollUse := ⟨{}, fun c => .init (fd c), fun _ => .fresh⟩

/-- The first update has events, a removal finds none, and nothing is done after it. -/
def permitted (s : PollUse) : PollCall → Bool
  | .updateChannel c events => match s.use c with
    | .fresh => events ≠ kNoneEvent
    | .active => true
    | .removed => false
  | .removeChannel c => s.use c = .active && (s.chan c).isNoneEvent

/-- One call. There is no next state if an assertion fails. -/
def step (s : PollUse) (a : PollCall) : Option PollUse :=
  if s.permitted a then
    match a with
    | .updateChannel c events => do
      let (poller, chan) ← s.poller.updateChannel (Poller.setEvents s.chan c events) c
      some ⟨poller, chan, Function.update s.use c .active⟩
    | .removeChannel c => do
      let (poller, chan) ← s.poller.removeChannel s.chan c
      some ⟨poller, chan, Function.update s.use c .removed⟩
  else none

/-- Which channels `_channels` has, and where their entries are in `_pollfds`. -/
structure Positions (fd : ℕ → ℕ) (s : PollUse) : Prop where
  channels_iff : ∀ (k : ℤ) (c : ℕ),
    s.poller.channels[k]? = some c ↔ s.use c = .active ∧ k = fd c
  entry : ∀ c, s.use c = .active → ∃ (i : ℕ) (pfd : PollFd), (s.chan c).index = i ∧
    s.poller.pollfds[i]? = some pfd ∧ (pfd.fd = fd c ∨ pfd.fd = -fd c - 1)
  unique : ∀ c d, s.use c = .active → s.use d = .active →
    (s.chan c).index = (s.chan d).index → c = d
  owner : ∀ i, i < s.poller.pollfds.length → ∃ c, s.use c = .active ∧ (s.chan c).index = i

/-! ## The invariant -/

structure Inv (fd : ℕ → ℕ) (s : PollUse) : Prop where
  wf : Poller.Wf fd s.poller s.chan
  tracks : Poller.Tracks fd s.poller s.chan s.use

variable {fd : ℕ → ℕ} {s t : PollUse} {c : ℕ}

theorem inv_init (fd : ℕ → ℕ) : Inv fd (init fd) := ⟨Poller.wf_init, Poller.tracks_init fd⟩

/-! ## One call -/

theorem Inv.step_updateChannel (hinj : Function.Injective fd) (h : Inv fd s) {events : BitVec 32}
    (ha : s.permitted (.updateChannel c events) = true) :
    ∃ p' chan', s.step (.updateChannel c events) =
        some ⟨p', chan', Function.update s.use c .active⟩ ∧
      Poller.Updated fd s.poller s.chan c events p' chan' := by
  have hupdate : ∃ p' chan', s.poller.updateChannel (Poller.setEvents s.chan c events) c =
      some (p', chan') ∧ Poller.Updated fd s.poller s.chan c events p' chan' := by
    unfold permitted at ha
    cases huse : s.use c with
    | removed => simp [huse] at ha
    | active =>
      obtain ⟨p', -, hcall, hup, -⟩ :=
        Poller.updateChannel_of_registered hinj h.wf ((h.tracks.active_iff c).mp huse) events
      exact ⟨p', _, hcall, hup⟩
    | fresh =>
      simp only [huse] at ha
      have hevents : events ≠ 0 := of_decide_eq_true ha
      obtain ⟨p', chan', hcall, hup, -⟩ := Poller.updateChannel_of_fresh hinj h.wf
        (h.tracks.fresh c huse) (h.tracks.not_registered huse) hevents
      exact ⟨p', chan', hcall, hup⟩
  obtain ⟨p', chan', hcall, hup⟩ := hupdate
  refine ⟨p', chan', ?_, hup⟩
  rw [step, if_pos ha]
  simp only [hcall]
  rfl

theorem Inv.step_removeChannel (hinj : Function.Injective fd) (h : Inv fd s)
    (ha : s.permitted (.removeChannel c) = true) :
    ∃ p' chan', s.step (.removeChannel c) =
        some ⟨p', chan', Function.update s.use c .removed⟩ ∧
      Poller.Removed fd s.poller s.chan c p' chan' := by
  obtain ⟨huse, hnone⟩ := (Bool.and_eq_true _ _).mp ha
  have hc : s.poller.Registered fd c := (h.tracks.active_iff c).mp (of_decide_eq_true huse)
  obtain ⟨p', chan', hcall, hrem⟩ := Poller.removeChannel_of_registered hinj h.wf hc hnone
  refine ⟨p', chan', ?_, hrem⟩
  rw [step, if_pos ha]
  simp only [hcall]
  rfl

/-- A permitted call succeeds and keeps the invariant. -/
theorem Inv.succeeds (hinj : Function.Injective fd) (h : Inv fd s) {a : PollCall}
    (ha : s.permitted a = true) : ∃ t, s.step a = some t ∧ Inv fd t := by
  cases a with
  | updateChannel c events =>
    obtain ⟨p', chan', hstep, hup⟩ := h.step_updateChannel hinj ha
    exact ⟨_, hstep, hup.wf, h.tracks.updated hup⟩
  | removeChannel c =>
    obtain ⟨p', chan', hstep, hrem⟩ := h.step_removeChannel hinj ha
    exact ⟨_, hstep, hrem.wf, h.tracks.removed hrem⟩

theorem permitted_of_step {a : PollCall} (h : s.step a = some t) : s.permitted a = true := by
  by_contra hnot
  unfold step at h
  rw [if_neg hnot] at h
  cases h

theorem Inv.of_run (hinj : Function.Injective fd) {tr : List (PollUse × PollCall)}
    (hrun : Run step (init fd) tr t) : Inv fd t := by
  refine (hrun.invariant (P := Inv fd) (fun s a t hs hstep => ?_) (inv_init fd)).2
  obtain ⟨u, hu, hinv⟩ := hs.succeeds hinj (permitted_of_step hstep)
  rw [hu] at hstep
  exact Option.some.inj hstep ▸ hinv

theorem Inv.positions (h : Inv fd s) : Positions fd s where
  channels_iff k c := by
    constructor
    · intro hk
      have hkey := h.wf.keys k c hk
      refine ⟨(h.tracks.active_iff c).mpr ?_, hkey⟩
      rw [hkey] at hk
      exact hk
    · intro hc
      obtain ⟨huse, rfl⟩ := hc
      exact (h.tracks.active_iff c).mp huse
  entry c huse := by
    obtain ⟨pfd, hentry, hfor⟩ := h.wf.entry c ((h.tracks.active_iff c).mp huse)
    obtain ⟨i, hi, hget⟩ := Poller.entryOf_eq_some_iff.mp hentry
    refine ⟨i, pfd, hi, hget, ?_⟩
    rw [← h.wf.fd_eq]
    exact hfor.fd_eq
  unique c d hc hd heq :=
    h.wf.eq_of_index_eq ((h.tracks.active_iff c).mp hc) ((h.tracks.active_iff d).mp hd) heq
  owner i hi := by
    obtain ⟨c, hc, hindex⟩ := h.wf.owner i hi
    exact ⟨c, (h.tracks.active_iff c).mpr hc, hindex⟩

/-- There are no more entries than descriptors. -/
theorem Positions.length_pollfds_le (hinj : Function.Injective fd) (h : Positions fd s) {n : ℕ}
    (hn : ∀ c, fd c < n) : s.poller.pollfds.length ≤ n := by
  choose f huse hindex using fun i : Fin s.poller.pollfds.length => h.owner i i.isLt
  have hf : Function.Injective fun i => (⟨fd (f i), hn (f i)⟩ : Fin n) := by
    intro i j hij
    have hfij : f i = f j := hinj (Fin.mk.inj hij)
    have hcast : (i : ℤ) = j := by rw [← hindex i, ← hindex j, hfij]
    exact Fin.ext (by exact_mod_cast hcast)
  simpa using Fintype.card_le_of_injective _ hf

/-- **The indices are right after every sequence of calls.** -/
theorem positions_of_run (hinj : Function.Injective fd) {tr : List (PollUse × PollCall)}
    (hrun : Run step (init fd) tr t) :
    Positions fd t ∧ (∀ a, t.permitted a = true → (t.step a).isSome) ∧
    ∀ c u, t.step (.removeChannel c) = some u → ∀ d, d ≠ c → t.use d = .active →
      u.use d = .active ∧ u.poller.entryOf u.chan d = t.poller.entryOf t.chan d := by
  have hinv := Inv.of_run hinj hrun
  refine ⟨hinv.positions, fun a ha => ?_, fun c u hstep d hdc huse => ?_⟩
  · obtain ⟨u, hu, -⟩ := hinv.succeeds hinj ha
    rw [hu]
    rfl
  · obtain ⟨p', chan', hu, hrem⟩ := hinv.step_removeChannel hinj (permitted_of_step hstep)
    obtain rfl := Option.some.inj (hstep.symm.trans hu)
    refine ⟨?_, hrem.entry_eq d hdc ((hinv.tracks.active_iff d).mp huse)⟩
    rw [← huse]
    exact Function.update_of_ne hdc ..

/-- Three channels, of which the first is removed, so that the last one moves into its place. -/
theorem positions_removed_first :
    ∃ t, exec step (init fun c => c) [.updateChannel 4 1, .updateChannel 7 5, .updateChannel 9 1,
        .updateChannel 4 0, .removeChannel 4] = some t ∧ Positions (fun c => c) t := by
  have hexec : ∃ t, exec step (init fun c => c) [.updateChannel 4 1, .updateChannel 7 5,
      .updateChannel 9 1, .updateChannel 4 0, .removeChannel 4] = some t := ⟨_, rfl⟩
  obtain ⟨t, ht⟩ := hexec
  exact ⟨t, ht, (positions_of_run Function.injective_id (run_trace ht)).1⟩

end PollUse

end SearchServer

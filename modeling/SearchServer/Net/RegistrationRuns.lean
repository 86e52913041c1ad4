import SearchServer.Net.PollersAgree

/-!
# Registration over all operations

Channels with distinct descriptors are registered with one `EPoller` (`net/EPoller.cc`). Their events
change at will. A channel is removed when it has no events, and it may be used again after that.

**Theorem (`registration_of_run`).** After every operation the index of each channel, the map and the
kernel's table agree, and no assertion fails in the next operation.
-/

namespace SearchServer

structure Registrations where
  epoller : EPoller
  chan : ℕ → Channel
  /-- The channel has been changed since it was made or removed. -/
  changed : ℕ → Bool

namespace Registrations

/-- No channel is registered. `fd c` is the descriptor of the channel at address `c`. -/
def init (fd : ℕ → ℕ) : Registrations := ⟨⟨∅, ∅⟩, fun c => .init c (fd c), fun _ => false⟩

/-- A channel is removed only when it has no events. -/
def permitted (s : Registrations) : PollAction → Bool
  | .change _ _ => true
  | .removeChannel c => s.changed c && (s.chan c).isNoneEvent

/-- An operation of the poller. There is no next state if an assertion fails or the kernel refuses. -/
def step (s : Registrations) (a : PollAction) : Option Registrations :=
  if s.permitted a then
    match a with
    | .change op c => do
      let (epoller, channel) ←
        s.epoller.updateChannel { s.chan c with events := op.mask (s.chan c).events }
      some ⟨epoller, Function.update s.chan c channel, Function.update s.changed c true⟩
    | .removeChannel c => do
      let (epoller, channel) ← s.epoller.removeChannel (s.chan c)
      some ⟨epoller, Function.update s.chan c channel, Function.update s.changed c false⟩
  else none

/-- What the index of a channel says. -/
structure Registration (fd : ℕ → ℕ) (s : Registrations) (c : ℕ) : Prop where
  kNew_iff : (s.chan c).index = .kNew ↔ fd c ∉ s.epoller.channels
  kAdded_iff : (s.chan c).index = .kAdded ↔ fd c ∈ s.epoller.registered
  kDeleted_iff : (s.chan c).index = .kDeleted ↔
    fd c ∈ s.epoller.channels ∧ fd c ∉ s.epoller.registered
  mask : (s.chan c).index = .kAdded → s.epoller.registered[fd c]? = some (s.chan c).events
  noMask : (s.chan c).index = .kDeleted → (s.chan c).events = 0
  /-- The map has the channel itself. -/
  channel : fd c ∈ s.epoller.channels → s.epoller.channels[fd c]? = some c

/-! ## The invariant -/

structure Inv (fd : ℕ → ℕ) (s : Registrations) : Prop where
  wf : EPoller.Wf fd s.epoller s.chan
  changed_iff : ∀ c, s.changed c = true ↔ (s.chan c).index ≠ .kNew

variable {fd : ℕ → ℕ} {s : Registrations}

theorem inv_init (fd : ℕ → ℕ) : Inv fd (init fd) where
  wf := EPoller.wf_init
  changed_iff c := by simp [init, Channel.init]

theorem Inv.update {p' : EPoller} {c : ℕ} {channel : Channel} {b : Bool} (h : Inv fd s)
    (hwf : EPoller.Wf fd p' (Function.update s.chan c channel))
    (hb : b = true ↔ channel.index ≠ .kNew) :
    Inv fd ⟨p', Function.update s.chan c channel, Function.update s.changed c b⟩ := by
  refine ⟨hwf, fun d => ?_⟩
  dsimp only
  by_cases hd : d = c
  · rw [hd, Function.update_self, Function.update_self]
    exact hb
  · rw [Function.update_of_ne hd, Function.update_of_ne hd]
    exact h.changed_iff d

/-- A permitted operation succeeds and keeps the invariant. -/
theorem Inv.step (hinj : Function.Injective fd) (h : Inv fd s) {a : PollAction}
    (ha : s.permitted a = true) : ∃ t, s.step a = some t ∧ Inv fd t := by
  cases a with
  | change op c =>
    obtain ⟨p', channel, hup, -, hnew, hwf⟩ := h.wf.updateChannel hinj c (op.mask (s.chan c).events)
    refine ⟨_, ?_, h.update (b := true) hwf (iff_of_true rfl hnew)⟩
    rw [Registrations.step, if_pos ha]
    simp only [hup]
    rfl
  | removeChannel c =>
    obtain ⟨hchanged, hnone⟩ := (Bool.and_eq_true _ _).mp ha
    have hnew := (h.changed_iff c).mp hchanged
    have hzero : (s.chan c).events = 0 := of_decide_eq_true hnone
    obtain ⟨p', channel, hrem, -, hindex, hwf⟩ := h.wf.removeChannel hinj hnew hzero
    refine ⟨_, ?_, h.update (b := false) hwf (by simp [hindex])⟩
    rw [Registrations.step, if_pos ha]
    simp only [hrem]
    rfl

theorem Inv.registration (hinj : Function.Injective fd) (h : Inv fd s) (c : ℕ) :
    Registration fd s c := by
  have hchan := h.wf.getElem?_channels hinj c
  have hreg := h.wf.getElem?_registered hinj c
  have hdeleted := h.wf.deleted c
  have hmem : fd c ∈ s.epoller.channels ↔ (s.chan c).index ≠ .kNew := by
    rw [Std.TreeMap.mem_iff_isSome_getElem?, hchan]
    split_ifs with hnew <;> simp [hnew]
  have hmemr : fd c ∈ s.epoller.registered ↔ (s.chan c).index = .kAdded := by
    rw [Std.TreeMap.mem_iff_isSome_getElem?, hreg]
    split_ifs with hadded <;> simp [hadded]
  refine ⟨by rw [hmem, not_not], hmemr.symm, ?_, fun hadded => ?_, hdeleted, fun hin => ?_⟩
  · rw [hmem, hmemr]
    cases (s.chan c).index <;> simp
  · rw [hreg, if_pos hadded]
  · rw [hchan, if_neg (hmem.mp hin)]

/-- **The three copies agree after every operation**, and every permitted operation succeeds. -/
theorem registration_of_run (hinj : Function.Injective fd) {t : Registrations}
    {tr : List (Registrations × PollAction)} (hrun : Run step (init fd) tr t) :
    (∀ c, Registration fd t c) ∧ ∀ a, t.permitted a = true → (t.step a).isSome := by
  have hinv : Inv fd t := by
    refine (hrun.invariant (P := Inv fd) (fun s a t hs hstep => ?_) (inv_init fd)).2
    have ha : s.permitted a = true := by
      by_contra hnot
      unfold Registrations.step at hstep
      rw [if_neg hnot] at hstep
      cases hstep
    obtain ⟨u, hu, hinv⟩ := hs.step hinj ha
    rw [hu] at hstep
    exact Option.some.inj hstep ▸ hinv
  refine ⟨hinv.registration hinj, fun a ha => ?_⟩
  obtain ⟨u, hu, -⟩ := hinv.step hinj ha
  rw [hu]
  rfl

/-- A channel is enabled, disabled, removed and enabled again. -/
theorem registration_enabledAgain :
    ∃ t, exec step (init fun c => c) [.change .enableReading 5, .change .disableAll 5,
        .removeChannel 5, .change .enableWriting 5] = some t ∧
      Registration (fun c => c) t 5 := by
  have hexec : ∃ t, exec step (init fun c => c) [.change .enableReading 5, .change .disableAll 5,
      .removeChannel 5, .change .enableWriting 5] = some t := ⟨_, rfl⟩
  obtain ⟨t, ht⟩ := hexec
  exact ⟨t, ht, (registration_of_run Function.injective_id (run_trace ht)).1 5⟩

end Registrations

end SearchServer

import SearchServer.Lib.Maps
import SearchServer.Net.Channel

/-!
# Registration with epoll

Three places say how far a channel is registered: its `_index`, the map `_channels` of the `EPoller`
(`net/EPoller.cc`), and the kernel's table. An operation changes them together.

* `Wf`: the three agree. A channel is in the map unless its index is `kNew`, the kernel's table has
  exactly the channels with `kAdded`, each with its events, and a channel with `kDeleted` has none.
* `Wf.updateChannel`, `Wf.removeChannel`: the operations keep it. No assertion fails, and the kernel
  refuses nothing.
-/

namespace SearchServer

namespace EPoller

/-- The state of the poller, where `fd c` is the descriptor of the channel at address `c`. -/
structure Wf (fd : ℕ → ℕ) (p : EPoller) (chan : ℕ → Channel) : Prop where
  ptr_eq : ∀ c, (chan c).ptr = c
  fd_eq : ∀ c, (chan c).fd = fd c
  keys : ∀ (k c : ℕ), p.channels[k]? = some c → k = fd c
  known_iff : ∀ c, p.channels[fd c]? = some c ↔ (chan c).index ≠ .kNew
  registered_iff : ∀ (k : ℕ) (m : BitVec 32), p.registered[k]? = some m ↔
    ∃ c, fd c = k ∧ (chan c).index = .kAdded ∧ (chan c).events = m
  deleted : ∀ c, (chan c).index = .kDeleted → (chan c).events = 0

variable {fd : ℕ → ℕ} {p : EPoller} {chan : ℕ → Channel} {c : ℕ}

theorem wf_init : Wf fd ⟨∅, ∅⟩ (fun c => .init c (fd c)) where
  ptr_eq _ := rfl
  fd_eq _ := rfl
  keys k c h := by simp at h
  known_iff c := by simp [Channel.init]
  registered_iff k m := by simp [Channel.init]
  deleted c h := by simp [Channel.init] at h

theorem Wf.getElem?_channels (hinj : Function.Injective fd) (h : Wf fd p chan) (c : ℕ) :
    p.channels[fd c]? = if (chan c).index = .kNew then none else some c := by
  split_ifs with hnew
  · apply Option.eq_none_iff_forall_ne_some.mpr
    intro d hd
    have heq : d = c := hinj (h.keys _ _ hd).symm
    subst heq
    exact (h.known_iff d).mp hd hnew
  · exact (h.known_iff c).mpr hnew

theorem Wf.getElem?_registered (hinj : Function.Injective fd) (h : Wf fd p chan) (c : ℕ) :
    p.registered[fd c]? = if (chan c).index = .kAdded then some (chan c).events else none := by
  split_ifs with hadded
  · exact (h.registered_iff _ _).mpr ⟨c, rfl, hadded, rfl⟩
  · apply Option.eq_none_iff_forall_ne_some.mpr
    intro m hm
    obtain ⟨d, hd, hindex, -⟩ := (h.registered_iff _ _).mp hm
    rw [hinj hd] at hindex
    exact hadded hindex

/-- One channel changes, and the map and the table change with it, at its descriptor only. -/
theorem Wf.update {p' : EPoller} {c' : Channel} (hinj : Function.Injective fd) (h : Wf fd p chan)
    (hptr : c'.ptr = c) (hfd : c'.fd = fd c)
    (hchannels : ∀ k : ℕ, p'.channels[k]? =
      if k = fd c then if c'.index = .kNew then none else some c else p.channels[k]?)
    (hregistered : ∀ k : ℕ, p'.registered[k]? =
      if k = fd c then if c'.index = .kAdded then some c'.events else none else p.registered[k]?)
    (hdeleted : c'.index = .kDeleted → c'.events = 0) :
    Wf fd p' (Function.update chan c c') := by
  have hself : Function.update chan c c' c = c' := Function.update_self ..
  have hother : ∀ d, d ≠ c → Function.update chan c c' d = chan d :=
    fun d hd => Function.update_of_ne hd ..
  refine ⟨?_, ?_, fun k d hk => ?_, fun d => ?_, fun k m => ?_, ?_⟩
  · apply (Function.forall_update_iff chan fun d channel => channel.ptr = d).mpr
    exact ⟨hptr, fun d _ => h.ptr_eq d⟩
  · apply (Function.forall_update_iff chan fun d channel => channel.fd = fd d).mpr
    exact ⟨hfd, fun d _ => h.fd_eq d⟩
  · rw [hchannels] at hk
    split_ifs at hk with hkc hnew
    · rw [hkc, Option.some.inj hk]
    · exact h.keys k d hk
  · rw [hchannels]
    by_cases hd : d = c
    · rw [hd, hself, if_pos rfl]
      split_ifs with hnew <;> simp [hnew]
    · rw [hother d hd, if_neg fun heq => hd (hinj heq), h.known_iff]
  · rw [hregistered]
    split_ifs with hkc hadded
    · rw [Option.some.injEq]
      constructor
      · intro heq
        exact ⟨c, hkc.symm, by rw [hself, hadded], by rw [hself, heq]⟩
      · intro ⟨d, hd, _, hm⟩
        rw [hinj (hd.trans hkc), hself] at hm
        exact hm
    · apply iff_of_false (by simp)
      intro ⟨d, hd, hindex, _⟩
      rw [hinj (hd.trans hkc), hself] at hindex
      exact hadded hindex
    · rw [h.registered_iff]
      apply exists_congr
      intro d
      apply and_congr_right
      intro hd
      rw [hother d fun heq => hkc (by rw [← hd, heq])]
  · apply (Function.forall_update_iff chan fun _ channel =>
      channel.index = .kDeleted → channel.events = 0).mpr
    exact ⟨hdeleted, fun d _ => h.deleted d⟩

/-- The channel gets the events `m`, and the poller is told. -/
theorem Wf.updateChannel (hinj : Function.Injective fd) (h : Wf fd p chan) (c : ℕ)
    (m : BitVec 32) : ∃ p' c', p.updateChannel { chan c with events := m } = some (p', c') ∧
      c'.events = m ∧ c'.index ≠ .kNew ∧ Wf fd p' (Function.update chan c c') := by
  have hchan := h.getElem?_channels hinj c
  have hreg := h.getElem?_registered hinj c
  cases hindex : (chan c).index with
  | kNew =>
    rw [hindex] at hchan hreg
    have hfree : fd c ∉ p.channels := by
      rw [Std.TreeMap.mem_iff_isSome_getElem?, hchan]
      simp
    have hout : fd c ∉ p.registered := by
      rw [Std.TreeMap.mem_iff_isSome_getElem?, hreg]
      simp
    refine ⟨⟨p.channels.insert (fd c) c, p.registered.insert (fd c) m⟩,
      { chan c with events := m, index := .kAdded }, ?_, rfl, by simp,
      h.update hinj (h.ptr_eq c) (h.fd_eq c) (fun k => getElem?_insert_eq ..)
        (fun k => getElem?_insert_eq ..) (by simp)⟩
    simp [EPoller.updateChannel, EPoller.update, hindex, hfree, hout, h.fd_eq, h.ptr_eq]
  | kDeleted =>
    rw [hindex] at hchan hreg
    have hout : fd c ∉ p.registered := by
      rw [Std.TreeMap.mem_iff_isSome_getElem?, hreg]
      simp
    by_cases hnone : m = kNoneEvent
    · -- Nothing changes: the kernel does not know the channel.
      refine ⟨p, { chan c with events := m }, ?_, rfl, by simp [hindex],
        h.update hinj (h.ptr_eq c) (h.fd_eq c) (fun k => ?_) (fun k => ?_) fun _ => hnone⟩
      · simp [EPoller.updateChannel, hindex, h.fd_eq, h.ptr_eq, hchan, Channel.isNoneEvent,
          hnone]
      · apply getElem?_eq_ite
        simp [hindex, hchan]
      · apply getElem?_eq_ite
        simp [hindex, hreg]
    · refine ⟨⟨p.channels, p.registered.insert (fd c) m⟩,
        { chan c with events := m, index := .kAdded }, ?_, rfl, by simp,
        h.update hinj (h.ptr_eq c) (h.fd_eq c) (fun k => ?_) (fun k => getElem?_insert_eq ..)
          (by simp)⟩
      · simp [EPoller.updateChannel, EPoller.update, hindex, hout, h.fd_eq, h.ptr_eq, hchan,
          Channel.isNoneEvent, hnone]
      · apply getElem?_eq_ite
        simp [hchan]
  | kAdded =>
    rw [hindex] at hchan hreg
    have hin : fd c ∈ p.registered := by
      rw [Std.TreeMap.mem_iff_isSome_getElem?, hreg]
      simp
    by_cases hnone : m = kNoneEvent
    · refine ⟨⟨p.channels, p.registered.erase (fd c)⟩,
        { chan c with events := m, index := .kDeleted }, ?_, rfl, by simp,
        h.update hinj (h.ptr_eq c) (h.fd_eq c) (fun k => ?_) (fun k => getElem?_erase_eq ..)
          fun _ => hnone⟩
      · simp [EPoller.updateChannel, EPoller.update, hindex, h.fd_eq, h.ptr_eq, hchan,
          Channel.isNoneEvent, hnone]
      · apply getElem?_eq_ite
        simp [hchan]
    · refine ⟨⟨p.channels, p.registered.insert (fd c) m⟩, { chan c with events := m }, ?_, rfl,
        by simp [hindex], h.update hinj (h.ptr_eq c) (h.fd_eq c) (fun k => ?_) (fun k => ?_)
          (by simp [hindex])⟩
      · simp [EPoller.updateChannel, EPoller.update, hindex, hin, h.fd_eq, h.ptr_eq, hchan,
          Channel.isNoneEvent, hnone]
      · apply getElem?_eq_ite
        simp [hindex, hchan]
      · rw [hindex]
        exact getElem?_insert_eq ..

/-- A channel of the poller without events is removed. -/
theorem Wf.removeChannel (hinj : Function.Injective fd) (h : Wf fd p chan)
    (hnew : (chan c).index ≠ .kNew) (hnone : (chan c).events = 0) :
    ∃ p' c', p.removeChannel (chan c) = some (p', c') ∧ c'.events = 0 ∧ c'.index = .kNew ∧
      Wf fd p' (Function.update chan c c') := by
  have hchan := (h.known_iff c).mpr hnew
  have hreg := h.getElem?_registered hinj c
  cases hindex : (chan c).index with
  | kNew => exact absurd hindex hnew
  | kDeleted =>
    rw [hindex] at hreg
    refine ⟨⟨p.channels.erase (fd c), p.registered⟩, { chan c with index := .kNew }, ?_, hnone, rfl,
      h.update hinj (h.ptr_eq c) (h.fd_eq c) (fun k => getElem?_erase_eq ..) (fun k => ?_)
        (by simp)⟩
    · simp [EPoller.removeChannel, hindex, h.fd_eq, h.ptr_eq, hchan, Channel.isNoneEvent,
        kNoneEvent, hnone]
    · apply getElem?_eq_ite
      simp [hreg]
  | kAdded =>
    refine ⟨⟨p.channels.erase (fd c), p.registered.erase (fd c)⟩, { chan c with index := .kNew },
      ?_, hnone, rfl, h.update hinj (h.ptr_eq c) (h.fd_eq c) (fun k => getElem?_erase_eq ..)
        (fun k => getElem?_erase_eq ..) (by simp)⟩
    simp [EPoller.removeChannel, EPoller.update, hindex, h.fd_eq, h.ptr_eq, hchan,
      Channel.isNoneEvent, kNoneEvent, hnone]

end EPoller

end SearchServer

import SearchServer.Lib.Runs

/-!
# Timers

`TimerQueue` (`net/TimerQueue.cc`): a `std::set` of pairs of an expiration and a `Timer`, and a
descriptor that is armed for the earliest one. When the descriptor fires, `handleRead` takes out
what has expired, runs the callbacks, and then puts the repeating timers back and deletes the
others. Callbacks may add timers. A timer is named by its address, and times are microseconds.

Times are `int64_t`s in the code. A difference of two is computed when the descriptor is set, and
a sum when a timer is put back (`addTime`). An overflow is undefined there, and the argument `wrap`
is what comes out: `id` where nothing overflows, and `int64` on machines that wrap around. `addTime`
also converts a `double`; the field `interval` is the result, not negative if that was in range.

`Inv xs q` says that the set has exactly the live timers but those at the addresses `xs`, each with
its expiration. Inside `handleRead`, `xs` are the timers taken out and not put back or deleted yet.

**Theorem (`timers_fire`).** In every run `handleRead` runs the timers that are due, each once and
in order, and no assertion fails. This is so for every `wrap`.

**Theorem (`timerfd_early`).** With positive clocks and no overflow, the descriptor is never armed
too late. With an overflow it may be armed for the end of time, or not at all (`not_timerfd_early`).
-/

namespace SearchServer

/-- The `int64_t` with the same value modulo 2^64. -/
def int64 (x : ℤ) : ℤ := x.bmod (2 ^ 64)

def IsInt64 (x : ℤ) : Prop := -2 ^ 63 ≤ x ∧ x < 2 ^ 63

instance (x : ℤ) : Decidable (IsInt64 x) := inferInstanceAs (Decidable (_ ∧ _))

theorem int64_eq {x : ℤ} (h : IsInt64 x) : int64 x = x := by
  obtain ⟨hle, hlt⟩ := h
  exact Int.bmod_eq_of_le (by omega) (by omega)

/-- An object of class `Timer`. Its interval is what `addTime` adds. -/
structure Timer where
  expiration : ℤ
  interval : ℤ
  /-- `_repeat`, which is `interval > 0.0`. -/
  repeats : Bool

def Timer.restart (wrap : ℤ → ℤ) (timer : Timer) (now : ℤ) : Timer :=
  { timer with expiration := if timer.repeats then wrap (now + timer.interval) else 0 }

theorem Timer.restart_expiration {wrap : ℤ → ℤ} {timer : Timer} (h : timer.repeats = true)
    (now : ℤ) : (timer.restart wrap now).expiration = wrap (now + timer.interval) := if_pos h

/-- What is left of a timer that has run at `now`. -/
def Timer.rest (wrap : ℤ → ℤ) (timer : Timer) (now : ℤ) : Option Timer :=
  if timer.repeats then some (timer.restart wrap now) else none

structure Timespec where
  sec : ℤ
  nsec : ℤ
deriving DecidableEq

/-- What the descriptor was set to, and the clock then. -/
structure Arming where
  clock : ℤ
  value : Timespec

/-- The descriptor. It fires once. -/
inductive Timerfd where
  | disarmed
  | armed (a : Arming)
  /-- The event has not been read yet. -/
  | fired (a : Arming)

/-- What the descriptor was armed for, until its event is read. -/
def Timerfd.arming : Timerfd → Option Arming
  | .disarmed => none
  | .armed a | .fired a => some a

def kMicroSecondsPerSecond : ℤ := 1000 * 1000

/-- When the descriptor fires, by the clock that was read. -/
def Arming.moment (a : Arming) : ℤ :=
  a.clock + a.value.sec * kMicroSecondsPerSecond + a.value.nsec / 1000

/-- It fires when a timer that expires at `t` is due, or 100 microseconds after it was set. -/
def Arming.Early (a : Arming) (t : ℤ) : Prop := a.moment ≤ max t (a.clock + 100)

/-- `howMuchTimeFromNow`, where `Timestamp::now()` is `clock`. -/
def howMuchTimeFromNow (wrap : ℤ → ℤ) (clock whenever : ℤ) : Timespec :=
  let difference := wrap (whenever - clock)
  let microseconds := if difference < 100 then 100 else difference
  ⟨microseconds / kMicroSecondsPerSecond, microseconds % kMicroSecondsPerSecond * 1000⟩

/-- `timerfd_settime`. A value of zero disarms the descriptor. -/
def timerfdSettime (clock : ℤ) (value : Timespec) : Timerfd :=
  if value = ⟨0, 0⟩ then .disarmed else .armed ⟨clock, value⟩

def uintptrMax : ℕ := 2 ^ 64 - 1

/-- An expiration and the address of a timer, in the order of `std::pair`. -/
abbrev TimerQueue.Entry := ℤ ×ₗ ℕ

/-- A timer that is added, its address, and the clock if the descriptor is set then. -/
structure Addition where
  ptr : ℕ
  timer : Timer
  clock : ℤ

structure TimerQueue where
  timers : Finset TimerQueue.Entry
  /-- The live timers by their addresses. -/
  heap : ℕ → Option Timer
  timerfd : Timerfd

namespace TimerQueue

def init : TimerQueue := ⟨∅, fun _ => none, .disarmed⟩

def time (e : Entry) : ℤ := (ofLex e).1

def ptr (e : Entry) : ℕ := (ofLex e).2

/-- `*_timers.begin()`. -/
def begin? (timers : Finset Entry) : Option Entry :=
  if h : timers.Nonempty then some (timers.min' h) else none

/-- The expiration of `_timers.begin()`. -/
def earliest (q : TimerQueue) : Option ℤ := (begin? q.timers).map time

def setTimerfd (wrap : ℤ → ℤ) (q : TimerQueue) (clock expiration : ℤ) : TimerQueue :=
  { q with timerfd := timerfdSettime clock (howMuchTimeFromNow wrap clock expiration) }

/-- `insert`: whether the earliest expiration has changed, and the queue. -/
def insert (q : TimerQueue) (p : ℕ) : Option (Bool × TimerQueue) := do
  let timer ← q.heap p
  let earliestChanged : Bool := match q.earliest with
    | none => true
    | some first => timer.expiration < first
  let entry : Entry := toLex (timer.expiration, p)
  if entry ∈ q.timers then none
  else some (earliestChanged, { q with timers := Insert.insert entry q.timers })

/-- `addTimerInLoop`, on a new timer. -/
def addTimerInLoop (wrap : ℤ → ℤ) (q : TimerQueue) (x : Addition) : Option TimerQueue := do
  let q := { q with heap := Function.update q.heap x.ptr (some x.timer) }
  let (earliestChanged, q) ← q.insert x.ptr
  return if earliestChanged then q.setTimerfd wrap x.clock x.timer.expiration else q

/-- `readTimerfd`. Without an event the read fails. -/
def readTimerfd (q : TimerQueue) : TimerQueue :=
  match q.timerfd with
  | .fired _ => { q with timerfd := .disarmed }
  | _ => q

def sentry (now : ℤ) : Entry := toLex (now, uintptrMax)

/-- The entries before `lower_bound(sentry)`, in order. -/
def expired (q : TimerQueue) (now : ℤ) : List Entry := (q.timers.filter (· < sentry now)).sort

/-- The earliest expiration of the others. -/
def earliestLater (q : TimerQueue) (now : ℤ) : Option ℤ :=
  (begin? (q.timers.filter (sentry now ≤ ·))).map time

def getExpired (q : TimerQueue) (now : ℤ) : Option (List Entry × TimerQueue) :=
  let rest := q.timers.filter (sentry now ≤ ·)
  if ∀ e ∈ begin? rest, now < time e then some (q.expired now, { q with timers := rest }) else none

/-- The callbacks, where the one of the timer at `p` adds `callbacks p`. Also the addresses of the
timers that have run. -/
def runAll (wrap : ℤ → ℤ) (callbacks : ℕ → List Addition) :
    TimerQueue → List Entry → Option (TimerQueue × List ℕ)
  | q, [] => some (q, [])
  | q, e :: es => do
    let _ ← q.heap (ptr e)
    let q ← (callbacks (ptr e)).foldlM (addTimerInLoop wrap) q
    let (q, ran) ← runAll wrap callbacks q es
    return (q, ptr e :: ran)

/-- The loop body of `reset`. -/
def resetOne (wrap : ℤ → ℤ) (now : ℤ) (q : TimerQueue) (e : Entry) : Option TimerQueue := do
  let timer ← q.heap (ptr e)
  if timer.repeats then
    let q := { q with heap := Function.update q.heap (ptr e) (some (timer.restart wrap now)) }
    let (_, q) ← q.insert (ptr e)
    return q
  else
    return { q with heap := Function.update q.heap (ptr e) none }

/-- `reset`, where the clock is `clock` when the descriptor is set. -/
def reset (wrap : ℤ → ℤ) (q : TimerQueue) (es : List Entry) (now clock : ℤ) :
    Option TimerQueue := do
  let q ← es.foldlM (resetOne wrap now) q
  match begin? q.timers with
  | none => return q
  | some e =>
    let timer ← q.heap (ptr e)
    return if 0 < timer.expiration then q.setTimerfd wrap clock timer.expiration else q

/-- `handleRead`, and which timers it runs. -/
def handleRead (wrap : ℤ → ℤ) (q : TimerQueue) (now : ℤ) (callbacks : ℕ → List Addition)
    (clock : ℤ) : Option (TimerQueue × List ℕ) := do
  let (es, q) ← q.readTimerfd.getExpired now
  let (q, ran) ← runAll wrap callbacks q es
  let q ← q.reset wrap es now clock
  return (q, ran)

inductive Action where
  /-- Outside `handleRead`. -/
  | addTimerInLoop (x : Addition)
  | handleRead (now : ℤ) (callbacks : ℕ → List Addition) (clock : ℤ)
  /-- The descriptor fires. -/
  | fire

/-- The timers that are added in an action. -/
def additions (q : TimerQueue) : Action → List Addition
  | .addTimerInLoop x => [x]
  | .handleRead now callbacks _ => (q.expired now).flatMap fun e => callbacks (ptr e)
  | .fire => []

/-- The timers `ys` are at distinct addresses below `UINTPTR_MAX`, where there is no live timer. -/
def Fresh (q : TimerQueue) (ys : List Addition) : Prop :=
  (ys.map Addition.ptr).Nodup ∧ ∀ x ∈ ys, (q.heap x.ptr).isNone = true ∧ x.ptr < uintptrMax

/-- New timers are at fresh addresses. -/
def Permitted (q : TimerQueue) (a : Action) : Prop := q.Fresh (q.additions a)

instance (q : TimerQueue) (a : Action) : Decidable (q.Permitted a) :=
  inferInstanceAs (Decidable (_ ∧ _))

/-- One action. There is no next state if an assertion fails or a deleted timer is used. -/
def step (wrap : ℤ → ℤ) (q : TimerQueue) (a : Action) : Option TimerQueue :=
  if q.Permitted a then
    match a with
    | .addTimerInLoop x => q.addTimerInLoop wrap x
    | .handleRead now callbacks clock => (q.handleRead wrap now callbacks clock).map Prod.fst
    | .fire => match q.timerfd with
      | .armed arming => some { q with timerfd := .fired arming }
      | _ => none
  else none

variable {wrap : ℤ → ℤ} {q q' : TimerQueue} {p : ℕ} {t now : ℤ} {xs : List ℕ} {x : Addition}

/-! ## The earliest timer -/

theorem begin?_eq_some_iff {timers : Finset Entry} {e : Entry} :
    begin? timers = some e ↔ e ∈ timers ∧ ∀ e' ∈ timers, e ≤ e' := by
  unfold begin?
  split_ifs with h
  · rw [Option.some.injEq]
    constructor
    · rintro rfl
      exact ⟨Finset.min'_mem _ h, fun e' he' => Finset.min'_le _ _ he'⟩
    · rintro ⟨he, hle⟩
      exact le_antisymm (Finset.min'_le _ _ he) (hle _ (Finset.min'_mem _ h))
  · refine iff_of_false (by simp) fun he => h ⟨e, he.1⟩

theorem begin?_eq_none_iff {timers : Finset Entry} : begin? timers = none ↔ timers = ∅ := by
  unfold begin?
  split_ifs with h
  · simpa using h.ne_empty
  · simpa using h

theorem time_le_of_le {e e' : Entry} (h : e ≤ e') : time e ≤ time e' := Prod.Lex.monotone_fst _ _ h

theorem earliest_eq_some_iff :
    q.earliest = some t ↔ (∃ e ∈ q.timers, time e = t) ∧ ∀ e ∈ q.timers, t ≤ time e := by
  rw [earliest, Option.map_eq_some_iff]
  constructor
  · rintro ⟨e, he, rfl⟩
    obtain ⟨hmem, hle⟩ := begin?_eq_some_iff.mp he
    exact ⟨⟨e, hmem, rfl⟩, fun e' he' => time_le_of_le (hle e' he')⟩
  · rintro ⟨⟨e, he, rfl⟩, hle⟩
    cases hbegin : begin? q.timers with
    | none =>
      rw [begin?_eq_none_iff.mp hbegin] at he
      exact absurd he (Finset.notMem_empty e)
    | some e' =>
      obtain ⟨hmem, hmin⟩ := begin?_eq_some_iff.mp hbegin
      exact ⟨e', rfl, le_antisymm (time_le_of_le (hmin e he)) (hle e' hmem)⟩

/-- The earliest expiration when `t` is added. -/
def earlier (first : Option ℤ) (t : ℤ) : Option ℤ := some (first.elim t (min t))

theorem earliest_insert_eq {e : Entry} (h : q'.timers = Insert.insert e q.timers) :
    q'.earliest = earlier q.earliest (time e) := by
  apply earliest_eq_some_iff.mpr
  rw [h]
  cases hfirst : q.earliest with
  | none =>
    have hempty : q.timers = ∅ := begin?_eq_none_iff.mp (Option.map_eq_none_iff.mp hfirst)
    simp [hempty]
  | some first =>
    obtain ⟨⟨e₀, he₀, rfl⟩, hle⟩ := earliest_eq_some_iff.mp hfirst
    refine ⟨?_, fun e' he' => ?_⟩
    · rcases min_choice (time e) (time e₀) with hmin | hmin
      · exact ⟨e, Finset.mem_insert_self _ _, hmin.symm⟩
      · exact ⟨e₀, Finset.mem_insert_of_mem he₀, hmin.symm⟩
    · rcases Finset.mem_insert.mp he' with rfl | he'
      · exact min_le_left _ _
      · exact (min_le_right _ _).trans (hle e' he')

/-- Either the new entry is the earliest one, or the earliest expiration stays. -/
theorem earliest_insert {e : Entry} (h : q'.timers = Insert.insert e q.timers)
    (ht : q'.earliest = some t) :
    (t = time e ∧ ∀ s, q.earliest = some s → time e ≤ s) ∨ (q.earliest = some t ∧ t ≤ time e) := by
  rw [earliest_insert_eq h, earlier, Option.some.injEq] at ht
  cases hfirst : q.earliest with
  | none =>
    rw [hfirst, Option.elim_none] at ht
    exact Or.inl ⟨ht.symm, by simp⟩
  | some first =>
    rw [hfirst, Option.elim_some] at ht
    rcases le_total (time e) first with hle | hle
    · rw [min_eq_left hle] at ht
      exact Or.inl ⟨ht.symm, fun s hs => hle.trans_eq (Option.some.inj hs)⟩
    · rw [min_eq_right hle] at ht
      exact Or.inr ⟨congrArg some ht, ht ▸ hle⟩

/-! ## The descriptor -/

/-- What fits into an `int64_t` is what comes out. -/
def Exact (wrap : ℤ → ℤ) : Prop := ∀ d, IsInt64 d → wrap d = d

theorem exact_int64 : Exact int64 := fun _ => int64_eq

/-- The earliest expiration, first `first`, when the timers `ys` have been added. -/
def earliestAfter (first : Option ℤ) (ys : List Addition) : Option ℤ :=
  ys.foldl (fun first x => earlier first x.timer.expiration) first

/-- The descriptor is set for those of the timers `ys` that are earlier than all before them. No
difference overflows then. -/
def DifferencesFit : Option ℤ → List Addition → Prop
  | _, [] => True
  | first, x :: ys =>
    ((∀ t, first = some t → x.timer.expiration < t) →
      IsInt64 (x.timer.expiration - x.clock)) ∧
    DifferencesFit (earlier first x.timer.expiration) ys

theorem differencesFit_append {first : Option ℤ} {ys zs : List Addition} :
    DifferencesFit first (ys ++ zs) ↔
      DifferencesFit first ys ∧ DifferencesFit (earliestAfter first ys) zs := by
  induction ys generalizing first with
  | nil => exact (true_and _).symm.to_iff
  | cons y ys ih =>
    rw [List.cons_append, DifferencesFit, DifferencesFit, ih, and_assoc]
    rfl

/-- If the earliest expiration has the property, the descriptor is armed for it, or it has fired and
its event has not been read. -/
def CoveredIf (P : ℤ → Prop) (q : TimerQueue) : Prop :=
  ∀ t, q.earliest = some t → P t → ∃ a, q.timerfd.arming = some a ∧ a.Early t

/-- The value is never zero, so the descriptor is armed. -/
theorem arming_timerfdSettime (wrap : ℤ → ℤ) (clock t : ℤ) :
    (timerfdSettime clock (howMuchTimeFromNow wrap clock t)).arming =
      some ⟨clock, howMuchTimeFromNow wrap clock t⟩ := by
  have hne : howMuchTimeFromNow wrap clock t ≠ ⟨0, 0⟩ := by
    intro heq
    obtain ⟨hsec, hnsec⟩ := Timespec.mk.inj heq
    unfold kMicroSecondsPerSecond at *
    split_ifs at hsec hnsec <;> omega
  rw [timerfdSettime, if_neg hne]
  rfl

theorem moment_howMuchTimeFromNow (wrap : ℤ → ℤ) (clock t : ℤ) :
    (Arming.mk clock (howMuchTimeFromNow wrap clock t)).moment =
      clock + max 100 (wrap (t - clock)) := by
  unfold Arming.moment howMuchTimeFromNow kMicroSecondsPerSecond
  dsimp only
  split_ifs <;> omega

/-- It is armed in time when the difference is what it should be. -/
theorem coveredIf_setTimerfd {P : ℤ → Prop} {clock : ℤ} (h : q.earliest = some t)
    (hwrap : wrap (t - clock) = t - clock) : CoveredIf P (q.setTimerfd wrap clock t) := by
  intro s hs _
  have hst : s = t := Option.some.inj (hs.symm.trans h)
  refine ⟨_, arming_timerfdSettime wrap clock t, ?_⟩
  rw [hst, Arming.Early, moment_howMuchTimeFromNow, hwrap]
  dsimp only
  omega

/-! ## The invariant -/

/-- The set has the live timers but those at `xs`, each with its expiration. -/
structure Inv (xs : List ℕ) (q : TimerQueue) : Prop where
  mem_iff : ∀ (t : ℤ) (p : ℕ), toLex (t, p) ∈ q.timers ↔
    p ∉ xs ∧ ∃ timer, q.heap p = some timer ∧ timer.expiration = t
  live : ∀ p ∈ xs, q.heap p ≠ none
  lt : ∀ p, q.heap p ≠ none → p < uintptrMax

theorem inv_init : Inv [] init where
  mem_iff t p := by simp [init]
  live p hp := by cases hp
  lt p hp := absurd rfl hp

theorem Inv.congr (h : Inv xs q) (htimers : q'.timers = q.timers) (hheap : q'.heap = q.heap) :
    Inv xs q' where
  mem_iff := by
    rw [htimers, hheap]
    exact h.mem_iff
  live := by
    rw [hheap]
    exact h.live
  lt := by
    rw [hheap]
    exact h.lt

theorem Inv.notMem (h : Inv xs q) (hp : q.heap p = none) (t : ℤ) : toLex (t, p) ∉ q.timers := by
  intro hmem
  obtain ⟨-, timer, htimer, -⟩ := (h.mem_iff t p).mp hmem
  rw [hp] at htimer
  cases htimer

/-- Between the actions every live timer is in the set, once. -/
theorem Inv.mem_iff_eq (h : Inv [] q) {timer : Timer} (hp : q.heap p = some timer) :
    toLex (t, p) ∈ q.timers ↔ t = timer.expiration := by
  rw [h.mem_iff, hp]
  simp [eq_comm]

/-- A timer that is not in the set is inserted. -/
theorem Inv.insert (h : Inv (p :: xs) q) (hp : p ∉ xs) {timer : Timer}
    (htimer : q.heap p = some timer) :
    ∃ b q', q.insert p = some (b, q') ∧ Inv xs q' ∧ q'.heap = q.heap ∧ q'.timerfd = q.timerfd ∧
      q'.timers = Insert.insert (toLex (timer.expiration, p)) q.timers ∧
      (b = true ↔ ∀ t, q.earliest = some t → timer.expiration < t) := by
  have hnot : toLex (timer.expiration, p) ∉ q.timers := by
    intro hmem
    exact ((h.mem_iff _ _).mp hmem).1 List.mem_cons_self
  refine ⟨match q.earliest with
    | none => true
    | some first => timer.expiration < first,
    { q with timers := Insert.insert (toLex (timer.expiration, p)) q.timers }, ?_,
    ⟨fun t r => ?_, fun r hr => ?_, h.lt⟩, rfl, rfl, rfl, ?_⟩
  · rw [TimerQueue.insert, htimer]
    exact if_neg hnot
  · rw [Finset.mem_insert, h.mem_iff, toLex.injective.eq_iff, Prod.mk.injEq]
    by_cases hr : r = p
    · subst hr
      simp [hp, htimer, eq_comm]
    · simp [hr]
  · exact h.live r (List.mem_cons_of_mem _ hr)
  · cases hearliest : q.earliest with
    | none => simp
    | some s => simp

/-- A timer at an address without an entry is written. -/
theorem Inv.store {ys : List ℕ} (h : Inv ys q) (hys : ∀ r ≠ p, r ∈ ys ↔ r ∈ xs)
    (hnot : ∀ t, toLex (t, p) ∉ q.timers) (hlt : p < uintptrMax) (timer : Timer) :
    Inv (p :: xs) { q with heap := Function.update q.heap p (some timer) } where
  mem_iff t r := by
    by_cases hr : r = p
    · subst hr
      simp [hnot]
    · simp [h.mem_iff, hys r hr, hr]
  live r hr := by
    dsimp only
    by_cases hrp : r = p
    · rw [hrp, Function.update_self]
      simp
    · rw [Function.update_of_ne hrp]
      exact h.live r ((hys r hrp).mpr ((List.mem_cons.mp hr).resolve_left hrp))
  lt r hr := by
    dsimp only at hr
    by_cases hrp : r = p
    · rwa [hrp]
    · rw [Function.update_of_ne hrp] at hr
      exact h.lt r hr

theorem Inv.delete (h : Inv (p :: xs) q) (hp : p ∉ xs) :
    Inv xs { q with heap := Function.update q.heap p none } where
  mem_iff t r := by
    by_cases hr : r = p
    · subst hr
      simp [h.mem_iff]
    · simp [h.mem_iff, hr]
  live r hr := by
    have hrp : r ≠ p := fun heq => hp (heq ▸ hr)
    dsimp only
    rw [Function.update_of_ne hrp]
    exact h.live r (List.mem_cons_of_mem _ hr)
  lt r hr := by
    dsimp only at hr
    by_cases hrp : r = p
    · rw [hrp, Function.update_self] at hr
      exact absurd rfl hr
    · rw [Function.update_of_ne hrp] at hr
      exact h.lt r hr

/-! ## Adding timers -/

/-- The timers `ys` are new, and the others are as they were. -/
structure Added (ys : List Addition) (q q' : TimerQueue) : Prop where
  new : ∀ x ∈ ys, q'.heap x.ptr = some x.timer
  old : ∀ p, p ∉ ys.map Addition.ptr → q'.heap p = q.heap p

theorem Added.ne_none {ys : List Addition} (h : Added ys q q') (hp : q.heap p ≠ none) :
    q'.heap p ≠ none := by
  by_cases hmem : p ∈ ys.map Addition.ptr
  · obtain ⟨y, hy, rfl⟩ := List.mem_map.mp hmem
    simp [h.new y hy]
  · rwa [h.old p hmem]

theorem Fresh.eq_none {ys : List Addition} (h : q.Fresh ys) (hp : p ∈ ys.map Addition.ptr) :
    q.heap p = none := by
  obtain ⟨y, hy, rfl⟩ := List.mem_map.mp hp
  exact Option.isNone_iff_eq_none.mp (h.2 y hy).1

theorem Fresh.left {ys zs : List Addition} (h : q.Fresh (ys ++ zs)) : q.Fresh ys := by
  obtain ⟨hnodup, hnew⟩ := h
  rw [List.map_append] at hnodup
  exact ⟨hnodup.of_append_left, fun y hy => hnew y (List.mem_append_left _ hy)⟩

/-- The addresses of `zs` are still fresh when `ys` have been added. -/
theorem Fresh.right {ys zs : List Addition} (h : q.Fresh (ys ++ zs)) (hadded : Added ys q q') :
    q'.Fresh zs := by
  obtain ⟨hnodup, hnew⟩ := h
  rw [List.map_append, List.nodup_append] at hnodup
  obtain ⟨-, hzs, hdisjoint⟩ := hnodup
  refine ⟨hzs, fun z hz => ?_⟩
  have hnot : z.ptr ∉ ys.map Addition.ptr := fun hmem =>
    hdisjoint _ hmem _ (List.mem_map_of_mem hz) rfl
  rw [hadded.old _ hnot]
  exact hnew z (List.mem_append_right _ hz)

theorem Added.append {ys zs : List Addition} {q₁ : TimerQueue} (hys : Added ys q q₁)
    (hzs : Added zs q₁ q') (hfresh : q.Fresh (ys ++ zs)) : Added (ys ++ zs) q q' where
  new x hx := by
    rcases List.mem_append.mp hx with hx | hx
    · -- It is live when `zs` are added, so its address is not fresh then.
      have hlive : q₁.heap x.ptr = some x.timer := hys.new x hx
      have hnot : x.ptr ∉ zs.map Addition.ptr := fun hmem => by
        simp [(hfresh.right hys).eq_none hmem] at hlive
      rw [hzs.old _ hnot, hlive]
    · exact hzs.new x hx
  old r hr := by
    rw [List.map_append, List.mem_append, not_or] at hr
    rw [hzs.old r hr.2, hys.old r hr.1]

/-- The timers `ys` have been added to `q`. If no difference overflows, then whatever the descriptor
was armed for it is still armed for. -/
structure Armed (wrap : ℤ → ℤ) (ys : List Addition) (q q' : TimerQueue) : Prop where
  earliest_eq : q'.earliest = earliestAfter q.earliest ys
  covered : Exact wrap → DifferencesFit q.earliest ys → ∀ P, CoveredIf P q → CoveredIf P q'

theorem Armed.refl (wrap : ℤ → ℤ) (q : TimerQueue) : Armed wrap [] q q :=
  ⟨rfl, fun _ _ _ hcovered => hcovered⟩

theorem Armed.append {ys zs : List Addition} {q₁ : TimerQueue} (hys : Armed wrap ys q q₁)
    (hzs : Armed wrap zs q₁ q') : Armed wrap (ys ++ zs) q q' where
  earliest_eq := by
    rw [hzs.earliest_eq, hys.earliest_eq, earliestAfter, earliestAfter, earliestAfter,
      List.foldl_append]
  covered hexact hfit P hcovered := by
    obtain ⟨hfirst, hrest⟩ := differencesFit_append.mp hfit
    rw [← hys.earliest_eq] at hrest
    exact hzs.covered hexact hrest P (hys.covered hexact hfirst P hcovered)

variable (wrap) in
theorem Inv.addTimerInLoop (h : Inv xs q) (hfresh : q.Fresh [x]) :
    ∃ q', q.addTimerInLoop wrap x = some q' ∧ Inv xs q' ∧ Added [x] q q' ∧
      Armed wrap [x] q q' := by
  have hnone : q.heap x.ptr = none := hfresh.eq_none (List.mem_singleton_self _)
  have hlt : x.ptr < uintptrMax := (hfresh.2 x (List.mem_singleton_self _)).2
  have hp : x.ptr ∉ xs := fun hmem => h.live _ hmem hnone
  obtain ⟨b, q₁, hinsert, hinv, hheap, hfd, htimers, hb⟩ :=
    (h.store (fun _ _ => Iff.rfl) (h.notMem hnone) hlt x.timer).insert hp (Function.update_self ..)
  have hadded : Added [x] q q₁ := by
    refine ⟨fun y hy => ?_, fun r hr => ?_⟩
    · obtain rfl := List.mem_singleton.mp hy
      rw [hheap]
      exact Function.update_self ..
    · rw [hheap]
      exact Function.update_of_ne (by simpa using hr) ..
  have hadd : q.addTimerInLoop wrap x =
      some (if b then q₁.setTimerfd wrap x.clock x.timer.expiration else q₁) := by
    rw [TimerQueue.addTimerInLoop]
    simp only [hinsert]
    rfl
  have hearliest : q₁.earliest = earliestAfter q.earliest [x] := earliest_insert_eq htimers
  refine ⟨_, hadd, ?_⟩
  cases b with
  | true =>
    -- The new timer is earlier than all others, and the descriptor is set for it.
    refine ⟨hinv.congr rfl rfl, ⟨hadded.new, hadded.old⟩, hearliest,
      fun hexact hfit P _ s hs hPs => ?_⟩
    have hs₁ : q₁.earliest = some s := hs
    have hearly : s = x.timer.expiration := by
      rcases earliest_insert htimers hs₁ with ⟨rfl, -⟩ | ⟨hold, hle⟩
      · rfl
      · have hlt := hb.mp rfl s hold
        exact absurd hlt (not_lt.mpr hle)
    have hwrap := hexact _ (hfit.1 (hb.mp rfl))
    exact coveredIf_setTimerfd (hearly ▸ hs₁) hwrap s hs hPs
  | false =>
    refine ⟨hinv, hadded, hearliest, fun _ _ P hcovered s hs hPs => ?_⟩
    rw [show (if false = true then q₁.setTimerfd wrap x.clock x.timer.expiration else q₁) = q₁ from
      rfl] at hs ⊢
    rw [hfd]
    refine hcovered s ?_ hPs
    rcases earliest_insert htimers hs with ⟨hst, hall⟩ | ⟨hold, -⟩
    · -- The new timer is not the earliest, so it has the same expiration as the earliest.
      have hnot : ¬ ∀ t, q.earliest = some t → x.timer.expiration < t := fun hall => by
        cases hb.mpr hall
      push Not at hnot
      obtain ⟨s₀, hs₀, hle⟩ := hnot
      have hge : x.timer.expiration ≤ s₀ := hall s₀ hs₀
      rw [hs₀, hst]
      exact congrArg some (le_antisymm hle hge)
    · exact hold

variable (wrap) in
theorem Inv.addAll {ys : List Addition} (h : Inv xs q) (hfresh : q.Fresh ys) :
    ∃ q', ys.foldlM (TimerQueue.addTimerInLoop wrap) q = some q' ∧ Inv xs q' ∧ Added ys q q' ∧
      Armed wrap ys q q' := by
  induction ys generalizing q with
  | nil => exact ⟨q, rfl, h, ⟨by simp, fun _ _ => rfl⟩, .refl wrap q⟩
  | cons y ys ih =>
    have hfresh : q.Fresh ([y] ++ ys) := hfresh
    obtain ⟨q₁, hone, hinv₁, hadded₁, harmed₁⟩ := h.addTimerInLoop wrap hfresh.left
    obtain ⟨q₂, hall, hinv₂, hadded₂, harmed₂⟩ := ih hinv₁ (hfresh.right hadded₁)
    refine ⟨q₂, ?_, hinv₂, hadded₁.append hadded₂ hfresh, harmed₁.append harmed₂⟩
    rw [List.foldlM_cons, hone]
    exact hall

/-! ## The expired timers -/

theorem Inv.lt_sentry_iff (h : Inv xs q) {e : Entry} (he : e ∈ q.timers) :
    e < sentry now ↔ time e ≤ now := by
  obtain ⟨-, timer, htimer, -⟩ := (h.mem_iff (time e) (ptr e)).mp he
  have hlt : ptr e < uintptrMax := h.lt _ (by simp [htimer])
  rw [Prod.Lex.lt_iff, le_iff_lt_or_eq]
  exact or_congr_right (and_iff_left hlt)

theorem Inv.mem_expired (h : Inv xs q) {e : Entry} :
    e ∈ q.expired now ↔ e ∈ q.timers ∧ time e ≤ now := by
  rw [expired, Finset.mem_sort, Finset.mem_filter]
  exact and_congr_right h.lt_sentry_iff

/-- A live timer has one entry. -/
theorem Inv.eq_of_ptr_eq (h : Inv xs q) {e e' : Entry} (he : e ∈ q.timers) (he' : e' ∈ q.timers)
    (hptr : ptr e = ptr e') : e = e' := by
  obtain ⟨-, timer, htimer, htime⟩ := (h.mem_iff (time e) (ptr e)).mp he
  obtain ⟨-, timer', htimer', htime'⟩ := (h.mem_iff (time e') (ptr e')).mp he'
  rw [hptr, htimer', Option.some.injEq] at htimer
  subst htimer
  exact ofLex.injective (Prod.ext (htime.symm.trans htime') hptr)

theorem Inv.mem_map_expired (h : Inv xs q) :
    p ∈ (q.expired now).map ptr ↔ ∃ t ≤ now, toLex (t, p) ∈ q.timers := by
  rw [List.mem_map]
  constructor
  · rintro ⟨e, he, rfl⟩
    obtain ⟨hmem, hle⟩ := h.mem_expired.mp he
    exact ⟨time e, hle, hmem⟩
  · rintro ⟨t, hle, hmem⟩
    exact ⟨_, h.mem_expired.mpr ⟨hmem, hle⟩, rfl⟩

theorem Inv.nodup_expired (h : Inv xs q) : ((q.expired now).map ptr).Nodup := by
  refine List.Nodup.map_on (fun e he e' he' hptr => ?_) (Finset.sort_nodup _ _)
  exact h.eq_of_ptr_eq (h.mem_expired.mp he).1 (h.mem_expired.mp he').1 hptr

theorem pairwise_expired (q : TimerQueue) (now : ℤ) :
    (q.expired now).Pairwise fun e e' => time e ≤ time e' :=
  (Finset.pairwise_sort _ _).imp time_le_of_le

/-- The expired timers are taken out of the set, and they are still live. -/
theorem Inv.getExpired (h : Inv [] q) (now : ℤ) :
    ∃ q', q.getExpired now = some (q.expired now, q') ∧ Inv ((q.expired now).map ptr) q' ∧
      q'.heap = q.heap ∧ q'.earliest = q.earliestLater now ∧
      ∀ t, q'.earliest = some t → now < t := by
  have hlater : ∀ e ∈ q.timers.filter (sentry now ≤ ·), now < time e := by
    intro e he
    obtain ⟨hmem, hle⟩ := Finset.mem_filter.mp he
    exact not_le.mp fun hdue => absurd ((h.lt_sentry_iff hmem).mpr hdue) (not_lt.mpr hle)
  refine ⟨{ q with timers := q.timers.filter (sentry now ≤ ·) }, if_pos fun e he => ?_,
    ⟨fun t r => ?_, fun r hr => ?_, h.lt⟩, rfl, rfl, fun t ht => ?_⟩
  · exact hlater e (begin?_eq_some_iff.mp he).1
  · rw [Finset.mem_filter, h.mem_map_expired]
    constructor
    · rintro ⟨hmem, hle⟩
      refine ⟨?_, ((h.mem_iff t r).mp hmem).2⟩
      rintro ⟨t', hdue, hmem'⟩
      have heq := h.eq_of_ptr_eq hmem hmem' rfl
      exact absurd ((h.lt_sentry_iff hmem').mpr hdue) (not_lt.mpr (heq ▸ hle))
    · rintro ⟨hnot, hlive⟩
      have hmem := (h.mem_iff t r).mpr ⟨List.not_mem_nil, hlive⟩
      exact ⟨hmem, not_lt.mp fun hlt => hnot ⟨t, (h.lt_sentry_iff hmem).mp hlt, hmem⟩⟩
  · obtain ⟨t, -, hmem⟩ := h.mem_map_expired.mp hr
    obtain ⟨-, timer, htimer, -⟩ := (h.mem_iff t r).mp hmem
    simp [htimer]
  · obtain ⟨⟨e, he, rfl⟩, -⟩ := earliest_eq_some_iff.mp ht
    exact hlater e he

variable (wrap) in
/-- The callbacks of live timers run, each once and in order. -/
theorem Inv.runAll {callbacks : ℕ → List Addition} {es : List Entry} (h : Inv xs q)
    (hlive : ∀ e ∈ es, q.heap (ptr e) ≠ none)
    (hfresh : q.Fresh (es.flatMap fun e => callbacks (ptr e))) :
    ∃ q', TimerQueue.runAll wrap callbacks q es = some (q', es.map ptr) ∧ Inv xs q' ∧
      Added (es.flatMap fun e => callbacks (ptr e)) q q' ∧
      Armed wrap (es.flatMap fun e => callbacks (ptr e)) q q' := by
  induction es generalizing q with
  | nil => exact ⟨q, rfl, h, ⟨by simp, fun _ _ => rfl⟩, .refl wrap q⟩
  | cons e es ih =>
    obtain ⟨timer, htimer⟩ := Option.ne_none_iff_exists'.mp (hlive e List.mem_cons_self)
    rw [List.flatMap_cons] at hfresh ⊢
    obtain ⟨q₁, hadd, hinv₁, hadded₁, harmed₁⟩ := h.addAll wrap hfresh.left
    have hlive₁ : ∀ e' ∈ es, q₁.heap (ptr e') ≠ none := fun e' he' =>
      hadded₁.ne_none (hlive e' (List.mem_cons_of_mem _ he'))
    obtain ⟨q₂, hrun, hinv₂, hadded₂, harmed₂⟩ := ih hinv₁ hlive₁ (hfresh.right hadded₁)
    refine ⟨q₂, ?_, hinv₂, hadded₁.append hadded₂ hfresh, harmed₁.append harmed₂⟩
    simp [TimerQueue.runAll, htimer, hadd, hrun]

/-! ## The reset -/

/-- Timers that expire later than zero do not change what the descriptor is armed for at zero or
before. -/
theorem CoveredIf.insert_pos {e : Entry} (h : CoveredIf (· ≤ 0) q)
    (htimers : q'.timers = Insert.insert e q.timers) (hfd : q'.timerfd = q.timerfd)
    (hpos : 0 < time e) : CoveredIf (· ≤ 0) q' := by
  intro t ht hle
  rcases earliest_insert htimers ht with ⟨rfl, -⟩ | ⟨hold, -⟩
  · exact absurd hle (not_le.mpr hpos)
  · rw [hfd]
    exact h t hold hle

/-- The repeating timers of `es` expire later than zero when they are put back. -/
def RestartsLater (wrap : ℤ → ℤ) (q : TimerQueue) (es : List Entry) (now : ℤ) : Prop :=
  ∀ e ∈ es, ∀ timer, q.heap (ptr e) = some timer → timer.repeats = true →
    0 < wrap (now + timer.interval)

variable (wrap) in
theorem Inv.resetOne {e : Entry} (h : Inv (ptr e :: xs) q) (hp : ptr e ∉ xs) (now : ℤ) :
    ∃ q', TimerQueue.resetOne wrap now q e = some q' ∧ Inv xs q' ∧
      q'.heap = Function.update q.heap (ptr e) ((q.heap (ptr e)).bind (Timer.rest wrap · now)) ∧
      (RestartsLater wrap q [e] now → CoveredIf (· ≤ 0) q → CoveredIf (· ≤ 0) q') := by
  obtain ⟨timer, htimer⟩ := Option.ne_none_iff_exists'.mp (h.live _ List.mem_cons_self)
  cases hrepeats : timer.repeats with
  | true =>
    have hys : ∀ r ≠ ptr e, r ∈ ptr e :: xs ↔ r ∈ xs := fun r hr => by simp [hr]
    have hnot : ∀ t, toLex (t, ptr e) ∉ q.timers := fun t hmem =>
      ((h.mem_iff t _).mp hmem).1 List.mem_cons_self
    have hlt : ptr e < uintptrMax := h.lt _ (h.live _ List.mem_cons_self)
    obtain ⟨b, q', hinsert, hinv', hheap, hfd, htimers, -⟩ :=
      (h.store hys hnot hlt (timer.restart wrap now)).insert hp (Function.update_self ..)
    refine ⟨q', ?_, hinv', ?_, fun hlater hcovered => ?_⟩
    · simp [TimerQueue.resetOne, htimer, hrepeats, hinsert]
    · rw [hheap, htimer]
      simp [Timer.rest, hrepeats]
    · refine CoveredIf.insert_pos hcovered htimers hfd ?_
      change 0 < (timer.restart wrap now).expiration
      rw [Timer.restart_expiration hrepeats]
      exact hlater e (List.mem_singleton_self _) timer htimer hrepeats
  | false =>
    refine ⟨{ q with heap := Function.update q.heap (ptr e) none }, ?_, h.delete hp, ?_,
      fun _ hcovered => hcovered⟩
    · simp [TimerQueue.resetOne, htimer, hrepeats]
    · simp [htimer, Timer.rest, hrepeats]

theorem Inv.resetAll {es : List Entry} (h : Inv (es.map ptr) q) (hnodup : (es.map ptr).Nodup)
    (now : ℤ) :
    ∃ q', es.foldlM (TimerQueue.resetOne wrap now) q = some q' ∧ Inv [] q' ∧
      (∀ p ∈ es.map ptr, q'.heap p = (q.heap p).bind (Timer.rest wrap · now)) ∧
      (∀ p ∉ es.map ptr, q'.heap p = q.heap p) ∧
      (RestartsLater wrap q es now → CoveredIf (· ≤ 0) q → CoveredIf (· ≤ 0) q') := by
  induction es generalizing q with
  | nil => exact ⟨q, rfl, h, by simp, fun _ _ => rfl, fun _ hcovered => hcovered⟩
  | cons e es ih =>
    obtain ⟨hnot, hnodup⟩ := List.nodup_cons.mp hnodup
    obtain ⟨q₁, hone, hinv₁, hheap₁, hcovered₁⟩ := h.resetOne wrap hnot now
    obtain ⟨q₂, hall, hinv₂, hran, hold, hcovered₂⟩ := ih hinv₁ hnodup
    have hother : ∀ p, p ≠ ptr e → q₁.heap p = q.heap p := fun p hp => by
      rw [hheap₁, Function.update_of_ne hp]
    have hrest : RestartsLater wrap q (e :: es) now → RestartsLater wrap q₁ es now := by
      intro hlater e' he' timer htimer
      rw [hother _ fun heq => hnot (heq ▸ List.mem_map_of_mem he')] at htimer
      exact hlater e' (List.mem_cons_of_mem _ he') timer htimer
    have hfirst : RestartsLater wrap q (e :: es) now → RestartsLater wrap q [e] now :=
      fun hlater e' he' => hlater e' (List.mem_singleton.mp he' ▸ List.mem_cons_self)
    refine ⟨q₂, ?_, hinv₂, fun p hp => ?_, fun p hp => ?_, fun hlater hcovered =>
      hcovered₂ (hrest hlater) (hcovered₁ (hfirst hlater) hcovered)⟩
    · rw [List.foldlM_cons, hone]
      exact hall
    · rcases List.mem_cons.mp hp with rfl | hp
      · rw [hold _ hnot, hheap₁, Function.update_self]
      · rw [hran p hp, hother p fun heq => hnot (heq ▸ hp)]
    · rw [List.map_cons, List.mem_cons, not_or] at hp
      rw [hold p hp.2, hother p hp.1]

/-- The expirations of the live timers are `int64_t`s. -/
def InRange (q : TimerQueue) : Prop := ∀ p timer, q.heap p = some timer → IsInt64 timer.expiration

variable (wrap) in
/-- The descriptor is set for the earliest timer, unless that expires at zero or before. -/
theorem Inv.reset {es : List Entry} (h : Inv (es.map ptr) q) (hnodup : (es.map ptr).Nodup)
    (now clock : ℤ) :
    ∃ q', q.reset wrap es now clock = some q' ∧ Inv [] q' ∧
      (∀ p ∈ es.map ptr, q'.heap p = (q.heap p).bind (Timer.rest wrap · now)) ∧
      (∀ p ∉ es.map ptr, q'.heap p = q.heap p) ∧
      (Exact wrap → RestartsLater wrap q es now → InRange q' → 0 < clock → IsInt64 clock →
        CoveredIf (· ≤ 0) q → CoveredIf (fun _ => True) q') := by
  obtain ⟨q₁, hall, hinv, hran, hold, hcovered⟩ := h.resetAll hnodup now
  cases hbegin : begin? q₁.timers with
  | none =>
    refine ⟨q₁, ?_, hinv, hran, hold, fun _ _ _ _ _ _ t ht _ => ?_⟩
    · simp [TimerQueue.reset, hall, hbegin]
    · rw [earliest, hbegin] at ht
      cases ht
  | some e =>
    have hearliest : q₁.earliest = some (time e) := by rw [earliest, hbegin, Option.map_some]
    obtain ⟨-, timer, htimer, htime⟩ :=
      (hinv.mem_iff (time e) (ptr e)).mp (begin?_eq_some_iff.mp hbegin).1
    have hreset : q.reset wrap es now clock =
        some (if 0 < timer.expiration then q₁.setTimerfd wrap clock timer.expiration else q₁) := by
      simp [TimerQueue.reset, hall, hbegin, htimer]
    refine ⟨_, hreset, ?_⟩
    split_ifs with hpos
    · refine ⟨hinv.congr rfl rfl, hran, hold, fun hexact _ hrange hclock hint _ => ?_⟩
      -- Both are positive, so that the difference fits.
      have hfits : IsInt64 (timer.expiration - clock) := by
        obtain ⟨-, hlt⟩ := hrange _ _ htimer
        obtain ⟨-, hlt'⟩ := hint
        unfold IsInt64
        omega
      exact coveredIf_setTimerfd (hearliest.trans (congrArg some htime.symm)) (hexact _ hfits)
    · refine ⟨hinv, hran, hold, fun _ hlater _ _ _ hq t ht _ => hcovered hlater hq t ht ?_⟩
      obtain rfl : time e = t := Option.some.inj (hearliest.symm.trans ht)
      rw [← htime]
      exact not_lt.mp hpos

/-! ## Handling the event -/

/-- The timers at the addresses `ran` have run, the timers `ys` are new, and the others are as they
were. -/
structure Handled (wrap : ℤ → ℤ) (now : ℤ) (ran : List ℕ) (ys : List Addition)
    (q q' : TimerQueue) : Prop where
  rest : ∀ p ∈ ran, q'.heap p = (q.heap p).bind (Timer.rest wrap · now)
  new : ∀ x ∈ ys, q'.heap x.ptr = some x.timer
  old : ∀ p ∉ ran, p ∉ ys.map Addition.ptr → q'.heap p = q.heap p

theorem readTimerfd_timers (q : TimerQueue) : q.readTimerfd.timers = q.timers := by
  unfold readTimerfd
  split <;> rfl

theorem readTimerfd_heap (q : TimerQueue) : q.readTimerfd.heap = q.heap := by
  unfold readTimerfd
  split <;> rfl

theorem expired_readTimerfd (q : TimerQueue) (now : ℤ) :
    q.readTimerfd.expired now = q.expired now := by
  rw [expired, expired, readTimerfd_timers]

theorem earliestLater_readTimerfd (q : TimerQueue) (now : ℤ) :
    q.readTimerfd.earliestLater now = q.earliestLater now := by
  rw [earliestLater, earliestLater, readTimerfd_timers]

/-- The clocks are positive `int64_t`s, and the expirations of new timers are `int64_t`s. -/
def ClocksPositive (q : TimerQueue) (a : Action) : Prop :=
  (∀ x ∈ q.additions a, IsInt64 x.timer.expiration ∧ 0 < x.clock ∧ IsInt64 x.clock) ∧
  match a with
  | .handleRead now _ clock => (0 < now ∧ IsInt64 now) ∧ 0 < clock ∧ IsInt64 clock
  | _ => True

theorem clocksPositive_addTimerInLoop : q.ClocksPositive (.addTimerInLoop x) ↔
    IsInt64 x.timer.expiration ∧ 0 < x.clock ∧ IsInt64 x.clock := by
  simp [ClocksPositive, additions]

theorem clocksPositive_fire : q.ClocksPositive .fire := by simp [ClocksPositive, additions]

/-- When the descriptor is set for a new timer, its expiration minus the clock fits into an
`int64_t`. So do the new expiration of each timer that is put back, and its interval. -/
def NoOverflow (q : TimerQueue) (a : Action) : Prop :=
  match a with
  | .addTimerInLoop x => DifferencesFit q.earliest [x]
  | .handleRead now _ _ =>
    (∀ e ∈ q.expired now, ∀ timer, q.heap (ptr e) = some timer → timer.repeats = true →
      0 ≤ timer.interval ∧ IsInt64 (now + timer.interval)) ∧
    DifferencesFit (q.earliestLater now) (q.additions a)
  | .fire => True

variable (wrap) in
theorem Inv.handleRead {callbacks : ℕ → List Addition} {clock : ℤ} (h : Inv [] q)
    (hpermitted : q.Permitted (.handleRead now callbacks clock)) :
    ∃ q', q.handleRead wrap now callbacks clock = some (q', (q.expired now).map ptr) ∧ Inv [] q' ∧
      Handled wrap now ((q.expired now).map ptr) (q.additions (.handleRead now callbacks clock))
        q q' ∧
      (Exact wrap → q.ClocksPositive (.handleRead now callbacks clock) →
        q.NoOverflow (.handleRead now callbacks clock) → InRange q' →
        CoveredIf (fun _ => True) q') := by
  obtain ⟨q₁, hget, hinv₁, hheap₁, hearliest₁, hlater⟩ :=
    (h.congr (readTimerfd_timers q) (readTimerfd_heap q)).getExpired now
  rw [expired_readTimerfd] at hget hinv₁
  rw [readTimerfd_heap] at hheap₁
  rw [earliestLater_readTimerfd] at hearliest₁
  have hfresh : q₁.Fresh ((q.expired now).flatMap fun e => callbacks (ptr e)) := by
    rw [Fresh, hheap₁]
    exact hpermitted
  obtain ⟨q₂, hrun, hinv₂, hadded, harmed⟩ := hinv₁.runAll wrap
    (fun e he => hinv₁.live _ (List.mem_map_of_mem he)) hfresh
  obtain ⟨q₃, hreset, hinv₃, hran, hold, hcovered⟩ :=
    hinv₂.reset wrap h.nodup_expired now clock
  -- The timers that ran were live, so none was added at their addresses.
  have hnew : ∀ p ∈ (q.expired now).map ptr,
      p ∉ ((q.expired now).flatMap fun e => callbacks (ptr e)).map Addition.ptr :=
    fun p hp hmem => hinv₁.live p hp (hfresh.eq_none hmem)
  have hsame : ∀ p ∈ (q.expired now).map ptr, q₂.heap p = q.heap p := fun p hp => by
    rw [hadded.old p (hnew p hp), hheap₁]
  refine ⟨q₃, ?_, hinv₃, ⟨fun p hp => ?_, fun x hx => ?_, fun p hp hnot => ?_⟩,
    fun hexact hclocks hfits hrange => ?_⟩
  · simp [TimerQueue.handleRead, hget, hrun, hreset]
  · rw [hran p hp, hsame p hp]
  · rw [hold _ fun hmem => hnew _ hmem (List.mem_map_of_mem hx)]
    exact hadded.new x hx
  · rw [hold p hp, hadded.old p hnot, hheap₁]
  · obtain ⟨-, ⟨hnow, -⟩, hclock, hint⟩ := hclocks
    obtain ⟨hsums, hdifferences⟩ := hfits
    have hrestarts : RestartsLater wrap q₂ (q.expired now) now := by
      intro e he timer htimer hrepeats
      rw [hsame _ (List.mem_map_of_mem he)] at htimer
      obtain ⟨hnonneg, hsum⟩ := hsums e he timer htimer hrepeats
      rw [hexact _ hsum]
      omega
    rw [← hearliest₁] at hdifferences
    refine hcovered hexact hrestarts hrange hclock hint
      (harmed.covered hexact hdifferences _ fun t ht hle => ?_)
    -- What is left in the set expires after `now`, until the callbacks add timers.
    have hlt := hlater t ht
    omega

/-- The timers at the addresses `ran` are in range, the timers `ys` are new, and the others are as
they were. -/
theorem InRange.of_heap {ran : List ℕ} {ys : List Addition} (h : InRange q)
    (hran : ∀ p ∈ ran, ∀ timer, q'.heap p = some timer → IsInt64 timer.expiration)
    (hys : ∀ y ∈ ys, IsInt64 y.timer.expiration)
    (hnew : ∀ x ∈ ys, q'.heap x.ptr = some x.timer)
    (hold : ∀ p ∉ ran, p ∉ ys.map Addition.ptr → q'.heap p = q.heap p) : InRange q' := by
  intro p timer htimer
  by_cases hp : p ∈ ran
  · exact hran p hp timer htimer
  · by_cases hmem : p ∈ ys.map Addition.ptr
    · obtain ⟨y, hy, rfl⟩ := List.mem_map.mp hmem
      rw [hnew y hy, Option.some.injEq] at htimer
      exact htimer ▸ hys y hy
    · rw [hold p hp hmem] at htimer
      exact h p timer htimer

theorem Added.inRange {ys : List Addition} (h : Added ys q q') (hq : InRange q)
    (hys : ∀ y ∈ ys, IsInt64 y.timer.expiration) : InRange q' :=
  hq.of_heap (fun _ hp => absurd hp List.not_mem_nil) hys h.new fun p _ => h.old p

theorem Handled.inRange {ys : List Addition}
    (h : Handled wrap now ((q.expired now).map ptr) ys q q') (hq : InRange q)
    (hexact : Exact wrap) (hys : ∀ y ∈ ys, IsInt64 y.timer.expiration)
    (hsums : ∀ e ∈ q.expired now, ∀ timer, q.heap (ptr e) = some timer → timer.repeats = true →
      0 ≤ timer.interval ∧ IsInt64 (now + timer.interval)) : InRange q' := by
  refine hq.of_heap (fun p hp timer htimer => ?_) hys h.new h.old
  obtain ⟨e, he, rfl⟩ := List.mem_map.mp hp
  rw [h.rest _ hp] at htimer
  obtain ⟨old, hold, hrest⟩ := Option.bind_eq_some_iff.mp htimer
  obtain ⟨hrepeats, hrest⟩ := Option.ite_none_right_eq_some.mp hrest
  obtain rfl := Option.some.inj hrest
  obtain ⟨-, hsum⟩ := hsums e he old hold hrepeats
  rw [Timer.restart_expiration hrepeats, hexact _ hsum]
  exact hsum

/-! ## Runs -/

/-- A step keeps the invariant, makes no timer live that it does not add, and leaves the descriptor
armed early enough if nothing overflows. -/
theorem step_inv {a : Action} (h : Inv [] q) (hstep : step wrap q a = some q') :
    Inv [] q' ∧
      (∀ p, p ∉ (q.additions a).map Addition.ptr → q.heap p = none → q'.heap p = none) ∧
      (Exact wrap → q.ClocksPositive a → q.NoOverflow a → InRange q ∧ CoveredIf (fun _ => True) q →
        InRange q' ∧ CoveredIf (fun _ => True) q') := by
  unfold step at hstep
  split_ifs at hstep with hpermitted
  cases a with
  | addTimerInLoop x =>
    obtain ⟨u, hu, hinv, hadded, harmed⟩ := h.addTimerInLoop wrap hpermitted
    obtain rfl : u = q' := Option.some.inj (hu.symm.trans hstep)
    refine ⟨hinv, fun p hp hnone => (hadded.old p hp).trans hnone,
      fun hexact hclocks hfits ⟨hrange, hq⟩ =>
        ⟨hadded.inRange hrange fun y hy => (hclocks.1 y hy).1, harmed.covered hexact hfits _ hq⟩⟩
  | handleRead now callbacks clock =>
    obtain ⟨u, hu, hinv, hhandled, hcovered⟩ := h.handleRead wrap hpermitted
    dsimp only at hstep
    rw [hu, Option.map_some, Option.some.injEq] at hstep
    subst hstep
    refine ⟨hinv, fun p hp hnone => ?_, fun hexact hclocks hfits ⟨hrange, _⟩ => ?_⟩
    · by_cases hran : p ∈ (q.expired now).map ptr
      · rw [hhandled.rest p hran, hnone, Option.bind_none]
      · rw [hhandled.old p hran hp, hnone]
    · have hrange' := hhandled.inRange hrange hexact (fun y hy => (hclocks.1 y hy).1) hfits.1
      exact ⟨hrange', hcovered hexact hclocks hfits hrange'⟩
  | fire =>
    dsimp only at hstep
    split at hstep
    case h_1 a ha =>
      obtain rfl := Option.some.inj hstep
      refine ⟨h.congr rfl rfl, fun _ _ hnone => hnone,
        fun _ _ _ ⟨hrange, hq⟩ => ⟨hrange, fun t ht hP => ?_⟩⟩
      have harmed := hq t ht hP
      rwa [ha] at harmed
    case h_2 => cases hstep

theorem inv_of_run {tr : List (TimerQueue × Action)} (h : Run (step wrap) init tr q) : Inv [] q :=
  (h.invariant (fun _ _ _ hinv hstep => (step_inv hinv hstep).1) inv_init).2

/-- The timer at `p` is deleted for good: while no new timer is added at its address, there is none
in the set, so `handleRead` does not run it. -/
def Gone (q : TimerQueue) (p : ℕ) : Prop :=
  ∀ wrap tr u, Run (step wrap) q tr u → (∀ s ∈ tr, p ∉ (s.1.additions s.2).map Addition.ptr) →
    u.heap p = none ∧ ∀ t, toLex (t, p) ∉ u.timers

theorem Inv.gone (h : Inv [] q) (hp : q.heap p = none) : q.Gone p := by
  intro wrap tr u hrun hadds
  have hkeep : ∀ s a s', Inv [] s ∧ s.heap p = none →
      p ∉ (s.additions a).map Addition.ptr → step wrap s a = some s' →
        Inv [] s' ∧ s'.heap p = none :=
    fun s a s' hs hadd hstep =>
      ⟨(step_inv hs.1 hstep).1, (step_inv hs.1 hstep).2.1 p hadd hs.2⟩
  obtain ⟨hinv, hnone⟩ := (hrun.guarded hkeep ⟨h, hp⟩ hadds).2
  exact ⟨hnone, hinv.notMem hnone⟩

/-- The timers `ys` are in the set, each once, and the timers that are neither among them nor at the
addresses `ran` are untouched. -/
structure OthersKept (ran : List ℕ) (ys : List Addition) (q q' : TimerQueue) : Prop where
  added : ∀ x ∈ ys, q'.heap x.ptr = some x.timer ∧
    ∀ t, toLex (t, x.ptr) ∈ q'.timers ↔ t = x.timer.expiration
  untouched : ∀ p ∉ ran, p ∉ ys.map Addition.ptr → q'.heap p = q.heap p ∧
    ∀ t, toLex (t, p) ∈ q'.timers ↔ toLex (t, p) ∈ q.timers

theorem othersKept {ran : List ℕ} {ys : List Addition} (h : Inv [] q) (h' : Inv [] q')
    (hnew : ∀ x ∈ ys, q'.heap x.ptr = some x.timer)
    (hold : ∀ p ∉ ran, p ∉ ys.map Addition.ptr → q'.heap p = q.heap p) :
    OthersKept ran ys q q' where
  added y hy := ⟨hnew y hy, fun _ => h'.mem_iff_eq (hnew y hy)⟩
  untouched p hp hnot := by
    refine ⟨hold p hp hnot, fun t => ?_⟩
    rw [h.mem_iff, h'.mem_iff, hold p hp hnot]

/-- `handleRead` at `now` from `q` runs the timers at the addresses `ran`, in this order, its
callbacks add the timers `ys`, and it ends in `q'`. -/
structure FiresDue (wrap : ℤ → ℤ) (now : ℤ) (ys : List Addition) (ran : List ℕ)
    (q q' : TimerQueue) : Prop extends OthersKept ran ys q q' where
  mem_ran_iff : ∀ p, p ∈ ran ↔ ∃ t ≤ now, toLex (t, p) ∈ q.timers
  nodup : ran.Nodup
  ordered : ran.Pairwise fun p r =>
    ∀ s t, toLex (s, p) ∈ q.timers → toLex (t, r) ∈ q.timers → s ≤ t
  /-- A timer that does not repeat is gone for good, and the others are in the set once. -/
  rest : ∀ p ∈ ran, ∃ timer, q.heap p = some timer ∧
    (timer.repeats = false → q'.Gone p) ∧
    (timer.repeats = true → q'.heap p = some (timer.restart wrap now) ∧
      ∀ t, toLex (t, p) ∈ q'.timers ↔ t = wrap (now + timer.interval))

theorem Inv.ordered (h : Inv xs q) (now : ℤ) : ((q.expired now).map ptr).Pairwise fun p r =>
    ∀ s t, toLex (s, p) ∈ q.timers → toLex (t, r) ∈ q.timers → s ≤ t := by
  rw [List.pairwise_map]
  refine (pairwise_expired q now).imp_of_mem fun he he' hle s t hs ht => ?_
  have hs' := h.eq_of_ptr_eq hs (h.mem_expired.mp he).1 rfl
  have ht' := h.eq_of_ptr_eq ht (h.mem_expired.mp he').1 rfl
  rwa [← hs', ← ht'] at hle

theorem Inv.firesDue {ys : List Addition} (h : Inv [] q) (h' : Inv [] q')
    (hhandled : Handled wrap now ((q.expired now).map ptr) ys q q') :
    FiresDue wrap now ys ((q.expired now).map ptr) q q' where
  toOthersKept := othersKept h h' hhandled.new hhandled.old
  mem_ran_iff _ := h.mem_map_expired
  nodup := h.nodup_expired
  ordered := h.ordered now
  rest p hp := by
    obtain ⟨t, -, hmem⟩ := h.mem_map_expired.mp hp
    obtain ⟨-, timer, htimer, -⟩ := (h.mem_iff t p).mp hmem
    have hrest : q'.heap p = timer.rest wrap now := by
      rw [hhandled.rest p hp, htimer, Option.bind_some]
    refine ⟨timer, htimer, fun hrepeats => ?_, fun hrepeats => ?_⟩
    · exact h'.gone (by simp [hrest, Timer.rest, hrepeats])
    · have hsome : q'.heap p = some (timer.restart wrap now) := by
        simp [hrest, Timer.rest, hrepeats]
      refine ⟨hsome, fun t => ?_⟩
      rw [h'.mem_iff_eq hsome, Timer.restart_expiration hrepeats]

/-- **Timers fire when they are due.** In every state of every run, `addTimerInLoop` adds the timer
and leaves the others. `handleRead` runs the timers of the set that are due, each once and in
order. No assertion fails, and no deleted timer is used. -/
theorem timers_fire {tr : List (TimerQueue × Action)} (hrun : Run (step wrap) init tr q) :
    (∀ x, q.Permitted (.addTimerInLoop x) →
      ∃ q', q.addTimerInLoop wrap x = some q' ∧ OthersKept [] [x] q q') ∧
    ∀ now callbacks clock, q.Permitted (.handleRead now callbacks clock) →
      ∃ q' ran, q.handleRead wrap now callbacks clock = some (q', ran) ∧
        FiresDue wrap now (q.additions (.handleRead now callbacks clock)) ran q q' := by
  have h : Inv [] q := inv_of_run hrun
  refine ⟨fun x hpermitted => ?_, fun now callbacks clock hpermitted => ?_⟩
  · obtain ⟨q', hadd, hinv, hadded, -⟩ := h.addTimerInLoop wrap hpermitted
    exact ⟨q', hadd, othersKept h hinv hadded.new fun p _ hp => hadded.old p hp⟩
  · obtain ⟨q', hhandle, hinv, hhandled, -⟩ := h.handleRead wrap hpermitted
    exact ⟨q', _, hhandle, h.firesDue hinv hhandled⟩

theorem step_handleRead {callbacks : ℕ → List Addition} {clock : ℤ} {ran : List ℕ}
    (hpermitted : q.Permitted (.handleRead now callbacks clock))
    (h : q.handleRead wrap now callbacks clock = some (q', ran)) :
    step wrap q (.handleRead now callbacks clock) = some q' := by
  rw [step, if_pos hpermitted]
  exact congrArg (Option.map Prod.fst) h

/-- Two timers that expire at 5, of which the one at 7 repeats. The descriptor fires. -/
def twoTimers : List Action :=
  [.addTimerInLoop ⟨8, ⟨5, 0, false⟩, 1⟩, .addTimerInLoop ⟨7, ⟨5, 10, true⟩, 1⟩, .fire]

/-- The callback of the timer at 7 adds a timer that is already due. -/
def addDue (p : ℕ) : List Addition := if p = 7 then [⟨9, ⟨4, 0, false⟩, 6⟩] else []

theorem exec_twoTimers : ∃ q, exec (step int64) init twoTimers = some q ∧
    q.expired 5 = [toLex (5, 7), toLex (5, 8)] ∧ q.earliestLater 5 = none ∧
    q.additions (.handleRead 5 addDue 6) = addDue 7 ∧ q.Permitted (.handleRead 5 addDue 6) ∧
    ∀ p, q.heap p = if p = 7 then some ⟨5, 10, true⟩ else if p = 8 then some ⟨5, 0, false⟩
      else none := by
  obtain ⟨q, hq, htimers, hlater, hheap⟩ : ∃ q, exec (step int64) init twoTimers = some q ∧
      q.timers = [toLex (5, 7), toLex (5, 8)].toFinset ∧ q.earliestLater 5 = none ∧
      q.heap = Function.update (Function.update (fun _ => none) 8 (some ⟨5, 0, false⟩)) 7
        (some ⟨5, 10, true⟩) := ⟨_, rfl, by decide, by decide, rfl⟩
  have hexpired : q.expired 5 = [toLex (5, 7), toLex (5, 8)] := by
    have hall : q.timers.filter (· < sentry 5) = [toLex (5, 7), toLex (5, 8)].toFinset := by
      rw [htimers]
      decide
    rw [expired, hall]
    exact (List.toFinset_sort (· ≤ ·) (by decide)).mpr (by decide)
  have hadditions : q.additions (.handleRead 5 addDue 6) = addDue 7 := by
    rw [additions, hexpired]
    rfl
  refine ⟨q, hq, hexpired, hlater, hadditions, ?_, fun p => ?_⟩
  · rw [Permitted, hadditions, Fresh, hheap]
    decide
  · rw [hheap, Function.update_apply, Function.update_apply]

theorem timers_fire_two : ∃ q, exec (step int64) init twoTimers = some q ∧
    ∃ q' ran, q.handleRead int64 5 addDue 6 = some (q', ran) ∧
      FiresDue int64 5 (addDue 7) ran q q' := by
  obtain ⟨q, hq, -, -, hadditions, hpermitted, -⟩ := exec_twoTimers
  obtain ⟨q', ran, hhandle, hfires⟩ := (timers_fire (run_trace hq)).2 5 addDue 6 hpermitted
  exact ⟨q, hq, q', ran, hhandle, hadditions ▸ hfires⟩

/-! ## When the descriptor is armed -/

/-- **The descriptor is armed early enough.** In every run with positive clocks in which no sum or
difference of times overflows, while there are timers the descriptor is armed, or has fired and is
not read yet, for a moment not later than the larger of the earliest expiration and 100
microseconds after it was set. -/
theorem timerfd_early {tr : List (TimerQueue × Action)} (hrun : Run (step int64) init tr q)
    (hclocks : ∀ s ∈ tr, s.1.ClocksPositive s.2) (hfits : ∀ s ∈ tr, s.1.NoOverflow s.2)
    (ht : q.earliest = some t) : ∃ a, q.timerfd.arming = some a ∧ a.Early t := by
  have hkeep : ∀ s a s', Inv [] s ∧ InRange s ∧ CoveredIf (fun _ => True) s →
      s.ClocksPositive a ∧ s.NoOverflow a → step int64 s a = some s' →
      Inv [] s' ∧ InRange s' ∧ CoveredIf (fun _ => True) s' :=
    fun s a s' hs hguard hstep =>
      ⟨(step_inv hs.1 hstep).1, (step_inv hs.1 hstep).2.2 exact_int64 hguard.1 hguard.2 hs.2⟩
  have hrange : InRange init := by
    intro p timer htimer
    cases htimer
  have hcovered : CoveredIf (fun _ => True) init := by
    intro t ht _
    cases ht
  have hguard : ∀ s ∈ tr, s.1.ClocksPositive s.2 ∧ s.1.NoOverflow s.2 :=
    fun s hs => ⟨hclocks s hs, hfits s hs⟩
  exact (hrun.guarded hkeep ⟨inv_init, hrange, hcovered⟩ hguard).2.2.2 t ht trivial

/-- The event is handled. The timer at 7 is put back, and its callback has added one. -/
theorem exec_twoTimers_handled : ∃ q q', exec (step int64) init twoTimers = some q ∧
    step int64 q (.handleRead 5 addDue 6) = some q' ∧ q'.earliest = some 4 ∧
    q.ClocksPositive (.handleRead 5 addDue 6) ∧ q.NoOverflow (.handleRead 5 addDue 6) := by
  obtain ⟨q, hq, hexpired, hlater, hadditions, hpermitted, hheap⟩ := exec_twoTimers
  obtain ⟨q', hhandle, hinv, hhandled, -⟩ :=
    (inv_of_run (run_trace hq)).handleRead int64 hpermitted
  rw [hexpired, hadditions] at hhandled
  refine ⟨q, q', hq, ?_, ?_, ⟨?_, by decide⟩, fun e he timer htimer hrepeats => ?_, ?_⟩
  · exact step_handleRead hpermitted hhandle
  · have hnew : q'.heap 9 = some ⟨4, 0, false⟩ :=
      hhandled.new ⟨9, ⟨4, 0, false⟩, 6⟩ (List.mem_singleton_self _)
    refine earliest_eq_some_iff.mpr ⟨⟨toLex (4, 9), (hinv.mem_iff_eq hnew).mpr rfl, rfl⟩,
      fun e he => ?_⟩
    obtain ⟨-, timer, htimer, htime⟩ := (hinv.mem_iff (time e) (ptr e)).mp he
    rw [← htime]
    by_cases h9 : ptr e = 9
    · rw [h9, hnew] at htimer
      rw [← Option.some.inj htimer]
    · by_cases hran : ptr e ∈ [toLex (5, 7), toLex (5, 8)].map ptr
      · rw [hhandled.rest _ hran, hheap] at htimer
        rcases (by simpa [ptr] using hran : ptr e = 7 ∨ ptr e = 8) with h7 | h8
        · rw [h7] at htimer
          rw [← Option.some.inj htimer]
          decide
        · rw [h8] at htimer
          cases htimer
      · have hnot : ptr e ∉ (addDue 7).map Addition.ptr := fun hmem =>
          h9 (List.mem_singleton.mp hmem)
        rw [hhandled.old _ hran hnot, hheap] at htimer
        obtain ⟨h7, h8⟩ : ptr e ≠ 7 ∧ ptr e ≠ 8 := by simpa [ptr] using hran
        rw [if_neg h7, if_neg h8] at htimer
        cases htimer
  · rw [hadditions]
    decide
  · rw [hexpired] at he
    rw [hheap] at htimer
    rcases List.mem_cons.mp he with rfl | he
    · rw [← Option.some.inj htimer]
      decide
    · obtain rfl := List.mem_singleton.mp he
      rw [← Option.some.inj htimer] at hrepeats
      cases hrepeats
  · rw [hlater, hadditions]
    exact ⟨fun _ => by decide, trivial⟩

theorem timerfd_early_two : ∃ q q', exec (step int64) init twoTimers = some q ∧
    step int64 q (.handleRead 5 addDue 6) = some q' ∧ q'.earliest = some 4 ∧
    ∃ a, q'.timerfd.arming = some a ∧ a.Early 4 := by
  obtain ⟨q, q', hq, hstep, hearliest, hclocks, hfits⟩ := exec_twoTimers_handled
  have hrun : Run (step int64) init
      (trace (step int64) init twoTimers ++ [(q, .handleRead 5 addDue 6)]) q' :=
    Run.append_iff.mpr ⟨q, run_trace hq, .cons hstep (.refl q')⟩
  -- Before that, timers are added at 1.
  have hadds : ∀ s ∈ trace (step int64) init twoTimers,
      s.1.ClocksPositive s.2 ∧ s.1.NoOverflow s.2 := by
    intro s hs
    have hmem := mem_trace hs
    simp only [twoTimers, List.mem_cons, List.not_mem_nil, or_false] at hmem
    rcases hmem with h | h | h <;> rw [h]
    · exact ⟨clocksPositive_addTimerInLoop.mpr (by decide), fun _ => by decide, trivial⟩
    · exact ⟨clocksPositive_addTimerInLoop.mpr (by decide), fun _ => by decide, trivial⟩
    · exact ⟨clocksPositive_fire, trivial⟩
  refine ⟨q, q', hq, hstep, hearliest, timerfd_early hrun (fun s hs => ?_) (fun s hs => ?_)
    hearliest⟩
  · rcases List.mem_append.mp hs with hs | hs
    · exact (hadds s hs).1
    · exact List.mem_singleton.mp hs ▸ hclocks
  · rcases List.mem_append.mp hs with hs | hs
    · exact (hadds s hs).2
    · exact List.mem_singleton.mp hs ▸ hfits

/-- A timer at the start of time. Its expiration minus the clock overflows. -/
def startOfTime : List Action := [.addTimerInLoop ⟨8, ⟨-2 ^ 63, 0, false⟩, 1⟩]

/-- A timer with the largest interval. The sum of that and the clock overflows. -/
def endOfTime : List Action :=
  [.addTimerInLoop ⟨8, ⟨5, 2 ^ 63 - 1, true⟩, 1⟩, .fire, .handleRead 10 (fun _ => []) 11]

/-- The actions `as`, with positive clocks, leave the descriptor unarmed or armed too late. -/
def MissesTimer (as : List Action) : Prop :=
  ∃ tr q t, Run (step int64) init tr q ∧ tr.map Prod.snd = as ∧
    (∀ s ∈ tr, s.1.ClocksPositive s.2) ∧ q.earliest = some t ∧
    ¬ ∃ a, q.timerfd.arming = some a ∧ a.Early t

theorem exec_startOfTime : ∃ q, exec (step int64) init startOfTime = some q ∧
    q.earliest = some (-2 ^ 63) ∧ ∃ a, q.timerfd.arming = some a ∧ a.clock = 1 ∧
      a.moment = 2 ^ 63 := by
  obtain ⟨q, hq, hearliest, hfd⟩ : ∃ q, exec (step int64) init startOfTime = some q ∧
      q.earliest = some (-2 ^ 63) ∧
      q.timerfd = timerfdSettime 1 (howMuchTimeFromNow int64 1 (-2 ^ 63)) :=
    ⟨_, rfl, by decide, rfl⟩
  refine ⟨q, hq, hearliest, ⟨1, howMuchTimeFromNow int64 1 (-2 ^ 63)⟩, ?_, rfl, ?_⟩
  · rw [hfd]
    exact arming_timerfdSettime int64 1 _
  · rw [moment_howMuchTimeFromNow]
    decide

theorem missesTimer_startOfTime : MissesTimer startOfTime := by
  obtain ⟨q, hq, hearliest, a, harming, hclock, hmoment⟩ := exec_startOfTime
  obtain ⟨tr, hrun, hactions⟩ := run_of_exec hq
  refine ⟨tr, q, _, hrun, hactions, fun s hs => ?_, hearliest, ?_⟩
  · have hmem : s.2 ∈ startOfTime := hactions ▸ List.mem_map_of_mem hs
    rw [List.mem_singleton.mp hmem, clocksPositive_addTimerInLoop]
    decide
  · rintro ⟨a', harming', hearly⟩
    obtain rfl := Option.some.inj (harming.symm.trans harming')
    rw [Arming.Early, hmoment, hclock] at hearly
    omega

theorem exec_endOfTime : ∃ q q', exec (step int64) init (endOfTime.take 2) = some q ∧
    step int64 q (.handleRead 10 (fun _ => []) 11) = some q' ∧
    q'.earliest = some (-2 ^ 63 + 9) ∧ q'.timerfd.arming = none := by
  set heap : ℕ → Option Timer := Function.update (fun _ => none) 8 (some ⟨5, 2 ^ 63 - 1, true⟩)
  set q : TimerQueue := ⟨{toLex (5, 8)}, heap, .fired ⟨1, howMuchTimeFromNow int64 1 5⟩⟩
  have hexpired : q.expired 10 = [toLex (5, 8)] := by
    have hall : q.timers.filter (· < sentry 10) = {toLex (5, 8)} := by decide
    rw [expired, hall, Finset.sort_singleton]
  have hget : q.readTimerfd.getExpired 10 = some ([toLex (5, 8)], ⟨∅, heap, .disarmed⟩) := by
    have hnone : q.timers.filter (sentry 10 ≤ ·) = ∅ := by decide
    rw [getExpired, expired_readTimerfd, hexpired, readTimerfd_timers, hnone]
    exact if_pos (by simp [begin?])
  have hhandle : q.handleRead int64 10 (fun _ => []) 11 =
      some (⟨{toLex (-2 ^ 63 + 9, 8)},
        Function.update heap 8 (some ⟨-2 ^ 63 + 9, 2 ^ 63 - 1, true⟩), .disarmed⟩, [8]) := by
    rw [handleRead, hget]
    rfl
  have hpermitted : q.Permitted (.handleRead 10 (fun _ => []) 11) := by
    rw [Permitted, additions, hexpired]
    exact ⟨List.nodup_nil, by simp⟩
  exact ⟨q, _, rfl, step_handleRead hpermitted hhandle, by decide, rfl⟩

theorem missesTimer_endOfTime : MissesTimer endOfTime := by
  obtain ⟨q, q', hq, hstep, hearliest, hnone⟩ := exec_endOfTime
  obtain ⟨tr, hrun, hactions⟩ := run_of_exec hq
  refine ⟨tr ++ [(q, .handleRead 10 (fun _ => []) 11)], q', _,
    Run.append_iff.mpr ⟨q, hrun, .cons hstep (.refl q')⟩, ?_, fun s hs => ?_, hearliest, ?_⟩
  · rw [List.map_append, hactions]
    rfl
  · rcases List.mem_append.mp hs with hs | hs
    · have hmem : s.2 ∈ endOfTime.take 2 := hactions ▸ List.mem_map_of_mem hs
      rcases List.mem_cons.mp hmem with h | hmem
      · rw [h, clocksPositive_addTimerInLoop]
        decide
      · rw [List.mem_singleton.mp hmem]
        exact clocksPositive_fire
    · obtain rfl := List.mem_singleton.mp hs
      have hpositive : (0 < (10 : ℤ) ∧ IsInt64 10) ∧ 0 < (11 : ℤ) ∧ IsInt64 11 := by decide
      refine ⟨fun x hx => ?_, hpositive⟩
      simp [additions] at hx
  · rw [hnone]
    rintro ⟨a, ha, -⟩
    cases ha

/-- **Overflows.** The descriptor is armed for the end of time, or not at all. -/
theorem not_timerfd_early : MissesTimer startOfTime ∧ MissesTimer endOfTime :=
  ⟨missesTimer_startOfTime, missesTimer_endOfTime⟩

end TimerQueue

end SearchServer

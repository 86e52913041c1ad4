import Mathlib

/-!
# Threads and a mutex

The threads of a program, each at a place of its code, and the thread that holds a mutex. `P` is the
type of the places. A thread goes from place to place by `goto`, takes the mutex by `lock` and gives it
back by `unlock`; a wait on a condition variable is an `unlock` to a place that only a notification
leaves.

* `Exclusive.goto`, `Exclusive.lock`, `Exclusive.unlock`: the holder of the mutex is the one thread
  inside, as long as each thread locks when it goes in and unlocks when it goes out.
* `total_update`: the sum of a quantity over the threads, when one thread moves.
-/

namespace SearchServer

structure Monitor (P : Type*) where
  holder : Option ℕ := none
  pc : ℕ → P

namespace Monitor

variable {P : Type*}

def goto (m : Monitor P) (t : ℕ) (p : P) : Monitor P := { m with pc := Function.update m.pc t p }

/-- `t` takes the mutex, if nobody holds it. -/
def lock (m : Monitor P) (t : ℕ) (p : P) : Option (Monitor P) :=
  if m.holder = none then some ⟨some t, Function.update m.pc t p⟩ else none

def unlock (m : Monitor P) (t : ℕ) (p : P) : Monitor P := ⟨none, Function.update m.pc t p⟩

variable {m m' : Monitor P} {t u : ℕ} {p : P}

@[simp] theorem goto_holder : (m.goto t p).holder = m.holder := rfl
@[simp] theorem goto_pc : (m.goto t p).pc = Function.update m.pc t p := rfl
@[simp] theorem unlock_holder : (m.unlock t p).holder = none := rfl
@[simp] theorem unlock_pc : (m.unlock t p).pc = Function.update m.pc t p := rfl

theorem lock_eq_some (h : m.lock t p = some m') :
    m.holder = none ∧ m' = ⟨some t, Function.update m.pc t p⟩ := by
  obtain ⟨hnone, heq⟩ := Option.ite_none_right_eq_some.mp h
  exact ⟨hnone, (Option.some.inj heq).symm⟩

/-! ## Mutual exclusion -/

variable {holds : P → Prop}

/-- The holder of the mutex is the thread whose place is inside. -/
def Exclusive (holds : P → Prop) (m : Monitor P) : Prop :=
  ∀ t, holds (m.pc t) ↔ m.holder = some t

theorem Exclusive.eq (h : m.Exclusive holds) (ht : holds (m.pc t)) (hu : holds (m.pc u)) :
    t = u :=
  Option.some.inj (((h t).mp ht).symm.trans ((h u).mp hu))

/-- A move that stays inside, or outside. -/
theorem Exclusive.goto (h : m.Exclusive holds) (hp : holds p ↔ holds (m.pc t)) :
    (m.goto t p).Exclusive holds := by
  intro u
  by_cases hu : u = t
  · subst hu
    simp [hp, h u]
  · simp [hu, h u]

theorem Exclusive.lock (h : m.Exclusive holds) (hp : holds p) (hlock : m.lock t p = some m') :
    m'.Exclusive holds := by
  obtain ⟨hnone, rfl⟩ := lock_eq_some hlock
  intro u
  by_cases hu : u = t
  · subst hu
    simp [hp]
  · simp [hu, h u, hnone, Ne.symm hu]

theorem Exclusive.unlock (h : m.Exclusive holds) (hin : holds (m.pc t)) (hp : ¬ holds p) :
    (m.unlock t p).Exclusive holds := by
  intro u
  by_cases hu : u = t
  · subst hu
    simp [hp]
  · have hout : ¬ holds (m.pc u) := fun hu' => hu (h.eq hu' hin)
    simp [hu, hout]

/-- Other threads are moved, without going in or out. -/
theorem Exclusive.of_pc (h : m.Exclusive holds) {pc : ℕ → P}
    (hpc : ∀ u, holds (pc u) ↔ holds (m.pc u)) : (⟨m.holder, pc⟩ : Monitor P).Exclusive holds :=
  fun u => (hpc u).trans (h u)

/-! ## A sum over the threads -/

variable {M : Type*} [AddCommMonoid M]

/-- The sum of a quantity over the first `n` threads. -/
def total (f : P → M) (n : ℕ) (pc : ℕ → P) : M := ∑ t ∈ Finset.range n, f (pc t)

theorem total_update (f : P → M) {n : ℕ} (ht : t < n) (pc : ℕ → P) (p : P) :
    total f n (Function.update pc t p) + f (pc t) = total f n pc + f p := by
  have hmem : t ∈ Finset.range n := Finset.mem_range.mpr ht
  have hothers : ∑ u ∈ (Finset.range n).erase t, f (Function.update pc t p u) =
      ∑ u ∈ (Finset.range n).erase t, f (pc u) :=
    Finset.sum_congr rfl fun u hu => by rw [Function.update_of_ne (Finset.ne_of_mem_erase hu)]
  unfold total
  rw [← Finset.add_sum_erase _ (fun u => f (Function.update pc t p u)) hmem, hothers,
    ← Finset.add_sum_erase _ (fun u => f (pc u)) hmem, Function.update_self,
    add_right_comm (f p), add_comm (f p), add_assoc, add_comm (f p), ← add_assoc]

theorem total_congr {f g : P → M} {n : ℕ} {pc pc' : ℕ → P} (h : ∀ t < n, f (pc t) = g (pc' t)) :
    total f n pc = total g n pc' :=
  Finset.sum_congr rfl fun t ht => h t (Finset.mem_range.mp ht)

/-- Only the first `k` threads have a larger rank in `f`, and it is larger by at most `c`. -/
theorem total_le_add {f g : P → ℕ} {n k c : ℕ} {pc pc' : ℕ → P}
    (hle : ∀ t < n, f (pc t) ≤ g (pc' t) + if t < k then c else 0) :
    total f n pc ≤ total g n pc' + k * c := by
  have hsum : ∑ t ∈ Finset.range n, (if t < k then c else 0) ≤ k * c := by
    rw [← Finset.sum_filter, Finset.sum_const, smul_eq_mul]
    refine Nat.mul_le_mul_right _ ?_
    calc _ ≤ (Finset.range k).card := Finset.card_le_card fun t ht => by simp at ht; simp [ht.2]
      _ = k := Finset.card_range k
  calc total f n pc ≤ ∑ t ∈ Finset.range n, (g (pc' t) + if t < k then c else 0) :=
        Finset.sum_le_sum fun t ht => hle t (Finset.mem_range.mp ht)
    _ = total g n pc' + ∑ t ∈ Finset.range n, (if t < k then c else 0) := Finset.sum_add_distrib
    _ ≤ total g n pc' + k * c := by omega

end Monitor

end SearchServer

import Mathlib

/-!
# Runs of a step function

A concurrent component is a partial step function `step : σ → α → Option σ`: `step s a` is the
state after the action `a`, and `none` says that `a` cannot happen in `s` (it is not enabled, or
the program stops there). A run is a sequence of actions that all happen; it is recorded as the
list of its steps, each with the state it was taken in.

* `Run.invariant`: what every step preserves holds in every state of a run.
* `Run.guarded`: the same for runs whose steps all meet a guard.
* `Run.throughout_iff`: when a step preserves a property exactly if it meets the guard, a run keeps
  the property throughout exactly if all its steps meet the guard.
* `Run.split`: the two runs around a step, and the step.
* `Run.history`: an invariant that also speaks of the steps taken so far.
* `Run.monotone`: a transitive relation that holds over each step holds over the run.
* `Run.simulation`: a run is seen as a run of an abstract step function, some steps of it as nothing.
* `Run.length_add_rank_le`: a rank that goes down in each step bounds the length of a run.
-/

namespace SearchServer

variable {σ α : Type*} {step : σ → α → Option σ}

/-- The run from `s` to `t` whose steps are `tr`. -/
inductive Run (step : σ → α → Option σ) : σ → List (σ × α) → σ → Prop
  | refl (s : σ) : Run step s [] s
  | cons {s t u : σ} {a : α} {tr : List (σ × α)} :
      step s a = some t → Run step t tr u → Run step s ((s, a) :: tr) u

/-- Take the actions one after the other. -/
def exec (step : σ → α → Option σ) : σ → List α → Option σ
  | s, [] => some s
  | s, a :: as => (step s a).bind fun t => exec step t as

/-- The steps of these actions, up to the first that cannot happen. -/
def trace (step : σ → α → Option σ) : σ → List α → List (σ × α)
  | _, [] => []
  | s, a :: as => (s, a) :: (step s a).elim [] fun t => trace step t as

theorem run_trace {s t : σ} {as : List α} (h : exec step s as = some t) :
    Run step s (trace step s as) t := by
  induction as generalizing s with
  | nil =>
    cases h
    exact .refl _
  | cons a as ih =>
    obtain ⟨u, hu, ht⟩ := Option.bind_eq_some_iff.mp h
    rw [trace, hu]
    exact .cons hu (ih ht)

theorem mem_trace {s : σ} {as : List α} {p : σ × α} (h : p ∈ trace step s as) : p.2 ∈ as := by
  induction as generalizing s with
  | nil => cases h
  | cons a as ih =>
    rcases List.mem_cons.mp h with rfl | h
    · exact List.mem_cons_self
    · cases hstep : step s a with
      | none => simp [hstep] at h
      | some t => exact List.mem_cons_of_mem _ (ih (by simpa [hstep] using h))

/-- What the steps preserve holds in each state of the trace. -/
theorem trace_invariant {P : σ → Prop} (hkeep : ∀ s a t, P s → step s a = some t → P t) {s : σ}
    (hs : P s) (as : List α) : ∀ p ∈ trace step s as, P p.1 := by
  induction as generalizing s with
  | nil => simp [trace]
  | cons a as ih =>
    intro p hp
    rcases List.mem_cons.mp hp with rfl | hp
    · exact hs
    · cases hstep : step s a with
      | none => simp [hstep] at hp
      | some t => exact ih (hkeep s a t hs hstep) p (by simpa [hstep] using hp)

/-- Two step functions that agree on the steps of a trace. -/
theorem trace_congr {step' : σ → α → Option σ} {s : σ} {as : List α}
    (h : ∀ p ∈ trace step s as, step' p.1 p.2 = step p.1 p.2) :
    trace step' s as = trace step s as ∧ exec step' s as = exec step s as := by
  induction as generalizing s with
  | nil => exact ⟨rfl, rfl⟩
  | cons a as ih =>
    have ha : step' s a = step s a := h (s, a) List.mem_cons_self
    rw [trace, trace, exec, exec, ha]
    cases hstep : step s a with
    | none => exact ⟨rfl, rfl⟩
    | some t =>
      have hrest : ∀ p ∈ trace step t as, step' p.1 p.2 = step p.1 p.2 := fun p hp =>
        h p (by rw [trace, hstep]; exact List.mem_cons_of_mem _ hp)
      exact ⟨congrArg _ (ih hrest).1, (ih hrest).2⟩

theorem run_of_exec {s t : σ} {as : List α} (h : exec step s as = some t) :
    ∃ tr, Run step s tr t ∧ tr.map Prod.snd = as := by
  refine ⟨trace step s as, run_trace h, ?_⟩
  induction as generalizing s with
  | nil => rfl
  | cons a as ih =>
    obtain ⟨u, hu, ht⟩ := Option.bind_eq_some_iff.mp h
    rw [trace, hu, List.map_cons]
    exact congrArg _ (ih ht)

/-- The run up to a point of the trace, and the run from there. -/
theorem Run.append_iff {s u : σ} {tr₁ tr₂ : List (σ × α)} :
    Run step s (tr₁ ++ tr₂) u ↔ ∃ t, Run step s tr₁ t ∧ Run step t tr₂ u := by
  induction tr₁ generalizing s with
  | nil =>
    refine ⟨fun h => ⟨s, .refl s, h⟩, ?_⟩
    intro ⟨t, h₁, h₂⟩
    cases h₁
    exact h₂
  | cons p tr ih =>
    apply Iff.intro
    · intro h
      cases h with
      | cons hstep hrun =>
        obtain ⟨t, h₁, h₂⟩ := ih.mp hrun
        exact ⟨t, .cons hstep h₁, h₂⟩
    · intro ⟨t, h₁, h₂⟩
      cases h₁ with
      | cons hstep hrun => exact .cons hstep (ih.mpr ⟨t, hrun, h₂⟩)

theorem Run.split {s t u : σ} {a : α} {tr₁ tr₂ : List (σ × α)}
    (h : Run step s (tr₁ ++ (t, a) :: tr₂) u) :
    ∃ v, Run step s tr₁ t ∧ step t a = some v ∧ Run step v tr₂ u := by
  obtain ⟨t', h₁, h₂⟩ := Run.append_iff.mp h
  cases h₂ with
  | cons hstep hrun => exact ⟨_, h₁, hstep, hrun⟩

theorem run_through {s t v u : σ} {a : α} {as bs : List α} (hs : exec step s as = some t)
    (hstep : step t a = some v) (hv : exec step v bs = some u) :
    Run step s (trace step s as ++ (t, a) :: trace step v bs) u :=
  Run.append_iff.mpr ⟨t, run_trace hs, .cons hstep (run_trace hv)⟩

/-- A property of a state and of the steps before it. -/
theorem Run.history {P : List (σ × α) → σ → Prop}
    (hkeep : ∀ tr s a t, P tr s → step s a = some t → P (tr ++ [(s, a)]) t)
    {s t : σ} {tr : List (σ × α)} (h : Run step s tr t) (hs : P [] s) : P tr t := by
  -- The steps before the current one are a prefix that grows along the run.
  have key : ∀ pre, P pre s → P (pre ++ tr) t := by
    clear hs
    induction h with
    | refl s => exact fun pre hpre => by simpa using hpre
    | @cons s u t a tr hstep _ ih =>
      intro pre hpre
      have hu := ih _ (hkeep pre s a u hpre hstep)
      rwa [List.append_assoc] at hu
  exact key [] hs

/-- A property that every guarded step preserves holds throughout a run of guarded steps. -/
theorem Run.guarded {P : σ → Prop} {G : σ → α → Prop}
    (hkeep : ∀ s a t, P s → G s a → step s a = some t → P t)
    {s t : σ} {tr : List (σ × α)} (h : Run step s tr t) (hs : P s)
    (hG : ∀ p ∈ tr, G p.1 p.2) : (∀ p ∈ tr, P p.1) ∧ P t := by
  induction h with
  | refl s => exact ⟨by simp, hs⟩
  | @cons s u t a tr hstep _ ih =>
    have hu : P u := hkeep s a u hs (hG _ List.mem_cons_self) hstep
    obtain ⟨hall, ht⟩ := ih hu fun p hp => hG p (List.mem_cons_of_mem _ hp)
    refine ⟨fun p hp => ?_, ht⟩
    rcases List.mem_cons.mp hp with rfl | hp
    · exact hs
    · exact hall p hp

theorem Run.invariant {P : σ → Prop} (hkeep : ∀ s a t, P s → step s a = some t → P t)
    {s t : σ} {tr : List (σ × α)} (h : Run step s tr t) (hs : P s) :
    (∀ p ∈ tr, P p.1) ∧ P t :=
  h.guarded (G := fun _ _ => True) (fun s a t hP _ => hkeep s a t hP) hs fun _ _ => trivial

/-- A transitive relation between the states before and after a step relates earlier states of a run
to later ones. -/
theorem Run.monotone {I : σ → Prop} {R : σ → σ → Prop} (htrans : ∀ s t u, R s t → R t u → R s u)
    (hI : ∀ s a t, I s → step s a = some t → I t) (hR : ∀ s a t, I s → step s a = some t → R s t)
    {s t : σ} {tr : List (σ × α)} (h : Run step s tr t) (hs : I s) :
    tr.Pairwise (fun p q => R p.1 q.1) ∧ ∀ p ∈ tr, R p.1 t := by
  induction h with
  | refl s => exact ⟨.nil, by simp⟩
  | @cons s u t a tr hstep hrun ih =>
    obtain ⟨hpair, hlast⟩ := ih (hI s a u hs hstep)
    have hsu : R s u := hR s a u hs hstep
    -- The first state is related to all later ones, through the second.
    have hall : (∀ q ∈ tr, R s q.1) ∧ R s t := by
      cases hrun with
      | refl => exact ⟨by simp, hsu⟩
      | @cons _ v _ b tr' _ _ =>
        refine ⟨fun q hq => ?_, htrans s u t hsu (hlast (u, b) List.mem_cons_self)⟩
        rcases List.mem_cons.mp hq with rfl | hq
        · exact hsu
        · exact htrans s u q.1 hsu ((List.pairwise_cons.mp hpair).1 q hq)
    refine ⟨List.pairwise_cons.mpr ⟨hall.1, hpair⟩, fun p hp => ?_⟩
    rcases List.mem_cons.mp hp with rfl | hp
    · exact hall.2
    · exact hlast p hp

/-- **Simulation.** Let `f` be the abstract state and `label` the abstract action, if the step is
one. If each step is its abstract action, or leaves the abstract state as it is, then so is a run. -/
theorem Run.simulation {σ' α' : Type*} {step' : σ' → α' → Option σ'} {I : σ → Prop} {f : σ → σ'}
    {label : σ × α → Option α'} (hI : ∀ s a t, I s → step s a = some t → I t)
    (hsim : ∀ s a t, I s → step s a = some t →
      (label (s, a)).elim (f t = f s) fun b => step' (f s) b = some (f t))
    {s t : σ} {tr : List (σ × α)} (h : Run step s tr t) (hs : I s) :
    Run step' (f s) (tr.filterMap fun p => (label p).map fun b => (f p.1, b)) (f t) := by
  induction h with
  | refl s => exact .refl _
  | @cons s u t a tr hstep _ ih =>
    have hrun := ih (hI s a u hs hstep)
    have hone := hsim s a u hs hstep
    cases hlabel : label (s, a) with
    | none =>
      rw [hlabel] at hone
      rw [List.filterMap_cons_none (by rw [hlabel, Option.map_none]), ← show f u = f s from hone]
      exact hrun
    | some b =>
      rw [hlabel] at hone
      rw [List.filterMap_cons_some (by rw [hlabel, Option.map_some])]
      exact .cons hone hrun

/-- A rank that goes down in each step bounds the length of a run. -/
theorem Run.length_add_rank_le {I : σ → Prop} {G : σ → α → Prop} {rank : σ → ℕ}
    (hI : ∀ s a t, I s → G s a → step s a = some t → I t)
    (hrank : ∀ s a t, I s → G s a → step s a = some t → rank t < rank s)
    {s t : σ} {tr : List (σ × α)} (h : Run step s tr t) (hs : I s)
    (hG : ∀ p ∈ tr, G p.1 p.2) : tr.length + rank t ≤ rank s := by
  induction h with
  | refl s => simp
  | @cons s u t a tr hstep _ ih =>
    have ha : G s a := hG _ List.mem_cons_self
    have hlt : rank u < rank s := hrank s a u hs ha hstep
    have hrest := ih (hI s a u hs ha hstep) fun p hp => hG p (List.mem_cons_of_mem _ hp)
    simp only [List.length_cons]
    omega

/-- **Guards and properties.** Let `I` be an invariant, and let a step from a state with `I` and
`P` keep `P` exactly when it meets the guard. Then a run keeps `P` throughout exactly when all
its steps meet the guard. -/
theorem Run.throughout_iff {I P : σ → Prop} {G : σ → α → Prop}
    (hI : ∀ s a t, I s → step s a = some t → I t)
    (hP : ∀ s a t, I s → P s → step s a = some t → (P t ↔ G s a))
    {s t : σ} {tr : List (σ × α)} (h : Run step s tr t) (hs : I s) (hPs : P s) :
    ((∀ p ∈ tr, P p.1) ∧ P t) ↔ ∀ p ∈ tr, G p.1 p.2 := by
  constructor
  · intro h
    obtain ⟨hall, ht⟩ := h
    induction h with
    | refl s => simp
    | @cons s u t a tr hstep hrun ih =>
      -- The state after the first step is either the next recorded one or the last one.
      have hu : P u := by
        cases hrun with
        | refl => exact ht
        | @cons _ _ _ b _ _ _ => exact hall (u, b) (by simp)
      intro p hp
      rcases List.mem_cons.mp hp with rfl | hp
      · exact (hP s a u hs hPs hstep).mp hu
      · exact ih (hI s a u hs hstep) hu (fun q hq => hall q (List.mem_cons_of_mem _ hq)) ht p hp
  · intro hG
    have hkeep : ∀ s a t, (I s ∧ P s) → G s a → step s a = some t → I t ∧ P t :=
      fun s a t hIP hG hst => ⟨hI s a t hIP.1 hst, (hP s a t hIP.1 hIP.2 hst).mpr hG⟩
    obtain ⟨hall, ht⟩ := h.guarded hkeep ⟨hs, hPs⟩ hG
    exact ⟨fun p hp => (hall p hp).2, ht.2⟩

end SearchServer

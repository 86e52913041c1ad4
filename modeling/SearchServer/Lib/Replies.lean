import Mathlib

/-!
# Calls and replies

The interface of a component is a partial function `call : σ → α → Option (σ × β)`: the state after
the call and its reply, and `none` where the call is undefined. Two components with the same calls
and replies are compared by what they answer: if related states give the same reply and related
states again, then so does every sequence of calls (`replies_simulation`).
-/

namespace SearchServer

variable {σ τ α β : Type*}

/-- The state after a sequence of calls, and the replies. -/
def replies (call : σ → α → Option (σ × β)) : σ → List α → Option (σ × List β)
  | s, [] => some (s, [])
  | s, a :: as => do
    let (t, b) ← call s a
    let (u, bs) ← replies call t as
    return (u, b :: bs)

theorem replies_cons {call : σ → α → Option (σ × β)} {s t u : σ} {a : α} {as : List α} {b : β}
    {bs : List β} (ht : call s a = some (t, b)) (hu : replies call t as = some (u, bs)) :
    replies call s (a :: as) = some (u, b :: bs) := by
  simp [replies, ht, hu]

/-- **Simulation.** -/
theorem replies_simulation {call : σ → α → Option (σ × β)} {call' : τ → α → Option (τ × β)}
    (R : σ → τ → Prop)
    (hcall : ∀ s t a, R s t →
      ∃ s' t' b, call s a = some (s', b) ∧ call' t a = some (t', b) ∧ R s' t')
    {s : σ} {t : τ} (h : R s t) (as : List α) :
    ∃ s' t' bs, replies call s as = some (s', bs) ∧ replies call' t as = some (t', bs) ∧
      R s' t' := by
  induction as generalizing s t with
  | nil => exact ⟨s, t, [], rfl, rfl, h⟩
  | cons a as ih =>
    obtain ⟨s₁, t₁, b, hs₁, ht₁, h₁⟩ := hcall s t a h
    obtain ⟨s₂, t₂, bs, hs₂, ht₂, h₂⟩ := ih h₁
    exact ⟨s₂, t₂, b :: bs, replies_cons hs₁ hs₂, replies_cons ht₁ ht₂, h₂⟩

end SearchServer

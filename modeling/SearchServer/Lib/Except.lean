import Mathlib

/-!
# Computations that can fail

`Except` stands for code that throws or has undefined behaviour. A sequence of computations
succeeds exactly when each does (`bind_eq_ok`), and so does a loop (`mapM_isOk`, `isOk_of_mapM`,
`exists_of_mem_mapM`, and `forall₂_of_mapM` for `Option`). `Ensures` says what holds of the result
and which errors there may be, and `Ensures.bind` is its rule for a sequence.
-/

namespace SearchServer

variable {ε α β : Type}

theorem ok_bind (a : α) (f : α → Except ε β) : (Except.ok a >>= f) = f a := rfl

theorem error_bind (e : ε) (f : α → Except ε β) : (Except.error e >>= f) = .error e := rfl

theorem bind_eq_ok {x : Except ε α} {f : α → Except ε β} {b : β} :
    x.bind f = .ok b ↔ ∃ a, x = .ok a ∧ f a = .ok b := by
  cases x with
  | error e =>
    constructor
    · intro h
      cases h
    · intro h
      obtain ⟨a, h, -⟩ := h
      cases h
  | ok a =>
    constructor
    · exact fun h => ⟨a, rfl, h⟩
    · intro h
      obtain ⟨a', h, hf⟩ := h
      obtain rfl := Except.ok.inj h
      exact hf

theorem bind_isOk {x : Except ε α} {f : α → Except ε β} (hx : ∃ a, x = .ok a)
    (hf : ∀ a, ∃ b, f a = .ok b) : ∃ b, (x >>= f) = .ok b := by
  obtain ⟨a, rfl⟩ := hx
  exact hf a

theorem mapM_eq_ok {f : α → Except ε β} {g : α → β} {l : List α} (h : ∀ x ∈ l, f x = .ok (g x)) :
    l.mapM f = .ok (l.map g) := by
  induction l with
  | nil => rfl
  | cons x l ih =>
    rw [List.mapM_cons, h x List.mem_cons_self, ih fun z hz => h z (List.mem_cons_of_mem _ hz)]
    rfl

theorem mapM_isOk {f : α → Except ε β} {l : List α} (h : ∀ x ∈ l, ∃ y, f x = .ok y) :
    ∃ ys, l.mapM f = .ok ys := by
  induction l with
  | nil => exact ⟨[], rfl⟩
  | cons x l ih =>
    obtain ⟨y, hy⟩ := h x List.mem_cons_self
    obtain ⟨ys, hys⟩ := ih fun z hz => h z (List.mem_cons_of_mem _ hz)
    refine ⟨y :: ys, ?_⟩
    rw [List.mapM_cons, hy, hys]
    rfl

/-- A loop that succeeds has succeeded on each element. -/
theorem isOk_of_mapM {f : α → Except ε β} {l : List α} {ys : List β} (h : l.mapM f = .ok ys) :
    ∀ x ∈ l, ∃ y, f x = .ok y := by
  induction l generalizing ys with
  | nil => exact fun x hx => absurd hx List.not_mem_nil
  | cons x l ih =>
    rw [List.mapM_cons] at h
    obtain ⟨y, hy, h⟩ := bind_eq_ok.mp h
    obtain ⟨zs, hzs, -⟩ := bind_eq_ok.mp h
    intro z hz
    rcases List.mem_cons.mp hz with rfl | hz
    · exact ⟨y, hy⟩
    · exact ih hzs z hz

theorem mapM_eq_some {f : α → Option β} {g : α → β} {l : List α} (h : ∀ x ∈ l, f x = some (g x)) :
    l.mapM f = some (l.map g) := by
  induction l with
  | nil => rfl
  | cons x l ih =>
    rw [List.mapM_cons, h x List.mem_cons_self, ih fun z hz => h z (List.mem_cons_of_mem _ hz)]
    rfl

/-- What a loop over a list returns, one element after the other. -/
theorem forall₂_of_mapM {f : α → Option β} {l : List α} {l' : List β} (h : l.mapM f = some l') :
    List.Forall₂ (fun a b => f a = some b) l l' := by
  induction l generalizing l' with
  | nil =>
    obtain rfl : [] = l' := by simpa using h
    exact List.Forall₂.nil
  | cons a l ih =>
    rw [List.mapM_cons] at h
    obtain ⟨b, hb, hrest⟩ := Option.bind_eq_some_iff.mp h
    obtain ⟨bs, hbs, hpure⟩ := Option.bind_eq_some_iff.mp hrest
    obtain rfl := Option.some.inj hpure
    exact List.Forall₂.cons hb (ih hbs)

theorem foldlM_isOk {f : β → α → Except ε β} {l : List α} (h : ∀ x ∈ l, ∀ a, ∃ b, f a x = .ok b)
    (a : β) : ∃ b, l.foldlM f a = .ok b := by
  induction l generalizing a with
  | nil => exact ⟨a, rfl⟩
  | cons x l ih =>
    obtain ⟨b, hb⟩ := h x List.mem_cons_self a
    obtain ⟨c, hc⟩ := ih (fun y hy => h y (List.mem_cons_of_mem _ hy)) b
    refine ⟨c, ?_⟩
    rw [List.foldlM_cons, hb]
    exact hc

theorem exists_of_mem_mapM {f : α → Except ε β} {l : List α} {ys : List β}
    (h : l.mapM f = .ok ys) : ∀ y ∈ ys, ∃ x ∈ l, f x = .ok y := by
  induction l generalizing ys with
  | nil =>
    cases h
    exact fun y hy => absurd hy List.not_mem_nil
  | cons x l ih =>
    rw [List.mapM_cons] at h
    obtain ⟨y, hy, h⟩ := bind_eq_ok.mp h
    obtain ⟨zs, hzs, h⟩ := bind_eq_ok.mp h
    obtain rfl := Except.ok.inj h
    intro z hz
    rcases List.mem_cons.mp hz with rfl | hz
    · exact ⟨x, List.mem_cons_self, hy⟩
    · obtain ⟨w, hw, hfw⟩ := ih hzs z hz
      exact ⟨w, List.mem_cons_of_mem _ hw, hfw⟩

/-- The result meets `P`, or the error meets `E`. -/
def Ensures (x : Except ε α) (E : ε → Prop) (P : α → Prop) : Prop :=
  match x with
  | .ok a => P a
  | .error e => E e

theorem Ensures.bind {x : Except ε α} {f : α → Except ε β} {E : ε → Prop} {P : α → Prop}
    {Q : β → Prop} (hx : Ensures x E P) (hf : ∀ a, P a → Ensures (f a) E Q) :
    Ensures (x >>= f) E Q := by
  cases x with
  | error e => exact hx
  | ok a => exact hf a hx

theorem Ensures.mono {x : Except ε α} {E : ε → Prop} {P Q : α → Prop} (hx : Ensures x E P)
    (hPQ : ∀ a, P a → Q a) : Ensures x E Q := by
  cases x with
  | error e => exact hx
  | ok a => exact hPQ a hx

end SearchServer

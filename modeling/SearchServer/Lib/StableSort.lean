import Mathlib

/-!
# Stable sorting and its precondition

`std::stable_sort` requires of its comparison that it is a strict weak ordering (`StrictWeakOn`): in
particular no element comes before itself. A comparison that says "not greater" in place of "less"
is none on any list that has an element (`strictWeakOn_iff_nil`).

Merge sort compares an element only with later ones (`mergeSort_congr`). With such a comparison, it
takes an element before every earlier one that has the same key, so the elements with one key come
out in the opposite order.

**Theorem (`pairwise_mergeSort_lt`).** The keys come out in non-increasing order, and equal keys with
decreasing positions.
-/

namespace SearchServer

variable {α κ ι : Type*}

/-- The comparison is a strict weak ordering of the elements of the list. -/
structure StrictWeakOn (l : List α) (less : α → α → Prop) : Prop where
  irrefl : ∀ a ∈ l, ¬ less a a
  asymm : ∀ a ∈ l, ∀ b ∈ l, less a b → ¬ less b a
  trans : ∀ a ∈ l, ∀ b ∈ l, ∀ c ∈ l, less a b → less b c → less a c
  /-- Elements that are not before one another are equivalent. -/
  incomp : ∀ a ∈ l, ∀ b ∈ l, ∀ c ∈ l, ¬ less a b → ¬ less b a → ¬ less b c → ¬ less c b →
    ¬ less a c ∧ ¬ less c a

theorem strictWeakOn_iff_nil {l : List α} {less : α → α → Prop} (hrefl : ∀ a ∈ l, less a a) :
    StrictWeakOn l less ↔ l = [] := by
  constructor
  · intro h
    refine List.eq_nil_iff_forall_not_mem.mpr fun a ha => ?_
    exact h.irrefl a ha (hrefl a ha)
  · rintro rfl
    constructor <;> simp

/-- Lists whose elements are known by a key are equal when their keys are. -/
theorem eq_of_map_eq {f : α → κ} {l l' : List α} (hinj : ∀ a ∈ l, ∀ b ∈ l', f a = f b → a = b)
    (h : l.map f = l'.map f) : l = l' := by
  have hlen : l.length = l'.length := by simpa using congrArg List.length h
  refine List.ext_getElem hlen fun i hi hi' => ?_
  have hkey : f (l.get ⟨i, hi⟩) = f (l'.get ⟨i, hi'⟩) := by
    have hget : (l.map f)[i]? = (l'.map f)[i]? := congrArg (·[i]?) h
    simpa [hi, hi'] using hget
  exact hinj _ (List.getElem_mem hi) _ (List.getElem_mem hi') hkey

theorem merge_congr {le le' : α → α → Bool} {l r : List α}
    (h : ∀ a ∈ l, ∀ b ∈ r, le a b = le' a b) : l.merge r le = l.merge r le' := by
  have hmap := List.map_merge (f := id) (r := le) (s := le') h
  rwa [List.map_id, List.map_id, List.map_id] at hmap

/-- Merge sort compares an element only with elements that come later in the list. -/
theorem mergeSort_congr {le le' : α → α → Bool} :
    ∀ {l : List α}, l.Pairwise (fun a b => le a b = le' a b) → l.mergeSort le = l.mergeSort le'
  | [], _ => by rw [List.mergeSort_nil, List.mergeSort_nil]
  | [a], _ => by rw [List.mergeSort_singleton, List.mergeSort_singleton]
  | a :: b :: l, h => by
    have hsplit := (List.take_append_drop (((a :: b :: l).length + 1) / 2) (a :: b :: l)).symm
    rw [hsplit] at h
    obtain ⟨hfst, hsnd, hcross⟩ := List.pairwise_append.mp h
    rw [List.mergeSort, List.mergeSort]
    simp only [List.MergeSort.Internal.splitInTwo_fst, List.MergeSort.Internal.splitInTwo_snd]
    rw [mergeSort_congr hfst, mergeSort_congr hsnd]
    refine merge_congr fun x hx y hy => ?_
    exact hcross x (List.mem_mergeSort.mp hx) y (List.mem_mergeSort.mp hy)
termination_by l => l.length
decreasing_by
  · simp only [List.length_take, List.length_cons]
    omega
  · simp only [List.length_drop, List.length_cons]
    omega

variable [LinearOrder κ] [LinearOrder ι]

/-- **Equal keys are reversed** when an element moves before every earlier one with the same key. -/
theorem pairwise_mergeSort_lt (key : α → κ) (pos : α → ι) {l : List α}
    (hpos : l.Pairwise fun a b => pos a < pos b) :
    (l.mergeSort fun a b => decide (key b < key a)).Pairwise fun a b =>
      key b < key a ∨ key b = key a ∧ pos b ≤ pos a := by
  set le : α → α → Bool := fun a b => decide (key b < key a ∨ key b = key a ∧ pos b ≤ pos a)
  have hcongr : (l.mergeSort fun a b => decide (key b < key a)) = l.mergeSort le := by
    refine mergeSort_congr (hpos.imp fun {a b} hab => ?_)
    refine decide_eq_decide.mpr ⟨.inl, fun h => h.resolve_right fun heq => ?_⟩
    exact absurd heq.2 (not_le.mpr hab)
  have htrans : ∀ a b c, le a b → le b c → le a c := by
    intro a b c hab hbc
    simp only [le, decide_eq_true_eq] at hab hbc ⊢
    rcases hab with hab | ⟨hab, hab'⟩
    · rcases hbc with hbc | ⟨hbc, -⟩
      · exact .inl (hbc.trans hab)
      · exact .inl (hbc.trans_lt hab)
    · rcases hbc with hbc | ⟨hbc, hbc'⟩
      · exact .inl (hbc.trans_eq hab)
      · exact .inr ⟨hbc.trans hab, hbc'.trans hab'⟩
  have htotal : ∀ a b, le a b || le b a := by
    intro a b
    simp only [le, Bool.or_eq_true, decide_eq_true_eq]
    rcases lt_trichotomy (key a) (key b) with h | h | h
    · exact .inr (.inl h)
    · exact (le_total (pos b) (pos a)).imp (fun hp => .inr ⟨h.symm, hp⟩) fun hp => .inr ⟨h, hp⟩
    · exact .inl (.inl h)
  rw [hcongr]
  exact (List.pairwise_mergeSort htrans htotal l).imp fun {a b} h => of_decide_eq_true h

end SearchServer

import Mathlib

/-!
# Tilings of an interval

A part of an array is given by its first and its last index (`IndexRange`). Ranges tile an interval
when they follow one another without a gap, from its start to its end (`Tiles`).

* `Tiles.bounds`: the ranges are in the interval.
* `tiles_wordRanges`: the ranges of consecutive words tile an interval.
* `slices_wordRanges`: they cut the words out.
-/

namespace SearchServer

/-- The indices from `left` to `right`, both included. -/
structure IndexRange where
  left : ℕ
  right : ℕ
deriving DecidableEq

/-- The ranges cover the indices from `b` on and before `e`, one after the other. -/
def Tiles : ℕ → ℕ → List IndexRange → Prop
  | b, e, [] => b = e
  | b, e, r :: rs => r.left = b ∧ b ≤ r.right ∧ Tiles (r.right + 1) e rs

namespace Tiles

variable {b e : ℕ} {rs : List IndexRange}

theorem le (h : Tiles b e rs) : b ≤ e := by
  induction rs generalizing b with
  | nil => exact Nat.le_of_eq h
  | cons r rs ih =>
    have := ih h.2.2
    have := h.2.1
    omega

/-- **The ranges are in the interval.** -/
theorem bounds (h : Tiles b e rs) {r : IndexRange} (hr : r ∈ rs) :
    b ≤ r.left ∧ r.left ≤ r.right ∧ r.right < e := by
  induction rs generalizing b with
  | nil => cases hr
  | cons x rs ih =>
    obtain ⟨hleft, hle, hrest⟩ := h
    have hend := hrest.le
    rcases List.mem_cons.mp hr with rfl | hr
    · omega
    · have := ih hrest hr
      omega

end Tiles

/-! ## Slices -/

variable {α β : Type*}

def IndexRange.slice (r : IndexRange) (l : List α) : List α :=
  (l.drop r.left).take (r.right + 1 - r.left)

/-! ## Consecutive words -/

/-- The ranges of words that follow one another from index `b` on. -/
def wordRanges : ℕ → List (List α) → List IndexRange
  | _, [] => []
  | b, w :: ws => ⟨b, b + w.length - 1⟩ :: wordRanges (b + w.length) ws

theorem wordRanges_append (b : ℕ) (ws vs : List (List α)) :
    wordRanges b (ws ++ vs) = wordRanges b ws ++ wordRanges (b + ws.flatten.length) vs := by
  induction ws generalizing b with
  | nil => rfl
  | cons w ws ih =>
    rw [List.cons_append, wordRanges, ih, wordRanges, List.flatten_cons, List.length_append,
      Nat.add_assoc]
    rfl

theorem tiles_wordRanges (b : ℕ) {ws : List (List α)} (hne : ∀ w ∈ ws, w ≠ []) :
    Tiles b (b + ws.flatten.length) (wordRanges b ws) := by
  induction ws generalizing b with
  | nil => exact rfl
  | cons w ws ih =>
    have hpos : 0 < w.length := List.length_pos_iff.mpr (hne w List.mem_cons_self)
    have hrest := ih (b + w.length) fun v hv => hne v (List.mem_cons_of_mem _ hv)
    refine ⟨rfl, by dsimp only; omega, ?_⟩
    rw [List.flatten_cons, List.length_append, ← Nat.add_assoc]
    have hend : b + w.length - 1 + 1 = b + w.length := by omega
    rwa [← hend] at hrest ⊢

/-- **The ranges of consecutive words** cut the words out. -/
theorem slices_wordRanges (front : List α) {ws : List (List α)} (hne : ∀ w ∈ ws, w ≠ [])
    (back : List α) :
    (wordRanges front.length ws).map (fun r => r.slice (front ++ ws.flatten ++ back)) = ws := by
  induction ws generalizing front with
  | nil => rfl
  | cons w ws ih =>
    have hpos : 0 < w.length := List.length_pos_iff.mpr (hne w List.mem_cons_self)
    have hword : front.length + w.length - 1 + 1 - front.length = w.length := by omega
    have hrest := ih (front ++ w) fun v hv => hne v (List.mem_cons_of_mem _ hv)
    rw [List.length_append] at hrest
    have hall : front ++ (w :: ws).flatten ++ back = front ++ w ++ ws.flatten ++ back := by simp
    rw [wordRanges, List.map_cons, hall, hrest, IndexRange.slice, hword, List.append_assoc,
      List.append_assoc, List.drop_left, List.take_left]

theorem wordRanges_map (f : α → β) (b : ℕ) (ws : List (List α)) :
    wordRanges b (ws.map (List.map f)) = wordRanges b ws := by
  induction ws generalizing b with
  | nil => rfl
  | cons w ws ih => rw [List.map_cons, wordRanges, ih, List.length_map, wordRanges]

/-- Words of an image are images of words. -/
theorem exists_words_of_map {f : α → β} {l : List α} {vs : List (List β)}
    (h : vs.flatten = l.map f) : ∃ ws : List (List α), ws.flatten = l ∧ ws.map (List.map f) = vs := by
  induction vs generalizing l with
  | nil =>
    obtain rfl := List.map_eq_nil_iff.mp h.symm
    exact ⟨[], rfl, rfl⟩
  | cons v vs ih =>
    obtain ⟨w, l, rfl, rfl, hrest⟩ := List.map_eq_append_iff.mp h.symm
    obtain ⟨ws, rfl, rfl⟩ := ih hrest.symm
    exact ⟨w :: ws, rfl, rfl⟩

end SearchServer

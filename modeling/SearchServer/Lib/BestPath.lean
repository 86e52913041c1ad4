import Mathlib

/-!
# Best paths

A loop keeps the first of the best candidates that it has seen (`bestOf`). With such loops a path of
largest weight through a trellis is found column by column (`columns`), and read off from the end
(`backtrack`).

The trellis has `n` states in each column, and a transfer function for each two neighbouring columns:
`t x y w` is the weight of a path that goes on from `x` to `y` after a path of weight `w`. A weight
that is not above `bot` is cut off.

* `bestOf_mem`, `bestOf_spec`: what the loop keeps is its start or a candidate, and none is better.

**Theorem (`best_path`).** When the transfer functions are monotone and do not increase a weight, the
path that is read off has at least the weight of each path to that state, or to another one that is
not better in the last column, if this is above `bot`.
-/

namespace SearchServer

/-! ## The best candidate -/

section

variable {α β γ : Type*}

/-- Keep the first candidate that is better than the start and those before it. -/
def bestOf (lt : β → β → Bool) (f : α → β) (g : α → γ) (start : γ × β) (l : List α) : γ × β :=
  l.foldl (fun r x => if lt r.2 (f x) then (g x, f x) else r) start

variable {lt : β → β → Bool} {f : α → β} {g : α → γ}

theorem bestOf_mem (lt : β → β → Bool) (f : α → β) (g : α → γ) (start : γ × β) (l : List α) :
    bestOf lt f g start l = start ∨ ∃ x ∈ l, bestOf lt f g start l = (g x, f x) := by
  induction l generalizing start with
  | nil => exact Or.inl rfl
  | cons x l ih =>
    rw [bestOf, List.foldl_cons]
    change bestOf lt f g _ l = start ∨ ∃ x' ∈ x :: l, bestOf lt f g _ l = (g x', f x')
    rcases ih (if lt start.2 (f x) then (g x, f x) else start) with h | ⟨x', hx', h⟩
    · rw [h]
      split_ifs
      · exact Or.inr ⟨x, List.mem_cons_self, rfl⟩
      · exact Or.inl rfl
    · exact Or.inr ⟨x', List.mem_cons_of_mem _ hx', h⟩

variable [LinearOrder β] (hlt : ∀ a b, lt a b = true ↔ a < b)
include hlt

/-- **The best candidate**: neither the start nor a candidate is better than the result. -/
theorem bestOf_spec (start : γ × β) (l : List α) :
    start.2 ≤ (bestOf lt f g start l).2 ∧ ∀ x ∈ l, f x ≤ (bestOf lt f g start l).2 := by
  induction l generalizing start with
  | nil => exact ⟨le_rfl, by simp⟩
  | cons x l ih =>
    rw [bestOf, List.foldl_cons]
    change start.2 ≤ (bestOf lt f g _ l).2 ∧ ∀ x' ∈ x :: l, f x' ≤ (bestOf lt f g _ l).2
    obtain ⟨hstart, hall⟩ := ih (if lt start.2 (f x) then (g x, f x) else start)
    -- After the first candidate neither it nor the start is better.
    have hfirst : start.2 ≤ (if lt start.2 (f x) then (g x, f x) else start).2 ∧
        f x ≤ (if lt start.2 (f x) then (g x, f x) else start).2 := by
      split_ifs with h
      · exact ⟨((hlt _ _).mp h).le, le_rfl⟩
      · exact ⟨le_rfl, not_lt.mp fun hx => h ((hlt _ _).mpr hx)⟩
    refine ⟨hfirst.1.trans hstart, fun x' hx' => ?_⟩
    rcases List.mem_cons.mp hx' with rfl | hx'
    · exact hfirst.2.trans hstart
    · exact hall x' hx'

end

/-! ## Trellises -/

section

variable {n : ℕ} {W : Type*}

/-- A column: for each state the state before it, and the weight of a best path to it. -/
abbrev Column (n : ℕ) (W : Type*) := Vector (Fin n × W) n

abbrev Transfer (n : ℕ) (W : Type*) := Fin n → Fin n → W → W

/-- The next column. `start` is kept where no path is better. -/
def nextColumn (lt : W → W → Bool) (start : Fin n × W) (t : Transfer n W) (col : Column n W) :
    Column n W :=
  Vector.ofFn fun y => bestOf lt (fun x => t x y (col.get x).2) id start (List.finRange n)

def columns (lt : W → W → Bool) (start : Fin n × W) :
    Column n W → List (Transfer n W) → List (Column n W)
  | _, [] => []
  | col, t :: ts =>
    let next := nextColumn lt start t col
    next :: columns lt start next ts

/-- The last of a column and those after it. -/
def lastColumn : Column n W → List (Column n W) → Column n W
  | col, [] => col
  | _, col :: cols => lastColumn col cols

/-- Read off the path to a state of the last column: the state in the first column, and those in
the columns `cols` after it. -/
def backtrack : List (Column n W) → Fin n → Fin n × List (Fin n)
  | [], y => (y, [])
  | col :: cols, y =>
    let (x, path) := backtrack cols y
    ((col.get x).1, x :: path)

/-- The weight of a path that goes on from a state with weight `w`. -/
def pathWeight : W → Fin n → List (Transfer n W) → List (Fin n) → W
  | w, x, t :: ts, y :: path => pathWeight (t x y w) y ts path
  | w, _, _, _ => w

theorem length_columns (lt : W → W → Bool) (start : Fin n × W) (col : Column n W)
    (ts : List (Transfer n W)) : (columns lt start col ts).length = ts.length := by
  induction ts generalizing col with
  | nil => rfl
  | cons t ts ih => exact congrArg (· + 1) (ih _)

theorem length_backtrack (cols : List (Column n W)) (y : Fin n) :
    (backtrack cols y).2.length = cols.length := by
  induction cols with
  | nil => rfl
  | cons col cols ih => exact congrArg (· + 1) ih

/-- The path that is read off ends in the given state. -/
theorem getLast_backtrack (cols : List (Column n W)) (y : Fin n) :
    ((backtrack cols y).1 :: (backtrack cols y).2).getLast (List.cons_ne_nil _ _) = y := by
  induction cols with
  | nil => rfl
  | cons col cols ih =>
    rw [backtrack, List.getLast_cons (List.cons_ne_nil _ _)]
    exact ih

theorem get_nextColumn (lt : W → W → Bool) (start : Fin n × W) (t : Transfer n W)
    (col : Column n W) (y : Fin n) : (nextColumn lt start t col).get y =
      bestOf lt (fun x => t x y (col.get x).2) id start (List.finRange n) := by
  rw [nextColumn, Vector.get_eq_getElem, Vector.getElem_ofFn]

/-! ### Weights -/

variable [LinearOrder W]

def KeepsOrder (ts : List (Transfer n W)) : Prop :=
  ∀ t ∈ ts, ∀ x y w w', w ≤ w' → t x y w ≤ t x y w'

/-- The transfer functions do not increase a weight. -/
def Decreasing (ts : List (Transfer n W)) : Prop := ∀ t ∈ ts, ∀ x y w, t x y w ≤ w

theorem pathWeight_mono {ts : List (Transfer n W)} (hmono : KeepsOrder ts) {w w' : W} (hw : w ≤ w')
    (x : Fin n) (path : List (Fin n)) : pathWeight w x ts path ≤ pathWeight w' x ts path := by
  induction ts generalizing w w' x path with
  | nil => exact hw
  | cons t ts ih =>
    cases path with
    | nil => exact hw
    | cons y path =>
      exact ih (fun t' ht' => hmono t' (List.mem_cons_of_mem _ ht'))
        (hmono t List.mem_cons_self x y w w' hw) y path

theorem pathWeight_le_start {ts : List (Transfer n W)} (hdec : Decreasing ts) (w : W) (x : Fin n)
    (path : List (Fin n)) : pathWeight w x ts path ≤ w := by
  induction ts generalizing w x path with
  | nil => exact le_rfl
  | cons t ts ih =>
    cases path with
    | nil => exact le_rfl
    | cons y path =>
      exact (ih (fun t' ht' => hdec t' (List.mem_cons_of_mem _ ht')) _ y path).trans
        (hdec t List.mem_cons_self x y w)

variable {lt : W → W → Bool}

/-- **No path is better** than its state in the last column. -/
theorem pathWeight_le (hlt : ∀ a b, lt a b = true ↔ a < b) (start : Fin n × W)
    {ts : List (Transfer n W)} (hmono : KeepsOrder ts) (col : Column n W) (x : Fin n)
    {path : List (Fin n)} (hlen : path.length = ts.length) :
    pathWeight (col.get x).2 x ts path ≤ ((lastColumn col (columns lt start col ts)).get
      ((x :: path).getLast (List.cons_ne_nil _ _))).2 := by
  induction ts generalizing col x path with
  | nil =>
    obtain rfl := List.length_eq_zero_iff.mp hlen
    exact le_rfl
  | cons t ts ih =>
    cases path with
    | nil => cases hlen
    | cons y path =>
      have hmono' : KeepsOrder ts := fun t' ht' => hmono t' (List.mem_cons_of_mem _ ht')
      have hcell : t x y (col.get x).2 ≤ ((nextColumn lt start t col).get y).2 := by
        rw [get_nextColumn]
        exact (bestOf_spec hlt (f := fun x => t x y (col.get x).2) start _).2 x (List.mem_finRange x)
      rw [List.getLast_cons (List.cons_ne_nil _ _)]
      exact (pathWeight_mono hmono' hcell y path).trans
        (ih hmono' (nextColumn lt start t col) y (Nat.succ.inj hlen))

/-- **The path that is read off** has the weight in the last column, if this is not cut off. -/
theorem pathWeight_backtrack (lt : W → W → Bool) (start : Fin n × W) {ts : List (Transfer n W)}
    (hdec : Decreasing ts) (col : Column n W) {y : Fin n}
    (hy : start.2 < ((lastColumn col (columns lt start col ts)).get y).2) :
    let (x, path) := backtrack (columns lt start col ts) y
    pathWeight (col.get x).2 x ts path = ((lastColumn col (columns lt start col ts)).get y).2 := by
  induction ts generalizing col with
  | nil => rfl
  | cons t ts ih =>
    have hdec' : Decreasing ts := fun t' ht' => hdec t' (List.mem_cons_of_mem _ ht')
    set next := nextColumn lt start t col with hnext
    change start.2 < ((lastColumn next (columns lt start next ts)).get y).2 at hy
    have hrest := ih hdec' next hy
    show pathWeight _ _ (t :: ts) (_ :: _) = ((lastColumn next (columns lt start next ts)).get y).2
    set x := (backtrack (columns lt start next ts) y).1
    set path := (backtrack (columns lt start next ts) y).2
    change pathWeight (next.get x).2 x ts path = _ at hrest
    -- The weights along the path decrease, so its second state was not cut off either.
    have hx : start.2 < (next.get x).2 := by
      rw [← hrest] at hy
      exact hy.trans_le (pathWeight_le_start hdec' _ _ _)
    have hcell : (next.get x).2 = t (next.get x).1 x (col.get (next.get x).1).2 := by
      rw [hnext, get_nextColumn] at hx ⊢
      rcases bestOf_mem lt (fun z => t z x (col.get z).2) id start
        (List.finRange n) with h | ⟨z, -, h⟩
      · rw [h] at hx
        exact absurd hx (lt_irrefl _)
      · rw [h]
        rfl
    rw [← hrest]
    show pathWeight (t (next.get x).1 x (col.get (next.get x).1).2) x ts path = _
    rw [← hcell]

/-- **A best path** to a state: no path that ends in a state with no more weight is better. -/
theorem best_path (hlt : ∀ a b, lt a b = true ↔ a < b) {start : Fin n × W}
    {ts : List (Transfer n W)} (hmono : KeepsOrder ts) (hdec : Decreasing ts) (col : Column n W)
    {x y : Fin n} {path : List (Fin n)} (hlen : path.length = ts.length)
    (hend : ((lastColumn col (columns lt start col ts)).get
      ((x :: path).getLast (List.cons_ne_nil _ _))).2 ≤
        ((lastColumn col (columns lt start col ts)).get y).2)
    (hbot : start.2 < pathWeight (col.get x).2 x ts path) :
    let (x', path') := backtrack (columns lt start col ts) y
    pathWeight (col.get x).2 x ts path ≤ pathWeight (col.get x').2 x' ts path' := by
  have hle := (pathWeight_le hlt start hmono col x hlen).trans hend
  exact hle.trans (pathWeight_backtrack lt start hdec col (hbot.trans_le hle)).ge

end

end SearchServer

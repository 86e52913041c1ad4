import SearchServer.Lib.BestPath
import SearchServer.Segment.DictTrie

/-!
# Cutting at words of the dictionary

`MPSegment` (`cppjieba/MPSegment.hpp`) cuts a range of runes into words of the dictionary and single
runes. `CalcDP` goes through the positions from the end, and keeps for each the word after which the
rest has the largest weight. `CutByDag` follows the words from the start.

**Theorem (`cut_eq`).** The words are a segmentation of the range: words of the dictionary and single
runes, one after the other. No assertion fails.

**Theorem (`cut_best`).** The segmentation has the largest weight of all segmentations, provided that
each suffix of the range has one whose weight is above `MIN_DOUBLE`. This needs only that additions
keep the order of `double`s, so it holds in spite of rounding.
-/

namespace SearchServer.MPSegment

open DoubleOps

variable {F : Type} [DoubleOps F]

/-- `val` for an entry of position `i`, where `done` are the positions after `i`. -/
def entryWeight (minWeight : F) (i : ℕ) (done : List (Dag F)) (it : ℕ × Option (DictUnit F)) : F :=
  let val := ofInt 0
  let val := match done[it.1 - i]? with
    | some dag => add val dag.weight
    | none => val
  match it.2 with
  | some p => add val p.weight
  | none => add val minWeight

/-- `CalcDP`, on the positions from `i` on. -/
def calcDP (minWeight : F) : ℕ → List (Dag F) → List (Dag F)
  | _, [] => []
  | i, dag :: dags =>
    let done := calcDP minWeight (i + 1) dags
    let best := bestOf lt (entryWeight minWeight i done) Prod.snd (none, minDouble) dag.nexts
    { dag with pInfo := best.1, weight := best.2 } :: done

/-- `CutByDag`, from position `i` on. There is no result when the assertion fails. -/
def cutByDag (begin : ℕ) (dags : List (Dag F)) (i : ℕ) : Option (List WordRange) :=
  if _hi : i < dags.length then
    match dags[i].pInfo with
    | some p =>
      if _hp : 1 ≤ p.word.length then
        (cutByDag begin dags (i + p.word.length)).map
          (⟨begin + i, begin + i + p.word.length - 1⟩ :: ·)
      else none
    | none => (cutByDag begin dags (i + 1)).map (⟨begin + i, begin + i⟩ :: ·)
  else some []
termination_by dags.length - i

/-- `Cut` on the runes `xs` of a range that begins at `begin`. The assertion of `CalcDP` is that each
position has an entry. -/
def cut (dict : DictTrie F) (maxWordLen begin : ℕ) (xs : List Rune) : Option (List WordRange) :=
  let dags := dict.trie.findDags maxWordLen 0 xs
  if dags.all fun dag => !dag.nexts.isEmpty then
    let dags := calcDP dict.minWeight 0 dags
    cutByDag begin dags 0
  else none

/-! ## Segmentations -/

section

variable (dict : DictTrie F) (maxWordLen : ℕ)

/-- A single rune, or a word of the dictionary that is not too long. -/
def IsPiece (w : List Rune) : Prop :=
  w ≠ [] ∧ (w.length = 1 ∨ w.length ≤ maxWordLen ∧ dict.trie.find w ≠ none)

def IsSegmentation (xs : List Rune) (ws : List (List Rune)) : Prop :=
  ws.flatten = xs ∧ ∀ w ∈ ws, IsPiece dict maxWordLen w

/-- The weight of a word. A rune that is not in the dictionary has the least weight. -/
def wordWeight (w : List Rune) : F :=
  match dict.trie.find w with
  | some unit => unit.weight
  | none => dict.minWeight

/-- The weights are summed from the end. -/
def segWeight (ws : List (List Rune)) : F :=
  ws.foldr (fun w sum => add sum (wordWeight dict w)) (ofInt 0)

/-! ## The positions of a range -/

/-- What `CalcDP` finds out about the runes from position `i` on. -/
def solve (i : ℕ) (xs : List Rune) : List (Dag F) :=
  calcDP dict.minWeight i (dict.trie.findDags maxWordLen i xs)

def bestWeight (i : ℕ) (xs : List Rune) : F :=
  ((solve dict maxWordLen i xs).head?.map Dag.weight).getD (ofInt 0)

end

variable {dict : DictTrie F} {maxWordLen : ℕ}

theorem length_solve (i : ℕ) (xs : List Rune) : (solve dict maxWordLen i xs).length = xs.length := by
  induction xs generalizing i with
  | nil => rfl
  | cons x xs ih => exact congrArg (· + 1) (ih (i + 1))

theorem drop_solve (i n : ℕ) (xs : List Rune) :
    (solve dict maxWordLen i xs).drop n = solve dict maxWordLen (i + n) (xs.drop n) := by
  induction n generalizing i xs with
  | zero => rfl
  | succ n ih =>
    cases xs with
    | nil => rfl
    | cons x xs =>
      have h := ih (i + 1) xs
      rw [Nat.add_assoc, Nat.add_comm 1 n] at h
      exact h

/-- A single rune is an entry, so the assertion of `CalcDP` does not fail. -/
theorem nexts_ne_nil (i : ℕ) (xs : List Rune) :
    (dict.trie.findDags maxWordLen i xs).all fun dag => !dag.nexts.isEmpty := by
  induction xs generalizing i with
  | nil => rfl
  | cons x xs ih => exact ih (i + 1)

theorem cut_eq_cutByDag (begin : ℕ) (xs : List Rune) :
    cut dict maxWordLen begin xs = cutByDag begin (solve dict maxWordLen 0 xs) 0 :=
  if_pos (nexts_ne_nil 0 xs)

/-- From the runes `xs` at position `i` on, the word `w` leads to the best weight, unless no weight is
above `MIN_DOUBLE`. -/
def TakesBest (dict : DictTrie F) (maxWordLen i : ℕ) (xs w : List Rune) : Prop :=
  bestWeight dict maxWordLen i xs = minDouble ∨
    ∃ y ys, xs = y :: ys ∧ bestWeight dict maxWordLen i xs =
      entryWeight dict.minWeight i (solve dict maxWordLen (i + 1) ys)
        (i + w.length - 1, dict.trie.find w)

def bestEntry (dict : DictTrie F) (maxWordLen i : ℕ) (x : Rune) (xs : List Rune) :
    Option (DictUnit F) × F :=
  bestOf lt (entryWeight dict.minWeight i (solve dict maxWordLen (i + 1) xs)) Prod.snd
    (none, minDouble) (dict.trie.nextsAt maxWordLen i (x :: xs))

theorem solve_cons (i : ℕ) (x : Rune) (xs : List Rune) :
    solve dict maxWordLen i (x :: xs) =
      ⟨dict.trie.nextsAt maxWordLen i (x :: xs), (bestEntry dict maxWordLen i x xs).1,
        (bestEntry dict maxWordLen i x xs).2⟩ :: solve dict maxWordLen (i + 1) xs := rfl

theorem bestWeight_cons (i : ℕ) (x : Rune) (xs : List Rune) :
    bestWeight dict maxWordLen i (x :: xs) = (bestEntry dict maxWordLen i x xs).2 := rfl

omit [DoubleOps F] in
/-- The entry for a word is found at its last rune. -/
theorem mem_nextsAt_of_isPiece (i : ℕ) {w : List Rune} (xs : List Rune)
    (hw : IsPiece dict maxWordLen w) :
    (i + w.length - 1, dict.trie.find w) ∈ dict.trie.nextsAt maxWordLen i (w ++ xs) := by
  have hpos : 0 < w.length := List.length_pos_iff.mpr hw.1
  refine Trie.mem_nextsAt_iff.mpr ⟨w.length, hpos, by simp, by omega, ?_, hw.2⟩
  rw [List.take_left]

/-- An entry leads to the position after its word. -/
theorem getElem?_solve (i : ℕ) {w : List Rune} (hw : w ≠ []) (x : Rune) (xs ys : List Rune)
    (hxs : x :: xs = w ++ ys) :
    (solve dict maxWordLen (i + 1) xs)[i + w.length - 1 - i]? =
      (solve dict maxWordLen (i + w.length) ys).head? := by
  obtain ⟨y, w, rfl⟩ := List.exists_cons_of_ne_nil hw
  rw [List.cons_append, List.cons.injEq] at hxs
  obtain ⟨rfl, rfl⟩ := hxs
  have hlen : i + (x :: w).length - 1 - i = w.length := by simp
  have hnext : i + (x :: w).length = i + 1 + w.length := by simp; omega
  rw [hlen, hnext, ← List.head?_drop, drop_solve, List.drop_left]

/-- **A step of the loop**: from each position it goes on by a piece that leads to the best weight. -/
theorem cutByDag_step (dict : DictTrie F) (maxWordLen : ℕ) {s : List Rune} {i : ℕ} (hi : i < s.length) :
    ∃ w ys, s.drop i = w ++ ys ∧ IsPiece dict maxWordLen w ∧
      (∀ begin, cutByDag begin (solve dict maxWordLen 0 s) i =
        (cutByDag begin (solve dict maxWordLen 0 s) (i + w.length)).map
          (⟨begin + i, begin + i + w.length - 1⟩ :: ·)) ∧
      TakesBest dict maxWordLen i (s.drop i) w := by
  have hlen : (solve dict maxWordLen 0 s).length = s.length := length_solve 0 s
  obtain ⟨x, xs, hdrop⟩ := List.exists_cons_of_ne_nil (l := s.drop i)
    (by rw [Ne, List.drop_eq_nil_iff]; omega)
  have hi' : i < (solve dict maxWordLen 0 s).length := hlen.symm ▸ hi
  have hinfo : (solve dict maxWordLen 0 s)[i].pInfo = (bestEntry dict maxWordLen i x xs).1 := by
    have hhead : (solve dict maxWordLen 0 s)[i]? = (solve dict maxWordLen i (x :: xs)).head? := by
      rw [← List.head?_drop, drop_solve, Nat.zero_add, hdrop]
    rw [List.getElem?_eq_getElem hi', solve_cons] at hhead
    rw [Option.some.inj hhead]
  have hsingle : IsPiece dict maxWordLen [x] := ⟨List.cons_ne_nil _ _, Or.inl rfl⟩
  rw [hdrop]
  rcases bestOf_mem lt
    (entryWeight dict.minWeight i (solve dict maxWordLen (i + 1) xs)) Prod.snd (none, minDouble)
    (dict.trie.nextsAt maxWordLen i (x :: xs)) with hbest | ⟨⟨k, p⟩, hmem, hbest⟩
  · -- Nothing is above `MIN_DOUBLE`.
    have hnone : (solve dict maxWordLen 0 s)[i].pInfo = none := by rw [hinfo, bestEntry, hbest]
    refine ⟨[x], xs, rfl, hsingle, fun begin => ?_, Or.inl (by rw [bestWeight_cons, bestEntry, hbest])⟩
    rw [cutByDag, dif_pos hi', hnone]
    rfl
  · obtain ⟨n, hpos, hn, hk, hp, hpiece⟩ := Trie.mem_nextsAt_iff.mp hmem
    have hw : ((x :: xs).take n).length = n := by
      rw [List.length_take, Nat.min_eq_left hn]
    have hk' : k = i + ((x :: xs).take n).length - 1 := by omega
    refine ⟨(x :: xs).take n, (x :: xs).drop n, (List.take_append_drop _ _).symm, ⟨?_, ?_⟩,
      fun begin => ?_, Or.inr ⟨x, xs, rfl, ?_⟩⟩
    · exact List.ne_nil_of_length_pos (hw.symm ▸ hpos)
    · rw [hw, ← hp]
      exact hpiece
    · have hbest₁ : (solve dict maxWordLen 0 s)[i].pInfo = p := by rw [hinfo, bestEntry, hbest]
      rw [cutByDag, dif_pos hi', hbest₁]
      cases hp' : p with
      | none =>
        -- An entry without a unit is a single rune.
        have hone : n = 1 := hpiece.resolve_right fun h => h.2 hp'
        rw [hw, hone]
        rfl
      | some unit =>
        have hword : unit.word = (x :: xs).take n := dict.word_eq _ _ (hp.symm.trans hp')
        dsimp only
        rw [dif_pos (by rw [hword, hw]; exact hpos), hword]
    · rw [bestWeight_cons, bestEntry, hbest, ← hk', ← hp]

/-! ## The words are a segmentation -/

/-- Induction along the loop, from the end. -/
theorem cutByDag_induction (dict : DictTrie F) (maxWordLen : ℕ) (s : List Rune)
    {P : ℕ → List Rune → List (List Rune) → Prop}
    (nil : P s.length [] [])
    (cons : ∀ i w ys ws, s.drop i = w ++ ys → IsPiece dict maxWordLen w →
      TakesBest dict maxWordLen i (s.drop i) w →
      P (i + w.length) ys ws → P i (w ++ ys) (w :: ws))
    {i : ℕ} (hi : i ≤ s.length) :
    ∃ ws, (∀ begin, cutByDag begin (solve dict maxWordLen 0 s) i =
      some (wordRanges (begin + i) ws)) ∧ P i (s.drop i) ws := by
  induction hn : s.length - i using Nat.strong_induction_on generalizing i with
  | _ n ih =>
    rcases hi.lt_or_eq with hlt | rfl
    · obtain ⟨w, ys, hdrop, hpiece, hcut, hbest⟩ := cutByDag_step dict maxWordLen hlt
      have hpos : 0 < w.length := List.length_pos_iff.mpr hpiece.1
      have hys : s.drop (i + w.length) = ys := by
        rw [← List.drop_drop, hdrop, List.drop_left]
      have hle : i + w.length ≤ s.length := by
        have := congrArg List.length hdrop
        rw [List.length_drop, List.length_append] at this
        omega
      obtain ⟨ws, hrest, hP⟩ := ih _ (by omega) hle rfl
      rw [hys] at hP
      refine ⟨w :: ws, fun begin => ?_, hdrop ▸ cons i w ys ws hdrop hpiece hbest hP⟩
      rw [hcut, hrest, Option.map_some, wordRanges, Nat.add_assoc begin i w.length]
    · refine ⟨[], fun begin => ?_, by rwa [List.drop_length]⟩
      rw [cutByDag, dif_neg (by rw [length_solve]; exact lt_irrefl _)]
      rfl

omit [DoubleOps F] in
theorem IsSegmentation.nil : IsSegmentation dict maxWordLen [] [] := ⟨rfl, by simp⟩

omit [DoubleOps F] in
theorem IsSegmentation.cons {w ys : List Rune} {ws : List (List Rune)}
    (hw : IsPiece dict maxWordLen w) (h : IsSegmentation dict maxWordLen ys ws) :
    IsSegmentation dict maxWordLen (w ++ ys) (w :: ws) :=
  ⟨congrArg (w ++ ·) h.1, List.forall_mem_cons.mpr ⟨hw, h.2⟩⟩

/-- **The words of a range** are a segmentation. -/
theorem cut_eq (dict : DictTrie F) (maxWordLen : ℕ) (xs : List Rune) :
    ∃ ws, (∀ begin, cut dict maxWordLen begin xs = some (wordRanges begin ws)) ∧
      IsSegmentation dict maxWordLen xs ws := by
  simp only [cut_eq_cutByDag]
  exact cutByDag_induction dict maxWordLen xs (P := fun _ => IsSegmentation dict maxWordLen) .nil
    (fun _ _ _ _ _ hpiece _ h => h.cons hpiece) (Nat.zero_le _)

/-! ## The segmentation is the best -/

variable [OrderedOps F]

/-- The weight of an entry: the best weight of the rest, and the weight of the word. -/
theorem entryWeight_eq (i : ℕ) {w : List Rune} (hw : w ≠ []) {x : Rune} {xs ys : List Rune}
    (hxs : x :: xs = w ++ ys) :
    entryWeight dict.minWeight i (solve dict maxWordLen (i + 1) xs)
        (i + w.length - 1, dict.trie.find w) =
      add (bestWeight dict maxWordLen (i + w.length) ys) (wordWeight dict w) := by
  rw [entryWeight, bestWeight, wordWeight]
  dsimp only
  rw [getElem?_solve i hw x xs ys hxs]
  cases (solve dict maxWordLen (i + w.length) ys).head? with
  | none => cases dict.trie.find w <;> rfl
  | some dag =>
    dsimp only [Option.map_some, Option.getD_some]
    rw [OrderedOps.zero_add]
    cases dict.trie.find w <;> rfl

/-- No segmentation has a larger weight than the first position. -/
theorem segWeight_le (i : ℕ) {xs : List Rune} {ws : List (List Rune)}
    (h : IsSegmentation dict maxWordLen xs ws) :
    segWeight dict ws ≤ bestWeight dict maxWordLen i xs := by
  obtain ⟨rfl, hpieces⟩ := h
  induction ws generalizing i with
  | nil => exact le_rfl
  | cons w ws ih =>
    obtain ⟨hpiece, hrest⟩ := List.forall_mem_cons.mp hpieces
    have hle := ih (i + w.length) hrest
    obtain ⟨x, xs, hxs⟩ := List.exists_cons_of_ne_nil
      (l := w ++ ws.flatten) (by simp [hpiece.1])
    have hmem := mem_nextsAt_of_isPiece i ws.flatten hpiece
    rw [hxs] at hmem
    rw [List.flatten_cons, hxs, bestWeight_cons, bestEntry]
    calc segWeight dict (w :: ws)
        ≤ add (bestWeight dict maxWordLen (i + w.length) ws.flatten) (wordWeight dict w) :=
          OrderedOps.add_le_left hle _
      _ = entryWeight dict.minWeight i (solve dict maxWordLen (i + 1) xs)
            (i + w.length - 1, dict.trie.find w) := (entryWeight_eq i hpiece.1 hxs.symm).symm
      _ ≤ _ := (bestOf_spec OrderedOps.lt_iff (none, minDouble) _).2 _ hmem

/-- A piece in front of a segmentation that has the best weight of the rest. -/
theorem segWeight_cons {s : List Rune} (hbot : ∀ xs, xs <:+ s → xs ≠ [] →
      ∃ ws, IsSegmentation dict maxWordLen xs ws ∧ minDouble < segWeight dict ws)
    {i : ℕ} {w ys : List Rune} {ws : List (List Rune)} (hdrop : s.drop i = w ++ ys)
    (hpiece : IsPiece dict maxWordLen w)
    (hbest : TakesBest dict maxWordLen i (s.drop i) w)
    (hweight : segWeight dict ws = bestWeight dict maxWordLen (i + w.length) ys) :
    segWeight dict (w :: ws) = bestWeight dict maxWordLen i (w ++ ys) := by
  -- The suffix has a segmentation above `MIN_DOUBLE`, so its best entry was taken.
  obtain ⟨vs, hvs, habove⟩ := hbot (s.drop i) (List.drop_suffix i s)
    (by rw [hdrop]; exact List.append_ne_nil_of_left_ne_nil hpiece.1 ys)
  obtain ⟨x, xs, hxs, hentry⟩ := hbest.resolve_left (habove.trans_le (segWeight_le i hvs)).ne'
  rw [hdrop] at hxs hentry
  rw [hentry, entryWeight_eq i hpiece.1 hxs.symm, ← hweight]
  rfl

/-- **The words of a range have the largest weight.** -/
theorem cut_best {xs : List Rune}
    (hbot : ∀ ys, ys <:+ xs → ys ≠ [] →
      ∃ ws, IsSegmentation dict maxWordLen ys ws ∧ minDouble < segWeight dict ws) :
    ∃ ws, (∀ begin, cut dict maxWordLen begin xs = some (wordRanges begin ws)) ∧
      IsSegmentation dict maxWordLen xs ws ∧
      ∀ ws', IsSegmentation dict maxWordLen xs ws' → segWeight dict ws' ≤ segWeight dict ws := by
  obtain ⟨ws, hcut, hseg, hweight⟩ := cutByDag_induction dict maxWordLen xs
    (P := fun i ys ws => IsSegmentation dict maxWordLen ys ws ∧
      segWeight dict ws = bestWeight dict maxWordLen i ys) ⟨.nil, rfl⟩
    (fun i w ys ws hdrop hpiece hbest h =>
      ⟨h.1.cons hpiece, segWeight_cons hbot hdrop hpiece hbest h.2⟩) (Nat.zero_le _)
  simp only [cut_eq_cutByDag]
  exact ⟨ws, hcut, hseg, fun ws' hws' => (segWeight_le 0 hws').trans_eq hweight.symm⟩

/-- A dictionary of "ab" and "b". -/
noncomputable def twoWords : DictTrie ℝ :=
  DictTrie.createTrie [⟨[97, 98], 0⟩, ⟨[98], -1⟩] (-1) []

theorem wordWeight_twoWords (w : List Rune) (hw : w ≠ []) : wordWeight twoWords w =
    if w = [98] then -1 else if w = [97, 98] then 0 else -1 := by
  rw [wordWeight, twoWords, DictTrie.find_createTrie _ _ _ hw]
  by_cases hb : w = [98]
  · subst hb
    rfl
  · by_cases hab : w = [97, 98]
    · subst hab
      rfl
    · simp [hb, hab, Ne.symm hb, Ne.symm hab, DictTrie.createTrie]

theorem cut_best_twoWords :
    ∃ ws, (∀ begin, cut twoWords maxWordLength begin [97, 98] = some (wordRanges begin ws)) ∧
      IsSegmentation twoWords maxWordLength [97, 98] ws ∧
      ∀ ws', IsSegmentation twoWords maxWordLength [97, 98] ws' →
        segWeight twoWords ws' ≤ segWeight twoWords ws := by
  refine cut_best fun ys hys hne => ⟨ys.map fun x => [x], ⟨?_, ?_⟩, ?_⟩
  · exact List.flatMap_singleton' ys
  · intro w hw
    obtain ⟨x, -, rfl⟩ := List.mem_map.mp hw
    exact ⟨List.cons_ne_nil _ _, Or.inl rfl⟩
  · rcases List.suffix_cons_iff.mp hys with rfl | hys
    · show ((-314 * 10 ^ 98 : ℤ) : ℝ) < ((0 : ℤ) : ℝ) + wordWeight twoWords [98] +
        wordWeight twoWords [97]
      rw [wordWeight_twoWords _ (by simp), wordWeight_twoWords _ (by simp), if_pos rfl,
        if_neg (by decide), if_neg (by decide)]
      norm_num
    · rcases List.suffix_cons_iff.mp hys with rfl | hys
      · show ((-314 * 10 ^ 98 : ℤ) : ℝ) < ((0 : ℤ) : ℝ) + wordWeight twoWords [98]
        rw [wordWeight_twoWords _ (by simp), if_pos rfl]
        norm_num
      · exact absurd (List.suffix_nil.mp hys) hne

end SearchServer.MPSegment

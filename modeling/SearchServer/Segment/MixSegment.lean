import SearchServer.Segment.MPSegment
import SearchServer.Segment.HMMSegment

/-!
# Cutting with the dictionary and the Markov model

`MixSegment` (`cppjieba/MixSegment.hpp`) first cuts a range at the words of the dictionary. Of the
words that it finds, the single runes that are not words of the user are collected in sequence, and
each sequence is cut again with the Markov model.

**Theorem (`cut_eq`).** The words are the runes of the range, one after the other. Each is a word of
the dictionary, or was found in a sequence of single runes.
-/

namespace SearchServer.MixSegment

variable {F : Type} [DoubleOps F]

section

variable (dict : DictTrie F) (model : HMMModel F)

/-- A single rune that is not a word of the user, in a range that begins at `begin`. -/
def isLone (begin : ℕ) (xs : List Rune) (wr : WordRange) : Bool :=
  wr.left = wr.right ∧ xs.getD (wr.left - begin) 0 ∉ dict.userDictSingleChineseWord

/-- The loop of `Cut` over the words of the dictionary. -/
def joinLone (begin : ℕ) (xs : List Rune) : List WordRange → List WordRange
  | [] => []
  | wr :: words =>
    if isLone dict begin xs wr then
      let last := (words.takeWhile (isLone dict begin xs)).getLastD wr
      HMMSegment.cut model wr.left
          (IndexRange.slice ⟨wr.left - begin, last.left - begin⟩ xs) ++
        joinLone begin xs (words.dropWhile (isLone dict begin xs))
    else wr :: joinLone begin xs words
termination_by words => words.length
decreasing_by
  · exact Nat.lt_succ_of_le (List.dropWhile_suffix _).length_le
  · exact Nat.lt_succ_self _

/-- `Cut` on the runes `xs` of a range that begins at `begin`. -/
def cut (hmm : Bool) (begin : ℕ) (xs : List Rune) : Option (List WordRange) :=
  if !hmm then MPSegment.cut dict maxWordLength begin xs
  else do
    let words ← MPSegment.cut dict maxWordLength begin xs
    return joinLone dict model begin xs words

end

/-! ## Single runes in sequence -/

variable {dict : DictTrie F} {model : HMMModel F}

def IsLone (dict : DictTrie F) (w : List Rune) : Prop :=
  ∃ x, w = [x] ∧ x ∉ dict.userDictSingleChineseWord

omit [DoubleOps F] in
theorem isLone_iff (begin : ℕ) (front back : List Rune) {w : List Rune} (hw : w ≠ []) :
    isLone dict begin (front ++ w ++ back)
        ⟨begin + front.length, begin + front.length + w.length - 1⟩ = true ↔ IsLone dict w := by
  obtain ⟨x, v, rfl⟩ := List.exists_cons_of_ne_nil hw
  have hget : (front ++ (x :: v) ++ back).getD front.length 0 = x := by
    rw [List.append_assoc, List.getD_append_right _ _ _ _ le_rfl, Nat.sub_self]
    rfl
  rw [isLone, decide_eq_true_iff]
  dsimp only
  rw [Nat.add_sub_cancel_left, hget, IsLone]
  constructor
  · rintro ⟨hlen, hx⟩
    obtain rfl : v = [] := List.length_eq_zero_iff.mp (by rw [List.length_cons] at hlen; omega)
    exact ⟨x, rfl, hx⟩
  · rintro ⟨y, hy, hnot⟩
    obtain ⟨rfl, rfl⟩ := List.cons.inj hy
    exact ⟨rfl, hnot⟩

omit [DoubleOps F] in
/-- The words at the front that are single runes, and the others. -/
theorem takeWhile_isLone (dict : DictTrie F) (front : List Rune) {ws : List (List Rune)}
    (hne : ∀ w ∈ ws, w ≠ []) :
    ∃ run rest, ws = run ++ rest ∧ (∀ w ∈ run, IsLone dict w) ∧
      (∀ w ∈ rest.head?, ¬ IsLone dict w) ∧ ∀ begin,
      (wordRanges (begin + front.length) ws).takeWhile (isLone dict begin (front ++ ws.flatten)) =
        wordRanges (begin + front.length) run ∧
      (wordRanges (begin + front.length) ws).dropWhile (isLone dict begin (front ++ ws.flatten)) =
        wordRanges (begin + front.length + run.flatten.length) rest := by
  induction ws generalizing front with
  | nil => exact ⟨[], [], rfl, by simp, by simp, fun begin => ⟨rfl, rfl⟩⟩
  | cons w ws ih =>
    obtain ⟨hw, hne⟩ := List.forall_mem_cons.mp hne
    have hassoc : front ++ w ++ ws.flatten = front ++ (w :: ws).flatten := by simp
    have hlone : ∀ begin, isLone dict begin (front ++ (w :: ws).flatten)
        ⟨begin + front.length, begin + front.length + w.length - 1⟩ = true ↔ IsLone dict w :=
      fun begin => hassoc ▸ isLone_iff begin front ws.flatten hw
    by_cases h : IsLone dict w
    · obtain ⟨run, rest, rfl, hrun, hrest, hsplit⟩ := ih (front ++ w) hne
      refine ⟨w :: run, rest, rfl, List.forall_mem_cons.mpr ⟨h, hrun⟩, hrest, fun begin => ?_⟩
      obtain ⟨htake, hdrop⟩ := hsplit begin
      rw [List.length_append, ← Nat.add_assoc, hassoc] at htake hdrop
      constructor
      · rw [wordRanges, List.takeWhile_cons_of_pos ((hlone begin).mpr h), htake, wordRanges]
      · rw [wordRanges, List.dropWhile_cons_of_pos ((hlone begin).mpr h), hdrop, List.flatten_cons,
          List.length_append, Nat.add_assoc (begin + front.length)]
    · exact ⟨[], w :: ws, rfl, by simp, by simpa using h, fun begin =>
        ⟨List.takeWhile_cons_of_neg fun h' => h ((hlone begin).mp h'),
          List.dropWhile_cons_of_neg fun h' => h ((hlone begin).mp h')⟩⟩

omit [DoubleOps F] in
/-- The position of the last one of a sequence of single runes. -/
theorem left_getLastD {run : List (List Rune)} (hrun : ∀ w ∈ run, IsLone dict w) (b right : ℕ) :
    ((wordRanges (b + 1) run).getLastD ⟨b, right⟩).left = b + run.flatten.length := by
  rcases run.eq_nil_or_concat with rfl | ⟨init, w, rfl⟩
  · rfl
  · obtain ⟨x, rfl, -⟩ := hrun w (by simp)
    rw [List.concat_eq_append, wordRanges_append, List.flatten_append, List.length_append]
    show (List.getLastD (_ ++ [(⟨b + 1 + init.flatten.length, _⟩ : WordRange)]) _).left = _
    rw [List.getLastD_concat]
    simp only [List.flatten_cons, List.flatten_nil, List.append_nil, List.length_singleton]
    omega

/-- A single rune is cut again, together with the single runes after it. -/
theorem joinLone_cons_of_isLone (dict : DictTrie F) (model : HMMModel F) (front : List Rune)
    {w : List Rune} {ws : List (List Rune)} (h : IsLone dict w) (hne : ∀ w ∈ ws, w ≠ []) :
    ∃ run rest, ws = run ++ rest ∧ (∀ w ∈ run, IsLone dict w) ∧
      (∀ w ∈ rest.head?, ¬ IsLone dict w) ∧ ∀ begin,
      joinLone dict model begin (front ++ (w :: ws).flatten)
          (wordRanges (begin + front.length) (w :: ws)) =
        HMMSegment.cut model (begin + front.length) (w ++ run.flatten) ++
          joinLone dict model begin (front ++ (w :: ws).flatten)
            (wordRanges (begin + (front ++ w ++ run.flatten).length) rest) := by
  obtain ⟨run, rest, rfl, hrun, hhead, hsplit⟩ := takeWhile_isLone dict (front ++ w) hne
  refine ⟨run, rest, rfl, hrun, hhead, fun begin => ?_⟩
  obtain ⟨x, rfl, hx⟩ := h
  obtain ⟨htake, hdrop⟩ := hsplit begin
  have hassoc : front ++ [x] ++ (run ++ rest).flatten = front ++ ([x] :: (run ++ rest)).flatten := by
    simp
  have hall : front ++ ([x] :: (run ++ rest)).flatten =
      front ++ ([x] ++ run.flatten ++ rest.flatten) := by simp
  have hlone : isLone dict begin (front ++ [x] ++ (run ++ rest).flatten)
      ⟨begin + front.length, begin + front.length + [x].length - 1⟩ = true :=
    (isLone_iff begin front _ (List.cons_ne_nil x [])).mpr ⟨x, rfl, hx⟩
  have hslice : IndexRange.slice
      ⟨begin + front.length - begin, begin + front.length + run.flatten.length - begin⟩
      (front ++ ([x] ++ run.flatten ++ rest.flatten)) = [x] ++ run.flatten := by
    have hlen : begin + front.length + run.flatten.length - begin + 1 -
        (begin + front.length - begin) = ([x] ++ run.flatten).length := by
      rw [List.length_append, List.length_singleton]
      omega
    rw [IndexRange.slice, hlen, Nat.add_sub_cancel_left, List.drop_left, List.take_left]
  rw [hassoc] at htake hdrop hlone
  rw [List.length_append, List.length_singleton, ← Nat.add_assoc] at htake hdrop
  rw [wordRanges, joinLone, if_pos hlone]
  dsimp only
  rw [List.length_singleton, htake, hdrop, left_getLastD hrun]
  rw [hall, hslice]
  simp only [List.length_append, List.length_singleton, Nat.add_assoc]

/-! ## The words of a range -/

/-- **The loop**, after the runes `front`: the words that are no single runes stay, and the others are
cut again. -/
theorem joinLone_eq (dict : DictTrie F) (model : HMMModel F) (front : List Rune)
    {ws : List (List Rune)} (hne : ∀ w ∈ ws, w ≠ []) :
    ∃ vs, (∀ begin, joinLone dict model begin (front ++ ws.flatten)
        (wordRanges (begin + front.length) ws) = wordRanges (begin + front.length) vs) ∧
      vs.flatten = ws.flatten ∧ (∀ w ∈ ws, ¬ IsLone dict w → w ∈ vs) ∧
      ∀ v ∈ vs, v ∈ ws ∧ ¬ IsLone dict v ∨ HMMSegment.IsWord v := by
  induction hn : ws.length using Nat.strong_induction_on generalizing front ws with
  | _ n ih =>
    cases ws with
    | nil => exact ⟨[], fun begin => by rw [wordRanges, joinLone], rfl, by simp, by simp⟩
    | cons w ws =>
      obtain ⟨hw, hne⟩ := List.forall_mem_cons.mp hne
      by_cases h : IsLone dict w
      · -- The sequence of single runes is cut again.
        obtain ⟨run, rest, rfl, hrun, -, hjoin⟩ := joinLone_cons_of_isLone dict model front h hne
        obtain ⟨us, hus, husflat, huswords⟩ := HMMSegment.cut_eq model (w ++ run.flatten)
        obtain ⟨vs, hvs, hflat, hkeep, hwords⟩ := ih rest.length
          (by rw [← hn, List.length_cons, List.length_append]; omega) (front ++ w ++ run.flatten)
          (fun v hv => hne v (List.mem_append_right _ hv)) rfl
        have hall : front ++ (w :: (run ++ rest)).flatten =
            front ++ w ++ run.flatten ++ rest.flatten := by simp
        refine ⟨us ++ vs, fun begin => ?_, ?_, ?_, ?_⟩
        · rw [hjoin, hus, hall, hvs, wordRanges_append, husflat, List.append_assoc front,
            List.length_append, Nat.add_assoc]
        · rw [List.flatten_append, husflat, hflat, List.flatten_cons, List.flatten_append,
            List.append_assoc]
        · intro v hv hvlone
          rcases List.mem_cons.mp hv with rfl | hv
          · exact absurd h hvlone
          · rcases List.mem_append.mp hv with hv | hv
            · exact absurd (hrun v hv) hvlone
            · exact List.mem_append_right _ (hkeep v hv hvlone)
        · intro v hv
          rcases List.mem_append.mp hv with hv | hv
          · exact Or.inr (huswords v hv)
          · exact (hwords v hv).imp_left fun h =>
              ⟨List.mem_cons_of_mem _ (List.mem_append_right _ h.1), h.2⟩
      · obtain ⟨vs, hvs, hflat, hkeep, hwords⟩ := ih ws.length (by rw [← hn]; simp) (front ++ w) hne rfl
        have hassoc : front ++ w ++ ws.flatten = front ++ (w :: ws).flatten := by simp
        have hlone : ∀ begin, ¬ isLone dict begin (front ++ (w :: ws).flatten)
            ⟨begin + front.length, begin + front.length + w.length - 1⟩ = true := fun begin h' =>
          h ((isLone_iff begin front ws.flatten hw).mp (hassoc ▸ h'))
        refine ⟨w :: vs, fun begin => ?_, ?_, ?_, ?_⟩
        · have hrest := hvs begin
          rw [hassoc, List.length_append, ← Nat.add_assoc] at hrest
          rw [wordRanges, joinLone, if_neg (hlone begin), hrest, wordRanges]
        · rw [List.flatten_cons, List.flatten_cons, hflat]
        · intro v hv hvlone
          rcases List.mem_cons.mp hv with rfl | hv
          · exact List.mem_cons_self
          · exact List.mem_cons_of_mem _ (hkeep v hv hvlone)
        · intro v hv
          rcases List.mem_cons.mp hv with rfl | hv
          · exact Or.inl ⟨List.mem_cons_self, h⟩
          · exact (hwords v hv).imp_left fun h => ⟨List.mem_cons_of_mem _ h.1, h.2⟩

/-- A word of a range: a word of the dictionary, a single rune, or a word of the Markov model or its
rules. -/
def IsWord (dict : DictTrie F) (w : List Rune) : Prop :=
  MPSegment.IsPiece dict maxWordLength w ∨ HMMSegment.IsWord w

omit [DoubleOps F] in
theorem IsWord.ne_nil {w : List Rune} (h : IsWord dict w) : w ≠ [] := h.elim And.left And.left

/-- **The words of a range** are its runes, one after the other. -/
theorem cut_eq (dict : DictTrie F) (model : HMMModel F) (hmm : Bool) (xs : List Rune) :
    ∃ vs, (∀ begin, cut dict model hmm begin xs = some (wordRanges begin vs)) ∧
      vs.flatten = xs ∧ ∀ v ∈ vs, IsWord dict v := by
  obtain ⟨ws, hws, rfl, hpieces⟩ := MPSegment.cut_eq dict maxWordLength xs
  cases hmm with
  | false => exact ⟨ws, hws, rfl, fun w hw => Or.inl (hpieces w hw)⟩
  | true =>
    obtain ⟨vs, hvs, hflat, -, hwords⟩ := joinLone_eq dict model []
      fun w hw => (hpieces w hw).1
    refine ⟨vs, fun begin => ?_, hflat, fun v hv => ?_⟩
    · rw [cut, hws]
      exact congrArg some (hvs begin)
    · exact (hwords v hv).imp_left fun h => hpieces v h.1

/-- Without words of more than one rune the Markov model cuts the range alone. -/
theorem cut_of_isLone {xs : List Rune}
    (h : ∀ w, w <:+: xs → MPSegment.IsPiece dict maxWordLength w → IsLone dict w) (begin : ℕ) :
    cut dict model true begin xs = some (HMMSegment.cut model begin xs) := by
  obtain ⟨ws, hws, rfl, hpieces⟩ := MPSegment.cut_eq dict maxWordLength xs
  have hlone : ∀ w ∈ ws, IsLone dict w := fun w hw =>
    h w (List.infix_of_mem_flatten hw) (hpieces w hw)
  rw [cut, hws]
  refine congrArg some ?_
  cases ws with
  | nil => rw [wordRanges, joinLone, List.flatten_nil, HMMSegment.cut, HMMSegment.cutFrom,
      HMMSegment.flush, if_pos rfl]
  | cons w ws =>
    obtain ⟨hw, hlone⟩ := List.forall_mem_cons.mp hlone
    obtain ⟨run, rest, rfl, -, hhead, hjoin⟩ := joinLone_cons_of_isLone dict model [] hw
      fun v hv => (hpieces v (List.mem_cons_of_mem w hv)).1
    obtain rfl : rest = [] := by
      cases rest with
      | nil => rfl
      | cons v rest => exact absurd (hlone v (by simp)) (hhead v rfl)
    have := hjoin begin
    rw [wordRanges, joinLone, List.append_nil] at this
    simpa using this

end SearchServer.MixSegment

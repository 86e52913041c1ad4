import SearchServer.Lib.BestPath
import SearchServer.Segment.DictTrie

/-!
# Cutting with the hidden Markov model

`HMMSegment` (`cppjieba/HMMSegment.hpp`) cuts the runes that the dictionary leaves alone. ASCII runes
are cut by rule: a letter with the letters and digits after it, a digit with the digits and dots after
it, or one rune. What is between them is cut by a hidden Markov model with the states `B`, `E`, `M`
and `S` (`Viterbi`): a word ends at each `E` and `S`. The model is given. It is the one that
`LoadModel` reads.

**Theorem (`cut_eq`).** The words are the runes, one after the other. None is empty, and none has ASCII
runes and others.

**Theorem (`viterbi_best`).** The states that `Viterbi` finds have the largest probability of all that
end in `E` or `S`, provided that no probability of the model is above 1 and that some such states have
a probability above `MIN_DOUBLE`. Probabilities are logarithms.
-/

namespace SearchServer

open DoubleOps

variable {F : Type} [DoubleOps F]

abbrev EmitProbMap (F : Type) := Std.TreeMap Rune F

structure HMMModel (F : Type) where
  startProb : Vector F 4
  transProb : Vector (Vector F 4) 4
  emitProbVec : Vector (EmitProbMap F) 4

namespace HMMModel

/-- `HMMModel::E` and `HMMModel::S`. -/
abbrev E : Fin 4 := 1
abbrev S : Fin 4 := 3

omit [DoubleOps F] in
def getEmitProb (ptMp : EmitProbMap F) (key : Rune) (defVal : F) : F := (ptMp[key]?).getD defVal

end HMMModel

namespace HMMSegment

open HMMModel

def isLetter (x : Rune) : Bool := (97 ≤ x && x ≤ 122) || (65 ≤ x && x ≤ 90)

def isDigit (x : Rune) : Bool := 48 ≤ x && x ≤ 57

/-- The number of runes that `SequentialLetterRule` passes. -/
def sequentialLetterRule : List Rune → ℕ
  | [] => 0
  | x :: xs =>
    if isLetter x then 1 + (xs.takeWhile fun x => isLetter x || isDigit x).length else 0

/-- The number of runes that `NumbersRule` passes. The dot is `46`. -/
def numbersRule : List Rune → ℕ
  | [] => 0
  | x :: xs => if isDigit x then 1 + (xs.takeWhile fun x => isDigit x || x = 46).length else 0

def asciiRule (xs : List Rune) : ℕ :=
  let n := sequentialLetterRule xs
  if n ≠ 0 then n
  else
    let n := numbersRule xs
    if n ≠ 0 then n else 1

/-! ## The program -/

section

variable (model : HMMModel F)

/-- The emission probability of a rune in a state. -/
def emitProb (y : Fin 4) (x : Rune) : F := getEmitProb (model.emitProbVec.get y) x minDouble

/-- The weights of the first rune. The states before them are not read. -/
def firstColumn (x : Rune) : Column 4 F :=
  Vector.ofFn fun y => (E, add (model.startProb.get y) (emitProb model y x))

/-- `weight[old] + transProb[preY][y] + emitProb`. -/
def transfer (x : Rune) : Transfer 4 F := fun preY y w =>
  add (add w ((model.transProb.get preY).get y)) (emitProb model y x)

/-- `Viterbi`. It is not called without runes. `endE >= endS` is the converse of `<`, since no weight
is NaN. -/
def viterbi : List Rune → List (Fin 4)
  | [] => []
  | x :: xs =>
    let col := firstColumn model x
    let cols := columns lt (E, minDouble) col (xs.map (transfer model))
    let last := lastColumn col cols
    let endE := (last.get E).2
    let endS := (last.get S).2
    let stat := if lt endE endS then S else E
    let (y, path) := backtrack cols stat
    y :: path

/-- The loop of `InternalCut` at position `i`, in a word that begins at `left`. -/
def internalCutFrom : ℕ → ℕ → List (Fin 4) → List WordRange
  | _, _, [] => []
  | left, i, y :: status =>
    if y.val % 2 = 1 then ⟨left, i⟩ :: internalCutFrom (i + 1) (i + 1) status
    else internalCutFrom left (i + 1) status

def internalCut (begin : ℕ) (xs : List Rune) : List WordRange :=
  internalCutFrom begin begin (viterbi model xs)

/-- `if (left != right) InternalCut(left, right, res)`. -/
def flush (left : ℕ) (pending : List Rune) : List WordRange :=
  if pending = [] then [] else internalCut model left pending

/-- The loop of `Cut`. `pending` are the runes from `left` up to `right`. -/
def cutFrom (left : ℕ) (pending : List Rune) : List Rune → List WordRange
  | [] => flush model left pending
  | x :: xs =>
    if x < 0x80 then
      let right := left + pending.length
      let n := asciiRule (x :: xs)
      flush model left pending ++
        ⟨right, right + n - 1⟩ :: cutFrom (right + n) [] (xs.drop (n - 1))
    else cutFrom left (pending ++ [x]) xs
termination_by xs => xs.length
decreasing_by
  · rw [List.length_drop, List.length_cons]
    omega
  · exact Nat.lt_succ_self _

/-- `Cut` on the runes of a range that begins at `begin`. -/
def cut (begin : ℕ) (xs : List Rune) : List WordRange := cutFrom model begin [] xs

end

/-! ## The words of the rules -/

/-- A word of one of the rules. -/
def IsAsciiWord (w : List Rune) : Prop :=
  ∃ x v, w = x :: v ∧ x < 0x80 ∧
    (isLetter x ∧ (∀ y ∈ v, isLetter y ∨ isDigit y) ∨
      isDigit x ∧ (∀ y ∈ v, isDigit y ∨ y = 46) ∨ v = [])

theorem asciiRule_pos (xs : List Rune) : 0 < asciiRule xs := by
  rw [asciiRule]
  dsimp only
  split_ifs <;> omega

/-- **The rules** take a word from the front. -/
theorem asciiRule_spec {x : Rune} (hx : x < 0x80) (xs : List Rune) :
    asciiRule (x :: xs) ≤ (x :: xs).length ∧
      IsAsciiWord ((x :: xs).take (asciiRule (x :: xs))) := by
  have htake : ∀ p : Rune → Bool, xs.take (xs.takeWhile p).length = xs.takeWhile p := fun p =>
    (List.prefix_iff_eq_take.mp (List.takeWhile_prefix p)).symm
  have hle : ∀ p : Rune → Bool, (xs.takeWhile p).length ≤ xs.length := fun p =>
    (List.takeWhile_prefix p).length_le
  rw [asciiRule, sequentialLetterRule, numbersRule]
  dsimp only
  by_cases hletter : isLetter x = true
  · rw [if_pos hletter, if_pos (by omega), Nat.add_comm 1]
    refine ⟨Nat.succ_le_succ (hle _), x, _, List.take_succ_cons, hx, Or.inl ⟨hletter, ?_⟩⟩
    rw [htake]
    exact fun y hy => by simpa using List.mem_takeWhile_imp hy
  · rw [if_neg hletter, if_neg (not_not.mpr rfl)]
    by_cases hdigit : isDigit x = true
    · rw [if_pos hdigit, if_pos (by omega), Nat.add_comm 1]
      refine ⟨Nat.succ_le_succ (hle _), x, _, List.take_succ_cons, hx,
        Or.inr (Or.inl ⟨hdigit, ?_⟩)⟩
      rw [htake]
      exact fun y hy => by simpa using List.mem_takeWhile_imp hy
    · rw [if_neg hdigit, if_neg (not_not.mpr rfl)]
      exact ⟨by simp, x, [], rfl, hx, Or.inr (Or.inr rfl)⟩

/-! ## The words of the model -/

variable {model : HMMModel F}

theorem length_viterbi (xs : List Rune) : (viterbi model xs).length = xs.length := by
  cases xs with
  | nil => rfl
  | cons x xs =>
    rw [viterbi]
    dsimp only
    rw [List.length_cons, length_backtrack, length_columns, List.length_map, List.length_cons]

def endState (model : HMMModel F) (x : Rune) (xs : List Rune) : Fin 4 :=
  let last := lastColumn (firstColumn model x)
    (columns lt (E, minDouble) (firstColumn model x) (xs.map (transfer model)))
  if lt (last.get E).2 (last.get S).2 then S else E

theorem viterbi_cons (x : Rune) (xs : List Rune) : viterbi model (x :: xs) =
    let (y, path) := backtrack (columns lt (E, minDouble) (firstColumn model x)
      (xs.map (transfer model))) (endState model x xs)
    y :: path := rfl

theorem getLast?_viterbi (x : Rune) (xs : List Rune) :
    (viterbi model (x :: xs)).getLast? = some (endState model x xs) := by
  rw [viterbi_cons, List.getLast?_eq_some_getLast (List.cons_ne_nil _ _), getLast_backtrack]

theorem endState_eq (x : Rune) (xs : List Rune) :
    endState model x xs = E ∨ endState model x xs = S := by
  rw [endState]
  split_ifs
  · exact Or.inr rfl
  · exact Or.inl rfl

theorem endState_odd (x : Rune) (xs : List Rune) : (endState model x xs).val % 2 = 1 := by
  have hend : endState model x xs = E ∨ endState model x xs = S := endState_eq x xs
  rcases hend with h | h <;> rw [h] <;> rfl

/-- The words of states whose last one is `E` or `S`. -/
theorem internalCutFrom_eq (status : List (Fin 4)) (pending xs : List Rune)
    (hlen : status.length = xs.length) (hnil : status = [] → pending = [])
    (hlast : ∀ y ∈ status.getLast?, y.val % 2 = 1) :
    ∃ ws : List (List Rune), (∀ left, internalCutFrom left (left + pending.length) status =
      wordRanges left ws) ∧ ws.flatten = pending ++ xs ∧ ∀ w ∈ ws, w ≠ [] := by
  induction status generalizing pending xs with
  | nil =>
    obtain rfl := List.length_eq_zero_iff.mp hlen.symm
    exact ⟨[], fun left => rfl, by rw [hnil rfl]; rfl, by simp⟩
  | cons y status ih =>
    obtain ⟨x, xs, rfl⟩ := List.exists_cons_of_ne_nil (l := xs)
      (List.ne_nil_of_length_pos (by rw [← hlen]; simp))
    have hlen' : status.length = xs.length := Nat.succ.inj hlen
    have hlast' : ∀ y ∈ status.getLast?, y.val % 2 = 1 := fun z hz => by
      refine hlast z ?_
      rw [List.getLast?_cons, Option.mem_def.mp hz]
      rfl
    have hpos : (pending ++ [x]).length = pending.length + 1 := by simp
    by_cases hy : y.val % 2 = 1
    · -- A word ends here.
      obtain ⟨ws, hws, hflat, hne⟩ := ih [] xs hlen' (fun _ => rfl) hlast'
      refine ⟨(pending ++ [x]) :: ws, fun left => ?_, ?_, ?_⟩
      · rw [internalCutFrom, if_pos hy, wordRanges, hpos, ← Nat.add_assoc]
        exact congrArg _ (hws (left + pending.length + 1))
      · rw [List.flatten_cons, hflat]
        simp
      · exact List.forall_mem_cons.mpr ⟨by simp, hne⟩
    · obtain ⟨ws, hws, hflat, hne⟩ := ih (pending ++ [x]) xs hlen'
        (fun h => absurd (hlast y (by rw [h]; rfl)) hy) hlast'
      refine ⟨ws, fun left => ?_, ?_, hne⟩
      · rw [internalCutFrom, if_neg hy, ← hws, hpos]
        rfl
      · rw [hflat]
        simp

theorem flush_eq (model : HMMModel F) (pending : List Rune) :
    ∃ ws : List (List Rune), (∀ left, flush model left pending = wordRanges left ws) ∧
      ws.flatten = pending ∧ ∀ w ∈ ws, w ≠ [] := by
  cases pending with
  | nil => exact ⟨[], fun left => rfl, rfl, by simp⟩
  | cons x xs =>
    refine internalCutFrom_eq (viterbi model (x :: xs)) [] (x :: xs) (length_viterbi _)
      (fun _ => rfl) fun y hy => ?_
    rw [getLast?_viterbi, Option.mem_some_iff] at hy
    exact hy ▸ endState_odd x xs

/-! ## The words of a range -/

/-- A word without ASCII runes, or a word of one of the rules. -/
def IsWord (w : List Rune) : Prop := w ≠ [] ∧ ((∀ x ∈ w, ¬ x < 0x80) ∨ IsAsciiWord w)

/-- The loop, with runes that are not ASCII before it. -/
theorem cutFrom_eq (pending xs : List Rune) (hpending : ∀ x ∈ pending, ¬ x < 0x80) :
    ∃ ws : List (List Rune), (∀ left, cutFrom model left pending xs = wordRanges left ws) ∧
      ws.flatten = pending ++ xs ∧ ∀ w ∈ ws, IsWord w := by
  induction hn : xs.length using Nat.strong_induction_on generalizing pending xs with
  | _ n ih =>
    -- The words before an ASCII rune, or before the end.
    have hflush : ∃ ws : List (List Rune), (∀ left, flush model left pending = wordRanges left ws) ∧
        ws.flatten = pending ∧ ∀ w ∈ ws, IsWord w := by
      obtain ⟨ws, hws, rfl, hne⟩ := flush_eq model pending
      exact ⟨ws, hws, rfl, fun w hw => ⟨hne w hw, Or.inl fun x hx =>
        hpending x (List.mem_flatten.mpr ⟨w, hw, hx⟩)⟩⟩
    cases xs with
    | nil =>
      obtain ⟨ws, hws, hflat, hwords⟩ := hflush
      exact ⟨ws, fun left => by rw [cutFrom, hws], by rw [hflat, List.append_nil], hwords⟩
    | cons x xs =>
      by_cases hx : x < 0x80
      · obtain ⟨ws, hws, hflat, hwords⟩ := hflush
        obtain ⟨hle, hascii⟩ := asciiRule_spec hx xs
        obtain ⟨m, hm⟩ := Nat.exists_eq_succ_of_ne_zero (asciiRule_pos (x :: xs)).ne'
        have hlen : ((x :: xs).take (m + 1)).length = m + 1 := by
          rw [List.length_take, Nat.min_eq_left (hm.symm.trans_le hle)]
        obtain ⟨vs, hvs, hvflat, hvwords⟩ := ih (xs.drop m).length
          (by rw [← hn, List.length_drop, List.length_cons]; omega)
          [] (xs.drop m) (by simp) rfl
        refine ⟨ws ++ (x :: xs).take (m + 1) :: vs, fun left => ?_, ?_, ?_⟩
        · rw [cutFrom, if_pos hx, wordRanges_append, hflat, wordRanges, hlen, ← hws, ← hvs]
          dsimp only
          rw [hm]
          rfl
        · rw [List.flatten_append, hflat, List.flatten_cons, hvflat]
          simp
        · intro w hw
          rcases List.mem_append.mp hw with hw | hw
          · exact hwords w hw
          · rcases List.mem_cons.mp hw with rfl | hw
            · rw [hm] at hascii
              exact ⟨by simp, Or.inr hascii⟩
            · exact hvwords w hw
      · have hpending' : ∀ y ∈ pending ++ [x], ¬ y < 0x80 := by
          intro y hy
          rcases List.mem_append.mp hy with hy | hy
          · exact hpending y hy
          · exact List.mem_singleton.mp hy ▸ hx
        obtain ⟨ws, hws, hflat, hwords⟩ := ih xs.length (by rw [← hn]; simp) (pending ++ [x]) xs
          hpending' rfl
        refine ⟨ws, fun left => ?_, ?_, hwords⟩
        · rw [cutFrom, if_neg hx, hws]
        · rw [hflat]
          simp

/-- **The words of a range** are its runes, one after the other. -/
theorem cut_eq (model : HMMModel F) (xs : List Rune) :
    ∃ ws : List (List Rune), (∀ begin, cut model begin xs = wordRanges begin ws) ∧
      ws.flatten = xs ∧ ∀ w ∈ ws, IsWord w := cutFrom_eq [] xs (by simp)

/-- Letters in sequence are one word. -/
theorem cut_of_isLetter (model : HMMModel F) {x : Rune} {xs : List Rune}
    (h : ∀ y ∈ x :: xs, isLetter y = true) (begin : ℕ) :
    cut model begin (x :: xs) = wordRanges begin [x :: xs] := by
  obtain ⟨hx, hxs⟩ := List.forall_mem_cons.mp h
  have hascii : x < 0x80 := by
    simp only [isLetter, Bool.or_eq_true, Bool.and_eq_true, decide_eq_true_eq,
      UInt32.le_iff_toNat_le] at hx
    rw [UInt32.lt_iff_toNat_lt]
    simp only [UInt32.toNat_ofNat] at hx ⊢
    omega
  have hrule : asciiRule (x :: xs) = xs.length + 1 := by
    have htake : (xs.takeWhile fun y => isLetter y || isDigit y) = xs :=
      List.takeWhile_eq_self_iff.mpr fun y hy => by rw [hxs y hy, Bool.true_or]
    rw [asciiRule, sequentialLetterRule, if_pos hx, htake, Nat.add_comm]
    exact if_pos (Nat.succ_ne_zero _)
  rw [cut, cutFrom, if_pos hascii]
  dsimp only
  rw [hrule, Nat.add_sub_cancel, List.drop_length, cutFrom, flush, if_pos rfl]
  rfl

/-! ## Viterbi finds the best states -/

/-- The probability of runes in given states. -/
def statusProb (model : HMMModel F) : List Rune → List (Fin 4) → F
  | x :: xs, y :: status =>
    pathWeight (add (model.startProb.get y) (emitProb model y x)) y (xs.map (transfer model)) status
  | _, _ => ofInt 0

/-- No probability of the model is above 1. -/
structure IsLogarithmic [OrderedOps F] (model : HMMModel F) : Prop where
  trans_le : ∀ y y', (model.transProb.get y).get y' ≤ ofInt 0
  emit_le : ∀ (y : Fin 4) (x : Rune) (p : F), (model.emitProbVec.get y)[x]? = some p → p ≤ ofInt 0

variable [OrderedOps F]

theorem IsLogarithmic.emitProb_le (h : IsLogarithmic model) (y : Fin 4) (x : Rune) :
    emitProb model y x ≤ ofInt 0 := by
  rw [emitProb, getEmitProb]
  cases hp : (model.emitProbVec.get y)[x]? with
  | none => exact OrderedOps.ofInt_le (by norm_num)
  | some p => exact h.emit_le y x p hp

theorem IsLogarithmic.decreasing (h : IsLogarithmic model) (xs : List Rune) :
    Decreasing (xs.map (transfer model)) := by
  intro t ht preY y w
  obtain ⟨x, -, rfl⟩ := List.mem_map.mp ht
  exact (OrderedOps.add_le_of_nonpos (h.emitProb_le y x) _).trans
    (OrderedOps.add_le_of_nonpos (h.trans_le preY y) w)

theorem keepsOrder_transfer (xs : List Rune) : KeepsOrder (xs.map (transfer model)) := by
  intro t ht preY y w w' hw
  obtain ⟨x, -, rfl⟩ := List.mem_map.mp ht
  exact OrderedOps.add_le_left (OrderedOps.add_le_left hw _) _

omit [OrderedOps F] in
theorem get_firstColumn (x : Rune) (y : Fin 4) : ((firstColumn model x).get y).2 =
    add (model.startProb.get y) (emitProb model y x) := by
  rw [firstColumn, Vector.get_eq_getElem, Vector.getElem_ofFn]

/-- No states that end in `E` or `S` have a larger probability than those that `Viterbi` finds. -/
theorem statusProb_le_viterbi (h : IsLogarithmic model) {xs : List Rune} {status : List (Fin 4)}
    (hlen : status.length = xs.length) (hlast : ∀ y ∈ status.getLast?, y = E ∨ y = S)
    (hbot : minDouble < statusProb model xs status) :
    statusProb model xs status ≤ statusProb model xs (viterbi model xs) := by
  cases xs with
  | nil => exact le_rfl
  | cons x xs =>
    obtain ⟨y, path, rfl⟩ := List.exists_cons_of_ne_nil (l := status)
      (List.ne_nil_of_length_pos (by rw [hlen]; simp))
    have hlen' : path.length = (xs.map (transfer model)).length := by
      rw [List.length_map]
      exact Nat.succ.inj hlen
    have hend := hlast _ (by rw [List.getLast?_eq_some_getLast (List.cons_ne_nil y path)]; rfl)
    set last := lastColumn (firstColumn model x)
      (columns lt (E, minDouble) (firstColumn model x) (xs.map (transfer model))) with hlastCol
    -- Of the two last states the better one is taken.
    have hstate : (last.get ((y :: path).getLast (List.cons_ne_nil _ _))).2 ≤
        (last.get (endState model x xs)).2 := by
      rw [endState, ← hlastCol]
      by_cases hlt : lt (last.get E).2 (last.get S).2 = true
      · rw [if_pos hlt]
        rcases hend with hend | hend
        · rw [hend]
          exact ((OrderedOps.lt_iff _ _).mp hlt).le
        · rw [hend]
      · rw [if_neg hlt]
        rcases hend with hend | hend
        · rw [hend]
        · rw [hend]
          exact not_lt.mp fun h => hlt ((OrderedOps.lt_iff _ _).mpr h)
    rw [statusProb, ← get_firstColumn] at hbot ⊢
    rw [viterbi_cons, statusProb, ← get_firstColumn]
    exact best_path OrderedOps.lt_iff (keepsOrder_transfer xs) (h.decreasing xs) _ hlen' hstate hbot

/-- **The states that `Viterbi` finds** have the largest probability of all that end in `E` or `S`. -/
theorem viterbi_best (h : IsLogarithmic model) (xs : List Rune) :
    (viterbi model xs).length = xs.length ∧
      (∀ y ∈ (viterbi model xs).getLast?, y = E ∨ y = S) ∧
      ∀ status : List (Fin 4), status.length = xs.length →
        (∀ y ∈ status.getLast?, y = E ∨ y = S) → minDouble < statusProb model xs status →
        statusProb model xs status ≤ statusProb model xs (viterbi model xs) := by
  refine ⟨length_viterbi xs, ?_, fun status => statusProb_le_viterbi h⟩
  cases xs with
  | nil => exact fun y hy => absurd hy (Option.not_mem_none y)
  | cons x xs =>
    intro y hy
    rw [getLast?_viterbi] at hy
    exact Option.some.inj hy ▸ endState_eq x xs

/-- A model that knows one rune, in which all states have the same probabilities. -/
noncomputable def uniformModel : HMMModel ℝ where
  startProb := .replicate 4 (-1)
  transProb := .replicate 4 (.replicate 4 (-1))
  emitProbVec := .replicate 4 (Std.TreeMap.insert ∅ 20013 (-1))

theorem viterbi_best_uniformModel : (viterbi uniformModel [20013, 20013]).length = 2 ∧
    statusProb uniformModel [20013, 20013] [0, E] ≤
      statusProb uniformModel [20013, 20013] (viterbi uniformModel [20013, 20013]) := by
  have hget : ∀ (n : ℕ) (α : Type) (a : α) (i : Fin n), (Vector.replicate n a).get i = a :=
    fun n α a i => by rw [Vector.get_eq_getElem, Vector.getElem_replicate]
  have hlog : IsLogarithmic uniformModel := by
    refine ⟨fun y y' => ?_, fun y x p hp => ?_⟩
    · rw [uniformModel, hget, hget]
      show (-1 : ℝ) ≤ ((0 : ℤ) : ℝ)
      norm_num
    · rw [uniformModel, hget, Std.TreeMap.getElem?_insert] at hp
      split_ifs at hp
      · obtain rfl := Option.some.inj hp
        show (-1 : ℝ) ≤ ((0 : ℤ) : ℝ)
        norm_num
      · simp at hp
  obtain ⟨hlength, -, hbest⟩ := viterbi_best hlog [20013, 20013]
  refine ⟨hlength, hbest [0, E] rfl (fun y hy => ?_) ?_⟩
  · exact Or.inl (Option.some.inj hy).symm
  · have hemit : ∀ y, emitProb uniformModel y 20013 = -1 := fun y => by
      rw [emitProb, uniformModel, hget, getEmitProb, Std.TreeMap.getElem?_insert_self]
      rfl
    have hweight : statusProb uniformModel [20013, 20013] [0, E] = -1 + -1 + -1 + -1 := by
      show add (add (add (uniformModel.startProb.get 0) (emitProb uniformModel 0 20013))
        ((uniformModel.transProb.get 0).get E)) (emitProb uniformModel E 20013) = _
      rw [hemit, hemit, uniformModel, hget, hget, hget]
      rfl
    rw [hweight]
    show ((-314 * 10 ^ 98 : ℤ) : ℝ) < -1 + -1 + -1 + -1
    norm_num

end HMMSegment

end SearchServer

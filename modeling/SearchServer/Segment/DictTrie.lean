import SearchServer.Lib.Trie
import SearchServer.Lib.OrderedDouble
import SearchServer.Segment.Unicode

/-!
# The dictionary of the segmenter

`DictTrie` (`cppjieba/DictTrie.hpp`) reads the dictionary and the user's dictionary, turns frequencies
into logarithms, and puts the words into a trie (`cppjieba/Trie.hpp`). For a text it lists at each
position the words of the dictionary that start there (`Trie.findDags`).

The C functions `atof` and `atoi` are parameters. A unit that the code leaves uninitialised is the
argument `uninit`.

* `DictTrie.find_createTrie`: the last entry for a word counts, so the user's dictionary overrides the
  other.

**Theorem (`mem_nextsAt_iff`).** The entries at a position are the words of the dictionary that start
there, up to the limit for their length, and the single rune, which need not be in the dictionary.
-/

namespace SearchServer

variable {F : Type}

structure DictUnit (F : Type) where
  word : List Rune
  weight : F

/-- A position of a text: the words that start there, each as its last position with its unit; and
what the segmenter finds out about the position. -/
structure Dag (F : Type) where
  nexts : List (ℕ × Option (DictUnit F))
  pInfo : Option (DictUnit F)
  weight : F

def minDouble [DoubleOps F] : F := DoubleOps.ofInt (-314 * 10 ^ 98)

def maxWordLength : ℕ := 512

namespace Trie

/-- The inner loop of `Find`: the words that start at `i` and end at `j` or later. -/
def longerWords (maxWordLen i : ℕ) (ptNode : Option (Trie Rune (DictUnit F))) (j : ℕ) :
    List Rune → List (ℕ × Option (DictUnit F))
  | [] => []
  | x :: xs =>
    if j - i + 1 ≤ maxWordLen then
      match ptNode.bind (·.child x) with
      | none => []
      | some next =>
        match next.value with
        | some unit => (j, some unit) :: longerWords maxWordLen i (some next) (j + 1) xs
        | none => longerWords maxWordLen i (some next) (j + 1) xs
    else []

/-- The words that start at `i`, where the runes are those from `i` on. -/
def nextsAt (trie : Trie Rune (DictUnit F)) (maxWordLen i : ℕ) :
    List Rune → List (ℕ × Option (DictUnit F))
  | [] => []
  | x :: xs =>
    let ptNode := trie.child x
    (i, ptNode.bind value) :: longerWords maxWordLen i ptNode (i + 1) xs

/-- `Find` on a range of runes, from its position `i` on. The other fields are the initial ones. -/
def findDags [DoubleOps F] (trie : Trie Rune (DictUnit F)) (maxWordLen i : ℕ) :
    List Rune → List (Dag F)
  | [] => []
  | x :: xs =>
    ⟨nextsAt trie maxWordLen i (x :: xs), none, DoubleOps.ofInt 0⟩ ::
      findDags trie maxWordLen (i + 1) xs

/-! ## The words at a position -/

/-- The words of the inner loop, after the runes `pre`. -/
theorem mem_longerWords_iff (trie : Trie Rune (DictUnit F)) (maxWordLen i : ℕ) (pre xs : List Rune)
    {j : ℕ} (hj : j = i + pre.length) {k : ℕ} {p : Option (DictUnit F)} :
    (k, p) ∈ longerWords maxWordLen i (trie.walk pre) j xs ↔
      ∃ n, 0 < n ∧ n ≤ xs.length ∧ pre.length + n ≤ maxWordLen ∧ k + 1 = j + n ∧
        p ≠ none ∧ p = trie.find (pre ++ xs.take n) := by
  induction xs generalizing pre j with
  | nil =>
    refine iff_of_false List.not_mem_nil ?_
    rintro ⟨n, hpos, hlen, -⟩
    exact absurd hlen (Nat.not_le.mpr hpos)
  | cons x xs ih =>
    have hwalk : (trie.walk pre).bind (·.child x) = trie.walk (pre ++ [x]) := by
      rw [walk_append]
      exact congrArg (Option.bind _) (funext fun t => (walk_singleton t x).symm)
    have htake : ∀ n, pre ++ (x :: xs).take (n + 1) = (pre ++ [x]) ++ xs.take n := fun n => by
      rw [List.take_succ_cons, List.append_assoc]
      rfl
    have hlen : (pre ++ [x]).length = pre.length + 1 := by simp
    rw [longerWords, hwalk]
    by_cases hmax : j - i + 1 ≤ maxWordLen
    · have hone : pre.length + 1 ≤ maxWordLen := by omega
      rw [if_pos hmax]
      cases hnode : trie.walk (pre ++ [x]) with
      | none =>
        -- No word of the dictionary goes on from here.
        refine iff_of_false List.not_mem_nil ?_
        rintro ⟨n, hpos, -, -, -, hp, hfind⟩
        obtain ⟨m, rfl⟩ := Nat.exists_eq_succ_of_ne_zero hpos.ne'
        rw [htake, find, walk_append, hnode] at hfind
        exact hp hfind
      | some next =>
        have hrest : (k, p) ∈ longerWords maxWordLen i (some next) (j + 1) xs ↔
            ∃ n, 0 < n ∧ n ≤ xs.length ∧ pre.length + 1 + n ≤ maxWordLen ∧ k + 1 = j + 1 + n ∧
              p ≠ none ∧ p = trie.find (pre ++ [x] ++ xs.take n) := by
          rw [← hnode, ih (pre ++ [x]) (by rw [hlen]; omega), hlen]
        have hfind : trie.find (pre ++ [x]) = next.value := by
          rw [find, hnode]
          rfl
        have hfirst : ((k, p) ∈ match next.value with
            | some unit => (j, some unit) :: longerWords maxWordLen i (some next) (j + 1) xs
            | none => longerWords maxWordLen i (some next) (j + 1) xs) ↔
            (k = j ∧ p ≠ none ∧ p = next.value) ∨
              (k, p) ∈ longerWords maxWordLen i (some next) (j + 1) xs := by
          cases next.value with
          | none => simp +contextual
          | some unit =>
            rw [List.mem_cons, Prod.mk.injEq]
            refine or_congr_left (and_congr_right fun _ => ⟨fun h => ⟨?_, h⟩, fun h => h.2⟩)
            rw [h]
            exact Option.some_ne_none unit
        dsimp only
        rw [hfirst, hrest]
        constructor
        · rintro (⟨rfl, hp, hvalue⟩ | ⟨n, hpos, hn, hmaxn, hk, hp, hvalue⟩)
          · refine ⟨1, one_pos, by simp, hone, rfl, hp, ?_⟩
            rw [htake 0, List.take_zero, List.append_nil, hfind, hvalue]
          · refine ⟨n + 1, n.succ_pos, Nat.succ_le_succ hn, by omega, by omega, hp, ?_⟩
            rw [htake n, hvalue]
        · rintro ⟨n, hpos, hn, hmaxn, hk, hp, hvalue⟩
          obtain ⟨m, rfl⟩ := Nat.exists_eq_succ_of_ne_zero hpos.ne'
          rw [htake] at hvalue
          rcases Nat.eq_zero_or_pos m with rfl | hm
          · rw [List.take_zero, List.append_nil, hfind] at hvalue
            exact Or.inl ⟨by omega, hp, hvalue⟩
          · exact Or.inr ⟨m, hm, Nat.le_of_succ_le_succ hn, by omega, by omega, hp, hvalue⟩
    · rw [if_neg hmax]
      refine iff_of_false List.not_mem_nil ?_
      rintro ⟨n, hpos, -, hmaxn, -⟩
      omega

/-- **The words at a position.** -/
theorem mem_nextsAt_iff {trie : Trie Rune (DictUnit F)} {maxWordLen i : ℕ} {xs : List Rune} {k : ℕ}
    {p : Option (DictUnit F)} :
    (k, p) ∈ nextsAt trie maxWordLen i xs ↔
      ∃ n, 0 < n ∧ n ≤ xs.length ∧ k + 1 = i + n ∧ p = trie.find (xs.take n) ∧
        (n = 1 ∨ n ≤ maxWordLen ∧ p ≠ none) := by
  cases xs with
  | nil =>
    refine iff_of_false List.not_mem_nil ?_
    rintro ⟨n, hpos, hlen, -⟩
    exact absurd hlen (Nat.not_le.mpr hpos)
  | cons x xs =>
    have hmem := mem_longerWords_iff trie maxWordLen i [x] xs (j := i + 1) rfl (k := k) (p := p)
    rw [walk_singleton] at hmem
    rw [nextsAt, List.mem_cons, Prod.mk.injEq, hmem, ← find_singleton]
    constructor
    · rintro (⟨rfl, rfl⟩ | ⟨n, hpos, hn, hmax, hk, hp, hfind⟩)
      · exact ⟨1, one_pos, by simp, rfl, rfl, Or.inl rfl⟩
      · refine ⟨n + 1, n.succ_pos, Nat.succ_le_succ hn, by omega, hfind, Or.inr ⟨?_, hp⟩⟩
        simpa [Nat.add_comm] using hmax
    · rintro ⟨n, hpos, hn, hk, hfind, hlen⟩
      obtain ⟨m, rfl⟩ := Nat.exists_eq_succ_of_ne_zero hpos.ne'
      rcases Nat.eq_zero_or_pos m with rfl | hm
      · exact Or.inl ⟨by omega, hfind⟩
      · obtain ⟨hmax, hp⟩ := hlen.resolve_left (by omega)
        refine Or.inr ⟨m, hm, Nat.le_of_succ_le_succ hn, ?_, by omega, hp, hfind⟩
        simpa [Nat.add_comm] using hmax

end Trie

/-! ## Loading the dictionaries -/

/-- `Split`: the pieces between the bytes of the pattern. An empty piece at the end is left out. -/
def split (pattern src : Bytes) : List Bytes :=
  let res := src.splitOnP (· ∈ pattern)
  if res.getLast? = some [] then res.dropLast else res

/-- `MakeNodeInfo`: when the word cannot be decoded, it becomes empty and the rest stays. -/
def makeNodeInfo (nodeInfo : DictUnit F) (word : Bytes) (weight : F) : DictUnit F :=
  match decodeRunesInString word with
  | some runes => ⟨runes.map RuneStr.rune, weight⟩
  | none => { nodeInfo with word := [] }

/-- `LoadDict`. A line that has not three columns ends the program. -/
def loadDict (atof : Bytes → F) : DictUnit F → List Bytes → Option (List (DictUnit F))
  | _, [] => some []
  | nodeInfo, line :: lines =>
    match split (lit " ") line with
    | [word, freq, _] =>
      let nodeInfo := makeNodeInfo nodeInfo word (atof freq)
      (loadDict atof nodeInfo lines).map (nodeInfo :: ·)
    | _ => none

open DoubleOps

variable [DoubleOps F]

def calcFreqSum (nodeInfos : List (DictUnit F)) : F :=
  nodeInfos.foldl (fun sum unit => add sum unit.weight) (ofInt 0)

/-- `CalculateWeight`, with its assertions. -/
def calculateWeight (nodeInfos : List (DictUnit F)) (sum : F) : Option (List (DictUnit F)) :=
  if lt (ofInt 0) sum then
    nodeInfos.mapM fun unit =>
      if lt (ofInt 0) unit.weight then some { unit with weight := log (div unit.weight sum) }
      else none
  else none

/-- `SetStaticWordWeights`: the least weight, and the median, which is the default for the words of
the user. -/
def setStaticWordWeights (nodeInfos : List (DictUnit F)) : Option (F × F) :=
  let x := (nodeInfos.map DictUnit.weight).mergeSort fun a b => !lt b a
  match x[0]?, x[x.length / 2]? with
  | some minWeight, some medianWeight => some (minWeight, medianWeight)
  | _, _ => none

/-- `InserUserDictNode`, with the unit and the single rune that it adds. -/
def inserUserDictNode (atoi : Bytes → ℤ) (uninit : DictUnit F) (freqSum defaultWeight : F)
    (line : Bytes) : DictUnit F × Option Rune :=
  let nodeInfo :=
    match split (lit " ") line with
    | [word] | [word, _] => makeNodeInfo uninit word defaultWeight
    | [word, freq, _] =>
      makeNodeInfo uninit word (log (div (mul (ofInt 1) (ofInt (atoi freq))) freqSum))
    | _ => uninit
  (nodeInfo, match nodeInfo.word with
    | [x] => some x
    | _ => none)

/-- The words of the dictionary with what the segmenter needs of it. Units are found under their own
word, and the empty word is not in the trie. -/
structure DictTrie (F : Type) where
  trie : Trie Rune (DictUnit F)
  minWeight : F
  userDictSingleChineseWord : List Rune
  find_nil : trie.find [] = none
  word_eq : ∀ key unit, trie.find key = some unit → unit.word = key

namespace DictTrie

/-- The entries of the trie: `InsertNode` leaves out the units without a word. -/
def entries (units : List (DictUnit F)) : List (List Rune × DictUnit F) :=
  (units.filter (·.word ≠ [])).map fun unit => (unit.word, unit)

omit [DoubleOps F] in
theorem mem_entries {units : List (DictUnit F)} {key : List Rune} {unit : DictUnit F} :
    (key, unit) ∈ entries units ↔ unit ∈ units ∧ unit.word ≠ [] ∧ unit.word = key := by
  simp [entries, and_assoc]

def createTrie (units : List (DictUnit F)) (minWeight : F)
    (userDictSingleChineseWord : List Rune) : DictTrie F where
  trie := Trie.empty.insertAll (entries units)
  minWeight := minWeight
  userDictSingleChineseWord := userDictSingleChineseWord
  find_nil := by
    cases h : (Trie.empty.insertAll (entries units)).find [] with
    | none => rfl
    | some unit =>
      obtain ⟨-, hne, hnil⟩ := mem_entries.mp (Trie.mem_of_find_insertAll h)
      exact absurd hnil hne
  word_eq key unit h := (mem_entries.mp (Trie.mem_of_find_insertAll h)).2.2

/-- `Init`, with the lines of the dictionary and of the files of the user. -/
def init (atof : Bytes → F) (atoi : Bytes → ℤ) (uninit : DictUnit F) (dict user : List Bytes) :
    Option (DictTrie F) := do
  let units ← loadDict atof uninit dict
  let freqSum := calcFreqSum units
  let units ← calculateWeight units freqSum
  let (minWeight, defaultWeight) ← setStaticWordWeights units
  let nodes := (user.filter (· ≠ [])).map (inserUserDictNode atoi uninit freqSum defaultWeight)
  return createTrie (units ++ nodes.map Prod.fst) minWeight (nodes.filterMap Prod.snd)

omit [DoubleOps F] in
/-- **The last entry for a word counts.** -/
theorem find_createTrie (units : List (DictUnit F)) (minWeight : F) (single : List Rune)
    {word : List Rune} (hne : word ≠ []) :
    (createTrie units minWeight single).trie.find word =
      units.reverse.find? fun unit => unit.word = word := by
  show (Trie.empty.insertAll (entries units)).find word = _
  rw [Trie.find_insertAll, Trie.find_empty, Option.or_none, entries, ← List.map_reverse,
    ← List.filter_reverse]
  induction units.reverse with
  | nil => rfl
  | cons unit units ih =>
    by_cases hword : unit.word = word
    · have hunit : unit.word ≠ [] := hword ▸ hne
      rw [List.filter_cons_of_pos (by simpa using hunit), List.map_cons,
        Trie.lookup_cons_eq_ite, if_pos hword.symm, List.find?_cons_of_pos (by simpa using hword)]
    · rw [List.find?_cons_of_neg (by simpa using hword), ← ih]
      by_cases hunit : unit.word = []
      · rw [List.filter_cons_of_neg (by simpa using hunit)]
      · rw [List.filter_cons_of_pos (by simpa using hunit), List.map_cons,
          Trie.lookup_cons_eq_ite, if_neg (Ne.symm hword)]

end DictTrie

end SearchServer

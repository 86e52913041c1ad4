import SearchServer.Segment.Jieba

/-!
# Keywords

`KeywordExtractor::Extract` (`cppjieba/KeywordExtractor.hpp`) cuts a text, counts the words that have
more than one character and are no stop words, and multiplies the counts with the inverse document
frequencies. Of these keywords it returns those with the largest weights. `std::partial_sort` leaves
open which of several keywords with the same weight it takes, so the result is a relation
(`Extracts`). The offsets of the keywords are left out: nothing reads them.

* `exists_keywords`: the keywords of a text are the words that are counted.
-/

namespace SearchServer

open DoubleOps

/-- What `partial_sort` and `resize` leave of a list: `topN` elements in order, and none of the others
comes before one of them. -/
structure IsPartialSort {α : Type*} (before : α → α → Bool) (topN : ℕ) (l top : List α) : Prop where
  length_eq : top.length = min topN l.length
  sorted : top.Pairwise fun a b => ¬ before b a
  rest : ∃ rest, (top ++ rest).Perm l ∧ ∀ a ∈ top, ∀ b ∈ rest, ¬ before b a

theorem IsPartialSort.mem {α : Type*} {before : α → α → Bool} {topN : ℕ} {l top : List α}
    (h : IsPartialSort before topN l top) {a : α} (ha : a ∈ top) : a ∈ l := by
  obtain ⟨rest, hperm, -⟩ := h.rest
  exact hperm.subset (List.mem_append_left _ ha)

/-- There is a result of `partial_sort`. -/
theorem exists_isPartialSort {α : Type*} (before : α → α → Bool)
    (htrans : ∀ a b c, ¬ before b a → ¬ before c b → ¬ before c a)
    (htotal : ∀ a b, ¬ before b a ∨ ¬ before a b) (topN : ℕ) (l : List α) :
    ∃ top, IsPartialSort before topN l top := by
  set sorted := l.mergeSort fun a b => !before b a with hsorted
  have hperm : sorted.Perm l := List.mergeSort_perm l _
  have hpair : sorted.Pairwise fun a b => ¬ before b a := by
    refine (List.pairwise_mergeSort (fun a b c => ?_) (fun a b => ?_) l).imp fun {a b} h => ?_
    · simpa using htrans a b c
    · simpa using htotal a b
    · simpa using h
  rw [← List.take_append_drop topN sorted, List.pairwise_append] at hpair
  refine ⟨sorted.take topN, ?_, hpair.1, sorted.drop topN, ?_, hpair.2.2⟩
  · rw [List.length_take, hperm.length_eq]
  · rwa [List.take_append_drop]

structure KeywordExtractor (F : Type) where
  segment : Jieba F
  idfMap : Std.TreeMap Bytes F
  idfAverage : F
  stopWords : Std.TreeSet Bytes

namespace KeywordExtractor

variable {F : Type} [DoubleOps F]

section

variable (extractor : KeywordExtractor F)

/-- A word that is counted. -/
def counts (word : Bytes) : Bool := !(isSingleWord word || extractor.stopWords.contains word)

/-- One word: the offset, and `wordmap[word].weight += 1.0`. -/
def addWord (st : ℕ × Std.TreeMap Bytes F) (word : Bytes) : ℕ × Std.TreeMap Bytes F :=
  let offset := st.1 + word.length
  if extractor.counts word then
    (offset, st.2.alter word fun weight => some (add (weight.getD (ofInt 0)) (ofInt 1)))
  else (offset, st.2)

def weigh (word : Bytes) (count : F) : F :=
  mul count ((extractor.idfMap[word]?).getD extractor.idfAverage)

/-- The keywords, before they are sorted. There are none when the words do not cover the text. -/
def keywords (sentence : Bytes) : Option (List (Bytes × F)) := do
  let words ← extractor.segment.cut true sentence
  let (offset, wordmap) := words.foldl extractor.addWord (0, ∅)
  if offset ≠ sentence.length then return []
  else return wordmap.toList.map fun kw => (kw.1, extractor.weigh kw.1 kw.2)

def compareWord (lhs rhs : Bytes × F) : Bool := lt rhs.2 lhs.2

def Extracts (sentence : Bytes) (topN : ℕ) (top : List (Bytes × F)) : Prop :=
  ∃ kws, extractor.keywords sentence = some kws ∧ IsPartialSort compareWord topN kws top

def wordsOf (sentence : Bytes) : List Bytes := (extractor.segment.cut true sentence).getD []

end

variable {extractor : KeywordExtractor F}

/-! ## Counting -/

/-- The offset after the words, and the words that are counted. -/
theorem mem_addWord (st : ℕ × Std.TreeMap Bytes F) (word w : Bytes) :
    w ∈ (extractor.addWord st word).2 ↔ w ∈ st.2 ∨ w = word ∧ extractor.counts word = true := by
  rw [addWord]
  by_cases hcounts : extractor.counts word = true
  · rw [if_pos hcounts, Std.TreeMap.mem_iff_isSome_getElem?, Std.TreeMap.getElem?_alter,
      Std.TreeMap.mem_iff_isSome_getElem?]
    split_ifs with h
    · simp [(Std.compare_eq_iff_eq.mp h).symm, hcounts]
    · have hne : w ≠ word := fun h' => h (Std.compare_eq_iff_eq.mpr h'.symm)
      simp [hne]
  · rw [if_neg hcounts]
    simp [hcounts]

theorem foldl_addWord (extractor : KeywordExtractor F) (words : List Bytes)
    (st : ℕ × Std.TreeMap Bytes F) :
    (words.foldl extractor.addWord st).1 = st.1 + words.flatten.length ∧
      ∀ w, w ∈ (words.foldl extractor.addWord st).2 ↔
        w ∈ st.2 ∨ w ∈ words ∧ extractor.counts w = true := by
  induction words generalizing st with
  | nil => simp
  | cons word words ih =>
    obtain ⟨hoffset, hmem⟩ := ih (extractor.addWord st word)
    have hword : (extractor.addWord st word).1 = st.1 + word.length := by
      rw [addWord]
      split_ifs <;> rfl
    refine ⟨?_, fun w => ?_⟩
    · rw [List.foldl_cons, hoffset, hword, List.flatten_cons, List.length_append, Nat.add_assoc]
    · rw [List.foldl_cons, hmem, mem_addWord, List.mem_cons]
      constructor
      · rintro ((h | ⟨rfl, h⟩) | h)
        · exact Or.inl h
        · exact Or.inr ⟨Or.inl rfl, h⟩
        · exact Or.inr ⟨Or.inr h.1, h.2⟩
      · rintro (h | ⟨rfl | h, hcounts⟩)
        · exact Or.inl (Or.inl h)
        · exact Or.inl (Or.inr ⟨rfl, hcounts⟩)
        · exact Or.inr ⟨h, hcounts⟩

/-- **The keywords of a text** are the words that are counted. -/
theorem exists_keywords (extractor : KeywordExtractor F) (sentence : Bytes) : ∃ kws,
    extractor.keywords sentence = some kws ∧ ∀ w, (∃ x, (w, x) ∈ kws) ↔
      w ∈ extractor.wordsOf sentence ∧ extractor.counts w = true := by
  cases hgs : glyphs sentence with
  | none =>
    -- The words do not cover the text.
    have hcut := Jieba.cut_of_glyphs_eq_none extractor.segment true hgs
    have hlen : (0 : ℕ) ≠ sentence.length := fun h => by
      rw [List.length_eq_zero_iff.mp h.symm, glyphs_nil] at hgs
      cases hgs
    refine ⟨[], ?_, fun w => ?_⟩
    · rw [keywords, hcut]
      exact if_pos hlen
    · rw [wordsOf, hcut]
      simp
  | some gs =>
    obtain ⟨us, hcut, rfl, -⟩ := Jieba.cut_eq extractor.segment true hgs
    have hflat : (us.map Jieba.bytesOf).flatten = sentence := by
      rw [← (flatten_glyphs hgs).1, List.map_flatten, List.flatten_flatten, List.map_map]
      rfl
    obtain ⟨hoffset, hmem⟩ := foldl_addWord extractor (us.map Jieba.bytesOf) (0, ∅)
    rw [hflat, Nat.zero_add] at hoffset
    refine ⟨_, by rw [keywords, hcut]; exact if_neg (not_not.mpr hoffset), fun w => ?_⟩
    rw [wordsOf, hcut, Option.getD_some]
    have hw := hmem w
    rw [or_iff_right (by simp), Std.TreeMap.mem_iff_isSome_getElem?,
      Option.isSome_iff_exists] at hw
    rw [← hw]
    constructor
    · rintro ⟨x, hx⟩
      obtain ⟨⟨w', count⟩, hkw, heq⟩ := List.mem_map.mp hx
      obtain ⟨rfl, -⟩ := Prod.mk.inj heq
      exact ⟨count, Std.TreeMap.mem_toList_iff_getElem?_eq_some.mp hkw⟩
    · rintro ⟨count, hcount⟩
      exact ⟨_, List.mem_map.mpr
        ⟨(w, count), Std.TreeMap.mem_toList_iff_getElem?_eq_some.mpr hcount, rfl⟩⟩

/-- Keywords can be extracted from every text. -/
theorem exists_extracts [OrderedOps F] (extractor : KeywordExtractor F) (sentence : Bytes)
    (topN : ℕ) : ∃ top, extractor.Extracts sentence topN top := by
  obtain ⟨kws, hkws, -⟩ := extractor.exists_keywords sentence
  have hle : ∀ a b : Bytes × F, ¬ compareWord b a ↔ b.2 ≤ a.2 := fun a b => by
    rw [compareWord, OrderedOps.lt_iff, not_lt]
  obtain ⟨top, htop⟩ := exists_isPartialSort compareWord
    (fun a b c hab hbc => (hle a c).mpr (((hle b c).mp hbc).trans ((hle a b).mp hab)))
    (fun a b => (le_total b.2 a.2).imp (hle a b).mpr (hle b a).mpr) topN kws
  exact ⟨top, kws, hkws, htop⟩

end KeywordExtractor

end SearchServer

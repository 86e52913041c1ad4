import SearchServer.Offline.Jenkins
import SearchServer.Offline.Redundancy
import SearchServer.Segment.KeywordExtractor

/-!
# Fingerprints

`Simhasher::make` (`lib/simhash/Simhasher.hpp`) makes a fingerprint of the keywords of a text. For each
bit the weights of the keywords are summed, with a minus where the hash of the keyword does not have
the bit, and the fingerprint has the bits whose sum is positive. A page has five keywords at most
(`WebPage::buildU64`).

* `getLsbD_fingerprint`: the bits of a fingerprint are the signs of the sums.

**Theorem (`keywordless_survivors`).** A page without keywords has fingerprint 0, so of all pages
without keywords, and of all pages that cannot be decoded, at most one survives the removal of
redundant pages.

**Theorem (`dominated_survivors`).** With exact arithmetic, a keyword that weighs more than the others
together decides the fingerprint. Of all pages with the same such keyword at most one survives,
whatever else is in them.
-/

namespace SearchServer

open DoubleOps

namespace Simhasher

def bitsLength : ℕ := 64

/-- `_hasher(word.c_str(), word.size(), 0)`. The address does not matter, nor what follows. -/
def hasher (word : Bytes) : UInt64 :=
  Jenkins.hash true 0 (fun i => word.getD i 0) word.length 0

section

variable {F : Type} [DoubleOps F]

def weightAt (hashvalues : List (UInt64 × F)) (j : ℕ) : F :=
  hashvalues.foldl (fun weight hv =>
    add weight (mul (ofInt (if (1 <<< UInt64.ofNat j) &&& hv.1 ≠ 0 then 1 else -1)) hv.2)) (ofInt 0)

def fingerprint (hashvalues : List (UInt64 × F)) : UInt64 :=
  (List.range bitsLength).foldl (fun v64 j =>
    if lt (ofInt 0) (weightAt hashvalues j) then v64 ||| (1 <<< UInt64.ofNat j) else v64) 0

def Makes (extractor : KeywordExtractor F) (text : Bytes) (topN : ℕ) (v64 : UInt64) : Prop :=
  ∃ top, extractor.Extracts text topN top ∧
    v64 = fingerprint (top.map fun kw => (hasher kw.1, kw.2))

/-- The fingerprints of `buildU64` are made of five keywords. -/
def MakesU64 (extractor : KeywordExtractor F) (make : Bytes → UInt64) : Prop :=
  ∀ text, Makes extractor text 5 (make text)

/-! ## Bits -/

theorem getLsbD_one_shiftLeft {i j : ℕ} (hi : i < 64) (hj : j < 64) :
    ((1 : UInt64) <<< UInt64.ofNat j).toBitVec.getLsbD i = decide (i = j) := by
  have hone : (1 : UInt64).toBitVec = 1#64 := rfl
  have hshift : ((UInt64.ofNat j).toBitVec % 64).toNat = j := by
    rw [BitVec.toNat_umod, UInt64.toNat_toBitVec, UInt64.toNat_ofNat',
      Nat.mod_eq_of_lt (show j < 2 ^ 64 by omega)]
    exact Nat.mod_eq_of_lt hj
  rw [UInt64.toBitVec_shiftLeft, hone, BitVec.shiftLeft_eq', hshift, BitVec.getLsbD_shiftLeft,
    decide_eq_true hi, BitVec.getLsbD_one]
  by_cases h : i = j
  · simp [h]
  · simp [h]
    omega

theorem eq_of_getLsbD {v v' : UInt64}
    (h : ∀ j < 64, v.toBitVec.getLsbD j = v'.toBitVec.getLsbD j) : v = v' :=
  UInt64.toBitVec_inj.mp (BitVec.eq_of_getLsbD_eq h)

/-- The test of a bit. -/
theorem one_shiftLeft_and_ne_zero_iff (v : UInt64) {j : ℕ} (hj : j < 64) :
    (1 <<< UInt64.ofNat j) &&& v ≠ 0 ↔ v.toBitVec.getLsbD j = true := by
  have hbit : ∀ i < 64, ((1 <<< UInt64.ofNat j) &&& v).toBitVec.getLsbD i =
      (decide (i = j) && v.toBitVec.getLsbD i) := fun i hi => by
    rw [UInt64.toBitVec_and, BitVec.getLsbD_and, getLsbD_one_shiftLeft hi hj]
  constructor
  · intro hne
    by_contra hv
    refine hne (eq_of_getLsbD fun i hi => ?_)
    rw [hbit i hi]
    by_cases h : i = j
    · rw [h, Bool.eq_false_of_not_eq_true hv, Bool.and_false]
      simp
    · simp [h]
  · intro hv hzero
    have h := hbit j hj
    rw [hzero] at h
    simp [hv] at h

/-- **The bits of a fingerprint.** -/
theorem getLsbD_fingerprint (hashvalues : List (UInt64 × F)) {j : ℕ} (hj : j < 64) :
    (fingerprint hashvalues).toBitVec.getLsbD j = lt (ofInt 0) (weightAt hashvalues j) := by
  have key : ∀ n ≤ 64, (((List.range n).foldl (fun v64 j =>
      if lt (ofInt 0) (weightAt hashvalues j) then v64 ||| (1 <<< UInt64.ofNat j) else v64)
        (0 : UInt64)).toBitVec.getLsbD j) =
      (decide (j < n) && lt (ofInt 0) (weightAt hashvalues j)) := by
    intro n hn
    induction n with
    | zero => simp
    | succ n ih =>
      rw [List.range_succ, List.foldl_append, List.foldl_cons, List.foldl_nil]
      by_cases hlt : lt (ofInt 0) (weightAt hashvalues n) = true
      · rw [if_pos hlt, UInt64.toBitVec_or, BitVec.getLsbD_or, ih (by omega),
          getLsbD_one_shiftLeft hj (by omega)]
        by_cases h : j = n
        · simp [h, hlt]
        · have hiff : j < n + 1 ↔ j < n := by omega
          simp [h, hiff]
      · rw [if_neg hlt, ih (by omega)]
        by_cases h : j = n
        · simp [h, hlt]
        · have hiff : j < n + 1 ↔ j < n := by omega
          simp [hiff]
  rw [fingerprint, bitsLength, key 64 le_rfl, decide_eq_true hj, Bool.true_and]

/-! ## The survivors of pages with the same fingerprint -/

open PageLibPreprocessor

omit [DoubleOps F] in
/-- Of the pages with one fingerprint no two survive. -/
theorem pairwise_survivors {make : Bytes → UInt64} {pages result : List (WebPage F)}
    (h : CutRedundantPages make pages result) {p : Bytes → Prop} {v : UInt64}
    (hv : ∀ text, p text → make text = v) :
    result.Pairwise fun a b => ¬ (p a.docContent ∧ p b.docContent) := by
  obtain ⟨sorted, hperm, hsorted, rfl⟩ := h
  have hsub : (sorted.destutter fun a b => ¬ a.equal b).Sublist sorted := List.destutter_sublist _ _
  have hle : sorted.Pairwise fun a b => a.u64 ≤ b.u64 :=
    hsorted.imp fun {a b} hab => by simpa [WebPage.less] using hab
  have hincr := increasing_of_isChain (List.isChain_destutter (fun a b : WebPage F => ¬ a.equal b)
    sorted) (hle.sublist hsub)
  have hu64 : ∀ page ∈ sorted, page.u64 = make page.docContent := fun page hpage => by
    obtain ⟨page, -, rfl⟩ := List.mem_map.mp (hperm.mem_iff.mp hpage)
    rfl
  refine hincr.imp_of_mem fun {a b} ha hb hlt hp => ?_
  rw [hu64 a (hsub.subset ha), hu64 b (hsub.subset hb), hv _ hp.1, hv _ hp.2] at hlt
  exact UInt64.lt_irrefl v hlt

/-! ## Pages without keywords -/

theorem fingerprint_nil [OrderedOps F] : fingerprint ([] : List (UInt64 × F)) = 0 := by
  refine eq_of_getLsbD fun j hj => ?_
  rw [getLsbD_fingerprint _ hj]
  have h : ¬ lt (ofInt 0 : F) (weightAt [] j) = true := fun h =>
    lt_irrefl _ ((OrderedOps.lt_iff _ _).mp h)
  simpa using h

/-- No word of the text is counted. A text that cannot be decoded has no words at all. -/
def Keywordless (extractor : KeywordExtractor F) (text : Bytes) : Prop :=
  ∀ w ∈ extractor.wordsOf text, isSingleWord w = true ∨ w ∈ extractor.stopWords

theorem fingerprint_of_keywordless [OrderedOps F] {extractor : KeywordExtractor F}
    {make : Bytes → UInt64} (hmake : MakesU64 extractor make) {text : Bytes}
    (h : Keywordless extractor text) : make text = 0 := by
  obtain ⟨top, ⟨kws, hkws, hsort⟩, hv⟩ := hmake text
  obtain ⟨kws', hkws', hmem⟩ := extractor.exists_keywords text
  obtain rfl : kws' = kws := Option.some.inj (hkws'.symm.trans hkws)
  have hnil : kws' = [] := List.eq_nil_iff_forall_not_mem.mpr fun kw hkw => by
    obtain ⟨hw, hcounts⟩ := (hmem kw.1).mp ⟨kw.2, hkw⟩
    rw [KeywordExtractor.counts] at hcounts
    rcases h kw.1 hw with hsingle | hstop
    · simp [hsingle] at hcounts
    · rw [Std.TreeSet.mem_iff_contains.mp hstop, Bool.or_true] at hcounts
      cases hcounts
  have htop : top = [] := List.eq_nil_iff_forall_not_mem.mpr fun kw hkw => by
    have := hsort.mem hkw
    rw [hnil] at this
    exact absurd this List.not_mem_nil
  rw [hv, htop]
  exact fingerprint_nil

/-- **Of the pages without keywords** no two survive. -/
theorem keywordless_survivors [OrderedOps F] {extractor : KeywordExtractor F}
    {make : Bytes → UInt64} (hmake : MakesU64 extractor make) {pages result : List (WebPage F)}
    (h : CutRedundantPages make pages result) :
    result.Pairwise fun a b =>
      ¬ (Keywordless extractor a.docContent ∧ Keywordless extractor b.docContent) :=
  pairwise_survivors h fun _ => fingerprint_of_keywordless hmake

theorem exists_makesU64 [OrderedOps F] (extractor : KeywordExtractor F) :
    ∃ make, MakesU64 extractor make := by
  have h : ∀ text, ∃ v64, Makes extractor text 5 v64 := fun text => by
    obtain ⟨top, htop⟩ := extractor.exists_extracts text 5
    exact ⟨_, top, htop, rfl⟩
  exact Classical.axiomOfChoice h

end

/-- An extractor without a dictionary. -/
noncomputable def bareExtractor : KeywordExtractor ℝ where
  segment := ⟨DictTrie.createTrie [] 0 [], HMMSegment.uniformModel⟩
  idfMap := ∅
  idfAverage := 1
  stopWords := ∅

def pageOf (content : Bytes) : WebPage ℝ :=
  { docTitle := [], docUrl := [], docContent := content, u64 := 0 }

/-- Letters in sequence are one word. -/
theorem cut_bareExtractor {word : String} (hne : word.toList ≠ [])
    (h : ∀ c ∈ word.toList, HMMSegment.isLetter c.val = true) :
    bareExtractor.segment.cut true (lit word) = some [lit word] :=
  Jieba.cut_of_isLetter HMMSegment.uniformModel 0 hne h

/-- A text that cannot be decoded and a single character. -/
theorem keywordless_bareExtractor :
    Keywordless bareExtractor [255] ∧ Keywordless bareExtractor (lit "a") := by
  have hglyphs : glyphs [255] = none := by
    rw [glyphs, dif_neg (by decide)]
    exact dif_pos (by decide)
  constructor
  · intro w hw
    rw [KeywordExtractor.wordsOf, Jieba.cut_of_glyphs_eq_none _ true hglyphs] at hw
    exact absurd hw List.not_mem_nil
  · intro w hw
    rw [KeywordExtractor.wordsOf, cut_bareExtractor (by decide) (by simp [HMMSegment.isLetter])] at hw
    obtain rfl := List.mem_singleton.mp hw
    exact Or.inl rfl

open PageLibPreprocessor in
theorem keywordless_survivors_twoPages :
    Keywordless bareExtractor [255] ∧ Keywordless bareExtractor (lit "a") ∧ ∃ make result,
      CutRedundantPages make [pageOf [255], pageOf (lit "a")] result ∧
      result.Pairwise fun a b => ¬ (Keywordless bareExtractor a.docContent ∧
        Keywordless bareExtractor b.docContent) := by
  obtain ⟨make, hmake⟩ := exists_makesU64 bareExtractor
  obtain ⟨sorted, hperm, hsorted⟩ :=
    exists_sorted ([pageOf [255], pageOf (lit "a")].map (WebPage.buildU64 make))
  have h : CutRedundantPages make [pageOf [255], pageOf (lit "a")] _ := ⟨sorted, hperm, hsorted, rfl⟩
  exact ⟨keywordless_bareExtractor.1, keywordless_bareExtractor.2, make, _, h,
    keywordless_survivors hmake h⟩

/-! ## Pages with a dominant keyword -/

/-- A keyword that weighs more than the others together. -/
def Dominates (extractor : KeywordExtractor ℝ) (word : Bytes) (text : Bytes) : Prop :=
  ∃ kws x others, extractor.keywords text = some kws ∧ kws.Perm ((word, x) :: others) ∧
    (others.map fun kw => |kw.2|).sum < x

/-- The sign of a weight. -/
def signOf (hash : UInt64) (j : ℕ) : ℝ := if hash.toBitVec.getLsbD j then 1 else -1

theorem weightAt_eq_sum (hashvalues : List (UInt64 × ℝ)) {j : ℕ} (hj : j < 64) :
    weightAt hashvalues j = (hashvalues.map fun hv => signOf hv.1 j * hv.2).sum := by
  have hsign : ∀ hv : UInt64 × ℝ, mul (ofInt (if (1 <<< UInt64.ofNat j) &&& hv.1 ≠ 0 then 1
      else -1)) hv.2 = signOf hv.1 j * hv.2 := fun hv => by
    show ((if (1 <<< UInt64.ofNat j) &&& hv.1 ≠ 0 then 1 else -1 : ℤ) : ℝ) * hv.2 = _
    rw [signOf]
    by_cases h : hv.1.toBitVec.getLsbD j = true
    · rw [if_pos ((one_shiftLeft_and_ne_zero_iff hv.1 hj).mpr h), if_pos h, Int.cast_one]
    · rw [if_neg fun h' => h ((one_shiftLeft_and_ne_zero_iff hv.1 hj).mp h'), if_neg h,
        Int.cast_neg, Int.cast_one]
  have key : ∀ sum : ℝ, hashvalues.foldl (fun weight hv => add weight (mul (ofInt
      (if (1 <<< UInt64.ofNat j) &&& hv.1 ≠ 0 then 1 else -1)) hv.2)) sum =
      sum + (hashvalues.map fun hv => signOf hv.1 j * hv.2).sum := by
    induction hashvalues with
    | nil => simp
    | cons hv hashvalues ih =>
      intro sum
      rw [List.foldl_cons, ih, hsign, List.map_cons, List.sum_cons, ← add_assoc]
      rfl
  rw [weightAt, key]
  show ((0 : ℤ) : ℝ) + _ = _
  rw [Int.cast_zero, zero_add]

/-- The sum of signed weights is not more than that of the weights. -/
theorem abs_sum_le (others : List (UInt64 × ℝ)) (j : ℕ) :
    |(others.map fun hv => signOf hv.1 j * hv.2).sum| ≤ (others.map fun hv => |hv.2|).sum := by
  induction others with
  | nil => simp
  | cons hv others ih =>
    have hsign : |signOf hv.1 j * hv.2| = |hv.2| := by
      rw [signOf]
      split_ifs <;> simp
    rw [List.map_cons, List.sum_cons, List.map_cons, List.sum_cons]
    exact (abs_add_le _ _).trans (add_le_add hsign.le ih)

/-- **A word that weighs more than the others** decides the signs of the sums. -/
theorem fingerprint_of_dominates {hashvalues others : List (UInt64 × ℝ)} {hash : UInt64} {x : ℝ}
    (hperm : hashvalues.Perm ((hash, x) :: others)) (hx : (others.map fun hv => |hv.2|).sum < x) :
    fingerprint hashvalues = hash := by
  refine eq_of_getLsbD fun j hj => ?_
  have hsum : weightAt hashvalues j =
      signOf hash j * x + (others.map fun hv => signOf hv.1 j * hv.2).sum := by
    rw [weightAt_eq_sum _ hj, (hperm.map _).sum_eq, List.map_cons, List.sum_cons]
  have hothers := abs_le.mp (abs_sum_le others j)
  have hpos : lt (ofInt 0) (weightAt hashvalues j) = true ↔ 0 < weightAt hashvalues j := by
    rw [OrderedOps.lt_iff]
    show ((0 : ℤ) : ℝ) < _ ↔ _
    rw [Int.cast_zero]
  rw [getLsbD_fingerprint _ hj, Bool.eq_iff_iff, hpos, hsum, signOf]
  by_cases hbit : hash.toBitVec.getLsbD j = true
  · rw [if_pos hbit]
    exact iff_of_true (by linarith [hothers.1]) hbit
  · rw [if_neg hbit]
    exact iff_of_false (by linarith [hothers.2]) hbit

/-- A keyword that dominates is among those that are kept. -/
theorem exists_top_of_dominates {topN : ℕ} (hpos : 0 < topN) {kws top others : List (Bytes × ℝ)}
    (h : IsPartialSort KeywordExtractor.compareWord topN kws top) {word : Bytes} {x : ℝ}
    (hperm : kws.Perm ((word, x) :: others)) (hx : (others.map fun kw => |kw.2|).sum < x) :
    ∃ others', top.Perm ((word, x) :: others') ∧ (others'.map fun kw => |kw.2|).sum < x := by
  obtain ⟨rest, hall, hrest⟩ := h.rest
  have hall' : (top ++ rest).Perm ((word, x) :: others) := hall.trans hperm
  have hnonneg : ∀ l : List (Bytes × ℝ), ∀ y ∈ l.map fun kw => |kw.2|, 0 ≤ y := fun l y hy => by
    obtain ⟨kw, -, rfl⟩ := List.mem_map.mp hy
    exact abs_nonneg kw.2
  have hmem : (word, x) ∈ top := by
    by_contra hnot
    -- Otherwise a keyword that weighs less would have been kept.
    have hin : (word, x) ∈ rest := (List.mem_append.mp
      (hall'.mem_iff.mpr List.mem_cons_self)).resolve_left hnot
    obtain ⟨kw, hkw⟩ := List.exists_mem_of_ne_nil top (by
      have hlen := h.length_eq
      have := hperm.length_eq
      rintro rfl
      simp only [List.length_nil, List.length_cons] at hlen this
      omega)
    have hother : kw ∈ others := by
      rcases List.mem_cons.mp (hall'.mem_iff.mp (List.mem_append_left rest hkw)) with rfl | hother
      · exact absurd hkw hnot
      · exact hother
    have hle := List.single_le_sum (hnonneg others) _ (List.mem_map_of_mem hother)
    have hless : lt kw.2 x = true :=
      (OrderedOps.lt_iff _ _).mpr ((le_abs_self kw.2).trans_lt (hle.trans_lt hx))
    exact hrest kw hkw (word, x) hin hless
  obtain ⟨front, back, rfl⟩ := List.append_of_mem hmem
  refine ⟨front ++ back, List.perm_middle, ?_⟩
  have hothers : (front ++ back ++ rest).Perm others := by
    refine List.Perm.cons_inv (a := (word, x)) ?_
    rw [← List.cons_append]
    exact (List.perm_middle.symm.append_right rest).trans hall'
  have hsum := (hothers.map fun kw => |kw.2|).sum_eq
  rw [List.map_append, List.sum_append] at hsum
  have := List.sum_nonneg (hnonneg rest)
  linarith

open PageLibPreprocessor in
/-- **Of the pages with the same dominant keyword** no two survive. -/
theorem dominated_survivors {extractor : KeywordExtractor ℝ} {make : Bytes → UInt64}
    (hmake : MakesU64 extractor make) {pages result : List (WebPage ℝ)}
    (h : CutRedundantPages make pages result) (word : Bytes) :
    result.Pairwise fun a b =>
      ¬ (Dominates extractor word a.docContent ∧ Dominates extractor word b.docContent) := by
  refine pairwise_survivors (p := Dominates extractor word) (v := hasher word) h fun text hdom => ?_
  obtain ⟨kws, x, others, hkws, hperm, hx⟩ := hdom
  obtain ⟨top, ⟨kws', hkws', hsort⟩, hv⟩ := hmake text
  obtain rfl : kws' = kws := Option.some.inj (hkws'.symm.trans hkws)
  obtain ⟨others', htop, hx'⟩ := exists_top_of_dominates (by norm_num) hsort hperm hx
  have hhashed := htop.map fun kw => (hasher kw.1, kw.2)
  rw [List.map_cons] at hhashed
  rw [hv, fingerprint_of_dominates hhashed]
  rw [List.map_map]
  exact hx'

/-- A text with a space between two texts. -/
theorem cut_bareExtractor_space (a b : String) :
    ∃ wa wb, bareExtractor.segment.cut true (lit a) = some wa ∧
      bareExtractor.segment.cut true (lit b) = some wb ∧
      bareExtractor.segment.cut true (lit a ++ String.utf8EncodeChar ' ' ++ lit b) =
        some (wa ++ [String.utf8EncodeChar ' '] ++ wb) := by
  have hdecode : ∀ text : String, decodeRunesInString (lit text) ≠ none := fun text => by
    rw [decodeRunesInString_eq, lit, glyphs_utf8]
    exact Option.some_ne_none _
  exact Jieba.cut_separator (hdecode a) (hdecode b) (by simp [Jieba.separators])

theorem cut_catCatDog : bareExtractor.segment.cut true (lit "cat cat dog") =
    some [lit "cat", lit " ", lit "cat", lit " ", lit "dog"] := by
  have hcat : bareExtractor.segment.cut true (lit "cat") = some [lit "cat"] :=
    cut_bareExtractor (by decide) (by simp [HMMSegment.isLetter])
  have hdog : bareExtractor.segment.cut true (lit "dog") = some [lit "dog"] :=
    cut_bareExtractor (by decide) (by simp [HMMSegment.isLetter])
  obtain ⟨w₁, w₂, h₁, h₂, hcatCat⟩ := cut_bareExtractor_space "cat" "cat"
  obtain ⟨w₃, w₄, h₃, h₄, hall⟩ := cut_bareExtractor_space "cat cat" "dog"
  obtain rfl := Option.some.inj (h₁.symm.trans hcat)
  obtain rfl := Option.some.inj (h₂.symm.trans hcat)
  obtain rfl := Option.some.inj (h₃.symm.trans hcatCat)
  obtain rfl := Option.some.inj (h₄.symm.trans hdog)
  exact hall

/-- "cat" outweighs the other keywords of both texts. -/
theorem dominates_bareExtractor : Dominates bareExtractor (lit "cat") (lit "cat") ∧
    Dominates bareExtractor (lit "cat") (lit "cat cat dog") := by
  constructor
  · have hkeywords : bareExtractor.keywords (lit "cat") =
        some [(lit "cat", (((0 : ℤ) : ℝ) + (1 : ℤ)) * 1)] := by
      rw [KeywordExtractor.keywords, cut_bareExtractor (by decide) (by simp [HMMSegment.isLetter])]
      rfl
    exact ⟨_, _, _, hkeywords, List.Perm.refl _, by norm_num⟩
  · have hkeywords : bareExtractor.keywords (lit "cat cat dog") =
        some [(lit "cat", (((0 : ℤ) : ℝ) + (1 : ℤ) + (1 : ℤ)) * 1),
          (lit "dog", (((0 : ℤ) : ℝ) + (1 : ℤ)) * 1)] := by
      rw [KeywordExtractor.keywords, cut_catCatDog]
      rfl
    exact ⟨_, _, _, hkeywords, List.Perm.refl _, by norm_num⟩

open PageLibPreprocessor in
theorem dominated_survivors_twoPages :
    Dominates bareExtractor (lit "cat") (lit "cat") ∧
    Dominates bareExtractor (lit "cat") (lit "cat cat dog") ∧ ∃ make result,
      CutRedundantPages make [pageOf (lit "cat"), pageOf (lit "cat cat dog")] result ∧
      result.Pairwise fun a b => ¬ (Dominates bareExtractor (lit "cat") a.docContent ∧
        Dominates bareExtractor (lit "cat") b.docContent) := by
  obtain ⟨make, hmake⟩ := exists_makesU64 bareExtractor
  obtain ⟨sorted, hperm, hsorted⟩ :=
    exists_sorted ([pageOf (lit "cat"), pageOf (lit "cat cat dog")].map (WebPage.buildU64 make))
  have h : CutRedundantPages make [pageOf (lit "cat"), pageOf (lit "cat cat dog")] _ :=
    ⟨sorted, hperm, hsorted, rfl⟩
  exact ⟨dominates_bareExtractor.1, dominates_bareExtractor.2, make, _, h,
    dominated_survivors hmake h (lit "cat")⟩

end Simhasher

end SearchServer

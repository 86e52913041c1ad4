import SearchServer.Offline.InvertIndex

/-!
# The weights in the index

The weights of `WebPage::compute` in exact arithmetic. A word that occurs `tf` times in a page and
is in `df` of `sum` documents has weight `tf * log (sum / (df + 1))`, which is 0 when
`df + 1 = sum`. The weights of a page are divided by their norm, so they are at most 1; but when all
of them are 0, so is the norm, and the quotients are no numbers.

* `HasWeight`: some weight of the page is not 0.
* `entry_of_hasWeight`, `entry_of_not_hasWeight`: the weights in the index of a page that has
  weight, and of one that has not.

**Theorem (`exactIndex_of_build`).** The index lists exactly the pages that have a word, and the weights
are those of the formula, divided by the norm of their page.
-/

namespace SearchServer

open DoubleOps

noncomputable section

namespace Dbl

def toReal : Dbl → ℝ
  | fin x => x
  | _ => 0

end Dbl

namespace WebPage

def realWeight (tf : ℤ) (df sum : ℕ) : ℝ := tf * Real.log (sum / (df + 1))

theorem weight_eq (tf : ℤ) (df : ℕ) {sum : ℕ} (hsum : 0 < sum) :
    (weight tf df sum : Dbl) = .fin (realWeight tf df sum) := by
  have hdf : (0 : ℝ) < df + 1 := by positivity
  have hpos : (0 : ℝ) < sum / (df + 1) := div_pos (by exact_mod_cast hsum) hdf
  have hdiv : (div (ofInt (sum : ℤ)) (add (ofInt (df : ℤ)) (ofInt 1)) : Dbl) =
      .fin (sum / (df + 1)) := by
    have hne : ((df : ℤ) : ℝ) + ((1 : ℤ) : ℝ) ≠ 0 := by
      push_cast
      exact hdf.ne'
    show Dbl.div (.fin ((sum : ℤ) : ℝ)) (.fin (((df : ℤ) : ℝ) + ((1 : ℤ) : ℝ))) = _
    rw [Dbl.div_fin, if_neg hne]
    push_cast
    rfl
  rw [weight, hdiv]
  show Dbl.mul (.fin (tf : ℝ)) (Dbl.log (.fin _)) = _
  rw [Dbl.log_of_pos hpos]
  rfl

/-- A weight is 0 when the word has count 0 or is in all pages but one. -/
theorem realWeight_eq_zero_iff {tf : ℤ} {df sum : ℕ} (hsum : 0 < sum) :
    realWeight tf df sum = 0 ↔ tf = 0 ∨ df + 1 = sum := by
  have hdf : (0 : ℝ) < df + 1 := by positivity
  have hpos : (0 : ℝ) < sum / (df + 1) := div_pos (by exact_mod_cast hsum) hdf
  have hlog : Real.log (sum / (df + 1)) = 0 ↔ df + 1 = sum := by
    constructor
    · intro h
      have hone : (sum : ℝ) / (df + 1) = 1 := Real.eq_one_of_pos_of_log_eq_zero hpos h
      rw [div_eq_one_iff_eq hdf.ne'] at hone
      exact_mod_cast hone.symm
    · intro h
      have hone : (sum : ℝ) / (df + 1) = 1 := by
        rw [div_eq_one_iff_eq hdf.ne']
        exact_mod_cast h.symm
      rw [hone, Real.log_one]
  rw [realWeight, mul_eq_zero, hlog, Int.cast_eq_zero]

/-! ## The norm -/

def realNorm (wordW : Std.TreeMap Bytes Dbl) : ℝ :=
  Real.sqrt (wordW.toList.map fun p => p.2.toReal ^ 2).sum

theorem norm_eq {wordW : Std.TreeMap Bytes Dbl}
    (h : ∀ (w : Bytes) (y : Dbl), wordW[w]? = some y → ∃ x, y = .fin x) :
    norm wordW = Dbl.fin (realNorm wordW) := by
  have hzero : (ofInt 0 : Dbl) = .fin 0 := congrArg Dbl.fin Int.cast_zero
  have hfin : wordW.toList.map Prod.snd = (wordW.toList.map fun p => p.2.toReal).map Dbl.fin := by
    rw [List.map_map]
    refine List.map_congr_left fun p hp => ?_
    obtain ⟨x, hx⟩ := h p.1 p.2 (Std.TreeMap.mem_toList_iff_getElem?_eq_some.mp hp)
    rw [Function.comp_apply, hx, Dbl.toReal]
  have hfold : wordW.toList.foldl (fun sumW word => add sumW (mul word.2 word.2)) (ofInt 0) =
      (wordW.toList.map Prod.snd).foldl (fun sumW y => add sumW (mul y y)) (Dbl.fin 0) := by
    rw [List.foldl_map, hzero]
  rw [norm, hfold, hfin]
  refine (Dbl.sqrt_foldl_squares _).trans ?_
  rw [Dbl.norm, List.map_map]
  rfl

/-- No weight is above the norm. -/
theorem abs_le_realNorm {wordW : Std.TreeMap Bytes Dbl} {w : Bytes} {x : ℝ}
    (h : wordW[w]? = some (.fin x)) : |x| ≤ realNorm wordW := by
  have hmem : x ^ 2 ∈ wordW.toList.map fun p => p.2.toReal ^ 2 :=
    List.mem_map.mpr ⟨(w, .fin x), Std.TreeMap.mem_toList_iff_getElem?_eq_some.mpr h, rfl⟩
  have hnonneg : ∀ y ∈ wordW.toList.map (fun p => p.2.toReal ^ 2), (0 : ℝ) ≤ y := by
    intro y hy
    obtain ⟨p, -, rfl⟩ := List.mem_map.mp hy
    exact sq_nonneg _
  rw [realNorm, ← Real.sqrt_sq_eq_abs]
  exact Real.sqrt_le_sqrt (List.single_le_sum hnonneg _ hmem)

/-- The norm is 0 when all weights are. -/
theorem realNorm_eq_zero {wordW : Std.TreeMap Bytes Dbl}
    (h : ∀ (w : Bytes) (y : Dbl), wordW[w]? = some y → y = .fin 0) : realNorm wordW = 0 := by
  have hsum : (wordW.toList.map fun p => p.2.toReal ^ 2).sum = 0 := by
    refine List.sum_eq_zero fun y hy => ?_
    obtain ⟨p, hp, rfl⟩ := List.mem_map.mp hy
    rw [h p.1 p.2 (Std.TreeMap.mem_toList_iff_getElem?_eq_some.mp hp), Dbl.toReal]
    norm_num
  rw [realNorm, hsum, Real.sqrt_zero]

end WebPage

namespace PageLibPreprocessor

/-! ## The weights of a page -/

/-- The page has a word whose weight is not 0: one that is counted, and that is not in all pages but
one. -/
def HasWeight (pages : List (WebPage Dbl)) (page : WebPage Dbl) : Prop :=
  ∃ w tf, page.wordsMap[w]? = some tf ∧ tf ≠ 0 ∧ docFreq pages w + 1 ≠ pages.length

variable {pages : List (WebPage Dbl)} {page : WebPage Dbl}

theorem getElem?_weights_eq (hpos : 0 < pages.length) (hfresh : page.wordW = ∅) (w : Bytes) :
    (page.weights (docFreq pages) pages.length)[w]? = (page.wordsMap[w]?).map fun tf =>
      .fin (WebPage.realWeight tf (docFreq pages w) pages.length) := by
  rw [WebPage.getElem?_weights, hfresh]
  cases page.wordsMap[w]? with
  | none => simp
  | some tf => exact congrArg some (WebPage.weight_eq tf _ hpos)

def pageNorm (pages : List (WebPage Dbl)) (page : WebPage Dbl) : ℝ :=
  WebPage.realNorm (page.weights (docFreq pages) pages.length)

theorem entry_eq (hpos : 0 < pages.length) {d : ℤ} (hd : pageAt pages d = some page)
    (hfresh : page.wordW = ∅) {w : Bytes} {tf : ℤ} (hw : page.wordsMap[w]? = some tf) :
    entry pages w d = some (Dbl.div (.fin (WebPage.realWeight tf (docFreq pages w) pages.length))
      (.fin (pageNorm pages page))) := by
  have hnorm : WebPage.norm (page.weights (docFreq pages) pages.length) =
      .fin (pageNorm pages page) := by
    refine WebPage.norm_eq fun v y hv => ?_
    rw [getElem?_weights_eq hpos hfresh] at hv
    obtain ⟨tf, -, rfl⟩ := Option.map_eq_some_iff.mp hv
    exact ⟨_, rfl⟩
  rw [entry, hd, Option.bind_some, hw, Option.map_some, hnorm, WebPage.weight_eq tf _ hpos]
  rfl

theorem pageNorm_eq_zero_iff (hpos : 0 < pages.length) (hfresh : page.wordW = ∅) :
    pageNorm pages page = 0 ↔ ¬ HasWeight pages page := by
  constructor
  · rintro hnorm ⟨w, tf, hw, htf, hdf⟩
    have hget := getElem?_weights_eq hpos hfresh w
    rw [hw] at hget
    have hle := WebPage.abs_le_realNorm hget
    rw [show WebPage.realNorm _ = 0 from hnorm, abs_nonpos_iff,
      WebPage.realWeight_eq_zero_iff hpos] at hle
    exact hle.elim htf hdf
  · intro hno
    refine WebPage.realNorm_eq_zero fun w y hy => ?_
    rw [getElem?_weights_eq hpos hfresh] at hy
    obtain ⟨tf, hw, rfl⟩ := Option.map_eq_some_iff.mp hy
    refine congrArg Dbl.fin ((WebPage.realWeight_eq_zero_iff hpos).mpr ?_)
    by_contra h
    push Not at h
    exact hno ⟨w, tf, hw, h.1, h.2⟩

/-- **A page with weight.** Its weights in the index are at most 1. -/
theorem entry_of_hasWeight (hpos : 0 < pages.length) {d : ℤ} (hd : pageAt pages d = some page)
    (hfresh : page.wordW = ∅) (h : HasWeight pages page) {w : Bytes} {y : Dbl}
    (hy : entry pages w d = some y) : ∃ x, y = .fin x ∧ |x| ≤ 1 := by
  have hne : pageNorm pages page ≠ 0 := fun h0 => (pageNorm_eq_zero_iff hpos hfresh).mp h0 h
  cases hw : page.wordsMap[w]? with
  | none =>
    rw [entry, hd, Option.bind_some, hw] at hy
    cases hy
  | some tf =>
    rw [entry_eq hpos hd hfresh hw, Dbl.div_fin, if_neg hne] at hy
    refine ⟨_, (Option.some.inj hy).symm, ?_⟩
    have hget := getElem?_weights_eq hpos hfresh w
    rw [hw] at hget
    rw [abs_div, abs_of_nonneg (show 0 ≤ pageNorm pages page from Real.sqrt_nonneg _)]
    exact div_le_one_of_le₀ (WebPage.abs_le_realNorm hget) (Real.sqrt_nonneg _)

/-- **A page without weight.** Its weights in the index are no numbers. -/
theorem entry_of_not_hasWeight (hpos : 0 < pages.length) {d : ℤ} (hd : pageAt pages d = some page)
    (hfresh : page.wordW = ∅) (h : ¬ HasWeight pages page) {w : Bytes} (hw : w ∈ page.wordsMap) :
    entry pages w d = some .nan := by
  obtain ⟨tf, htf⟩ := exists_getElem?_of_mem hw
  have hzero : WebPage.realWeight tf (docFreq pages w) pages.length = 0 := by
    rw [WebPage.realWeight_eq_zero_iff hpos]
    by_contra hno
    push Not at hno
    exact h ⟨w, tf, htf, hno.1, hno.2⟩
  rw [entry_eq hpos hd hfresh htf, (pageNorm_eq_zero_iff hpos hfresh).mpr h, hzero, Dbl.div_fin,
    if_pos rfl, sign_zero]
  rfl

/-! ## The index is exact -/

/-- The root of the sum of the squared weights of the words of a page. -/
def root (pages : List (WebPage Dbl)) (page : WebPage Dbl) : ℝ :=
  Real.sqrt (page.wordsMap.toList.map fun word =>
    WebPage.realWeight word.2 (docFreq pages word.1) pages.length ^ 2).sum

theorem pageNorm_eq_root (hpos : 0 < pages.length) (hfresh : page.wordW = ∅) :
    pageNorm pages page = root pages page := by
  have hlist := toList_of_getElem? (f := fun w tf =>
    Dbl.fin (WebPage.realWeight tf (docFreq pages w) pages.length))
    (getElem?_weights_eq hpos hfresh)
  rw [pageNorm, WebPage.realNorm, hlist, List.map_map, root]
  rfl

/-- What the index built from `pages` is to be. -/
structure ExactIndex (pages : List (WebPage Dbl)) (table : IndexTable Dbl) : Prop where
  lists_iff : ∀ w d, table.Lists w d ↔ ∃ page, pageAt pages d = some page ∧ w ∈ page.wordsMap
  /-- The weight of a word is that of the formula, divided by the root of its page. -/
  weight : ∀ (w : Bytes) (d : ℤ) (page : WebPage Dbl) (tf : ℤ), pageAt pages d = some page →
    page.wordsMap[w]? = some tf → root pages page ≠ 0 → (table[w]?.getD ∅)[d]? = some (Dbl.fin
      (tf * Real.log (pages.length / (docFreq pages w + 1)) / root pages page))
  /-- A posting that holds 0.0 belongs to a weight 0. -/
  placeholder : ∀ (w : Bytes) (d : ℤ) (page : WebPage Dbl) (tf : ℤ),
    pageAt pages d = some page → page.wordsMap[w]? = some tf →
    (table[w]?.getD ∅)[d]? = some (Dbl.fin 0) →
    tf * Real.log (pages.length / (docFreq pages w + 1)) = 0
  /-- In each round of the third pass all `find`s succeed. -/
  finds : ∀ k page, pages[k]? = some page →
    let lib := beforeCompute pages k
    let (t, wordW) := page.computeW lib.invertIndexTable pages.length
    WebPage.storeFound wordW (WebPage.norm wordW) t k =
      some (page.compute lib.invertIndexTable k pages.length).2

theorem length_pos_of_pageAt {d : ℤ} (hd : pageAt pages d = some page) : 0 < pages.length := by
  refine List.length_pos_iff.mpr fun hnil => ?_
  rw [hnil, pageAt] at hd
  simp at hd

theorem entry_eq_root {d : ℤ} (hd : pageAt pages d = some page) (hfresh : page.wordW = ∅)
    {w : Bytes} {tf : ℤ} (hw : page.wordsMap[w]? = some tf) :
    entry pages w d = some (Dbl.div (.fin (WebPage.realWeight tf (docFreq pages w) pages.length))
      (.fin (root pages page))) := by
  have hpos := length_pos_of_pageAt hd
  rw [entry_eq hpos hd hfresh hw, pageNorm_eq_root hpos hfresh]

/-- A quotient is 0 only when the dividend is. -/
theorem eq_zero_of_div_eq {x y : ℝ} (h : Dbl.div (.fin x) (.fin y) = .fin 0) : x = 0 := by
  rw [Dbl.div_fin] at h
  by_cases hy : y = 0
  · rw [if_pos hy] at h
    rcases hs : SignType.sign x with _ | _ | _ <;> rw [hs] at h <;> cases h
  · rw [if_neg hy, Dbl.fin.injEq, div_eq_zero_iff] at h
    exact h.resolve_right hy

theorem exactIndex_of_indexPages (hfresh : ∀ page ∈ pages, page.wordW = ∅)
    {lib : PageLibPreprocessor Dbl} (h : indexPages ⟨pages, ∅⟩ = some lib) :
    ExactIndex pages lib.invertIndexTable := by
  have hspec := indexPages_spec hfresh h
  have hmem : ∀ {d : ℤ} {page : WebPage Dbl}, pageAt pages d = some page → page ∈ pages := by
    intro d page hd
    rw [pageAt, Option.ite_none_left_eq_some] at hd
    exact List.mem_of_getElem? hd.2
  refine ⟨fun w d => hspec.lists_iff, ?_, ?_, ?_⟩
  · intro w d page tf hd hw hroot
    rw [hspec.posting, entry_eq_root hd (hfresh page (hmem hd)) hw, Dbl.div_fin, if_neg hroot]
    rfl
  · intro w d page tf hd hw hzero
    rw [hspec.posting, entry_eq_root hd (hfresh page (hmem hd)) hw, Option.some.injEq] at hzero
    exact eq_zero_of_div_eq hzero
  · intro k page hk
    have hmem : page ∈ pages := List.mem_of_getElem? hk
    have hle : k ≤ pages.length := (List.getElem?_eq_some_iff.mp hk).1.le
    have hcomp := (computed_beforeCompute hfresh hle).1
    dsimp only
    rw [hcomp.compute_eq hk, WebPage.computeW_eq _ fun w hw => hcomp.exists_of_mem hmem hw]
    exact WebPage.storeFound_eq _ (hcomp.lists_weights hk (hfresh page hmem))

/-- **The inverted index is exact.** -/
theorem exactIndex_of_build {cut : Cut} {stopWord : Std.TreeSet Bytes}
    (hfresh : ∀ page ∈ pages, page.wordW = ∅) {lib : PageLibPreprocessor Dbl}
    (h : buildInvertIndexTable cut stopWord ⟨pages, ∅⟩ = some lib) :
    ExactIndex (pages.map (WebPage.buildWordMap cut stopWord)) lib.invertIndexTable := by
  refine exactIndex_of_indexPages (fun page hpage => ?_) h
  obtain ⟨p, hp, rfl⟩ := List.mem_map.mp hpage
  exact hfresh p hp

/-! ## Unit vectors -/

/-- The norm of page `k` is not 0, and the weights stored for the page form a unit vector. -/
def UnitPage (lib : PageLibPreprocessor Dbl) (k : ℕ) : Prop :=
  ∃ page r, lib.pageLib[k]? = some page ∧ page.avgW = some (.fin r) ∧ r ≠ 0 ∧
    Dbl.IsUnit ((storedUnder lib.invertIndexTable k).toList.map Prod.snd)

/-- The weights of the words of a page before they are divided. -/
def realWeights (pages : List (WebPage Dbl)) (page : WebPage Dbl) : List ℝ :=
  page.wordsMap.toList.map fun word =>
    WebPage.realWeight word.2 (docFreq pages word.1) pages.length

theorem root_eq_norm (pages : List (WebPage Dbl)) (page : WebPage Dbl) :
    root pages page = Dbl.norm (realWeights pages page) := by
  rw [root, Dbl.norm, realWeights, List.map_map]
  rfl

/-- The weights stored for page `k`. -/
theorem storedUnder_eq {k : ℕ} (hk : pages[k]? = some page) (hfresh : page.wordW = ∅)
    {table : IndexTable Dbl} (h : Posted pages (entry pages) table) :
    (storedUnder table k).toList.map Prod.snd = (realWeights pages page).map fun x =>
      Dbl.div (.fin x) (.fin (Dbl.norm (realWeights pages page))) := by
  have hd : pageAt pages k = some page := by rw [pageAt_natCast, hk]
  have hget : ∀ w : Bytes, (storedUnder table k)[w]? = (page.wordsMap[w]?).map fun tf =>
      Dbl.div (.fin (WebPage.realWeight tf (docFreq pages w) pages.length))
        (.fin (root pages page)) := by
    intro w
    rw [getElem?_storedUnder, h.posting]
    cases hw : page.wordsMap[w]? with
    | none =>
      rw [entry, hd, Option.bind_some, hw]
      rfl
    | some tf => exact entry_eq_root hd hfresh hw
  rw [toList_of_getElem? hget, root_eq_norm, realWeights, List.map_map, List.map_map]
  rfl

/-- **The weights of a page form a unit vector** exactly when the page has weight. -/
theorem unitPage_iff (hfresh : ∀ page ∈ pages, page.wordW = ∅) {lib : PageLibPreprocessor Dbl}
    (h : indexPages ⟨pages, ∅⟩ = some lib) {k : ℕ} (hk : pages[k]? = some page) :
    UnitPage lib k ↔ HasWeight pages page := by
  have hpage : page.wordW = ∅ := hfresh page (List.mem_of_getElem? hk)
  have hat : pageAt pages k = some page := by rw [pageAt_natCast, hk]
  have hpos : 0 < pages.length := length_pos_of_pageAt hat
  have hroot : pageNorm pages page = Dbl.norm (realWeights pages page) := by
    rw [pageNorm_eq_root hpos hpage, root_eq_norm]
  have hweight : HasWeight pages page ↔ Dbl.norm (realWeights pages page) ≠ 0 := by
    rw [← hroot, Ne, pageNorm_eq_zero_iff hpos hpage, not_not]
  have havg : (withWeights pages page).avgW = some (.fin (Dbl.norm (realWeights pages page))) := by
    rw [← hroot, pageNorm]
    refine congrArg some (WebPage.norm_eq fun w y hy => ?_)
    rw [getElem?_weights_eq hpos hpage] at hy
    obtain ⟨tf, -, rfl⟩ := Option.map_eq_some_iff.mp hy
    exact ⟨_, rfl⟩
  have hlib : lib.pageLib[k]? = some (withWeights pages page) := by
    rw [indexPages_pageLib hfresh h, List.getElem?_map, hk]
    rfl
  rw [hweight, ← Dbl.isUnit_normalised_iff, ← storedUnder_eq hk hpage (indexPages_spec hfresh h)]
  constructor
  · rintro ⟨-, -, -, -, -, hunit⟩
    exact hunit
  · intro hunit
    refine ⟨_, _, hlib, havg, ?_, hunit⟩
    rwa [← Dbl.isUnit_normalised_iff, ← storedUnder_eq hk hpage (indexPages_spec hfresh h)]

def sharedWord : List (WebPage Dbl) :=
  [lit "cat dog", lit "cat"].map fun docContent => { docTitle := [], docUrl := [], docContent }

/-- The pages of `sharedWord` with their words. -/
def sharedWordBuilt : List (WebPage Dbl) := sharedWord.map (WebPage.buildWordMap tokens ∅)

theorem docFreq_sharedWord : docFreq sharedWordBuilt (lit "cat") = 2 := by decide +kernel

/-- The word that both pages have is the only one of the second page. -/
theorem root_sharedWord {page : WebPage Dbl} (hwords : page.wordsMap.toList = [(lit "cat", 1)]) :
    root sharedWordBuilt page = -Real.log (2 / 3) := by
  have hlog : Real.log (2 / 3) ≤ 0 := Real.log_nonpos (by norm_num) (by norm_num)
  have hweight : WebPage.realWeight 1 2 2 = Real.log (2 / 3) := by
    norm_num [WebPage.realWeight]
  rw [root, hwords, List.map_singleton, List.sum_singleton, docFreq_sharedWord]
  show Real.sqrt (WebPage.realWeight 1 2 2 ^ 2) = _
  rw [hweight, Real.sqrt_sq_eq_abs, abs_of_nonpos hlog]

/-- The weight of the shared word is negative, so its posting for the second page holds -1. -/
theorem exactIndex_sharedWord :
    ∃ lib, buildInvertIndexTable tokens ∅ ⟨sharedWord, ∅⟩ = some lib ∧
      ExactIndex sharedWordBuilt lib.invertIndexTable ∧
      (lib.invertIndexTable[lit "cat"]?.getD ∅)[(1 : ℤ)]? = some (Dbl.fin (-1)) := by
  have hlength : sharedWordBuilt.length < 2 ^ 31 := by decide
  obtain ⟨lib, hlib⟩ := exists_indexPages hlength
  have hfresh : ∀ page ∈ sharedWord, page.wordW = ∅ := by simp [sharedWord]
  have hexact : ExactIndex sharedWordBuilt lib.invertIndexTable := exactIndex_of_build hfresh hlib
  obtain ⟨page, hpage, hwords⟩ : ∃ page, pageAt sharedWordBuilt 1 = some page ∧
      page.wordsMap.toList = [(lit "cat", 1)] := ⟨_, rfl, by decide +kernel⟩
  have hcat : page.wordsMap[lit "cat"]? = some 1 := by
    apply Std.TreeMap.mem_toList_iff_getElem?_eq_some.mp
    rw [hwords]
    exact List.mem_singleton_self _
  have hlog : Real.log (2 / 3) < 0 := Real.log_neg (by norm_num) (by norm_num)
  have hroot : root sharedWordBuilt page ≠ 0 := by
    rw [root_sharedWord hwords]
    linarith
  have hquotient : (sharedWordBuilt.length : ℝ) / ((2 : ℕ) + 1) = 2 / 3 := by
    norm_num [sharedWordBuilt, sharedWord]
  refine ⟨lib, hlib, hexact, ?_⟩
  rw [hexact.weight _ _ page 1 hpage hcat hroot, docFreq_sharedWord, root_sharedWord hwords,
    hquotient, Int.cast_one, one_mul, div_neg, div_self hlog.ne]

end PageLibPreprocessor

end

end SearchServer

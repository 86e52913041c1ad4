import SearchServer.Offline.Weights
import SearchServer.Process.WordQuery

/-!
# Unit vectors

The offline program divides the weights of a page by their norm, and the server does the same with
the weights of the words of a query (`WordQuery::getBaseW`). Neither asks whether the norm is 0. It is
0 when every word is in all pages but one.

**Theorem (`unit_weights_iff`).** The stored weights of a page form a unit vector exactly when the page
has a word that is not in all pages but one, and the weights of a query do exactly when the query has
such a word.
-/

namespace SearchServer

open DoubleOps

namespace WordQuery

section

variable {F : Type} [DoubleOps F]

/-- The loop of `getBaseW`. -/
def wVal (q : WordQuery F) (frq : Std.TreeMap Bytes ℤ) (words : List Bytes) :
    Except Undefined (List F) :=
  words.mapM fun word => do
    let m ← deref q.invertIndexTable[word]?
    let tf ← deref frq[word]?
    let df : F := ofInt m.size
    return mul (ofInt tf) (log (div (ofInt q.pageLib.length) (add df (ofInt 1))))

def sumW (wVal : List F) : F := sqrt (wVal.foldl (fun s w => add s (mul w w)) (ofInt 0))

theorem getBaseW_of_wVal {q : WordQuery F} {frq : Std.TreeMap Bytes ℤ} {words : List Bytes}
    {v : List F} (h : q.wVal frq words = .ok v) :
    q.getBaseW frq words = .ok (v.map (div · (sumW v))) := by
  unfold wVal at h
  unfold getBaseW
  rw [h]
  rfl

def docCount (q : WordQuery F) (w : Bytes) : ℕ := (q.invertIndexTable[w]?.getD ∅).size

theorem wVal_eq {q : WordQuery F} {frq : Std.TreeMap Bytes ℤ} {words : List Bytes}
    (hfrq : ∀ w ∈ words, w ∈ frq) (htable : ∀ w ∈ words, w ∈ q.invertIndexTable) :
    q.wVal frq words = .ok (words.map fun w =>
      WebPage.weight (frq[w]?.getD 0) (q.docCount w) q.pageLib.length) := by
  refine mapM_eq_ok fun w hw => ?_
  obtain ⟨m, hm⟩ := exists_getElem?_of_mem (htable w hw)
  obtain ⟨tf, htf⟩ := exists_getElem?_of_mem (hfrq w hw)
  rw [docCount, hm, htf]
  rfl

end

/-- The norm of the weights of a query is not 0, and `getBaseW` returns a unit vector. -/
def UnitQuery (q : WordQuery Dbl) (str : Bytes) : Prop :=
  let frq := wordSegmentation q.cut q.stopWordList str
  ∃ v base r, q.wVal frq (q.queryWords str) = .ok v ∧ sumW v = .fin r ∧ r ≠ 0 ∧
    q.getBaseW frq (q.queryWords str) = .ok base ∧ Dbl.IsUnit base

/-- With no pages the weights are infinite or no numbers. -/
theorem weight_of_no_pages (tf : ℤ) (df : ℕ) (x : ℝ) : (WebPage.weight tf df 0 : Dbl) ≠ .fin x := by
  have hdf : ((df : ℤ) : ℝ) + ((1 : ℤ) : ℝ) ≠ 0 := by
    push_cast
    positivity
  have hlog : (log (div (ofInt 0) (add (ofInt df) (ofInt 1))) : Dbl) = .inf true := by
    show Dbl.log (Dbl.div (.fin ((0 : ℤ) : ℝ)) (.fin (((df : ℤ) : ℝ) + ((1 : ℤ) : ℝ)))) = _
    rw [Dbl.div_fin, if_neg hdf, Int.cast_zero, zero_div]
    show (if (0 : ℝ) < 0 then Dbl.nan else if (0 : ℝ) = 0 then .inf true else _) = _
    rw [if_neg (lt_irrefl _), if_pos rfl]
  rw [WebPage.weight, hlog]
  exact Dbl.ofSign_ne_fin _ x

theorem unitQuery_iff {q : WordQuery Dbl} {str : Bytes}
    (htable : ∀ w ∈ q.queryWords str, w ∈ q.invertIndexTable) :
    q.UnitQuery str ↔
      q.pageLib ≠ [] ∧ ∃ w ∈ q.queryWords str, q.docCount w + 1 ≠ q.pageLib.length := by
  have hfrq : ∀ w ∈ q.queryWords str, w ∈ wordSegmentation q.cut q.stopWordList str :=
    fun w hw => Std.TreeMap.mem_keys.mp hw
  have hval := wVal_eq hfrq htable
  have hbase := getBaseW_of_wVal hval
  by_cases hnil : q.pageLib = []
  · refine iff_of_false ?_ fun h => h.1 hnil
    rintro ⟨-, base, -, -, -, -, hbase', hunit⟩
    obtain rfl := Except.ok.inj (hbase.symm.trans hbase')
    cases hwords : q.queryWords str with
    | nil => exact Dbl.not_isUnit_nil (by simpa [hwords] using hunit)
    | cons w words =>
      rw [hwords, List.map_cons, List.map_cons] at hunit
      obtain ⟨x, hx⟩ := hunit.exists_fin List.mem_cons_self
      obtain ⟨y, hy⟩ := Dbl.exists_of_div_eq_fin hx
      rw [hnil] at hy
      exact weight_of_no_pages _ _ y hy
  · have hpos : 0 < q.pageLib.length := List.length_pos_iff.mpr hnil
    -- The weights, and their norm, are reals.
    set xs := (q.queryWords str).map fun w => WebPage.realWeight
      ((wordSegmentation q.cut q.stopWordList str)[w]?.getD 0) (q.docCount w) q.pageLib.length
    have hxs : ((q.queryWords str).map fun w => (WebPage.weight
        ((wordSegmentation q.cut q.stopWordList str)[w]?.getD 0) (q.docCount w)
        q.pageLib.length : Dbl)) = xs.map Dbl.fin := by
      rw [List.map_map]
      exact List.map_congr_left fun w _ => WebPage.weight_eq _ _ hpos
    have hsum : sumW (xs.map Dbl.fin) = .fin (Dbl.norm xs) := by
      rw [sumW, show (ofInt 0 : Dbl) = .fin 0 from congrArg Dbl.fin Int.cast_zero]
      exact Dbl.sqrt_foldl_squares xs
    rw [hxs, hsum, List.map_map] at hbase
    have hnorm : Dbl.norm xs ≠ 0 ↔
        ∃ w ∈ q.queryWords str, q.docCount w + 1 ≠ q.pageLib.length := by
      have htf : ∀ w ∈ q.queryWords str,
          (wordSegmentation q.cut q.stopWordList str)[w]?.getD 0 ≠ 0 := by
        intro w hw
        obtain ⟨tf, htf⟩ := exists_getElem?_of_mem (hfrq w hw)
        have hpos : 0 < tf := countWords_pos (by simp) w tf htf
        rw [htf, Option.getD_some]
        omega
      rw [Ne, Dbl.norm_eq_zero_iff]
      push Not
      constructor
      · rintro ⟨x, hx, hne⟩
        obtain ⟨w, hw, rfl⟩ := List.mem_map.mp hx
        exact ⟨w, hw, fun hdf => hne ((WebPage.realWeight_eq_zero_iff hpos).mpr (.inr hdf))⟩
      · rintro ⟨w, hw, hdf⟩
        refine ⟨_, List.mem_map.mpr ⟨w, hw, rfl⟩, fun h0 => ?_⟩
        exact ((WebPage.realWeight_eq_zero_iff hpos).mp h0).elim (htf w hw) hdf
    rw [← hnorm, and_iff_right hnil, ← Dbl.isUnit_normalised_iff]
    constructor
    · rintro ⟨-, base, -, -, -, -, hbase', hunit⟩
      obtain rfl := Except.ok.inj (hbase.symm.trans hbase')
      exact hunit
    · intro hunit
      exact ⟨_, _, _, hxs ▸ hval, hsum, (Dbl.isUnit_normalised_iff xs).mp hunit, hbase, hunit⟩

end WordQuery

open PageLibPreprocessor

/-- **Unit vectors.** -/
theorem unit_weights_iff {cut : Cut} {stopWord : Std.TreeSet Bytes} {pages : List (WebPage Dbl)}
    (hfresh : ∀ page ∈ pages, page.wordW = ∅) {lib : PageLibPreprocessor Dbl}
    (h : buildInvertIndexTable cut stopWord ⟨pages, ∅⟩ = some lib) {q : WordQuery Dbl} {str : Bytes}
    (htable : ∀ w ∈ q.queryWords str, w ∈ q.invertIndexTable) :
    let built := pages.map (WebPage.buildWordMap cut stopWord)
    (∀ k page, built[k]? = some page → (UnitPage lib k ↔ HasWeight built page)) ∧
      (q.UnitQuery str ↔
        q.pageLib ≠ [] ∧ ∃ w ∈ q.queryWords str, q.docCount w + 1 ≠ q.pageLib.length) := by
  refine ⟨fun k page hk => unitPage_iff (fun p hp => ?_) h hk, WordQuery.unitQuery_iff htable⟩
  obtain ⟨p₀, hp₀, rfl⟩ := List.mem_map.mp hp
  exact hfresh p₀ hp₀

/-- Two pages with one word each. -/
def catAndDog : List (WebPage Dbl) :=
  [lit "cat", lit "dog"].map fun docContent => { docTitle := [], docUrl := [], docContent }

def catAndDogBuilt : List (WebPage Dbl) := catAndDog.map (WebPage.buildWordMap tokens ∅)

theorem exists_catAndDogIndex :
    ∃ lib, buildInvertIndexTable tokens ∅ ⟨catAndDog, ∅⟩ = some lib ∧
      Posted catAndDogBuilt (entry catAndDogBuilt) lib.invertIndexTable := by
  have hlength : catAndDogBuilt.length < 2 ^ 31 := by decide
  obtain ⟨lib, hlib⟩ := exists_indexPages hlength
  exact ⟨lib, hlib, buildInvertIndexTable_spec (by simp [catAndDog]) hlib⟩

/-- A server with these pages and the index `table`. -/
def catAndDogServer (table : IndexTable Dbl) : WordQuery Dbl where
  cut := tokens
  stopWordList := ∅
  write _ := lit "{}\n"
  pageLib := [⟨lit "cat", lit "cat.org", lit "cat"⟩, ⟨lit "dog", lit "dog.org", lit "dog"⟩]
  invertIndexTable := table

theorem mem_queryWords_cat {table : IndexTable Dbl} {w : Bytes} :
    w ∈ (catAndDogServer table).queryWords (lit "cat") ↔ w = lit "cat" := by
  rw [WordQuery.mem_queryWords]
  show w ∈ tokens (cStr (lit "cat")) ∧ w ∉ (∅ : Std.TreeSet Bytes) ↔ _
  rw [show tokens (cStr (lit "cat")) = [lit "cat"] by decide]
  simp

theorem cat_mem_table {table : IndexTable Dbl}
    (h : Posted catAndDogBuilt (entry catAndDogBuilt) table) :
    ∀ w ∈ (catAndDogServer table).queryWords (lit "cat"), w ∈ table := by
  intro w hw
  rw [mem_queryWords_cat.mp hw, h.mem_iff]
  decide

theorem unit_weights_catAndDog : ∃ (lib : PageLibPreprocessor Dbl) (q : WordQuery Dbl),
    buildInvertIndexTable tokens ∅ ⟨catAndDog, ∅⟩ = some lib ∧
      (∀ k page, catAndDogBuilt[k]? = some page →
        (UnitPage lib k ↔ HasWeight catAndDogBuilt page)) ∧
      (q.UnitQuery (lit "cat") ↔
        q.pageLib ≠ [] ∧ ∃ w ∈ q.queryWords (lit "cat"), q.docCount w + 1 ≠ q.pageLib.length) := by
  obtain ⟨lib, hlib, hposted⟩ := exists_catAndDogIndex
  exact ⟨lib, catAndDogServer lib.invertIndexTable, hlib,
    unit_weights_iff (by simp [catAndDog]) hlib (cat_mem_table hposted)⟩

/-- Each word is in all pages but one, so neither the pages nor the query have a unit vector. -/
theorem not_unit_weights_catAndDog : ∃ lib,
    buildInvertIndexTable tokens ∅ ⟨catAndDog, ∅⟩ = some lib ∧
      (∃ page, catAndDogBuilt[0]? = some page ∧ lit "cat" ∈ page.wordsMap) ∧ ¬ UnitPage lib 0 ∧
      (let q := catAndDogServer lib.invertIndexTable
       lit "cat" ∈ q.queryWords (lit "cat") ∧
        (∀ w ∈ q.queryWords (lit "cat"), w ∈ q.invertIndexTable) ∧ ¬ q.UnitQuery (lit "cat")) := by
  obtain ⟨lib, hlib, hposted⟩ := exists_catAndDogIndex
  have hfreq : docFreq catAndDogBuilt (lit "cat") = 1 := by decide
  have hpage : catAndDogBuilt[0]? = some (WebPage.buildWordMap tokens ∅
      { docTitle := [], docUrl := [], docContent := lit "cat" }) := rfl
  have hcat : ∀ w, w ∈ (WebPage.buildWordMap (F := Dbl) tokens ∅
      { docTitle := [], docUrl := [], docContent := lit "cat" }).wordsMap ↔ w = lit "cat" := by
    intro w
    rw [WebPage.mem_buildWordMap]
    show w ∈ (∅ : Std.TreeMap Bytes ℤ) ∨ w ∈ (tokens (lit "cat")).flatMap tokens ∧
      w ∉ (∅ : Std.TreeSet Bytes) ↔ _
    rw [show (tokens (lit "cat")).flatMap tokens = [lit "cat"] by decide]
    simp
  refine ⟨lib, hlib, ⟨_, hpage, (hcat _).mpr rfl⟩, ?_, mem_queryWords_cat.mpr rfl,
    cat_mem_table hposted, ?_⟩
  · have hfresh : ∀ page ∈ catAndDogBuilt, page.wordW = ∅ := by
      simp [catAndDogBuilt, catAndDog, WebPage.buildWordMap]
    rw [unitPage_iff hfresh hlib hpage]
    rintro ⟨w, tf, hw, -, hdf⟩
    have hmem := Std.TreeMap.mem_iff_isSome_getElem?.mpr (Option.isSome_of_eq_some hw)
    rw [(hcat w).mp hmem, hfreq] at hdf
    exact hdf rfl
  · rw [WordQuery.unitQuery_iff (cat_mem_table hposted)]
    rintro ⟨-, w, hw, hdf⟩
    have hcount : (catAndDogServer lib.invertIndexTable).docCount (lit "cat") = 1 :=
      (hposted.size_getD (lit "cat")).trans hfreq
    rw [mem_queryWords_cat.mp hw, hcount] at hdf
    exact hdf rfl

end SearchServer

import SearchServer.Offline.WebPage

/-!
# Building the inverted index

`PageLibPreprocessor::buildInvertIndexTable` (`offline/PageLibPreprocessor.cc`) makes three passes
over the page library: count the words of every page, list every page under its words, and compute
the weights.

**Theorem (`indexPages_spec`).** The table has the words of the pages; it lists page `d` under a word
exactly when page `d` has the word; and the weight it stores there is the one of `entry`.

The second and the third pass each have an invariant about the pages done so far (`Indexed`,
`Computed`). During the third pass the number of documents of a word does not change, so the
weights of a page do not depend on the pages before it.
-/

namespace SearchServer

variable {F : Type} [DoubleOps F]

open DoubleOps

/-- The members of `PageLibPreprocessor` that the index is built from. -/
structure PageLibPreprocessor (F : Type) where
  pageLib : List (WebPage F)
  invertIndexTable : IndexTable F

namespace PageLibPreprocessor

/-- The pages with their numbers, listed under their words. -/
def indexPass (pages : List (WebPage F)) (table : IndexTable F) : IndexTable F :=
  pages.zipIdx.foldl (fun table page => page.1.getIndexTable table page.2) table

/-- One round of the third loop, for page number `i`. -/
def computeStep (sum : ℤ) (lib : PageLibPreprocessor F) (page : WebPage F × ℕ) :
    PageLibPreprocessor F :=
  let (p, table) := page.1.compute lib.invertIndexTable page.2 sum
  ⟨lib.pageLib ++ [p], table⟩

/-- The second and the third loop. They count the pages with an `int`, which must not overflow. -/
def indexPages (lib : PageLibPreprocessor F) : Option (PageLibPreprocessor F) :=
  if lib.pageLib.length < 2 ^ 31 then
    let table := indexPass lib.pageLib lib.invertIndexTable
    some (lib.pageLib.zipIdx.foldl (computeStep lib.pageLib.length) ⟨[], table⟩)
  else none

def buildInvertIndexTable (cut : Cut) (stopWord : Std.TreeSet Bytes)
    (lib : PageLibPreprocessor F) : Option (PageLibPreprocessor F) :=
  indexPages { lib with pageLib := lib.pageLib.map (WebPage.buildWordMap cut stopWord) }

/-! ## The specification of the index -/

section Spec

omit [DoubleOps F]

def pageAt (pages : List (WebPage F)) (d : ℤ) : Option (WebPage F) :=
  if d < 0 then none else pages[d.toNat]?

theorem pageAt_natCast (pages : List (WebPage F)) (i : ℕ) : pageAt pages i = pages[i]? := by
  rw [pageAt, if_neg (by omega), Int.toNat_natCast]

theorem pageAt_concat (pages : List (WebPage F)) (page : WebPage F) (d : ℤ) :
    pageAt (pages ++ [page]) d = if d = pages.length then some page else pageAt pages d := by
  unfold pageAt
  by_cases hneg : d < 0
  · rw [if_pos hneg, if_neg (by omega), if_pos hneg]
  · rw [if_neg hneg, if_neg hneg, List.getElem?_append]
    rcases lt_trichotomy d.toNat pages.length with h | h | h
    · rw [if_pos h, if_neg (by omega)]
    · rw [if_neg (by omega), if_pos (by omega), h, Nat.sub_self]
      rfl
    · rw [if_neg (by omega), if_neg (by omega), List.getElem?_eq_none (by simp; omega),
        List.getElem?_eq_none (by omega)]

theorem pageAt_eq_none {pages : List (WebPage F)} {d : ℤ} (h : (pages.length : ℤ) ≤ d) :
    pageAt pages d = none := by
  rw [pageAt, if_neg (by omega), List.getElem?_eq_none (by omega)]

def docFreq (pages : List (WebPage F)) (w : Bytes) : ℕ :=
  pages.countP fun page => page.wordsMap.contains w

theorem docFreq_pos {pages : List (WebPage F)} {w : Bytes} :
    0 < docFreq pages w ↔ ∃ page ∈ pages, w ∈ page.wordsMap := by
  simp [docFreq, List.countP_pos_iff]

theorem docFreq_concat (pages : List (WebPage F)) (page : WebPage F) (w : Bytes) :
    docFreq (pages ++ [page]) w = docFreq pages w + if w ∈ page.wordsMap then 1 else 0 := by
  simp [docFreq, List.countP_append, List.countP_cons]

end Spec

/-- The weight of word `w` in page `d`, if the page has the word. -/
def entry (pages : List (WebPage F)) (w : Bytes) (d : ℤ) : Option F :=
  (pageAt pages d).bind fun page => (page.wordsMap[w]?).map fun tf =>
    div (WebPage.weight tf (docFreq pages w) pages.length)
      (WebPage.norm (page.weights (docFreq pages) pages.length))

/-- What is true of the table when its postings are given by `post`: it has the words of the
pages, and lists each with as many documents as have it. -/
structure Posted (pages : List (WebPage F)) (post : Bytes → ℤ → Option F) (table : IndexTable F) :
    Prop where
  mem_iff : ∀ w, w ∈ table ↔ 0 < docFreq pages w
  size_eq : ∀ w m, table[w]? = some m → m.size = docFreq pages w
  posting : ∀ w d, (table[w]?.getD ∅)[d]? = post w d

omit [DoubleOps F] in
theorem Posted.exists_of_mem {pages : List (WebPage F)} {post : Bytes → ℤ → Option F}
    {table : IndexTable F} (h : Posted pages post table) {page : WebPage F} (hp : page ∈ pages)
    {w : Bytes} (hw : w ∈ page.wordsMap) : ∃ m, table[w]? = some m ∧ m.size = docFreq pages w := by
  have hmem := (h.mem_iff w).mpr (docFreq_pos.mpr ⟨page, hp, hw⟩)
  obtain ⟨m, hm⟩ := exists_getElem?_of_mem hmem
  exact ⟨m, hm, h.size_eq w m hm⟩

omit [DoubleOps F] in
/-- A word has as many postings as there are pages with it, also when there are none. -/
theorem Posted.size_getD {pages : List (WebPage F)} {post : Bytes → ℤ → Option F}
    {table : IndexTable F} (h : Posted pages post table) (w : Bytes) :
    (table[w]?.getD ∅).size = docFreq pages w := by
  cases ht : table[w]? with
  | some m => exact h.size_eq w m ht
  | none =>
    have hnone : ¬ 0 < docFreq pages w := by
      rw [← h.mem_iff, Std.TreeMap.mem_iff_isSome_getElem?, ht]
      exact nofun
    rw [Option.getD_none, Std.TreeMap.size_emptyc]
    omega

/-! ## The second pass -/

/-- After the second pass all weights are 0. -/
def Indexed (pages : List (WebPage F)) (table : IndexTable F) : Prop :=
  Posted pages (fun w d => (pageAt pages d).bind fun page =>
    (page.wordsMap[w]?).map fun _ => ofInt 0) table

/-- The number of the next page is not in the postings yet. -/
theorem Indexed.length_not_mem {pages : List (WebPage F)} {table : IndexTable F}
    (h : Indexed pages table) (w : Bytes) : (pages.length : ℤ) ∉ table[w]?.getD ∅ := by
  rw [Std.TreeMap.mem_iff_isSome_getElem?, h.posting, pageAt_eq_none le_rfl]
  simp

theorem Indexed.getIndexTable {pages : List (WebPage F)} {table : IndexTable F}
    (h : Indexed pages table) (page : WebPage F) :
    Indexed (pages ++ [page]) (page.getIndexTable table pages.length) := by
  refine ⟨fun w => ?_, fun w m hm => ?_, fun w d => ?_⟩
  · rw [Std.TreeMap.mem_iff_isSome_getElem?, WebPage.getElem?_getIndexTable, docFreq_concat]
    by_cases hw : w ∈ page.wordsMap
    · simp [hw]
    · rw [if_neg hw, if_neg hw, Nat.add_zero, ← Std.TreeMap.mem_iff_isSome_getElem?, h.mem_iff]
  · rw [WebPage.getElem?_getIndexTable] at hm
    rw [docFreq_concat]
    by_cases hw : w ∈ page.wordsMap
    · rw [if_pos hw] at hm ⊢
      obtain rfl := Option.some.inj hm
      rw [Std.TreeMap.size_insertIfNew, if_neg (by simpa using h.length_not_mem w), h.size_getD]
    · rw [if_neg hw] at hm ⊢
      exact h.size_eq w m hm
  · rw [WebPage.getElem?_getIndexTable]
    have hpost := h.posting w
    by_cases hw : w ∈ page.wordsMap
    · rw [if_pos hw, Option.getD_some, Std.TreeMap.getElem?_insertIfNew, hpost, pageAt_concat]
      obtain ⟨n, hn⟩ := exists_getElem?_of_mem hw
      by_cases hd : d = pages.length
      · subst hd
        simp [h.length_not_mem w, hn]
      · have hne : ¬ compare (pages.length : ℤ) d = .eq := fun heq =>
          hd (Std.compare_eq_iff_eq.mp heq).symm
        simp [hne, hd]
    · have hn : page.wordsMap[w]? = none := by
        rw [Std.TreeMap.mem_iff_isSome_getElem?] at hw
        simpa using hw
      rw [if_neg hw, hpost, pageAt_concat]
      by_cases hd : d = pages.length
      · subst hd
        simp [pageAt_eq_none, hn]
      · rw [if_neg hd]

theorem indexed_indexPass (pages : List (WebPage F)) : Indexed pages (indexPass pages ∅) := by
  induction pages using List.reverseRecOn with
  | nil => exact ⟨fun w => by simp [indexPass, docFreq], fun w m hm => by simp [indexPass] at hm,
      fun w d => by simp [indexPass, pageAt]⟩
  | append_singleton pages page ih =>
    have hstep : indexPass (pages ++ [page]) ∅ =
        page.getIndexTable (indexPass pages ∅) pages.length := by
      simp [indexPass, List.zipIdx_append]
    rw [hstep]
    exact ih.getIndexTable page

/-! ## The third pass -/

/-- When the first `k` pages are done, their weights are the final ones and the others 0. -/
def Computed (pages : List (WebPage F)) (k : ℕ) (table : IndexTable F) : Prop :=
  Posted pages (fun w d => if d < k then entry pages w d else
    (pageAt pages d).bind fun page => (page.wordsMap[w]?).map fun _ => ofInt 0) table

/-- The page after `compute`. -/
def withWeights (pages : List (WebPage F)) (page : WebPage F) : WebPage F :=
  { page with
    wordW := page.weights (docFreq pages) pages.length
    avgW := some (WebPage.norm (page.weights (docFreq pages) pages.length)) }

theorem Computed.compute_eq {pages : List (WebPage F)} {k : ℕ} {table : IndexTable F}
    (h : Computed pages k table) {page : WebPage F} (hk : pages[k]? = some page) :
    page.compute table k pages.length =
      (withWeights pages page, WebPage.storeW (page.weights (docFreq pages) pages.length)
        (WebPage.norm (page.weights (docFreq pages) pages.length)) table k) := by
  unfold WebPage.compute
  rw [WebPage.computeW_eq _ fun w hw => h.exists_of_mem (List.mem_of_getElem? hk) hw]
  rfl

/-- In round `k` the page is listed under all words that have a weight. -/
theorem Computed.lists_weights {pages : List (WebPage F)} {k : ℕ} {table : IndexTable F}
    (h : Computed pages k table) {page : WebPage F} (hk : pages[k]? = some page)
    (hfresh : page.wordW = ∅) :
    ∀ w ∈ page.weights (docFreq pages) pages.length, (k : ℤ) ∈ table[w]?.getD ∅ := by
  intro w hw
  rw [Std.TreeMap.mem_iff_isSome_getElem?, WebPage.getElem?_weights, hfresh] at hw
  rw [Std.TreeMap.mem_iff_isSome_getElem?, h.posting, if_neg (by omega), pageAt_natCast, hk]
  cases htf : page.wordsMap[w]? with
  | none => simp [htf] at hw
  | some tf => simp [htf]

/-- What `compute` does to the postings of a word. -/
theorem Computed.getElem?_compute {pages : List (WebPage F)} {k : ℕ} {table : IndexTable F}
    (h : Computed pages k table) {page : WebPage F} (hk : pages[k]? = some page)
    (hfresh : page.wordW = ∅) (w : Bytes) :
    (page.compute table k pages.length).2[w]? =
      (page.wordsMap[w]?).elim table[w]? fun tf =>
        some ((table[w]?.getD (∅ : Postings F)).insert (k : ℤ)
          (div (WebPage.weight tf (docFreq pages w) pages.length)
            (WebPage.norm (page.weights (docFreq pages) pages.length)))) := by
  rw [h.compute_eq hk, WebPage.getElem?_storeW, WebPage.getElem?_weights, hfresh]
  cases htf : page.wordsMap[w]? with
  | none => simp
  | some tf =>
    have hin : (k : ℤ) ∈ table[w]?.getD ∅ := h.lists_weights hk hfresh w (by
      simp [Std.TreeMap.mem_iff_isSome_getElem?, WebPage.getElem?_weights, htf])
    simp [hin]

theorem Computed.compute {pages : List (WebPage F)} {k : ℕ} {table : IndexTable F}
    (h : Computed pages k table) {page : WebPage F} (hk : pages[k]? = some page)
    (hfresh : page.wordW = ∅) :
    Computed pages (k + 1) (page.compute table k pages.length).2 := by
  have hmem : page ∈ pages := List.mem_of_getElem? hk
  have hget := h.getElem?_compute hk hfresh
  refine ⟨fun w => ?_, fun w m hm => ?_, fun w d => ?_⟩
  · rw [← h.mem_iff, Std.TreeMap.mem_iff_isSome_getElem?, Std.TreeMap.mem_iff_isSome_getElem?, hget]
    cases htf : page.wordsMap[w]? with
    | none => rfl
    | some tf =>
      obtain ⟨m, hm, -⟩ := h.exists_of_mem hmem (w := w)
        (Std.TreeMap.mem_iff_isSome_getElem?.mpr (by rw [htf]; rfl))
      simp [hm]
  · rw [hget] at hm
    cases htf : page.wordsMap[w]? with
    | none =>
      rw [htf] at hm
      exact h.size_eq w m hm
    | some tf =>
      obtain ⟨m₀, hm₀, hsize⟩ := h.exists_of_mem hmem (w := w)
        (Std.TreeMap.mem_iff_isSome_getElem?.mpr (by rw [htf]; rfl))
      rw [htf, hm₀] at hm
      obtain rfl := Option.some.inj hm
      rw [Option.getD_some, size_insert_of_mem, hsize]
      have hpost := h.posting w k
      rw [hm₀, if_neg (by omega), pageAt_natCast, hk] at hpost
      rw [Std.TreeMap.mem_iff_isSome_getElem?, show m₀[(k : ℤ)]? = _ from hpost]
      simp [htf]
  · rw [hget]
    have hpost := h.posting w d
    by_cases hd : d = k
    · subst hd
      rw [if_pos (by omega), entry, pageAt_natCast, hk]
      cases htf : page.wordsMap[w]? with
      | none =>
        rw [if_neg (by omega), pageAt_natCast, hk] at hpost
        simpa [htf] using hpost
      | some tf => simp [htf]
    · have hiff : d < ((k + 1 : ℕ) : ℤ) ↔ d < k := by omega
      simp only [hiff]
      rw [← hpost]
      cases htf : page.wordsMap[w]? with
      | none => rfl
      | some tf =>
        simp [getElem?_insert_ne hd]

theorem Indexed.computed {pages : List (WebPage F)} {table : IndexTable F}
    (h : Indexed pages table) : Computed pages 0 table := by
  refine ⟨h.mem_iff, h.size_eq, fun w d => ?_⟩
  rw [h.posting]
  by_cases hd : d < (0 : ℕ)
  · rw [if_pos hd, entry, pageAt, if_pos (by omega)]
    rfl
  · rw [if_neg hd]

/-- The library before page `k` is done, and the table. -/
def beforeCompute (pages : List (WebPage F)) (k : ℕ) : PageLibPreprocessor F :=
  (pages.zipIdx.take k).foldl (computeStep pages.length) ⟨[], indexPass pages ∅⟩

theorem beforeCompute_succ {pages : List (WebPage F)} {k : ℕ} {page : WebPage F}
    (hk : pages[k]? = some page) :
    beforeCompute pages (k + 1) = computeStep pages.length (beforeCompute pages k) (page, k) := by
  have hget : pages.zipIdx[k]? = some (page, k) := by simp [List.getElem?_zipIdx, hk]
  rw [beforeCompute, List.take_add_one, hget]
  exact List.foldl_concat ..

/-- The third pass, up to page `k`. -/
theorem computed_beforeCompute {pages : List (WebPage F)} (hfresh : ∀ page ∈ pages, page.wordW = ∅)
    {k : ℕ} (hk : k ≤ pages.length) :
    Computed pages k (beforeCompute pages k).invertIndexTable ∧
      (beforeCompute pages k).pageLib = (pages.take k).map (withWeights pages) := by
  induction k with
  | zero => exact ⟨(indexed_indexPass pages).computed, rfl⟩
  | succ k ih =>
    obtain ⟨hcomp, hlib⟩ := ih (by omega)
    obtain ⟨page, hpage⟩ : ∃ page, pages[k]? = some page := ⟨_, List.getElem?_eq_getElem hk⟩
    have hmem : page ∈ pages := List.mem_of_getElem? hpage
    have hstep := hcomp.compute_eq hpage
    rw [beforeCompute_succ hpage]
    refine ⟨hcomp.compute hpage (hfresh page hmem), ?_⟩
    rw [computeStep, hstep, List.take_add_one, hpage, List.map_append, ← hlib]
    rfl

/-- What the second and the third loop leave. -/
theorem eq_beforeCompute {pages : List (WebPage F)} {lib : PageLibPreprocessor F}
    (h : indexPages ⟨pages, ∅⟩ = some lib) : lib = beforeCompute pages pages.length := by
  obtain ⟨-, h⟩ := Option.ite_none_right_eq_some.mp h
  rw [beforeCompute, List.take_of_length_le (by simp)]
  exact (Option.some.inj h).symm

/-- **The index.** Built from pages whose weights are not computed yet, the table has the words of
the pages, and under each word the pages that have it, with the weights of `entry`. -/
theorem indexPages_spec {pages : List (WebPage F)} (hfresh : ∀ page ∈ pages, page.wordW = ∅)
    {lib : PageLibPreprocessor F} (h : indexPages ⟨pages, ∅⟩ = some lib) :
    Posted pages (entry pages) lib.invertIndexTable := by
  have hfinal := (computed_beforeCompute hfresh le_rfl).1
  rw [← eq_beforeCompute h] at hfinal
  refine ⟨hfinal.mem_iff, hfinal.size_eq, fun w d => ?_⟩
  refine (hfinal.posting w d).trans ?_
  by_cases hd : d < pages.length
  · exact if_pos hd
  · rw [if_neg hd, entry, pageAt_eq_none (by omega)]
    rfl

/-- The pages get their weights, and nothing else changes in them. -/
theorem indexPages_pageLib {pages : List (WebPage F)} (hfresh : ∀ page ∈ pages, page.wordW = ∅)
    {lib : PageLibPreprocessor F} (h : indexPages ⟨pages, ∅⟩ = some lib) :
    lib.pageLib = pages.map (withWeights pages) := by
  rw [eq_beforeCompute h, (computed_beforeCompute hfresh le_rfl).2, List.take_length]

theorem exists_indexPages {pages : List (WebPage F)} (h : pages.length < 2 ^ 31) :
    ∃ lib, indexPages ⟨pages, ∅⟩ = some lib := ⟨_, if_pos h⟩

theorem buildInvertIndexTable_spec {cut : Cut} {stopWord : Std.TreeSet Bytes}
    {pages : List (WebPage F)} (hfresh : ∀ page ∈ pages, page.wordW = ∅)
    {lib : PageLibPreprocessor F}
    (h : buildInvertIndexTable cut stopWord ⟨pages, ∅⟩ = some lib) :
    let built := pages.map (WebPage.buildWordMap cut stopWord)
    Posted built (entry built) lib.invertIndexTable := by
  refine indexPages_spec (fun page hpage => ?_) h
  obtain ⟨p, hp, rfl⟩ := List.mem_map.mp hpage
  exact hfresh p hp

/-- The weights stored under a document, by word. -/
def storedUnder (table : IndexTable F) (d : ℤ) : Std.TreeMap Bytes F :=
  table.filterMap fun _ m => m[d]?

omit [DoubleOps F] in
theorem getElem?_storedUnder (table : IndexTable F) (d : ℤ) (w : Bytes) :
    (storedUnder table d)[w]? = (table[w]?.getD ∅)[d]? := by
  rw [storedUnder, Std.TreeMap.getElem?_filterMap']
  cases table[w]? with
  | none => simp
  | some m => rfl

/-- The index lists page `d` under a word exactly when page `d` has the word. -/
theorem Posted.lists_iff {pages : List (WebPage F)} {table : IndexTable F}
    (h : Posted pages (entry pages) table) {w : Bytes} {d : ℤ} :
    table.Lists w d ↔ ∃ page, pageAt pages d = some page ∧ w ∈ page.wordsMap := by
  rw [IndexTable.lists_iff, h.posting, entry]
  cases hd : pageAt pages d with
  | none => simp
  | some page => simp

end PageLibPreprocessor

end SearchServer

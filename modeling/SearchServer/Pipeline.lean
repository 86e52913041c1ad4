import SearchServer.IndexFile
import SearchServer.Offline.Redundancy
import SearchServer.Process.Answers
import SearchServer.Segment.Jieba
import SearchServer.Segmentation
import SearchServer.StoredPages

/-!
# From the feeds to the answers

The offline program (`offline/PageLibPreprocessor.cc`) makes pages of the feeds, removes redundant
ones, builds the index and writes three files. The server (`process/WordQuery.cc`) loads the files and
answers queries. Both use the same segmenter and the same stop words.

* `loadLibrary_ok`: the server has the pages that were kept, and an index with the same documents.

**Theorem (`answer_of_process`).** A query that has a word outside the stop list is answered with the
pages of the feeds that were kept and have all its words, as the offline program counts the words of a
page; of these the first 51 are shown, with the title, the url and the content of their items. If
there are none, the answer says so.

What the programs need for this is in the hypotheses: the server's buffer has a NUL behind the longest
record, the fields of a page survive the page file, and no page has only words without weight.
-/

namespace SearchServer

open PageLibPreprocessor WordQuery

/-! ## The offline program -/

structure LibraryFiles extends PageFiles where
  index : Bytes

/-- `PageLibPreprocessor::doProcess`: `kept` are the pages after `cutRedundantPages`. The order in which
the `unordered_map` of the index is traversed, and the sign of a weight that is no number, are not
specified. -/
def DoProcess (cut : Cut) (stopWord : Std.TreeSet Bytes) (make : Bytes → UInt64) (feeds : List Feed)
    (kept : List (WebPage Dbl)) (files : LibraryFiles) : Prop :=
  ∃ (pages : List (WebPage Dbl)) (lib : PageLibPreprocessor Dbl)
    (entries : List (Bytes × Postings Dbl)) (sign : Bytes → ℤ → Bool),
    buildWeblib feeds = .ok pages ∧ CutRedundantPages make pages kept ∧
      buildInvertIndexTable cut stopWord ⟨kept, ∅⟩ = some lib ∧
      storePages lib.pageLib = some files.toPageFiles ∧
      entries.Perm lib.invertIndexTable.toList ∧
      files.index = storeIndex (fun w => put (sign w)) entries

def builtPages (cut : Cut) (stopWord : Std.TreeSet Bytes) (kept : List (WebPage Dbl)) :
    List (WebPage Dbl) := kept.map (WebPage.buildWordMap cut stopWord)

/-! ## The server -/

section

variable {F : Type}

/-- The weights are rounded to `double` as they are read. -/
def roundTable (round : ℚ → F) (table : IndexTable ℚ) : IndexTable F :=
  table.map fun _ m => m.map fun _ w => round w

/-- `WordQuery::loadLibrary`, where `buf` is what the local buffer holds before. -/
def loadLibrary (cut : Cut) (stopWord : Std.TreeSet Bytes) (write : Json → Bytes) (round : ℚ → F)
    (buf : Bytes) (files : LibraryFiles) : Except LoadError (WordQuery F) := do
  let loads ← loadPages buf files.pages (readOffsets files.offsets.length files.offsets)
  return ⟨cut, stopWord, write, loads.map Prod.snd, roundTable round (loadIndex files.index)⟩

theorem getElem?_roundTable (round : ℚ → F) (table : IndexTable ℚ) (w : Bytes) :
    (roundTable round table)[w]? = (table[w]?).map fun m => m.map fun _ w => round w := by
  rw [roundTable, Std.TreeMap.getElem?_map]

theorem sameDocs_roundTable (round : ℚ → F) (table : IndexTable ℚ) :
    (roundTable round table).SameDocs table := by
  refine ⟨fun w => ?_, fun w d => ?_⟩
  · rw [Std.TreeMap.mem_iff_isSome_getElem?, getElem?_roundTable, Option.isSome_map,
      Std.TreeMap.mem_iff_isSome_getElem?]
  · rw [IndexTable.lists_iff, IndexTable.lists_iff, getElem?_roundTable]
    cases table[w]? with
    | none => simp
    | some m => simp

/-! ## The pages -/

/-- The fields of the page survive the page file, where it has the number `docId`. -/
def WebPage.Intact (page : WebPage F) (docId : ℤ) : Prop :=
  FieldIntact urlMarker [] (beforeUrl docId) page.docUrl ∧
    FieldIntact titleMarker [page.docUrl] (page.beforeTitle docId) page.docTitle ∧
    FieldIntact contentMarker [page.docUrl, page.docTitle] (page.beforeContent docId)
      page.docContent

def WebPage.onWeb (page : WebPage F) : OnWebPage := ⟨page.docTitle, page.docUrl, page.docContent⟩

/-- The server finds the fields in a text that starts with the record. -/
theorem loadPage_of_prefix {page : WebPage F} {docId : ℤ} (h : page.Intact docId) {text : Bytes}
    (htext : page.getDoct docId <+: text) : loadPage text = some page.onWeb := by
  obtain ⟨hurl, htitle, hcontent⟩ := h
  obtain ⟨rest, rfl⟩ := htext
  obtain ⟨ru, hru⟩ := page.getDoct_eq_url docId
  obtain ⟨rt, hrt⟩ := page.getDoct_eq_title docId
  have hurlField : field urlMarker (page.getDoct docId ++ rest) = some page.docUrl := by
    rw [hru]
    simp only [List.append_assoc]
    exact (field_eq_some_iff_intact (by decide) (by simpa using urlMarker_not_infix docId)).mpr hurl
  have htitleField : field titleMarker (page.getDoct docId ++ rest) = some page.docTitle := by
    rw [hrt]
    simp only [List.append_assoc]
    exact (field_eq_some_iff_intact (by decide)
      (by simpa using titleMarker_infix_iff page docId)).mpr htitle
  have hcontentField : field contentMarker (page.getDoct docId ++ rest) = some page.docContent := by
    rw [page.getDoct_eq docId]
    simp only [List.append_assoc]
    exact (field_eq_some_iff_intact (by decide)
      (by simpa using contentMarker_infix_iff page docId)).mpr hcontent
  rw [loadPage, hurlField, htitleField, hcontentField]
  rfl

/-- Every page that is loaded is the page of its text. -/
theorem loadPage_of_loadPages {buf pageis : Bytes} {offsets : List (ℤ × ℤ × ℤ)}
    {loads : List (Bytes × OnWebPage)} (h : loadPages buf pageis offsets = .ok loads) :
    ∀ load ∈ loads, loadPage load.1 = some load.2 := by
  induction offsets generalizing buf pageis loads with
  | nil =>
    obtain rfl := Except.ok.inj h
    simp
  | cons offset offsets ih =>
    obtain ⟨text, -, h⟩ := bind_eq_ok.mp h
    obtain ⟨page, hpage, h⟩ := bind_eq_ok.mp h
    obtain ⟨pages, hpages, h⟩ := bind_eq_ok.mp h
    obtain rfl := Except.ok.inj h
    refine List.forall_mem_cons.mpr ⟨?_, ih hpages⟩
    unfold loadText at hpage
    split at hpage
    · rename_i hload
      rw [← Except.ok.inj hpage]
      exact hload
    · cases hpage

/-- The pages that the server loads, when it reads the records. -/
theorem pages_of_loads {pages : List (WebPage F)} {i : ℕ} {loads : List (Bytes × OnWebPage)}
    (hintact : ∀ (j : ℕ) (page : WebPage F), pages[j]? = some page → page.Intact ((i + j : ℕ) : ℤ))
    (hloads : ∀ load ∈ loads, loadPage load.1 = some load.2)
    (hall : List.Forall₂ (fun r load => r <+: load.1)
      ((pages.zipIdx i).map fun page => page.1.getDoct page.2) loads) :
    loads.map Prod.snd = pages.map WebPage.onWeb := by
  induction pages generalizing i loads with
  | nil =>
    obtain rfl := List.forall₂_nil_left_iff.mp hall
    rfl
  | cons page pages ih =>
    rw [List.zipIdx_cons, List.map_cons] at hall
    obtain ⟨load, rest, hprefix, hrest, rfl⟩ := List.forall₂_cons_left_iff.mp hall
    obtain ⟨hload, hloads⟩ := List.forall_mem_cons.mp hloads
    have hpage : loadPage load.1 = some page.onWeb := loadPage_of_prefix (hintact 0 page rfl) hprefix
    rw [List.map_cons, List.map_cons]
    congr 1
    · exact Option.some.inj (hload.symm.trans hpage)
    · refine ih (i := i + 1) (fun j p hp => ?_) hloads hrest
      have hnext := hintact (j + 1) p hp
      rwa [show i + (j + 1) = i + 1 + j by omega] at hnext

theorem fresh_of_buildWeblib {feeds : List Feed} {pages : List (WebPage F)}
    (h : buildWeblib feeds = .ok pages) {page : WebPage F} (hp : page ∈ pages) :
    page.wordsMap = ∅ ∧ page.wordW = ∅ := by
  obtain ⟨results, hresults, h⟩ := bind_eq_ok.mp h
  obtain rfl := Except.ok.inj h
  obtain ⟨node, -, hnode⟩ := exists_of_mem_mapM hresults _ (List.reduceOption_mem_iff.mp hp)
  obtain ⟨titleText, -, hnode⟩ := bind_eq_ok.mp hnode
  obtain ⟨descriptionText, -, hnode⟩ := bind_eq_ok.mp hnode
  obtain ⟨linkText, -, hnode⟩ := bind_eq_ok.mp hnode
  obtain ⟨url, -, rfl⟩ := Option.map_eq_some_iff.mp (Except.ok.inj hnode)
  exact ⟨rfl, rfl⟩

theorem mem_of_cutRedundantPages {make : Bytes → UInt64} {pages kept : List (WebPage F)}
    (h : CutRedundantPages make pages kept) {page : WebPage F} (hp : page ∈ kept) :
    ∃ p ∈ pages, p.buildU64 make = page := by
  obtain ⟨sorted, hperm, -, rfl⟩ := h
  exact List.mem_map.mp (hperm.mem_iff.mp ((List.destutter_sublist _ _).subset hp))

theorem nul_not_mem_getDoct {page : WebPage F} (h : page.Clean) (docId : ℤ) :
    NUL ∉ page.getDoct docId := by
  have hdecimal : NUL ∉ decimal docId := by
    intro hmem
    rcases mem_decimal hmem with hmem | hmem <;> cases hmem
  simp only [WebPage.getDoct, List.mem_append, not_or, h.title, h.url, h.content, hdecimal,
    not_false_eq_true, and_true]
  decide

end

/-! ## Loading the library -/

/-- The library of the server: the pages that were kept, and an index that lists each of them under
its words. -/
structure Serves {F : Type} (q : WordQuery F) (cut : Cut) (stopWord : Std.TreeSet Bytes)
    (kept : List (WebPage Dbl)) : Prop where
  cut_eq : q.cut = cut
  stopWordList_eq : q.stopWordList = stopWord
  pageLib_eq : q.pageLib = kept.map WebPage.onWeb
  mem_iff : ∀ w, w ∈ q.invertIndexTable ↔
    ∃ page ∈ kept, w ∈ offlineWords cut page.docContent ∧ w ∉ stopWord
  lists_iff : ∀ w d, q.invertIndexTable.Lists w d ↔
    ∃ page, pageAt kept d = some page ∧ w ∈ offlineWords cut page.docContent ∧ w ∉ stopWord

/-- What the server needs of the library, and of its buffer. -/
structure Loadable (cut : Cut) (stopWord : Std.TreeSet Bytes) (kept : List (WebPage Dbl))
    (files : LibraryFiles) (buf : Bytes) : Prop where
  size : files.pages.length < 2 ^ 31
  buffer : buf.length = bufSize
  /-- The buffer has a NUL behind the longest record. -/
  room : kept ≠ [] → ∃ k, (∀ r ∈ records kept, r.length ≤ k) ∧ buf[k]? = some NUL
  intact : ∀ (i : ℕ) (page : WebPage Dbl), kept[i]? = some page → page.Intact i
  weight : ∀ page ∈ builtPages cut stopWord kept, ∀ w ∈ page.wordsMap,
    HasWeight (builtPages cut stopWord kept) page

/-- What the segmenter returns are parts of the text. -/
def CutsParts (cut : Cut) : Prop := ∀ s, ∀ w ∈ cut s, w ≠ [] ∧ w <:+: s

variable {cut : Cut} {stopWord : Std.TreeSet Bytes} {make : Bytes → UInt64} {feeds : List Feed}
  {kept : List (WebPage Dbl)} {files : LibraryFiles} {buf : Bytes}

/-- The words of a page have no whitespace. -/
theorem word_of_offlineWords (hcut : CutsParts cut) {text w : Bytes}
    (hw : w ∈ offlineWords cut text) : w ≠ [] ∧ ∀ c ∈ w, isspace c = false := by
  obtain ⟨t, ht, hwt⟩ := List.mem_flatMap.mp hw
  obtain ⟨hne, hpart⟩ := hcut t w hwt
  exact ⟨hne, fun c hc => isspace_of_mem_tokens ht (hpart.subset hc)⟩

theorem mem_builtPage {page : WebPage Dbl} (hfresh : page.wordsMap = ∅) {w : Bytes} :
    w ∈ (page.buildWordMap cut stopWord).wordsMap ↔
      w ∈ offlineWords cut page.docContent ∧ w ∉ stopWord := by
  rw [WebPage.mem_buildWordMap, hfresh, offlineWords]
  simp

theorem pageAt_builtPages (d : ℤ) : pageAt (builtPages cut stopWord kept) d =
    (pageAt kept d).map (WebPage.buildWordMap cut stopWord) := by
  unfold pageAt builtPages
  split_ifs
  · rfl
  · rw [List.getElem?_map]

/-- The pages that were kept are pages of the feeds, with no words yet. -/
theorem kept_clean {pages : List (WebPage Dbl)} (hfeeds : buildWeblib feeds = .ok pages)
    (hkept : CutRedundantPages make pages kept) {page : WebPage Dbl} (hpage : page ∈ kept) :
    page.Clean ∧ page.wordsMap = ∅ ∧ page.wordW = ∅ := by
  obtain ⟨p, hp, rfl⟩ := mem_of_cutRedundantPages hkept hpage
  obtain ⟨htitle, hurl, hcontent, htags⟩ := buildWeblib_clean hfeeds p hp
  obtain ⟨hwords, hweights⟩ := fresh_of_buildWeblib hfeeds hp
  exact ⟨⟨htitle, hurl, hcontent, htags⟩, hwords, hweights⟩

section

variable {lib : PageLibPreprocessor Dbl}
  (hclean : ∀ page ∈ kept, page.Clean ∧ page.wordsMap = ∅ ∧ page.wordW = ∅)
  (hbuild : buildInvertIndexTable cut stopWord ⟨kept, ∅⟩ = some lib)

include hclean hbuild

theorem loadPages_of_store (hstore : storePages lib.pageLib = some files.toPageFiles)
    (hload : Loadable cut stopWord kept files buf) :
    ∃ loads, loadPages buf files.pages (readOffsets files.offsets.length files.offsets) =
      .ok loads ∧ loads.map Prod.snd = kept.map WebPage.onWeb := by
  have hrecords : records lib.pageLib = records kept :=
    records_of_build (fun page hp => (hclean page hp).2.2) hbuild
  obtain ⟨hcount, hpages, hoffsets⟩ := storePages_eq hstore
  have hlen : ∀ r ∈ records lib.pageLib, r.length < 2 ^ 31 := by
    intro r hr
    have hsize := hload.size
    rw [hpages] at hsize
    exact (List.sublist_flatten_of_mem hr).length_le.trans_lt hsize
  have hroom : RoomBehind buf (records lib.pageLib) := by
    rw [hrecords]
    refine ⟨fun r hr => ?_, fun hne => hload.room fun hnil => hne (by rw [hnil]; rfl)⟩
    obtain ⟨p, hp, rfl⟩ := List.mem_map.mp hr
    exact nul_not_mem_getDoct (hclean p.1 (List.fst_mem_of_mem_zipIdx hp)).1 _
  obtain ⟨loads, hloads, hall⟩ :=
    (loads_iff _ 0 0 hload.buffer hlen hasMarkers_records).mpr hroom
  have hread : readOffsets files.offsets.length files.offsets =
      offsetsOf 0 0 (records lib.pageLib) := by
    have hnum : (records lib.pageLib).length = lib.pageLib.length := by simp [records]
    rw [hoffsets]
    exact readOffsets_offsetLines _ (by omega) (length_le_offsetLines _ 0 0)
  rw [hrecords] at hall
  refine ⟨loads, by rw [hpages, hread, hloads], ?_⟩
  exact pages_of_loads (i := 0) (fun j page hj => by rw [Nat.zero_add]; exact hload.intact j page hj)
    (loadPage_of_loadPages hloads) hall

theorem loadIndex_of_store (hcut : CutsParts cut)
    (hweight : ∀ page ∈ builtPages cut stopWord kept, ∀ w ∈ page.wordsMap,
      HasWeight (builtPages cut stopWord kept) page)
    {entries : List (Bytes × Postings Dbl)} (hperm : entries.Perm lib.invertIndexTable.toList)
    (sign : Bytes → ℤ → Bool) :
    let table := loadIndex (storeIndex (fun w => put (sign w)) entries)
    (∀ w, w ∈ table ↔ ∃ page ∈ kept, w ∈ offlineWords cut page.docContent ∧ w ∉ stopWord) ∧
      ∀ w d, table.Lists w d ↔ ∃ page, pageAt kept d = some page ∧
        w ∈ offlineWords cut page.docContent ∧ w ∉ stopWord := by
  intro table
  have hbuilt : ∀ page ∈ builtPages cut stopWord kept, page.wordW = ∅ ∧
      ∀ w ∈ page.wordsMap, w ≠ [] ∧ ∀ c ∈ w, isspace c = false := by
    intro page hpage
    obtain ⟨p, hp, rfl⟩ := List.mem_map.mp hpage
    refine ⟨(hclean p hp).2.2, fun w hw => ?_⟩
    exact word_of_offlineWords hcut ((mem_builtPage (hclean p hp).2.1).mp hw).1
  have hposted : Posted (builtPages cut stopWord kept) (entry (builtPages cut stopWord kept))
      lib.invertIndexTable := buildInvertIndexTable_spec (fun page hp => (hclean page hp).2.2) hbuild
  have hshort : (builtPages cut stopWord kept).length < 2 ^ 31 :=
    (Option.ite_none_right_eq_some.mp hbuild).1
  have hsame : table.SameDocs lib.invertIndexTable :=
    sameDocs_of_hasWeight (fun page hp => (hbuilt page hp).1) (fun page hp => (hbuilt page hp).2)
      hposted hshort hweight hperm sign
  refine ⟨fun w => ?_, fun w d => ?_⟩
  · rw [hsame.1 w, hposted.mem_iff, docFreq_pos]
    constructor
    · intro h
      obtain ⟨page, hpage, hw⟩ := h
      obtain ⟨p, hp, rfl⟩ := List.mem_map.mp hpage
      exact ⟨p, hp, (mem_builtPage (hclean p hp).2.1).mp hw⟩
    · intro h
      obtain ⟨p, hp, hw⟩ := h
      exact ⟨_, List.mem_map_of_mem hp, (mem_builtPage (hclean p hp).2.1).mpr hw⟩
  · rw [hsame.2 w d, hposted.lists_iff, pageAt_builtPages]
    have hmem : ∀ p, pageAt kept d = some p → p ∈ kept := by
      intro p hp
      rw [pageAt, Option.ite_none_left_eq_some] at hp
      exact List.mem_of_getElem? hp.2
    constructor
    · intro h
      obtain ⟨page, hpage, hw⟩ := h
      obtain ⟨p, hp, rfl⟩ := Option.map_eq_some_iff.mp hpage
      exact ⟨p, hp, (mem_builtPage (hclean p (hmem p hp)).2.1).mp hw⟩
    · intro h
      obtain ⟨p, hp, hw⟩ := h
      exact ⟨_, by rw [hp]; rfl, (mem_builtPage (hclean p (hmem p hp)).2.1).mpr hw⟩

end

/-- **Loading the library.** -/
theorem loadLibrary_ok {F : Type} (write : Json → Bytes) (round : ℚ → F) (hcut : CutsParts cut)
    (h : DoProcess cut stopWord make feeds kept files)
    (hload : Loadable cut stopWord kept files buf) :
    ∃ q, loadLibrary cut stopWord write round buf files = .ok q ∧
      Serves q cut stopWord kept ∧ q.write = write := by
  obtain ⟨pages, lib, entries, sign, hfeeds, hkept, hbuild, hstore, hperm, hindex⟩ := h
  have hclean : ∀ page ∈ kept, page.Clean ∧ page.wordsMap = ∅ ∧ page.wordW = ∅ :=
    fun page hp => kept_clean hfeeds hkept hp
  obtain ⟨loads, hloads, honWeb⟩ := loadPages_of_store hclean hbuild hstore hload
  obtain ⟨hmem, hlists⟩ := loadIndex_of_store hclean hbuild hcut hload.weight hperm sign
  have hround := sameDocs_roundTable round (loadIndex files.index)
  rw [← hindex] at hmem hlists
  refine ⟨⟨cut, stopWord, write, loads.map Prod.snd, roundTable round (loadIndex files.index)⟩, ?_,
    ⟨rfl, rfl, honWeb, fun w => (hround.1 w).trans (hmem w),
      fun w d => (hround.2 w d).trans (hlists w d)⟩, rfl⟩
  rw [loadLibrary, hloads]
  rfl

/-! ## The answers -/

/-- The page has all words of the query. -/
def Matches (cut : Cut) (stopWord : Std.TreeSet Bytes) (str : Bytes) (page : WebPage Dbl) : Prop :=
  ∀ w ∈ cut (cStr str), w ∉ stopWord → w ∈ offlineWords cut page.docContent

section

variable {F : Type} [DoubleOps F] {q : WordQuery F}

omit [DoubleOps F] in
theorem Serves.pagesAt_eq (h : Serves q cut stopWord kept) (docs : List ℕ) :
    q.pagesAt docs = (docs.filterMap (kept[·]?)).map WebPage.onWeb := by
  rw [WordQuery.pagesAt, h.pageLib_eq, List.map_filterMap]
  exact List.filterMap_congr fun d _ => List.getElem?_map

/-- **The answers of a server** with this library. -/
theorem Serves.answer (h : Serves q cut stopWord kept) {str : Bytes}
    (hword : ∃ w ∈ cut (cStr str), w ∉ stopWord) :
    ∃ docs : List ℕ, docs.Nodup ∧
      (∀ i, i ∈ docs ↔ ∃ page, kept[i]? = some page ∧ Matches cut stopWord str page) ∧
      q.answer str = .ok (if docs = [] then q.returnNoAnswer
        else q.write (filesJson (((docs.take 51).filterMap (kept[·]?)).map fun page =>
          fileJson (q.queryWords str) page.onWeb)), q.invertIndexTable) := by
  have hmem : ∀ w, w ∈ q.queryWords str ↔ w ∈ cut (cStr str) ∧ w ∉ stopWord := by
    intro w
    rw [WordQuery.mem_queryWords, h.cut_eq, h.stopWordList_eq]
  obtain ⟨w₀, hw₀, hnot₀⟩ := hword
  have hne : q.queryWords str ≠ [] := List.ne_nil_of_mem ((hmem w₀).mpr ⟨hw₀, hnot₀⟩)
  have hindex : ∀ w d, q.invertIndexTable.Lists w d → 0 ≤ d ∧ d < q.pageLib.length := by
    intro w d hd
    obtain ⟨page, hpage, -⟩ := (h.lists_iff w d).mp hd
    rw [pageAt, Option.ite_none_left_eq_some] at hpage
    have hlt := (List.getElem?_eq_some_iff.mp hpage.2).1
    rw [h.pageLib_eq, List.length_map]
    omega
  obtain ⟨docs, hnodup, hdocs, hanswer⟩ := answer_eq hne hindex
  refine ⟨docs, hnodup, fun i => ?_, ?_⟩
  · rw [hdocs]
    constructor
    · intro hall
      obtain ⟨page, hpage, -⟩ := (h.lists_iff w₀ i).mp (hall w₀ ((hmem w₀).mpr ⟨hw₀, hnot₀⟩))
      refine ⟨page, (pageAt_natCast kept i).symm.trans hpage, fun w hw hnot => ?_⟩
      obtain ⟨page', hpage', hw', -⟩ := (h.lists_iff w i).mp (hall w ((hmem w).mpr ⟨hw, hnot⟩))
      rwa [Option.some.inj (hpage.symm.trans hpage')]
    · intro hpage w hw
      obtain ⟨page, hpage, hmatches⟩ := hpage
      obtain ⟨hw, hnot⟩ := (hmem w).mp hw
      exact (h.lists_iff w i).mpr
        ⟨page, (pageAt_natCast kept i).trans hpage, hmatches w hw hnot, hnot⟩
  · rw [hanswer, h.pagesAt_eq, List.map_map]
    rfl

end

namespace Jieba

/-- The words of a text are parts of it. -/
theorem cutsParts {G : Type} [DoubleOps G] (jieba : Jieba G) : CutsParts jieba.words := by
  intro s w hw
  rw [words] at hw
  cases hgs : glyphs s with
  | none =>
    rw [cut_of_glyphs_eq_none jieba true hgs] at hw
    cases hw
  | some gs =>
    obtain ⟨us, hcut, rfl, hwords⟩ := cut_eq jieba true hgs
    obtain ⟨hflat, hbytes⟩ := flatten_glyphs hgs
    rw [hcut, Option.getD_some] at hw
    obtain ⟨u, hu, rfl⟩ := List.mem_map.mp hw
    refine ⟨bytesOf_ne_nil (fun hnil => (hwords u hu).ne_nil (by rw [hnil]; rfl)) fun g hg =>
      hbytes g (List.mem_flatten.mpr ⟨u, hu, hg⟩), ?_⟩
    have hpart : u <:+: us.flatten := List.infix_of_mem_flatten hu
    rw [← hflat]
    exact List.IsInfix.flatten (hpart.map Prod.snd)

end Jieba

/-- A feed with one item. -/
def catFeed : Feed :=
  ⟨some [⟨some ⟨some ⟨lit "cat", by decide⟩⟩, some ⟨some ⟨lit "dog", by decide⟩⟩,
    some ⟨some ⟨lit "cat.org", by decide⟩⟩⟩]⟩

def catPage : WebPage Dbl :=
  { docTitle := lit "cat", docUrl := lit "cat.org", docContent := lit "cat\ndog" }

/-- The segmenter without a dictionary. -/
noncomputable def runeJieba : Jieba ℝ := ⟨.createTrie [] 0 [], HMMSegment.uniformModel⟩

theorem buildWordMap_pos {page : WebPage Dbl} (hfresh : page.wordsMap = ∅) {w : Bytes} {tf : ℤ}
    (h : (page.buildWordMap cut stopWord).wordsMap[w]? = some tf) : 0 < tf := by
  have hpos : ∀ (ts : List Bytes) (tmp : Std.TreeMap Bytes ℤ),
      (∀ (w : Bytes) (n : ℤ), tmp[w]? = some n → 0 < n) → ∀ (w : Bytes) (n : ℤ),
        (ts.foldl (fun tmp s => countWords stopWord tmp (cut s)) tmp)[w]? = some n → 0 < n := by
    intro ts
    induction ts with
    | nil => exact fun tmp htmp => htmp
    | cons t ts ih => exact fun tmp htmp => ih _ (countWords_pos htmp)
  refine hpos (tokens page.docContent) page.wordsMap (fun w n hn => ?_) w tf h
  rw [hfresh] at hn
  simp at hn

theorem hasWeight_catPage {w : Bytes}
    (hw : w ∈ (catPage.buildWordMap runeJieba.words ∅).wordsMap) :
    HasWeight (builtPages runeJieba.words ∅ [catPage])
      (catPage.buildWordMap runeJieba.words ∅) := by
  obtain ⟨tf, htf⟩ := Option.isSome_iff_exists.mp (Std.TreeMap.mem_iff_isSome_getElem?.mp hw)
  have hpos : 0 < tf := buildWordMap_pos rfl htf
  refine ⟨w, tf, htf, hpos.ne', ?_⟩
  have hfreq : 0 < docFreq (builtPages runeJieba.words ∅ [catPage]) w :=
    docFreq_pos.mpr ⟨_, List.mem_singleton_self _, hw⟩
  show docFreq _ w + 1 ≠ 1
  omega

/-- The offline program makes these files, and the server can load them. -/
theorem exists_catFiles : ∃ files : LibraryFiles,
    DoProcess runeJieba.words ∅ (fun _ => 0) [catFeed] [catPage] files ∧
      Loadable runeJieba.words ∅ [catPage] files (.replicate bufSize NUL) := by
  have hfew : (builtPages runeJieba.words ∅ [catPage]).length < 2 ^ 31 := by decide
  obtain ⟨lib, hlib⟩ := exists_indexPages hfew
  have hrecords : records lib.pageLib = records [catPage] :=
    records_of_build (fun page hp => by rw [List.mem_singleton.mp hp]; rfl) hlib
  have hlength : lib.pageLib.length = 1 := by
    simpa [records] using congrArg List.length hrecords
  obtain ⟨pageFiles, hstore⟩ : ∃ pageFiles, storePages lib.pageLib = some pageFiles :=
    ⟨_, if_pos (by omega)⟩
  let files : LibraryFiles :=
    ⟨pageFiles, storeIndex (fun w => put fun _ => true) lib.invertIndexTable.toList⟩
  refine ⟨files, ⟨[catPage], lib, lib.invertIndexTable.toList, fun _ _ => true, rfl,
    ⟨[catPage], List.Perm.refl _, List.pairwise_singleton _ _, rfl⟩, hlib, hstore,
    List.Perm.refl _, rfl⟩, ?_, List.length_replicate, fun _ => ⟨1000, by decide, ?_⟩, ?_, ?_⟩
  · show pageFiles.pages.length < 2 ^ 31
    rw [(storePages_eq hstore).2.1, hrecords]
    decide
  · rw [List.getElem?_replicate, if_pos (by decide)]
  · intro i page hi
    cases i with
    | zero =>
      rw [← Option.some.inj hi]
      exact ⟨.inl (by decide), .inl (by decide), .inl (by decide)⟩
    | succ i => cases hi
  · intro page hpage w hw
    rw [builtPages, List.map_singleton, List.mem_singleton] at hpage
    subst hpage
    exact hasWeight_catPage hw

theorem words_runeJieba (word : String) (hne : word.toList ≠ [])
    (h : ∀ c ∈ word.toList, HMMSegment.isLetter c.val = true) :
    runeJieba.words (lit word) = [lit word] := by
  rw [Jieba.words, runeJieba, lit, Jieba.cut_of_isLetter HMMSegment.uniformModel 0 hne h,
    Option.getD_some]

theorem offlineWords_catPage :
    offlineWords runeJieba.words catPage.docContent = [lit "cat", lit "dog"] := by
  have htokens : tokens catPage.docContent = [lit "cat", lit "dog"] := by decide
  rw [offlineWords, htokens, List.flatMap_cons, List.flatMap_singleton,
    words_runeJieba "cat" (by decide) (by simp [HMMSegment.isLetter]),
    words_runeJieba "dog" (by decide) (by simp [HMMSegment.isLetter]), List.singleton_append]

/-- Which queries of one word have the page. -/
theorem matches_catPage_iff {word : String} (hne : word.toList ≠ [])
    (h : ∀ c ∈ word.toList, HMMSegment.isLetter c.val = true) (hnul : cStr (lit word) = lit word) :
    Matches runeJieba.words ∅ (lit word) catPage ↔ lit word = lit "cat" ∨ lit word = lit "dog" := by
  rw [Matches, hnul, words_runeJieba word hne h, offlineWords_catPage]
  simp

end SearchServer

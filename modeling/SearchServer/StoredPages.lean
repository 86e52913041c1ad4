import SearchServer.Offline.InvertIndex
import SearchServer.PageLoad

/-!
# Stored pages and postings

The page file, the offset file and the index are written by separate loops of
`PageLibPreprocessor`, and `WordQuery` relies on their order alone: it reads the records one after
the other without looking at the positions, and takes the document numbers of the index as positions
in `_pageLib`.

* `partitions_offsetsOf`: the positions and lengths cut the page file into the records.
* `createJson_isOk`: `createJson` succeeds on documents that are positions in `_pageLib`.

**Theorem (`storedConsistent_iff`).** When the page file has less than 2^31 bytes, the three agree in
all this, and the server loads every page in its place, exactly when no record has a NUL and the
buffer has one behind the longest record.
-/

namespace SearchServer

open PageLibPreprocessor

/-! ## The positions -/

/-- The numbers, positions and lengths cut the file into the records. -/
structure Partitions (file : Bytes) (rs : List Bytes) (offsets : List (ℤ × ℤ × ℤ)) : Prop where
  length_eq : offsets.length = rs.length
  first : ∀ o, offsets[0]? = some o → o.2.1 = 0
  next : ∀ (i : ℕ) (o o' : ℤ × ℤ × ℤ), offsets[i]? = some o → offsets[i + 1]? = some o' →
    o'.2.1 = o.2.1 + o.2.2
  last : ∀ (i : ℕ) (o : ℤ × ℤ × ℤ), offsets[i]? = some o → i + 1 = rs.length →
    o.2.1 + o.2.2 = file.length
  /-- The number is that of the record, and the bytes at its position are the record. -/
  bytes : ∀ (i : ℕ) (o : ℤ × ℤ × ℤ), offsets[i]? = some o → o.1 = i ∧ 0 ≤ o.2.1 ∧ 0 ≤ o.2.2 ∧
    rs[i]? = some ((file.drop o.2.1.toNat).take o.2.2.toNat)

def start (rs : List Bytes) (i : ℕ) : ℕ := (rs.take i).flatten.length

theorem start_succ {rs : List Bytes} {i : ℕ} {r : Bytes} (h : rs[i]? = some r) :
    start rs (i + 1) = start rs i + r.length := by
  rw [start, start, List.take_add_one, h, List.flatten_append, List.length_append]
  simp

theorem start_length (rs : List Bytes) : start rs rs.length = rs.flatten.length := by
  rw [start, List.take_length]

theorem take_drop_start {rs : List Bytes} {i : ℕ} {r : Bytes} (h : rs[i]? = some r) :
    (rs.flatten.drop (start rs i)).take r.length = r := by
  obtain ⟨hi, rfl⟩ := List.getElem?_eq_some_iff.mp h
  have hsplit : rs.flatten = (rs.take i).flatten ++ (rs[i] ++ (rs.drop (i + 1)).flatten) := by
    rw [← List.flatten_cons, ← List.drop_eq_getElem_cons hi, ← List.flatten_append,
      List.take_append_drop]
  rw [hsplit, start, List.drop_left, List.take_left]

theorem pos_eq {pos : ℕ} {r : Bytes} (h : pos + r.length < 2 ^ 31) :
    PageFiles.pos (pos + r.length) r = pos := by
  rw [PageFiles.pos, PageFiles.lenth, wrapInt_natCast h, wrapInt_natCast (by omega)]
  have hsub : ((pos + r.length : ℕ) : ℤ) - (r.length : ℕ) = (pos : ℕ) := by omega
  rw [hsub, wrapInt_natCast (by omega)]

/-- What is read back for record `j`. -/
theorem getElem?_offsetsOf (rs : List Bytes) (i pos j : ℕ)
    (h : pos + rs.flatten.length < 2 ^ 31) :
    (offsetsOf i pos rs)[j]? = (rs[j]?).map fun r =>
      (((i + j : ℕ) : ℤ), ((pos + start rs j : ℕ) : ℤ), (r.length : ℤ)) := by
  induction rs generalizing i pos j with
  | nil => simp [offsetsOf]
  | cons r rs ih =>
    rw [List.flatten_cons, List.length_append] at h
    rw [offsetsOf]
    cases j with
    | zero =>
      have hlenth : PageFiles.lenth r = r.length := wrapInt_natCast (by omega)
      simp [pos_eq (show pos + r.length < 2 ^ 31 by omega), hlenth, start]
    | succ j =>
      have hstart : start (r :: rs) (j + 1) = r.length + start rs j := by
        simp [start, List.take_succ_cons]
      rw [List.getElem?_cons_succ, List.getElem?_cons_succ, ih _ _ _ (by omega), hstart]
      have hnum : i + 1 + j = i + (j + 1) := by omega
      have hpos : pos + r.length + start rs j = pos + (r.length + start rs j) := by omega
      rw [hnum, hpos]

/-- **The positions partition the page file.** -/
theorem partitions_offsetsOf {rs : List Bytes} (h : rs.flatten.length < 2 ^ 31) :
    Partitions rs.flatten rs (offsetsOf 0 0 rs) := by
  have hget : ∀ j : ℕ, (offsetsOf 0 0 rs)[j]? = (rs[j]?).map fun r =>
      ((j : ℤ), (start rs j : ℤ), (r.length : ℤ)) := fun j => by
    rw [getElem?_offsetsOf rs 0 0 j (by omega)]
    simp
  refine ⟨?_, ?_, ?_, ?_, ?_⟩
  · refine le_antisymm (List.getElem?_eq_none_iff.mp ?_) (List.getElem?_eq_none_iff.mp ?_)
    · rw [hget, List.getElem?_eq_none le_rfl]
      rfl
    · have hnone := hget (offsetsOf 0 0 rs).length
      rw [List.getElem?_eq_none le_rfl] at hnone
      exact Option.map_eq_none_iff.mp hnone.symm
  · intro o ho
    rw [hget] at ho
    obtain ⟨r, -, rfl⟩ := Option.map_eq_some_iff.mp ho
    simp [start]
  · intro i o o' ho ho'
    rw [hget] at ho ho'
    obtain ⟨r, hr, rfl⟩ := Option.map_eq_some_iff.mp ho
    obtain ⟨r', -, rfl⟩ := Option.map_eq_some_iff.mp ho'
    simp [start_succ hr]
  · intro i o ho hlast
    rw [hget] at ho
    obtain ⟨r, hr, rfl⟩ := Option.map_eq_some_iff.mp ho
    rw [← start_length, ← hlast, start_succ hr]
    simp
  · intro i o ho
    rw [hget] at ho
    obtain ⟨r, hr, rfl⟩ := Option.map_eq_some_iff.mp ho
    refine ⟨rfl, by simp, by simp, ?_⟩
    rw [hr, Int.toNat_natCast, Int.toNat_natCast, take_drop_start hr]

/-! ## The reads -/

/-- The bytes that the reads of `loadLibrary` get, one after the other. -/
def readAll (pageis : Bytes) : List (ℤ × ℤ × ℤ) → List Bytes
  | [] => []
  | (_, _, lenth) :: offsets =>
    let (data, pageis) := read pageis lenth
    data :: readAll pageis offsets

theorem readAll_offsetsOf (rs : List Bytes) (i pos : ℕ) (h : ∀ r ∈ rs, r.length < 2 ^ 31) :
    readAll rs.flatten (offsetsOf i pos rs) = rs := by
  induction rs generalizing i pos with
  | nil => rfl
  | cons r rs ih =>
    obtain ⟨hr, hrs⟩ := List.forall_mem_cons.mp h
    have hread : read (r ++ rs.flatten) (PageFiles.lenth r) = (r, rs.flatten) := by
      rw [PageFiles.lenth, wrapInt_natCast hr, read, if_neg (by omega), Int.toNat_natCast,
        List.take_left, List.drop_left]
    rw [List.flatten_cons, offsetsOf, readAll, hread]
    simp only [ih (i + 1) (pos + r.length) hrs]

/-! ## The answers -/

/-- `createJson` on documents that are positions in `_pageLib`. -/
theorem createJson_isOk {G : Type} (q : WordQuery G) {docs : List ℤ} (words : List Bytes)
    (h : ∀ d ∈ docs, 0 ≤ d ∧ d < q.pageLib.length) : ∃ json, q.createJson docs words = .ok json := by
  unfold WordQuery.createJson
  refine bind_isOk (foldlM_isOk (fun d hd json => ?_) Json.null) fun json => ⟨_, rfl⟩
  obtain ⟨hnonneg, hlt⟩ := h d (List.mem_of_mem_take hd)
  have hpage : q.pageLib[d.toNat]? = some q.pageLib[d.toNat] :=
    List.getElem?_eq_getElem (by omega)
  rw [if_neg (not_lt.mpr hnonneg), hpage]
  exact ⟨_, rfl⟩

section

variable {F : Type} [DoubleOps F]

/-- A query that finds documents finds positions in `_pageLib`, when the index has no others. -/
theorem answer_ne_badIndex {q : WordQuery F}
    (h : ∀ w d, q.invertIndexTable.Lists w d → 0 ≤ d ∧ d < q.pageLib.length) (str : Bytes) :
    q.answer str ≠ .error .badIndex := by
  unfold WordQuery.answer
  by_cases hnil : q.queryWords str = []
  · rw [WordQuery.search_of_no_words hnil]
    simp [bind, Except.bind]
  by_cases htable : ∀ w ∈ q.queryWords str, w ∈ q.invertIndexTable
  · rcases WordQuery.search_of_known_words hnil htable with ⟨-, hsearch⟩ | ⟨docs, -, hsearch, hmem⟩
    · rw [hsearch]
      simp [bind, Except.bind, pure, Except.pure]
    · obtain ⟨w, hw⟩ := List.exists_mem_of_ne_nil _ hnil
      obtain ⟨json, hjson⟩ := createJson_isOk q (q.queryWords str)
        fun d hd => h w d ((hmem d).mp hd w hw)
      rw [hsearch]
      simp [bind, Except.bind, pure, Except.pure, hjson]
  · push Not at htable
    rw [WordQuery.search_of_unknown_word htable]
    simp [bind, Except.bind, pure, Except.pure]

/-! ## The library -/

/-- What the files and the index are to guarantee to the server, whose buffer holds `buf` before it
loads the library. -/
structure StoredConsistent (lib : PageLibPreprocessor F) (files : PageFiles) (buf : Bytes) :
    Prop where
  partition : Partitions files.pages (records lib.pageLib)
    (readOffsets files.offsets.length files.offsets)
  reads : readAll files.pages (readOffsets files.offsets.length files.offsets) = records lib.pageLib
  /-- Every page is loaded, and in its place. -/
  loads : ∃ loads, loadPages buf files.pages (readOffsets files.offsets.length files.offsets) =
      .ok loads ∧ List.Forall₂ (fun r load => r <+: load.1) (records lib.pageLib) loads ∧
    -- A document of the index is a position in `_pageLib`, that of a page with the word.
    (∀ w d, lib.invertIndexTable.Lists w d → 0 ≤ d ∧ d < loads.length ∧
      ∃ page, pageAt lib.pageLib d = some page ∧ w ∈ page.wordsMap) ∧
    ∀ q : WordQuery F, q.pageLib = loads.map Prod.snd →
      (∀ docs words, (∀ d ∈ docs, ∃ w, lib.invertIndexTable.Lists w d) →
        ∃ json, q.createJson docs words = .ok json) ∧
      ((∀ w d, q.invertIndexTable.Lists w d → lib.invertIndexTable.Lists w d) →
        ∀ str, q.answer str ≠ .error .badIndex)

/-- The pages that are stored have the words that the index was built from. -/
theorem lists_pageLib {pages : List (WebPage F)} (hfresh : ∀ page ∈ pages, page.wordW = ∅)
    {lib : PageLibPreprocessor F} (h : indexPages ⟨pages, ∅⟩ = some lib) {w : Bytes} {d : ℤ}
    (hd : lib.invertIndexTable.Lists w d) :
    0 ≤ d ∧ d < lib.pageLib.length ∧
      ∃ page, pageAt lib.pageLib d = some page ∧ w ∈ page.wordsMap := by
  obtain ⟨page, hpage, hw⟩ := (indexPages_spec hfresh h).lists_iff.mp hd
  rw [pageAt, Option.ite_none_left_eq_some] at hpage
  obtain ⟨hneg, hpage⟩ := hpage
  have hlt := (List.getElem?_eq_some_iff.mp hpage).1
  rw [indexPages_pageLib hfresh h, List.length_map]
  refine ⟨by omega, by omega, withWeights pages page, ?_, hw⟩
  rw [pageAt, if_neg hneg, List.getElem?_map, hpage]
  rfl

omit [DoubleOps F] in
theorem records_map {f : WebPage F → WebPage F} (hf : ∀ page i, (f page).getDoct i = page.getDoct i)
    (pages : List (WebPage F)) : records (pages.map f) = records pages := by
  rw [records, records, List.zipIdx_map, List.map_map]
  exact List.map_congr_left fun p _ => hf p.1 p.2

variable {cut : Cut} {stopWord : Std.TreeSet Bytes} {pages : List (WebPage F)}
  {lib : PageLibPreprocessor F} {files : PageFiles} {buf : Bytes}

/-- Building the index does not change the records. -/
theorem records_of_build (hfresh : ∀ page ∈ pages, page.wordW = ∅)
    (hbuild : buildInvertIndexTable cut stopWord ⟨pages, ∅⟩ = some lib) :
    records lib.pageLib = records pages := by
  have hbuilt : ∀ page ∈ pages.map (WebPage.buildWordMap cut stopWord), page.wordW = ∅ := by
    intro page hpage
    obtain ⟨p, hp, rfl⟩ := List.mem_map.mp hpage
    exact hfresh p hp
  rw [indexPages_pageLib hbuilt hbuild]
  exact (records_map (f := withWeights _) (fun _ _ => rfl) _).trans
    (records_map (f := WebPage.buildWordMap cut stopWord) (fun _ _ => rfl) pages)

/-- A library that is loaded leaves room behind its records. -/
theorem StoredConsistent.roomBehind (h : StoredConsistent lib files buf)
    (hstore : storePages lib.pageLib = some files) (htotal : files.pages.length < 2 ^ 31)
    (hbuf : buf.length = bufSize) : RoomBehind buf (records lib.pageLib) := by
  have hlen : ∀ r ∈ records lib.pageLib, r.length < 2 ^ 31 := fun r hr => by
    rw [(storePages_eq hstore).2.1] at htotal
    exact (List.sublist_flatten_of_mem hr).length_le.trans_lt htotal
  obtain ⟨loads, hloads, hall, -⟩ := h.loads
  rw [← loads_iff _ 0 0 hbuf hlen hasMarkers_records, ← loadsBounded_iff_loads hstore]
  exact ⟨loads, hloads, hall⟩

/-- **Stored pages and postings.** -/
theorem storedConsistent_iff (hfresh : ∀ page ∈ pages, page.wordW = ∅)
    (hbuild : buildInvertIndexTable cut stopWord ⟨pages, ∅⟩ = some lib)
    (hstore : storePages lib.pageLib = some files) (htotal : files.pages.length < 2 ^ 31)
    (hbuf : buf.length = bufSize) :
    StoredConsistent lib files buf ↔ RoomBehind buf (records lib.pageLib) := by
  refine ⟨fun h => h.roomBehind hstore htotal hbuf, fun hroom => ?_⟩
  obtain ⟨hcount, hpages, hoffsets⟩ := storePages_eq hstore
  have hnum : (records lib.pageLib).length = lib.pageLib.length := by simp [records]
  have hread : readOffsets files.offsets.length files.offsets =
      offsetsOf 0 0 (records lib.pageLib) := by
    rw [hoffsets]
    exact readOffsets_offsetLines _ (by omega) (length_le_offsetLines _ 0 0)
  rw [hpages] at htotal
  have hlen : ∀ r ∈ records lib.pageLib, r.length < 2 ^ 31 := fun r hr =>
    (List.sublist_flatten_of_mem hr).length_le.trans_lt htotal
  obtain ⟨loads, hloads, hall⟩ := (loads_iff _ 0 0 hbuf hlen hasMarkers_records).mpr hroom
  have hloaded : loads.length = lib.pageLib.length := by rw [← hall.length_eq, hnum]
  have hlists : ∀ w d, lib.invertIndexTable.Lists w d → 0 ≤ d ∧ d < loads.length ∧
      ∃ page, pageAt lib.pageLib d = some page ∧ w ∈ page.wordsMap := by
    intro w d hd
    rw [hloaded]
    refine lists_pageLib (fun page hpage => ?_) hbuild hd
    obtain ⟨p, hp, rfl⟩ := List.mem_map.mp hpage
    exact hfresh p hp
  refine ⟨?_, ?_, loads, ?_, hall, hlists, fun q hq => ⟨fun docs words hdocs => ?_, fun hsub => ?_⟩⟩
  · rw [hread, hpages]
    exact partitions_offsetsOf htotal
  · rw [hread, hpages]
    exact readAll_offsetsOf _ 0 0 hlen
  · rw [hread, hpages]
    exact hloads
  · refine createJson_isOk q words fun d hd => ?_
    obtain ⟨w, hw⟩ := hdocs d hd
    obtain ⟨hnonneg, hlt, -⟩ := hlists w d hw
    rw [hq, List.length_map]
    exact ⟨hnonneg, hlt⟩
  · refine answer_ne_badIndex fun w d hd => ?_
    obtain ⟨hnonneg, hlt, -⟩ := hlists w d (hsub w d hd)
    rw [hq, List.length_map]
    exact ⟨hnonneg, hlt⟩

end

/-! ## Two libraries -/

def pageWith (docContent : Bytes) : WebPage Dbl where
  docTitle := lit "cat"
  docUrl := lit "cat.org"
  docContent := docContent

theorem exists_stored {pages : List (WebPage Dbl)} (hfresh : ∀ page ∈ pages, page.wordW = ∅)
    (hlen : pages.length < 2 ^ 31) : ∃ lib files,
    buildInvertIndexTable tokens ∅ ⟨pages, ∅⟩ = some lib ∧
      storePages lib.pageLib = some files ∧ records lib.pageLib = records pages ∧
      files.pages = (records pages).flatten := by
  have hshort : (pages.map (WebPage.buildWordMap tokens ∅)).length < 2 ^ 31 := by
    rwa [List.length_map]
  obtain ⟨lib, hbuild⟩ := exists_indexPages hshort
  have hrecords : records lib.pageLib = records pages := records_of_build hfresh hbuild
  have hlength : lib.pageLib.length = pages.length := by
    have hcount := congrArg List.length hrecords
    simpa [records] using hcount
  have hstore : storePages lib.pageLib = some _ := if_pos (by omega)
  refine ⟨lib, _, hbuild, hstore, hrecords, ?_⟩
  rw [(storePages_eq hstore).2.1, hrecords]

/-- A long page, a short one, and a buffer of zeros. -/
theorem storedConsistent_longThenShort : ∃ lib files,
    buildInvertIndexTable tokens ∅ ⟨[pageWith (lit "a cat and a dog"), pageWith (lit "cat")], ∅⟩ =
        some lib ∧
      storePages lib.pageLib = some files ∧
      StoredConsistent lib files (List.replicate bufSize NUL) := by
  have hfresh : ∀ page ∈ [pageWith (lit "a cat and a dog"), pageWith (lit "cat")],
      page.wordW = ∅ := by simp [pageWith]
  obtain ⟨lib, files, hbuild, hstore, hrecords, hpages⟩ := exists_stored hfresh (by decide)
  have htotal : files.pages.length < 2 ^ 31 := by
    rw [hpages]
    decide +kernel
  refine ⟨lib, files, hbuild, hstore,
    (storedConsistent_iff hfresh hbuild hstore htotal (by simp)).mpr ?_⟩
  rw [hrecords]
  refine ⟨by decide +kernel, fun _ => ⟨1000, by decide +kernel, ?_⟩⟩
  rw [List.getElem?_replicate, if_pos (by decide)]

/-- A page with as many bytes as the buffer cannot be loaded, whatever the buffer held before. -/
theorem not_storedConsistent_long : ∃ lib files,
    buildInvertIndexTable tokens ∅ ⟨[pageWith (List.replicate bufSize 97)], ∅⟩ = some lib ∧
      storePages lib.pageLib = some files ∧ files.pages.length < 2 ^ 31 ∧
      ∀ buf : Bytes, buf.length = bufSize → ¬ StoredConsistent lib files buf := by
  have hfresh : ∀ page ∈ [pageWith (List.replicate bufSize 97)], page.wordW = ∅ :=
    List.forall_mem_singleton.mpr rfl
  obtain ⟨lib, files, hbuild, hstore, hrecords, hpages⟩ := exists_stored hfresh (by simp)
  set page := pageWith (List.replicate bufSize 97)
  have hstart : (page.beforeContent 0).length = 62 := by decide +kernel
  have hlength : (page.getDoct 0).length = bufSize + 87 := by
    rw [length_getDoct, hstart, show page.docContent.length = bufSize from List.length_replicate]
    omega
  have hone : records [page] = [page.getDoct 0] := by simp [records]
  rw [hone] at hrecords hpages
  have htotal : files.pages.length < 2 ^ 31 := by
    rw [hpages, List.flatten_singleton, hlength]
    decide
  refine ⟨lib, files, hbuild, hstore, htotal, fun buf hbuf h => ?_⟩
  have hroom := h.roomBehind hstore htotal hbuf
  rw [hrecords] at hroom
  obtain ⟨k, hk, hnul⟩ := hroom.2 (List.cons_ne_nil _ _)
  have hfits : k < buf.length := (List.getElem?_eq_some_iff.mp hnul).1
  rw [List.forall_mem_singleton, hlength] at hk
  omega

end SearchServer

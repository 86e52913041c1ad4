import SearchServer.Process.WordQuery

/-!
# The answer to a query

The document that `WordQuery::createJson` writes (`process/WordQuery.cc`), and what the cache-miss path
answers to a query in terms of the index and the pages.

* `createJson_eq`: the document has the first 51 pages, one after the other.

**Theorem (`answer_eq`).** When the index lists positions in `_pageLib` only, a query with words is
answered with the pages of the documents that all the words list, each once.
-/

namespace SearchServer

namespace WordQuery

variable {F : Type}

def fileJson (queryWords : List Bytes) (page : OnWebPage) : Json :=
  ((Json.null.set (lit "title") (.string page.title)).set (lit "url")
    (.string page.url)).set (lit "summary") (.string (page.summary queryWords))

/-- The document with these elements, null when there are none. -/
def filesJson : List Json → Json
  | [] => .null
  | elems => .object [(lit "files", .array elems)]

/-- `json["files"].append(tmp)`. -/
theorem filesJson_append (elems : List Json) (tmp : Json) :
    (filesJson elems).set (lit "files") (((filesJson elems).get (lit "files")).append tmp) =
      filesJson (elems ++ [tmp]) := by
  cases elems with
  | nil => rfl
  | cons elem elems =>
    simp [filesJson, Json.get, Json.append, Json.set, Json.setMember]

/-- The body of the loop of `createJson`. -/
def addFile (q : WordQuery F) (queryWords : List Bytes) (json : Json) (docId : ℤ) :
    Except Undefined Json := do
  let page ← if docId < 0 then .error .badIndex
    else match q.pageLib[docId.toNat]? with
      | some page => .ok page
      | none => .error .badIndex
  return json.set (lit "files") ((json.get (lit "files")).append (fileJson queryWords page))

def pagesAt (q : WordQuery F) (docs : List ℕ) : List OnWebPage := docs.filterMap (q.pageLib[·]?)

theorem addFile_eq {q : WordQuery F} {queryWords : List Bytes} {d : ℕ} {page : OnWebPage}
    (h : q.pageLib[d]? = some page) (elems : List Json) :
    q.addFile queryWords (filesJson elems) d =
      .ok (filesJson (elems ++ [fileJson queryWords page])) := by
  rw [← filesJson_append, addFile, if_neg (by omega), Int.toNat_natCast, h]
  rfl

theorem foldlM_addFile {q : WordQuery F} {queryWords : List Bytes} {docs : List ℕ}
    (h : ∀ d ∈ docs, d < q.pageLib.length) (elems : List Json) :
    (docs.map Int.ofNat).foldlM (q.addFile queryWords) (filesJson elems) =
      .ok (filesJson (elems ++ (q.pagesAt docs).map (fileJson queryWords))) := by
  induction docs generalizing elems with
  | nil => simp [pagesAt, pure, Except.pure]
  | cons d docs ih =>
    obtain ⟨hd, hdocs⟩ := List.forall_mem_cons.mp h
    have hpage : q.pageLib[d]? = some q.pageLib[d] := List.getElem?_eq_getElem hd
    have hpages : q.pagesAt (d :: docs) = q.pageLib[d] :: q.pagesAt docs := by
      rw [pagesAt, List.filterMap_cons_some hpage, pagesAt]
    rw [List.map_cons, List.foldlM_cons, show Int.ofNat d = (d : ℤ) from rfl, addFile_eq hpage]
    show (docs.map Int.ofNat).foldlM _ _ = _
    rw [ih hdocs, hpages, List.map_cons, List.append_assoc, List.singleton_append]

/-- **The document** of documents that are positions in `_pageLib`. -/
theorem createJson_eq (q : WordQuery F) {docs : List ℕ} (queryWords : List Bytes)
    (h : ∀ d ∈ docs, d < q.pageLib.length) :
    q.createJson (docs.map Int.ofNat) queryWords =
      .ok (q.write (filesJson ((q.pagesAt (docs.take 51)).map (fileJson queryWords)))) := by
  have hfold := @foldlM_addFile F q queryWords (docs.take 51)
    (fun d hd => h d (List.mem_of_mem_take hd)) []
  rw [List.map_take] at hfold
  show ((docs.map Int.ofNat).take 51).foldlM (q.addFile queryWords) Json.null >>= _ = _
  rw [show Json.null = filesJson [] from rfl, hfold]
  rfl

/-! ## The documents -/

variable [DoubleOps F]

/-- **What the search does** with words that are in the index: the documents that all of them list,
each once, in some order. -/
theorem search_eq {q : WordQuery F} {str : Bytes} (hne : q.queryWords str ≠ [])
    (htable : ∀ w ∈ q.queryWords str, w ∈ q.invertIndexTable) :
    ∃ docs : List ℤ, docs.Nodup ∧
      (∀ d, d ∈ docs ↔ ∀ w ∈ q.queryWords str, q.invertIndexTable.Lists w d) ∧
      q.search str = .ok (if docs = [] then .noAnswer else .found docs (q.queryWords str),
        q.invertIndexTable) := by
  obtain ⟨docs, hdocs, hpair, hmem⟩ := getDocs_eq hne htable
  obtain ⟨base, hbase⟩ := q.getBaseW_isOk (wordSegmentation q.cut q.stopWordList str)
    (fun w hw => Std.TreeMap.mem_keys.mp hw) htable
  obtain ⟨rows, hrows, hfst⟩ := weightRows_isOk fun d hd => (hmem d).mp hd
  have hall : (q.queryWords str).all (q.invertIndexTable.contains ·) = true := by
    simpa [Std.TreeMap.contains_iff_mem] using htable
  have hperm : (rank base rows).Perm docs := by
    rw [← hfst]
    exact (List.mergeSort_perm _ _).map Prod.fst
  have hnil : rank base rows = [] ↔ docs = [] := by
    rw [← List.length_eq_zero_iff, hperm.length_eq, List.length_eq_zero_iff]
  refine ⟨rank base rows, ?_, fun d => hperm.mem_iff.trans (hmem d), ?_⟩
  · exact hperm.nodup_iff.mpr (hpair.imp fun hlt => hlt.ne)
  · unfold queryWords at *
    unfold search
    simp only [hall, if_true, hbase, hdocs, bind, Except.bind]
    by_cases hempty : docs = []
    · simp [hempty, hnil, pure, Except.pure]
    · simp [hempty, hnil, hrows, pure, Except.pure]

theorem exists_positions {docs : List ℤ} (h : ∀ d ∈ docs, 0 ≤ d) :
    docs = (docs.map Int.toNat).map Int.ofNat := by
  rw [List.map_map]
  conv_lhs => rw [← List.map_id docs]
  exact List.map_congr_left fun d hd => (Int.toNat_of_nonneg (h d hd)).symm

/-- **The answer.** -/
theorem answer_eq {q : WordQuery F} {str : Bytes} (hne : q.queryWords str ≠ [])
    (hindex : ∀ w d, q.invertIndexTable.Lists w d → 0 ≤ d ∧ d < q.pageLib.length) :
    ∃ docs : List ℕ, docs.Nodup ∧
      (∀ i : ℕ, i ∈ docs ↔ ∀ w ∈ q.queryWords str, q.invertIndexTable.Lists w i) ∧
      q.answer str = .ok (if docs = [] then q.returnNoAnswer
        else q.write (filesJson ((q.pagesAt (docs.take 51)).map (fileJson (q.queryWords str)))),
        q.invertIndexTable) := by
  obtain ⟨w₀, hw₀⟩ := List.exists_mem_of_ne_nil _ hne
  unfold answer
  by_cases htable : ∀ w ∈ q.queryWords str, w ∈ q.invertIndexTable
  · obtain ⟨docs, hnodup, hmem, hsearch⟩ := search_eq hne htable
    have hbounds : ∀ d ∈ docs, 0 ≤ d ∧ d < q.pageLib.length := fun d hd =>
      hindex w₀ d ((hmem d).mp hd w₀ hw₀)
    have hpositions := exists_positions fun d hd => (hbounds d hd).1
    refine ⟨docs.map Int.toNat, ?_, fun i => ?_, ?_⟩
    · rw [hpositions] at hnodup
      exact hnodup.of_map _
    · rw [← hmem]
      constructor
      · intro hi
        obtain ⟨d, hd, rfl⟩ := List.mem_map.mp hi
        rwa [Int.toNat_of_nonneg (hbounds d hd).1]
      · intro hi
        exact List.mem_map.mpr ⟨i, hi, Int.toNat_natCast i⟩
    · rw [hsearch]
      by_cases hnil : docs = []
      · simp [hnil, bind, Except.bind, pure, Except.pure]
      · have hjson := @createJson_eq F q (docs.map Int.toNat) (q.queryWords str) (by
          intro i hi
          obtain ⟨d, hd, rfl⟩ := List.mem_map.mp hi
          have := hbounds d hd
          omega)
        rw [← hpositions] at hjson
        simp [hnil, hjson, bind, Except.bind, pure, Except.pure]
  · push Not at htable
    obtain ⟨w, hw, hno⟩ := htable
    refine ⟨[], List.nodup_nil, fun i => ?_, ?_⟩
    · simp only [List.not_mem_nil, false_iff]
      intro hall
      obtain ⟨m, hm, -⟩ := hall w hw
      refine hno ?_
      rw [Std.TreeMap.mem_iff_isSome_getElem?, hm]
      rfl
    · rw [search_of_unknown_word ⟨w, hw, hno⟩]
      rfl

end WordQuery

end SearchServer

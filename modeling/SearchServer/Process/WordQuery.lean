import SearchServer.Lib.Except
import SearchServer.Lib.Maps
import SearchServer.Vocabulary

/-!
# Query evaluation

The cache-miss path of `WordQuery::doQuery` (`process/WordQuery.cc`): the query is segmented
(`process/WordSegmentation.h`), the documents that have all its words are looked up in the inverted
index, ranked by cosine similarity, and written as a JSON document with their summaries
(`process/OnWebPage.cc`).

Where the C++ program has undefined behaviour (the first element of an empty vector, an iterator
past the end, an index out of range) the model returns an error of type `Undefined`.

* `getDocs_eq`: the documents found are those that all words list.
* `search_of_known_words`: what the cache-miss path computes for words that are in the index.

**Theorem (`guardsEmptyWords_iff`).** The branch for a query without words does not return. A query
is answered without reading an element of an empty vector exactly when it has a word outside the
stop list.

**Theorem (`conjunctiveMatching_iff`).** For the same reason these are the queries, among those that
are not answered before, for which the index table is known to stay as it is. When all words of a
query are in the index, the documents found are exactly those that all the words list.
-/

namespace SearchServer

/-! ## JSON values -/

/-- The values of `Json::Value` that the program builds. -/
inductive Json where
  | null
  | string (s : Bytes)
  | array (elements : List Json)
  | object (members : List (Bytes × Json))

namespace Json

/-- `map::operator[]` and assignment on the members, which are kept in the order of their names. -/
def setMember (key : Bytes) (v : Json) : List (Bytes × Json) → List (Bytes × Json)
  | [] => [(key, v)]
  | (k, x) :: ms =>
    if key < k then (key, v) :: (k, x) :: ms
    else if key = k then (k, v) :: ms
    else (k, x) :: setMember key v ms

/-- `json[key] = v`. A null value becomes an object. -/
def set (json : Json) (key : Bytes) (v : Json) : Json :=
  match json with
  | object ms => object (setMember key v ms)
  | _ => object [(key, v)]

/-- `json.append(v)`. A null value becomes an array. -/
def append (json v : Json) : Json :=
  match json with
  | array es => array (es ++ [v])
  | _ => array [v]

/-- `json[key]`, null when there is no such member. -/
def get (json : Json) (key : Bytes) : Json :=
  match json with
  | object ms => (ms.lookup key).getD null
  | _ => null

end Json

/-! ## Pages -/

structure OnWebPage where
  title : Bytes
  url : Bytes
  content : Bytes
deriving DecidableEq

/-- The full blocks of `n` bytes of a text; a shorter rest is not read. -/
def blocks (n : ℕ) : ℕ → Bytes → List Bytes
  | 0, _ => []
  | fuel + 1, s => if n ≤ s.length then s.take n :: blocks n fuel (s.drop n) else []

/-- `OnWebPage::summary`: of the content after the first line, every block of 150 bytes in which a
query word occurs. -/
def OnWebPage.summary (page : OnWebPage) (queryWords : List Bytes) : Bytes :=
  let rest := (page.content.dropWhile (· ≠ LF)).drop 1
  (blocks 150 rest.length rest).foldl (fun summary buf =>
    let tmp := cStr buf
    if queryWords.any fun s => decide (s <:+: tmp) then
      let tmp := lit "..." ++ tmp ++ lit "..."
      if summary ≠ [] then summary ++ [LF] ++ tmp else summary ++ tmp
    else summary) []

/-! ## Segmentation -/

/-- `WordSegmentation::operator()`. Only the C string of the text is cut. -/
def wordSegmentation (cut : Cut) (stop : Std.TreeSet Bytes) (text : Bytes) :
    Std.TreeMap Bytes ℤ :=
  countWords stop ∅ (cut (cStr text))

theorem mem_wordSegmentation {cut : Cut} {stop : Std.TreeSet Bytes} {text w : Bytes} :
    w ∈ wordSegmentation cut stop text ↔ w ∈ cut (cStr text) ∧ w ∉ stop := by
  rw [wordSegmentation, mem_countWords]
  simp

/-! ## The query path -/

/-- Undefined behaviour of the C++ program. -/
inductive Undefined where
  /-- `words[0]` or `words.begin() + 1` on an empty vector. -/
  | emptyWords
  /-- `find(key)->second` when the key is absent. -/
  | pastEnd
  /-- `_pageLib[docId]` out of range. -/
  | badIndex
deriving DecidableEq

/-- `find(key)->second`, given the result of `find`. -/
def deref {α : Type*} : Option α → Except Undefined α
  | some x => .ok x
  | none => .error .pastEnd

/-- The members of `WordQuery`, with the segmenter, the stop words and the JSON writer. -/
structure WordQuery (F : Type) where
  cut : Cut
  stopWordList : Std.TreeSet Bytes
  /-- `Json::StyledWriter::write`. -/
  write : Json → Bytes
  pageLib : List OnWebPage
  invertIndexTable : IndexTable F

/-- `set_intersection` on ascending lists: one step of the merge against the list `bs`. -/
def setIntersectionStep (a : ℤ) (next : List ℤ → List ℤ) : List ℤ → List ℤ
  | [] => []
  | b :: bs =>
    if a < b then next (b :: bs)
    else if b < a then setIntersectionStep a next bs
    else a :: next bs

def setIntersection : List ℤ → List ℤ → List ℤ
  | [] => fun _ => []
  | a :: as => setIntersectionStep a (setIntersection as)

/-- `sort(docs.begin(), docs.end())` of the keys of a posting list. -/
def sortedDocs {F : Type} (m : Postings F) : List ℤ := m.keys.mergeSort (· ≤ ·)

variable {F : Type}

/-- `getDocs`, which returns the index table too because `operator[]` may add keys to it. -/
def getDocs (table : IndexTable F) : List Bytes → Except Undefined (List ℤ × IndexTable F)
  | [] => .error .emptyWords
  | w :: ws =>
    let (m, table) := table.at w
    .ok (ws.foldl (fun (docs, table) it =>
      let (rhs, table) := table.at it
      (setIntersection docs (sortedDocs rhs), table)) (sortedDocs m, table))

namespace WordQuery

variable [DoubleOps F]

open DoubleOps

def similarityCompare (base lhs rhs : List F) : Bool :=
  let crossProduct v := (v.zip base).foldl (fun s p => add s (mul p.1 p.2)) (ofInt 0)
  let vectorLength v := (v.zip base).foldl (fun s p => add s (mul p.1 p.1)) (ofInt 0)
  !lt (div (crossProduct lhs) (sqrt (vectorLength lhs)))
    (div (crossProduct rhs) (sqrt (vectorLength rhs)))

def getBaseW (q : WordQuery F) (frq : Std.TreeMap Bytes ℤ) (words : List Bytes) :
    Except Undefined (List F) := do
  let wVal ← words.mapM fun word => do
    let m ← deref q.invertIndexTable[word]?
    let tf ← deref frq[word]?
    let df : F := ofInt m.size
    return mul (ofInt tf) (log (div (ofInt q.pageLib.length) (add df (ofInt 1))))
  let sumW := sqrt (wVal.foldl (fun s w => add s (mul w w)) (ofInt 0))
  return wVal.map (div · sumW)

def returnNoAnswer (q : WordQuery F) : Bytes :=
  let elem := ((Json.null.set (lit "title") (.string (lit "404, not found"))).set (lit "summary")
    (.string (lit "亲,I cannot find what you want. What a pity!"))).set (lit "url") (.string [])
  q.write (Json.null.set (lit "files") (Json.null.append elem))

/-- `createJson`: the first 51 documents. -/
def createJson (q : WordQuery F) (docIdVec : List ℤ) (queryWords : List Bytes) :
    Except Undefined Bytes := do
  let json ← (docIdVec.take 51).foldlM (fun json docId => do
    let page ← if docId < 0 then .error .badIndex
      else match q.pageLib[docId.toNat]? with
        | some page => .ok page
        | none => .error .badIndex
    let tmp := ((Json.null.set (lit "title") (.string page.title)).set (lit "url")
      (.string page.url)).set (lit "summary") (.string (page.summary queryWords))
    return json.set (lit "files") ((json.get (lit "files")).append tmp)) Json.null
  return q.write json

/-- The weights of the words in each document found. -/
def weightRows (table : IndexTable F) (words : List Bytes) (docs : List ℤ) :
    Except Undefined (List (ℤ × List F)) :=
  docs.mapM fun docId => do
    let tmp ← words.mapM fun word => do
      let mmp ← deref table[word]?
      deref mmp[docId]?
    return (docId, tmp)

/-- The documents in the order of `stable_sort` with `SimilarityCompare`: an element moves before
an earlier one only if the comparison says so. -/
def rank (base : List F) (resultList : List (ℤ × List F)) : List ℤ :=
  (resultList.mergeSort fun a b => !similarityCompare base b.2 a.2).map Prod.fst

/-- How the cache-miss path answers a query. -/
inductive Verdict where
  | noAnswer
  | found (docs : List ℤ) (words : List Bytes)

/-- The cache-miss path of `doQuery` up to the choice of the answer. The branch for an empty
frequency map only assigns `ret`, which is overwritten later; it does not return. -/
def search (q : WordQuery F) (str : Bytes) : Except Undefined (Verdict × IndexTable F) := do
  let frq := wordSegmentation q.cut q.stopWordList str
  let words := frq.keys
  if words.all (q.invertIndexTable.contains ·) then
    let baseW ← q.getBaseW frq words
    let (docs, table) ← getDocs q.invertIndexTable words
    if docs = [] then
      return (.noAnswer, table)
    else
      let resultList ← weightRows table words docs
      return (.found (rank baseW resultList) words, table)
  else
    return (.noAnswer, q.invertIndexTable)

/-- The cache-miss path of `doQuery`: the answer, and the index table after it. -/
def answer (q : WordQuery F) (str : Bytes) : Except Undefined (Bytes × IndexTable F) := do
  match ← q.search str with
  | (.noAnswer, table) => return (q.returnNoAnswer, table)
  | (.found docs words, table) => return (← q.createJson docs words, table)

/-! ## Documents that have all the words -/

end WordQuery

section Documents

theorem sortedDocs_eq (m : Postings F) : sortedDocs m = m.keys := by
  refine List.mergeSort_of_pairwise (m.ordered_keys.imp fun {a b} h => ?_)
  simpa using (Std.compare_eq_lt.mp h).le

theorem pairwise_sortedDocs (m : Postings F) : (sortedDocs m).Pairwise (· < ·) := by
  rw [sortedDocs_eq]
  exact m.ordered_keys.imp fun h => Std.compare_eq_lt.mp h

theorem mem_sortedDocs {m : Postings F} {d : ℤ} : d ∈ sortedDocs m ↔ d ∈ m := by
  rw [sortedDocs_eq, Std.TreeMap.mem_keys]

theorem setIntersection_sublist (as bs : List ℤ) : (setIntersection as bs).Sublist as := by
  induction as generalizing bs with
  | nil => exact List.Sublist.refl []
  | cons a as ih =>
    induction bs with
    | nil => exact List.nil_sublist _
    | cons b bs ihb =>
      simp only [setIntersection, setIntersectionStep] at ihb ⊢
      split_ifs
      · exact (ih (b :: bs)).cons a
      · exact ihb
      · exact (ih bs).cons_cons a

theorem mem_setIntersection {as bs : List ℤ} (ha : as.Pairwise (· < ·))
    (hb : bs.Pairwise (· < ·)) {d : ℤ} : d ∈ setIntersection as bs ↔ d ∈ as ∧ d ∈ bs := by
  induction as generalizing bs with
  | nil => simp [setIntersection]
  | cons a as ih =>
    obtain ⟨haas, has⟩ := List.pairwise_cons.mp ha
    induction bs with
    | nil => simp [setIntersection, setIntersectionStep]
    | cons b bs ihb =>
      obtain ⟨hbbs, hbs⟩ := List.pairwise_cons.mp hb
      have ihb := ihb hbs
      simp only [setIntersection, setIntersectionStep] at ihb ⊢
      split_ifs with hab hba
      · -- `a` is below every element of `b :: bs`.
        rw [ih has hb]
        have hda : d ∈ b :: bs → d ≠ a := by
          rintro hd rfl
          rcases List.mem_cons.mp hd with rfl | hd
          · omega
          · have := hbbs _ hd; omega
        grind
      · -- `b` is below every element of `a :: as`.
        rw [ihb]
        have hdb : d ∈ a :: as → d ≠ b := by
          rintro hd rfl
          rcases List.mem_cons.mp hd with rfl | hd
          · omega
          · have := haas _ hd; omega
        grind
      · have hab : a = b := by omega
        subst hab
        rw [List.mem_cons, ih has hbs]
        grind

/-- The loop of `getDocs` over the words after the first: the table does not change, and the
documents that stay are those that all these words list. -/
theorem getDocs_loop {table : IndexTable F} {ws : List Bytes} (hws : ∀ w ∈ ws, w ∈ table)
    {docs : List ℤ} (hdocs : docs.Pairwise (· < ·)) :
    ∃ docs' : List ℤ,
      ws.foldl (fun (docs, table) it =>
        let (rhs, table) := IndexTable.at table it
        (setIntersection docs (sortedDocs rhs), table)) (docs, table) = (docs', table) ∧
      docs'.Pairwise (· < ·) ∧ ∀ d, d ∈ docs' ↔ d ∈ docs ∧ ∀ w ∈ ws, table.Lists w d := by
  induction ws generalizing docs with
  | nil => exact ⟨docs, rfl, hdocs, by simp⟩
  | cons w ws ih =>
    obtain ⟨m, hm⟩ := exists_getElem?_of_mem (hws w List.mem_cons_self)
    have hsub := setIntersection_sublist docs (sortedDocs m)
    obtain ⟨docs', heq, hpair, hmem⟩ :=
      ih (fun v hv => hws v (List.mem_cons_of_mem _ hv)) (hdocs.sublist hsub)
    refine ⟨docs', ?_, hpair, fun d => ?_⟩
    · rw [List.foldl_cons, ← heq]
      simp only [IndexTable.at_of_getElem? hm]
    · rw [hmem, mem_setIntersection hdocs (pairwise_sortedDocs m), mem_sortedDocs]
      simp [IndexTable.Lists, hm, and_assoc]

/-- **`getDocs`** on words that are all in the table: it leaves the table as it is and returns, in
ascending order, the documents that all the words list. -/
theorem getDocs_eq {table : IndexTable F} {words : List Bytes} (hne : words ≠ [])
    (hws : ∀ w ∈ words, w ∈ table) :
    ∃ docs, getDocs table words = .ok (docs, table) ∧ docs.Pairwise (· < ·) ∧
      ∀ d, d ∈ docs ↔ ∀ w ∈ words, table.Lists w d := by
  obtain ⟨w, ws, rfl⟩ := List.exists_cons_of_ne_nil hne
  obtain ⟨m, hm⟩ := exists_getElem?_of_mem (hws w List.mem_cons_self)
  obtain ⟨docs, heq, hpair, hmem⟩ :=
    getDocs_loop (fun v hv => hws v (List.mem_cons_of_mem _ hv)) (pairwise_sortedDocs m)
  refine ⟨docs, ?_, hpair, fun d => ?_⟩
  · simp only [getDocs, IndexTable.at_of_getElem? hm]
    rw [heq]
  · rw [hmem, mem_sortedDocs]
    simp [IndexTable.Lists, hm]

end Documents

/-! ## What the cache-miss path computes -/

namespace WordQuery

variable [DoubleOps F]

/-- The words of a query, in the order in which the code visits them. -/
def queryWords (q : WordQuery F) (str : Bytes) : List Bytes :=
  (wordSegmentation q.cut q.stopWordList str).keys

omit [DoubleOps F] in
theorem mem_queryWords {q : WordQuery F} {str w : Bytes} :
    w ∈ q.queryWords str ↔ w ∈ q.cut (cStr str) ∧ w ∉ q.stopWordList := by
  rw [queryWords, Std.TreeMap.mem_keys, mem_wordSegmentation]

omit [DoubleOps F] in
theorem queryWords_eq_nil_iff {q : WordQuery F} {str : Bytes} :
    q.queryWords str = [] ↔ ∀ w ∈ q.cut (cStr str), w ∈ q.stopWordList := by
  rw [List.eq_nil_iff_forall_not_mem]
  simp [mem_queryWords]

theorem getBaseW_isOk (q : WordQuery F) (frq : Std.TreeMap Bytes ℤ) {words : List Bytes}
    (hfrq : ∀ w ∈ words, w ∈ frq) (htable : ∀ w ∈ words, w ∈ q.invertIndexTable) :
    ∃ base, q.getBaseW frq words = .ok base := by
  obtain ⟨wVal, hwVal⟩ := mapM_isOk (l := words) (f := fun word => do
      let m ← deref q.invertIndexTable[word]?
      let tf ← deref frq[word]?
      let df : F := DoubleOps.ofInt m.size
      return DoubleOps.mul (DoubleOps.ofInt tf) (DoubleOps.log (DoubleOps.div
        (DoubleOps.ofInt q.pageLib.length) (DoubleOps.add df (DoubleOps.ofInt 1))))) (by
    intro w hw
    obtain ⟨m, hm⟩ := exists_getElem?_of_mem (htable w hw)
    obtain ⟨tf, htf⟩ := exists_getElem?_of_mem (hfrq w hw)
    exact ⟨_, by rw [hm, htf]; rfl⟩)
  unfold getBaseW
  rw [hwVal]
  exact ⟨_, rfl⟩

omit [DoubleOps F] in
/-- When all the words list all the documents, every `mmp.find(docId)` is found. -/
theorem weightRows_isOk {table : IndexTable F} {words : List Bytes} {docs : List ℤ}
    (h : ∀ d ∈ docs, ∀ w ∈ words, table.Lists w d) :
    ∃ rows, weightRows table words docs = .ok rows ∧ rows.map Prod.fst = docs := by
  induction docs with
  | nil => exact ⟨[], rfl, rfl⟩
  | cons d docs ih =>
    obtain ⟨rows, hrows, hfst⟩ := ih fun d hd => h d (List.mem_cons_of_mem _ hd)
    obtain ⟨tmp, htmp⟩ := mapM_isOk (l := words) (f := fun word => do
        let mmp ← deref table[word]?
        deref mmp[d]?) (by
      intro w hw
      obtain ⟨m, hm, hdm⟩ := h d List.mem_cons_self w hw
      obtain ⟨x, hx⟩ := exists_getElem?_of_mem hdm
      exact ⟨x, by rw [hm]; simp [deref, bind, Except.bind, hx]⟩)
    refine ⟨(d, tmp) :: rows, ?_, by simp [hfst]⟩
    unfold weightRows at hrows ⊢
    rw [List.mapM_cons, htmp, hrows]
    rfl

theorem mem_rank {base : List F} {rows : List (ℤ × List F)} {d : ℤ} :
    d ∈ rank base rows ↔ d ∈ rows.map Prod.fst :=
  ((List.mergeSort_perm _ _).map Prod.fst).mem_iff

/-- A query without usable words reaches `words[0]` on an empty vector. -/
theorem search_of_no_words {q : WordQuery F} {str : Bytes} (h : q.queryWords str = []) :
    q.search str = .error .emptyWords := by
  unfold queryWords at h
  unfold search
  simp only [h]
  rfl

theorem search_of_unknown_word {q : WordQuery F} {str : Bytes}
    (h : ∃ w ∈ q.queryWords str, w ∉ q.invertIndexTable) :
    q.search str = .ok (.noAnswer, q.invertIndexTable) := by
  obtain ⟨w, hw, hno⟩ := h
  unfold queryWords at hw
  unfold search
  rw [if_neg]
  · rfl
  · simp only [List.all_eq_true, Std.TreeMap.contains_iff_mem]
    exact fun hall => hno (hall w hw)

/-- **The documents of a query.** When all words of a query are in the index, and there is at least
one, the documents found are those that all the words list; there is no answer exactly when no
document is. -/
theorem search_of_known_words {q : WordQuery F} {str : Bytes} (hne : q.queryWords str ≠ [])
    (htable : ∀ w ∈ q.queryWords str, w ∈ q.invertIndexTable) :
    (∀ d, ¬ ∀ w ∈ q.queryWords str, q.invertIndexTable.Lists w d) ∧
        q.search str = .ok (.noAnswer, q.invertIndexTable) ∨
      ∃ docs, docs ≠ [] ∧
        q.search str = .ok (.found docs (q.queryWords str), q.invertIndexTable) ∧
        ∀ d, d ∈ docs ↔ ∀ w ∈ q.queryWords str, q.invertIndexTable.Lists w d := by
  obtain ⟨docs, hdocs, -, hmem⟩ := getDocs_eq hne htable
  have hfrq : ∀ w ∈ q.queryWords str, w ∈ wordSegmentation q.cut q.stopWordList str :=
    fun w hw => Std.TreeMap.mem_keys.mp hw
  obtain ⟨base, hbase⟩ := q.getBaseW_isOk _ hfrq htable
  have hall : (q.queryWords str).all (q.invertIndexTable.contains ·) = true := by
    simpa [Std.TreeMap.contains_iff_mem] using htable
  unfold queryWords at *
  unfold search
  simp only [hall, if_true, hbase, hdocs, bind, Except.bind]
  by_cases hnil : docs = []
  · left
    refine ⟨fun d hd => ?_, by simp [hnil, pure, Except.pure]⟩
    simpa [hnil] using (hmem d).mpr hd
  · right
    obtain ⟨rows, hrows, hfst⟩ := weightRows_isOk fun d hd => (hmem d).mp hd
    refine ⟨rank base rows, ?_, by simp [hnil, hrows, pure, Except.pure], fun d => ?_⟩
    · obtain ⟨d, hd⟩ := List.exists_mem_of_ne_nil docs hnil
      exact List.ne_nil_of_mem (mem_rank.mpr (hfst ▸ hd))
    · rw [mem_rank, hfst, hmem]

/-! ## Queries without usable words -/

/-- On `str` the cache-miss path does not read an element of an empty word vector, and a query
whose words are all stop words gets the no-answer document. -/
def GuardsEmptyWords (q : WordQuery F) (str : Bytes) : Prop :=
  q.search str ≠ .error .emptyWords ∧
    ((∀ w ∈ q.cut (cStr str), w ∈ q.stopWordList) →
      ∃ table, q.answer str = .ok (q.returnNoAnswer, table))

/-- **The empty-vector guard.** The cache-miss path is safe exactly on the queries that have a
word outside the stop list: the branch for an empty frequency map does not return. -/
theorem guardsEmptyWords_iff (q : WordQuery F) (str : Bytes) :
    q.GuardsEmptyWords str ↔ ∃ w ∈ q.cut (cStr str), w ∉ q.stopWordList := by
  constructor
  · intro h
    obtain ⟨hsafe, -⟩ := h
    by_contra hno
    push Not at hno
    exact hsafe (search_of_no_words (queryWords_eq_nil_iff.mpr hno))
  · intro hword
    have hne : q.queryWords str ≠ [] := fun hnil => by
      obtain ⟨w, hw, hstop⟩ := hword
      exact hstop (queryWords_eq_nil_iff.mp hnil w hw)
    refine ⟨?_, fun hall => ?_⟩
    · by_cases htable : ∀ w ∈ q.queryWords str, w ∈ q.invertIndexTable
      · rcases search_of_known_words hne htable with ⟨-, h⟩ | ⟨docs, -, h, -⟩ <;> simp [h]
      · push Not at htable
        simp [search_of_unknown_word htable]
    · obtain ⟨w, hw, hstop⟩ := hword
      exact absurd (hall w hw) hstop

/-- A server with one page and one stop word, whose segmenter splits at whitespace. -/
noncomputable def sampleServer : WordQuery Dbl where
  cut := tokens
  stopWordList := readStopWordList (lit "the")
  write _ := lit "{}\n"
  pageLib := [⟨lit "cat", lit "cat.org", lit "cat\nthe cat"⟩]
  invertIndexTable := (∅ : IndexTable Dbl).insert (lit "cat") ((∅ : Postings Dbl).insert 0 (.fin 1))

/-- An empty line, which arrives as one NUL byte, is such a query, and so is a stop word. -/
theorem not_guardsEmptyWords_nul :
    sampleServer.cut [] = [] ∧ ¬ sampleServer.GuardsEmptyWords [NUL] ∧
      ¬ sampleServer.GuardsEmptyWords (lit "the") := by
  refine ⟨rfl, fun h => h.1 (search_of_no_words ?_), fun h => h.1 (search_of_no_words ?_)⟩
  · rw [queryWords_eq_nil_iff]
    decide
  · rw [queryWords_eq_nil_iff]
    decide

/-! ## Conjunctive matching -/

/-- The index table after `doQuery`, where `ret` is what the cache returns for the query. The empty
query and a cached one do not get to the table. -/
def tableAfter (q : WordQuery F) (ret str : Bytes) : Except Undefined (IndexTable F) :=
  if str = [] then .ok q.invertIndexTable
  else if ret ≠ lit "-1" then .ok q.invertIndexTable
  else (q.search str).map Prod.snd

/-- What `doQuery` is to do with the index. -/
structure ConjunctiveMatching (q : WordQuery F) (ret str : Bytes) : Prop where
  /-- The documents of a query whose words are all in the index, and every `find` that the code
  dereferences. -/
  documents : q.queryWords str ≠ [] → (∀ w ∈ q.queryWords str, w ∈ q.invertIndexTable) →
    ∃ docs, getDocs q.invertIndexTable (q.queryWords str) = .ok (docs, q.invertIndexTable) ∧
      docs.Pairwise (· < ·) ∧
      (∀ d, d ∈ docs ↔ ∀ w ∈ q.queryWords str, q.invertIndexTable.Lists w d) ∧
      (∃ rows, weightRows q.invertIndexTable (q.queryWords str) docs = .ok rows ∧
        rows.map Prod.fst = docs) ∧
      ∃ base, q.getBaseW (wordSegmentation q.cut q.stopWordList str) (q.queryWords str) = .ok base
  unchanged : q.tableAfter ret str = .ok q.invertIndexTable

/-- A query with a word outside the stop list leaves the table as it is. -/
theorem search_table {q : WordQuery F} {str : Bytes} (hne : q.queryWords str ≠ []) :
    ∃ verdict, q.search str = .ok (verdict, q.invertIndexTable) := by
  by_cases htable : ∀ w ∈ q.queryWords str, w ∈ q.invertIndexTable
  · rcases search_of_known_words hne htable with ⟨-, h⟩ | ⟨docs, -, h, -⟩
    · exact ⟨_, h⟩
    · exact ⟨_, h⟩
  · push Not at htable
    exact ⟨_, search_of_unknown_word htable⟩

theorem tableAfter_eq_iff (q : WordQuery F) (ret str : Bytes) :
    q.tableAfter ret str = .ok q.invertIndexTable ↔
      str = [] ∨ ret ≠ lit "-1" ∨ ∃ w ∈ q.cut (cStr str), w ∉ q.stopWordList := by
  unfold tableAfter
  by_cases hstr : str = []
  · rw [if_pos hstr]
    exact iff_of_true rfl (.inl hstr)
  rw [if_neg hstr, or_iff_right hstr]
  by_cases hret : ret ≠ lit "-1"
  · rw [if_pos hret]
    exact iff_of_true rfl (.inl hret)
  rw [if_neg hret, or_iff_right hret]
  have hwords : (∃ w ∈ q.cut (cStr str), w ∉ q.stopWordList) ↔ q.queryWords str ≠ [] := by
    rw [Ne, queryWords_eq_nil_iff]
    push Not
    rfl
  rw [hwords]
  constructor
  · intro h hnil
    rw [search_of_no_words hnil] at h
    cases h
  · intro hne
    obtain ⟨verdict, h⟩ := search_table hne
    rw [h]
    rfl

/-- **Conjunctive matching.** -/
theorem conjunctiveMatching_iff (q : WordQuery F) (ret str : Bytes) :
    q.ConjunctiveMatching ret str ↔
      str = [] ∨ ret ≠ lit "-1" ∨ ∃ w ∈ q.cut (cStr str), w ∉ q.stopWordList := by
  rw [← tableAfter_eq_iff]
  constructor
  · exact fun h => h.unchanged
  · refine fun h => ⟨fun hne htable => ?_, h⟩
    obtain ⟨docs, hdocs, hpair, hmem⟩ := getDocs_eq hne htable
    exact ⟨docs, hdocs, hpair, hmem, weightRows_isOk fun d hd => (hmem d).mp hd,
      q.getBaseW_isOk _ (fun w hw => Std.TreeMap.mem_keys.mp hw) htable⟩

/-- A query with nothing but a stop word, which is not in the cache. -/
theorem not_conjunctiveMatching_stopWord :
    ¬ sampleServer.ConjunctiveMatching (lit "-1") (lit "the") := by
  intro h
  have htable := h.unchanged
  rw [tableAfter_eq_iff] at htable
  revert htable
  decide

end WordQuery

end SearchServer

import SearchServer.Lib.Maps
import SearchServer.Vocabulary

/-!
# Pages of the offline program

`WebPage` (`offline/WebPage.cc`): the record written to the page file, the words of the content,
the postings of a page in the inverted index and their weights, and the comparison of two pages by
fingerprint.

* `mem_buildWordMap`: which words a page has.
* `getElem?_getIndexTable`, `getElem?_compute`: what a page does to the postings of each word.
-/

namespace SearchServer

variable {F : Type} [DoubleOps F]

open DoubleOps

structure WebPage (F : Type) where
  docTitle : Bytes
  docUrl : Bytes
  docContent : Bytes
  wordsMap : Std.TreeMap Bytes ℤ := ∅
  wordW : Std.TreeMap Bytes F := ∅
  /-- The norm of `wordW`, not initialised before `compute`. -/
  avgW : Option F := none
  u64 : UInt64 := 0

namespace WebPage

omit [DoubleOps F] in
/-- `getDoct`: the record of the page in the page file. -/
def getDoct (page : WebPage F) (docId : ℤ) : Bytes :=
  lit "<doc>" ++
    (lit "\n\t" ++ lit "<docid>" ++ decimal docId ++ lit "<docid>") ++
    (lit "\n\t" ++ lit "<url>" ++ page.docUrl ++ lit "<url>") ++
    (lit "\n\t" ++ lit "<title>" ++ page.docTitle ++ lit "<title>") ++
    (lit "\n\t" ++ lit "<content>" ++ page.docContent ++ lit "<content>") ++
    (lit "\n" ++ lit "<doc>" ++ lit "\n")

/-- `buildWordMap`: the content is split at whitespace and the pieces are cut. -/
def buildWordMap (cut : Cut) (stopWord : Std.TreeSet Bytes) (page : WebPage F) : WebPage F :=
  { page with
    wordsMap := (tokens page.docContent).foldl
      (fun wordsMap s => countWords stopWord wordsMap (cut s)) page.wordsMap }

/-- `getIndexTable`: the page is listed under its words, with weight 0. -/
def getIndexTable (page : WebPage F) (table : IndexTable F) (idx : ℤ) : IndexTable F :=
  page.wordsMap.toList.foldl (fun table word =>
    table.alter word.1 fun m => some ((m.getD ∅).insertIfNew idx (ofInt 0))) table

/-- The weight of a word that occurs `tf` times and is in `df` of `sum` documents. -/
def weight (tf : ℤ) (df : ℕ) (sum : ℤ) : F :=
  mul (ofInt tf) (log (div (ofInt sum) (add (ofInt df) (ofInt 1))))

/-- The first loop of `compute`: the weights of the words. -/
def computeW (page : WebPage F) (table : IndexTable F) (sum : ℤ) :
    IndexTable F × Std.TreeMap Bytes F :=
  page.wordsMap.toList.foldl (fun (table, wordW) word =>
    let (m, table) := table.at word.1
    (table, wordW.insert word.1 (weight word.2 m.size sum))) (table, page.wordW)

def norm (wordW : Std.TreeMap Bytes F) : F :=
  sqrt (wordW.toList.foldl (fun sumW word => add sumW (mul word.2 word.2)) (ofInt 0))

/-- The last loop of `compute`: the normalised weights are stored in the postings. -/
def storeW (wordW : Std.TreeMap Bytes F) (avgW : F) (table : IndexTable F) (idx : ℤ) :
    IndexTable F :=
  wordW.toList.foldl (fun table word =>
    let (m, table) := table.at word.1
    if idx ∈ m then table.insert word.1 (m.insert idx (div word.2 avgW)) else table) table

/-- The last loop of `compute`, when every `find` in it succeeds. -/
def storeFound (wordW : Std.TreeMap Bytes F) (avgW : F) (table : IndexTable F) (idx : ℤ) :
    Option (IndexTable F) :=
  wordW.toList.foldlM (fun table word =>
    let (m, table) := table.at word.1
    if idx ∈ m then some (table.insert word.1 (m.insert idx (div word.2 avgW))) else none) table

def compute (page : WebPage F) (table : IndexTable F) (idx sum : ℤ) : WebPage F × IndexTable F :=
  let (table, wordW) := page.computeW table sum
  let avgW := norm wordW
  ({ page with wordW := wordW, avgW := some avgW }, storeW wordW avgW table idx)

end WebPage

/-- `Simhasher::isEqual`: at most `n` bits differ. -/
def isEqual (lhs rhs : UInt64) (n : ℕ) : Bool := (lhs ^^^ rhs).toBitVec.cpop.toNat ≤ n

namespace WebPage

omit [DoubleOps F] in
/-- `operator==`, with the default bound of `isEqual`. -/
def equal (lhs rhs : WebPage F) : Bool := isEqual lhs.u64 rhs.u64 3

omit [DoubleOps F] in
def less (lhs rhs : WebPage F) : Bool := lhs.u64 < rhs.u64

/-! ## The words of a page -/

omit [DoubleOps F] in
theorem mem_buildWordMap {cut : Cut} {stopWord : Std.TreeSet Bytes} {page : WebPage F} {w : Bytes} :
    w ∈ (page.buildWordMap cut stopWord).wordsMap ↔
      w ∈ page.wordsMap ∨ w ∈ (tokens page.docContent).flatMap cut ∧ w ∉ stopWord := by
  have key : ∀ (l : List Bytes) (m : Std.TreeMap Bytes ℤ),
      w ∈ l.foldl (fun wordsMap s => countWords stopWord wordsMap (cut s)) m ↔
        w ∈ m ∨ w ∈ l.flatMap cut ∧ w ∉ stopWord := by
    intro l
    induction l with
    | nil => simp
    | cons s l ih =>
      intro m
      rw [List.foldl_cons, ih, mem_countWords, List.flatMap_cons, List.mem_append]
      tauto
  exact key _ _

/-! ## The postings of a page -/

theorem getElem?_getIndexTable (page : WebPage F) (table : IndexTable F) (idx : ℤ) (w : Bytes) :
    (page.getIndexTable table idx)[w]? =
      if w ∈ page.wordsMap then some ((table[w]?.getD ∅).insertIfNew idx (ofInt 0))
      else table[w]? := by
  rw [getIndexTable, getElem?_foldl_toList
    (g := fun _ _ m => some ((m.getD ∅).insertIfNew idx (ofInt 0)))]
  · cases hw : page.wordsMap[w]? with
    | none => rw [if_neg (by simp [Std.TreeMap.mem_iff_isSome_getElem?, hw])]; rfl
    | some n => rw [if_pos (by simp [Std.TreeMap.mem_iff_isSome_getElem?, hw])]; rfl
  · intro t p
    exact Std.TreeMap.getElem?_alter_self
  · intro t p k hk
    exact getElem?_alter_ne hk ..

/-- The weights that `compute` gives to the words of a page, when the word `w` is in `df w` of
`sum` documents. -/
def weights (page : WebPage F) (df : Bytes → ℕ) (sum : ℤ) : Std.TreeMap Bytes F :=
  page.wordsMap.toList.foldl (fun wordW word =>
    wordW.insert word.1 (weight word.2 (df word.1) sum)) page.wordW

theorem getElem?_weights (page : WebPage F) (df : Bytes → ℕ) (sum : ℤ) (w : Bytes) :
    (page.weights df sum)[w]? =
      (page.wordsMap[w]?).elim page.wordW[w]? fun tf => some (weight tf (df w) sum) := by
  rw [weights, getElem?_foldl_toList (g := fun w tf _ => some (weight tf (df w) sum))]
  · intro t p
    exact Std.TreeMap.getElem?_insert_self
  · intro t p k hk
    exact getElem?_insert_ne hk ..

/-- When the table has all words of the page, the first loop of `compute` leaves it as it is. -/
theorem computeW_eq {page : WebPage F} {table : IndexTable F} {df : Bytes → ℕ} (sum : ℤ)
    (h : ∀ w ∈ page.wordsMap, ∃ m, table[w]? = some m ∧ m.size = df w) :
    page.computeW table sum = (table, page.weights df sum) := by
  have key : ∀ (l : List (Bytes × ℤ)), (∀ word ∈ l, word.1 ∈ page.wordsMap) →
      ∀ W : Std.TreeMap Bytes F,
        l.foldl (fun (table, wordW) word =>
          let (m, table) := IndexTable.at table word.1
          (table, wordW.insert word.1 (weight word.2 m.size sum))) (table, W) =
        (table, l.foldl (fun wordW word =>
          wordW.insert word.1 (weight word.2 (df word.1) sum)) W) := by
    intro l
    induction l with
    | nil => exact fun _ _ => rfl
    | cons word l ih =>
      intro hl W
      obtain ⟨m, hm, hsize⟩ := h word.1 (hl word List.mem_cons_self)
      rw [List.foldl_cons, List.foldl_cons, ← hsize,
        ← ih (fun x hx => hl x (List.mem_cons_of_mem _ hx))]
      simp only [IndexTable.at_of_getElem? hm]
  refine key _ (fun word hword => ?_) _
  rw [Std.TreeMap.mem_iff_isSome_getElem?,
    Std.TreeMap.mem_toList_iff_getElem?_eq_some.mp (show (word.1, word.2) ∈ _ from hword)]
  rfl

theorem getElem?_storeW (wordW : Std.TreeMap Bytes F) (avgW : F) (table : IndexTable F) (idx : ℤ)
    (w : Bytes) :
    (storeW wordW avgW table idx)[w]? =
      (wordW[w]?).elim table[w]? fun x =>
        some (if idx ∈ table[w]?.getD ∅ then (table[w]?.getD ∅).insert idx (div x avgW)
          else table[w]?.getD ∅) := by
  rw [storeW, getElem?_foldl_toList (g := fun _ x m =>
    some (if idx ∈ m.getD ∅ then (m.getD ∅).insert idx (div x avgW) else m.getD ∅))]
  · intro t p
    cases hm : t[p.1]? with
    | some m =>
      rw [IndexTable.at_of_getElem? hm]
      by_cases hidx : idx ∈ m
      · simp [hidx]
      · simp [hidx, hm]
    | none => simp [IndexTable.at, hm]
  · intro t p k hk
    cases hm : t[p.1]? with
    | some m =>
      rw [IndexTable.at_of_getElem? hm]
      by_cases hidx : idx ∈ m
      · simp [hidx, getElem?_insert_ne hk]
      · simp [hidx]
    | none => simp [IndexTable.at, hm, getElem?_insert_ne hk]

/-- When the page is listed under all its words, no `find` fails. The loop removes no posting. -/
theorem storeFound_eq {wordW : Std.TreeMap Bytes F} {table : IndexTable F} {idx : ℤ} (avgW : F)
    (h : ∀ w ∈ wordW, idx ∈ table[w]?.getD ∅) :
    storeFound wordW avgW table idx = some (storeW wordW avgW table idx) := by
  have key : ∀ (l : List (Bytes × F)) (t : IndexTable F), (∀ word ∈ l, idx ∈ t[word.1]?.getD ∅) →
      l.foldlM (fun table word =>
        let (m, table) := IndexTable.at table word.1
        if idx ∈ m then some (table.insert word.1 (m.insert idx (div word.2 avgW))) else none) t =
      some (l.foldl (fun table word =>
        let (m, table) := IndexTable.at table word.1
        if idx ∈ m then table.insert word.1 (m.insert idx (div word.2 avgW)) else table) t) := by
    intro l
    induction l with
    | nil => exact fun t _ => rfl
    | cons word l ih =>
      intro t ht
      have hidx := ht word List.mem_cons_self
      cases hm : t[word.1]? with
      | none =>
        rw [hm] at hidx
        simp at hidx
      | some m =>
        rw [hm, Option.getD_some] at hidx
        rw [List.foldlM_cons, List.foldl_cons, IndexTable.at_of_getElem? hm]
        simp only [hidx, if_true]
        refine ih _ fun x hx => ?_
        rw [Std.TreeMap.getElem?_insert]
        split_ifs
        · simp
        · exact ht x (List.mem_cons_of_mem _ hx)
  refine key _ table fun word hword => h word.1 ?_
  rw [Std.TreeMap.mem_iff_isSome_getElem?,
    Std.TreeMap.mem_toList_iff_getElem?_eq_some.mp (show (word.1, word.2) ∈ _ from hword)]
  rfl

end WebPage

end SearchServer

import SearchServer.Offline.StoreOnDisk
import SearchServer.Offline.Weights
import SearchServer.Process.IndexLibrary

/-!
# The index file: writing and reading

`PageLibPreprocessor::storeOnDisk` writes the inverted index, and `WordQuery::loadLibrary` reads it.

**Theorem (`roundTripsIndex_iff`).** The table that is read has the words and the documents of the
one that was written, for every library that can be indexed, exactly when every page with words has
a word whose weight is not 0.

When all weights of a page are 0, the page is listed with weights that are no numbers. The reader
stops at the first of these, so it loses the page, and the pages that come after it on the line.
What it reads of a line is the documents before the first weight that is no number
(`readPostings_putPostings`).
-/

namespace SearchServer

open PageLibPreprocessor WordQuery

/-! ## The postings of a line -/

def numeric (pai : ℤ × Dbl) : Bool :=
  match pai.2 with
  | .nan => false
  | _ => true

/-- A posting that `compute` can store: the weight is at most 1 or no number. -/
structure Storable (pai : ℤ × Dbl) : Prop where
  lower : -2 ^ 31 ≤ pai.1
  upper : pai.1 < 2 ^ 31
  weight : pai.2 = .nan ∨ ∃ x, pai.2 = .fin x ∧ |x| ≤ 1

/-- How the weights of a word are written, when `sign` is the sign of those that have none. -/
noncomputable abbrev put (sign : ℤ → Bool) (d : ℤ) (w : Dbl) : Bytes := putDouble (sign d) w

theorem readPostings_putPosting {pai : ℤ × Dbl} (h : Storable pai) (sign : ℤ → Bool) (fuel : ℕ)
    (r : Bytes) :
    (numeric pai = false ∧
        readPostings (fuel + 1) (SP :: (putPosting (put sign) pai ++ r)) = []) ∨
      (numeric pai = true ∧ ∃ v,
        readPostings (fuel + 1) (SP :: (putPosting (put sign) pai ++ r)) =
          (pai.1, v) :: readPostings fuel (SP :: r)) := by
  have hassoc : SP :: (putPosting (put sign) pai ++ r) =
      SP :: (decimal pai.1 ++ SP :: (putDouble (sign pai.1) pai.2 ++ SP :: r)) := by
    have happend : ∀ a b : Bytes, a ++ [SP] ++ b ++ [SP] ++ r = a ++ SP :: (b ++ SP :: r) := by
      intro a b
      simp
    exact congrArg (SP :: ·) (happend _ _)
  have hint : getInt (SP :: (decimal pai.1 ++ SP :: (putDouble (sign pai.1) pai.2 ++ SP :: r))) =
      some (pai.1, SP :: (putDouble (sign pai.1) pai.2 ++ SP :: r)) := by
    rw [getInt_space (c := SP) (by decide)]
    refine getInt_decimal h.lower h.upper fun c hc => ?_
    rw [← Option.some.inj hc]
    rfl
  have hends : EndsNumber (SP :: r) := fun c hc => by
    rw [← Option.some.inj hc]
    rfl
  have hskip := getDouble_space (c := SP) (by decide) (putDouble (sign pai.1) pai.2 ++ SP :: r)
  rw [hassoc, readPostings, hint]
  simp only [hskip]
  rcases h.weight with hnan | ⟨x, hx, hle⟩
  · refine Or.inl ⟨by rw [numeric, hnan], ?_⟩
    rw [hnan, getDouble_putDouble_nan]
  · obtain ⟨v, hv⟩ := getDouble_putDouble (sign pai.1) hle hends
    refine Or.inr ⟨by rw [numeric, hx], v, ?_⟩
    rw [hx, hv]

/-- **The documents that are read** are those before the first weight that is no number. -/
theorem readPostings_putPostings {ps : List (ℤ × Dbl)} (h : ∀ pai ∈ ps, Storable pai)
    (sign : ℤ → Bool) {fuel : ℕ} (hfuel : ps.length ≤ fuel) :
    (readPostings fuel (SP :: ps.flatMap (putPosting (put sign)))).map Prod.fst =
      (ps.takeWhile numeric).map Prod.fst := by
  induction ps generalizing fuel with
  | nil =>
    cases fuel with
    | zero => rfl
    | succ fuel => rfl
  | cons pai ps ih =>
    obtain ⟨fuel, rfl⟩ : ∃ n, fuel = n + 1 := ⟨fuel - 1, by rw [List.length_cons] at hfuel; omega⟩
    rw [List.flatMap_cons]
    rcases readPostings_putPosting (h pai List.mem_cons_self) sign fuel
      (ps.flatMap (putPosting (put sign))) with ⟨hno, hread⟩ | ⟨hnum, v, hread⟩
    · rw [hread, List.takeWhile_cons_of_neg (by simp [hno])]
      rfl
    · rw [hread, List.takeWhile_cons_of_pos hnum, List.map_cons, List.map_cons,
        ih (fun p hp => h p (List.mem_cons_of_mem _ hp)) (by rw [List.length_cons] at hfuel; omega)]

/-! ## The lines -/

/-- An entry of a table whose line can be written. -/
structure StorableEntry (entry : Bytes × Postings Dbl) : Prop where
  ne_nil : entry.1 ≠ []
  not_space : ∀ c ∈ entry.1, isspace c = false
  postings : ∀ pai ∈ entry.2.toList, Storable pai

noncomputable def lineText (sign : ℤ → Bool) (entry : Bytes × Postings Dbl) : Bytes :=
  entry.1 ++ SP :: SP :: entry.2.toList.flatMap (putPosting (put sign))

theorem indexLine_eq (sign : Bytes → ℤ → Bool) (entry : Bytes × Postings Dbl) :
    indexLine (fun w => put (sign w)) entry = lineText (sign entry.1) entry ++ [LF] := by
  have happend : ∀ a b : Bytes, a ++ [SP, SP] ++ b ++ [LF] = (a ++ SP :: SP :: b) ++ [LF] := by
    intro a b
    simp
  exact happend _ _

theorem newline_not_mem_putPosting (sign : ℤ → Bool) (pai : ℤ × Dbl) :
    LF ∉ putPosting (put sign) pai := by
  have hsp : LF ∉ lit " " := by decide
  intro h
  simp only [putPosting, List.mem_append] at h
  rcases h with ((h | h) | h) | h
  · rcases mem_decimal h with h | h <;> cases h
  · exact hsp h
  · exact absurd (not_isspace_of_mem_putDouble h) (by decide)
  · exact hsp h

theorem newline_not_mem_lineText {entry : Bytes × Postings Dbl} (h : StorableEntry entry)
    (sign : ℤ → Bool) : LF ∉ lineText sign entry := by
  intro hmem
  rcases List.mem_append.mp hmem with hmem | hmem
  · exact absurd (h.not_space LF hmem) (by decide)
  rcases List.mem_cons.mp hmem with hmem | hmem
  · cases hmem
  rcases List.mem_cons.mp hmem with hmem | hmem
  · cases hmem
  · obtain ⟨pai, -, hpai⟩ := List.mem_flatMap.mp hmem
    exact newline_not_mem_putPosting sign pai hpai

theorem lines_storeIndex {entries : List (Bytes × Postings Dbl)}
    (h : ∀ entry ∈ entries, StorableEntry entry) (sign : Bytes → ℤ → Bool) :
    lines (storeIndex (fun w => put (sign w)) entries) =
      entries.map fun entry => lineText (sign entry.1) entry := by
  induction entries with
  | nil => rfl
  | cons entry entries ih =>
    rw [storeIndex, List.flatMap_cons, indexLine_eq, List.append_assoc, List.singleton_append,
      lines_append (newline_not_mem_lineText (h entry List.mem_cons_self) _), List.map_cons]
    exact congrArg _ (ih fun e he => h e (List.mem_cons_of_mem _ he))

theorem readPostings_space (fuel : ℕ) (s : Bytes) :
    readPostings fuel (SP :: s) = readPostings fuel s := by
  cases fuel with
  | zero => rfl
  | succ fuel => rw [readPostings, readPostings, getInt_space (c := SP) (by decide)]

/-- Every posting has at least one byte. -/
theorem length_le_flatMap (sign : ℤ → Bool) (ps : List (ℤ × Dbl)) :
    ps.length ≤ (ps.flatMap (putPosting (put sign))).length := by
  induction ps with
  | nil => exact le_rfl
  | cons pai ps ih =>
    have hpai : 1 ≤ (putPosting (put sign) pai).length := by
      have hsp : (lit " ").length = 1 := rfl
      rw [putPosting, List.length_append, hsp]
      omega
    rw [List.flatMap_cons, List.length_append, List.length_cons]
    omega

theorem loadLine_lineText {entry : Bytes × Postings Dbl} (h : StorableEntry entry)
    (sign : ℤ → Bool) :
    ∃ read : List (ℤ × ℚ), read.map Prod.fst = (entry.2.toList.takeWhile numeric).map Prod.fst ∧
      ∀ table, loadLine table (lineText sign entry) = addPostings table entry.1 read := by
  let text := entry.2.toList.flatMap (putPosting (put sign))
  refine ⟨readPostings (SP :: SP :: text).length (SP :: SP :: text), ?_, fun table => ?_⟩
  · rw [readPostings_space]
    refine readPostings_putPostings h.postings sign ?_
    have := length_le_flatMap sign entry.2.toList
    simp only [List.length_cons, text]
    omega
  · rw [loadLine, lineText, getToken_append h.ne_nil h.not_space (c := SP) (by decide)]

/-! ## The file -/

/-- **Loading the index.** Of every entry the table that is read has the documents before the first
weight that is no number, and it has no entries that were not written. -/
theorem loadIndex_storeIndex {entries : List (Bytes × Postings Dbl)}
    (h : ∀ entry ∈ entries, StorableEntry entry)
    (hdistinct : entries.Pairwise fun a b => a.1 ≠ b.1) (sign : Bytes → ℤ → Bool) (w : Bytes) :
    let table := loadIndex (storeIndex (fun w => put (sign w)) entries)
    (∀ m, (w, m) ∈ entries → (w ∈ table ↔ m.toList.takeWhile numeric ≠ []) ∧
        ∀ d, table.Lists w d ↔ d ∈ (m.toList.takeWhile numeric).map Prod.fst) ∧
      ((∀ m, (w, m) ∉ entries) → w ∉ table ∧ ∀ d, ¬ table.Lists w d) := by
  intro table
  choose! read hread hload using fun entry (he : StorableEntry entry) =>
    loadLine_lineText he (sign entry.1)
  let l := entries.map fun entry => (entry.1, read entry)
  have htable : table = l.foldl (fun table line => addPostings table line.1 line.2) ∅ := by
    show (lines (storeIndex _ entries)).foldl loadLine ∅ = _
    rw [lines_storeIndex h, List.foldl_map, List.foldl_map]
    exact List.foldl_ext _ _ _ fun t entry he => hload entry (h entry he) t
  have hl : l.Pairwise fun a b => a.1 ≠ b.1 := List.pairwise_map.mpr hdistinct
  obtain ⟨hin, hout⟩ := getElem?_foldl_addPostings hl w
  rw [← htable] at hin hout
  refine ⟨fun m hm => ?_, fun hno => ?_⟩
  · have hget := hin (read (w, m)) (List.mem_map.mpr ⟨(w, m), hm, rfl⟩)
    have hkeys := hread (w, m) (h _ hm)
    refine ⟨?_, fun d => ?_⟩
    · rw [Std.TreeMap.mem_iff_isSome_getElem?, hget, isSome_extendPostings]
      have hnil : read (w, m) = [] ↔ m.toList.takeWhile numeric = [] := by
        rw [← List.map_eq_nil_iff (f := Prod.fst), hkeys, List.map_eq_nil_iff]
      simp [hnil]
    · rw [IndexTable.lists_iff, hget, ← Std.TreeMap.mem_iff_isSome_getElem?, mem_extendPostings,
        hkeys]
      simp
  · have hget := hout fun ps hps => by
      obtain ⟨entry, he, heq⟩ := List.mem_map.mp hps
      exact hno entry.2 ((Prod.mk.inj heq).1 ▸ he)
    refine ⟨?_, fun d => ?_⟩
    · rw [Std.TreeMap.mem_iff_isSome_getElem?, hget]
      simp
    · rw [IndexTable.lists_iff, hget]
      simp

/-! ## The round trip -/

/-- The index of the pages can be built, and it survives being written and read: the table that is
read has the same words and the same documents, in whatever order the entries are written. -/
def RoundTripsIndex (pages : List (WebPage Dbl)) : Prop :=
  ∃ lib, indexPages ⟨pages, ∅⟩ = some lib ∧
    ∀ (entries : List (Bytes × Postings Dbl)) (sign : Bytes → ℤ → Bool),
      entries.Perm lib.invertIndexTable.toList →
      (loadIndex (storeIndex (fun w => put (sign w)) entries)).SameDocs lib.invertIndexTable

variable {pages : List (WebPage Dbl)} {table : IndexTable Dbl}

/-- A document that is listed is a page with the word. -/
theorem exists_page_of_posted (h : Posted pages (entry pages) table) {w : Bytes} {m : Postings Dbl}
    (hm : table[w]? = some m) {d : ℤ} {y : Dbl} (hy : m[d]? = some y) :
    entry pages w d = some y ∧ 0 ≤ d ∧ d < pages.length ∧
      ∃ page ∈ pages, pageAt pages d = some page ∧ w ∈ page.wordsMap := by
  have hentry := h.posting w d
  rw [hm, Option.getD_some, hy] at hentry
  obtain ⟨page, hpage, hw⟩ := Option.bind_eq_some_iff.mp hentry.symm
  obtain ⟨tf, htf, -⟩ := Option.map_eq_some_iff.mp hw
  have hnonneg : 0 ≤ d := by
    by_contra hneg
    rw [pageAt, if_pos (by omega)] at hpage
    cases hpage
  rw [pageAt, if_neg (by omega)] at hpage
  have hlt := (List.getElem?_eq_some_iff.mp hpage).1
  refine ⟨hentry.symm, hnonneg, by omega, page, List.mem_of_getElem? hpage, ?_, ?_⟩
  · rw [pageAt, if_neg (by omega), hpage]
  · rw [Std.TreeMap.mem_iff_isSome_getElem?, htf]
    rfl

section

variable (hfresh : ∀ page ∈ pages, page.wordW = ∅)
  (hwords : ∀ page ∈ pages, ∀ w ∈ page.wordsMap, w ≠ [] ∧ ∀ c ∈ w, isspace c = false)

include hfresh

theorem storable_of_posted (h : Posted pages (entry pages) table) (hlen : pages.length < 2 ^ 31)
    {w : Bytes} {m : Postings Dbl} (hm : table[w]? = some m) :
    ∀ pai ∈ m.toList, Storable pai := by
  intro pai hpai
  have hy := Std.TreeMap.mem_toList_iff_getElem?_eq_some.mp (show (pai.1, pai.2) ∈ _ from hpai)
  obtain ⟨hentry, hnonneg, hlt, page, hpage, hat, hw⟩ := exists_page_of_posted h hm hy
  refine ⟨by omega, by omega, ?_⟩
  by_cases hweight : HasWeight pages page
  · exact Or.inr (entry_of_hasWeight (by omega) hat (hfresh page hpage) hweight hentry)
  · rw [entry_of_not_hasWeight (by omega) hat (hfresh page hpage) hweight hw] at hentry
    exact Or.inl (Option.some.inj hentry).symm

include hwords

/-- The table that is built can be written. -/
theorem storableEntry_of_posted (h : Posted pages (entry pages) table)
    (hlen : pages.length < 2 ^ 31) {w : Bytes} {m : Postings Dbl} (hm : table[w]? = some m) :
    StorableEntry (w, m) := by
  have hw : w ∈ table := by
    rw [Std.TreeMap.mem_iff_isSome_getElem?, hm]
    rfl
  obtain ⟨page, hpage, hwp⟩ := docFreq_pos.mp ((h.mem_iff w).mp hw)
  exact ⟨(hwords page hpage w hwp).1, (hwords page hpage w hwp).2,
    storable_of_posted hfresh h hlen hm⟩

theorem sameDocs_of_hasWeight (h : Posted pages (entry pages) table)
    (hlen : pages.length < 2 ^ 31)
    (hall : ∀ page ∈ pages, ∀ w ∈ page.wordsMap, HasWeight pages page)
    {entries : List (Bytes × Postings Dbl)} (hperm : entries.Perm table.toList)
    (sign : Bytes → ℤ → Bool) :
    (loadIndex (storeIndex (fun w => put (sign w)) entries)).SameDocs table := by
  have hmem : ∀ w m, (w, m) ∈ entries ↔ table[w]? = some m := fun w m => by
    rw [hperm.mem_iff, Std.TreeMap.mem_toList_iff_getElem?_eq_some]
  have hdistinct : entries.Pairwise fun a b => a.1 ≠ b.1 :=
    (hperm.pairwise_iff fun hab => Ne.symm hab).mpr (pairwise_toList table)
  have hload := loadIndex_storeIndex (fun entry he =>
    storableEntry_of_posted hfresh hwords h hlen ((hmem entry.1 entry.2).mp he)) hdistinct sign
  -- All weights are numbers, so the reader stops nowhere.
  have hwhole : ∀ (w : Bytes) (m : Postings Dbl), table[w]? = some m →
      m.toList.takeWhile numeric = m.toList := by
    intro w m hm
    refine List.takeWhile_eq_self_iff.mpr fun pai hpai => ?_
    have hy := Std.TreeMap.mem_toList_iff_getElem?_eq_some.mp (show (pai.1, pai.2) ∈ _ from hpai)
    obtain ⟨hentry, hnonneg, hlt, page, hpage, hat, hw⟩ := exists_page_of_posted h hm hy
    obtain ⟨x, hx, -⟩ := entry_of_hasWeight (by omega) hat (hfresh page hpage)
      (hall page hpage w hw) hentry
    rw [numeric, hx]
  refine ⟨fun w => ?_, fun w d => ?_⟩
  · cases hm : table[w]? with
    | none =>
      have hno := (hload w).2 fun m hin => by
        rw [(hmem w m).mp hin] at hm
        cases hm
      rw [Std.TreeMap.mem_iff_isSome_getElem? (t := table), hm]
      simpa using hno.1
    | some m =>
      have hw : w ∈ table := by
        rw [Std.TreeMap.mem_iff_isSome_getElem?, hm]
        rfl
      have hne : m.toList ≠ [] := by
        intro hnil
        have hsize := h.size_eq w m hm
        rw [← Std.TreeMap.length_toList, hnil, List.length_nil] at hsize
        exact absurd ((h.mem_iff w).mp hw) (by omega)
      rw [((hload w).1 m ((hmem w m).mpr hm)).1, hwhole w m hm]
      exact iff_of_true hne hw
  · cases hm : table[w]? with
    | none =>
      have hno := (hload w).2 fun m hin => by
        rw [(hmem w m).mp hin] at hm
        cases hm
      rw [show table.Lists w d ↔ _ from IndexTable.lists_iff, hm]
      simpa using hno.2 d
    | some m =>
      rw [((hload w).1 m ((hmem w m).mpr hm)).2 d, hwhole w m hm,
        show table.Lists w d ↔ _ from IndexTable.lists_iff, hm, Std.TreeMap.map_fst_toList_eq_keys,
        Std.TreeMap.mem_keys, Option.getD_some, Std.TreeMap.mem_iff_isSome_getElem?]

theorem hasWeight_of_sameDocs (h : Posted pages (entry pages) table) (hlen : pages.length < 2 ^ 31)
    (hsame : (loadIndex (storeIndex (fun _ => put fun _ => false) table.toList)).SameDocs table)
    {page : WebPage Dbl} (hpage : page ∈ pages) {w : Bytes} (hw : w ∈ page.wordsMap) :
    HasWeight pages page := by
  by_contra hno
  obtain ⟨d, hd⟩ := List.mem_iff_getElem?.mp hpage
  have hat : pageAt pages (d : ℤ) = some page := (pageAt_natCast pages d).trans hd
  have hpos : 0 < pages.length := List.length_pos_of_mem hpage
  obtain ⟨m, hm, -⟩ := h.exists_of_mem hpage hw
  have hnan : m[(d : ℤ)]? = some .nan := by
    have := h.posting w d
    rwa [hm, entry_of_not_hasWeight hpos hat (hfresh page hpage) hno hw] at this
  have hload := ((loadIndex_storeIndex (fun entry he => storableEntry_of_posted hfresh hwords h hlen
    (Std.TreeMap.mem_toList_iff_getElem?_eq_some.mp (show (entry.1, entry.2) ∈ _ from he)))
    (pairwise_toList table) (fun _ _ => false) w).1 m
    (Std.TreeMap.mem_toList_iff_getElem?_eq_some.mpr hm)).2 d
  -- The page is listed with a weight that is no number, so it is not among those that are read.
  have hlists : table.Lists w d := by
    rw [IndexTable.lists_iff, hm, Option.getD_some, hnan]
    rfl
  obtain ⟨pai, hpai, hfst⟩ := List.mem_map.mp (hload.mp ((hsame.2 w d).mpr hlists))
  have hy := Std.TreeMap.mem_toList_iff_getElem?_eq_some.mp
    (show (pai.1, pai.2) ∈ _ from (List.takeWhile_prefix _).subset hpai)
  rw [hfst, hnan] at hy
  have hnum := List.mem_takeWhile_imp hpai
  rw [numeric, ← Option.some.inj hy] at hnum
  cases hnum

theorem hasWeight_of_roundTripsIndex (h : RoundTripsIndex pages) :
    pages.length < 2 ^ 31 ∧ ∀ page ∈ pages, ∀ w ∈ page.wordsMap, HasWeight pages page := by
  obtain ⟨lib, hlib, hsame⟩ := h
  have hlen : pages.length < 2 ^ 31 := (Option.ite_none_right_eq_some.mp hlib).1
  exact ⟨hlen, fun page hpage w hw => hasWeight_of_sameDocs hfresh hwords
    (indexPages_spec hfresh hlib) hlen (hsame _ (fun _ _ => false) (List.Perm.refl _)) hpage hw⟩

/-- **The index file.** It is read back as it was written when every page with words has a word with
a weight: one that is counted and is not in all pages but one. -/
theorem roundTripsIndex_iff :
    RoundTripsIndex pages ↔ pages.length < 2 ^ 31 ∧
      ∀ page ∈ pages, ∀ w ∈ page.wordsMap, HasWeight pages page := by
  constructor
  · exact hasWeight_of_roundTripsIndex hfresh hwords
  · intro h
    obtain ⟨hlen, hall⟩ := h
    obtain ⟨lib, hlib⟩ := exists_indexPages hlen
    exact ⟨lib, hlib, fun entries sign hperm => sameDocs_of_hasWeight hfresh hwords
      (indexPages_spec hfresh hlib) hlen hall hperm sign⟩

end

def onlyWord (w : Bytes) : WebPage Dbl :=
  { docTitle := [], docUrl := [], docContent := w, wordsMap := countWord ∅ w }

theorem mem_onlyWord {w v : Bytes} : v ∈ (onlyWord w).wordsMap ↔ v = w := by
  rw [onlyWord, mem_countWord]
  simp

theorem onlyWord_letter {c : UInt8} (hc : isspace c = false) :
    (onlyWord [c]).wordW = ∅ ∧
      ∀ w ∈ (onlyWord [c]).wordsMap, w ≠ [] ∧ ∀ d ∈ w, isspace d = false := by
  refine ⟨rfl, fun w hw => ?_⟩
  rw [mem_onlyWord.mp hw]
  refine ⟨List.cons_ne_nil _ _, fun d hd => ?_⟩
  rw [List.mem_singleton.mp hd]
  exact hc

/-- A page with the words "a" and "b". -/
def aAndB : WebPage Dbl where
  docTitle := []
  docUrl := []
  docContent := [97, 98]
  wordsMap := countWord (countWord ∅ [97]) [98]

theorem mem_aAndB {v : Bytes} : v ∈ aAndB.wordsMap ↔ v = [98] ∨ v = [97] := by
  rw [aAndB, mem_countWord, mem_countWord]
  simp

/-- Two pages with the word "a", one of which also has "b". The weight of "b" is 0. -/
theorem roundTripsIndex_sharedWord : RoundTripsIndex [aAndB, onlyWord [97]] := by
  have hletter := onlyWord_letter (c := 97) rfl
  have hwords : ∀ page ∈ [aAndB, onlyWord [97]], ∀ w ∈ page.wordsMap,
      w ≠ [] ∧ ∀ c ∈ w, isspace c = false := by
    refine List.forall_mem_cons.mpr ⟨fun w hw => ?_, List.forall_mem_singleton.mpr hletter.2⟩
    rcases mem_aAndB.mp hw with rfl | rfl
    · exact (onlyWord_letter (c := 98) rfl).2 _ (mem_onlyWord.mpr rfl)
    · exact hletter.2 _ (mem_onlyWord.mpr rfl)
  have hfresh : ∀ page ∈ [aAndB, onlyWord [97]], page.wordW = ∅ :=
    List.forall_mem_cons.mpr ⟨rfl, List.forall_mem_singleton.mpr hletter.1⟩
  have hfreq : docFreq [aAndB, onlyWord [97]] [97] = 2 := by decide +kernel
  have hweight : ∀ page ∈ [aAndB, onlyWord [97]], HasWeight [aAndB, onlyWord [97]] page := by
    refine List.forall_mem_cons.mpr ⟨?_, List.forall_mem_singleton.mpr ?_⟩
    · exact ⟨[97], 1, by decide +kernel, by decide, by rw [hfreq]; decide⟩
    · exact ⟨[97], 1, by decide +kernel, by decide, by rw [hfreq]; decide⟩
  exact (roundTripsIndex_iff hfresh hwords).mpr ⟨by decide, fun page hp _ _ => hweight page hp⟩

/-- Two pages, one with the word "a" and one with the word "b". -/
theorem not_roundTripsIndex_twoPages : ¬ RoundTripsIndex [onlyWord [97], onlyWord [98]] := by
  have hletter : ∀ page ∈ [onlyWord [97], onlyWord [98]], page.wordW = ∅ ∧
      ∀ w ∈ page.wordsMap, w ≠ [] ∧ ∀ d ∈ w, isspace d = false := by
    intro page hpage
    rcases List.mem_cons.mp hpage with rfl | hpage
    · exact onlyWord_letter rfl
    · rw [List.mem_singleton.mp hpage]
      exact onlyWord_letter rfl
  intro h
  obtain ⟨-, hall⟩ := hasWeight_of_roundTripsIndex (fun page hp => (hletter page hp).1)
    (fun page hp => (hletter page hp).2) h
  obtain ⟨w, tf, hw, -, hdf⟩ := hall _ List.mem_cons_self [97] (mem_onlyWord.mpr rfl)
  -- The only word of the first page is in one of two pages.
  have hword : w = [97] := mem_onlyWord.mp (by
    rw [Std.TreeMap.mem_iff_isSome_getElem?, hw]
    rfl)
  rw [hword] at hdf
  exact hdf (by decide +kernel)

end SearchServer

import SearchServer.Offline.InvertIndex
import SearchServer.Process.Server
import SearchServer.Process.WordQuery

/-!
# Offline and online segmentation

The offline program splits a text at whitespace and cuts the pieces (`WebPage::buildWordMap`). The
server cuts the C string of a whole query (`WordSegmentation`). A page that has all words of a
query, as the offline program counts words, need not be found.

**The segmenter** (`LawfulCut`). It returns no empty word, and returns each space, tab and newline
as a word of its own, between the words of the parts before and after it.

**Theorem (`findsPages_iff`).** A query finds the pages that have all its words, for every lawful
segmenter, stop list and page library, exactly when it is all whitespace, and so has no words, or
has neither whitespace nor NUL bytes.

The segmenter against which the other queries fail is `separatorCut`, which cuts only at spaces,
tabs and newlines. It returns the whitespace in a query as words, and these are in no page.
-/

namespace SearchServer

/-- A space, tab or newline. -/
def IsSeparator (c : UInt8) : Prop := c = SP ∨ c = 9 ∨ c = LF

instance (c : UInt8) : Decidable (IsSeparator c) :=
  inferInstanceAs (Decidable (c = SP ∨ c = 9 ∨ c = LF))

theorem IsSeparator.isspace {c : UInt8} (h : IsSeparator c) : isspace c = true := by
  rcases h with rfl | rfl | rfl <;> rfl

/-- What is known of `Jieba::Cut`. -/
structure LawfulCut (cut : Cut) : Prop where
  ne_nil : ∀ s, ∀ w ∈ cut s, w ≠ []
  separator : ∀ a s b, IsSeparator s → cut (a ++ s :: b) = cut a ++ [s] :: cut b

/-! ## The segmenter that cuts only at separators -/

/-- Put a byte that is no separator in front of the first word. -/
def consWord (c : UInt8) : List Bytes → List Bytes
  | (d :: w) :: ws => if IsSeparator d then [c] :: (d :: w) :: ws else (c :: d :: w) :: ws
  | ws => [c] :: ws

def separatorCut : Cut
  | [] => []
  | c :: s => if IsSeparator c then [c] :: separatorCut s else consWord c (separatorCut s)

theorem consWord_flatten (c : UInt8) (ws : List Bytes) :
    (consWord c ws).flatten = c :: ws.flatten := by
  unfold consWord
  split
  · split_ifs <;> simp
  · simp

theorem consWord_append (c : UInt8) (ws vs : List Bytes) {s : UInt8} (hs : IsSeparator s) :
    consWord c (ws ++ [s] :: vs) = consWord c ws ++ [s] :: vs := by
  match ws with
  | [] => simp [consWord, hs]
  | [] :: ws => simp [consWord]
  | (d :: w) :: ws =>
    simp only [consWord, List.cons_append]
    split_ifs <;> rfl

theorem separatorCut_flatten (s : Bytes) : (separatorCut s).flatten = s := by
  induction s with
  | nil => rfl
  | cons c s ih =>
    rw [separatorCut]
    split_ifs with hc
    · simp [ih]
    · rw [consWord_flatten, ih]

theorem separatorCut_lawful : LawfulCut separatorCut where
  ne_nil s := by
    induction s with
    | nil => simp [separatorCut]
    | cons c s ih =>
      rw [separatorCut]
      split_ifs with hc
      · simpa using ih
      · unfold consWord
        split
        · rename_i heq
          rw [heq] at ih
          split_ifs <;> simpa using ih
        · simpa using ih
  separator a s b hs := by
    induction a with
    | nil => simp [separatorCut, hs]
    | cons c a ih =>
      rw [List.cons_append, separatorCut, separatorCut, ih]
      split_ifs with hc
      · rfl
      · exact consWord_append c _ _ hs

theorem separatorCut_eq_singleton {s : Bytes} (hne : s ≠ []) (h : ∀ c ∈ s, ¬ IsSeparator c) :
    separatorCut s = [s] := by
  induction s with
  | nil => exact absurd rfl hne
  | cons c s ih =>
    rw [separatorCut, if_neg (h c List.mem_cons_self)]
    cases s with
    | nil => rfl
    | cons d s =>
      rw [ih (List.cons_ne_nil d s) fun e he => h e (List.mem_cons_of_mem _ he), consWord,
        if_neg (h d (by simp))]

theorem mem_of_mem_separatorCut {s w : Bytes} (hw : w ∈ separatorCut s) {c : UInt8} (hc : c ∈ w) :
    c ∈ s := by
  rw [← separatorCut_flatten s]
  exact List.mem_flatten.mpr ⟨w, hw, hc⟩

theorem exists_mem_separatorCut {s : Bytes} {c : UInt8} (hc : c ∈ s) :
    ∃ w ∈ separatorCut s, c ∈ w := by
  rw [← separatorCut_flatten s] at hc
  exact List.mem_flatten.mp hc

/-! ## The pages of a query -/

/-- The words of a text as the offline program cuts it. -/
def offlineWords (cut : Cut) (text : Bytes) : List Bytes := (tokens text).flatMap cut

variable (F : Type) [DoubleOps F]

/-- The query line `q` finds every page that has all its words. Here `pages` are the pages as they
are constructed, `lib` the library with the index built from them, and `server` a server with
the same segmenter, stop list and index; the weights in its index may be rounded. -/
def FindsPages (q : Bytes) : Prop :=
  ∀ (cut : Cut) (stopText : Bytes) (pages : List (WebPage F)) (lib : PageLibPreprocessor F)
    (server : WordQuery F), LawfulCut cut →
    (∀ page ∈ pages, page.wordsMap = ∅ ∧ page.wordW = ∅) →
    PageLibPreprocessor.buildInvertIndexTable cut (readStopWordList stopText) ⟨pages, ∅⟩ =
      some lib →
    server.cut = cut → server.stopWordList = readStopWordList stopText →
    server.invertIndexTable.SameDocs lib.invertIndexTable →
    ∀ (d : ℕ) (page : WebPage F),
      (pages.map (WebPage.buildWordMap cut (readStopWordList stopText)))[d]? = some page →
      (∃ w ∈ offlineWords cut q, w ∉ readStopWordList stopText) →
      (∀ w ∈ offlineWords cut q, w ∉ readStopWordList stopText → w ∈ page.wordsMap) →
      ∃ docs words table,
        server.search (Server.terminate (q ++ [LF])) = .ok (.found docs words, table) ∧
        (d : ℤ) ∈ docs

variable {F}

open PageLibPreprocessor

/-- The server sees the query line up to its first NUL. -/
theorem cStr_terminate_line (q : Bytes) : cStr (Server.terminate (q ++ [LF])) = cStr q := by
  rw [Server.terminate_line]
  by_cases hnul : NUL ∈ q
  · obtain ⟨t, ht⟩ := exists_of_nul_mem hnul
    rw [ht, List.append_assoc, List.cons_append, cStr_append_nul (nul_not_mem_cStr q),
      cStr_append_nul (nul_not_mem_cStr q)]
  · rw [cStr_append_nul hnul, cStr_eq_self hnul]

/-- A query that reaches the segmenter whole finds the pages. -/
theorem findsPages_of_whole {q : Bytes} (hq : ∀ c ∈ q, isspace c = false ∧ c ≠ NUL) :
    FindsPages F q := by
  intro cut stopText pages lib server _ hfresh hbuild hcut hstop htable d page hpage hsome hall
  have hposted := buildInvertIndexTable_spec (fun page hp => (hfresh page hp).2) hbuild
  have hnul : NUL ∉ q := fun h => (hq NUL h).2 rfl
  have hcstr : cStr (Server.terminate (q ++ [LF])) = q := by
    rw [cStr_terminate_line, cStr_eq_self hnul]
  have hne : q ≠ [] := by
    rintro rfl
    obtain ⟨w, hw, -⟩ := hsome
    simp [offlineWords, tokens] at hw
  have hoffline : offlineWords cut q = cut q := by
    rw [offlineWords, tokens_eq_singleton hne fun c hc => (hq c hc).1, List.flatMap_singleton]
  rw [hoffline] at hsome hall
  have hat : pageAt _ (d : ℤ) = some page := (pageAt_natCast _ d).trans hpage
  -- The words of the query are those that the page has.
  have hlists : ∀ w ∈ server.queryWords (Server.terminate (q ++ [LF])),
      server.invertIndexTable.Lists w d := by
    intro w hw
    rw [WordQuery.mem_queryWords, hcstr, hcut, hstop] at hw
    exact (htable.2 w d).mpr
      (hposted.lists_iff.mpr ⟨page, hat, hall w hw.1 hw.2⟩)
  have hwords : server.queryWords (Server.terminate (q ++ [LF])) ≠ [] := by
    obtain ⟨w, hw, hnot⟩ := hsome
    refine List.ne_nil_of_mem (a := w) ?_
    rw [WordQuery.mem_queryWords, hcstr, hcut, hstop]
    exact ⟨hw, hnot⟩
  have hknown : ∀ w ∈ server.queryWords (Server.terminate (q ++ [LF])),
      w ∈ server.invertIndexTable := by
    intro w hw
    obtain ⟨m, hm, -⟩ := hlists w hw
    rw [Std.TreeMap.mem_iff_isSome_getElem?, hm]
    rfl
  rcases WordQuery.search_of_known_words hwords hknown with ⟨hnone, -⟩ | ⟨docs, -, hfound, hmem⟩
  · exact absurd hlists (hnone d)
  · exact ⟨docs, _, _, hfound, (hmem d).mpr hlists⟩

/-- The one-page library whose page is the query itself, with the segmenter that cuts only at
separators, and a server that has its index. -/
theorem exists_server (stopText q : Bytes) :
    ∃ (pages : List (WebPage F)) (lib : PageLibPreprocessor F) (server : WordQuery F),
      (∀ page ∈ pages, page.wordsMap = ∅ ∧ page.wordW = ∅) ∧
      buildInvertIndexTable separatorCut (readStopWordList stopText) ⟨pages, ∅⟩ = some lib ∧
      server.cut = separatorCut ∧ server.stopWordList = readStopWordList stopText ∧
      server.invertIndexTable = lib.invertIndexTable ∧
      (∀ w, w ∈ server.invertIndexTable →
        w ∈ offlineWords separatorCut q ∧ w ∉ readStopWordList stopText) ∧
      ∃ page, (pages.map (WebPage.buildWordMap separatorCut (readStopWordList stopText)))[0]? =
          some page ∧
        ∀ w ∈ offlineWords separatorCut q, w ∉ readStopWordList stopText →
          w ∈ page.wordsMap := by
  let page : WebPage F := { docTitle := [], docUrl := [], docContent := q }
  have hfresh : ∀ p ∈ [page], p.wordsMap = ∅ ∧ p.wordW = ∅ := by
    intro p hp
    rw [List.mem_singleton.mp hp]
    exact ⟨rfl, rfl⟩
  have hwords : ∀ w, w ∈ (page.buildWordMap separatorCut (readStopWordList stopText)).wordsMap ↔
      w ∈ offlineWords separatorCut q ∧ w ∉ readStopWordList stopText := by
    intro w
    rw [WebPage.mem_buildWordMap]
    simp [page, offlineWords]
  obtain ⟨lib, hlib⟩ : ∃ lib, buildInvertIndexTable separatorCut (readStopWordList stopText)
      ⟨[page], ∅⟩ = some lib := exists_indexPages (by simp)
  have hposted := buildInvertIndexTable_spec (fun p hp => (hfresh p hp).2) hlib
  refine ⟨[page], lib, ⟨separatorCut, readStopWordList stopText, fun _ => [], [],
    lib.invertIndexTable⟩, hfresh, hlib, rfl, rfl, rfl, fun w hw => ?_, _, rfl, fun w hw hnot => ?_⟩
  · obtain ⟨p, hp, hwp⟩ := docFreq_pos.mp ((hposted.mem_iff w).mp hw)
    rw [List.map_singleton, List.mem_singleton] at hp
    subst hp
    exact (hwords w).mp hwp
  · exact (hwords w).mpr ⟨hw, hnot⟩

/-- When a query finds its pages, the server sees words of the query, and they are words as the
offline program counts them. -/
theorem FindsPages.words {q : Bytes} (hfinds : FindsPages F q) (stopText : Bytes)
    (hsome : ∃ w ∈ offlineWords separatorCut q, w ∉ readStopWordList stopText) :
    (∃ w ∈ separatorCut (cStr q), w ∉ readStopWordList stopText) ∧
      ∀ w ∈ separatorCut (cStr q), w ∉ readStopWordList stopText →
        w ∈ offlineWords separatorCut q := by
  obtain ⟨pages, lib, server, hfresh, hlib, hcut, hstop, htable, hmem, page, hpage, hall⟩ :=
    exists_server (F := F) stopText q
  have hdocs : server.invertIndexTable.SameDocs lib.invertIndexTable := by
    rw [htable]
    exact ⟨by simp, by simp⟩
  obtain ⟨docs, words, table, hfound, -⟩ := hfinds _ stopText pages lib server
    separatorCut_lawful hfresh hlib hcut hstop hdocs 0 page hpage hsome hall
  constructor
  · by_contra hno
    push Not at hno
    have hnil : server.queryWords (Server.terminate (q ++ [LF])) = [] := by
      rw [WordQuery.queryWords_eq_nil_iff, cStr_terminate_line, hcut, hstop]
      exact hno
    rw [WordQuery.search_of_no_words hnil] at hfound
    cases hfound
  · intro w hw hnot
    by_contra hoff
    have hquery : w ∈ server.queryWords (Server.terminate (q ++ [LF])) := by
      rw [WordQuery.mem_queryWords, cStr_terminate_line, hcut, hstop]
      exact ⟨hw, hnot⟩
    have hunknown : w ∉ server.invertIndexTable := fun h => hoff (hmem w h).1
    rw [WordQuery.search_of_unknown_word ⟨w, hquery, hunknown⟩] at hfound
    cases hfound

/-- Whitespace that the server sees is a word of the query, or part of one, and of no page. -/
theorem FindsPages.no_space {q : Bytes} (hfinds : FindsPages F q)
    (hword : ∃ c ∈ q, isspace c = false) : ∀ c ∈ cStr q, isspace c = false := by
  intro c hc
  by_contra hsp
  obtain ⟨w, hw, hcw⟩ := exists_mem_separatorCut hc
  obtain ⟨d, hd, hdsp⟩ := hword
  obtain ⟨t, ht, hdt⟩ := mem_tokens_letter.mpr ⟨hd, hdsp⟩
  obtain ⟨v, hv, -⟩ := exists_mem_separatorCut hdt
  have hnone : ∀ u, u ∉ readStopWordList [] := fun u => by simp [mem_readStopWordList, tokens]
  have hoff := (hfinds.words [] ⟨v, List.mem_flatMap.mpr ⟨t, ht, hv⟩, hnone v⟩).2 w hw (hnone w)
  obtain ⟨t, ht, hwt⟩ := List.mem_flatMap.mp hoff
  exact hsp (isspace_of_mem_tokens ht (mem_of_mem_separatorCut hwt hcw))

/-- The query ends at a NUL for the server, and what is before it can be a stop word. -/
theorem FindsPages.no_nul {q : Bytes} (hfinds : FindsPages F q)
    (hno : ∀ c ∈ cStr q, isspace c = false) : NUL ∉ q := by
  intro hnul
  have hstop : ∀ w ∈ separatorCut (cStr q), w ∈ readStopWordList (cStr q) := by
    intro w hw
    have hne : cStr q ≠ [] := by
      intro h
      rw [h] at hw
      cases hw
    have hsep : ∀ c ∈ cStr q, ¬ IsSeparator c := fun c hc hsep => by
      exact absurd (hno c hc) (by simp [hsep.isspace])
    rw [separatorCut_eq_singleton hne hsep] at hw
    rwa [mem_readStopWordList, tokens_eq_singleton hne hno]
  -- The word with the NUL is not in this stop list, whose text has no NUL.
  obtain ⟨t, ht, hnt⟩ := mem_tokens_letter.mpr ⟨hnul, show isspace NUL = false from rfl⟩
  obtain ⟨v, hv, hnv⟩ := exists_mem_separatorCut hnt
  have hvstop : v ∉ readStopWordList (cStr q) := by
    rw [mem_readStopWordList]
    exact fun hv => nul_not_mem_cStr q (mem_tokens_letter.mp ⟨v, hv, hnv⟩).1
  obtain ⟨w, hw, hwstop⟩ :=
    (hfinds.words (cStr q) ⟨v, List.mem_flatMap.mpr ⟨t, ht, hv⟩, hvstop⟩).1
  exact hwstop (hstop w hw)

/-- A query with a byte that is no whitespace, and with whitespace or a NUL, misses a page. -/
theorem not_findsPages {q : Bytes} (hword : ∃ c ∈ q, isspace c = false)
    (hbad : ∃ c ∈ q, isspace c = true ∨ c = NUL) : ¬ FindsPages F q := by
  intro hfinds
  have hno := hfinds.no_space hword
  have hnul := hfinds.no_nul hno
  rw [cStr_eq_self hnul] at hno
  obtain ⟨c, hc, hsp | rfl⟩ := hbad
  · rw [hno c hc] at hsp
    cases hsp
  · exact hnul hc

/-- **Multi-word queries.** Only queries without whitespace and NUL bytes, and queries that are all
whitespace, are cut online as they are offline. -/
theorem findsPages_iff (q : Bytes) :
    FindsPages F q ↔
      (∀ c ∈ q, isspace c = true) ∨ ∀ c ∈ q, isspace c = false ∧ c ≠ NUL := by
  constructor
  · intro hfinds
    by_contra hno
    push Not at hno
    obtain ⟨⟨c, hc, hsp⟩, d, hd, hbad⟩ := hno
    refine not_findsPages ⟨c, hc, by simpa using hsp⟩ ⟨d, hd, ?_⟩ hfinds
    cases hsd : isspace d with
    | true => exact Or.inl rfl
    | false => exact Or.inr (hbad hsd)
  · rintro (hspace | hwhole)
    · intro cut stopText _ _ _ _ _ _ _ _ _ _ _ _ hsome _
      obtain ⟨w, hw, -⟩ := hsome
      rw [offlineWords, tokens_eq_nil_iff.mpr hspace] at hw
      cases hw
    · exact findsPages_of_whole hwhole

/-- Two words with a space between them. -/
theorem not_findsPages_twoWords : ¬ FindsPages Dbl (lit "a b") :=
  not_findsPages ⟨97, by decide, rfl⟩ ⟨SP, by decide, Or.inl rfl⟩

end SearchServer

import SearchServer.Pipeline
import SearchServer.Process.SearchSystem

/-!
# From the feeds to the clients

The offline program makes the library, the server loads it, and clients send lines, which any number of
workers answer with a cache between them and the search.

**Theorem (`clients_get_results`).** What the client of an open connection has been sent is the
beginning of the frames of results of lines of its own. The result of a line has the pages of the feeds
that were kept and have all its words, and newlines at its end may be missing. A line without a word
outside the stop list has no result. When the queue had room for every line and there is nothing left to
do, the client reads the results of all lines that were extracted.
-/

namespace SearchServer

open WordQuery

/-- The result of a line: the first 51 of the pages that have its words. -/
def IsResult {F : Type} (cut : Cut) (stopWord : Std.TreeSet Bytes) (kept : List (WebPage Dbl))
    (q : WordQuery F) (l ret : Bytes) : Prop :=
  (∃ w ∈ cut (cStr l), w ∉ stopWord) ∧
    ∃ docs : List ℕ, docs.Nodup ∧
      (∀ i, i ∈ docs ↔ ∃ page, kept[i]? = some page ∧ Matches cut stopWord l page) ∧
      Cache.CutFrom (if docs = [] then q.returnNoAnswer
        else q.write (filesJson (((docs.take 51).filterMap (kept[·]?)).map fun page =>
          fileJson (q.queryWords l) page.onWeb))) ret

/-- The NUL that `onMessage` puts at the end of a line ends the C string. -/
theorem cStr_concat_nul (l : Bytes) : cStr (l ++ [NUL]) = cStr l := by
  rw [cStr, cStr, List.takeWhile_append]
  split_ifs with hall
  · rw [(List.takeWhile_prefix _).eq_of_length hall]
    simp
  · rfl

variable {F : Type} [DoubleOps F] {q : WordQuery F} {cut : Cut} {stopWord : Std.TreeSet Bytes}
  {make : Bytes → UInt64} {feeds : List Feed} {kept : List (WebPage Dbl)} {files : LibraryFiles}
  {buf : Bytes}

omit [DoubleOps F] in
theorem queryWords_concat_nul (l : Bytes) : q.queryWords (l ++ [NUL]) = q.queryWords l := by
  rw [queryWords, queryWords, wordSegmentation, wordSegmentation, cStr_concat_nul]

/-- **The result of a line** is what `doQuery` may return for it. -/
theorem Serves.isResult (h : Serves q cut stopWord kept) {l ret : Bytes}
    (hret : q.MayReturn (l ++ [NUL]) ret) : IsResult cut stopWord kept q l ret := by
  obtain ⟨full, hfull, hcut⟩ := hret
  rw [uncached, if_neg (by simp)] at hfull
  have hword : ∃ w ∈ cut (cStr (l ++ [NUL])), w ∉ stopWord := by
    by_contra hnone
    push Not at hnone
    have hnil : q.queryWords (l ++ [NUL]) = [] := by
      rw [queryWords_eq_nil_iff, h.cut_eq, h.stopWordList_eq]
      exact hnone
    rw [WordQuery.answer, search_of_no_words hnil] at hfull
    cases hfull
  obtain ⟨docs, hnodup, hmem, hanswer⟩ := h.answer hword
  rw [hanswer] at hfull
  obtain rfl := Except.ok.inj hfull
  rw [cStr_concat_nul] at hword
  refine ⟨hword, docs, hnodup, fun i => ?_, ?_⟩
  · rw [hmem]
    unfold Matches
    rw [cStr_concat_nul]
  · rw [← queryWords_concat_nul]
    exact hcut

theorem Serves.areResults (h : Serves q cut stopWord kept) {ks rets : List Bytes}
    (hrets : Exchange.AnswersTo q.MayReturn ks rets) :
    List.Forall₂ (IsResult cut stopWord kept q) ks rets :=
  hrets.imp fun _ _ => h.isResult

/-- A server whose documents are all alike answers like the sample. -/
theorem answer_catPage {q : WordQuery ℝ} (h : Serves q runeJieba.words ∅ [catPage])
    (hwrite : q.write = fun _ => lit "{}\n") :
    (q.answer (lit "dog" ++ [NUL])).map Prod.fst =
      (sampleServer.answer (lit "dog" ++ [NUL])).map Prod.fst := by
  have hwords : runeJieba.words (cStr (lit "dog" ++ [NUL])) = [lit "dog"] := by
    have hnul : cStr (lit "dog") = lit "dog" := rfl
    rw [cStr_concat_nul, hnul, words_runeJieba "dog" (by decide) (by simp [HMMSegment.isLetter])]
  have hword : ∃ w ∈ runeJieba.words (cStr (lit "dog" ++ [NUL])), w ∉ (∅ : Std.TreeSet Bytes) :=
    ⟨lit "dog", hwords ▸ List.mem_singleton_self _, by simp⟩
  obtain ⟨docs, -, -, hanswer⟩ := h.answer hword
  have hsample : sampleServer.answer (lit "dog" ++ [NUL]) =
      .ok (lit "{}\n", sampleServer.invertIndexTable) := rfl
  have hnone : q.returnNoAnswer = lit "{}\n" := by
    rw [returnNoAnswer, hwrite]
  rw [hanswer, hsample, hnone, hwrite, ite_self]
  rfl

end SearchServer

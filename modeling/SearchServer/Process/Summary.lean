import SearchServer.Lib.Utf8
import SearchServer.Process.WordQuery

/-!
# Summaries

`OnWebPage::summary` (`process/OnWebPage.cc`) reads the content after the first line in blocks of 150
bytes. The read of a shorter block at the end fails and ends the loop, so what is in it is not
looked at, and neither is a word across the border of two blocks. A block is made a string up to its
first NUL, and is shown when a query word occurs in it (`Shown`). Its borders are positions of bytes,
not of characters.

**Theorem (`summaryExact_iff`).** The summary is empty exactly when no query word occurs in the content
after the first line, if and only if no word occurs there or some block is shown.

**Theorem (`utf8_summary_iff`).** The summary of a page that is UTF-8 is UTF-8 exactly when every block
that is shown begins and ends between characters.
-/

namespace SearchServer

namespace OnWebPage

/-- The content after the first line. -/
def rest (page : OnWebPage) : Bytes := (page.content.dropWhile (· ≠ LF)).drop 1

def block (page : OnWebPage) (k : ℕ) : Bytes := (page.rest.drop (k * 150)).take 150

/-- A query word occurs in the string made of the block. -/
def hasWord (queryWords : List Bytes) (buf : Bytes) : Bool :=
  queryWords.any fun s => decide (s <:+: cStr buf)

/-- The block is a full one, and a query word occurs in it before its first NUL. -/
def Shown (page : OnWebPage) (queryWords : List Bytes) (k : ℕ) : Prop :=
  (k + 1) * 150 ≤ page.rest.length ∧ ∃ s ∈ queryWords, s <:+: cStr (page.block k)

/-- What a shown block adds to the summary. -/
def addBlock (summary buf : Bytes) : Bytes :=
  if summary ≠ [] then summary ++ [LF] ++ (lit "..." ++ cStr buf ++ lit "...")
  else summary ++ (lit "..." ++ cStr buf ++ lit "...")

/-! ## The blocks -/

theorem blocks_eq (fuel : ℕ) {s : Bytes} (h : s.length ≤ fuel) :
    blocks 150 fuel s =
      (List.range (s.length / 150)).map fun k => (s.drop (k * 150)).take 150 := by
  induction fuel generalizing s with
  | zero =>
    rw [Nat.le_zero.mp h]
    rfl
  | succ fuel ih =>
    rw [blocks]
    by_cases hlen : 150 ≤ s.length
    · have hcount : s.length / 150 = (s.drop 150).length / 150 + 1 := by
        rw [List.length_drop]
        omega
      have hdrop : (s.drop 150).length ≤ fuel := by
        rw [List.length_drop]
        omega
      rw [if_pos hlen, ih hdrop, hcount, List.range_succ_eq_map, List.map_cons, List.map_map]
      congr 1
      refine List.map_congr_left fun k _ => ?_
      rw [Function.comp_apply, List.drop_drop, Nat.succ_mul, Nat.add_comm]
    · rw [if_neg hlen, Nat.div_eq_of_lt (by omega)]
      rfl

def shownBlocks (page : OnWebPage) (queryWords : List Bytes) : List Bytes :=
  ((List.range (page.rest.length / 150)).map page.block).filter (hasWord queryWords)

theorem mem_shownBlocks {page : OnWebPage} {queryWords : List Bytes} {buf : Bytes} :
    buf ∈ page.shownBlocks queryWords ↔ ∃ k, page.Shown queryWords k ∧ page.block k = buf := by
  simp only [shownBlocks, List.mem_filter, List.mem_map, List.mem_range, hasWord, List.any_eq_true,
    decide_eq_true_eq, Shown]
  constructor
  · rintro ⟨⟨k, hk, rfl⟩, hword⟩
    exact ⟨k, ⟨by omega, hword⟩, rfl⟩
  · rintro ⟨k, ⟨hk, hword⟩, rfl⟩
    exact ⟨⟨k, by omega, rfl⟩, hword⟩

theorem summary_eq (page : OnWebPage) (queryWords : List Bytes) :
    page.summary queryWords = (page.shownBlocks queryWords).foldl addBlock [] := by
  rw [shownBlocks, List.foldl_filter, summary, blocks_eq _ le_rfl]
  rfl

/-! ## Whether there is a summary -/

theorem addBlock_ne_nil (summary buf : Bytes) : addBlock summary buf ≠ [] := by
  unfold addBlock
  split_ifs <;> simp [lit]

theorem foldl_addBlock_eq_nil_iff {bufs : List Bytes} {summary : Bytes} :
    bufs.foldl addBlock summary = [] ↔ summary = [] ∧ bufs = [] := by
  induction bufs generalizing summary with
  | nil => simp
  | cons buf bufs ih =>
    rw [List.foldl_cons, ih]
    simp [addBlock_ne_nil]

/-- There is a summary when a block is shown. -/
theorem summary_ne_nil_iff {page : OnWebPage} {queryWords : List Bytes} :
    page.summary queryWords ≠ [] ↔ ∃ k, page.Shown queryWords k := by
  rw [summary_eq, Ne, foldl_addBlock_eq_nil_iff, and_iff_right rfl, List.eq_nil_iff_forall_not_mem]
  push Not
  constructor
  · rintro ⟨buf, hbuf⟩
    obtain ⟨k, hk, -⟩ := mem_shownBlocks.mp hbuf
    exact ⟨k, hk⟩
  · rintro ⟨k, hk⟩
    exact ⟨_, mem_shownBlocks.mpr ⟨k, hk, rfl⟩⟩

theorem Shown.occurs {page : OnWebPage} {queryWords : List Bytes} {k : ℕ}
    (h : page.Shown queryWords k) : ∃ s ∈ queryWords, s <:+: page.rest := by
  obtain ⟨-, s, hs, hin⟩ := h
  refine ⟨s, hs, hin.trans ?_⟩
  have hstr : cStr (page.block k) <:+: page.block k := (List.takeWhile_prefix _).isInfix
  have hblock : page.block k <:+: page.rest.drop (k * 150) := (List.take_prefix _ _).isInfix
  exact hstr.trans (hblock.trans (List.drop_suffix _ _).isInfix)

/-- A summary is produced exactly when there is something to show. -/
def SummaryExact (page : OnWebPage) (queryWords : List Bytes) : Prop :=
  page.summary queryWords ≠ [] ↔ ∃ s ∈ queryWords, s <:+: page.rest

/-- **When a summary is produced.** -/
theorem summaryExact_iff (page : OnWebPage) (queryWords : List Bytes) :
    page.SummaryExact queryWords ↔
      (∀ s ∈ queryWords, ¬ s <:+: page.rest) ∨ ∃ k, page.Shown queryWords k := by
  rw [SummaryExact, summary_ne_nil_iff]
  constructor
  · intro h
    by_cases hoccurs : ∃ s ∈ queryWords, s <:+: page.rest
    · exact .inr (h.mpr hoccurs)
    · push Not at hoccurs
      exact .inl hoccurs
  · rintro (hnone | hshown)
    · refine iff_of_false (fun hshown => ?_) (by push Not; exact hnone)
      obtain ⟨k, hk⟩ := hshown
      obtain ⟨s, hs, hin⟩ := hk.occurs
      exact hnone s hs hin
    · refine iff_of_true hshown ?_
      obtain ⟨k, hk⟩ := hshown
      exact hk.occurs

/-- A page whose content after the first line is shorter than a block. -/
def shortPage : OnWebPage := ⟨lit "cat", lit "cat.org", lit "cat\nthe cat"⟩

/-- The word occurs, and there is no summary. -/
theorem not_summaryExact_short : ¬ shortPage.SummaryExact [lit "cat"] := by
  intro h
  have hempty : shortPage.summary [lit "cat"] = [] := by decide
  exact h.mpr (by decide) hempty

/-! ## Whether the summary is text -/

theorem utf8_excerpt_iff (tmp : Bytes) : Utf8 (lit "..." ++ tmp ++ lit "...") ↔ Utf8 tmp := by
  have hascii : ∀ x ∈ lit "...", x < 128 := by decide +kernel
  rw [append_ascii_iff hascii, ascii_append_iff hascii]

theorem utf8_addBlock_iff (summary buf : Bytes) :
    Utf8 (addBlock summary buf) ↔ Utf8 summary ∧ Utf8 (cStr buf) := by
  unfold addBlock
  split_ifs with h
  · rw [List.append_assoc, List.singleton_append, utf8_ascii_iff (by decide), utf8_excerpt_iff]
  · rw [not_not.mp h, List.nil_append, utf8_excerpt_iff, and_iff_right utf8_nil]

theorem utf8_foldl_addBlock_iff (bufs : List Bytes) (summary : Bytes) :
    Utf8 (bufs.foldl addBlock summary) ↔ Utf8 summary ∧ ∀ buf ∈ bufs, Utf8 (cStr buf) := by
  induction bufs generalizing summary with
  | nil => simp
  | cons buf bufs ih => rw [List.foldl_cons, ih, utf8_addBlock_iff, List.forall_mem_cons, and_assoc]

/-- The summary is UTF-8 when what is shown of each block is. -/
theorem utf8_summary_iff_blocks (page : OnWebPage) (queryWords : List Bytes) :
    Utf8 (page.summary queryWords) ↔
      ∀ k, page.Shown queryWords k → Utf8 (cStr (page.block k)) := by
  rw [summary_eq, utf8_foldl_addBlock_iff, and_iff_right utf8_nil]
  constructor
  · exact fun h k hk => h _ (mem_shownBlocks.mpr ⟨k, hk, rfl⟩)
  · intro h buf hbuf
    obtain ⟨k, hk, rfl⟩ := mem_shownBlocks.mp hbuf
    exact h k hk

/-- The block begins between characters, and ends between characters or has a NUL. -/
def BetweenCharacters (page : OnWebPage) (k : ℕ) : Prop :=
  Boundary (page.rest.drop (k * 150)) ∧
    (NUL ∈ page.block k ∨ Boundary (page.rest.drop ((k + 1) * 150)))

theorem utf8_rest {page : OnWebPage} (h : Utf8 page.content) : Utf8 page.rest := by
  unfold rest
  cases hdrop : page.content.dropWhile (· ≠ LF) with
  | nil => exact utf8_nil
  | cons x s =>
    have hx : x = LF := by
      have hhead := List.head?_dropWhile_not (· ≠ LF) page.content
      rw [hdrop] at hhead
      simpa using hhead
    rw [← List.takeWhile_append_dropWhile (p := (· ≠ LF)) (l := page.content), hdrop, hx,
      utf8_ascii_iff (by decide)] at h
    exact h.2

/-- What is shown of a full block. -/
theorem utf8_block_iff {page : OnWebPage} (h : Utf8 page.content) {k : ℕ}
    (hk : (k + 1) * 150 ≤ page.rest.length) :
    Utf8 (cStr (page.block k)) ↔ page.BetweenCharacters k := by
  have hblock : page.block k ++ page.rest.drop ((k + 1) * 150) = page.rest.drop (k * 150) := by
    rw [Nat.succ_mul, ← List.drop_drop]
    exact List.take_append_drop 150 _
  have hrest : Utf8 (page.rest.take (k * 150) ++ page.rest.drop (k * 150)) := by
    rw [List.take_append_drop]
    exact utf8_rest h
  unfold BetweenCharacters
  by_cases hnul : NUL ∈ page.block k
  · -- The string ends before the NUL, which is a character.
    obtain ⟨t, ht⟩ := exists_of_nul_mem hnul
    have hsplit : page.rest.drop (k * 150) =
        cStr (page.block k) ++ NUL :: (t ++ page.rest.drop ((k + 1) * 150)) := by
      rw [← hblock, ht, cStr_append_nul (nul_not_mem_cStr _)]
      simp
    have hfirst : NUL.IsUTF8FirstByte := isUTF8FirstByte_of_lt (by decide)
    rw [and_iff_left (.inl hnul)]
    by_cases hnil : cStr (page.block k) = []
    · rw [hsplit, hnil, List.nil_append]
      exact iff_of_true utf8_nil (boundary_cons.mpr hfirst)
    · rw [hsplit] at hrest ⊢
      rw [utf8_middle_iff hrest hnil, and_iff_left (boundary_cons.mpr hfirst)]
  · have hne : page.block k ≠ [] := by
      have hlen : (page.block k).length = 150 := by
        rw [block, List.length_take, List.length_drop]
        omega
      intro hnil
      rw [hnil] at hlen
      cases hlen
    rw [cStr_eq_self hnul, or_iff_right hnul, ← hblock]
    rw [← hblock] at hrest
    exact utf8_middle_iff hrest hne

/-- **When the summary is text.** -/
theorem utf8_summary_iff {page : OnWebPage} (h : Utf8 page.content) (queryWords : List Bytes) :
    Utf8 (page.summary queryWords) ↔
      ∀ k, page.Shown queryWords k → page.BetweenCharacters k := by
  rw [utf8_summary_iff_blocks]
  exact forall₂_congr fun k hk => utf8_block_iff h hk.1

/-- A page with a letter of one byte before letters of two bytes. -/
def accentPage : OnWebPage where
  title := lit "t"
  url := lit "t.org"
  content := ('t' :: '\n' :: 'a' :: List.replicate 75 'é').flatMap String.utf8EncodeChar

theorem utf8_summary_accent :
    Utf8 (accentPage.summary [lit "a"]) ↔
      ∀ k, accentPage.Shown [lit "a"] k → accentPage.BetweenCharacters k :=
  utf8_summary_iff (utf8_encode _) [lit "a"]

/-- The first block ends in the middle of a letter. -/
theorem not_utf8_summary_accent :
    Utf8 accentPage.content ∧ ¬ Utf8 (accentPage.summary [lit "a"]) := by
  refine ⟨utf8_encode _, fun h => ?_⟩
  have hlen : (0 + 1) * 150 ≤ accentPage.rest.length := by decide +kernel
  have hshown : accentPage.Shown [lit "a"] 0 :=
    ⟨hlen, lit "a", List.mem_singleton_self _, by decide +kernel⟩
  have hblock := (utf8_summary_iff_blocks _ _).mp h 0 hshown
  rw [utf8_block_iff (utf8_encode _) hlen, BetweenCharacters] at hblock
  revert hblock
  decide +kernel

end OnWebPage

end SearchServer

import SearchServer.Offline.Weblib
import SearchServer.Process.PageLibrary

/-!
# The page file: records and fields

`WebPage::getDoct` writes the fields of a page between markers and does not escape them;
`WordQuery::loadLibrary` takes what stands between the first two occurrences of a marker. A field
does not come back when its marker occurs in it or in a field that is written before it.

**Theorem (`roundTrips_iff`).** A page that `buildWeblib` produced is read back as it was written
exactly when each of its fields is intact (`FieldIntact`): neither the field nor an earlier one has
its marker, or an earlier field has the marker and by chance also the text of the field after it.

The proof locates the markers in the record. A marker starts with `<` and has no other `<`, so no
occurrence of it spans two fields (`MarkersApart.infix_append_iff`).
-/

namespace SearchServer

variable {F : Type}

/-! ## The parts of a record -/

/-- The record up to the url and its marker. -/
def beforeUrl (docId : ℤ) : Bytes :=
  lit "<doc>" ++ (lit "\n\t" ++ lit "<docid>" ++ decimal docId ++ lit "<docid>") ++ lit "\n\t"

namespace WebPage

/-- The record up to the title and its marker. -/
def beforeTitle (page : WebPage F) (docId : ℤ) : Bytes :=
  beforeUrl docId ++ (urlMarker ++ (page.docUrl ++ (urlMarker ++ lit "\n\t")))

/-- The record up to the content and its marker. -/
def beforeContent (page : WebPage F) (docId : ℤ) : Bytes :=
  page.beforeTitle docId ++ (titleMarker ++ (page.docTitle ++ (titleMarker ++ lit "\n\t")))

theorem getDoct_eq (page : WebPage F) (docId : ℤ) :
    page.getDoct docId = page.beforeContent docId ++ (contentMarker ++
      (page.docContent ++ (contentMarker ++ lit "\n<doc>\n"))) := by
  have hend : lit "\n<doc>\n" = lit "\n" ++ lit "<doc>" ++ lit "\n" := rfl
  rw [hend, beforeContent, beforeTitle, beforeUrl, getDoct]
  simp only [List.append_assoc]

theorem getDoct_eq_title (page : WebPage F) (docId : ℤ) :
    ∃ r, page.getDoct docId = page.beforeTitle docId ++ (titleMarker ++
      (page.docTitle ++ (titleMarker ++ r))) := by
  refine ⟨lit "\n\t" ++ (contentMarker ++ (page.docContent ++ (contentMarker ++ lit "\n<doc>\n"))), ?_⟩
  rw [getDoct_eq, beforeContent]
  simp only [List.append_assoc]

theorem getDoct_eq_url (page : WebPage F) (docId : ℤ) :
    ∃ r, page.getDoct docId = beforeUrl docId ++ (urlMarker ++
      (page.docUrl ++ (urlMarker ++ r))) := by
  obtain ⟨r, hr⟩ := page.getDoct_eq_title docId
  refine ⟨lit "\n\t" ++ (titleMarker ++ (page.docTitle ++ (titleMarker ++ r))), ?_⟩
  rw [hr, beforeTitle]
  simp only [List.append_assoc]

end WebPage

/-! ## Where the markers occur -/

theorem mem_beforeUrl {docId : ℤ} {c : UInt8} (h : c ∈ beforeUrl docId) :
    c ∈ lit "<doci>\n\t-" ∨ isdigit c = true := by
  have hdoc : lit "<doc>" ⊆ lit "<doci>\n\t-" := by decide
  have hdocid : lit "<docid>" ⊆ lit "<doci>\n\t-" := by decide
  have hsep : lit "\n\t" ⊆ lit "<doci>\n\t-" := by decide
  simp only [beforeUrl, List.mem_append] at h
  rcases h with (h | ((h | h) | h) | h) | h
  · exact Or.inl (hdoc h)
  · exact Or.inl (hsep h)
  · exact Or.inl (hdocid h)
  · rcases mem_decimal h with rfl | h
    · exact Or.inl (by decide)
    · exact Or.inr h
  · exact Or.inl (hdocid h)
  · exact Or.inl (hsep h)

/-- A marker with a letter that the start of a record does not have. -/
theorem not_infix_beforeUrl {m : Bytes} (docId : ℤ)
    (h : ∃ c ∈ m, c ∉ lit "<doci>\n\t-" ∧ isdigit c = false) : ¬ m <:+: beforeUrl docId := by
  intro hin
  obtain ⟨c, hc, hnot, hdigit⟩ := h
  rcases mem_beforeUrl (hin.subset hc) with h | h
  · exact hnot h
  · rw [hdigit] at h
    cases h

theorem urlMarker_not_infix (docId : ℤ) : ¬ urlMarker <:+: beforeUrl docId :=
  not_infix_beforeUrl docId ⟨117, by decide⟩

theorem titleMarker_infix_iff (page : WebPage F) (docId : ℤ) :
    titleMarker <:+: page.beforeTitle docId ↔ titleMarker <:+: page.docUrl := by
  have hstart : ¬ titleMarker <:+: beforeUrl docId := not_infix_beforeUrl docId ⟨116, by decide⟩
  have hsep : ¬ titleMarker <:+: lit "\n\t" := by decide
  have hurl : MarkersApart titleMarker urlMarker := by decide
  rw [WebPage.beforeTitle, hurl.infix_append_iff, hurl.infix_append_iff, or_iff_right hstart,
    or_iff_left hsep]

theorem contentMarker_infix_iff (page : WebPage F) (docId : ℤ) :
    contentMarker <:+: page.beforeContent docId ↔
      contentMarker <:+: page.docUrl ∨ contentMarker <:+: page.docTitle := by
  have hstart : ¬ contentMarker <:+: beforeUrl docId := not_infix_beforeUrl docId ⟨116, by decide⟩
  have hsep : ¬ contentMarker <:+: lit "\n\t" := by decide
  have hurl : MarkersApart contentMarker urlMarker := by decide
  have htitle : MarkersApart contentMarker titleMarker := by decide
  rw [WebPage.beforeContent, WebPage.beforeTitle, htitle.infix_append_iff, htitle.infix_append_iff,
    hurl.infix_append_iff, hurl.infix_append_iff, or_iff_right hstart, or_iff_left hsep,
    or_iff_left hsep]

/-! ## Intact fields -/

/-- The field `f`, written with the marker `m` after the text `before` that has the fields
`earlier`, is found as it was written. -/
def FieldIntact (m : Bytes) (earlier : List Bytes) (before f : Bytes) : Prop :=
  ((∀ s ∈ f :: earlier, ¬ m <:+: s) ∧ (before ++ (m ++ f)).length < 2 ^ 31) ∨
    ((∃ s ∈ earlier, m <:+: s) ∧ Between m (before ++ m) f)

theorem field_eq_some_iff_intact {m before f r : Bytes} {earlier : List Bytes} (hm : IsMarker m)
    (hbefore : m <:+: before ↔ ∃ s ∈ earlier, m <:+: s) :
    field m (before ++ (m ++ (f ++ (m ++ r)))) = some f ↔ FieldIntact m earlier before f := by
  unfold FieldIntact
  by_cases hin : m <:+: before
  · -- The reader finds an earlier marker first.
    have hearlier := hbefore.mp hin
    rw [field_of_before hm hin, and_iff_right hearlier, or_iff_right]
    intro h
    obtain ⟨hno, -⟩ := h
    obtain ⟨s, hs, hms⟩ := hearlier
    exact hno s (List.mem_cons_of_mem _ hs) hms
  · have hearlier : ∀ s ∈ earlier, ¬ m <:+: s := fun s hs hms => hin (hbefore.mpr ⟨s, hs, hms⟩)
    rw [or_iff_left fun h => absurd (hbefore.mpr h.1) hin]
    by_cases hf : m <:+: f
    · -- The field is cut off at the marker in it.
      constructor
      · exact fun h => absurd h (field_ne_of_occurs hm hin hf)
      · exact fun h => absurd hf (h.1 f List.mem_cons_self)
    · rw [field_eq_some_iff hm hin hf, and_iff_right rfl, List.forall_mem_cons,
        and_iff_right ⟨hf, hearlier⟩]

/-- The reader gets back the fields of the page from its record. -/
def RoundTrips (page : WebPage F) (docId : ℤ) : Prop :=
  loadPage (page.getDoct docId) = some ⟨page.docTitle, page.docUrl, page.docContent⟩

theorem roundTrips_iff_fields (page : WebPage F) (docId : ℤ) :
    RoundTrips page docId ↔ field urlMarker (page.getDoct docId) = some page.docUrl ∧
      field titleMarker (page.getDoct docId) = some page.docTitle ∧
      field contentMarker (page.getDoct docId) = some page.docContent := by
  unfold RoundTrips loadPage
  constructor
  · intro h
    obtain ⟨url, hurl, h⟩ := Option.bind_eq_some_iff.mp h
    obtain ⟨title, htitle, h⟩ := Option.bind_eq_some_iff.mp h
    obtain ⟨content, hcontent, h⟩ := Option.bind_eq_some_iff.mp h
    cases h
    exact ⟨hurl, htitle, hcontent⟩
  · intro h
    obtain ⟨hurl, htitle, hcontent⟩ := h
    rw [hurl, htitle, hcontent]
    rfl

/-- **Reading back a page.** -/
theorem roundTrips_iff (page : WebPage F) (docId : ℤ) :
    RoundTrips page docId ↔
      FieldIntact urlMarker [] (beforeUrl docId) page.docUrl ∧
      FieldIntact titleMarker [page.docUrl] (page.beforeTitle docId) page.docTitle ∧
      FieldIntact contentMarker [page.docUrl, page.docTitle] (page.beforeContent docId)
        page.docContent := by
  have hurl : urlMarker <:+: beforeUrl docId ↔ ∃ s ∈ ([] : List Bytes), urlMarker <:+: s := by
    simpa using urlMarker_not_infix docId
  have htitle : titleMarker <:+: page.beforeTitle docId ↔
      ∃ s ∈ [page.docUrl], titleMarker <:+: s := by
    simpa using titleMarker_infix_iff page docId
  have hcontent : contentMarker <:+: page.beforeContent docId ↔
      ∃ s ∈ [page.docUrl, page.docTitle], contentMarker <:+: s := by
    simpa using contentMarker_infix_iff page docId
  obtain ⟨ru, hru⟩ := page.getDoct_eq_url docId
  obtain ⟨rt, hrt⟩ := page.getDoct_eq_title docId
  have hurlField := field_eq_some_iff_intact (f := page.docUrl) (r := ru) (by decide) hurl
  have htitleField := field_eq_some_iff_intact (f := page.docTitle) (r := rt) (by decide) htitle
  have hcontentField := field_eq_some_iff_intact (f := page.docContent)
    (r := lit "\n<doc>\n") (by decide) hcontent
  rw [← hru] at hurlField
  rw [← hrt] at htitleField
  rw [← WebPage.getDoct_eq] at hcontentField
  rw [roundTrips_iff_fields, hurlField, htitleField, hcontentField]

/-- A feed about markup: one item, whose title has the marker of titles. -/
def markupFeed : Feed where
  channel := some [{
    title := some ⟨some ⟨lit "The <title> tag", by decide⟩⟩
    description := some ⟨some ⟨lit "names the page", by decide⟩⟩
    link := some ⟨some ⟨lit "x.org", by decide⟩⟩ }]

def markupPage : WebPage Unit where
  docTitle := lit "The <title> tag"
  docUrl := lit "x.org"
  docContent := lit "The  tag\nnames the page"

/-- The title of its page comes back cut off. -/
theorem not_roundTrips_markup :
    buildWeblib [markupFeed] = .ok [markupPage] ∧ ¬ RoundTrips markupPage 0 := by
  refine ⟨rfl, fun h => ?_⟩
  have hcut : (loadPage (markupPage.getDoct 0)).map OnWebPage.title = some (lit "The ") := by
    decide +kernel
  rw [show loadPage (markupPage.getDoct 0) = _ from h] at hcut
  exact absurd hcut (by decide)

end SearchServer

import SearchServer.Lib.Except
import SearchServer.Offline.WebPage

/-!
# Pages from feeds

`PageLibPreprocessor::buildWeblib` (`offline/PageLibPreprocessor.cc`) makes a page of every item of
the feeds that has a link. The parsed XML documents are an input: an element is what `GetText()`
returns for it, a C string or a null pointer.

* `readItem_clean`: the content of a page has no tags, and no field has a NUL.
-/

namespace SearchServer

abbrev LT : UInt8 := 60
abbrev GT : UInt8 := 62

/-- A string that `const char*` can point to. -/
abbrev CString := {s : Bytes // NUL ∉ s}

/-- An XML element, with the result of `GetText()`. -/
structure XMLElement where
  text : Option CString

/-- An `item` element, with its first child elements of three names. -/
structure Item where
  title : Option XMLElement
  description : Option XMLElement
  link : Option XMLElement

/-- A feed: the items of its `channel`, if it has one. -/
structure Feed where
  channel : Option (List Item)

/-- `regex_replace(content, regex("<[^>]*>"), "")`. A tag starts at a `<` that has a `>` after it and
ends at the first such `>`. -/
def removeTags (inTag : Bool) : Bytes → Bytes
  | [] => []
  | c :: s =>
    if inTag then removeTags (c ≠ GT) s
    else if c = LT ∧ GT ∈ s then removeTags true s
    else c :: removeTags false s

inductive NullElement where
  | nullElement
deriving DecidableEq

def getText (pn : Option XMLElement) : Except NullElement (Option Bytes) :=
  match pn with
  | none => .error .nullElement
  | some e => .ok (e.text.map Subtype.val)

variable {F : Type}

/-- The body of the loop over the items. -/
def readItem (node : Item) : Except NullElement (Option (WebPage F)) := do
  let titleText ← getText node.title
  let descriptionText ← getText node.description
  let (title, content) := match titleText, descriptionText with
    | some title, some text => (title, removeTags false (title ++ lit "\n" ++ text))
    | some title, none => (title, [])
    | none, some text =>
      let content := removeTags false text
      ((lines content).head?.getD [], content)
    | none, none => ([], [])
  let linkText ← getText node.link
  return linkText.map fun url => { docTitle := title, docUrl := url, docContent := content }

def buildWeblib (feeds : List Feed) : Except NullElement (List (WebPage F)) := do
  let pages ← (feeds.flatMap fun feed => feed.channel.getD []).mapM readItem
  return pages.reduceOption

/-! ## What the fields can contain -/

/-- No `<` has a `>` after it. -/
def TagFree (s : Bytes) : Prop := ∀ p r, s = p ++ LT :: r → GT ∉ r

theorem mem_of_mem_removeTags {inTag : Bool} {s : Bytes} {c : UInt8} (h : c ∈ removeTags inTag s) :
    c ∈ s := by
  induction s generalizing inTag with
  | nil => exact h
  | cons d s ih =>
    rw [removeTags] at h
    split_ifs at h
    · exact List.mem_cons_of_mem _ (ih h)
    · exact List.mem_cons_of_mem _ (ih h)
    · rcases List.mem_cons.mp h with rfl | h
      · exact List.mem_cons_self
      · exact List.mem_cons_of_mem _ (ih h)

theorem tagFree_removeTags (inTag : Bool) (s : Bytes) : TagFree (removeTags inTag s) := by
  induction s generalizing inTag with
  | nil =>
    intro p r h
    simp [removeTags] at h
  | cons c s ih =>
    rw [removeTags]
    split_ifs with hin htag
    · exact ih _
    · exact ih _
    · intro p r h
      cases p with
      | nil =>
        -- The `<` was kept, so no `>` follows it.
        obtain ⟨rfl, rfl⟩ := List.cons.inj h
        exact fun hgt => htag ⟨rfl, mem_of_mem_removeTags hgt⟩
      | cons d p => exact ih false p r (List.cons.inj h).2

theorem mem_of_mem_lines {s l : Bytes} (hl : l ∈ lines s) {c : UInt8} (hc : c ∈ l) : c ∈ s := by
  induction s generalizing l with
  | nil => cases hl
  | cons d s ih =>
    rw [lines] at hl
    split_ifs at hl with hd
    · rcases List.mem_cons.mp hl with rfl | hl
      · cases hc
      · exact List.mem_cons_of_mem _ (ih hl hc)
    · cases hs : lines s with
      | nil =>
        rw [hs, List.mem_singleton] at hl
        rw [hl, List.mem_singleton] at hc
        exact List.mem_cons.mpr (Or.inl hc)
      | cons k ks =>
        rw [hs] at hl ih
        rcases List.mem_cons.mp hl with rfl | hl
        · rcases List.mem_cons.mp hc with rfl | hc
          · exact List.mem_cons_self
          · exact List.mem_cons_of_mem _ (ih List.mem_cons_self hc)
        · exact List.mem_cons_of_mem _ (ih (List.mem_cons_of_mem _ hl) hc)

/-- What holds of the fields of a page that was read from a feed. -/
structure WebPage.Clean (page : WebPage F) : Prop where
  title : NUL ∉ page.docTitle
  url : NUL ∉ page.docUrl
  content : NUL ∉ page.docContent
  tagFree : TagFree page.docContent

theorem nul_not_mem_of_getText {pn : Option XMLElement} {s : Bytes}
    (h : getText pn = .ok (some s)) : NUL ∉ s := by
  cases pn with
  | none => cases h
  | some e =>
    obtain ⟨t, -, rfl⟩ := Option.map_eq_some_iff.mp (Except.ok.inj h)
    exact t.2

theorem readItem_clean {node : Item} {page : WebPage F}
    (h : readItem node = .ok (some page)) : page.Clean := by
  obtain ⟨titleText, ht, h⟩ := bind_eq_ok.mp h
  obtain ⟨descriptionText, hd, h⟩ := bind_eq_ok.mp h
  obtain ⟨linkText, hl, h⟩ := bind_eq_ok.mp h
  obtain ⟨url, rfl, rfl⟩ := Option.map_eq_some_iff.mp (Except.ok.inj h)
  have hurl := nul_not_mem_of_getText hl
  cases titleText with
  | some title =>
    have htitle := nul_not_mem_of_getText ht
    cases descriptionText with
    | some text =>
      have htext := nul_not_mem_of_getText hd
      refine ⟨htitle, hurl, fun hnul => ?_, tagFree_removeTags false _⟩
      have hmem := mem_of_mem_removeTags hnul
      simp only [List.mem_append] at hmem
      rcases hmem with (hmem | hmem) | hmem
      · exact htitle hmem
      · exact absurd hmem (by decide)
      · exact htext hmem
    | none => exact ⟨htitle, hurl, List.not_mem_nil, tagFree_removeTags false []⟩
  | none =>
    cases descriptionText with
    | some text =>
      have htext := nul_not_mem_of_getText hd
      have hcontent : NUL ∉ removeTags false text :=
        fun hnul => htext (mem_of_mem_removeTags hnul)
      refine ⟨fun hnul => ?_, hurl, hcontent, tagFree_removeTags false _⟩
      change NUL ∈ (lines (removeTags false text)).head?.getD [] at hnul
      cases hls : lines (removeTags false text) with
      | nil =>
        rw [hls] at hnul
        cases hnul
      | cons l ls =>
        rw [hls] at hnul
        have hl : l ∈ lines (removeTags false text) := by
          rw [hls]
          exact List.mem_cons_self
        exact hcontent (mem_of_mem_lines hl hnul)
    | none =>
      exact ⟨List.not_mem_nil, hurl, List.not_mem_nil, tagFree_removeTags false []⟩

/-- Every page that `buildWeblib` produces is clean. -/
theorem buildWeblib_clean {feeds : List Feed} {pages : List (WebPage F)}
    (h : buildWeblib feeds = .ok pages) : ∀ page ∈ pages, page.Clean := by
  obtain ⟨results, hresults, h⟩ := bind_eq_ok.mp h
  obtain rfl := Except.ok.inj h
  intro page hp
  obtain ⟨node, -, hnode⟩ := exists_of_mem_mapM hresults _ (List.reduceOption_mem_iff.mp hp)
  exact readItem_clean hnode

end SearchServer

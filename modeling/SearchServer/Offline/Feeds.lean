import SearchServer.Offline.Weblib

/-!
# Reading the feeds

The loop of `PageLibPreprocessor::buildWeblib` (`offline/PageLibPreprocessor.cc`) over the tree of
a document, with what it uses of `offline/tinyxml2.cc`. An element that a search returns comes with
its siblings after it, where `NextSiblingElement` goes on, and a missing one is a null pointer. A
document without a `channel` is skipped, and so is an item whose `link` has no text; the latter
branch advances the loop itself.

**Theorem (`pages_of_items_iff`).** The loops end, and there is exactly one page for each item
whose link has text, in the order of the documents, if and only if every item has the elements
`title`, `description` and `link`, with or without text. `item_without_title` is a feed that ends
the program: `GetText` is called on a null pointer, which is only tested for the `channel`.

The items and their elements are the `Feed`s of which `buildWeblib` is the function
(`loadFeeds_eq_buildWeblib`).
-/

namespace SearchServer

/-- A node of a parsed document: text, an element with its name and child nodes, or something
else. -/
inductive XMLNode where
  | text (value : CString)
  | element (name : Bytes) (children : List XMLNode)
  /-- A comment, a declaration or an unknown node. -/
  | other

namespace XMLNode

def children : XMLNode → List XMLNode
  | element _ nodes => nodes
  | _ => []

/-- `ToElementWithName`. -/
def hasName (name : Bytes) : XMLNode → Bool
  | element n _ => n = name
  | _ => false

/-- The loop of `FirstChildElement` and `NextSiblingElement`: the next element with the name, and
the nodes after it. -/
def findElement (name : Bytes) : List XMLNode → Option (XMLNode × List XMLNode)
  | [] => none
  | node :: next => if node.hasName name then some (node, next) else findElement name next

def firstChildElement (node : XMLNode) (name : Bytes) : Option (XMLNode × List XMLNode) :=
  findElement name node.children

/-- The pointer to a child element; `none` is null. -/
def child (node : XMLNode) (name : Bytes) : Option XMLNode :=
  (node.firstChildElement name).map Prod.fst

/-- `GetText`: the value of the first child node if this is text. -/
def getText (node : XMLNode) : Option CString :=
  match node.children with
  | text value :: _ => some value
  | _ => none

def getTextOf (pn : Option XMLNode) : Except NullElement (Option Bytes) :=
  match pn with
  | none => .error .nullElement
  | some node => .ok (node.getText.map Subtype.val)

end XMLNode

namespace PageLibPreprocessor

open XMLNode

variable {F : Type}

/-- The body of the loop over the items, up to `emplace_back` or `continue`. -/
def itemPage (node : XMLNode) : Except NullElement (Option (WebPage F)) := do
  let (title, content) ← (do
    match ← getTextOf (node.child (lit "title")) with
    | some title =>
      match ← getTextOf (node.child (lit "description")) with
      | some description =>
        return (title, removeTags false (title ++ lit "\n" ++ description))
      | none => return (title, [])
    | none =>
      match ← getTextOf (node.child (lit "description")) with
      | some description =>
        let content := removeTags false description
        return ((lines content).head?.getD [], content)
      | none => return ([], []) : Except NullElement (Bytes × Bytes))
  match ← getTextOf (node.child (lit "link")) with
  | some url => return some { docTitle := title, docUrl := url, docContent := content }
  | none => return none

/-- The nodes that the loop has not passed. -/
def remaining : Option (XMLNode × List XMLNode) → ℕ
  | none => 0
  | some (_, next) => next.length + 1

theorem remaining_findElement_le (name : Bytes) (nodes : List XMLNode) :
    remaining (findElement name nodes) ≤ nodes.length := by
  induction nodes with
  | nil => exact le_rfl
  | cons node next ih =>
    rw [findElement]
    split_ifs
    · exact le_rfl
    · exact ih.trans (Nat.le_succ _)

def itemLoop (pageLib : List (WebPage F)) (node : Option (XMLNode × List XMLNode)) :
    Except NullElement (List (WebPage F)) :=
  match node with
  | none => .ok pageLib
  | some (item, next) =>
    match itemPage item with
    | .error e => .error e
    | .ok none => itemLoop pageLib (findElement (lit "item") next)
    | .ok (some page) => itemLoop (pageLib ++ [page]) (findElement (lit "item") next)
termination_by remaining node
decreasing_by
  · exact Nat.lt_succ_of_le (remaining_findElement_le _ next)
  · exact Nat.lt_succ_of_le (remaining_findElement_le _ next)

/-- The pages of one document, given its root element. -/
def loadFeed (pageLib : List (WebPage F)) (root : XMLNode) :
    Except NullElement (List (WebPage F)) :=
  match root.child (lit "channel") with
  | none => .ok pageLib
  | some channel => itemLoop pageLib (channel.firstChildElement (lit "item"))

/-- `buildWeblib`, with the root elements of the documents. -/
def loadFeeds (roots : List XMLNode) : Except NullElement (List (WebPage F)) :=
  roots.foldlM loadFeed []

/-! ## The feeds -/

/-- The items of a document, in order. -/
def itemsOf (root : XMLNode) : List XMLNode :=
  (root.child (lit "channel")).elim [] fun channel => channel.children.filter (hasName (lit "item"))

/-- A pointer to an element, as the result of `GetText` or null. -/
def toElement (pn : Option XMLNode) : Option XMLElement := pn.map fun node => ⟨node.getText⟩

def toItem (node : XMLNode) : Item where
  title := toElement (node.child (lit "title"))
  description := toElement (node.child (lit "description"))
  link := toElement (node.child (lit "link"))

def toFeed (root : XMLNode) : Feed where
  channel := (root.child (lit "channel")).map fun channel =>
    (channel.children.filter (hasName (lit "item"))).map toItem

theorem getText_toElement (pn : Option XMLNode) :
    SearchServer.getText (toElement pn) = getTextOf pn := by
  cases pn <;> rfl

/-- The branches of the loop read the three elements in any case. -/
theorem itemPage_eq (node : XMLNode) : itemPage (F := F) node = readItem (toItem node) := by
  unfold itemPage readItem toItem
  simp only [getText_toElement]
  cases getTextOf (node.child (lit "title")) with
  | error e => rfl
  | ok title =>
    cases getTextOf (node.child (lit "description")) with
    | error e => cases title <;> rfl
    | ok description =>
      cases getTextOf (node.child (lit "link")) with
      | error e => cases title <;> cases description <;> rfl
      | ok link => cases title <;> cases description <;> cases link <;> rfl

/-- **The loop over the items** is a pass over the nodes that are items. -/
theorem itemLoop_eq (pageLib : List (WebPage F)) (nodes : List XMLNode) :
    itemLoop pageLib (findElement (lit "item") nodes) =
      (((nodes.filter (hasName (lit "item"))).map toItem).mapM readItem >>= fun pages =>
        .ok (pageLib ++ pages.reduceOption)) := by
  induction nodes generalizing pageLib with
  | nil =>
    rw [findElement, itemLoop]
    show _ = Except.ok (pageLib ++ [])
    rw [List.append_nil]
  | cons node next ih =>
    rw [findElement]
    by_cases hitem : node.hasName (lit "item") = true
    · rw [if_pos hitem, itemLoop, itemPage_eq, List.filter_cons_of_pos hitem, List.map_cons,
        List.mapM_cons]
      cases readItem (F := F) (toItem node) with
      | error e => rfl
      | ok result =>
        cases result with
        | none =>
          simp only [ih]
          cases ((next.filter (hasName (lit "item"))).map toItem).mapM readItem <;> rfl
        | some page =>
          simp only [ih]
          cases ((next.filter (hasName (lit "item"))).map toItem).mapM readItem with
          | error e => rfl
          | ok pages =>
            show Except.ok (pageLib ++ [page] ++ pages.reduceOption) = _
            rw [List.append_assoc]
            rfl
    · rw [if_neg hitem, ih, List.filter_cons_of_neg hitem]

theorem loadFeeds_eq (pageLib : List (WebPage F)) (roots : List XMLNode) :
    roots.foldlM loadFeed pageLib =
      (((roots.flatMap itemsOf).map toItem).mapM readItem >>= fun pages =>
        .ok (pageLib ++ pages.reduceOption)) := by
  induction roots generalizing pageLib with
  | nil =>
    show Except.ok pageLib = Except.ok (pageLib ++ [])
    rw [List.append_nil]
  | cons root roots ih =>
    have hroot : loadFeed pageLib root =
        (((itemsOf root).map toItem).mapM readItem >>= fun pages =>
          .ok (pageLib ++ pages.reduceOption)) := by
      unfold loadFeed itemsOf
      cases root.child (lit "channel") with
      | none =>
        show Except.ok pageLib = Except.ok (pageLib ++ [])
        rw [List.append_nil]
      | some channel => exact itemLoop_eq pageLib channel.children
    rw [List.foldlM_cons, hroot, List.flatMap_cons, List.map_append, List.mapM_append]
    cases ((itemsOf root).map toItem).mapM (readItem (F := F)) with
    | error e => rfl
    | ok pages =>
      show (roots.foldlM loadFeed (pageLib ++ pages.reduceOption)) = _
      rw [ih]
      cases ((roots.flatMap itemsOf).map toItem).mapM (readItem (F := F)) with
      | error e => rfl
      | ok pages' =>
        show Except.ok (pageLib ++ pages.reduceOption ++ pages'.reduceOption) =
          Except.ok (pageLib ++ (pages ++ pages').reduceOption)
        rw [List.reduceOption_append, List.append_assoc]

/-- **The loops are `buildWeblib`** on the feeds of the documents. -/
theorem loadFeeds_eq_buildWeblib (roots : List XMLNode) :
    loadFeeds (F := F) roots = buildWeblib (roots.map toFeed) := by
  have hitems : (roots.map toFeed).flatMap (fun feed => feed.channel.getD []) =
      (roots.flatMap itemsOf).map toItem := by
    rw [List.flatMap_map, List.map_flatMap]
    refine List.flatMap_congr fun root _ => ?_
    unfold toFeed itemsOf
    cases root.child (lit "channel") <;> rfl
  rw [loadFeeds, loadFeeds_eq, buildWeblib, hitems]
  rfl

/-! ## Items with all elements -/

/-- The item has the elements that the loop reads. -/
structure HasElements (item : XMLNode) : Prop where
  title : item.child (lit "title") ≠ none
  description : item.child (lit "description") ≠ none
  link : item.child (lit "link") ≠ none

def textOf (item : XMLNode) (name : Bytes) : Option Bytes :=
  (item.child name).bind fun pn => pn.getText.map Subtype.val

/-- The page for the texts of an item: there is one if the link has text. -/
def pageOf (item : XMLNode) : Option (WebPage F) :=
  (textOf item (lit "link")).map fun url =>
    let (title, content) := match textOf item (lit "title"), textOf item (lit "description") with
      | some title, some description =>
        (title, removeTags false (title ++ lit "\n" ++ description))
      | some title, none => (title, [])
      | none, some description =>
        ((lines (removeTags false description)).head?.getD [], removeTags false description)
      | none, none => ([], [])
    { docTitle := title, docUrl := url, docContent := content }

theorem getTextOf_child {item : XMLNode} {name : Bytes} (h : item.child name ≠ none) :
    getTextOf (item.child name) = .ok (textOf item name) := by
  unfold textOf
  cases hchild : item.child name with
  | none => exact absurd hchild h
  | some pn => rfl

theorem child_of_getTextOf {item : XMLNode} {name : Bytes} {text : Option Bytes}
    (h : getTextOf (item.child name) = .ok text) : item.child name ≠ none := by
  intro hnone
  rw [hnone] at h
  cases h

/-- The body of the loop on an item with all elements. -/
theorem readItem_of_hasElements {item : XMLNode} (h : HasElements item) :
    readItem (F := F) (toItem item) = .ok (pageOf item) := by
  unfold readItem toItem pageOf
  simp only [getText_toElement, getTextOf_child h.title, getTextOf_child h.description,
    getTextOf_child h.link]
  cases textOf item (lit "title") <;> cases textOf item (lit "description") <;>
    cases textOf item (lit "link") <;> rfl

/-- An item that is read has all elements. -/
theorem hasElements_of_readItem {item : XMLNode} {page : Option (WebPage F)}
    (h : readItem (toItem item) = .ok page) : HasElements item := by
  unfold readItem toItem at h
  simp only [getText_toElement] at h
  obtain ⟨title, htitle, h⟩ := bind_eq_ok.mp h
  obtain ⟨description, hdescription, h⟩ := bind_eq_ok.mp h
  obtain ⟨link, hlink, -⟩ := bind_eq_ok.mp h
  exact ⟨child_of_getTextOf htitle, child_of_getTextOf hdescription, child_of_getTextOf hlink⟩

def hasLinkText (item : XMLNode) : Bool := (textOf item (lit "link")).isSome

/-- There is one page for each item whose link has text, in order. -/
def Extracted (items : List XMLNode) (pages : List (WebPage F)) : Prop :=
  List.Forall₂ (fun item page => pageOf item = some page) (items.filter hasLinkText) pages

theorem pageOf_isSome (item : XMLNode) : (pageOf (F := F) item).isSome = hasLinkText item :=
  Option.isSome_map

theorem extracted_filterMap (items : List XMLNode) :
    Extracted (F := F) items (items.filterMap pageOf) := by
  unfold Extracted
  induction items with
  | nil => exact List.Forall₂.nil
  | cons item items ih =>
    cases hpage : pageOf (F := F) item with
    | none =>
      have hlink : ¬ hasLinkText item = true := by
        rw [← pageOf_isSome (F := F), hpage]
        exact Bool.false_ne_true
      rw [List.filterMap_cons_none hpage, List.filter_cons_of_neg hlink]
      exact ih
    | some page =>
      have hlink : hasLinkText item = true := by
        rw [← pageOf_isSome (F := F), hpage]
        rfl
      rw [List.filterMap_cons_some hpage, List.filter_cons_of_pos hlink]
      exact List.Forall₂.cons hpage ih

/-- **When the feeds are read**: exactly when every item has a title, a description and a link. -/
theorem pages_of_items_iff (roots : List XMLNode) :
    (∃ pages : List (WebPage F), loadFeeds roots = .ok pages ∧
      Extracted (roots.flatMap itemsOf) pages) ↔
    ∀ item ∈ roots.flatMap itemsOf, HasElements item := by
  rw [loadFeeds, loadFeeds_eq]
  constructor
  · intro h
    obtain ⟨pages, hload, -⟩ := h
    obtain ⟨results, hresults, -⟩ := bind_eq_ok.mp hload
    intro item hitem
    obtain ⟨page, hpage⟩ := isOk_of_mapM hresults _ (List.mem_map_of_mem hitem)
    exact hasElements_of_readItem hpage
  · intro h
    have hall : ((roots.flatMap itemsOf).map toItem).mapM (readItem (F := F)) =
        .ok ((roots.flatMap itemsOf).map pageOf) := by
      rw [List.mapM_map]
      exact mapM_eq_ok fun item hitem => readItem_of_hasElements (h item hitem)
    have hpages : ((roots.flatMap itemsOf).map (pageOf (F := F))).reduceOption =
        (roots.flatMap itemsOf).filterMap pageOf := List.filterMap_map
    refine ⟨_, ?_, extracted_filterMap _⟩
    rw [hall, ok_bind, List.nil_append, hpages]

/-- A feed with one item, which has a description and a link. -/
def untitledFeed : XMLNode :=
  .element (lit "rss") [.element (lit "channel") [.element (lit "item")
    [.element (lit "description") [.text ⟨lit "News", by decide⟩],
      .element (lit "link") [.text ⟨lit "http://host/", by decide⟩]]]]

/-- **An item without a title ends the program**, although its link has text. -/
theorem item_without_title :
    ¬ ∃ pages : List (WebPage Dbl), loadFeeds [untitledFeed] = .ok pages ∧
      Extracted ([untitledFeed].flatMap itemsOf) pages := by
  intro h
  obtain ⟨pages, hload, -⟩ := h
  rw [loadFeeds, loadFeeds_eq] at hload
  obtain ⟨results, hresults, -⟩ := bind_eq_ok.mp hload
  cases hresults

end PageLibPreprocessor

end SearchServer

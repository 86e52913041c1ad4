import SearchServer.Offline.WebPage

/-!
# Writing the library

`PageLibPreprocessor::storeOnDisk` (`offline/PageLibPreprocessor.cc`). The records of the pages go
into the page file one after the other, and for each the number of the page, its position and its
length go into the offset file. Positions and lengths are converted to `int`.

The index file has a line for each word, with the documents and the weights. How `<<` writes a
weight is an argument, and so is the order in which the table is traversed.
-/

namespace SearchServer

variable {F : Type}

structure PageFiles where
  pages : Bytes
  offsets : Bytes

namespace PageFiles

def lenth (tmp : Bytes) : ℤ := wrapInt tmp.length

/-- `int pos = (int)os1.tellp() - lenth`. -/
def pos (tellp : ℕ) (tmp : Bytes) : ℤ := wrapInt (wrapInt tellp - lenth tmp)

theorem lenth_range (tmp : Bytes) : -2 ^ 31 ≤ lenth tmp ∧ lenth tmp < 2 ^ 31 := by
  unfold lenth
  exact wrapInt_range _

theorem pos_range (tellp : ℕ) (tmp : Bytes) : -2 ^ 31 ≤ pos tellp tmp ∧ pos tellp tmp < 2 ^ 31 := by
  unfold pos
  exact wrapInt_range _

/-- The line of the offset file for page `i`, whose record `tmp` ends at position `tellp`. -/
def offsetLine (i : ℕ) (tellp : ℕ) (tmp : Bytes) : Bytes :=
  decimal i ++ lit " " ++ decimal (pos tellp tmp) ++ lit " " ++ decimal (lenth tmp) ++ lit "\n"

/-- The body of the loop over the pages. -/
def addPage (files : PageFiles) (page : WebPage F × ℕ) : PageFiles :=
  let tmp := page.1.getDoct page.2
  let os1 := files.pages ++ tmp
  ⟨os1, files.offsets ++ offsetLine page.2 os1.length tmp⟩

end PageFiles

namespace PageLibPreprocessor

/-- The part of `storeOnDisk` that writes the pages. They are counted with an `int`, which must not
overflow. -/
def storePages (pageLib : List (WebPage F)) : Option PageFiles :=
  if pageLib.length < 2 ^ 31 then some (pageLib.zipIdx.foldl PageFiles.addPage ⟨[], []⟩) else none

def records (pageLib : List (WebPage F)) : List Bytes :=
  pageLib.zipIdx.map fun page => page.1.getDoct page.2

/-- The lines of the offset file for records from number `i` and position `pos` on. -/
def offsetLines (i pos : ℕ) : List Bytes → Bytes
  | [] => []
  | r :: rs => PageFiles.offsetLine i (pos + r.length) r ++ offsetLines (i + 1) (pos + r.length) rs

theorem foldl_addPage (pages : List (WebPage F)) (i : ℕ) (files : PageFiles) :
    (pages.zipIdx i).foldl PageFiles.addPage files =
      ⟨files.pages ++ ((pages.zipIdx i).map fun page => page.1.getDoct page.2).flatten,
        files.offsets ++ offsetLines i files.pages.length
          ((pages.zipIdx i).map fun page => page.1.getDoct page.2)⟩ := by
  induction pages generalizing i files with
  | nil => simp [offsetLines]
  | cons page pages ih =>
    rw [List.zipIdx_cons, List.foldl_cons, ih]
    simp only [PageFiles.addPage, List.map_cons, List.flatten_cons, offsetLines, List.append_assoc,
      List.length_append]

/-- **The files.** The page file is the records one after the other, and the offset file has a line
for each. -/
theorem storePages_eq {pageLib : List (WebPage F)} {files : PageFiles}
    (h : storePages pageLib = some files) :
    pageLib.length < 2 ^ 31 ∧ files.pages = (records pageLib).flatten ∧
      files.offsets = offsetLines 0 0 (records pageLib) := by
  obtain ⟨hlen, h⟩ := Option.ite_none_right_eq_some.mp h
  obtain rfl := Option.some.inj h
  rw [foldl_addPage]
  exact ⟨hlen, rfl, rfl⟩

/-! ## The index file -/

/-- `os1 << pai.first << " " << pai.second << " "`, where `put` writes a weight. -/
def putPosting (put : ℤ → F → Bytes) (pai : ℤ × F) : Bytes :=
  decimal pai.1 ++ lit " " ++ put pai.1 pai.2 ++ lit " "

def indexLine (put : Bytes → ℤ → F → Bytes) (word : Bytes × Postings F) : Bytes :=
  word.1 ++ lit "  " ++ word.2.toList.flatMap (putPosting (put word.1)) ++ lit "\n"

/-- The part of `storeOnDisk` that writes the index, whose entries come in the order `entries`. -/
def storeIndex (put : Bytes → ℤ → F → Bytes) (entries : List (Bytes × Postings F)) : Bytes :=
  entries.flatMap (indexLine put)

end PageLibPreprocessor

end SearchServer

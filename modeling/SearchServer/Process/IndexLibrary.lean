import SearchServer.Lib.Maps
import SearchServer.Lib.NumberFormat
import SearchServer.Vocabulary

/-!
# Loading the index

The second half of `WordQuery::loadLibrary` (`process/WordQuery.cc`): every line of the index file is
a word and its postings. The postings are read until one cannot be read, so a line that goes wrong
loses what comes after, and a word without postings gets no entry.

The weights are kept as the numbers that were read; rounding them to `double` changes no key.

* `getElem?_foldl_addPostings`: the entry of a word, when the lines have distinct words.
-/

namespace SearchServer

namespace WordQuery

/-- `while (ss >> docId >> w)`. Every round consumes at least one byte, so the length of the line is
fuel enough. -/
def readPostings : ℕ → Bytes → List (ℤ × ℚ)
  | 0, _ => []
  | fuel + 1, ss =>
    match getInt ss with
    | none => []
    | some (docId, ss) =>
      match getDouble ss with
      | none => []
      | some (w, ss) => (docId, w) :: readPostings fuel ss

/-- `table[word].insert(make_pair(docId, w))`. -/
def addPosting (word : Bytes) (table : IndexTable ℚ) (pai : ℤ × ℚ) : IndexTable ℚ :=
  table.alter word fun m => some ((m.getD ∅).insertIfNew pai.1 pai.2)

def addPostings (table : IndexTable ℚ) (word : Bytes) (postings : List (ℤ × ℚ)) : IndexTable ℚ :=
  postings.foldl (addPosting word) table

/-- The body of the loop over the lines. When there is no word on the line, the stream has failed
and nothing more is read from it. -/
def loadLine (table : IndexTable ℚ) (line : Bytes) : IndexTable ℚ :=
  match getToken line with
  | some (word, ss) => addPostings table word (readPostings ss.length ss)
  | none => table

def loadIndex (is : Bytes) : IndexTable ℚ := (lines is).foldl loadLine ∅

/-! ## What a line adds -/

theorem getElem?_addPostings_ne (table : IndexTable ℚ) {word k : Bytes} (hk : k ≠ word)
    (postings : List (ℤ × ℚ)) : (addPostings table word postings)[k]? = table[k]? := by
  induction postings generalizing table with
  | nil => rfl
  | cons pai postings ih =>
    show (addPostings (addPosting word table pai) word postings)[k]? = _
    rw [ih, addPosting, getElem?_alter_ne hk]

/-- The postings of a word after more are added. -/
def extendPostings (m : Option (Postings ℚ)) (postings : List (ℤ × ℚ)) : Option (Postings ℚ) :=
  postings.foldl (fun m pai => some ((m.getD ∅).insertIfNew pai.1 pai.2)) m

theorem getElem?_addPostings_self (table : IndexTable ℚ) (word : Bytes) (postings : List (ℤ × ℚ)) :
    (addPostings table word postings)[word]? = extendPostings table[word]? postings := by
  induction postings generalizing table with
  | nil => rfl
  | cons pai postings ih =>
    show (addPostings (addPosting word table pai) word postings)[word]? = _
    rw [ih, addPosting, Std.TreeMap.getElem?_alter_self]
    rfl

theorem isSome_extendPostings {m : Option (Postings ℚ)} {postings : List (ℤ × ℚ)} :
    (extendPostings m postings).isSome ↔ m.isSome ∨ postings ≠ [] := by
  induction postings generalizing m with
  | nil => simp [extendPostings]
  | cons pai postings ih =>
    show (extendPostings (some _) postings).isSome ↔ _
    rw [ih]
    simp

theorem mem_extendPostings {m : Option (Postings ℚ)} {postings : List (ℤ × ℚ)} {d : ℤ} :
    d ∈ (extendPostings m postings).getD ∅ ↔ d ∈ m.getD ∅ ∨ d ∈ postings.map Prod.fst := by
  induction postings generalizing m with
  | nil => simp [extendPostings]
  | cons pai postings ih =>
    show d ∈ (extendPostings (some _) postings).getD ∅ ↔ _
    rw [ih, Option.getD_some, Std.TreeMap.mem_insertIfNew, List.map_cons, List.mem_cons,
      Std.compare_eq_iff_eq, eq_comm]
    tauto

/-- The table after lines with distinct words. -/
theorem getElem?_foldl_addPostings {l : List (Bytes × List (ℤ × ℚ))}
    (hl : l.Pairwise fun a b => a.1 ≠ b.1) (w : Bytes) :
    let table := l.foldl (fun table line => addPostings table line.1 line.2) ∅
    (∀ ps, (w, ps) ∈ l → table[w]? = extendPostings none ps) ∧
      ((∀ ps, (w, ps) ∉ l) → table[w]? = none) := by
  have hget := getElem?_foldl (f := fun table line => addPostings table line.1 line.2)
    (g := fun _ ps m => extendPostings m ps)
    (fun t line => getElem?_addPostings_self t line.1 line.2)
    (fun t line k hk => getElem?_addPostings_ne t hk line.2) hl ∅ w
  rwa [Std.TreeMap.getElem?_emptyc] at hget

end WordQuery

end SearchServer

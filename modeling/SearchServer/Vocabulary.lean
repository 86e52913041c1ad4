import SearchServer.Lib.Double

/-!
# Words and the inverted index

What the offline program and the server share: the stop-word list that `Configuration` reads, the
counting of the words of a text, and the inverted index.

The third-party segmenter `Jieba::Cut` is a parameter `cut : Cut`. A `std::map` is a
`Std.TreeMap`. The inverted index is an `unordered_map`; nothing here depends on the order in which
it is traversed, and where the code traverses it the model takes the order as an argument.
-/

namespace SearchServer

/-- `jieba.Cut(text, words, true)`. -/
abbrev Cut := Bytes → List Bytes

/-- The stop-word list: `while (is >> content) _stopWordList.insert(content)`. -/
def readStopWordList (text : Bytes) : Std.TreeSet Bytes :=
  (tokens text).foldl (fun set content => set.insert content) ∅

theorem mem_readStopWordList {text w : Bytes} : w ∈ readStopWordList text ↔ w ∈ tokens text := by
  have key : ∀ (l : List Bytes) (set : Std.TreeSet Bytes),
      w ∈ l.foldl (fun set content => set.insert content) set ↔ w ∈ set ∨ w ∈ l := by
    intro l
    induction l with
    | nil => simp
    | cons x l ih =>
      intro set
      rw [List.foldl_cons, ih, Std.TreeSet.mem_insert, List.mem_cons,
        Std.compare_eq_iff_eq, eq_comm]
      tauto
  rw [readStopWordList, key]
  simp

/-! ## Counting words -/

def countWord (tmp : Std.TreeMap Bytes ℤ) (word : Bytes) : Std.TreeMap Bytes ℤ :=
  tmp.alter word fun n => some (n.getD 0 + 1)

/-- Count the words that are not stop words. -/
def countWords (stop : Std.TreeSet Bytes) (tmp : Std.TreeMap Bytes ℤ) (words : List Bytes) :
    Std.TreeMap Bytes ℤ :=
  words.foldl (fun tmp word => if stop.contains word then tmp else countWord tmp word) tmp

theorem mem_countWord {tmp : Std.TreeMap Bytes ℤ} {word w : Bytes} :
    w ∈ countWord tmp word ↔ w = word ∨ w ∈ tmp := by
  rw [countWord, Std.TreeMap.mem_iff_isSome_getElem?, Std.TreeMap.getElem?_alter,
    Std.TreeMap.mem_iff_isSome_getElem?]
  split_ifs with h
  · simp [(Std.compare_eq_iff_eq.mp h).symm]
  · have hne : w ≠ word := fun h' => h (Std.compare_eq_iff_eq.mpr h'.symm)
    simp [hne]

theorem mem_countWords {stop : Std.TreeSet Bytes} {words : List Bytes} {w : Bytes} :
    ∀ {tmp : Std.TreeMap Bytes ℤ},
      w ∈ countWords stop tmp words ↔ w ∈ tmp ∨ (w ∈ words ∧ w ∉ stop) := by
  induction words with
  | nil => simp [countWords]
  | cons x words ih =>
    intro tmp
    have hstep : countWords stop tmp (x :: words) =
        countWords stop (if stop.contains x then tmp else countWord tmp x) words := rfl
    rw [hstep, ih]
    by_cases hx : x ∈ stop
    · rw [if_pos (by simpa using hx)]
      grind
    · rw [if_neg (by simpa using hx), mem_countWord]
      grind

theorem countWord_pos {word : Bytes} {tmp : Std.TreeMap Bytes ℤ}
    (htmp : ∀ (w : Bytes) (n : ℤ), tmp[w]? = some n → 0 < n) :
    ∀ (w : Bytes) (n : ℤ), (countWord tmp word)[w]? = some n → 0 < n := by
  intro w n hn
  have hcount : 0 ≤ tmp[word]?.getD 0 := by
    cases hx : tmp[word]? with
    | none => exact le_rfl
    | some m => exact (htmp word m hx).le
  rw [countWord, Std.TreeMap.getElem?_alter] at hn
  split_ifs at hn
  · have := Option.some.inj hn
    omega
  · exact htmp w n hn

/-- The words are counted from 1 on. -/
theorem countWords_pos {stop : Std.TreeSet Bytes} {words : List Bytes} {tmp : Std.TreeMap Bytes ℤ}
    (htmp : ∀ (w : Bytes) (n : ℤ), tmp[w]? = some n → 0 < n) :
    ∀ (w : Bytes) (n : ℤ), (countWords stop tmp words)[w]? = some n → 0 < n := by
  induction words generalizing tmp with
  | nil => exact htmp
  | cons x words ih =>
    apply ih
    dsimp only
    by_cases hx : stop.contains x
    · rwa [if_pos hx]
    · rw [if_neg hx]
      exact countWord_pos htmp

/-! ## The inverted index -/

variable {F : Type}

/-- The documents that have a word, with their weights. -/
abbrev Postings (F : Type) := Std.TreeMap ℤ F

abbrev IndexTable (F : Type) := Std.TreeMap Bytes (Postings F)

/-- `table[word]`, which creates an empty entry when there is none. -/
def IndexTable.at (table : IndexTable F) (word : Bytes) : Postings F × IndexTable F :=
  match table[word]? with
  | some m => (m, table)
  | none => (∅, table.insert word ∅)

theorem IndexTable.at_of_getElem? {table : IndexTable F} {word : Bytes} {m : Postings F}
    (h : table[word]? = some m) : table.at word = (m, table) := by
  rw [IndexTable.at, h]

/-- The table lists document `d` under `word`. -/
def IndexTable.Lists (table : IndexTable F) (word : Bytes) (d : ℤ) : Prop :=
  ∃ m, table[word]? = some m ∧ d ∈ m

theorem IndexTable.lists_iff {table : IndexTable F} {word : Bytes} {d : ℤ} :
    table.Lists word d ↔ ((table[word]?.getD ∅)[d]?).isSome := by
  unfold IndexTable.Lists
  cases hw : table[word]? with
  | none => simp
  | some m => simp

/-- Two tables have the same words and list the same documents under them. -/
def IndexTable.SameDocs {G : Type} (table : IndexTable F) (table' : IndexTable G) : Prop :=
  (∀ w, w ∈ table ↔ w ∈ table') ∧ ∀ w d, table.Lists w d ↔ table'.Lists w d

end SearchServer

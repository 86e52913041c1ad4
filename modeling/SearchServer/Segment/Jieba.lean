import SearchServer.Segment.MixSegment
import SearchServer.Lib.Except
import SearchServer.Vocabulary

/-!
# The segmenter

`Jieba::Cut` decodes a text, divides it at the separators (`PreFilter`), and cuts each part
(`MixSegment`). The words are the bytes of the text at the ranges that were found. When the text cannot
be decoded, there are no words.

* `cut_of_glyphs_eq_none`: a text that cannot be decoded has no words.
* `cut_utf8`: the words of a UTF-8 text are UTF-8.

**Theorem (`cut_eq`).** The words of a text that can be decoded are its glyphs, one after the other: no
byte is lost, no word is empty, and none begins or ends inside of a character. No assertion fails and
no position is out of range.

**Theorem (`cut_append`).** A separator between two texts that can be decoded is a word of its own,
between the words of the two texts. So the segmenter is lawful on the texts that it can decode.
-/

namespace SearchServer

namespace PreFilter

/-- `Next`: the number of runes of the range, of which `n` are passed. -/
def next (symbols : List Rune) (n : ℕ) : List Rune → ℕ
  | [] => n
  | x :: xs => if x ∈ symbols then if n = 0 then 1 else n else next symbols (n + 1) xs

theorem next_cons (symbols : List Rune) (n : ℕ) (x : Rune) (xs : List Rune) :
    next symbols n (x :: xs) =
      if x ∈ symbols then if n = 0 then 1 else n else next symbols (n + 1) xs := rfl

theorem le_next (symbols : List Rune) (n : ℕ) (xs : List Rune) : n ≤ next symbols n xs := by
  induction xs generalizing n with
  | nil => exact le_rfl
  | cons x xs ih =>
    have := ih (n + 1)
    rw [next]
    split_ifs <;> omega

theorem next_pos (symbols : List Rune) {xs : List Rune} (hxs : xs ≠ []) :
    0 < next symbols 0 xs := by
  obtain ⟨x, xs, rfl⟩ := List.exists_cons_of_ne_nil hxs
  have := le_next symbols (0 + 1) xs
  rw [next]
  split_ifs <;> omega

theorem next_le (symbols : List Rune) (n : ℕ) {xs : List Rune} (hxs : xs ≠ []) :
    next symbols n xs ≤ n + xs.length := by
  induction xs generalizing n with
  | nil => exact absurd rfl hxs
  | cons x xs ih =>
    rw [next, List.length_cons]
    split_ifs
    · omega
    · omega
    · by_cases h : xs = []
      · rw [h]
        exact le_of_eq rfl
      · have := ih (n + 1) h
        omega

theorem next_of_not_mem {symbols xs : List Rune} (h : ∀ x ∈ xs, x ∉ symbols) (n : ℕ) :
    next symbols n xs = n + xs.length := by
  induction xs generalizing n with
  | nil => rfl
  | cons x xs ih =>
    obtain ⟨hx, hxs⟩ := List.forall_mem_cons.mp h
    rw [next_cons, if_neg hx, ih hxs, List.length_cons]
    omega

/-- A range ends before a separator. -/
theorem next_append {symbols : List Rune} {s : Rune} (hs : s ∈ symbols) (n : ℕ) (xs ys : List Rune)
    (h : n ≠ 0 ∨ xs ≠ []) : next symbols n (xs ++ s :: ys) = next symbols n xs := by
  induction xs generalizing n with
  | nil =>
    rw [List.nil_append, next_cons, if_pos hs, if_neg (h.resolve_right (not_not.mpr rfl))]
    rfl
  | cons x xs ih =>
    rw [List.cons_append, next_cons, next_cons, ih (n + 1) (Or.inl n.succ_ne_zero)]

/-- The ranges of the runes from position `b` on. -/
def ranges (symbols : List Rune) (b : ℕ) (xs : List Rune) : List (ℕ × List Rune) :=
  if _h : xs = [] then []
  else
    let n := next symbols 0 xs
    (b, xs.take n) :: ranges symbols (b + n) (xs.drop n)
termination_by xs.length
decreasing_by
  have hpos : 0 < next symbols 0 xs := next_pos symbols (by assumption)
  have hxs : 0 < xs.length := List.length_pos_iff.mpr (by assumption)
  rw [List.length_drop]
  omega

theorem ranges_nil (symbols : List Rune) (b : ℕ) : ranges symbols b [] = [] := by
  rw [ranges, dif_pos rfl]

theorem ranges_of_ne_nil (symbols : List Rune) (b : ℕ) {xs : List Rune} (hxs : xs ≠ []) :
    ranges symbols b xs = (b, xs.take (next symbols 0 xs)) ::
      ranges symbols (b + next symbols 0 xs) (xs.drop (next symbols 0 xs)) := by
  rw [ranges, dif_neg hxs]

/-- **The ranges of two texts with a separator between them.** -/
theorem ranges_append {symbols : List Rune} {s : Rune} (hs : s ∈ symbols) (b : ℕ)
    (xs ys : List Rune) : ranges symbols b (xs ++ s :: ys) =
      ranges symbols b xs ++ (b + xs.length, [s]) :: ranges symbols (b + xs.length + 1) ys := by
  induction hn : xs.length using Nat.strong_induction_on generalizing b xs with
  | _ n ih =>
    by_cases hxs : xs = []
    · subst hxs
      have hone : next symbols 0 (s :: ys) = 1 := by
        rw [next_cons, if_pos hs, if_pos rfl]
      rw [List.nil_append, ranges_of_ne_nil symbols b (List.cons_ne_nil s ys), hone, ranges_nil,
        ← hn]
      rfl
    · have hpos := next_pos symbols hxs
      have hle : next symbols 0 xs ≤ xs.length := by
        have := next_le symbols 0 hxs
        omega
      rw [ranges_of_ne_nil symbols b (by simp), ranges_of_ne_nil symbols b hxs,
        next_append hs 0 xs ys (Or.inr hxs), List.take_append_of_le_length hle,
        List.drop_append_of_le_length hle,
        ih (xs.drop (next symbols 0 xs)).length (by rw [List.length_drop]; omega) _ _ rfl,
        List.length_drop, List.cons_append, Nat.add_assoc b, ← hn, Nat.add_sub_cancel' hle]

end PreFilter

/-! ## The program -/

def specialSeparators : Bytes := lit " \t\n，。"

def symbols : List Rune := ((decodeRunesInString specialSeparators).getD []).map RuneStr.rune

/-- The segmenter: the dictionary and the model. -/
structure Jieba (F : Type) where
  dict_trie : DictTrie F
  model : HMMModel F

namespace Jieba

variable {F : Type} [DoubleOps F] (jieba : Jieba F) (hmm : Bool)

/-- The ranges of the words of the runes from position `b` on. -/
def cutRunes (b : ℕ) (xs : List Rune) : Option (List WordRange) :=
  ((PreFilter.ranges symbols b xs).mapM fun range =>
    MixSegment.cut jieba.dict_trie jieba.model hmm range.1 range.2).map List.flatten

/-- `Cut`. There is no result when an assertion fails or a position is out of range. -/
def cut (sentence : Bytes) : Option (List Bytes) := do
  let runes := (decodeRunesInString sentence).getD []
  let wrs ← cutRunes jieba hmm 0 (runes.map RuneStr.rune)
  wrs.mapM (getWordFromRunes sentence runes)

/-- `jieba.Cut(text, words, true)`, as the programs use it. -/
def words : Cut := fun text => (cut jieba true text).getD []

/-! ## The words of runes -/

variable {jieba : Jieba F} {hmm : Bool}

/-- The runes are cut into the words, wherever they begin. -/
def CutsTo (jieba : Jieba F) (hmm : Bool) (xs : List Rune) (vs : List (List Rune)) : Prop :=
  ∀ b, cutRunes jieba hmm b xs = some (wordRanges b vs)

theorem cutsTo_nil : CutsTo jieba hmm [] [] := fun b => by
  rw [cutRunes, PreFilter.ranges_nil]
  rfl

/-- The words of runes are the words of the parts between separators. -/
theorem cutRunes_of_ranges (b : ℕ) {m : ℕ} {xs ys zs : List Rune} (rs : List (ℕ × List Rune))
    (ws : List (List Rune)) {us vs : List (List Rune)}
    (hranges : PreFilter.ranges symbols b xs =
      rs ++ (m, ys) :: PreFilter.ranges symbols (m + us.flatten.length) zs)
    (hfront : (rs.mapM fun range => MixSegment.cut jieba.dict_trie jieba.model hmm range.1
      range.2).map List.flatten = some (wordRanges b ws))
    (hm : m = b + ws.flatten.length)
    (hus : ∀ b, MixSegment.cut jieba.dict_trie jieba.model hmm b ys = some (wordRanges b us))
    (hvs : CutsTo jieba hmm zs vs) :
    cutRunes jieba hmm b xs = some (wordRanges b (ws ++ us ++ vs)) := by
  obtain ⟨front, hfront, hflat⟩ := Option.map_eq_some_iff.mp hfront
  obtain ⟨back, hback, hbackflat⟩ := Option.map_eq_some_iff.mp (hvs (m + us.flatten.length))
  rw [cutRunes, hranges, List.mapM_append, List.mapM_cons, hfront, hus, hback]
  show some (front ++ wordRanges m us :: back).flatten = _
  rw [List.flatten_append, List.flatten_cons, hflat, hbackflat, wordRanges_append,
    wordRanges_append, List.flatten_append, List.length_append, hm, Nat.add_assoc,
    List.append_assoc]

/-- Runes are cut into words. -/
theorem exists_cutsTo (jieba : Jieba F) (hmm : Bool) (xs : List Rune) :
    ∃ vs, CutsTo jieba hmm xs vs ∧ vs.flatten = xs ∧
      ∀ v ∈ vs, MixSegment.IsWord jieba.dict_trie v := by
  induction hn : xs.length using Nat.strong_induction_on generalizing xs with
  | _ n ih =>
    by_cases hxs : xs = []
    · exact ⟨[], hxs ▸ cutsTo_nil, hxs.symm, by simp⟩
    · have hpos := PreFilter.next_pos symbols hxs
      have hlt : 0 < xs.length := List.length_pos_iff.mpr hxs
      set k := PreFilter.next symbols 0 xs
      obtain ⟨us, hus, husflat, huswords⟩ := MixSegment.cut_eq jieba.dict_trie
        jieba.model hmm (xs.take k)
      obtain ⟨vs, hvs, hvsflat, hvswords⟩ := ih (xs.drop k).length
        (by rw [List.length_drop]; omega) (xs.drop k) rfl
      have hk : us.flatten.length = k := by
        have := PreFilter.next_le symbols 0 hxs
        rw [husflat, List.length_take]
        omega
      refine ⟨us ++ vs, fun b => ?_, ?_, ?_⟩
      · refine cutRunes_of_ranges b [] [] (m := b) ?_ rfl rfl hus hvs
        rw [PreFilter.ranges_of_ne_nil symbols b hxs, hk]
        rfl
      · rw [List.flatten_append, husflat, hvsflat, List.take_append_drop]
      · exact List.forall_mem_append.mpr ⟨huswords, hvswords⟩

theorem cut_singleton (x : Rune) (b : ℕ) :
    MixSegment.cut jieba.dict_trie jieba.model hmm b [x] = some (wordRanges b [[x]]) := by
  obtain ⟨vs, hvs, hflat, hwords⟩ := MixSegment.cut_eq jieba.dict_trie jieba.model hmm [x]
  have hne : ∀ v ∈ vs, v ≠ [] := fun v hv => (hwords v hv).ne_nil
  -- No word is empty, so there is only one.
  obtain ⟨ys, zs, rfl, hys, hzs⟩ := List.flatten_eq_singleton_iff.mp hflat
  have hys' : ys = [] := List.eq_nil_iff_forall_not_mem.mpr fun y hy =>
    hne y (List.mem_append_left _ hy) (hys y hy)
  have hzs' : zs = [] := List.eq_nil_iff_forall_not_mem.mpr fun z hz =>
    hne z (List.mem_append_right _ (List.mem_cons_of_mem _ hz)) (hzs z hz)
  rw [hvs, hys', hzs']
  rfl

/-- Two texts with a separator between them. -/
theorem CutsTo.append {xs ys : List Rune} {us vs : List (List Rune)} {s : Rune} (hs : s ∈ symbols)
    (hxs : CutsTo jieba hmm xs us) (hflat : us.flatten = xs) (hys : CutsTo jieba hmm ys vs) :
    CutsTo jieba hmm (xs ++ s :: ys) (us ++ [[s]] ++ vs) := fun b => by
  refine cutRunes_of_ranges b _ _ (PreFilter.ranges_append hs b xs ys) (hxs b) ?_ (cut_singleton s) hys
  rw [hflat]

/-! ## The words of a text -/

def bytesOf (u : List Glyph) : Bytes := (u.map Prod.snd).flatten

theorem bytesOf_ne_nil {u : List Glyph} (hne : u ≠ []) (hbytes : ∀ g ∈ u, g.2 ≠ []) :
    bytesOf u ≠ [] := by
  obtain ⟨g, u, rfl⟩ := List.exists_cons_of_ne_nil hne
  exact List.append_ne_nil_of_left_ne_nil (hbytes g List.mem_cons_self) _

theorem bytesOf_charGlyphs (chars : List Char) :
    bytesOf (charGlyphs chars) = chars.flatMap String.utf8EncodeChar := by
  rw [bytesOf, charGlyphs, List.map_map, List.flatMap_def]
  rfl

/-- The strings of the words. -/
theorem mapM_getWordFromRunes {sentence : Bytes} {us : List (List Glyph)}
    (h : glyphs sentence = some us.flatten) (hne : ∀ u ∈ us, u ≠ []) :
    (wordRanges 0 us).mapM (getWordFromRunes sentence (layOut 0 us.flatten)) =
      some (us.map bytesOf) := by
  have htiles := tiles_wordRanges 0 hne
  have hword : ∀ r ∈ wordRanges 0 us, getWordFromRunes sentence (layOut 0 us.flatten) r =
      some (wordOf us.flatten r) := fun r hr => by
    obtain ⟨-, hle, hlt⟩ := htiles.bounds hr
    exact getWordFromRunes_eq h hle (by omega)
  have hslices := slices_wordRanges [] hne []
  rw [List.nil_append, List.append_nil] at hslices
  rw [mapM_eq_some hword]
  conv_rhs => rw [← hslices, List.map_map]
  rfl

/-- The words of a text whose runes are cut into the words `us`. -/
theorem cut_of_cutsTo {sentence : Bytes} {us : List (List Glyph)}
    (h : glyphs sentence = some us.flatten) (hne : ∀ u ∈ us, u ≠ [])
    (hcuts : CutsTo jieba hmm (us.flatten.map Prod.fst) (us.map (List.map Prod.fst))) :
    cut jieba hmm sentence = some (us.map bytesOf) := by
  have hrunes : (decodeRunesInString sentence).getD [] = layOut 0 us.flatten := by
    rw [decodeRunesInString_eq, h]
    rfl
  rw [cut, hrunes, map_rune_layOut, hcuts 0, wordRanges_map]
  exact mapM_getWordFromRunes h hne

theorem exists_words (jieba : Jieba F) (hmm : Bool) (gs : List Glyph) :
    ∃ us : List (List Glyph), us.flatten = gs ∧
      CutsTo jieba hmm (gs.map Prod.fst) (us.map (List.map Prod.fst)) ∧
      ∀ u ∈ us, MixSegment.IsWord jieba.dict_trie (u.map Prod.fst) := by
  obtain ⟨vs, hvs, hflat, hwords⟩ := exists_cutsTo jieba hmm (gs.map Prod.fst)
  obtain ⟨us, rfl, rfl⟩ := exists_words_of_map hflat
  exact ⟨us, rfl, hvs, fun u hu => hwords _ (List.mem_map_of_mem hu)⟩

/-- **A text that can be decoded**: its words are its glyphs, one after the other. -/
theorem cut_eq (jieba : Jieba F) (hmm : Bool) {sentence : Bytes} {gs : List Glyph}
    (h : glyphs sentence = some gs) :
    ∃ us : List (List Glyph), cut jieba hmm sentence = some (us.map bytesOf) ∧ us.flatten = gs ∧
      ∀ u ∈ us, MixSegment.IsWord jieba.dict_trie (u.map Prod.fst) := by
  obtain ⟨us, rfl, hcuts, hwords⟩ := exists_words jieba hmm gs
  refine ⟨us, cut_of_cutsTo h (fun u hu hnil => ?_) hcuts, rfl, hwords⟩
  exact (hwords u hu).ne_nil (by rw [hnil]; rfl)

theorem cut_of_glyphs_eq_none (jieba : Jieba F) (hmm : Bool) {sentence : Bytes}
    (h : glyphs sentence = none) : cut jieba hmm sentence = some [] := by
  have hrunes : (decodeRunesInString sentence).getD [] = [] := by
    rw [decodeRunesInString_eq, h]
    rfl
  rw [cut, hrunes, List.map_nil, cutsTo_nil 0]
  rfl

/-- A text that can be decoded, with its words. -/
theorem exists_cut (jieba : Jieba F) (hmm : Bool) {a : Bytes} (h : decodeRunesInString a ≠ none) :
    ∃ us : List (List Glyph), glyphs a = some us.flatten ∧ (∀ u ∈ us, u ≠ []) ∧
      CutsTo jieba hmm (us.flatten.map Prod.fst) (us.map (List.map Prod.fst)) := by
  rw [decodeRunesInString_eq, Ne, Option.map_eq_none_iff] at h
  obtain ⟨gs, hgs⟩ := Option.ne_none_iff_exists'.mp h
  obtain ⟨us, rfl, hcuts, hwords⟩ := exists_words jieba hmm gs
  exact ⟨us, hgs, fun u hu hnil => (hwords u hu).ne_nil (by rw [hnil]; rfl), hcuts⟩

/-- The texts of the separators. -/
def separators : List Char := [' ', '\t', '\n', '，', '。']

theorem symbols_eq : symbols = separators.map Char.val := by
  have h : decodeRunesInString specialSeparators =
      some (layOut 0 (charGlyphs separators)) := by
    rw [decodeRunesInString_eq]
    exact congrArg _ (glyphs_utf8 separators)
  rw [symbols, h, Option.getD_some, map_rune_layOut, charGlyphs, List.map_map]
  rfl

theorem not_mem_symbols {x : Rune} (h : HMMSegment.isLetter x = true) : x ∉ symbols := by
  have hsep : ∀ c ∈ separators, ¬ HMMSegment.isLetter c.val = true := by
    simp [separators, HMMSegment.isLetter]
  rw [symbols_eq]
  intro hx
  obtain ⟨c, hc, rfl⟩ := List.mem_map.mp hx
  exact hsep c hc h

/-- Letters in sequence are one word, when there is none in the dictionary. -/
theorem cutsTo_of_isLetter {x : Rune} {xs : List Rune}
    (hletter : ∀ y ∈ x :: xs, HMMSegment.isLetter y = true)
    (hlone : ∀ w, w <:+: x :: xs → MPSegment.IsPiece jieba.dict_trie maxWordLength w →
      MixSegment.IsLone jieba.dict_trie w) :
    CutsTo jieba true (x :: xs) [x :: xs] := fun b => by
  have hnext : PreFilter.next symbols 0 (x :: xs) = (x :: xs).length :=
    (PreFilter.next_of_not_mem (fun y hy => not_mem_symbols (hletter y hy)) 0).trans (Nat.zero_add _)
  have hranges : PreFilter.ranges symbols b (x :: xs) =
      [] ++ (b, x :: xs) :: PreFilter.ranges symbols (b + [x :: xs].flatten.length) [] := by
    rw [PreFilter.ranges_of_ne_nil symbols b (List.cons_ne_nil x xs), hnext, List.take_length,
      List.drop_length, List.flatten_singleton]
    rfl
  have hcut : ∀ b, MixSegment.cut jieba.dict_trie jieba.model true b (x :: xs) =
      some (wordRanges b [x :: xs]) := fun b => by
    rw [MixSegment.cut_of_isLone hlone, HMMSegment.cut_of_isLetter jieba.model hletter]
  exact cutRunes_of_ranges b [] [] hranges rfl rfl hcut cutsTo_nil

/-- The words of two texts with a separator between them. -/
theorem cut_separator {a b : Bytes} (ha : decodeRunesInString a ≠ none)
    (hb : decodeRunesInString b ≠ none) {c : Char} (hc : c ∈ separators) :
    ∃ wa wb, cut jieba hmm a = some wa ∧ cut jieba hmm b = some wb ∧
      cut jieba hmm (a ++ String.utf8EncodeChar c ++ b) =
        some (wa ++ [String.utf8EncodeChar c] ++ wb) := by
  obtain ⟨us, hus, hne, hcuts⟩ := exists_cut jieba hmm ha
  obtain ⟨vs, hvs, hvne, hvcuts⟩ := exists_cut jieba hmm hb
  have hs : c.val ∈ symbols := symbols_eq ▸ List.mem_map_of_mem hc
  have hsep : glyphs (String.utf8EncodeChar c) = some [(c.val, String.utf8EncodeChar c)] := by
    have h := glyphs_utf8 [c]
    rwa [List.flatMap_singleton] at h
  set g : Glyph := (c.val, String.utf8EncodeChar c) with hg
  have hall : glyphs (a ++ String.utf8EncodeChar c ++ b) =
      some (us ++ [[g]] ++ vs).flatten := by
    rw [List.append_assoc, glyphs_append hus, glyphs_append hsep, hvs]
    simp
  have hallne : ∀ u ∈ us ++ [[g]] ++ vs, u ≠ [] :=
    List.forall_mem_append.mpr ⟨List.forall_mem_append.mpr ⟨hne, by simp⟩, hvne⟩
  have hallcuts := hcuts.append hs (by rw [List.map_flatten]) hvcuts
  refine ⟨_, _, cut_of_cutsTo hus hne hcuts, cut_of_cutsTo hvs hvne hvcuts, ?_⟩
  rw [cut_of_cutsTo hall hallne (by simpa using hallcuts)]
  simp [bytesOf, hg]

/-- Without a dictionary a text of letters is one word. -/
theorem cut_of_isLetter (model : HMMModel F) (minWeight : F) {chars : List Char} (hne : chars ≠ [])
    (h : ∀ c ∈ chars, HMMSegment.isLetter c.val = true) :
    cut ⟨DictTrie.createTrie [] minWeight [], model⟩ true (chars.flatMap String.utf8EncodeChar) =
      some [chars.flatMap String.utf8EncodeChar] := by
  obtain ⟨c, chars, rfl⟩ := List.exists_cons_of_ne_nil hne
  have hlone : ∀ w, MPSegment.IsPiece (DictTrie.createTrie [] minWeight []) maxWordLength w →
      MixSegment.IsLone (DictTrie.createTrie [] minWeight []) w := by
    intro w hpiece
    obtain ⟨hw, hlen | ⟨-, hfind⟩⟩ := hpiece
    · obtain ⟨x, rfl⟩ := List.length_eq_one_iff.mp hlen
      exact ⟨x, rfl, List.not_mem_nil⟩
    · exact absurd (DictTrie.find_createTrie [] minWeight [] hw) hfind
  have hglyphs : glyphs ((c :: chars).flatMap String.utf8EncodeChar) =
      some [charGlyphs (c :: chars)].flatten := by
    rw [List.flatten_singleton, glyphs_utf8]
  have hcuts : CutsTo ⟨DictTrie.createTrie [] minWeight [], model⟩ true
      ([charGlyphs (c :: chars)].flatten.map Prod.fst)
      ([charGlyphs (c :: chars)].map (List.map Prod.fst)) := by
    rw [List.flatten_singleton]
    exact cutsTo_of_isLetter (by simpa [charGlyphs] using h) fun w _ => hlone w
  rw [cut_of_cutsTo hglyphs (by simp [charGlyphs]) hcuts, List.map_singleton, bytesOf_charGlyphs]

end Jieba

end SearchServer

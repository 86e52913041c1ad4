import SearchServer.Lib.Search
import SearchServer.Process.WordQuery

/-!
# Loading the page library

The first half of `WordQuery::loadLibrary` (`process/WordQuery.cc`): the records of the page file
are read one after the other into a local buffer of 102400 bytes, and the fields of a page are what
stands between the first two occurrences of each marker in the record.

The positions that `find` returns are stored in `int` variables. When there is no occurrence `find`
returns `npos`, the largest `size_t`, which becomes -1. Another position that is no `int` ends the
model: its conversion is implementation-defined.

* `field_eq_some_iff`: when a marker occurs twice, the field is what stands between the first two.
* `field_of_before`: when a marker occurs before the place where it is written, what comes after
  that place does not matter.
-/

namespace SearchServer

/-! ## Fields -/

/-- `text.find(m, pos)`, where `none` is `npos`. -/
def find (m text : Bytes) (pos : ℕ) : Option ℕ := (findSub m (text.drop pos)).map (pos + ·)

/-- A position converted to `int`. -/
def toInt (pos : ℕ) : Option ℕ := if pos < 2 ^ 31 then some pos else none

/-- `int bbeg = text.find(m) + n`, where `n` is the length of `m`. -/
def fieldBegin (m text : Bytes) : Option ℕ :=
  match find m text 0 with
  | some i => toInt (i + m.length)
  | none => some (m.length - 1)

/-- `int eend = text.find(m, bbeg)`. -/
def fieldEnd (m text : Bytes) (bbeg : ℕ) : Option ℤ :=
  match find m text bbeg with
  | some i => (toInt i).map Int.ofNat
  | none => some (-1)

/-- `text.substr(pos, n)`, which throws when `pos` is past the end. The length is an `int` converted
to `size_t`. -/
def substr (text : Bytes) (pos : ℕ) (n : ℤ) : Option Bytes :=
  if pos ≤ text.length then some ((text.drop pos).take (n % 2 ^ 64).toNat) else none

/-- The field between two markers, as `loadLibrary` extracts it. -/
def field (m text : Bytes) : Option Bytes := do
  let bbeg ← fieldBegin m text
  let eend ← fieldEnd m text bbeg
  substr text bbeg (eend - bbeg)

abbrev urlMarker : Bytes := lit "<url>"
abbrev titleMarker : Bytes := lit "<title>"
abbrev contentMarker : Bytes := lit "<content>"

def loadPage (text : Bytes) : Option OnWebPage := do
  let url ← field urlMarker text
  let title ← field titleMarker text
  let content ← field contentMarker text
  return ⟨title, url, content⟩

/-- `f` is what stands between the first two markers of `text`, and the second one starts at an
`int` position. -/
def Between (m text f : Bytes) : Prop :=
  ∃ p r, text = p ++ (m ++ (f ++ (m ++ r))) ∧ ¬ m <:+: p ∧ ¬ m <:+: f ∧
    (p ++ (m ++ f)).length < 2 ^ 31

/-- A text in which the marker occurs twice, split at the first two occurrences. -/
theorem field_of_split {m p f r : Bytes} (hm : IsMarker m) (hp : ¬ m <:+: p) (hf : ¬ m <:+: f) :
    field m (p ++ (m ++ (f ++ (m ++ r)))) =
      if (p ++ (m ++ f)).length < 2 ^ 31 then some f else none := by
  have hlen : (p ++ (m ++ f)).length = p.length + m.length + f.length := by
    simp only [List.length_append]
    omega
  have hdrop : (p ++ (m ++ (f ++ (m ++ r)))).drop (p.length + m.length) = f ++ (m ++ r) := by
    rw [← List.append_assoc, ← List.length_append, List.drop_left]
  have hbegin : fieldBegin m (p ++ (m ++ (f ++ (m ++ r)))) = toInt (p.length + m.length) := by
    simp [fieldBegin, find, findSub_append hm hp]
  have hend : fieldEnd m (p ++ (m ++ (f ++ (m ++ r)))) (p.length + m.length) =
      (toInt (p.length + m.length + f.length)).map Int.ofNat := by
    simp [fieldEnd, find, hdrop, findSub_append hm hf]
  unfold field
  rw [hbegin, hlen, toInt]
  by_cases hb : p.length + m.length < 2 ^ 31
  · rw [if_pos hb]
    show (fieldEnd m _ (p.length + m.length)).bind _ = _
    rw [hend, toInt]
    by_cases he : p.length + m.length + f.length < 2 ^ 31
    · rw [if_pos he, if_pos he]
      show substr _ _ (((p.length + m.length + f.length : ℕ) : ℤ) - (p.length + m.length : ℕ)) = _
      have hn : ((((p.length + m.length + f.length : ℕ) : ℤ) - (p.length + m.length : ℕ)) %
          2 ^ 64).toNat = f.length := by omega
      rw [substr, if_pos (by simp only [List.length_append]; omega), hdrop, hn, List.take_left]
    · rw [if_neg he, if_neg he]
      rfl
  · rw [if_neg hb, if_neg (by omega)]
    rfl

theorem field_eq_some_iff {m p f r g : Bytes} (hm : IsMarker m) (hp : ¬ m <:+: p)
    (hf : ¬ m <:+: f) :
    field m (p ++ (m ++ (f ++ (m ++ r)))) = some g ↔ f = g ∧ (p ++ (m ++ f)).length < 2 ^ 31 := by
  rw [field_of_split hm hp hf]
  split_ifs with h
  · rw [Option.some_inj, and_iff_left h]
  · constructor
    · intro hnone
      cases hnone
    · exact fun hboth => absurd hboth.2 h

/-- When a marker occurs before the place where it is written, the field ends there at the latest,
and what comes after it does not matter. -/
theorem field_of_before {m before t g : Bytes} (hm : IsMarker m) (hin : m <:+: before) :
    field m (before ++ (m ++ t)) = some g ↔ Between m (before ++ m) g := by
  obtain ⟨p, s, rfl, hp⟩ := exists_first_of_infix hin
  obtain ⟨f, r, hsplit, hf⟩ := exists_first_of_infix (List.infix_append' s m [])
  have hnil : m ≠ [] := by
    rintro rfl
    exact hm
  have hp : ¬ m <:+: p := hp.resolve_left hnil
  have hf : ¬ m <:+: f := hf.resolve_left hnil
  have hx : p ++ (m ++ s) ++ m = p ++ (m ++ (f ++ (m ++ r))) := by
    rw [← hsplit]
    simp
  have hxt : p ++ (m ++ s) ++ (m ++ t) = p ++ (m ++ (f ++ (m ++ (r ++ t)))) := by
    rw [← List.append_assoc, hx]
    simp
  rw [hx, hxt, field_eq_some_iff hm hp hf]
  constructor
  · intro h
    obtain ⟨rfl, hlen⟩ := h
    exact ⟨p, r, rfl, hp, hf, hlen⟩
  · intro h
    obtain ⟨p', r', heq, hp', hg, hlen⟩ := h
    have hfield := (field_eq_some_iff (r := r') hm hp' hg).mpr ⟨rfl, hlen⟩
    rw [← heq] at hfield
    exact (field_eq_some_iff hm hp hf).mp hfield

theorem field_ne_of_occurs {m p f r : Bytes} (hm : IsMarker m) (hp : ¬ m <:+: p) (hin : m <:+: f) :
    field m (p ++ (m ++ (f ++ r))) ≠ some f := by
  obtain ⟨f₀, s, rfl, hf₀⟩ := exists_first_of_infix hin
  have hnil : m ≠ [] := by
    rintro rfl
    exact hm
  rw [show p ++ (m ++ (f₀ ++ (m ++ s) ++ r)) = p ++ (m ++ (f₀ ++ (m ++ (s ++ r)))) by simp]
  intro hfield
  have heq := ((field_eq_some_iff hm hp (hf₀.resolve_left hnil)).mp hfield).1
  simp [hnil] at heq

/-- A text in which the marker occurs has a field, when its positions are `int`s. -/
theorem exists_field {m text : Bytes} (hin : m <:+: text) (hlen : text.length < 2 ^ 31) :
    ∃ f, field m text = some f := by
  obtain ⟨i, hi⟩ := Option.ne_none_iff_exists'.mp
    (fun h : findSub m text = none => findSub_eq_none_iff.mp h hin)
  have hle : i + m.length ≤ text.length := findSub_le hi
  have hbegin : fieldBegin m text = some (i + m.length) := by
    simp only [fieldBegin, find, List.drop_zero, hi, Option.map_some, Nat.zero_add]
    exact if_pos (by omega)
  have hend : ∃ eend, fieldEnd m text (i + m.length) = some eend := by
    unfold fieldEnd find
    cases hj : findSub m (text.drop (i + m.length)) with
    | none => exact ⟨-1, rfl⟩
    | some j =>
      have hjle := findSub_le hj
      rw [List.length_drop] at hjle
      refine ⟨(i + m.length + j : ℕ), ?_⟩
      show (toInt (i + m.length + j)).map Int.ofNat = _
      rw [toInt, if_pos (by omega)]
      rfl
  obtain ⟨eend, hend⟩ := hend
  refine ⟨(text.drop (i + m.length)).take ((eend - (i + m.length : ℕ)) % 2 ^ 64).toNat, ?_⟩
  unfold field
  rw [hbegin]
  show (fieldEnd m text (i + m.length)).bind _ = _
  rw [hend]
  exact if_pos hle

/-! ## Reading the records -/

inductive LoadError where
  /-- A record is longer than the buffer. -/
  | overrun
  /-- The buffer holds no NUL, so the string made of it does not end in the buffer. -/
  | unterminated
  /-- A position is out of range. -/
  | badField
deriving DecidableEq

def bufSize : ℕ := 102400

/-- `pageis.read(buf, lenth)`: the bytes read, and the rest of the stream. After a failed read there
is nothing more to read. -/
def read (pageis : Bytes) (lenth : ℤ) : Bytes × Bytes :=
  if lenth < 0 then ([], []) else (pageis.take lenth.toNat, pageis.drop lenth.toNat)

/-- The buffer after `data` was read into it. -/
def fill (buf data : Bytes) : Bytes := data ++ buf.drop data.length

/-- `string text(buf)` after `data` was read into the buffer. -/
def readText (buf data : Bytes) : Except LoadError Bytes :=
  if bufSize < data.length then .error .overrun
  else if NUL ∈ fill buf data then .ok (cStr (fill buf data))
  else .error .unterminated

/-- The page of a text, unless a position is out of range. -/
def loadText (text : Bytes) : Except LoadError OnWebPage :=
  match loadPage text with
  | some page => .ok page
  | none => .error .badField

/-- The loop `while (offis >> docId >> beg >> lenth)`, with the texts of the records. -/
def loadPages (buf pageis : Bytes) : List (ℤ × ℤ × ℤ) → Except LoadError (List (Bytes × OnWebPage))
  | [] => .ok []
  | (_, _, lenth) :: offsets => do
    let (data, pageis) := read pageis lenth
    let text ← readText buf data
    let page ← loadText text
    let pages ← loadPages (fill buf data) pageis offsets
    return (text, page) :: pages

/-- The numbers that `offis >> docId >> beg >> lenth` reads, three at a time. -/
def readOffsets : ℕ → Bytes → List (ℤ × ℤ × ℤ)
  | 0, _ => []
  | fuel + 1, s =>
    match getInt s with
    | none => []
    | some (docId, s) =>
      match getInt s with
      | none => []
      | some (beg, s) =>
        match getInt s with
        | none => []
        | some (lenth, s) => (docId, beg, lenth) :: readOffsets fuel s

end SearchServer

import SearchServer.Offline.StoreOnDisk
import SearchServer.PageFile

/-!
# The page file: reading the records

`WordQuery::loadLibrary` reads every record of the page file into one local buffer of 102400 bytes,
which is neither initialised nor terminated, and makes a string of it.

**Theorem (`loadsBounded_iff`).** Every read stays inside the buffer, and every string starts with
the record that was read, exactly when no record has a NUL and the buffer happens to hold a NUL
behind the longest record.

The proof follows the buffer through the loop: a read replaces its first bytes by the record and
leaves the others as they were, so a NUL that was there before the loop survives behind the longest
record, and the records bring in no other (`loads_iff`).
-/

namespace SearchServer

variable {F : Type}

open PageLibPreprocessor

/-! ## The offset file -/

theorem getInt_decimal_space {n : ℤ} (h : -2 ^ 31 ≤ n ∧ n < 2 ^ 31) (c : UInt8) (r : Bytes)
    (hc : isdigit c = false) : getInt (decimal n ++ (c :: r)) = some (n, c :: r) :=
  getInt_decimal h.1 h.2 fun d hd => by
    rw [← Option.some.inj hd]
    exact hc

/-- The offsets that are read back for records from number `i` and position `pos` on. -/
def offsetsOf (i pos : ℕ) : List Bytes → List (ℤ × ℤ × ℤ)
  | [] => []
  | r :: rs => (i, PageFiles.pos (pos + r.length) r, PageFiles.lenth r) ::
      offsetsOf (i + 1) (pos + r.length) rs

theorem readOffsets_newline (fuel : ℕ) (s : Bytes) :
    readOffsets fuel (LF :: s) = readOffsets fuel s := by
  cases fuel with
  | zero => rfl
  | succ fuel => rw [readOffsets, readOffsets, getInt_space (c := LF) (by decide)]

theorem readOffsets_line {i p n : ℤ} (hi : -2 ^ 31 ≤ i ∧ i < 2 ^ 31) (hp : -2 ^ 31 ≤ p ∧ p < 2 ^ 31)
    (hn : -2 ^ 31 ≤ n ∧ n < 2 ^ 31) (fuel : ℕ) (s : Bytes) :
    readOffsets (fuel + 1) (decimal i ++ SP :: (decimal p ++ SP :: (decimal n ++ LF :: s))) =
      (i, p, n) :: readOffsets fuel s := by
  have hdigit : isdigit SP = false := by decide
  have hfirst := getInt_decimal_space hi SP (decimal p ++ SP :: (decimal n ++ LF :: s)) hdigit
  have hsecond := getInt_decimal_space hp SP (decimal n ++ LF :: s) hdigit
  have hthird := getInt_decimal_space hn LF s (by decide)
  have hskip := fun t => getInt_space (c := SP) (by decide) t
  rw [readOffsets, hfirst]
  simp only []
  rw [hskip (decimal p ++ _), hsecond]
  simp only []
  rw [hskip (decimal n ++ _), hthird]
  simp only [readOffsets_newline]

theorem offsetLine_append (i tellp : ℕ) (tmp s : Bytes) :
    PageFiles.offsetLine i tellp tmp ++ s = decimal i ++ SP :: (decimal (PageFiles.pos tellp tmp) ++
      SP :: (decimal (PageFiles.lenth tmp) ++ LF :: s)) := by
  have happend : ∀ a b c : Bytes, a ++ [SP] ++ b ++ [SP] ++ c ++ [LF] ++ s =
      a ++ SP :: (b ++ SP :: (c ++ LF :: s)) := by
    intro a b c
    simp
  exact happend _ _ _

theorem readOffsets_offsetLines (rs : List Bytes) {i pos fuel : ℕ} (hi : i + rs.length ≤ 2 ^ 31)
    (hfuel : rs.length ≤ fuel) :
    readOffsets fuel (offsetLines i pos rs) = offsetsOf i pos rs := by
  induction rs generalizing i pos fuel with
  | nil =>
    cases fuel with
    | zero => rfl
    | succ fuel => rfl
  | cons r rs ih =>
    rw [List.length_cons] at hi hfuel
    obtain ⟨fuel, rfl⟩ : ∃ n, fuel = n + 1 := ⟨fuel - 1, by omega⟩
    have hnum : -2 ^ 31 ≤ (i : ℤ) ∧ (i : ℤ) < 2 ^ 31 := ⟨by omega, by omega⟩
    rw [offsetLines, offsetsOf, offsetLine_append, readOffsets_line hnum (PageFiles.pos_range _ r)
      (PageFiles.lenth_range r), ih (by omega) (by omega)]

/-- Every line has at least one byte. -/
theorem length_le_offsetLines (rs : List Bytes) (i pos : ℕ) :
    rs.length ≤ (offsetLines i pos rs).length := by
  induction rs generalizing i pos with
  | nil => simp
  | cons r rs ih =>
    have hrest := ih (i + 1) (pos + r.length)
    have hline : 1 ≤ (PageFiles.offsetLine i (pos + r.length) r).length := by
      have hlf : (lit "\n").length = 1 := rfl
      rw [PageFiles.offsetLine, List.length_append, hlf]
      omega
    rw [offsetLines, List.length_append, List.length_cons]
    omega

/-! ## The buffer -/

/-- The records have no NUL, and the buffer has one behind the longest of them. -/
def RoomBehind (buf : Bytes) (rs : List Bytes) : Prop :=
  (∀ r ∈ rs, NUL ∉ r) ∧ (rs ≠ [] → ∃ k, (∀ r ∈ rs, r.length ≤ k) ∧ buf[k]? = some NUL)

/-- The loop over the records succeeds, and every text it makes starts with its record. -/
def Loads (buf pageis : Bytes) (offsets : List (ℤ × ℤ × ℤ)) (rs : List Bytes) : Prop :=
  ∃ loads, loadPages buf pageis offsets = .ok loads ∧
    List.Forall₂ (fun r load => r <+: load.1) rs loads

/-- The markers that every record has. -/
def HasMarkers (r : Bytes) : Prop :=
  urlMarker <:+: r ∧ titleMarker <:+: r ∧ contentMarker <:+: r

theorem exists_loadPage {text : Bytes} (h : HasMarkers text) (hlen : text.length < 2 ^ 31) :
    ∃ page, loadPage text = some page := by
  obtain ⟨url, hurl⟩ := exists_field h.1 hlen
  obtain ⟨title, htitle⟩ := exists_field h.2.1 hlen
  obtain ⟨content, hcontent⟩ := exists_field h.2.2 hlen
  refine ⟨⟨title, url, content⟩, ?_⟩
  unfold loadPage
  rw [hurl, htitle, hcontent]
  rfl

theorem length_fill {buf r : Bytes} (h : r.length ≤ buf.length) :
    (fill buf r).length = buf.length := by
  simp [fill]
  omega

theorem getElem?_fill {buf r : Bytes} {k : ℕ} (h : r.length ≤ k) : (fill buf r)[k]? = buf[k]? := by
  rw [fill, List.getElem?_append_right h, List.getElem?_drop]
  congr 1
  omega

/-- A NUL in the buffer is not one of the record's bytes. -/
theorem length_le_of_getElem?_fill {buf r : Bytes} (hr : NUL ∉ r) {k : ℕ}
    (h : (fill buf r)[k]? = some NUL) : r.length ≤ k := by
  by_contra hlt
  rw [fill, List.getElem?_append_left (by omega)] at h
  exact hr (List.mem_of_getElem? h)

theorem readText_eq_ok_iff {buf r text : Bytes} :
    readText buf r = .ok text ↔
      r.length ≤ bufSize ∧ NUL ∈ fill buf r ∧ text = cStr (fill buf r) := by
  unfold readText
  split_ifs with hover hmem
  · constructor
    · intro h
      cases h
    · exact fun h => absurd h.1 (by omega)
  · rw [Except.ok.injEq, eq_comm]
    exact ⟨fun h => ⟨by omega, hmem, h⟩, fun h => h.2.2⟩
  · constructor
    · intro h
      cases h
    · exact fun h => absurd h.2.1 hmem

theorem roomBehind_cons_iff {buf r : Bytes} {rs : List Bytes} (hbuf : buf.length = bufSize) :
    RoomBehind buf (r :: rs) ↔
      r.length ≤ bufSize ∧ NUL ∈ fill buf r ∧ NUL ∉ r ∧ RoomBehind (fill buf r) rs := by
  constructor
  · intro h
    obtain ⟨hnul, hroom⟩ := h
    obtain ⟨k, hk, hget⟩ := hroom (List.cons_ne_nil r rs)
    have hkr : r.length ≤ k := hk r List.mem_cons_self
    have hkbuf : k < buf.length := (List.getElem?_eq_some_iff.mp hget).1
    have hfill : (fill buf r)[k]? = some NUL := by rw [getElem?_fill hkr, hget]
    refine ⟨by omega, List.mem_of_getElem? hfill, hnul r List.mem_cons_self,
      fun s hs => hnul s (List.mem_cons_of_mem _ hs), fun _ => ⟨k, fun s hs => ?_, hfill⟩⟩
    exact hk s (List.mem_cons_of_mem _ hs)
  · intro h
    obtain ⟨hle, hmem, hnul, hnuls, hroom⟩ := h
    refine ⟨List.forall_mem_cons.mpr ⟨hnul, hnuls⟩, fun _ => ?_⟩
    by_cases hrs : rs = []
    · obtain ⟨k, hk⟩ := List.getElem?_of_mem hmem
      have hkr := length_le_of_getElem?_fill hnul hk
      subst hrs
      exact ⟨k, by simpa using hkr, by rwa [getElem?_fill hkr] at hk⟩
    · obtain ⟨k, hks, hk⟩ := hroom hrs
      have hkr := length_le_of_getElem?_fill hnul hk
      exact ⟨k, List.forall_mem_cons.mpr ⟨hkr, hks⟩, by rwa [getElem?_fill hkr] at hk⟩

/-- One round of the loop. -/
theorem loadPages_cons {buf r pageis : Bytes} (docId beg : ℤ) (offsets : List (ℤ × ℤ × ℤ))
    (hlen : r.length < 2 ^ 31) :
    loadPages buf (r ++ pageis) ((docId, beg, PageFiles.lenth r) :: offsets) =
      (readText buf r).bind fun text => (loadText text).bind fun page =>
        (loadPages (fill buf r) pageis offsets).bind fun pages => .ok ((text, page) :: pages) := by
  have hread : read (r ++ pageis) (PageFiles.lenth r) = (r, pageis) := by
    rw [PageFiles.lenth, wrapInt_natCast hlen, read, if_neg (by omega), Int.toNat_natCast,
      List.take_left, List.drop_left]
  rw [loadPages, hread]
  rfl

theorem loads_cons_iff {buf r pageis : Bytes} {rs : List Bytes} (docId beg : ℤ)
    (offsets : List (ℤ × ℤ × ℤ)) (hbuf : buf.length = bufSize) (hlen : r.length < 2 ^ 31)
    (hmarkers : HasMarkers r) :
    Loads buf (r ++ pageis) ((docId, beg, PageFiles.lenth r) :: offsets) (r :: rs) ↔
      r.length ≤ bufSize ∧ NUL ∈ fill buf r ∧ NUL ∉ r ∧ Loads (fill buf r) pageis offsets rs := by
  unfold Loads
  rw [loadPages_cons docId beg offsets hlen]
  constructor
  · intro h
    obtain ⟨loads, hloads, hall⟩ := h
    obtain ⟨text, htext, hloads⟩ := bind_eq_ok.mp hloads
    obtain ⟨page, -, hloads⟩ := bind_eq_ok.mp hloads
    obtain ⟨pages, hpages, hloads⟩ := bind_eq_ok.mp hloads
    obtain rfl := Except.ok.inj hloads
    obtain ⟨hle, hmem, rfl⟩ := readText_eq_ok_iff.mp htext
    obtain ⟨hstart, hrest⟩ := List.forall₂_cons.mp hall
    exact ⟨hle, hmem, fun hnul => nul_not_mem_cStr _ (hstart.subset hnul), pages, hpages, hrest⟩
  · intro h
    obtain ⟨hle, hmem, hnul, pages, hpages, hrest⟩ := h
    have hstart : r <+: cStr (fill buf r) := by
      rw [fill, cStr_append hnul]
      exact List.prefix_append _ _
    have hmarkers' : HasMarkers (cStr (fill buf r)) :=
      ⟨hmarkers.1.trans hstart.isInfix, hmarkers.2.1.trans hstart.isInfix,
        hmarkers.2.2.trans hstart.isInfix⟩
    have hshort : (cStr (fill buf r)).length ≤ bufSize := by
      have := (List.takeWhile_prefix (p := (· ≠ NUL)) (l := fill buf r)).length_le
      rwa [length_fill (by omega), hbuf] at this
    obtain ⟨page, hpage⟩ := exists_loadPage hmarkers' (hshort.trans_lt (by decide))
    refine ⟨(cStr (fill buf r), page) :: pages, ?_, List.Forall₂.cons hstart hrest⟩
    rw [readText_eq_ok_iff.mpr ⟨hle, hmem, rfl⟩]
    show (loadText (cStr (fill buf r))).bind _ = _
    rw [loadText, hpage]
    show (loadPages (fill buf r) pageis offsets).bind _ = _
    rw [hpages]
    rfl

/-- **The loop.** -/
theorem loads_iff (rs : List Bytes) (i pos : ℕ) {buf : Bytes} (hbuf : buf.length = bufSize)
    (hlen : ∀ r ∈ rs, r.length < 2 ^ 31) (hmarkers : ∀ r ∈ rs, HasMarkers r) :
    Loads buf rs.flatten (offsetsOf i pos rs) rs ↔ RoomBehind buf rs := by
  induction rs generalizing i pos buf with
  | nil => exact ⟨fun _ => ⟨by simp, by simp⟩, fun _ => ⟨[], rfl, List.Forall₂.nil⟩⟩
  | cons r rs ih =>
    have hrest := fun hle : r.length ≤ bufSize => ih (i + 1) (pos + r.length)
      (show (fill buf r).length = bufSize by rw [length_fill (by omega), hbuf])
      (fun s hs => hlen s (List.mem_cons_of_mem _ hs))
      fun s hs => hmarkers s (List.mem_cons_of_mem _ hs)
    rw [List.flatten_cons, offsetsOf, loads_cons_iff _ _ _ hbuf (hlen r List.mem_cons_self)
      (hmarkers r List.mem_cons_self), roomBehind_cons_iff hbuf]
    constructor
    · intro h
      obtain ⟨hle, hmem, hnul, hloads⟩ := h
      exact ⟨hle, hmem, hnul, (hrest hle).mp hloads⟩
    · intro h
      obtain ⟨hle, hmem, hnul, hroom⟩ := h
      exact ⟨hle, hmem, hnul, (hrest hle).mpr hroom⟩

/-! ## The library -/

theorem hasMarkers_getDoct (page : WebPage F) (docId : ℤ) : HasMarkers (page.getDoct docId) := by
  obtain ⟨ru, hru⟩ := page.getDoct_eq_url docId
  obtain ⟨rt, hrt⟩ := page.getDoct_eq_title docId
  refine ⟨?_, ?_, ?_⟩
  · rw [hru]
    exact List.infix_append' _ _ _
  · rw [hrt]
    exact List.infix_append' _ _ _
  · rw [WebPage.getDoct_eq]
    exact List.infix_append' _ _ _

theorem length_getDoct (page : WebPage F) (docId : ℤ) : (page.getDoct docId).length =
    (page.beforeContent docId).length + page.docContent.length + 25 := by
  have hmarker : contentMarker.length = 9 := by decide
  have hend : (lit "\n<doc>\n").length = 7 := by decide
  simp only [WebPage.getDoct_eq, List.length_append, hmarker, hend]
  omega

/-- Every read of `loadLibrary` stays inside the buffer, every string it makes ends inside the
buffer, and each starts with the record of its page. Here `buf` is what the buffer holds before
the loop. -/
def LoadsBounded (files : PageFiles) (pageLib : List (WebPage F)) (buf : Bytes) : Prop :=
  Loads buf files.pages (readOffsets files.offsets.length files.offsets) (records pageLib)

theorem loadsBounded_iff_loads {pageLib : List (WebPage F)} {files : PageFiles}
    (hstore : storePages pageLib = some files) (buf : Bytes) :
    LoadsBounded files pageLib buf ↔
      Loads buf (records pageLib).flatten (offsetsOf 0 0 (records pageLib)) (records pageLib) := by
  obtain ⟨hcount, hpages, hoffsets⟩ := storePages_eq hstore
  have hnum : (records pageLib).length = pageLib.length := by simp [records]
  rw [LoadsBounded, hoffsets, hpages,
    readOffsets_offsetLines _ (by omega) (length_le_offsetLines _ 0 0)]

theorem hasMarkers_records {pageLib : List (WebPage F)} : ∀ r ∈ records pageLib, HasMarkers r := by
  intro r hr
  obtain ⟨page, -, rfl⟩ := List.mem_map.mp hr
  exact hasMarkers_getDoct page.1 page.2

/-- **Reading the page file.** -/
theorem loadsBounded_iff {pageLib : List (WebPage F)} {files : PageFiles}
    (hstore : storePages pageLib = some files) (hlen : ∀ r ∈ records pageLib, r.length < 2 ^ 31)
    {buf : Bytes} (hbuf : buf.length = bufSize) :
    LoadsBounded files pageLib buf ↔ RoomBehind buf (records pageLib) := by
  rw [loadsBounded_iff_loads hstore]
  exact loads_iff _ 0 0 hbuf hlen hasMarkers_records

/-- A shorter page than `markupPage`. -/
def shortPage : WebPage Unit where
  docTitle := lit "cat"
  docUrl := lit "y.org"
  docContent := lit "a cat"

/-- The second record does not cover what the first one left in the buffer, which held zeros. -/
theorem loadsBounded_longThenShort :
    ∃ files, storePages [markupPage, shortPage] = some files ∧
      LoadsBounded files [markupPage, shortPage] (List.replicate bufSize NUL) := by
  refine ⟨_, if_pos (by decide), ?_⟩
  refine (loadsBounded_iff (if_pos (by decide)) (by decide +kernel) (by simp)).mpr
    ⟨by decide +kernel, fun _ => ⟨1000, by decide +kernel, ?_⟩⟩
  rw [List.getElem?_replicate, if_pos (by decide)]

/-- A page with as many bytes as the buffer. -/
def longPage : WebPage Unit where
  docTitle := []
  docUrl := []
  docContent := List.replicate bufSize 97

/-- Its record does not fit, whatever the buffer held before. -/
theorem not_loadsBounded_long :
    ∃ files, storePages [longPage] = some files ∧
      ∀ buf : Bytes, buf.length = bufSize → ¬ LoadsBounded files [longPage] buf := by
  have hstart : (longPage.beforeContent 0).length = 52 := by decide +kernel
  have hcontent : longPage.docContent.length = bufSize := List.length_replicate
  have hlength : (longPage.getDoct 0).length = bufSize + 77 := by
    rw [length_getDoct, hstart, hcontent]
    omega
  have hrecords : records [longPage] = [longPage.getDoct 0] := by simp [records]
  have hstore : storePages [longPage] = some _ := if_pos (by decide)
  refine ⟨_, hstore, fun buf hbuf hloads => ?_⟩
  have hlen : ∀ r ∈ records [longPage], r.length < 2 ^ 31 := by
    rw [hrecords, List.forall_mem_singleton, hlength]
    decide
  rw [loadsBounded_iff_loads hstore, loads_iff _ 0 0 hbuf hlen hasMarkers_records] at hloads
  obtain ⟨k, hk, hnul⟩ := hloads.2 (by simp [hrecords])
  have hfits : k < buf.length := (List.getElem?_eq_some_iff.mp hnul).1
  rw [hrecords, List.forall_mem_singleton, hlength] at hk
  omega

end SearchServer

import SearchServer.Lib.Unique
import SearchServer.Offline.WebPage

/-!
# Removing redundant pages

`PageLibPreprocessor::cutRedundantPages` (`offline/PageLibPreprocessor.cc`) sorts the pages by their
fingerprints and erases what `std::unique` leaves over. Two pages are equal when their fingerprints
differ in at most three bits. This is not transitive, and pages with close fingerprints need not be
neighbours: of the fingerprints 0, 15 and 16 all three stay, and 0 and 16 differ in one bit
(`not_leavesNoEqual`).

**Theorem (`leavesNoEqual_iff`).** No two surviving pages are equal exactly when the sorted list of
fingerprints falls into groups: each fingerprint is close to the first one of its group, and the
first ones differ from each other in more than three bits.

**Theorem (`soundRemoval_of_sortUnique`).** Nothing is lost all the same: of every page that is
removed a page with a fingerprint that is close and not greater survives, and a second removal leaves
the survivors as they are.

**Theorem (`survivors_of_perm`).** The fingerprints that survive do not depend on the order of the
pages, nor on how `std::sort` places pages with the same fingerprint.
-/

namespace SearchServer

variable {F : Type}

namespace WebPage

/-- `buildU64`, with `Simhasher::make` as a parameter. -/
def buildU64 (make : Bytes → UInt64) (page : WebPage F) : WebPage F :=
  { page with u64 := make page.docContent }

end WebPage

namespace PageLibPreprocessor

/-- `sort`, `unique` and `erase`. The order in which `sort` puts pages with the same fingerprint is
not specified. -/
def SortUnique (pages result : List (WebPage F)) : Prop :=
  ∃ sorted : List (WebPage F), sorted.Perm pages ∧ sorted.Pairwise (fun a b => ¬ b.less a) ∧
    result = sorted.destutter fun a b => ¬ a.equal b

def CutRedundantPages (make : Bytes → UInt64) (pages result : List (WebPage F)) : Prop :=
  SortUnique (pages.map (WebPage.buildU64 make)) result

/-- `sort` and `unique` leave no two pages that are equal. -/
def LeavesNoEqual (pages : List (WebPage F)) : Prop :=
  ∀ result, SortUnique pages result → result.Pairwise fun a b => ¬ a.equal b

def sortedFingerprints (pages : List (WebPage F)) : List UInt64 :=
  (pages.map WebPage.u64).insertionSort (· ≤ ·)

abbrev Differs (a b : UInt64) : Prop := ¬ isEqual a b 3

theorem map_u64_of_sorted {pages sorted : List (WebPage F)} (hperm : sorted.Perm pages)
    (hsorted : sorted.Pairwise fun a b => ¬ b.less a) :
    sorted.map WebPage.u64 = sortedFingerprints pages := by
  have hle : (sorted.map WebPage.u64).Pairwise (· ≤ ·) := by
    rw [List.pairwise_map]
    exact hsorted.imp fun {a b} h => by simpa [WebPage.less] using h
  refine List.Perm.eq_of_pairwise (fun a b _ _ hab hba => UInt64.le_antisymm hab hba) hle
    (List.pairwise_insertionSort _ _) ?_
  exact (hperm.map _).trans (List.perm_insertionSort _ _).symm

theorem exists_sorted (pages : List (WebPage F)) :
    ∃ sorted : List (WebPage F), sorted.Perm pages ∧
      sorted.Pairwise fun a b => ¬ b.less a := by
  have : Std.Total fun a b : WebPage F => a.u64 ≤ b.u64 := ⟨fun a b => UInt64.le_total a.u64 b.u64⟩
  have : IsTrans (WebPage F) fun a b => a.u64 ≤ b.u64 := ⟨fun a b c => UInt64.le_trans⟩
  refine ⟨pages.insertionSort fun a b => a.u64 ≤ b.u64, List.perm_insertionSort _ _, ?_⟩
  exact (List.pairwise_insertionSort _ _).imp fun {a b} h => by simpa [WebPage.less] using h

/-- The survivors are pairwise different exactly when their fingerprints are. -/
theorem pairwise_survivors_iff {pages sorted : List (WebPage F)} (hperm : sorted.Perm pages)
    (hsorted : sorted.Pairwise fun a b => ¬ b.less a) :
    (sorted.destutter fun a b => ¬ a.equal b).Pairwise (fun a b => ¬ a.equal b) ↔
      Grouped Differs (sortedFingerprints pages) := by
  rw [← pairwise_destutter_iff, ← map_u64_of_sorted hperm hsorted,
    ← List.map_destutter (R := fun a b : WebPage F => ¬ a.equal b) fun a _ b _ => Iff.rfl,
    List.pairwise_map]
  rfl

/-- **Completeness of the removal.** -/
theorem leavesNoEqual_iff (pages : List (WebPage F)) :
    LeavesNoEqual pages ↔ Grouped Differs (sortedFingerprints pages) := by
  constructor
  · intro h
    obtain ⟨sorted, hperm, hsorted⟩ := exists_sorted pages
    exact (pairwise_survivors_iff hperm hsorted).mp (h _ ⟨sorted, hperm, hsorted, rfl⟩)
  · intro h result hresult
    obtain ⟨sorted, hperm, hsorted, rfl⟩ := hresult
    exact (pairwise_survivors_iff hperm hsorted).mpr h

/-- Three pages with fingerprints 0, 15 and 16. -/
def threePages : List (WebPage Unit) :=
  [0, 15, 16].map fun u64 => { docTitle := [], docUrl := [], docContent := [], u64 := u64 }

/-- All three pages survive, and the first and the last are equal. -/
theorem not_leavesNoEqual :
    SortUnique threePages threePages ∧
      ¬ threePages.Pairwise (fun a b => ¬ a.equal b) := by
  refine ⟨⟨threePages, List.Perm.refl _, ?_, rfl⟩, ?_⟩ <;> decide

/-! ## What survives -/

/-- What a removal of redundant pages guarantees. -/
structure SoundRemoval (pages result : List (WebPage F)) : Prop where
  /-- The survivors are pages of the library. -/
  subperm : result.Subperm pages
  increasing : result.Pairwise fun a b => a.u64 < b.u64
  /-- Consecutive survivors differ in more than three bits. -/
  neighbours : result.IsChain fun a b => ¬ isEqual a.u64 b.u64 3
  /-- Every page is close to a survivor whose fingerprint is not greater. -/
  represented : ∀ page ∈ pages, ∃ kept ∈ result, isEqual kept.u64 page.u64 3 ∧ kept.u64 ≤ page.u64
  /-- A second removal changes nothing. -/
  again : ∀ result', SortUnique result result' ↔ result' = result

theorem isEqual_self (a : UInt64) (n : ℕ) : isEqual a a n := by
  simp [isEqual]

/-- Sorted neighbours that differ have increasing fingerprints. -/
theorem increasing_of_isChain {result : List (WebPage F)}
    (hchain : result.IsChain fun a b => ¬ a.equal b)
    (hsorted : result.Pairwise fun a b => a.u64 ≤ b.u64) :
    result.Pairwise fun a b => a.u64 < b.u64 := by
  have : IsTrans (WebPage F) fun a b => a.u64 < b.u64 := ⟨fun a b c => UInt64.lt_trans⟩
  rw [← List.isChain_iff_pairwise]
  refine List.isChain_iff_getElem.mpr fun i hi => ?_
  have hne := List.isChain_iff_getElem.mp hchain i hi
  have hle := List.pairwise_iff_getElem.mp hsorted i (i + 1) (by omega) hi (by omega)
  refine UInt64.lt_of_le_of_ne hle fun heq => hne ?_
  rw [WebPage.equal, heq]
  exact isEqual_self _ 3

/-- There is only one way to sort pages whose fingerprints increase. -/
theorem eq_of_increasing {sorted result : List (WebPage F)} (hperm : sorted.Perm result)
    (hsorted : sorted.Pairwise fun a b => ¬ b.less a)
    (hincr : result.Pairwise fun a b => a.u64 < b.u64) : sorted = result := by
  have hnodup : (result.map WebPage.u64).Nodup :=
    List.pairwise_map.mpr (hincr.imp fun {a b} hlt => UInt64.ne_of_lt hlt)
  refine hperm.eq_of_pairwise (fun a b ha hb hab hba => ?_)
    (hsorted.imp fun {a b} h => show a.u64 ≤ b.u64 by simpa [WebPage.less] using h)
    (hincr.imp fun {a b} h => UInt64.le_of_lt h)
  exact List.inj_on_of_nodup_map hnodup (hperm.mem_iff.mp ha) hb (UInt64.le_antisymm hab hba)

/-- **The removal is sound.** -/
theorem soundRemoval_of_sortUnique {pages result : List (WebPage F)}
    (h : SortUnique pages result) : SoundRemoval pages result := by
  obtain ⟨sorted, hperm, hsorted, rfl⟩ := h
  have hsub : (sorted.destutter fun a b => ¬ a.equal b).Sublist sorted := List.destutter_sublist _ _
  have hchain := List.isChain_destutter (fun a b : WebPage F => ¬ a.equal b) sorted
  have hle : sorted.Pairwise fun a b => a.u64 ≤ b.u64 :=
    hsorted.imp fun {a b} hab => by simpa [WebPage.less] using hab
  have hincr := increasing_of_isChain hchain (hle.sublist hsub)
  refine ⟨hsub.subperm.trans hperm.subperm, hincr, hchain, fun page hpage => ?_, fun result' => ?_⟩
  · rcases exists_kept (R := fun a b : WebPage F => ¬ a.equal b) hle page (hperm.mem_iff.mpr hpage)
      with hkept | ⟨kept, hkept, hequal, hge⟩
    · exact ⟨page, hkept, isEqual_self _ 3, UInt64.le_refl _⟩
    · exact ⟨kept, hkept, not_not.mp hequal, hge⟩
  · constructor
    · rintro ⟨sorted', hperm', hsorted', rfl⟩
      rw [eq_of_increasing hperm' hsorted' hincr, List.destutter_idem]
    · rintro rfl
      refine ⟨_, List.Perm.refl _, hincr.imp fun {a b} hlt => ?_, (List.destutter_idem _ _).symm⟩
      simpa [WebPage.less] using UInt64.le_of_lt hlt

/-- A page with fingerprint 1 before the three pages is removed: 0 stays for it. -/
theorem soundRemoval_threePages :
    let page : WebPage Unit := { docTitle := [], docUrl := [], docContent := [], u64 := 1 }
    SoundRemoval (page :: threePages) threePages :=
  soundRemoval_of_sortUnique ⟨_, List.Perm.swap _ _ _, by decide, rfl⟩

/-! ## The order of the pages -/

/-- Which fingerprints survive depends on the sorted fingerprints only. -/
theorem map_u64_of_sortUnique {pages result : List (WebPage F)} (h : SortUnique pages result) :
    result.map WebPage.u64 = (sortedFingerprints pages).destutter Differs := by
  obtain ⟨sorted, hperm, hsorted, rfl⟩ := h
  rw [← map_u64_of_sorted hperm hsorted]
  exact List.map_destutter fun a _ b _ => Iff.rfl

theorem sortedFingerprints_of_perm {pages pages' : List (WebPage F)} (hperm : pages.Perm pages') :
    sortedFingerprints pages = sortedFingerprints pages' := by
  have hle := List.pairwise_insertionSort (· ≤ · : UInt64 → UInt64 → Prop)
  refine List.Perm.eq_of_pairwise (fun a b _ _ hab hba => UInt64.le_antisymm hab hba) (hle _) (hle _)
    ?_
  have hfps : (pages.map WebPage.u64).Perm (pages'.map WebPage.u64) := hperm.map _
  exact (List.perm_insertionSort _ _).trans (hfps.trans (List.perm_insertionSort _ _).symm)

/-- **The order of the pages does not matter** for the fingerprints that survive. -/
theorem survivors_of_perm {make : Bytes → UInt64} {pages pages' result result' : List (WebPage F)}
    (hperm : pages.Perm pages') (h : CutRedundantPages make pages result)
    (h' : CutRedundantPages make pages' result') :
    result.map WebPage.u64 = result'.map WebPage.u64 := by
  have hbuilt : (pages.map (WebPage.buildU64 make)).Perm (pages'.map (WebPage.buildU64 make)) :=
    hperm.map _
  calc result.map WebPage.u64
      = (sortedFingerprints (pages.map (WebPage.buildU64 make))).destutter Differs :=
        map_u64_of_sortUnique h
    _ = (sortedFingerprints (pages'.map (WebPage.buildU64 make))).destutter Differs := by
        rw [sortedFingerprints_of_perm hbuilt]
    _ = result'.map WebPage.u64 := (map_u64_of_sortUnique h').symm

/-- Two pages with the same fingerprint, in both orders: one page survives, and which one it is
depends on the order. -/
theorem survivors_of_twoPages :
    let make : Bytes → UInt64 := fun _ => 7
    let page : Bytes → WebPage Unit := fun text =>
      { docTitle := [], docUrl := [], docContent := text, u64 := 0 }
    let pages := [page (lit "cat"), page (lit "dog")]
    ([page (lit "cat")].map (WebPage.buildU64 make)).map WebPage.u64 =
      ([page (lit "dog")].map (WebPage.buildU64 make)).map WebPage.u64 ∧
        CutRedundantPages make pages ([page (lit "cat")].map (WebPage.buildU64 make)) := by
  intro make page pages
  have hkept (a b : Bytes) : CutRedundantPages make [page a, page b]
      ([page a].map (WebPage.buildU64 make)) := by
    refine ⟨_, List.Perm.refl _, ?_, ?_⟩
    · simp [WebPage.buildU64, WebPage.less, make]
    · simp [WebPage.buildU64, WebPage.equal, make, isEqual_self, List.destutter]
  exact ⟨survivors_of_perm (List.Perm.swap _ _ _) (hkept _ _) (hkept _ _), hkept _ _⟩

end PageLibPreprocessor

end SearchServer

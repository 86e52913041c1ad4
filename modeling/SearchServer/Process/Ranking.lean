import SearchServer.Lib.StableSort
import SearchServer.Process.WordQuery

/-!
# Ranking

`WordQuery::doQuery` sorts the documents found with `stable_sort` and `SimilarityCompare`. In exact
arithmetic the comparison holds of two documents when the first one is at least as similar to the
query as the second one (`similarityCompare_eq`). So it holds of every document and itself, and the
precondition of `stable_sort` is not met. A merge sort with this comparison moves a document before
every earlier one that is equally similar.

**Theorem (`ranking_iff`).** The comparison is a strict weak ordering only of no documents, and the
documents come out in the order of their similarity, equally similar ones in ascending order, exactly
when no two documents are equally similar.
-/

namespace SearchServer

namespace WordQuery

noncomputable section

open DoubleOps

def dot (v base : List ℝ) : ℝ := ((v.zip base).map fun p => p.1 * p.2).sum

/-- The cosine of the angle between a document and the query. -/
def cosine (base v : List ℝ) : ℝ := dot v base / (Dbl.norm v * Dbl.norm base)

/-- A document with its weights, as the code holds it. -/
def asRow (row : ℤ × List ℝ) : ℤ × List Dbl := (row.1, row.2.map .fin)

/-! ## The comparison -/

theorem foldl_dot (v base : List ℝ) (a : ℝ) :
    ((v.map Dbl.fin).zip (base.map Dbl.fin)).foldl (fun s p => add s (mul p.1 p.2)) (Dbl.fin a) =
      .fin (a + dot v base) := by
  induction v generalizing base a with
  | nil => simp [dot]
  | cons x v ih =>
    cases base with
    | nil => simp [dot]
    | cons y base =>
      have hstep : add (Dbl.fin a) (mul (.fin x) (.fin y)) = Dbl.fin (a + x * y) := rfl
      rw [List.map_cons, List.map_cons, List.zip_cons_cons, List.foldl_cons, hstep, ih, dot, dot,
        List.zip_cons_cons, List.map_cons, List.sum_cons, add_assoc]

/-- The loop that adds up the squares stops at the length of the query vector. -/
theorem foldl_zip_squares {v base : List ℝ} (hlen : v.length = base.length) :
    ((v.map Dbl.fin).zip (base.map Dbl.fin)).foldl (fun s p => add s (mul p.1 p.1)) (Dbl.fin 0) =
      .fin (v.map (· ^ 2)).sum := by
  have hzip : ((v.map Dbl.fin).zip (base.map Dbl.fin)).map Prod.fst = v.map Dbl.fin :=
    List.map_fst_zip (by simp [hlen])
  have hfold := Dbl.foldl_squares v 0
  rw [← hzip, List.foldl_map, zero_add] at hfold
  exact hfold

/-- What the code compares: the dot product divided by the norm of the document. -/
theorem score_eq {v base : List ℝ} (hlen : v.length = base.length) (hnorm : Dbl.norm v ≠ 0) :
    (div (((v.map Dbl.fin).zip (base.map Dbl.fin)).foldl (fun s p => add s (mul p.1 p.2)) (ofInt 0))
      (sqrt (((v.map Dbl.fin).zip (base.map Dbl.fin)).foldl (fun s p => add s (mul p.1 p.1))
        (ofInt 0))) : Dbl) = .fin (dot v base / Dbl.norm v) := by
  have hzero : (ofInt 0 : Dbl) = .fin 0 := congrArg Dbl.fin Int.cast_zero
  have hsqrt : (sqrt (Dbl.fin (v.map (· ^ 2)).sum) : Dbl) = .fin (Dbl.norm v) :=
    Dbl.sqrt_of_nonneg (Dbl.sum_squares_nonneg v)
  rw [hzero, foldl_dot, foldl_zip_squares hlen, hsqrt, zero_add]
  exact (Dbl.div_fin _ _).trans (if_neg hnorm)

/-- Against a query without weight all documents have cosine 0. -/
theorem dot_eq_zero {v base : List ℝ} (h : Dbl.norm base = 0) : dot v base = 0 := by
  refine List.sum_eq_zero fun z hz => ?_
  obtain ⟨p, hp, rfl⟩ := List.mem_map.mp hz
  rw [Dbl.norm_eq_zero_iff.mp h p.2 (List.of_mem_zip hp).2, mul_zero]

theorem score_lt_iff {base u v : List ℝ} :
    dot u base / Dbl.norm u < dot v base / Dbl.norm v ↔ cosine base u < cosine base v := by
  unfold cosine
  rw [← div_div, ← div_div]
  by_cases hbase : Dbl.norm base = 0
  · simp [dot_eq_zero hbase]
  · have hpos : 0 < Dbl.norm base := lt_of_le_of_ne (Real.sqrt_nonneg _) (Ne.symm hbase)
    exact (div_lt_div_iff_of_pos_right hpos).symm

/-- **The comparison**: the first document is at least as similar to the query. -/
theorem similarityCompare_eq {base u v : List ℝ} (hu : u.length = base.length)
    (hv : v.length = base.length) (hu0 : Dbl.norm u ≠ 0) (hv0 : Dbl.norm v ≠ 0) :
    similarityCompare (base.map Dbl.fin) (u.map Dbl.fin) (v.map Dbl.fin) =
      !decide (cosine base u < cosine base v) := by
  unfold similarityCompare
  simp only [score_eq hu hu0, score_eq hv hv0]
  have hlt : dot u base / Dbl.norm u < dot v base / Dbl.norm v ↔ cosine base u < cosine base v :=
    score_lt_iff
  rw [← decide_eq_decide.mpr hlt]
  rfl

/-! ## The result list -/

/-- The documents are in the order of their similarity, and equally similar ones in ascending
order. -/
def Ranked (base : List ℝ) (rows : List (ℤ × List ℝ)) (docs : List ℤ) : Prop :=
  ∃ sorted : List (ℤ × List ℝ), docs = sorted.map Prod.fst ∧ sorted.Perm rows ∧
    sorted.Pairwise fun a b => cosine base b.2 < cosine base a.2 ∨
      cosine base b.2 = cosine base a.2 ∧ a.1 < b.1

/-- What the code does with documents in ascending order: equally similar ones come out in
descending order. -/
theorem rank_eq {base : List ℝ} {rows : List (ℤ × List ℝ)}
    (hlen : ∀ row ∈ rows, row.2.length = base.length)
    (hnorm : ∀ row ∈ rows, Dbl.norm row.2 ≠ 0) (hasc : rows.Pairwise fun a b => a.1 < b.1) :
    ∃ sorted : List (ℤ × List ℝ),
      rank (base.map Dbl.fin) (rows.map asRow) = sorted.map Prod.fst ∧ sorted.Perm rows ∧
        sorted.Pairwise fun a b => cosine base b.2 < cosine base a.2 ∨
          cosine base b.2 = cosine base a.2 ∧ b.1 ≤ a.1 := by
  refine ⟨rows.mergeSort fun a b => decide (cosine base b.2 < cosine base a.2), ?_,
    List.mergeSort_perm _ _, pairwise_mergeSort_lt (fun row => cosine base row.2) Prod.fst hasc⟩
  have hle : ∀ a ∈ rows, ∀ b ∈ rows, decide (cosine base b.2 < cosine base a.2) =
      !similarityCompare (base.map Dbl.fin) (asRow b).2 (asRow a).2 := by
    intro a ha b hb
    rw [asRow, asRow, similarityCompare_eq (hlen b hb) (hlen a ha) (hnorm b hb) (hnorm a ha),
      Bool.not_not]
  rw [rank, ← List.map_mergeSort hle, List.map_map]
  rfl

theorem ranked_rank_iff {base : List ℝ} {rows : List (ℤ × List ℝ)}
    (hlen : ∀ row ∈ rows, row.2.length = base.length)
    (hnorm : ∀ row ∈ rows, Dbl.norm row.2 ≠ 0) (hasc : rows.Pairwise fun a b => a.1 < b.1) :
    Ranked base rows (rank (base.map Dbl.fin) (rows.map asRow)) ↔
      (rows.map fun row => cosine base row.2).Nodup := by
  obtain ⟨sorted, heq, hperm, hpair⟩ := rank_eq hlen hnorm hasc
  have hdistinct : (sorted.map Prod.fst).Nodup := by
    refine ((hperm.map Prod.fst).nodup_iff).mpr (List.pairwise_map.mpr ?_)
    exact hasc.imp fun {a b} hab => hab.ne
  have hnodup : (rows.map fun row => cosine base row.2).Nodup ↔
      sorted.Pairwise fun a b => cosine base a.2 ≠ cosine base b.2 := by
    rw [← (hperm.map fun row => cosine base row.2).nodup_iff, List.Nodup, List.pairwise_map]
  rw [hnodup]
  constructor
  · rintro ⟨sorted', heq', hperm', hpair'⟩
    -- The two lists have the same documents in the same order, and so the same rows.
    have hsame : sorted' = sorted := by
      refine eq_of_map_eq (f := Prod.fst) (fun a ha b hb hab => ?_) (heq'.symm.trans heq)
      exact List.inj_on_of_nodup_map hdistinct ((hperm'.trans hperm.symm).mem_iff.mp ha) hb hab
    rw [hsame] at hpair'
    refine (hpair.and hpair').imp fun {a b} h heq => ?_
    rcases h.1 with hlt | ⟨-, hge⟩
    · exact hlt.ne heq.symm
    · rcases h.2 with hlt | ⟨-, hlt⟩
      · exact hlt.ne heq.symm
      · exact absurd hlt (not_lt.mpr hge)
  · intro hne
    refine ⟨sorted, heq, hperm, (hpair.and hne).imp fun {a b} h => ?_⟩
    exact .inl (h.1.resolve_right fun htie => h.2 htie.1.symm)

/-- **Ranking.** -/
theorem ranking_iff {base : List ℝ} {rows : List (ℤ × List ℝ)}
    (hlen : ∀ row ∈ rows, row.2.length = base.length)
    (hnorm : ∀ row ∈ rows, Dbl.norm row.2 ≠ 0) (hasc : rows.Pairwise fun a b => a.1 < b.1) :
    (StrictWeakOn rows (fun a b =>
        similarityCompare (base.map Dbl.fin) (asRow a).2 (asRow b).2 = true) ↔ rows = []) ∧
      (Ranked base rows (rank (base.map Dbl.fin) (rows.map asRow)) ↔
        (rows.map fun row => cosine base row.2).Nodup) := by
  refine ⟨strictWeakOn_iff_nil fun row hrow => ?_, ranked_rank_iff hlen hnorm hasc⟩
  rw [asRow, similarityCompare_eq (hlen row hrow) (hlen row hrow) (hnorm row hrow) (hnorm row hrow)]
  simp

def oneWordRows : List (ℤ × List ℝ) := [(0, [1]), (1, [1])]

theorem oneWordRows_spec : (∀ row ∈ oneWordRows, row.2.length = ([1] : List ℝ).length) ∧
    (∀ row ∈ oneWordRows, Dbl.norm row.2 ≠ 0) ∧ oneWordRows.Pairwise fun a b => a.1 < b.1 := by
  have hnorm : Dbl.norm [1] ≠ 0 := by simp [Dbl.norm_eq_zero_iff]
  refine ⟨by simp [oneWordRows], by simpa [oneWordRows] using hnorm, by simp [oneWordRows]⟩

theorem ranking_oneWord :
    (StrictWeakOn oneWordRows (fun a b =>
        similarityCompare ([1].map Dbl.fin) (asRow a).2 (asRow b).2 = true) ↔ oneWordRows = []) ∧
      (Ranked [1] oneWordRows (rank ([1].map Dbl.fin) (oneWordRows.map asRow)) ↔
        (oneWordRows.map fun row => cosine [1] row.2).Nodup) :=
  ranking_iff oneWordRows_spec.1 oneWordRows_spec.2.1 oneWordRows_spec.2.2

/-- The comparison is no strict weak ordering of them, and they do not come out in ascending
order. -/
theorem not_ranking_oneWord :
    ¬ StrictWeakOn oneWordRows (fun a b =>
        similarityCompare ([1].map Dbl.fin) (asRow a).2 (asRow b).2 = true) ∧
      ¬ Ranked [1] oneWordRows (rank ([1].map Dbl.fin) (oneWordRows.map asRow)) := by
  obtain ⟨hlen, hnorm, hasc⟩ := oneWordRows_spec
  constructor
  · rw [strictWeakOn_iff_nil fun row hrow => ?_]
    · exact List.cons_ne_nil _ _
    · rw [asRow, similarityCompare_eq (hlen row hrow) (hlen row hrow) (hnorm row hrow)
        (hnorm row hrow)]
      simp
  · rw [ranked_rank_iff hlen hnorm hasc]
    simp [oneWordRows]

end

end WordQuery

end SearchServer

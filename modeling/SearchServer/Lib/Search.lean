import Mathlib

/-!
# Substring search

The first occurrence of a pattern in a list, as `std::string::find` computes it.

A *marker* is a pattern whose first letter does not come back later in it, such as `<url>`. Two
occurrences of a marker never overlap.

* `findSub_append`: a marker that does not occur in a text is found behind it.
* `IsMarker.infix_append_iff`, `MarkersApart.infix_append_iff`: an occurrence of a marker does not
  span two texts when its first letter or another marker stands between them.
-/

namespace SearchServer

variable {α : Type*} [DecidableEq α]

/-- The position of the first occurrence of `m` in `s`. -/
def findSub (m s : List α) : Option ℕ := s.tails.findIdx? fun t => m.isPrefixOf t

theorem findSub_nil (m : List α) : findSub m [] = if m = [] then some 0 else none := by
  cases m <;> simp [findSub]

theorem findSub_cons (m : List α) (c : α) (s : List α) :
    findSub m (c :: s) = if m <+: c :: s then some 0 else (findSub m s).map (· + 1) := by
  simp only [findSub, List.tails_cons, List.findIdx?_cons, List.isPrefixOf_iff_prefix]

theorem findSub_eq_none_iff {m s : List α} : findSub m s = none ↔ ¬ m <:+: s := by
  induction s with
  | nil => rw [findSub_nil]; simp
  | cons c s ih =>
    rw [findSub_cons, List.infix_cons_iff]
    split_ifs with h
    · simp [h]
    · simp [h, ih]

theorem findSub_le {m s : List α} {i : ℕ} (h : findSub m s = some i) : i + m.length ≤ s.length := by
  induction s generalizing i with
  | nil =>
    rw [findSub_nil] at h
    obtain ⟨rfl, hi⟩ := Option.ite_none_right_eq_some.mp h
    cases hi
    simp
  | cons c s ih =>
    rw [findSub_cons] at h
    by_cases hpre : m <+: c :: s
    · rw [if_pos hpre] at h
      cases h
      simpa using hpre.length_le
    · rw [if_neg hpre] at h
      obtain ⟨j, hj, rfl⟩ := Option.map_eq_some_iff.mp h
      have := ih hj
      rw [List.length_cons]
      omega

/-- A pattern whose first letter does not occur again in it. -/
def IsMarker : List α → Prop
  | [] => False
  | c :: l => c ∉ l

instance : DecidablePred (IsMarker (α := α))
  | [] => inferInstanceAs (Decidable False)
  | c :: l => inferInstanceAs (Decidable (c ∉ l))

omit [DecidableEq α] in
/-- Occurrences of a marker do not overlap. -/
theorem IsMarker.prefix_of_prefix_append {m p t : List α} (hm : IsMarker m) (hp : p ≠ [])
    (h : m <+: p ++ (m ++ t)) : m <+: p := by
  rcases List.prefix_or_prefix_of_prefix h (List.prefix_append p (m ++ t)) with h' | ⟨w, hw⟩
  · exact h'
  cases w with
  | nil => exact ⟨[], by simpa using hw.symm⟩
  | cons d w =>
    -- The second occurrence starts inside the first one, with the marker's first letter.
    exfalso
    obtain ⟨x, p, rfl⟩ := List.exists_cons_of_ne_nil hp
    cases m with
    | nil => exact hm
    | cons c l =>
      rw [← hw, List.prefix_append_right_inj] at h
      obtain ⟨r, hr⟩ := h
      simp only [List.cons_append, List.cons.injEq] at hw hr
      apply hm
      rw [← hw.2, hr.1, hw.1]
      simp

omit [DecidableEq α] in
/-- An occurrence of a marker does not span a place where its first letter stands. -/
theorem IsMarker.infix_append_iff {m a b : List α} (hm : IsMarker m)
    (hb : b.head? = m.head? ∨ b = []) : m <:+: a ++ b ↔ m <:+: a ∨ m <:+: b := by
  rw [List.infix_append_iff_ne_nil]
  constructor
  · rintro (h | h | ⟨l₁, l₂, hl₁, hl₂, rfl, -, hpre⟩)
    · exact Or.inl h
    · exact Or.inr h
    · exfalso
      obtain ⟨c, l₁, rfl⟩ := List.exists_cons_of_ne_nil hl₁
      obtain ⟨d, l₂, rfl⟩ := List.exists_cons_of_ne_nil hl₂
      obtain ⟨t, rfl⟩ := hpre
      rcases hb with hb | hb
      · obtain rfl : d = c := by simpa using hb
        exact hm (by simp)
      · simp at hb
  · rintro (h | h)
    · exact Or.inl h
    · exact Or.inr (Or.inl h)

omit [DecidableEq α] in
/-- A text without the first letter of a marker has no part of an occurrence in front. -/
theorem infix_append_of_not_mem {c : α} {l a b : List α} (ha : c ∉ a) :
    (c :: l) <:+: a ++ b ↔ (c :: l) <:+: b := by
  rw [List.infix_append_iff_ne_nil]
  constructor
  · rintro (h | h | ⟨l₁, l₂, hl₁, -, heq, hsuf, -⟩)
    · exact absurd (h.subset List.mem_cons_self) ha
    · exact h
    · obtain ⟨d, l₁, rfl⟩ := List.exists_cons_of_ne_nil hl₁
      obtain ⟨rfl, -⟩ := List.cons.inj heq
      exact absurd (hsuf.subset List.mem_cons_self) ha
  · exact fun h => Or.inr (Or.inl h)

/-- Two markers with the same first letter and different second letters. -/
def MarkersApart (m k : List α) : Prop :=
  IsMarker m ∧ IsMarker k ∧ m.head? = k.head? ∧ 2 ≤ m.length ∧ 2 ≤ k.length ∧
    m.take 2 ≠ k.take 2

instance (m k : List α) : Decidable (MarkersApart m k) :=
  inferInstanceAs (Decidable (_ ∧ _ ∧ _ ∧ _ ∧ _ ∧ _))

omit [DecidableEq α] in
/-- Another marker separates the texts in which a marker can occur. -/
theorem MarkersApart.infix_append_iff {m k a b : List α} (h : MarkersApart m k) :
    m <:+: a ++ (k ++ b) ↔ m <:+: a ∨ m <:+: b := by
  obtain ⟨hm, hk, hhead, hmlen, hklen, htake⟩ := h
  cases k with
  | nil => exact hk.elim
  | cons c k =>
    have hhead' : (c :: (k ++ b)).head? = m.head? := hhead.symm
    rw [List.cons_append, hm.infix_append_iff (Or.inl hhead'), List.infix_cons_iff]
    refine or_congr_right ?_
    cases m with
    | nil => exact hm.elim
    | cons d m =>
      obtain rfl : d = c := by simpa using hhead
      rw [infix_append_of_not_mem hk, or_iff_right]
      intro h
      obtain ⟨t, ht⟩ := h
      apply htake
      have htake' := congrArg (List.take 2) ht
      rwa [List.take_append_of_le_length hmlen, ← List.cons_append,
        List.take_append_of_le_length hklen] at htake'

theorem findSub_append {m p : List α} (hm : IsMarker m) (hp : ¬ m <:+: p) (t : List α) :
    findSub m (p ++ (m ++ t)) = some p.length := by
  induction p with
  | nil =>
    cases h : m ++ t with
    | nil =>
      have : m = [] := (List.append_eq_nil_iff.mp h).1
      subst this
      exact hm.elim
    | cons c s => rw [List.nil_append, findSub_cons, if_pos (h ▸ List.prefix_append m t)]; rfl
  | cons x p ih =>
    have hx : ¬ m <+: x :: (p ++ (m ++ t)) := fun h =>
      hp (hm.prefix_of_prefix_append (List.cons_ne_nil x p) h).isInfix
    rw [List.cons_append, findSub_cons, if_neg hx, ih fun h => hp (List.infix_cons h)]
    simp

theorem exists_first_of_infix {m s : List α} (h : m <:+: s) :
    ∃ p t, s = p ++ (m ++ t) ∧ (m = [] ∨ ¬ m <:+: p) := by
  induction s with
  | nil => exact ⟨[], [], by simpa using h, Or.inl (List.infix_nil.mp h)⟩
  | cons c s ih =>
    by_cases hpre : m <+: c :: s
    · obtain ⟨t, ht⟩ := hpre
      refine ⟨[], t, ht.symm, ?_⟩
      rw [List.infix_nil]
      exact Classical.em _
    · rcases List.infix_cons_iff.mp h with h | h
      · exact absurd h hpre
      obtain ⟨p, t, rfl, hp⟩ := ih h
      refine ⟨c :: p, t, rfl, hp.imp_right fun hp hc => ?_⟩
      rcases List.infix_cons_iff.mp hc with hc | hc
      · exact hpre (hc.trans (by simp))
      · exact hp hc

end SearchServer

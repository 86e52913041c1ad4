import Mathlib

/-!
# Removing neighbours that are equal

`std::unique` keeps the first element and then each element that differs from the one kept last;
this is `List.destutter` for the relation "differs". When that relation is not transitive the
elements kept need not all differ from each other.

A list falls into *groups* when it is cut into runs of consecutive elements, each of which is not
related to the first one of its run, and the first ones are related to each other (`Grouped`).

**Theorem (`pairwise_destutter_iff`).** The elements kept are pairwise related exactly when the list
falls into groups. They are then the first ones of the groups.

**Theorem (`exists_kept`).** Of every element that is not kept an earlier one is kept to which it is
not related, whether or not the relation is transitive.
-/

namespace SearchServer

variable {α : Type*}

/-- The list of the groups, each given by its first element and the others. -/
def ungroup (groups : List (α × List α)) : List α := groups.flatMap fun g => g.1 :: g.2

/-- The list is cut into groups whose first elements are pairwise related; no other element of a
group is related to the first one. -/
def Grouped (R : α → α → Prop) (l : List α) : Prop :=
  ∃ groups : List (α × List α), l = ungroup groups ∧ (∀ g ∈ groups, ∀ b ∈ g.2, ¬ R g.1 b) ∧
    (groups.map Prod.fst).Pairwise R

variable {R : α → α → Prop} [DecidableRel R]

/-- The loop of `destutter` skips the others of a group. -/
theorem destutter'_group {a : α} {others : List α} (h : ∀ b ∈ others, ¬ R a b) (l : List α) :
    (others ++ l).destutter' R a = l.destutter' R a := by
  induction others with
  | nil => rfl
  | cons b others ih =>
    rw [List.cons_append, List.destutter'_cons_neg _ (h b List.mem_cons_self)]
    exact ih fun c hc => h c (List.mem_cons_of_mem _ hc)

/-- When neighbouring first elements are related, `destutter` keeps the first elements. -/
theorem destutter'_ungroup {groups : List (α × List α)} {a : α} {others : List α}
    (hothers : ∀ b ∈ others, ¬ R a b) (h : ∀ g ∈ groups, ∀ b ∈ g.2, ¬ R g.1 b)
    (hchain : (a :: groups.map Prod.fst).IsChain R) :
    (others ++ ungroup groups).destutter' R a = a :: groups.map Prod.fst := by
  rw [destutter'_group hothers]
  induction groups generalizing a others with
  | nil => rfl
  | cons g groups ih =>
    obtain ⟨hag, hrest⟩ := List.isChain_cons_cons.mp hchain
    have hg : ∀ b ∈ g.2, ¬ R g.1 b := h g List.mem_cons_self
    have htail := ih hg (fun g' hg' => h g' (List.mem_cons_of_mem _ hg')) hrest
    show (g.1 :: g.2 ++ ungroup groups).destutter' R a = _
    rw [List.cons_append, List.destutter'_cons_pos _ hag, destutter'_group hg, htail]
    rfl

theorem exists_groups (a : α) (l : List α) :
    ∃ (others : List α) (groups : List (α × List α)), l = others ++ ungroup groups ∧
      (∀ b ∈ others, ¬ R a b) ∧ (∀ g ∈ groups, ∀ b ∈ g.2, ¬ R g.1 b) ∧
      l.destutter' R a = a :: groups.map Prod.fst := by
  induction l generalizing a with
  | nil => exact ⟨[], [], rfl, by simp, by simp, rfl⟩
  | cons b l ih =>
    by_cases hab : R a b
    · -- `b` is kept: it starts a new group.
      obtain ⟨others, groups, hl, hothers, hgroups, hkept⟩ := ih b
      refine ⟨[], (b, others) :: groups, ?_, by simp, ?_, ?_⟩
      · rw [hl]
        rfl
      · exact List.forall_mem_cons.mpr ⟨hothers, hgroups⟩
      · rw [List.destutter'_cons_pos l hab, hkept]
        rfl
    · obtain ⟨others, groups, hl, hothers, hgroups, hkept⟩ := ih a
      refine ⟨b :: others, groups, ?_, ?_, hgroups, ?_⟩
      · rw [hl]
        rfl
      · exact List.forall_mem_cons.mpr ⟨hab, hothers⟩
      · rw [List.destutter'_cons_neg l hab, hkept]

/-- Of every element of an ordered list, itself or an element that comes earlier in the order and
that it is not related to is kept. The loop compares it with the element kept last. -/
theorem exists_kept' {S : α → α → Prop} {a : α} {l : List α} (hord : (a :: l).Pairwise S) :
    ∀ x ∈ l, x ∈ l.destutter' R a ∨ ∃ y ∈ l.destutter' R a, ¬ R y x ∧ S y x := by
  induction l generalizing a with
  | nil => simp
  | cons b l ih =>
    obtain ⟨ha, hbl⟩ := List.pairwise_cons.mp hord
    have hal : (a :: l).Pairwise S :=
      List.pairwise_cons.mpr ⟨fun x hx => ha x (List.mem_cons_of_mem _ hx), hbl.of_cons⟩
    intro x hx
    by_cases hab : R a b
    · rw [List.destutter'_cons_pos l hab]
      rcases List.mem_cons.mp hx with rfl | hx
      · exact .inl (List.mem_cons_of_mem _ (List.mem_destutter' l R x))
      · rcases ih hbl x hx with hkept | ⟨y, hy, hyx⟩
        · exact .inl (List.mem_cons_of_mem _ hkept)
        · exact .inr ⟨y, List.mem_cons_of_mem _ hy, hyx⟩
    · rw [List.destutter'_cons_neg l hab]
      rcases List.mem_cons.mp hx with rfl | hx
      · exact .inr ⟨a, List.mem_destutter' l R a, hab, ha x List.mem_cons_self⟩
      · exact ih hal x hx

/-- **Nothing is removed without an element that stays for it.** -/
theorem exists_kept {S : α → α → Prop} {l : List α} (hord : l.Pairwise S) :
    ∀ x ∈ l, x ∈ l.destutter R ∨ ∃ y ∈ l.destutter R, ¬ R y x ∧ S y x := by
  cases l with
  | nil => simp
  | cons a l =>
    intro x hx
    rw [List.destutter_cons']
    rcases List.mem_cons.mp hx with rfl | hx
    · exact .inl (List.mem_destutter' l R x)
    · exact exists_kept' hord x hx

/-- **When `std::unique` leaves no two close elements.** -/
theorem pairwise_destutter_iff (l : List α) : (l.destutter R).Pairwise R ↔ Grouped R l := by
  constructor
  · intro hpair
    cases l with
    | nil => exact ⟨[], rfl, by simp, List.Pairwise.nil⟩
    | cons a l =>
      obtain ⟨others, groups, hl, hothers, hgroups, hkept⟩ := exists_groups (R := R) a l
      rw [List.destutter_cons', hkept] at hpair
      refine ⟨(a, others) :: groups, ?_, List.forall_mem_cons.mpr ⟨hothers, hgroups⟩, hpair⟩
      rw [hl]
      rfl
  · intro h
    obtain ⟨groups, rfl, hgroups, hpair⟩ := h
    cases groups with
    | nil => exact List.Pairwise.nil
    | cons g groups =>
      obtain ⟨hg, hgroups⟩ := List.forall_mem_cons.mp hgroups
      have hkept := destutter'_ungroup hg hgroups hpair.isChain
      have hcons : ungroup (g :: groups) = g.1 :: (g.2 ++ ungroup groups) := rfl
      rw [hcons, List.destutter_cons', hkept]
      exact hpair

end SearchServer

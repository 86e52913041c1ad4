import Mathlib

/-!
# Recency lists

The reference model of a cache with least-recently-used replacement: a list of keys and values,
most recently used first. A key that is present moves to the front and keeps its value; a new key
is put at the front and, when the list is full, the last entry is dropped. The keys after an addition
depend only on the keys before (`map_fst_add`), and they are in the order of their last additions
(`pairwise_age`). Additions keep the values of two lists related (`Related.foldl_add`). A list is
rebuilt by adding its entries from the last to the first (`foldl_add_reverse`).
-/

namespace SearchServer.Recency

variable {K V : Type*} [BEq K] [LawfulBEq K]

/-- Use the key `k`, with the value `v` if it is new. -/
def add (cap : ℕ) (l : List (K × V)) (k : K) (v : V) : List (K × V) :=
  match l.lookup k with
  | some old => (k, old) :: l.filter (·.1 != k)
  | none => (k, v) :: if l.length = cap then l.dropLast else l

theorem mem_of_lookup {l : List (K × V)} {k : K} {v : V} (h : l.lookup k = some v) :
    (k, v) ∈ l := by
  obtain ⟨l₁, l₂, rfl, -⟩ := List.lookup_eq_some_iff.mp h
  simp

theorem lookup_of_mem {l : List (K × V)} (hl : (l.map Prod.fst).Nodup) {k : K} {v : V}
    (h : (k, v) ∈ l) : l.lookup k = some v := by
  obtain ⟨l₁, l₂, rfl⟩ := List.append_of_mem h
  refine List.lookup_eq_some_iff.mpr ⟨l₁, l₂, rfl, fun p hp => ?_⟩
  simp only [List.map_append, List.map_cons, List.nodup_append, List.mem_map] at hl
  simpa using fun hk : k = p.1 => hl.2.2 p.1 ⟨p, hp, rfl⟩ k (by simp) hk.symm

theorem lookup_eq_none_iff {l : List (K × V)} {k : K} :
    l.lookup k = none ↔ ∀ p ∈ l, p.1 ≠ k := by
  rw [List.lookup_eq_none_iff]
  exact forall₂_congr fun p _ => by rw [bne_iff_ne, ne_comm]

/-- Every entry after `add` is the added one or was there before. -/
theorem mem_add {cap : ℕ} {l : List (K × V)} {k : K} {v : V} {p : K × V}
    (h : p ∈ add cap l k v) : p = (k, v) ∨ p ∈ l := by
  unfold add at h
  split at h
  · rename_i old hold
    rcases List.mem_cons.mp h with rfl | h
    · exact Or.inr (mem_of_lookup hold)
    · exact Or.inr (List.mem_of_mem_filter h)
  · rcases List.mem_cons.mp h with rfl | h
    · exact Or.inl rfl
    · split at h
      · exact Or.inr (List.dropLast_subset l h)
      · exact Or.inr h

/-- What holds of the entries of a list and of the added entries holds of the entries after a
sequence of additions. -/
theorem forall_foldl_add {cap : ℕ} {P : K → V → Prop} {nodes : List (K × V)}
    (hnodes : ∀ p ∈ nodes, P p.1 p.2) {l : List (K × V)} (hl : ∀ p ∈ l, P p.1 p.2) :
    ∀ p ∈ nodes.foldl (fun l p => add cap l p.1 p.2) l, P p.1 p.2 := by
  induction nodes generalizing l with
  | nil => exact hl
  | cons q nodes ih =>
    refine ih (fun p hp => hnodes p (List.mem_cons_of_mem _ hp)) fun p hp => ?_
    rcases mem_add hp with rfl | hp
    · exact hnodes q List.mem_cons_self
    · exact hl p hp

/-! ## The keys -/

/-- `add` on the keys alone: it does not depend on the values. -/
def addKey (cap : ℕ) (ks : List K) (k : K) : List K :=
  if k ∈ ks then k :: ks.filter (· != k) else k :: if ks.length = cap then ks.dropLast else ks

theorem map_fst_add (cap : ℕ) (l : List (K × V)) (k : K) (v : V) :
    (add cap l k v).map Prod.fst = addKey cap (l.map Prod.fst) k := by
  unfold add addKey
  cases hk : l.lookup k with
  | some old =>
    have hmem : k ∈ l.map Prod.fst := List.mem_map_of_mem (mem_of_lookup hk)
    rw [if_pos hmem, List.filter_map]
    rfl
  | none =>
    have hnot : k ∉ l.map Prod.fst := by
      intro hmem
      obtain ⟨p, hp, hpk⟩ := List.mem_map.mp hmem
      exact lookup_eq_none_iff.mp hk p hp hpk
    rw [if_neg hnot, List.length_map]
    split_ifs with hfull
    · rw [List.map_cons, List.map_dropLast]
    · rfl

/-- Adding the entries of a list in reverse order gives the list. -/
theorem foldl_add_reverse {cap : ℕ} {l : List (K × V)} (hl : (l.map Prod.fst).Nodup)
    (hcap : l.length ≤ cap) : l.reverse.foldl (fun l p => add cap l p.1 p.2) [] = l := by
  induction l with
  | nil => rfl
  | cons p l ih =>
    rw [List.map_cons, List.nodup_cons] at hl
    rw [List.length_cons] at hcap
    rw [List.reverse_cons, List.foldl_append, ih hl.2 (by omega)]
    have hnone : l.lookup p.1 = none := by
      refine lookup_eq_none_iff.mpr fun q hq hqp => hl.1 ?_
      exact hqp ▸ List.mem_map_of_mem hq
    have hroom : l.length ≠ cap := by omega
    simp [add, hnone, hroom]

/-! ## Two lists with related values -/

section Related

variable {W : Type*} {R : V → W → Prop} {l : List (K × V)} {l' : List (K × W)}

omit [LawfulBEq K]

/-- The same keys in the same order, with related values. -/
def Related (R : V → W → Prop) : List (K × V) → List (K × W) → Prop :=
  List.Forall₂ fun p q => p.1 = q.1 ∧ R p.2 q.2

omit [BEq K] in
theorem Related.map_fst (h : Related R l l') : l.map Prod.fst = l'.map Prod.fst := by
  induction h with
  | nil => rfl
  | cons hpq _ ih => rw [List.map_cons, List.map_cons, hpq.1, ih]

omit [BEq K] in
theorem Related.comp {X : Type*} {S : W → X → Prop} {T : V → X → Prop}
    (hcomp : ∀ v w x, R v w → S w x → T v x) {l'' : List (K × X)} (h : Related R l l')
    (h' : Related S l' l'') : Related T l l'' := by
  induction h generalizing l'' with
  | nil =>
    cases h'
    exact List.Forall₂.nil
  | cons hpq _ ih =>
    cases h' with
    | cons hqr h' =>
      exact List.Forall₂.cons ⟨hpq.1.trans hqr.1, hcomp _ _ _ hpq.2 hqr.2⟩ (ih h')

theorem Related.lookup (h : Related R l l') (k : K) :
    Option.Rel R (l.lookup k) (l'.lookup k) := by
  induction h with
  | nil => exact Option.Rel.none
  | @cons p q l l' hpq _ ih =>
    obtain ⟨k', v⟩ := p
    obtain ⟨k'', w⟩ := q
    obtain ⟨rfl, hvw⟩ := hpq
    rw [List.lookup_cons, List.lookup_cons]
    by_cases hk : k == k'
    · rw [hk]
      exact Option.Rel.some hvw
    · rw [Bool.not_eq_true] at hk
      rw [hk]
      exact ih

theorem Related.filter_ne (h : Related R l l') (k : K) :
    Related R (l.filter (·.1 != k)) (l'.filter (·.1 != k)) := by
  induction h with
  | nil => exact List.Forall₂.nil
  | @cons p q l l' hpq _ ih =>
    rw [List.filter_cons, List.filter_cons, hpq.1]
    split_ifs
    · exact List.Forall₂.cons hpq ih
    · exact ih

/-- `add` keeps values related: the same key is added, moved or dropped in both lists. -/
theorem Related.add (h : Related R l l') (cap : ℕ) (k : K) {v : V} {w : W} (hvw : R v w) :
    Related R (add cap l k v) (add cap l' k w) := by
  have hlookup := h.lookup k
  unfold Recency.add
  cases hk : l.lookup k with
  | none =>
    rw [hk] at hlookup
    cases hk' : l'.lookup k with
    | some w' =>
      rw [hk'] at hlookup
      cases hlookup
    | none =>
      refine List.Forall₂.cons ⟨rfl, hvw⟩ ?_
      rw [h.length_eq]
      split_ifs
      · rw [List.dropLast_eq_take, List.dropLast_eq_take, h.length_eq]
        exact List.forall₂_take _ h
      · exact h
  | some v' =>
    rw [hk] at hlookup
    cases hk' : l'.lookup k with
    | none =>
      rw [hk'] at hlookup
      cases hlookup
    | some w' =>
      rw [hk'] at hlookup
      cases hlookup with
      | some hvw' => exact List.Forall₂.cons ⟨rfl, hvw'⟩ (h.filter_ne k)

theorem Related.foldl_add {R : V → V → Prop} (hrefl : ∀ v, R v v) {l l' : List (K × V)}
    (h : Related R l l') (cap : ℕ) (nodes : List (K × V)) :
    Related R (nodes.foldl (fun l p => Recency.add cap l p.1 p.2) l)
      (nodes.foldl (fun l p => Recency.add cap l p.1 p.2) l') := by
  induction nodes generalizing l l' with
  | nil => exact h
  | cons p nodes ih => exact ih (h.add cap p.1 (hrefl p.2))

end Related

/-! ## The order -/

/-- How many additions there were after the last one of `k`. -/
def age (ks : List K) (k : K) : ℕ := ks.reverse.idxOf k

@[simp] theorem age_append_self (ks : List K) (k : K) : age (ks ++ [k]) k = 0 := by
  simp [age]

theorem age_append_of_ne {k a : K} (h : a ≠ k) (ks : List K) :
    age (ks ++ [k]) a = age ks a + 1 := by
  rw [age, List.reverse_append, List.reverse_singleton, List.singleton_append,
    List.idxOf_cons_ne _ h.symm]
  rfl

/-- The added key is at the front, and the others keep their order. -/
theorem addKey_eq (cap : ℕ) (ks : List K) (k : K) :
    ∃ rest, addKey cap ks k = k :: rest ∧ rest.Sublist ks ∧ k ∉ rest := by
  unfold addKey
  split_ifs with hmem hfull
  · exact ⟨_, rfl, List.filter_sublist, by simp⟩
  · exact ⟨_, rfl, List.dropLast_sublist _, fun h => hmem (List.dropLast_subset _ h)⟩
  · exact ⟨_, rfl, List.Sublist.refl _, hmem⟩

/-- **Recency.** The keys are in the order of their last additions, the latest first. -/
theorem pairwise_age (cap : ℕ) (ks : List K) :
    (ks.foldl (addKey cap) []).Pairwise fun a b => age ks a < age ks b := by
  induction ks using List.reverseRecOn with
  | nil => exact List.Pairwise.nil
  | append_singleton ks k ih =>
    rw [List.foldl_append, List.foldl_cons, List.foldl_nil]
    obtain ⟨rest, heq, hsub, hk⟩ := addKey_eq cap (ks.foldl (addKey cap) []) k
    have hne : ∀ a ∈ rest, a ≠ k := fun a ha hak => hk (hak ▸ ha)
    rw [heq, List.pairwise_cons]
    refine ⟨fun a ha => ?_, ?_⟩
    · rw [age_append_self, age_append_of_ne (hne a ha)]
      exact Nat.succ_pos _
    · refine (ih.sublist hsub).imp_of_mem fun {a b} ha hb hab => ?_
      rw [age_append_of_ne (hne a ha), age_append_of_ne (hne b hb)]
      exact Nat.succ_lt_succ hab

end SearchServer.Recency

import Mathlib

/-!
# Loops that update a map

A loop over the entries of one map that updates, for each entry, the value under its key in another
map. Since the keys are distinct, each value is updated at most once (`getElem?_foldl_toList`). What is
under each key determines the list of the entries (`toList_of_getElem?`).
-/

namespace SearchServer

variable {κ β γ : Type} [Ord κ]

/-- A loop over entries with distinct keys, whose body changes only the value under the key of the
entry. -/
theorem getElem?_foldl {f : Std.TreeMap κ γ → κ × β → Std.TreeMap κ γ}
    {g : κ → β → Option γ → Option γ}
    (hself : ∀ t p, (f t p)[p.1]? = g p.1 p.2 t[p.1]?)
    (hother : ∀ t p k, k ≠ p.1 → (f t p)[k]? = t[k]?)
    {l : List (κ × β)} (hl : l.Pairwise fun a b => a.1 ≠ b.1) (t : Std.TreeMap κ γ) (k : κ) :
    (∀ b, (k, b) ∈ l → (l.foldl f t)[k]? = g k b t[k]?) ∧
      ((∀ b, (k, b) ∉ l) → (l.foldl f t)[k]? = t[k]?) := by
  induction l generalizing t with
  | nil => exact ⟨by simp, fun _ => rfl⟩
  | cons p l ih =>
    obtain ⟨hp, hl⟩ := List.pairwise_cons.mp hl
    obtain ⟨hin, hout⟩ := ih hl (f t p)
    rw [List.foldl_cons]
    by_cases hk : k = p.1
    · subst hk
      have hnot : ∀ b, (p.1, b) ∉ l := fun b hb => hp _ hb rfl
      rw [hout hnot, hself]
      refine ⟨fun b hb => ?_, fun h => absurd List.mem_cons_self (h p.2)⟩
      rcases List.mem_cons.mp hb with hb | hb
      · rw [← congrArg Prod.snd hb]
      · exact absurd hb (hnot b)
    · have hiff : ∀ b, (k, b) ∈ p :: l ↔ (k, b) ∈ l := fun b => by
        rw [List.mem_cons, or_iff_right fun h => hk (congrArg Prod.fst h)]
      rw [hother t p k hk] at hin hout
      exact ⟨fun b hb => hin b ((hiff b).mp hb), fun h => hout fun b hb => h b ((hiff b).mpr hb)⟩

/-- A map that stays as it is, in the form of `getElem?_insert_eq` and `getElem?_erase_eq`. -/
theorem getElem?_eq_ite [DecidableEq κ] {m : Std.TreeMap κ β} {k : κ} {q : Option β}
    (h : m[k]? = q) (a : κ) : m[a]? = if a = k then q else m[a]? := by
  split_ifs with heq
  · rw [heq, h]
  · rfl

variable [Std.TransOrd κ]

theorem exists_getElem?_of_mem {m : Std.TreeMap κ β} {k : κ} (h : k ∈ m) : ∃ b, m[k]? = some b :=
  Option.isSome_iff_exists.mp (Std.TreeMap.mem_iff_isSome_getElem?.mp h)

/-- Writing a value under a key that is there does not change the number of entries. -/
theorem size_insert_of_mem {m : Std.TreeMap κ β} {k : κ} (h : k ∈ m) (b : β) :
    (m.insert k b).size = m.size := by
  rw [Std.TreeMap.size_insert, if_pos (Std.TreeMap.contains_iff_mem.mpr h)]

variable [Std.LawfulEqOrd κ]

theorem pairwise_toList (m : Std.TreeMap κ β) : m.toList.Pairwise fun a b => a.1 ≠ b.1 :=
  m.distinct_keys_toList.imp fun h heq => h (Std.compare_eq_iff_eq.mpr heq)

/-- What is under a key after an insertion, with equality of keys for the comparison. -/
theorem getElem?_insert_eq [DecidableEq κ] (m : Std.TreeMap κ β) (k a : κ) (b : β) :
    (m.insert k b)[a]? = if a = k then some b else m[a]? := by
  rw [Std.TreeMap.getElem?_insert]
  exact if_congr (Std.compare_eq_iff_eq.trans eq_comm) rfl rfl

theorem getElem?_erase_eq [DecidableEq κ] (m : Std.TreeMap κ β) (k a : κ) :
    (m.erase k)[a]? = if a = k then none else m[a]? := by
  rw [Std.TreeMap.getElem?_erase]
  exact if_congr (Std.compare_eq_iff_eq.trans eq_comm) rfl rfl

theorem getElem?_insert_ne {k a : κ} (h : a ≠ k) (m : Std.TreeMap κ β) (b : β) :
    (m.insert k b)[a]? = m[a]? := by
  rw [Std.TreeMap.getElem?_insert, if_neg fun heq => h (Std.compare_eq_iff_eq.mp heq).symm]

theorem getElem?_alter_ne {k a : κ} (h : a ≠ k) (m : Std.TreeMap κ β)
    (f : Option β → Option β) : (m.alter k f)[a]? = m[a]? := by
  rw [Std.TreeMap.getElem?_alter, if_neg fun heq => h (Std.compare_eq_iff_eq.mp heq).symm]

/-- A map whose values are computed from the entries of another. -/
theorem toList_of_getElem? {m : Std.TreeMap κ β} {m' : Std.TreeMap κ γ} {f : κ → β → γ}
    (h : ∀ k, m'[k]? = (m[k]?).map (f k)) : m'.toList = m.toList.map fun p => (p.1, f p.1 p.2) := by
  have hequiv : m'.Equiv (m.map f) := Std.TreeMap.Equiv.of_forall_constGet?_eq fun k => by
    rw [h, Std.TreeMap.getElem?_map]
  rw [hequiv.toList_eq, Std.TreeMap.toList_map]

theorem getElem?_foldl_toList {f : Std.TreeMap κ γ → κ × β → Std.TreeMap κ γ}
    {g : κ → β → Option γ → Option γ}
    (hself : ∀ t p, (f t p)[p.1]? = g p.1 p.2 t[p.1]?)
    (hother : ∀ t p k, k ≠ p.1 → (f t p)[k]? = t[k]?)
    (m : Std.TreeMap κ β) (t : Std.TreeMap κ γ) (k : κ) :
    (m.toList.foldl f t)[k]? = (m[k]?).elim t[k]? fun b => g k b t[k]? := by
  obtain ⟨hin, hout⟩ := getElem?_foldl hself hother (pairwise_toList m) t k
  cases hk : m[k]? with
  | none =>
    refine hout fun b hb => ?_
    rw [Std.TreeMap.mem_toList_iff_getElem?_eq_some, hk] at hb
    cases hb
  | some b => exact hin b (Std.TreeMap.mem_toList_iff_getElem?_eq_some.mpr hk)

end SearchServer

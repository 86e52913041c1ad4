import Mathlib

/-!
# Tries

A trie maps words over an alphabet to values. A node has the value of the word that leads to it, if
that word is in the trie, and a child for each letter with which a longer word goes on.

* `find_insert`: a trie is a map from words to values, and an insertion changes it at one word.
* `find_insertAll`: after a sequence of insertions a word has the value with which it was inserted
  last.
-/

namespace SearchServer

inductive Trie (κ ν : Type*) where
  | node (value : Option ν) (next : List (κ × Trie κ ν))

namespace Trie

variable {κ ν : Type*}

def empty : Trie κ ν := node none []

def value : Trie κ ν → Option ν
  | node value _ => value

def next : Trie κ ν → List (κ × Trie κ ν)
  | node _ next => next

variable [DecidableEq κ]

/-- Replace the child at a letter, or add one. -/
def setChild (k : κ) (t : Trie κ ν) : List (κ × Trie κ ν) → List (κ × Trie κ ν)
  | [] => [(k, t)]
  | (k', t') :: next => if k' = k then (k, t) :: next else (k', t') :: setChild k t next

/-- The child at a letter. -/
def child (t : Trie κ ν) (k : κ) : Option (Trie κ ν) := t.next.lookup k

/-- Insert a word with its value. -/
def insert : Trie κ ν → List κ → ν → Trie κ ν
  | t, [], v => node (some v) t.next
  | t, k :: word, v =>
    node t.value (setChild k (insert ((t.child k).getD empty) word v) t.next)

/-- The node to which a word leads. -/
def walk : Trie κ ν → List κ → Option (Trie κ ν)
  | t, [] => some t
  | t, k :: word => (t.child k).bind fun t => walk t word

/-- The value of a word. -/
def find (t : Trie κ ν) (word : List κ) : Option ν := (t.walk word).bind value

/-- Insert words one after the other. -/
def insertAll (t : Trie κ ν) (words : List (List κ × ν)) : Trie κ ν :=
  words.foldl (fun t w => t.insert w.1 w.2) t

theorem lookup_cons_eq_ite {α β : Type*} [BEq α] [LawfulBEq α] [DecidableEq α] (k : α) (p : α × β)
    (l : List (α × β)) : (p :: l).lookup k = if k = p.1 then some p.2 else l.lookup k := by
  rw [List.lookup_cons]
  by_cases h : k = p.1
  · rw [if_pos h, beq_iff_eq.mpr h]
  · rw [if_neg h, beq_eq_false_iff_ne.mpr h]

theorem lookup_setChild (k k' : κ) (t : Trie κ ν) (next : List (κ × Trie κ ν)) :
    (setChild k t next).lookup k' = if k' = k then some t else next.lookup k' := by
  induction next with
  | nil => exact lookup_cons_eq_ite k' (k, t) []
  | cons c next ih =>
    obtain ⟨k₀, t₀⟩ := c
    rw [setChild]
    by_cases h₀ : k₀ = k
    · rw [if_pos h₀, lookup_cons_eq_ite, lookup_cons_eq_ite, h₀]
      split_ifs <;> rfl
    · rw [if_neg h₀, lookup_cons_eq_ite, lookup_cons_eq_ite, ih]
      by_cases h : k' = k₀
      · rw [if_pos h, if_pos h, if_neg fun hk => h₀ (h.symm.trans hk)]
      · rw [if_neg h, if_neg h]

theorem child_insert (t : Trie κ ν) (k k' : κ) (word : List κ) (v : ν) :
    (t.insert (k :: word) v).child k' =
      if k' = k then some (((t.child k).getD empty).insert word v) else t.child k' :=
  lookup_setChild k k' _ t.next

theorem walk_append (t : Trie κ ν) (word word' : List κ) :
    t.walk (word ++ word') = (t.walk word).bind fun t => t.walk word' := by
  induction word generalizing t with
  | nil => rfl
  | cons k word ih =>
    rw [List.cons_append, walk, walk, Option.bind_assoc]
    simp only [ih]

theorem walk_singleton (t : Trie κ ν) (k : κ) : t.walk [k] = t.child k := Option.bind_fun_some _

theorem find_singleton (t : Trie κ ν) (k : κ) : t.find [k] = (t.child k).bind value := by
  rw [find, walk_singleton]

theorem find_cons (t : Trie κ ν) (k : κ) (word : List κ) :
    t.find (k :: word) = (t.child k).bind fun t => t.find word := by
  rw [find, walk, Option.bind_assoc]
  rfl

theorem find_empty (word : List κ) : (empty : Trie κ ν).find word = none := by
  cases word <;> rfl

/-- **An insertion** changes the value of one word. -/
theorem find_insert (t : Trie κ ν) (word word' : List κ) (v : ν) :
    (t.insert word v).find word' = if word' = word then some v else t.find word' := by
  induction word generalizing t word' with
  | nil =>
    cases word' with
    | nil => rfl
    | cons k' word' => rfl
  | cons k word ih =>
    cases word' with
    | nil => rfl
    | cons k' word' =>
      rw [find_cons, child_insert, find_cons]
      by_cases hk : k' = k
      · subst hk
        rw [if_pos rfl, Option.bind_some, ih]
        -- A child that was missing has no words.
        have hold : ((t.child k').getD empty).find word' =
            (t.child k').bind fun t => t.find word' := by
          cases t.child k' with
          | none => exact find_empty word'
          | some c => rfl
        simp only [hold, List.cons.injEq, true_and]
      · rw [if_neg hk, if_neg fun h => hk (List.cons.inj h).1]

/-- **A sequence of insertions**: the last one counts. -/
theorem find_insertAll (t : Trie κ ν) (words : List (List κ × ν)) (word : List κ) :
    (t.insertAll words).find word = (words.reverse.lookup word).or (t.find word) := by
  induction words using List.reverseRecOn with
  | nil => rfl
  | append_singleton words w ih =>
    rw [insertAll, List.foldl_append, List.foldl_cons, List.foldl_nil, find_insert,
      List.reverse_append, List.reverse_singleton, List.singleton_append, lookup_cons_eq_ite]
    split_ifs
    · rfl
    · exact ih

/-- The values of a trie are those that were inserted. -/
theorem mem_of_find_insertAll {words : List (List κ × ν)} {word : List κ} {v : ν}
    (h : (empty.insertAll words).find word = some v) : (word, v) ∈ words := by
  rw [find_insertAll, find_empty, Option.or_none] at h
  obtain ⟨l₁, l₂, hwords, -⟩ := List.lookup_eq_some_iff.mp h
  rw [← List.mem_reverse, hwords]
  exact List.mem_append_right _ List.mem_cons_self

end Trie

end SearchServer

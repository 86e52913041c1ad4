import Mathlib

/-!
# Self-delimiting encodings

An encoding `enc` of messages as lists over an alphabet, and a reader `dec` that takes one message
off the front of a list and returns it with the rest. `Decodes P enc dec` says that the reader takes
a message with `P` off the front of whatever follows it. Then

* the code word of a message is no proper prefix of that of another (`Decodes.eq_of_prefix`);
* a sequence of messages is determined by the concatenation of their code words
  (`Decodes.flatMap_inj`);
* the reader, applied until nothing is left, returns the sequence (`Decodes.decodeAll_flatMap`).
-/

namespace SearchServer

variable {α β : Type*} {P : α → Prop} {enc : α → List β} {dec : List β → Option (α × List β)}

/-- The reader returns each message with `P`, and what follows it. -/
def Decodes (P : α → Prop) (enc : α → List β) (dec : List β → Option (α × List β)) : Prop :=
  ∀ a, P a → ∀ r, dec (enc a ++ r) = some (a, r)

/-- Read messages until nothing is left. A reader that takes nothing is stopped. -/
def decodeAll (dec : List β → Option (α × List β)) : List β → Option (List α)
  | [] => some []
  | c :: s =>
    match dec (c :: s) with
    | none => none
    | some (a, r) => if r.length < (c :: s).length then (decodeAll dec r).map (a :: ·) else none
termination_by s => s.length
decreasing_by assumption

theorem decodeAll_of_dec {s r : List β} {a : α} (h : dec s = some (a, r))
    (hlt : r.length < s.length) : decodeAll dec s = (decodeAll dec r).map (a :: ·) := by
  cases s with
  | nil => cases hlt
  | cons c s => rw [decodeAll, h]; exact if_pos hlt

namespace Decodes

theorem append_inj (h : Decodes P enc dec) {a b : α} (ha : P a) (hb : P b) {r r' : List β}
    (heq : enc a ++ r = enc b ++ r') : a = b ∧ r = r' := by
  have hdec : some (a, r) = some (b, r') := by rw [← h a ha r, heq, h b hb r']
  simpa using hdec

/-- **No code word is a proper prefix of another.** -/
theorem eq_of_prefix (h : Decodes P enc dec) {a b : α} (ha : P a) (hb : P b)
    (hpre : enc a <+: enc b) : a = b := by
  obtain ⟨t, ht⟩ := hpre
  rw [← List.append_nil (enc b)] at ht
  exact (h.append_inj ha hb ht).1

/-- **Unique decodability.** No message with `P` has the empty code word. -/
theorem flatMap_inj (h : Decodes P enc dec) (hne : ∀ a, P a → enc a ≠ []) {as bs : List α}
    (has : ∀ a ∈ as, P a) (hbs : ∀ b ∈ bs, P b) (heq : as.flatMap enc = bs.flatMap enc) :
    as = bs := by
  induction as generalizing bs with
  | nil =>
    cases bs with
    | nil => rfl
    | cons b bs =>
      rw [List.flatMap_nil, List.flatMap_cons] at heq
      exact absurd (List.append_eq_nil_iff.mp heq.symm).1 (hne b (hbs b List.mem_cons_self))
  | cons a as ih =>
    cases bs with
    | nil =>
      rw [List.flatMap_nil, List.flatMap_cons] at heq
      exact absurd (List.append_eq_nil_iff.mp heq).1 (hne a (has a List.mem_cons_self))
    | cons b bs =>
      rw [List.flatMap_cons, List.flatMap_cons] at heq
      obtain ⟨rfl, hrest⟩ :=
        h.append_inj (has a List.mem_cons_self) (hbs b List.mem_cons_self) heq
      rw [ih (fun x hx => has x (List.mem_cons_of_mem _ hx))
        (fun x hx => hbs x (List.mem_cons_of_mem _ hx)) hrest]

/-- **The reader recovers the sequence.** -/
theorem decodeAll_flatMap (h : Decodes P enc dec) (hne : ∀ a, P a → enc a ≠ []) {as : List α}
    (has : ∀ a ∈ as, P a) : decodeAll dec (as.flatMap enc) = some as := by
  induction as with
  | nil => rw [List.flatMap_nil, decodeAll]
  | cons a as ih =>
    have ha : P a := has a List.mem_cons_self
    have hpos : 0 < (enc a).length := List.length_pos_iff.mpr (hne a ha)
    rw [List.flatMap_cons, decodeAll_of_dec (h a ha _) (by rw [List.length_append]; omega),
      ih fun x hx => has x (List.mem_cons_of_mem _ hx)]
    rfl

end Decodes

end SearchServer

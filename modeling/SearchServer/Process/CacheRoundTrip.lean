import SearchServer.Process.CacheFile

/-!
# A cache is written and read again

`Cache::writeToFile` puts each node on a line of its own, the key and the result with a space between
them. `Cache::readFromFile` (`process/Cache.cc`) reads words, and it tests the stream before it reads
and not after. Even where keys and results are single words, the last round of its loop reads
nothing and adds the last node again. So no cache comes back as it was written (`not_roundTrips`); an
empty one leaves `value` empty, and `value.back()` is undefined then.
-/

namespace SearchServer

namespace Cache

/-- The results are the same up to one newline at the end. -/
def SameResult (a b : Bytes) : Prop := a = b ∨ a = b ++ [LF] ∨ b = a ++ [LF]

/-- The file of the cache is written and read into a new cache of the same capacity. That has the
same keys in the same order, with the same results, and no other node. -/
def RoundTrips (c : Cache) : Prop :=
  ∃ written text read, c.writeToFile = some (written, text) ∧
    (empty c.capacity).readFromFile (some text) = some read ∧
    List.Forall₂ (fun p q => p.1 = q.1 ∧ SameResult p.2 q.2) c.nodes read.nodes

def IsWord (w : Bytes) : Prop := w ≠ [] ∧ ∀ b ∈ w, isspace b = false

theorem isWord_of_mem_tokens {text w : Bytes} (h : w ∈ tokens text) : IsWord w :=
  ⟨ne_nil_of_mem_tokens h, fun _ hb => isspace_of_mem_tokens h hb⟩

theorem IsWord.not_mem_lf {w : Bytes} (h : IsWord w) : LF ∉ w := by
  intro hmem
  exact absurd (h.2 LF hmem) (by decide)

theorem IsWord.isValue {w : Bytes} (h : IsWord w) : IsValue w :=
  ⟨h.1, fun hlast => h.not_mem_lf (List.mem_of_getLast? hlast)⟩

/-! ## What is read -/

/-- The loop adds a node for every two words, and one more at the end. -/
theorem readNodes_words {words : List Bytes} (hwords : ∀ w ∈ words, IsWord w) {key value : Bytes}
    (hkey : IsWord key) (hvalue : IsWord value) {nodes : List CacheNode}
    (h : readNodes key value words = some nodes) :
    nodes.length = words.length / 2 + 1 ∧
      ∀ node ∈ nodes, IsWord node.queryWord ∧ IsWord node.reuslt := by
  induction words using fileKeys.induct generalizing key value nodes with
  | case1 =>
    rw [readNodes, trimNode_of_isValue hvalue.isValue] at h
    obtain rfl := Option.some.inj h
    exact ⟨rfl, by simp [hkey, hvalue]⟩
  | case2 k =>
    rw [readNodes, trimNode_of_isValue hvalue.isValue] at h
    obtain rfl := Option.some.inj h
    exact ⟨by simp, by simp [hwords k, hvalue]⟩
  | case3 k v words ih =>
    have hk : IsWord k := hwords k (by simp)
    have hv : IsWord v := hwords v (by simp)
    rw [readNodes, trimNode_of_isValue hv.isValue] at h
    obtain ⟨rest, hrest, hpure⟩ := Option.bind_eq_some_iff.mp ((Option.bind_some ..).symm.trans h)
    obtain rfl := Option.some.inj hpure
    obtain ⟨hlen, hall⟩ := ih (fun w hw => hwords w (by simp [hw])) hk hv hrest
    refine ⟨?_, ?_⟩
    · simp only [List.length_cons, hlen]
      omega
    · exact List.forall_mem_cons.mpr ⟨⟨hk, hv⟩, hall⟩

theorem nodes_pushBacks (c : Cache) (nodes : List CacheNode) :
    (nodes.foldl pushBack c).nodes =
      c.nodes ++ nodes.map fun node => (node.queryWord, node.reuslt) := by
  induction nodes generalizing c with
  | nil => exact (List.append_nil _).symm
  | cons node nodes ih =>
    have hpush : (c.pushBack node).nodes = c.nodes ++ [(node.queryWord, node.reuslt)] := by
      simp [Cache.nodes, pushBack]
    rw [List.foldl_cons, ih, hpush, List.append_assoc]
    rfl

/-- A cache that is read into an empty one has a node for every two words and one more. All its
keys and results are words. -/
theorem readFromFile_words {capacity : ℕ} {text : Bytes} {read : Cache}
    (h : (empty capacity).readFromFile (some text) = some read) :
    read.nodes.length = (tokens text).length / 2 + 1 ∧
      ∀ p ∈ read.nodes, IsWord p.1 ∧ IsWord p.2 := by
  obtain ⟨nodes, hnodes, rfl⟩ := Option.map_eq_some_iff.mp h
  have hread : (nodes.foldl pushBack (empty capacity)).nodes =
      nodes.map fun node => (node.queryWord, node.reuslt) := nodes_pushBacks _ nodes
  have hwords : ∀ w ∈ tokens text, IsWord w := fun w hw => isWord_of_mem_tokens hw
  have key : nodes.length = (tokens text).length / 2 + 1 ∧
      ∀ node ∈ nodes, IsWord node.queryWord ∧ IsWord node.reuslt := by
    by_cases hlen : (tokens text).length < 2
    · rw [readNodes_eq_none hlen] at hnodes
      cases hnodes
    · match hws : tokens text with
      | [] => simp [hws] at hlen
      | [k] => simp [hws] at hlen
      | k :: v :: words =>
        rw [hws] at hwords hnodes
        -- The first round sets both strings, so it does not matter what they were.
        have hk : IsWord k := hwords k (by simp)
        have hv : IsWord v := hwords v (by simp)
        exact readNodes_words hwords hk hv hnodes
  rw [hread, List.length_map]
  refine ⟨key.1, fun p hp => ?_⟩
  obtain ⟨node, hnode, rfl⟩ := List.mem_map.mp hp
  exact key.2 node hnode

/-! ## What is written -/

def record (p : Bytes × Bytes) : Bytes := p.1 ++ lit " " ++ p.2 ++ [LF]

/-- The words of a file whose keys and results are words. -/
theorem tokens_records {l : List (Bytes × Bytes)} (h : ∀ p ∈ l, IsWord p.1 ∧ IsWord p.2) :
    tokens (l.flatMap record) = l.flatMap fun p => [p.1, p.2] := by
  induction l with
  | nil => rfl
  | cons p l ih =>
    obtain ⟨hp, hl⟩ := List.forall_mem_cons.mp h
    have hline : (p :: l).flatMap record = p.1 ++ (SP :: (p.2 ++ (LF :: l.flatMap record))) := by
      simp [record, lit]
      rfl
    rw [hline, tokens_append hp.1.1 hp.1.2 (by simp; rfl), tokens_cons_space rfl,
      tokens_append hp.2.1 hp.2.2 (by simp; rfl), tokens_cons_space rfl, ih hl]
    rfl

theorem writeToFile_text {c written : Cache} {text : Bytes}
    (h : c.writeToFile = some (written, text)) : text = written.nodes.flatMap record := by
  obtain ⟨l, rfl, rfl, -⟩ := writeToFile_eq_some h
  rw [nodes, List.flatMap_map]
  rfl

/-! ## The round trip -/

/-- A result that comes back as a word was written as that word. -/
theorem Trimmed.eq_of_sameResult {v v' w : Bytes} (htrim : Trimmed v v') (hsame : SameResult v w)
    (hw : IsWord w) : v' = w := by
  have hlf := hw.not_mem_lf
  rcases hsame with rfl | rfl | rfl
  · rcases htrim with ⟨rfl, -⟩ | rfl
    · rfl
    · simp at hlf
  · rcases htrim with ⟨-, hlast⟩ | heq
    · simp at hlast
    · exact (List.append_cancel_right heq).symm
  · simp at hlf

theorem eq_of_related {l written read : List (Bytes × Bytes)}
    (hwritten : Recency.Related Trimmed l written) (hread : Recency.Related SameResult l read)
    (hwords : ∀ p ∈ read, IsWord p.1 ∧ IsWord p.2) : written = read := by
  induction hwritten generalizing read with
  | nil =>
    cases hread
    rfl
  | @cons p q l written hpq _ ih =>
    cases hread with
    | @cons _ r _ read hpr hrest =>
      obtain ⟨hr, hall⟩ := List.forall_mem_cons.mp hwords
      rw [ih hrest hall]
      have hfst : q.1 = r.1 := hpq.1.symm.trans hpr.1
      have hsnd : q.2 = r.2 := hpq.2.eq_of_sameResult hpr.2 hr.2
      rw [Prod.ext hfst hsnd]

/-- **No cache survives the round trip.** -/
theorem not_roundTrips (c : Cache) : ¬ c.RoundTrips := by
  rintro ⟨written, text, read, hwrite, hread, hsame⟩
  obtain rfl := writeToFile_text hwrite
  have htrimmed := writeToFile_nodes hwrite
  obtain ⟨hlen, hwords⟩ := readFromFile_words hread
  -- If it came back, the file would have two words for each node, and one node too many is read.
  rw [eq_of_related htrimmed hsame hwords, tokens_records hwords] at hlen
  have htwo : (read.nodes.flatMap fun p => [p.1, p.2]).length = 2 * read.nodes.length := by
    simp [List.length_flatMap, mul_comm]
  rw [htwo] at hlen
  omega

/-- One key and an empty document: the key comes back twice. -/
theorem not_roundTrips_cat :
    let c := (empty 4).addElement (lit "cat") (lit "\x7b\x7d")
    c.writeToFile.map Prod.snd = some (lit "cat \x7b\x7d\n") ∧
      ((empty 4).readFromFile (some (lit "cat \x7b\x7d\n"))).map nodes =
        some [(lit "cat", lit "\x7b\x7d"), (lit "cat", lit "\x7b\x7d")] ∧ ¬ c.RoundTrips := by
  intro c
  have htext : c.writeToFile.map Prod.snd = some (lit "cat \x7b\x7d\n") := by decide +kernel
  have hnodes : ((empty 4).readFromFile (some (lit "cat \x7b\x7d\n"))).map nodes =
      some [(lit "cat", lit "\x7b\x7d"), (lit "cat", lit "\x7b\x7d")] := by decide +kernel
  refine ⟨htext, hnodes, ?_⟩
  rintro ⟨written, text, read, hwrite, hread, hsame⟩
  rw [hwrite] at htext
  obtain rfl : text = lit "cat \x7b\x7d\n" := Option.some.inj htext
  have hread' : (empty 4).readFromFile (some (lit "cat \x7b\x7d\n")) = some read := hread
  rw [hread'] at hnodes
  rw [Option.some.inj hnodes] at hsame
  have hlen : c.nodes.length = 2 := hsame.length_eq
  exact absurd hlen (by decide +kernel)

end Cache

end SearchServer

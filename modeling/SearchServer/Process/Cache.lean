import SearchServer.Lib.Except
import SearchServer.Lib.Recency
import SearchServer.Lib.Text

/-!
# The query cache

`Cache` (`process/Cache.cc`): a linked list of nodes, most recently used first, and a hash map from
query words to list iterators. An iterator is the address of its list node, and every inserted node
gets a fresh address.

The representation invariant is `Cache.Wf`. Under it the cache is a recency list: `addElement` is
`Recency.add` on the nodes (`addElement_nodes`) and `get` is the lookup (`get_eq`). `writeToFile`
changes results, but no key and no place in the list (`writeToFile_places`).
-/

namespace SearchServer

structure CacheNode where
  queryWord : Bytes
  reuslt : Bytes
deriving DecidableEq

structure Cache where
  capacity : ℕ
  /-- The list nodes with their addresses. -/
  cacheList : List (ℕ × CacheNode)
  hashMap : Std.TreeMap Bytes ℕ
  /-- The address of the next node. -/
  fresh : ℕ

namespace Cache

def empty (capacity : ℕ) : Cache := ⟨capacity, [], ∅, 0⟩

/-- `_hashMap.erase(_cacheList.back()._queryWord)` and `_cacheList.pop_back()`. -/
def popBack (c : Cache) : Cache :=
  match c.cacheList.getLast? with
  | some (_, node) =>
    { c with hashMap := c.hashMap.erase node.queryWord, cacheList := c.cacheList.dropLast }
  | none => c

/-- `addElement`. The value of a key that is present stays as it is. -/
def addElement (c : Cache) (key value : Bytes) : Cache :=
  match c.hashMap[key]? with
  | none =>
    let c := if c.cacheList.length = c.capacity then c.popBack else c
    { c with
      cacheList := (c.fresh, ⟨key, value⟩) :: c.cacheList
      hashMap := c.hashMap.insertIfNew key c.fresh
      fresh := c.fresh + 1 }
  | some it =>
    { c with
      cacheList := c.cacheList.filter (·.1 = it) ++ c.cacheList.filter (·.1 ≠ it)
      hashMap := c.hashMap.insert key it }

/-- `get`. No value is returned if the iterator found is dangling. -/
def get (c : Cache) (queryWord : Bytes) : Option Bytes :=
  match c.hashMap[queryWord]? with
  | none => some (lit "-1")
  | some it => (c.cacheList.find? (·.1 = it)).map fun p => p.2.reuslt

/-- The loop body of `writeToFile` on one node: a final newline is cut off, in the list itself
(`auto & node`). `back()` of an empty result is undefined. -/
def trimNode (node : CacheNode) : Option CacheNode :=
  match node.reuslt.getLast? with
  | none => none
  | some b => some (if b = LF then { node with reuslt := node.reuslt.dropLast } else node)

/-- `writeToFile`: the cache afterwards and the text of the file. -/
def writeToFile (c : Cache) : Option (Cache × Bytes) := do
  let cacheList ← c.cacheList.mapM fun p => (trimNode p.2).map fun node => (p.1, node)
  return ({ c with cacheList := cacheList },
    cacheList.flatMap fun p => p.2.queryWord ++ lit " " ++ p.2.reuslt ++ [LF])

/-! ## The representation invariant -/

/-- Keys and addresses are distinct, and the hash map has exactly the keys of the list, each with
the address of its node. -/
structure Wf (c : Cache) : Prop where
  keys : (c.cacheList.map fun p => p.2.queryWord).Nodup
  addrs : (c.cacheList.map Prod.fst).Nodup
  fresh : ∀ p ∈ c.cacheList, p.1 < c.fresh
  hashMap : ∀ k it, c.hashMap[k]? = some it ↔ ∃ v, (it, ⟨k, v⟩) ∈ c.cacheList
  bounded : c.cacheList.length ≤ c.capacity
  pos : 0 < c.capacity

/-- The keys and values of the list. -/
def nodes (c : Cache) : List (Bytes × Bytes) := c.cacheList.map fun p => (p.2.queryWord, p.2.reuslt)

theorem wf_empty {capacity : ℕ} (h : 0 < capacity) : (empty capacity).Wf where
  keys := List.nodup_nil
  addrs := List.nodup_nil
  fresh := by simp [empty]
  hashMap := by simp [empty]
  bounded := Nat.zero_le _
  pos := h

theorem Wf.nodup_nodes {c : Cache} (h : c.Wf) : (c.nodes.map Prod.fst).Nodup := by
  rw [nodes, List.map_map]
  exact h.keys

theorem mem_nodes {c : Cache} {k v : Bytes} :
    (k, v) ∈ c.nodes ↔ ∃ it, (it, ⟨k, v⟩) ∈ c.cacheList := by
  simp only [nodes, List.mem_map, Prod.exists, Prod.mk.injEq]
  constructor
  · intro h
    obtain ⟨it, node, hmem, rfl, rfl⟩ := h
    exact ⟨it, hmem⟩
  · intro h
    obtain ⟨it, hmem⟩ := h
    exact ⟨it, _, hmem, rfl, rfl⟩

theorem filter_eq_singleton {α β : Type*} [DecidableEq β] {f : α → β} {l : List α}
    (hl : (l.map f).Nodup) {x : α} (hx : x ∈ l) : l.filter (fun y => f y = f x) = [x] := by
  obtain ⟨l₁, l₂, rfl⟩ := List.append_of_mem hx
  simp only [List.map_append, List.map_cons, List.nodup_append, List.nodup_cons, List.mem_map,
    List.mem_cons] at hl
  obtain ⟨-, ⟨hx₂, -⟩, h₁₂⟩ := hl
  have h₁ : l₁.filter (fun y => f y = f x) = [] := List.filter_eq_nil_iff.mpr fun y hy => by
    simpa using fun h => h₁₂ (f y) ⟨y, hy, rfl⟩ (f x) (Or.inl rfl) h
  have h₂ : l₂.filter (fun y => f y = f x) = [] := List.filter_eq_nil_iff.mpr fun y hy => by
    simpa using fun h => hx₂ ⟨y, hy, h⟩
  rw [List.filter_append, List.filter_cons_of_pos (by simp), h₁, h₂]
  rfl

/-- An iterator found in the hash map is the address of the node with that key, and of no other
node. -/
theorem Wf.exists_node {c : Cache} (h : c.Wf) {k : Bytes} {it : ℕ} (hit : c.hashMap[k]? = some it) :
    ∃ v, (it, ⟨k, v⟩) ∈ c.cacheList ∧ c.cacheList.filter (·.1 = it) = [(it, ⟨k, v⟩)] ∧
      ∀ p ∈ c.cacheList, p.1 = it ↔ p.2.queryWord = k := by
  obtain ⟨v, hv⟩ := (h.hashMap k it).mp hit
  refine ⟨v, hv, filter_eq_singleton h.addrs hv, fun p hp => ⟨fun hpit => ?_, fun hpk => ?_⟩⟩
  · have := List.inj_on_of_nodup_map h.addrs hp hv hpit
    rw [this]
  · have := List.inj_on_of_nodup_map h.keys hp hv hpk
    rw [this]

theorem Wf.lookup_eq_none {c : Cache} (h : c.Wf) {k : Bytes} (hk : c.hashMap[k]? = none) :
    ∀ p ∈ c.cacheList, p.2.queryWord ≠ k := by
  rintro ⟨it, node⟩ hp rfl
  have := (h.hashMap node.queryWord it).mpr ⟨node.reuslt, hp⟩
  rw [hk] at this
  cases this

/-- **`get` is the lookup** in the recency list. -/
theorem get_eq {c : Cache} (h : c.Wf) (k : Bytes) :
    c.get k = some ((c.nodes.lookup k).getD (lit "-1")) := by
  unfold get
  cases hk : c.hashMap[k]? with
  | none =>
    have : c.nodes.lookup k = none := Recency.lookup_eq_none_iff.mpr fun p hp => by
      obtain ⟨k', v⟩ := p
      obtain ⟨it, hit⟩ := mem_nodes.mp hp
      exact h.lookup_eq_none hk _ hit
    rw [this]
    rfl
  | some it =>
    obtain ⟨v, hv, hfilter, -⟩ := h.exists_node hk
    have hfind : c.cacheList.find? (·.1 = it) = some (it, ⟨k, v⟩) := by
      rw [← List.head?_filter, hfilter]
      rfl
    have hlookup := Recency.lookup_of_mem h.nodup_nodes (mem_nodes.mpr ⟨it, hv⟩)
    simp [hfind, hlookup]

/-! ## `addElement` refines the recency list -/

theorem Wf.popBack {c : Cache} (h : c.Wf) (hfull : c.cacheList.length = c.capacity) :
    c.popBack.Wf ∧ c.popBack.nodes = c.nodes.dropLast ∧
      c.popBack.cacheList.length < c.popBack.capacity ∧ c.popBack.fresh = c.fresh ∧
      c.popBack.capacity = c.capacity ∧
      ∀ k : Bytes, c.hashMap[k]? = none → c.popBack.hashMap[k]? = none := by
  obtain ⟨l, ⟨b, node⟩, hl⟩ := (List.eq_nil_or_concat' c.cacheList).resolve_left
    (fun hnil => by have := h.pos; simp [hnil] at hfull; omega)
  have hpop : c.popBack = { c with hashMap := c.hashMap.erase node.queryWord, cacheList := l } := by
    simp [Cache.popBack, hl]
  have hkeys := h.keys
  have haddrs := h.addrs
  rw [hl] at hkeys haddrs
  simp only [List.map_append, List.nodup_append, List.map_cons, List.map_nil] at hkeys haddrs
  rw [hpop]
  refine ⟨⟨hkeys.1, haddrs.1, fun p hp => h.fresh p (by simp [hl, hp]), fun k it => ?_,
    ?_, h.pos⟩, ?_, ?_, rfl, rfl, fun k hk => ?_⟩
  · -- The key of the last node is gone from both; the other keys stay.
    rw [Std.TreeMap.getElem?_erase]
    split_ifs with hk
    · rw [Std.compare_eq_iff_eq] at hk
      subst hk
      simp only [false_iff, not_exists]
      intro v hv
      exact hkeys.2.2 node.queryWord (List.mem_map.mpr ⟨_, hv, rfl⟩) _ (by simp) rfl
    · rw [h.hashMap k it, hl]
      refine exists_congr fun v => ?_
      simp only [List.mem_append, List.mem_singleton, Prod.mk.injEq, or_iff_left_iff_imp]
      intro h
      obtain ⟨-, rfl⟩ := h
      exact absurd (Std.compare_eq_iff_eq.mpr rfl) hk
  · have := h.bounded
    rw [hl] at this
    simp at this ⊢
    omega
  · simp [nodes, hl]
  · rw [hl] at hfull
    simp at hfull ⊢
    omega
  · rw [Std.TreeMap.getElem?_erase]
    split_ifs
    · rfl
    · exact hk

/-- Insertion of a new key into a cache that is not full. -/
theorem Wf.pushFront {c : Cache} (h : c.Wf) (hroom : c.cacheList.length < c.capacity)
    {key : Bytes} (hkey : c.hashMap[key]? = none) (value : Bytes) :
    Wf { c with
      cacheList := (c.fresh, ⟨key, value⟩) :: c.cacheList
      hashMap := c.hashMap.insertIfNew key c.fresh
      fresh := c.fresh + 1 } := by
  have hnot : key ∉ c.hashMap := fun hmem => by
    simp [Std.TreeMap.mem_iff_isSome_getElem?, hkey] at hmem
  refine ⟨List.nodup_cons.mpr ⟨?_, h.keys⟩, List.nodup_cons.mpr ⟨?_, h.addrs⟩, ?_, ?_, ?_, h.pos⟩
  · simpa using fun it node hp hk => h.lookup_eq_none hkey (it, node) hp hk
  · simpa using fun node hp => lt_irrefl _ (h.fresh (c.fresh, node) hp)
  · intro p hp
    rcases List.mem_cons.mp hp with rfl | hp
    · exact Nat.lt_succ_self _
    · exact (h.fresh p hp).trans (Nat.lt_succ_self _)
  · intro k it
    rw [Std.TreeMap.getElem?_insertIfNew]
    split_ifs with hk
    · obtain rfl : key = k := Std.compare_eq_iff_eq.mp hk.1
      simp only [List.mem_cons, Prod.mk.injEq, CacheNode.mk.injEq, true_and, Option.some.injEq]
      constructor
      · rintro rfl
        exact ⟨value, Or.inl ⟨rfl, rfl⟩⟩
      · rintro ⟨v, ⟨rfl, -⟩ | hmem⟩
        · rfl
        · exact absurd rfl (h.lookup_eq_none hkey _ hmem)
    · have hne : k ≠ key := fun hkk => hk ⟨Std.compare_eq_iff_eq.mpr hkk.symm, hnot⟩
      rw [h.hashMap k it]
      simp [hne]
  · simpa using hroom

theorem splice_perm (c : Cache) (it : ℕ) :
    (c.cacheList.filter (·.1 = it) ++ c.cacheList.filter (·.1 ≠ it)).Perm c.cacheList := by
  simpa using List.filter_append_perm (fun p : ℕ × CacheNode => decide (p.1 = it)) c.cacheList

/-- Moving the node with address `it` to the front. -/
theorem Wf.splice {c : Cache} (h : c.Wf) {key : Bytes} {it : ℕ} (hit : c.hashMap[key]? = some it) :
    Wf { c with
      cacheList := c.cacheList.filter (·.1 = it) ++ c.cacheList.filter (·.1 ≠ it)
      hashMap := c.hashMap.insert key it } := by
  have hperm := c.splice_perm it
  refine ⟨(hperm.map _).nodup_iff.mpr h.keys, (hperm.map _).nodup_iff.mpr h.addrs,
    fun p hp => h.fresh p (hperm.mem_iff.mp hp), fun k i => ?_, ?_, h.pos⟩
  · rw [Std.TreeMap.getElem?_insert]
    simp only [hperm.mem_iff]
    split_ifs with hk
    · obtain rfl : key = k := Std.compare_eq_iff_eq.mp hk
      rw [← h.hashMap, hit]
    · exact h.hashMap k i
  · rw [hperm.length_eq]
    exact h.bounded

theorem Wf.addElement {c : Cache} (h : c.Wf) (key value : Bytes) : (c.addElement key value).Wf := by
  unfold Cache.addElement
  cases hk : c.hashMap[key]? with
  | some it => exact h.splice hk
  | none =>
    dsimp only
    split_ifs with hfull
    · obtain ⟨hwf, -, hroom, -, -, hnone⟩ := h.popBack hfull
      exact hwf.pushFront hroom (hnone key hk) value
    · exact h.pushFront (lt_of_le_of_ne h.bounded hfull) hk value

/-- **`addElement` is `Recency.add`** on the nodes. -/
theorem addElement_nodes {c : Cache} (h : c.Wf) (key value : Bytes) :
    (c.addElement key value).nodes = Recency.add c.capacity c.nodes key value := by
  unfold Cache.addElement Recency.add
  cases hk : c.hashMap[key]? with
  | some it =>
    obtain ⟨v, hv, hfilter, hiff⟩ := h.exists_node hk
    rw [Recency.lookup_of_mem h.nodup_nodes (mem_nodes.mpr ⟨it, hv⟩)]
    have hrest : c.cacheList.filter (·.1 ≠ it) =
        c.cacheList.filter (fun p => p.2.queryWord != key) :=
      List.filter_congr fun p hp => by rw [Bool.eq_iff_iff]; simp [hiff p hp]
    simp only [nodes]
    rw [hfilter, hrest, List.filter_map]
    rfl
  | none =>
    have hnone : c.nodes.lookup key = none := Recency.lookup_eq_none_iff.mpr fun p hp => by
      obtain ⟨k', v⟩ := p
      obtain ⟨it, hit⟩ := mem_nodes.mp hp
      exact h.lookup_eq_none hk _ hit
    have hlen : c.nodes.length = c.cacheList.length := by simp [nodes]
    rw [hnone, hlen]
    dsimp only
    split_ifs with hfull
    · obtain ⟨-, hnodes, -⟩ := h.popBack hfull
      rw [← hnodes]
      rfl
    · rfl

theorem addElement_capacity {c : Cache} (h : c.Wf) (key value : Bytes) :
    (c.addElement key value).capacity = c.capacity := by
  unfold Cache.addElement
  cases hk : c.hashMap[key]? with
  | some it => rfl
  | none =>
    dsimp only
    split_ifs with hfull
    · exact (h.popBack hfull).2.2.2.2.1
    · rfl

/-- `addElement` for every node of a batch. -/
def addAll (c : Cache) (batch : List CacheNode) : Cache :=
  batch.foldl (fun c node => c.addElement node.queryWord node.reuslt) c

theorem Wf.addAll {c : Cache} (h : c.Wf) (batch : List CacheNode) :
    (c.addAll batch).Wf ∧ (c.addAll batch).capacity = c.capacity ∧
      (c.addAll batch).nodes = (batch.map fun node => (node.queryWord, node.reuslt)).foldl
        (fun l p => Recency.add c.capacity l p.1 p.2) c.nodes := by
  induction batch generalizing c with
  | nil => exact ⟨h, rfl, rfl⟩
  | cons node batch ih =>
    obtain ⟨hwf, hcap, hnodes⟩ := ih (h.addElement node.queryWord node.reuslt)
    rw [addElement_capacity h] at hcap hnodes
    rw [addElement_nodes h] at hnodes
    exact ⟨hwf, hcap, hnodes⟩

/-! ## The keys -/

/-- The keys of the list, most recently used first. -/
def keys (c : Cache) : List Bytes := c.cacheList.map fun p => p.2.queryWord

theorem map_fst_nodes (c : Cache) : c.nodes.map Prod.fst = c.keys := by
  rw [nodes, keys, List.map_map]
  rfl

theorem addAll_append (c : Cache) (as bs : List CacheNode) :
    c.addAll (as ++ bs) = (c.addAll as).addAll bs :=
  List.foldl_append

/-- The addresses with their keys: what is left of the list when the results are forgotten. -/
def places (c : Cache) : List (ℕ × Bytes) := c.cacheList.map fun p => (p.1, p.2.queryWord)

theorem mem_places {c : Cache} {it : ℕ} {k : Bytes} :
    (it, k) ∈ c.places ↔ ∃ v, (it, ⟨k, v⟩) ∈ c.cacheList := by
  simp only [places, List.mem_map, Prod.exists, Prod.mk.injEq]
  apply Iff.intro
  · intro ⟨it', node, hmem, hit, hk⟩
    obtain rfl := hit
    obtain rfl := hk
    exact ⟨node.reuslt, hmem⟩
  · intro ⟨v, hmem⟩
    exact ⟨it, _, hmem, rfl, rfl⟩

theorem map_fst_places (c : Cache) : c.places.map Prod.fst = c.cacheList.map Prod.fst := by
  rw [places, List.map_map]
  rfl

theorem keys_eq_places (c : Cache) : c.keys = c.places.map Prod.snd := by
  rw [keys, places, List.map_map]
  rfl

/-! ## `writeToFile` -/

theorem queryWord_trimNode {node node' : CacheNode} (h : trimNode node = some node') :
    node'.queryWord = node.queryWord := by
  unfold trimNode at h
  split at h
  · cases h
  · obtain rfl := Option.some.inj h
    split_ifs <;> rfl

theorem trimNode_of_ne {node node' : CacheNode} (h : trimNode node = some node')
    (hlf : node.reuslt.getLast? ≠ some LF) : node' = node := by
  unfold trimNode at h
  split at h
  · cases h
  · rename_i b hb
    have hbne : b ≠ LF := fun hbl => hlf (hb.trans (congrArg some hbl))
    simpa [hbne] using h.symm

/-- The text has what the nodes are afterwards. -/
theorem writeToFile_eq_some {c c' : Cache} {text : Bytes} (h : c.writeToFile = some (c', text)) :
    ∃ l, c' = { c with cacheList := l } ∧
      text = l.flatMap (fun p => p.2.queryWord ++ lit " " ++ p.2.reuslt ++ [LF]) ∧
      List.Forall₂ (fun p q => q.1 = p.1 ∧ trimNode p.2 = some q.2) c.cacheList l := by
  obtain ⟨l, hl, hpure⟩ := Option.bind_eq_some_iff.mp h
  obtain ⟨rfl, rfl⟩ := Prod.mk.inj (Option.some.inj hpure)
  refine ⟨l, rfl, rfl, (forall₂_of_mapM hl).imp fun p q hpq => ?_⟩
  obtain ⟨node, hnode, rfl⟩ := Option.map_eq_some_iff.mp hpq
  exact ⟨rfl, hnode⟩

/-- `writeToFile` changes results only. -/
theorem writeToFile_places {c c' : Cache} {text : Bytes} (h : c.writeToFile = some (c', text)) :
    c'.places = c.places ∧ c'.hashMap = c.hashMap ∧ c'.capacity = c.capacity ∧
      c'.fresh = c.fresh := by
  obtain ⟨l, rfl, -, hl⟩ := writeToFile_eq_some h
  refine ⟨?_, rfl, rfl, rfl⟩
  unfold places
  dsimp only
  clear h
  generalize c.cacheList = before at hl
  induction hl with
  | nil => rfl
  | cons hpq _ ih => rw [List.map_cons, List.map_cons, ih, hpq.1, queryWord_trimNode hpq.2]

theorem Wf.writeToFile {c c' : Cache} {text : Bytes} (h : c.Wf)
    (hwrite : c.writeToFile = some (c', text)) : c'.Wf := by
  obtain ⟨hplaces, hmap, hcap, hfresh⟩ := writeToFile_places hwrite
  have hlen : ∀ c : Cache, c.cacheList.length = c.places.length := fun c => by
    rw [places, List.length_map]
  exact {
    keys := by
      show c'.keys.Nodup
      rw [keys_eq_places, hplaces, ← keys_eq_places]
      exact h.keys
    addrs := by
      rw [← map_fst_places, hplaces, map_fst_places]
      exact h.addrs
    fresh := by
      intro ⟨it, node⟩ hp
      have hmem : (it, node.queryWord) ∈ c.places := by
        rw [← hplaces]
        exact mem_places.mpr ⟨node.reuslt, hp⟩
      obtain ⟨v, hv⟩ := mem_places.mp hmem
      have hlt := h.fresh _ hv
      rwa [hfresh]
    hashMap := by
      intro k it
      rw [hmap, h.hashMap k it, ← mem_places, ← mem_places, hplaces]
    bounded := by
      rw [hlen, hplaces, ← hlen, hcap]
      exact h.bounded
    pos := by
      rw [hcap]
      exact h.pos }

/-- The second result is the first one without its last newline. -/
def Trimmed (v v' : Bytes) : Prop := v' = v ∧ v.getLast? ≠ some LF ∨ v = v' ++ [LF]

theorem trimmed_trimNode {node node' : CacheNode} (h : trimNode node = some node') :
    Trimmed node.reuslt node'.reuslt := by
  unfold trimNode at h
  split at h
  · cases h
  · rename_i b hlast
    obtain rfl := Option.some.inj h
    split_ifs with hlf
    · subst hlf
      obtain ⟨ret, hret⟩ := List.getLast?_eq_some_iff.mp hlast
      refine Or.inr ?_
      rw [hret, List.dropLast_concat]
    · refine Or.inl ⟨rfl, ?_⟩
      rw [hlast]
      exact fun heq => hlf (Option.some.inj heq)

theorem writeToFile_nodes {c c' : Cache} {text : Bytes} (h : c.writeToFile = some (c', text)) :
    Recency.Related Trimmed c.nodes c'.nodes := by
  obtain ⟨l, rfl, -, hl⟩ := writeToFile_eq_some h
  apply List.forall₂_map_left_iff.mpr
  apply List.forall₂_map_right_iff.mpr
  exact hl.imp fun p p' hp => ⟨(queryWord_trimNode hp.2).symm, trimmed_trimNode hp.2⟩

/-- `ret` is `full` without some of the newlines at its end. -/
def CutFrom (full ret : Bytes) : Prop := ∃ k, full = ret ++ List.replicate k LF

theorem CutFrom.refl (ret : Bytes) : CutFrom ret ret := ⟨0, by simp⟩

theorem CutFrom.trimmed {full ret ret' : Bytes} (h : CutFrom full ret) (h' : Trimmed ret ret') :
    CutFrom full ret' := by
  obtain ⟨rfl, -⟩ | rfl := h'
  · exact h
  · obtain ⟨k, rfl⟩ := h
    refine ⟨k + 1, ?_⟩
    rw [List.append_assoc, List.singleton_append, List.replicate_succ]

/-- When no result ends in a newline, `writeToFile` leaves the cache as it is. -/
theorem writeToFile_unchanged {c c' : Cache} {text : Bytes} (h : c.writeToFile = some (c', text))
    (hlf : ∀ p ∈ c.cacheList, p.2.reuslt.getLast? ≠ some LF) : c' = c := by
  obtain ⟨l, rfl, -, hl⟩ := writeToFile_eq_some h
  have key : l = c.cacheList := by
    clear h
    generalize c.cacheList = before at hl hlf
    induction hl with
    | nil => rfl
    | cons hpq _ ih =>
      obtain ⟨hp, hrest⟩ := List.forall_mem_cons.mp hlf
      rw [ih hrest, Prod.ext hpq.1 (trimNode_of_ne hpq.2 hp)]
  rw [key]

end Cache

end SearchServer

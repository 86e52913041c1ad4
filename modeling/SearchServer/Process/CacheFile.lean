import SearchServer.Lib.Runs
import SearchServer.Process.Cache

/-!
# Reading a cache file

`Cache::readFromFile` (`process/Cache.cc`) puts the words of a file into the list and the hash map,
two words a node. It does not go through `addElement`, so it looks neither at the capacity nor at the
keys that are already there. Its loop tests the stream before the reads and not after: the reads that
fail at the end of the file still add a node, with the words that the two strings had before.

**Theorem (`consistent_iff_readable`).** The operations keep the cache consistent exactly if each
file that is read has an odd number of words, three at least, its keys are distinct and new, and the
cache has room for them; and each cache that is written has no empty result.

With an even number of words the last pair is added twice. `not_consistent_written` is the file that
`writeToFile` makes of a cache with one short result.
-/

namespace SearchServer

namespace Cache

/-- The loop of `readFromFile` on the words that are left, with the strings `key` and `value` of the
round before. A read that fails leaves its string alone, and the loop ends after that round. The
test of the last byte of an empty `value` is undefined. -/
def readNodes (key value : Bytes) : List Bytes → Option (List CacheNode)
  | [] => (trimNode ⟨key, value⟩).map fun node => [node]
  | [key] => (trimNode ⟨key, value⟩).map fun node => [node]
  | key :: value :: words => do
    let node ← trimNode ⟨key, value⟩
    let nodes ← readNodes node.queryWord node.reuslt words
    return node :: nodes

/-- `_cacheList.push_back(node)` and `_hashMap[key] = --_cacheList.end()`. -/
def pushBack (c : Cache) (node : CacheNode) : Cache :=
  { c with
    cacheList := c.cacheList ++ [(c.fresh, node)]
    hashMap := c.hashMap.insert node.queryWord c.fresh
    fresh := c.fresh + 1 }

/-- `readFromFile` on the text of a file, or on a file that cannot be opened. -/
def readFromFile (c : Cache) (file : Option Bytes) : Option Cache :=
  match file with
  | none => some c
  | some text => (readNodes [] [] (tokens text)).map fun nodes => nodes.foldl pushBack c

/-- The public operations. -/
inductive Op where
  | addElement (key value : Bytes)
  | get (queryWord : Bytes)
  /-- `opened`: whether the file can be opened. -/
  | writeToFile (opened : Bool)
  /-- `file`: the text of the file, if it can be opened. -/
  | readFromFile (file : Option Bytes)

/-- The cache after an operation, and `none` if the operation is undefined on it. -/
def apply (c : Cache) : Op → Option Cache
  | .addElement key value => some (c.addElement key value)
  | .get queryWord => (c.get queryWord).map fun _ => c
  | .writeToFile opened => if opened then c.writeToFile.map Prod.fst else some c
  | .readFromFile file => c.readFromFile file

/-- One operation. There is no cache any more after one that is undefined. -/
def step (s : Option Cache) (op : Op) : Option (Option Cache) := some (s.bind fun c => c.apply op)

/-- The list is not too long and has no key twice, and the hash map has the keys of the list, each
with the address of its node. -/
structure Consistent (c : Cache) : Prop where
  bounded : c.cacheList.length ≤ c.capacity
  keys : c.keys.Nodup
  hashMap : ∀ k it, c.hashMap[k]? = some it ↔ ∃ v, (it, ⟨k, v⟩) ∈ c.cacheList

def ConsistentState (s : Option Cache) : Prop := ∃ c, s = some c ∧ c.Consistent

/-- The keys in a file: every other word. -/
def fileKeys : List Bytes → List Bytes
  | [] => []
  | [key] => [key]
  | key :: _ :: words => key :: fileKeys words

/-- A file that can be read into this cache. -/
def Readable (c : Cache) (text : Bytes) : Prop :=
  (tokens text).length % 2 = 1 ∧ 3 ≤ (tokens text).length ∧
    (c.keys ++ fileKeys (tokens text)).Nodup ∧
    (c.keys ++ fileKeys (tokens text)).length ≤ c.capacity

/-- The files that the operation reads can be read, and the results that it writes are not empty. -/
def OpReadable (s : Option Cache) (op : Op) : Prop :=
  ∀ c, s = some c → match op with
    | .writeToFile true => ∀ p ∈ c.cacheList, p.2.reuslt ≠ []
    | .readFromFile (some text) => c.Readable text
    | _ => True

/-! ## The words of a file -/

/-- A string that is not changed when it is read as a value. -/
def IsValue (w : Bytes) : Prop := w ≠ [] ∧ w.getLast? ≠ some LF

theorem trimNode_of_isValue {key value : Bytes} (h : IsValue value) :
    trimNode ⟨key, value⟩ = some ⟨key, value⟩ := by
  unfold trimNode
  rw [List.getLast?_eq_some_getLast h.1]
  have hlast : value.getLast h.1 ≠ LF := by
    intro heq
    exact h.2 (by rw [List.getLast?_eq_some_getLast h.1, heq])
  simp [hlast]

theorem isValue_of_mem_tokens {text w : Bytes} (h : w ∈ tokens text) : IsValue w := by
  refine ⟨ne_nil_of_mem_tokens h, fun hlast => ?_⟩
  have hsp := isspace_of_mem_tokens h (List.mem_of_getLast? hlast)
  exact absurd hsp (by decide)

/-- The keys of the nodes that the loop adds. When the words come out even, it adds a node once
more. -/
theorem readNodes_keys {words : List Bytes} (hwords : ∀ w ∈ words, IsValue w) (key : Bytes)
    {value : Bytes} (hvalue : IsValue value) :
    ∃ nodes, readNodes key value words = some nodes ∧
      (words.length % 2 = 1 ∧ nodes.map CacheNode.queryWord = fileKeys words ∨
        words.length % 2 = 0 ∧ ∃ k ∈ key :: fileKeys words,
          nodes.map CacheNode.queryWord = fileKeys words ++ [k]) := by
  induction words using fileKeys.induct generalizing key value with
  | case1 =>
    refine ⟨[⟨key, value⟩], by simp [readNodes, trimNode_of_isValue hvalue], Or.inr ⟨rfl, ?_⟩⟩
    exact ⟨key, List.mem_cons_self, rfl⟩
  | case2 k =>
    exact ⟨[⟨k, value⟩], by simp [readNodes, trimNode_of_isValue hvalue], Or.inl ⟨rfl, rfl⟩⟩
  | case3 k v words ih =>
    have hv : IsValue v := hwords v (by simp)
    obtain ⟨nodes, hnodes, hkeys⟩ := ih (fun w hw => hwords w (by simp [hw])) k hv
    have hparity : (k :: v :: words).length % 2 = words.length % 2 := by
      simp only [List.length_cons]
      omega
    refine ⟨⟨k, v⟩ :: nodes, by simp [readNodes, trimNode_of_isValue hv, hnodes], ?_⟩
    rw [hparity, List.map_cons]
    refine hkeys.imp (fun h => ⟨h.1, ?_⟩) fun h => ⟨h.1, ?_⟩
    · rw [h.2, fileKeys]
    · obtain ⟨-, last, hlast, heq⟩ := h
      exact ⟨last, List.mem_cons_of_mem _ hlast, by rw [heq, fileKeys, List.cons_append]⟩

/-- With fewer than two words, `value` is empty when its last byte is tested. -/
theorem readNodes_eq_none {text : Bytes} (h : (tokens text).length < 2) :
    readNodes [] [] (tokens text) = none := by
  match hws : tokens text with
  | [] => rfl
  | [k] => rfl
  | k :: v :: words =>
    rw [hws, List.length_cons, List.length_cons] at h
    omega

/-- With two words or more, the loop adds the keys of the file, and the last one again if the number
of words is even. -/
theorem readNodes_file {text : Bytes} (h : 2 ≤ (tokens text).length) :
    ∃ nodes, readNodes [] [] (tokens text) = some nodes ∧
      ((tokens text).length % 2 = 1 ∧ nodes.map CacheNode.queryWord = fileKeys (tokens text) ∨
        (tokens text).length % 2 = 0 ∧ ∃ k ∈ fileKeys (tokens text),
          nodes.map CacheNode.queryWord = fileKeys (tokens text) ++ [k]) := by
  have hwords : ∀ w ∈ tokens text, IsValue w := fun w hw => isValue_of_mem_tokens hw
  match hws : tokens text with
  | [] => simp [hws] at h
  | [k] => simp [hws] at h
  | k :: v :: words =>
    rw [hws] at hwords
    have hv : IsValue v := hwords v (by simp)
    -- The strings from the round before are not used when there are two words.
    obtain ⟨nodes, hnodes, hkeys⟩ := readNodes_keys hwords k hv
    refine ⟨nodes, hnodes, hkeys.imp_right fun h => ⟨h.1, ?_⟩⟩
    obtain ⟨-, last, hlast, heq⟩ := h
    refine ⟨last, ?_, heq⟩
    rcases List.mem_cons.mp hlast with rfl | hlast
    · exact List.mem_cons_self
    · exact hlast

/-! ## The invariant -/

/-- What every operation keeps, on a consistent cache or not: the addresses are those of different
nodes. -/
structure Placed (c : Cache) : Prop where
  addrs : (c.cacheList.map Prod.fst).Nodup
  fresh : ∀ p ∈ c.cacheList, p.1 < c.fresh
  pos : 0 < c.capacity

theorem wf_iff {c : Cache} : c.Wf ↔ c.Placed ∧ c.Consistent := by
  apply Iff.intro
  · intro h
    exact ⟨⟨h.addrs, h.fresh, h.pos⟩, ⟨h.bounded, h.keys, h.hashMap⟩⟩
  · intro ⟨hplaced, hcons⟩
    exact ⟨hcons.keys, hplaced.addrs, hplaced.fresh, hcons.hashMap, hcons.bounded, hplaced.pos⟩

theorem Placed.of_sublist {c c' : Cache} (h : c.Placed) (hsub : c'.cacheList.Sublist c.cacheList)
    (hfresh : c'.fresh = c.fresh) (hcap : c'.capacity = c.capacity) : c'.Placed where
  addrs := h.addrs.sublist (hsub.map _)
  fresh := by
    intro p hp
    rw [hfresh]
    exact h.fresh p (hsub.subset hp)
  pos := by
    rw [hcap]
    exact h.pos

theorem Placed.insert {c c' : Cache} (h : c.Placed) {node : CacheNode}
    (hperm : c'.cacheList.Perm ((c.fresh, node) :: c.cacheList)) (hfresh : c'.fresh = c.fresh + 1)
    (hcap : c'.capacity = c.capacity) : c'.Placed where
  addrs := by
    rw [(hperm.map Prod.fst).nodup_iff, List.map_cons, List.nodup_cons]
    refine ⟨?_, h.addrs⟩
    intro hmem
    obtain ⟨p, hp, hpf⟩ := List.mem_map.mp hmem
    exact absurd (h.fresh p hp) (by omega)
  fresh := by
    intro p hp
    rw [hfresh]
    rcases List.mem_cons.mp (hperm.mem_iff.mp hp) with rfl | hp
    · exact Nat.lt_succ_self _
    · exact (h.fresh p hp).trans (Nat.lt_succ_self _)
  pos := by
    rw [hcap]
    exact h.pos

theorem Placed.popBack {c : Cache} (h : c.Placed) : c.popBack.Placed := by
  unfold Cache.popBack
  split
  · exact h.of_sublist (List.dropLast_sublist _) rfl rfl
  · exact h

theorem Placed.addElement {c : Cache} (h : c.Placed) (key value : Bytes) :
    (c.addElement key value).Placed := by
  unfold Cache.addElement
  cases c.hashMap[key]? with
  | none =>
    dsimp only
    split_ifs
    · exact h.popBack.insert (.refl _) rfl rfl
    · exact h.insert (.refl _) rfl rfl
  | some it =>
    have hperm := c.splice_perm it
    exact {
      addrs := (hperm.map _).nodup_iff.mpr h.addrs
      fresh := fun p hp => h.fresh p (hperm.mem_iff.mp hp)
      pos := h.pos }

theorem Placed.writeToFile {c c' : Cache} {text : Bytes} (h : c.Placed)
    (hwrite : c.writeToFile = some (c', text)) : c'.Placed := by
  obtain ⟨hplaces, -, hcap, hfresh⟩ := writeToFile_places hwrite
  have haddrs : c'.cacheList.map Prod.fst = c.cacheList.map Prod.fst := by
    rw [← map_fst_places, hplaces, map_fst_places]
  refine ⟨haddrs ▸ h.addrs, fun p hp => ?_, hcap ▸ h.pos⟩
  have hmem : p.1 ∈ c.cacheList.map Prod.fst := haddrs ▸ List.mem_map_of_mem hp
  obtain ⟨q, hq, hqp⟩ := List.mem_map.mp hmem
  rw [hfresh, ← hqp]
  exact h.fresh q hq

theorem Placed.pushBack {c : Cache} (h : c.Placed) (node : CacheNode) : (c.pushBack node).Placed :=
  h.insert (List.perm_append_singleton _ _) rfl rfl

theorem Placed.readNodes {c : Cache} (h : c.Placed) (nodes : List CacheNode) :
    (nodes.foldl Cache.pushBack c).Placed := by
  induction nodes generalizing c with
  | nil => exact h
  | cons node nodes ih => exact ih (h.pushBack node)

/-! ## The consistency of the cache -/

theorem Wf.pushBack {c : Cache} (h : c.Wf) {node : CacheNode} (hkey : node.queryWord ∉ c.keys)
    (hroom : c.cacheList.length < c.capacity) : (c.pushBack node).Wf := by
  refine wf_iff.mpr ⟨(wf_iff.mp h).1.pushBack node, ?_, ?_, ?_⟩
  · show (c.cacheList ++ [_]).length ≤ c.capacity
    rw [List.length_append, List.length_singleton]
    omega
  · show ((c.cacheList ++ [(c.fresh, node)]).map fun p => p.2.queryWord).Nodup
    rw [List.map_append, List.nodup_append]
    refine ⟨h.keys, List.nodup_singleton _, ?_⟩
    intro a ha b hb hab
    rw [List.map_singleton, List.mem_singleton] at hb
    rw [hab, hb] at ha
    exact hkey ha
  · intro k it
    simp only [Cache.pushBack, Std.TreeMap.getElem?_insert, List.mem_append, List.mem_singleton,
      Prod.mk.injEq]
    split_ifs with hk
    · obtain rfl : node.queryWord = k := Std.compare_eq_iff_eq.mp hk
      apply Iff.intro
      · intro hit
        exact ⟨node.reuslt, Or.inr ⟨(Option.some.inj hit).symm, rfl⟩⟩
      · intro ⟨v, hv⟩
        rcases hv with hv | ⟨rfl, -⟩
        · exact absurd (List.mem_map_of_mem (f := fun p : ℕ × CacheNode => p.2.queryWord) hv) hkey
        · rfl
    · rw [h.hashMap k it]
      refine exists_congr fun v => (or_iff_left ?_).symm
      intro ⟨_, hnode⟩
      exact hk (Std.compare_eq_iff_eq.mpr (by rw [← hnode]))

theorem keys_pushBacks (c : Cache) (nodes : List CacheNode) :
    (nodes.foldl Cache.pushBack c).keys = c.keys ++ nodes.map CacheNode.queryWord ∧
      (nodes.foldl Cache.pushBack c).capacity = c.capacity := by
  induction nodes generalizing c with
  | nil => exact ⟨(List.append_nil _).symm, rfl⟩
  | cons node nodes ih =>
    obtain ⟨hkeys, hcap⟩ := ih (c.pushBack node)
    refine ⟨?_, hcap⟩
    have hkeys' : (c.pushBack node).keys = c.keys ++ [node.queryWord] := by
      simp [Cache.keys, Cache.pushBack]
    rw [List.foldl_cons, hkeys, hkeys', List.append_assoc]
    rfl

theorem length_keys (c : Cache) : c.keys.length = c.cacheList.length := List.length_map _

/-- Nodes put at the end keep the cache consistent exactly if their keys are distinct and new, and
there is room. -/
theorem consistent_pushBacks_iff {c : Cache} (h : c.Wf) (nodes : List CacheNode) :
    (nodes.foldl Cache.pushBack c).Consistent ↔
      (c.keys ++ nodes.map CacheNode.queryWord).Nodup ∧
        (c.keys ++ nodes.map CacheNode.queryWord).length ≤ c.capacity := by
  apply Iff.intro
  · intro hcons
    obtain ⟨hkeys, hcap⟩ := keys_pushBacks c nodes
    rw [← hkeys, ← hcap, length_keys]
    exact ⟨hcons.keys, hcons.bounded⟩
  · intro hroom
    refine (wf_iff.mp ?_).2
    induction nodes generalizing c with
    | nil => exact h
    | cons node nodes ih =>
      obtain ⟨hnodup, hle⟩ := hroom
      rw [List.map_cons, ← List.singleton_append, ← List.append_assoc] at hnodup hle
      have hkeys : (c.pushBack node).keys = c.keys ++ [node.queryWord] := (keys_pushBacks c [node]).1
      have hnew : node.queryWord ∉ c.keys := by
        intro hmem
        exact (List.nodup_append.mp (List.nodup_append.mp hnodup).1).2.2 _ hmem _
          (List.mem_singleton_self _) rfl
      have hlt : c.cacheList.length < c.capacity := by
        rw [← length_keys]
        simp only [List.length_append, List.length_singleton] at hle
        omega
      exact ih (h.pushBack hnew hlt) (hkeys ▸ ⟨hnodup, hle⟩)

/-- **Reading a file** is defined and keeps the cache consistent exactly if the file is readable. -/
theorem consistent_readFromFile_iff {c : Cache} (h : c.Wf) (text : Bytes) :
    ConsistentState (c.readFromFile (some text)) ↔ c.Readable text := by
  unfold ConsistentState Readable readFromFile
  by_cases hlen : (tokens text).length < 2
  · refine iff_of_false (fun hstate => ?_) (fun hread => ?_)
    · simp [readNodes_eq_none hlen] at hstate
    · omega
  · obtain ⟨nodes, hnodes, hkeys⟩ := readNodes_file (Nat.le_of_not_lt hlen)
    simp only [hnodes, Option.map_some, Option.some.injEq, exists_eq_left']
    rw [consistent_pushBacks_iff h]
    rcases hkeys with ⟨hodd, hkeys⟩ | ⟨heven, k, hk, hkeys⟩
    · rw [hkeys]
      exact ⟨fun hroom => ⟨hodd, by omega, hroom⟩, fun hread => hread.2.2⟩
    · -- The key added last is in the list already.
      refine iff_of_false (fun hroom => ?_) (fun hread => by omega)
      rw [hkeys] at hroom
      have hnodup := (List.nodup_append.mp hroom.1).2.1
      exact (List.nodup_append.mp hnodup).2.2 k hk k (List.mem_singleton_self _) rfl

theorem writeToFile_isSome_iff (c : Cache) :
    c.writeToFile.isSome ↔ ∀ p ∈ c.cacheList, p.2.reuslt ≠ [] := by
  have htrim : ∀ node : CacheNode, (trimNode node).isSome ↔ node.reuslt ≠ [] := by
    intro node
    unfold trimNode
    cases hlast : node.reuslt.getLast? with
    | none => simpa using hlast
    | some b =>
      have hne : node.reuslt ≠ [] := by
        intro hnil
        simp [hnil] at hlast
      simp [hne]
  have key : ∀ l : List (ℕ × CacheNode),
      (l.mapM fun p => (trimNode p.2).map fun node => (p.1, node)).isSome ↔
        ∀ p ∈ l, p.2.reuslt ≠ [] := by
    intro l
    induction l with
    | nil => simp
    | cons p l ih =>
      rw [List.forall_mem_cons, ← ih, ← htrim p.2, List.mapM_cons]
      cases trimNode p.2 with
      | none => simp
      | some node =>
        cases l.mapM fun p => (trimNode p.2).map fun node => (p.1, node) <;> simp
  rw [← key]
  unfold Cache.writeToFile
  cases c.cacheList.mapM fun p => (trimNode p.2).map fun node => (p.1, node) <;> simp

theorem placed_apply {c c' : Cache} (h : c.Placed) {op : Op} (happly : c.apply op = some c') :
    c'.Placed := by
  cases op with
  | addElement key value =>
    cases happly
    exact h.addElement key value
  | get queryWord =>
    obtain ⟨_, -, rfl⟩ := Option.map_eq_some_iff.mp happly
    exact h
  | writeToFile opened =>
    simp only [apply] at happly
    split_ifs at happly
    · obtain ⟨⟨c'', text⟩, hwrite, rfl⟩ := Option.map_eq_some_iff.mp happly
      exact h.writeToFile hwrite
    · cases happly
      exact h
  | readFromFile file =>
    cases file with
    | none =>
      cases happly
      exact h
    | some text =>
      obtain ⟨nodes, -, rfl⟩ := Option.map_eq_some_iff.mp happly
      exact h.readNodes nodes

/-- An operation on a well-formed cache is defined and keeps it consistent exactly if what it reads
or writes is readable. -/
theorem consistent_apply_iff {c : Cache} (h : c.Wf) (op : Op) :
    ConsistentState (c.apply op) ↔ OpReadable (some c) op := by
  have hcons {c' : Cache} (h' : c'.Wf) : ConsistentState (some c') := ⟨c', rfl, (wf_iff.mp h').2⟩
  unfold OpReadable
  simp only [Option.some.injEq, forall_eq']
  cases op with
  | addElement key value => exact iff_of_true (hcons (h.addElement key value)) trivial
  | get queryWord =>
    rw [apply, get_eq h]
    exact iff_of_true (hcons h) trivial
  | writeToFile opened =>
    cases opened with
    | false => exact iff_of_true (hcons h) trivial
    | true =>
      dsimp only
      rw [← writeToFile_isSome_iff, apply, if_pos rfl]
      cases hwrite : c.writeToFile with
      | none => exact iff_of_false (fun ⟨_, hnone, _⟩ => nomatch hnone) (by simp)
      | some p =>
        obtain ⟨written, text⟩ := p
        exact iff_of_true (hcons (h.writeToFile hwrite)) rfl
  | readFromFile file =>
    cases file with
    | none => exact iff_of_true (hcons h) trivial
    | some text => exact consistent_readFromFile_iff h text

/-- **Consistency.** From an empty cache, a sequence of operations keeps the cache consistent
throughout exactly if it reads only readable files and writes only results that are not empty. -/
theorem consistent_iff_readable {capacity : ℕ} (hcap : 0 < capacity) {t : Option Cache}
    {tr : List (Option Cache × Op)} (hrun : Run step (some (.empty capacity)) tr t) :
    ((∀ p ∈ tr, ConsistentState p.1) ∧ ConsistentState t) ↔ ∀ p ∈ tr, OpReadable p.1 p.2 := by
  have hempty := wf_iff.mp (wf_empty hcap)
  refine hrun.throughout_iff (I := fun s => ∀ c, s = some c → c.Placed) ?_ ?_
    (fun c hc => Option.some.inj hc ▸ hempty.1) ⟨_, rfl, hempty.2⟩
  · intro s op t hs hstep c' hc'
    obtain rfl := Option.some.inj hstep
    obtain ⟨c, hc, happly⟩ := Option.bind_eq_some_iff.mp hc'
    exact placed_apply (hs c hc) happly
  · intro s op t hs hcons hstep
    obtain rfl := Option.some.inj hstep
    obtain ⟨c, rfl, hcons⟩ := hcons
    exact consistent_apply_iff (wf_iff.mpr ⟨hs c rfl, hcons⟩) op

instance (c : Cache) (text : Bytes) : Decidable (c.Readable text) :=
  inferInstanceAs (Decidable (_ ∧ _ ∧ _ ∧ _))

/-- A file with three words is read after one node has been added. -/
theorem consistent_threeWords :
    ConsistentState (some ((Cache.empty 4).addElement (lit "cat") (lit "1"))) ∧
      ((((Cache.empty 4).addElement (lit "cat") (lit "1")).readFromFile
        (some (lit "dog 2 cow"))).map keys = some [lit "cat", lit "dog", lit "cow"]) := by
  have hexec : exec step (some (.empty 4)) [.addElement (lit "cat") (lit "1"),
    .readFromFile (some (lit "dog 2 cow"))] = some _ := rfl
  have hall := (consistent_iff_readable (by decide) (run_trace hexec)).mpr ?_
  · exact ⟨hall.1 _ (List.mem_cons_of_mem _ List.mem_cons_self), by decide +kernel⟩
  · intro p hp
    rcases List.mem_cons.mp hp with rfl | hp
    · exact fun _ _ => trivial
    · obtain rfl := List.mem_singleton.mp hp
      intro c hc
      obtain rfl := Option.some.inj hc
      decide +kernel

/-- A cache with one result of one word is written. When its file is read, the key is there twice. -/
theorem not_consistent_written :
    ((Cache.empty 4).addElement (lit "cat") (lit "1")).writeToFile.map Prod.snd =
        some (lit "cat 1\n") ∧
      ∃ tr t, Run step (some (.empty 4)) tr t ∧
        tr.map Prod.snd = [.readFromFile (some (lit "cat 1\n"))] ∧ ¬ ConsistentState t := by
  have hexec : exec step (some (.empty 4)) [.readFromFile (some (lit "cat 1\n"))] = some _ := rfl
  refine ⟨by decide +kernel, _, _, run_trace hexec, rfl, ?_⟩
  intro ⟨c, hc, hcons⟩
  have hkeys : c.keys = [lit "cat", lit "cat"] := by
    have hmap : ((Cache.empty 4).readFromFile (some (lit "cat 1\n"))).map keys =
        some [lit "cat", lit "cat"] := by decide +kernel
    exact Option.some.inj ((congrArg (Option.map keys) hc).symm.trans hmap)
  have hnodup := hcons.keys
  rw [hkeys] at hnodup
  exact absurd hnodup (by decide)

end Cache

end SearchServer

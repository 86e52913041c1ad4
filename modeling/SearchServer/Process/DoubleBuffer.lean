import SearchServer.Process.MyCache

/-!
# The two replicas of the cache

`MyCache` keeps two caches with the same contents: queries read one while the cache thread updates
the other, then the thread swaps them and applies the same nodes to the second one. Here the caches
run together with any number of threads that write nodes and read words; `MyCache::read` looks the
word up under one lock and writes a node for a hit under the other, so these are two steps.

The state records the nodes pushed by `write`, those the cache thread has swapped out, and those
applied to each replica. `Inv` says for each place in the loop of the thread how these four
sequences are related.

**Theorem (`replicas_agree`).** The nodes are swapped out in the order in which they were written.
Each replica has got a prefix of them, every node once, and has the results that these lead to, but
for newlines that `writeToFile` cut off; after a round both have got all of them, and have the same
keys in the same order. A read sees the keys that a prefix leads to, and later reads
see longer prefixes.
-/

namespace SearchServer

/-- The caches, with the threads between the two halves of `read`, and the history of the nodes. -/
structure DoubleBuffer where
  cache : MyCache := .init
  /-- The thread has found `ret` for `word`, and has still to write the node. -/
  readers : ℕ → Option (Bytes × Bytes) := fun _ => none
  /-- The nodes pushed by `write`. -/
  pushed : List CacheNode := []
  /-- The nodes swapped out by the cache thread. -/
  taken : List CacheNode := []
  /-- The nodes applied with `addElement` to the cache that is `_current` now. -/
  appliedCurrent : List CacheNode := []
  /-- The nodes applied with `addElement` to the cache that is `_clone` now. -/
  appliedClone : List CacheNode := []

namespace DoubleBuffer

inductive Action where
  | write (node : CacheNode)
  /-- The lookup of `read`. -/
  | lookup (thread : ℕ) (word : Bytes)
  /-- The end of `read` after a hit. -/
  | writeHit (thread : ℕ)
  | thread (t : ThreadStep)

def write (s : DoubleBuffer) (node : CacheNode) : DoubleBuffer :=
  { s with cache := s.cache.write node, pushed := s.pushed ++ [node] }

/-- What a step of the cache thread does to the history. -/
def record (s : DoubleBuffer) : ThreadStep → DoubleBuffer
  | .takeBatch => { s with taken := s.taken ++ s.cache.list }
  | .updateClone => { s with appliedClone := s.appliedClone ++ s.cache.docker }
  | .persist _ => s
  | .swapCaches => { s with appliedCurrent := s.appliedClone, appliedClone := s.appliedCurrent }
  | .updateAgain => { s with appliedClone := s.appliedClone ++ s.cache.docker }

def step (s : DoubleBuffer) : Action → Option DoubleBuffer
  | .write node => some (s.write node)
  | .lookup thread word =>
    if s.readers thread = none then (s.cache.current.get word).map fun ret =>
      if ret = lit "-1" then s
      else { s with readers := Function.update s.readers thread (some (word, ret)) }
    else none
  | .writeHit thread => (s.readers thread).map fun (word, ret) =>
      { s.write ⟨word, ret⟩ with readers := Function.update s.readers thread none }
  | .thread t => (s.cache.threadStep t).map fun cache => { s.record t with cache := cache }

/-! ## The invariant -/

/-- The cache that the nodes lead to from an empty one. -/
def applied (nodes : List CacheNode) : Cache := (Cache.empty MyCache.capacity).addAll nodes

/-- A cache with the keys that these nodes lead to, and with their results but for newlines that
were cut off. -/
structure Replica (c : Cache) (nodes : List CacheNode) : Prop where
  wf : c.Wf
  capacity : c.capacity = MyCache.capacity
  nodes : Recency.Related Cache.CutFrom (applied nodes).nodes c.nodes

theorem wf_applied (nodes : List CacheNode) :
    (applied nodes).Wf ∧ (applied nodes).capacity = MyCache.capacity := by
  have hempty : (Cache.empty MyCache.capacity).Wf := Cache.wf_empty (by decide)
  obtain ⟨hwf, hcap, -⟩ := hempty.addAll nodes
  exact ⟨hwf, hcap⟩

theorem applied_append (nodes batch : List CacheNode) :
    applied (nodes ++ batch) = (applied nodes).addAll batch :=
  Cache.addAll_append _ nodes batch

theorem replica_init : Replica (.empty MyCache.capacity) [] where
  wf := Cache.wf_empty (by decide)
  capacity := rfl
  nodes := List.Forall₂.nil

theorem Replica.keys {c : Cache} {nodes : List CacheNode} (h : Replica c nodes) :
    c.keys = (applied nodes).keys := by
  rw [← Cache.map_fst_nodes, ← Cache.map_fst_nodes, h.nodes.map_fst]

theorem Replica.addAll {c : Cache} {nodes : List CacheNode} (h : Replica c nodes)
    (batch : List CacheNode) : Replica (c.addAll batch) (nodes ++ batch) := by
  obtain ⟨hwf, hcap, hnodes⟩ := h.wf.addAll batch
  obtain ⟨hwfApplied, hcapApplied⟩ := wf_applied nodes
  obtain ⟨-, -, hnodesApplied⟩ := hwfApplied.addAll batch
  refine ⟨hwf, hcap.trans h.capacity, ?_⟩
  rw [applied_append, hnodesApplied, hnodes, h.capacity, hcapApplied]
  exact h.nodes.foldl_add Cache.CutFrom.refl _ _

theorem Replica.writeToFile {c c' : Cache} {nodes : List CacheNode} {text : Bytes}
    (h : Replica c nodes) (hwrite : c.writeToFile = some (c', text)) : Replica c' nodes := by
  obtain ⟨-, -, hcap, -⟩ := Cache.writeToFile_places hwrite
  refine ⟨h.wf.writeToFile hwrite, hcap.trans h.capacity, ?_⟩
  refine h.nodes.comp ?_ (Cache.writeToFile_nodes hwrite)
  exact fun _ _ _ hcut htrim => hcut.trimmed htrim

/-- How far the cache thread has got with the batch. -/
def Progress (s : DoubleBuffer) : Prop :=
  match s.cache.phase with
  | .waiting => s.cache.docker = [] ∧ s.appliedCurrent = s.taken ∧ s.appliedClone = s.taken
  | .taken => s.appliedCurrent ++ s.cache.docker = s.taken ∧ s.appliedClone = s.appliedCurrent
  | .updated | .persisted =>
    s.appliedCurrent ++ s.cache.docker = s.taken ∧ s.appliedClone = s.taken
  | .swapped => s.appliedCurrent = s.taken ∧ s.appliedClone ++ s.cache.docker = s.taken

structure Inv (s : DoubleBuffer) : Prop where
  current : Replica s.cache.current s.appliedCurrent
  clone : Replica s.cache.clone s.appliedClone
  pushed : s.taken ++ s.cache.list = s.pushed
  progress : s.Progress

theorem inv_init : Inv {} where
  current := replica_init
  clone := replica_init
  pushed := rfl
  progress := ⟨rfl, rfl, rfl⟩

theorem Inv.write {s : DoubleBuffer} (h : s.Inv) (node : CacheNode) : (s.write node).Inv where
  current := h.current
  clone := h.clone
  pushed := by
    show s.taken ++ (s.cache.list ++ [node]) = s.pushed ++ [node]
    rw [← List.append_assoc, h.pushed]
  progress := h.progress

/-- Reads leave the caches and the history alone. -/
theorem Inv.setReaders {s : DoubleBuffer} (h : s.Inv) (readers : ℕ → Option (Bytes × Bytes)) :
    Inv { s with readers := readers } :=
  ⟨h.current, h.clone, h.pushed, h.progress⟩

theorem Inv.thread {s : DoubleBuffer} (h : s.Inv) {t : ThreadStep} {cache : MyCache}
    (hstep : s.cache.threadStep t = some cache) : Inv { s.record t with cache := cache } := by
  obtain ⟨hcurrent, hclone, hpushed, hprogress⟩ := h
  unfold Progress at hprogress
  unfold MyCache.threadStep at hstep
  split at hstep
  · rename_i hphase
    cases hstep
    simp only [hphase] at hprogress
    obtain ⟨hdocker, hcur, hcl⟩ := hprogress
    refine ⟨hcurrent, hclone, ?_, ?_, ?_⟩
    · simpa [record, hdocker] using hpushed
    · simp [record, hcur]
    · exact hcl.trans hcur.symm
  · rename_i hphase
    cases hstep
    simp only [hphase] at hprogress
    obtain ⟨htaken, hcl⟩ := hprogress
    refine ⟨hcurrent, hclone.addAll _, hpushed, htaken, ?_⟩
    show s.appliedClone ++ s.cache.docker = s.taken
    rw [hcl, htaken]
  · rename_i hphase
    cases hstep
    simp only [hphase] at hprogress
    exact ⟨hcurrent, hclone, hpushed, hprogress⟩
  · rename_i hphase
    obtain ⟨⟨clone, text⟩, hwrite, hcache⟩ := Option.map_eq_some_iff.mp hstep
    cases hcache
    simp only [hphase] at hprogress
    exact ⟨hcurrent, hclone.writeToFile hwrite, hpushed, hprogress⟩
  · rename_i hphase
    cases hstep
    simp only [hphase] at hprogress
    exact ⟨hclone, hcurrent, hpushed, hprogress.2, hprogress.1⟩
  · rename_i hphase
    cases hstep
    simp only [hphase] at hprogress
    exact ⟨hcurrent, hclone.addAll _, hpushed, rfl, hprogress.1, hprogress.2⟩
  · cases hstep

theorem inv_step {s t : DoubleBuffer} {a : Action} (h : s.Inv) (hstep : step s a = some t) :
    t.Inv := by
  cases a with
  | write node =>
    cases hstep
    exact h.write node
  | lookup thread word =>
    obtain ⟨-, hstep⟩ := Option.ite_none_right_eq_some.mp hstep
    obtain ⟨ret, -, rfl⟩ := Option.map_eq_some_iff.mp hstep
    split_ifs
    · exact h
    · exact h.setReaders _
  | writeHit thread =>
    obtain ⟨⟨word, ret⟩, -, rfl⟩ := Option.map_eq_some_iff.mp hstep
    exact (h.write ⟨word, ret⟩).setReaders _
  | thread t =>
    obtain ⟨cache, hcache, rfl⟩ := Option.map_eq_some_iff.mp hstep
    exact h.thread hcache

/-! ## What the reads see -/

/-- Both replicas have got a prefix of the nodes swapped out. -/
theorem Inv.applied_prefix {s : DoubleBuffer} (h : s.Inv) :
    s.appliedCurrent <+: s.taken ∧ s.appliedClone <+: s.taken := by
  have hprogress := h.progress
  unfold Progress at hprogress
  split at hprogress
  · obtain ⟨-, hcur, hcl⟩ := hprogress
    exact ⟨hcur ▸ List.prefix_rfl, hcl ▸ List.prefix_rfl⟩
  · obtain ⟨htaken, hcl⟩ := hprogress
    rw [hcl, ← htaken]
    exact ⟨List.prefix_append _ _, List.prefix_append _ _⟩
  · obtain ⟨htaken, hcl⟩ := hprogress
    exact ⟨htaken ▸ List.prefix_append _ _, hcl ▸ List.prefix_rfl⟩
  · obtain ⟨htaken, hcl⟩ := hprogress
    exact ⟨htaken ▸ List.prefix_append _ _, hcl ▸ List.prefix_rfl⟩
  · obtain ⟨hcur, htaken⟩ := hprogress
    exact ⟨hcur ▸ List.prefix_rfl, htaken ▸ List.prefix_append _ _⟩

theorem Inv.prefix_pushed {s : DoubleBuffer} (h : s.Inv) : s.appliedCurrent <+: s.pushed :=
  h.applied_prefix.1.trans (h.pushed ▸ List.prefix_append _ _)

/-- What a step of the run adds: nodes at the end, and more nodes in the cache that is read. -/
def Grows (s t : DoubleBuffer) : Prop :=
  s.appliedCurrent.length ≤ t.appliedCurrent.length ∧ s.pushed <+: t.pushed

theorem Grows.trans {s t u : DoubleBuffer} (h : Grows s t) (h' : Grows t u) : Grows s u :=
  ⟨h.1.trans h'.1, h.2.trans h'.2⟩

theorem grows_step {s t : DoubleBuffer} {a : Action} (h : s.Inv) (hstep : step s a = some t) :
    Grows s t := by
  cases a with
  | write node =>
    cases hstep
    exact ⟨le_rfl, List.prefix_append _ _⟩
  | lookup thread word =>
    obtain ⟨-, hstep⟩ := Option.ite_none_right_eq_some.mp hstep
    obtain ⟨ret, -, rfl⟩ := Option.map_eq_some_iff.mp hstep
    split_ifs
    · exact ⟨le_rfl, List.prefix_rfl⟩
    · exact ⟨le_rfl, List.prefix_rfl⟩
  | writeHit thread =>
    obtain ⟨⟨word, ret⟩, -, rfl⟩ := Option.map_eq_some_iff.mp hstep
    exact ⟨le_rfl, List.prefix_append _ _⟩
  | thread t =>
    obtain ⟨cache, hcache, rfl⟩ := Option.map_eq_some_iff.mp hstep
    cases t with
    | swapCaches =>
      -- Only here does the cache that is read change; it gets the batch.
      have hphase : s.cache.phase = .persisted := by
        unfold MyCache.threadStep at hcache
        split at hcache <;> simp_all
      have hprogress := h.progress
      simp only [Progress, hphase] at hprogress
      refine ⟨?_, List.prefix_rfl⟩
      show s.appliedCurrent.length ≤ s.appliedClone.length
      rw [hprogress.2, ← hprogress.1]
      exact (List.prefix_append _ _).length_le
    | _ => exact ⟨le_rfl, List.prefix_rfl⟩

/-- **No node is lost or applied twice.** The nodes are swapped out in the order of their writes, and
each replica has got a prefix of them, with the results that these lead to from the empty cache, but
for newlines cut off at their ends. Between two rounds both have got all nodes swapped out, and have
the keys that these lead to, in that order. Every read looks up in a cache with the keys that the
first nodes lead to, and the number of these nodes does not decrease. -/
theorem replicas_agree {t : DoubleBuffer} {tr : List (DoubleBuffer × Action)}
    (hrun : Run step {} tr t) :
    t.taken ++ t.cache.list = t.pushed ∧
      (t.appliedCurrent <+: t.taken ∧ t.appliedClone <+: t.taken) ∧
      (Recency.Related Cache.CutFrom (applied t.appliedCurrent).nodes t.cache.current.nodes ∧
        Recency.Related Cache.CutFrom (applied t.appliedClone).nodes t.cache.clone.nodes) ∧
      (t.cache.phase = .waiting →
        (t.appliedCurrent = t.taken ∧ t.appliedClone = t.taken) ∧
          t.cache.current.keys = (applied t.taken).keys ∧
          t.cache.clone.keys = (applied t.taken).keys) ∧
      (∀ p ∈ tr, p.1.cache.current.keys =
        (applied (t.pushed.take p.1.appliedCurrent.length)).keys) ∧
      tr.Pairwise fun p q => p.1.appliedCurrent.length ≤ q.1.appliedCurrent.length := by
  obtain ⟨hinv, hlast⟩ := hrun.invariant (fun _ _ _ h hst => inv_step h hst) inv_init
  obtain ⟨hpair, hgrows⟩ := hrun.monotone (R := Grows) (fun _ _ _ => Grows.trans)
    (fun _ _ _ h hst => inv_step h hst) (fun _ _ _ h hst => grows_step h hst) inv_init
  refine ⟨hlast.pushed, hlast.applied_prefix, ⟨hlast.current.nodes, hlast.clone.nodes⟩,
    fun hphase => ?_, fun p hp => ?_, hpair.imp fun h => h.1⟩
  · have hprogress := hlast.progress
    simp only [Progress, hphase] at hprogress
    obtain ⟨-, hcur, hcl⟩ := hprogress
    refine ⟨⟨hcur, hcl⟩, ?_, ?_⟩
    · rw [hlast.current.keys, hcur]
    · rw [hlast.clone.keys, hcl]
  · have hprefix : p.1.appliedCurrent <+: t.pushed :=
      (hinv p hp).prefix_pushed.trans (hgrows p hp).2
    rw [(hinv p hp).current.keys, ← List.prefix_iff_eq_take.mp hprefix]

/-- Two nodes are written, a round is run, and the older one is read. The file can be opened, and its
result ends in a newline. -/
def oneRound : List Action :=
  [.write ⟨lit "cat", lit "1\n"⟩, .write ⟨lit "dog", lit "2"⟩, .thread .takeBatch,
    .thread .updateClone, .lookup 0 (lit "cat"), .thread (.persist true), .thread .swapCaches,
    .lookup 0 (lit "cat"), .thread .updateAgain]

theorem replicas_agree_oneRound :
    ∃ t, exec step {} oneRound = some t ∧ t.readers 0 = some (lit "cat", lit "1") ∧
      t.cache.current.keys = [lit "dog", lit "cat"] ∧
      t.cache.clone.keys = [lit "dog", lit "cat"] ∧
      Recency.Related Cache.CutFrom [(lit "dog", lit "2"), (lit "cat", lit "1\n")]
        t.cache.current.nodes := by
  obtain ⟨t, ht, hphase, hread, htaken, hnodes⟩ : ∃ t, exec step {} oneRound = some t ∧
      t.cache.phase = .waiting ∧ t.readers 0 = some (lit "cat", lit "1") ∧
      (applied t.taken).keys = [lit "dog", lit "cat"] ∧
      (applied t.appliedCurrent).nodes = [(lit "dog", lit "2"), (lit "cat", lit "1\n")] :=
    ⟨_, rfl, rfl, rfl, rfl, rfl⟩
  obtain ⟨-, -, hresults, hround, -⟩ := replicas_agree (run_trace ht)
  obtain ⟨-, hcurrent, hclone⟩ := hround hphase
  exact ⟨t, ht, hread, hcurrent.trans htaken, hclone.trans htaken, hnodes ▸ hresults.1⟩

end DoubleBuffer

end SearchServer

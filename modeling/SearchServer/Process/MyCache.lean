import SearchServer.Lib.Runs
import SearchServer.Process.Cache
import SearchServer.Process.WordQuery

/-!
# The double-buffered cache and its clients

`MyCache` (`process/MyCache.cc`) has two caches. Queries read `_current`; the cache thread collects
the nodes written since the last round, adds them to `_clone`, writes `_clone` to a file, swaps the
two, and adds the same nodes to the other cache. The locks make each of these a single step.

`Service` is the whole system: any number of workers that run `WordQuery::doQuery`, and the cache
thread. A worker reads the cache, computes the answer if there is none, and writes the answer back;
these are separate steps, so all interleavings are runs.

**Theorem (`cache_transparent`).** In a run in which the cache thread never cuts a newline off a
stored result, every reply from the cache is the reply that the uncached computation gives. It
cuts one when `writeToFile` can open its file: `not_cache_transparent` is a run in which the reply
from the cache has lost its last byte.
-/

namespace SearchServer

/-- Where the cache thread is in its loop. -/
inductive Phase where
  | waiting
  | taken
  | updated
  | persisted
  | swapped
deriving DecidableEq

structure MyCache where
  current : Cache
  clone : Cache
  list : List CacheNode
  /-- The local vector `_docker` of the cache thread. -/
  docker : List CacheNode
  phase : Phase

/-- The steps of a round of `threadFuc`. -/
inductive ThreadStep where
  | takeBatch
  | updateClone
  /-- `opened`: whether the file can be opened. -/
  | persist (opened : Bool)
  | swapCaches
  | updateAgain

namespace MyCache

def capacity : ℕ := 1000

def init : MyCache := ⟨.empty capacity, .empty capacity, [], [], .waiting⟩

def write (c : MyCache) (node : CacheNode) : MyCache := { c with list := c.list ++ [node] }

/-- `threadFuc`, step by step. -/
def threadStep (c : MyCache) (t : ThreadStep) : Option MyCache :=
  match t, c.phase with
  | .takeBatch, .waiting => some { c with list := c.docker, docker := c.list, phase := .taken }
  | .updateClone, .taken => some { c with clone := c.clone.addAll c.docker, phase := .updated }
  | .persist false, .updated => some { c with phase := .persisted }
  | .persist true, .updated =>
    c.clone.writeToFile.map fun (clone, _) => { c with clone := clone, phase := .persisted }
  | .swapCaches, .persisted =>
    some { c with current := c.clone, clone := c.current, phase := .swapped }
  | .updateAgain, .swapped =>
    some { c with clone := c.clone.addAll c.docker, docker := [], phase := .waiting }
  | _, _ => none

end MyCache

/-! ## Workers -/

/-- What a worker is doing. -/
inductive Worker where
  | idle
  /-- The cache had `ret` for `str`; `MyCache::read` has still to write the node. -/
  | hit (str ret : Bytes)
  /-- The cache had nothing for `str`; the answer has to be computed. -/
  | miss (str : Bytes)

structure Reply where
  query : Bytes
  answer : Bytes
  fromCache : Bool
deriving DecidableEq

structure Service where
  cache : MyCache
  workers : ℕ → Worker
  /-- The results returned so far. -/
  replies : List Reply

namespace Service

inductive Action where
  /-- Worker `w` calls `doQuery(str)` and reads the cache. -/
  | query (w : ℕ) (str : Bytes)
  /-- Worker `w` finishes its call. -/
  | finish (w : ℕ)
  /-- A step of the cache thread. -/
  | thread (t : ThreadStep)

def init : Service := ⟨.init, fun _ => .idle, []⟩

def setWorker (s : Service) (w : ℕ) (x : Worker) : Service :=
  { s with workers := Function.update s.workers w x }

/-- Worker `w` writes the node for its answer and returns the answer. -/
def return_ (s : Service) (w : ℕ) (r : Reply) : Service :=
  { s.setWorker w .idle with
    cache := s.cache.write ⟨r.query, r.answer⟩
    replies := s.replies ++ [r] }

variable {F : Type} [DoubleOps F]

/-- `doQuery` of the workers and `threadFuc` of the cache thread. -/
def step (q : WordQuery F) (s : Service) : Action → Option Service
  | .query w str =>
    match s.workers w with
    | .idle =>
      if str = [] then some { s with replies := s.replies ++ [⟨str, q.returnNoAnswer, false⟩] }
      else (s.cache.current.get str).map fun ret =>
        s.setWorker w (if ret ≠ lit "-1" then .hit str ret else .miss str)
    | _ => none
  | .finish w =>
    match s.workers w with
    | .idle => none
    | .hit str ret => some (s.return_ w ⟨str, ret, true⟩)
    | .miss str =>
      match q.answer str with
      | .ok (ret, _) => some (s.return_ w ⟨str, ret, false⟩)
      | .error _ => none
  | .thread t => (s.cache.threadStep t).map fun cache => { s with cache := cache }

/-! ## Transparency -/

/-- `ret` is what the uncached computation returns for `str`. -/
def Computed (q : WordQuery F) (str ret : Bytes) : Prop := ∃ table, q.answer str = .ok (ret, table)

/-- Every reply from the cache is the reply of the uncached computation. -/
def Transparent (q : WordQuery F) (s : Service) : Prop :=
  ∀ r ∈ s.replies, r.fromCache = true → Computed q r.query r.answer

/-- The cache thread does not cut a newline off a result in this step. -/
def KeepsResults (s : Service) (a : Action) : Prop :=
  a = .thread (.persist true) → ∀ p ∈ s.cache.clone.cacheList, p.2.reuslt.getLast? ≠ some LF

/-- A cache in which every stored result is the computed one. -/
structure Faithful (q : WordQuery F) (c : Cache) : Prop where
  wf : c.Wf
  nodes : ∀ p ∈ c.nodes, Computed q p.1 p.2

/-- The invariant: both caches, the nodes on their way, and the replies have computed results. -/
structure Sound (q : WordQuery F) (s : Service) : Prop where
  current : Faithful q s.cache.current
  clone : Faithful q s.cache.clone
  list : ∀ node ∈ s.cache.list, Computed q node.queryWord node.reuslt
  docker : ∀ node ∈ s.cache.docker, Computed q node.queryWord node.reuslt
  hits : ∀ w str ret, s.workers w = .hit str ret → Computed q str ret
  replies : Transparent q s

theorem Faithful.addAll {q : WordQuery F} {c : Cache} (h : Faithful q c) {batch : List CacheNode}
    (hbatch : ∀ node ∈ batch, Computed q node.queryWord node.reuslt) :
    Faithful q (c.addAll batch) := by
  obtain ⟨hwf, -, hnodes⟩ := h.wf.addAll batch
  refine ⟨hwf, hnodes ▸ Recency.forall_foldl_add ?_ h.nodes⟩
  intro p hp
  obtain ⟨node, hnode, rfl⟩ := List.mem_map.mp hp
  exact hbatch node hnode

theorem Faithful.get {q : WordQuery F} {c : Cache} (h : Faithful q c) {str ret : Bytes}
    (hget : c.get str = some ret) (hne : ret ≠ lit "-1") : Computed q str ret := by
  rw [Cache.get_eq h.wf] at hget
  cases hl : c.nodes.lookup str with
  | none => exact absurd (by simpa [hl] using hget.symm) hne
  | some v =>
    obtain rfl : v = ret := by simpa [hl] using hget
    exact h.nodes (str, v) (Recency.mem_of_lookup hl)

theorem sound_init (q : WordQuery F) : Sound q init where
  current := ⟨Cache.wf_empty (by decide), by simp [init, MyCache.init, Cache.nodes, Cache.empty]⟩
  clone := ⟨Cache.wf_empty (by decide), by simp [init, MyCache.init, Cache.nodes, Cache.empty]⟩
  list := by simp [init, MyCache.init]
  docker := by simp [init, MyCache.init]
  hits := by simp [init]
  replies := by simp [init, Transparent]

theorem Sound.setWorker {q : WordQuery F} {s : Service} (h : Sound q s) (w : ℕ) {x : Worker}
    (hx : ∀ str ret, x = .hit str ret → Computed q str ret) : Sound q (s.setWorker w x) := by
  refine { h with hits := fun v str ret hv => ?_ }
  by_cases hvw : v = w
  · subst hvw
    exact hx str ret (by simpa [Service.setWorker] using hv)
  · exact h.hits v str ret (by simpa [Service.setWorker, hvw] using hv)

theorem Sound.return_ {q : WordQuery F} {s : Service} (h : Sound q s) (w : ℕ) {r : Reply}
    (hr : Computed q r.query r.answer) : Sound q (s.return_ w r) := by
  have hset := h.setWorker (x := .idle) w (by simp)
  refine { hset with list := fun node hnode => ?_, replies := fun r' hr' hcache => ?_ }
  · rcases List.mem_append.mp hnode with hnode | hnode
    · exact h.list node hnode
    · rw [List.mem_singleton.mp hnode]
      exact hr
  · rcases List.mem_append.mp hr' with hr' | hr'
    · exact h.replies r' hr' hcache
    · rw [List.mem_singleton.mp hr']
      exact hr

/-- A step of the cache thread that cuts nothing off keeps the invariant. -/
theorem Sound.thread {q : WordQuery F} {s : Service} (h : Sound q s) {t : ThreadStep}
    (hG : KeepsResults s (.thread t)) {cache : MyCache} (hstep : s.cache.threadStep t = some cache) :
    Sound q { s with cache := cache } := by
  unfold MyCache.threadStep at hstep
  split at hstep
  · cases hstep
    exact { h with list := h.docker, docker := h.list }
  · cases hstep
    exact { h with clone := h.clone.addAll h.docker }
  · cases hstep
    exact { h with }
  · obtain ⟨⟨clone, text⟩, hwrite, hcache⟩ := Option.map_eq_some_iff.mp hstep
    obtain rfl : clone = s.cache.clone := Cache.writeToFile_unchanged hwrite (hG rfl)
    cases hcache
    exact { h with }
  · cases hstep
    exact { h with current := h.clone, clone := h.current }
  · cases hstep
    exact { h with clone := h.clone.addAll h.docker, docker := by simp }
  · cases hstep

theorem sound_step {q : WordQuery F} {s t : Service} {a : Action} (h : Sound q s)
    (hG : KeepsResults s a) (hstep : step q s a = some t) : Sound q t := by
  cases a with
  | query w str =>
    simp only [step] at hstep
    split at hstep
    · split_ifs at hstep with hstr
      · cases hstep
        refine { h with replies := fun r hr hcache => ?_ }
        rcases List.mem_append.mp hr with hr | hr
        · exact h.replies r hr hcache
        · rw [List.mem_singleton.mp hr] at hcache
          cases hcache
      · obtain ⟨ret, hget, rfl⟩ := Option.map_eq_some_iff.mp hstep
        refine h.setWorker w fun str' ret' heq => ?_
        split_ifs at heq with hne
        cases heq
        exact h.current.get hget hne
    · cases hstep
  | finish w =>
    simp only [step] at hstep
    split at hstep
    · cases hstep
    · rename_i str ret hw
      cases hstep
      exact h.return_ w (h.hits w str ret hw)
    · split at hstep
      · rename_i str _ ret table hans
        cases hstep
        exact h.return_ w ⟨table, hans⟩
      · cases hstep
  | thread t =>
    obtain ⟨cache, hcache, rfl⟩ := Option.map_eq_some_iff.mp hstep
    exact h.thread hG hcache

/-- **Cache transparency.** In a run in which the cache thread cuts no newline off a stored result,
every reply from the cache is the reply of the uncached computation. -/
theorem cache_transparent (q : WordQuery F) {tr : List (Service × Action)} {s : Service}
    (hrun : Run (step q) init tr s) (hG : ∀ p ∈ tr, KeepsResults p.1 p.2) : Transparent q s :=
  (hrun.guarded (fun _ _ _ h hG hst => sound_step h hG hst) (sound_init q) hG).2.replies

/-- Two calls of `doQuery` for one query, with a full round of the cache thread between them. -/
def twoCalls (opened : Bool) : List Action :=
  [.query 0 (lit "dog"), .finish 0, .thread .takeBatch, .thread .updateClone,
    .thread (.persist opened), .thread .swapCaches, .thread .updateAgain,
    .query 1 (lit "dog"), .finish 1]

theorem replies_twoCalls (opened : Bool) :
    (exec (step WordQuery.sampleServer) init (twoCalls opened)).map Service.replies =
      some [⟨lit "dog", lit "{}\n", false⟩,
        ⟨lit "dog", if opened then lit "{}" else lit "{}\n", true⟩] := by
  cases opened <;> rfl

/-- The run of `twoCalls` when the file cannot be opened. -/
theorem cache_transparent_twoCalls :
    ∃ s, (exec (step WordQuery.sampleServer) init (twoCalls false)) = some s ∧
      (⟨lit "dog", lit "{}\n", true⟩ : Reply) ∈ s.replies ∧
      Transparent WordQuery.sampleServer s := by
  obtain ⟨s, hs⟩ : ∃ s, exec (step WordQuery.sampleServer) init (twoCalls false) = some s :=
    Option.isSome_iff_exists.mp (by decide)
  have hreplies := replies_twoCalls false
  rw [hs] at hreplies
  obtain ⟨tr, hrun, hact⟩ := run_of_exec hs
  refine ⟨s, hs, by simp [Option.some.inj hreplies],
    cache_transparent WordQuery.sampleServer hrun fun p hp hpersist => ?_⟩
  have hmem : p.2 ∈ twoCalls false := hact ▸ List.mem_map_of_mem hp
  simp [hpersist, twoCalls] at hmem

/-- When the file can be opened, the second call gets the answer without its last byte. -/
theorem not_cache_transparent :
    (∀ json, (WordQuery.sampleServer.write json).getLast? = some LF) ∧
      ∃ tr s, Run (step WordQuery.sampleServer) init tr s ∧
        ¬ Transparent WordQuery.sampleServer s := by
  refine ⟨fun _ => rfl, ?_⟩
  obtain ⟨s, hs⟩ : ∃ s, exec (step WordQuery.sampleServer) init (twoCalls true) = some s :=
    Option.isSome_iff_exists.mp (by decide)
  have hreplies := replies_twoCalls true
  rw [hs] at hreplies
  obtain ⟨tr, hrun, -⟩ := run_of_exec hs
  refine ⟨tr, s, hrun, fun h => ?_⟩
  obtain ⟨table, htable⟩ := h ⟨lit "dog", lit "{}", true⟩ (by simp [Option.some.inj hreplies]) rfl
  have hanswer : WordQuery.sampleServer.answer (lit "dog") =
      .ok (lit "{}\n", WordQuery.sampleServer.invertIndexTable) := rfl
  rw [hanswer] at htable
  exact absurd (Prod.mk.inj (Except.ok.inj htable)).1 (by decide)

end Service

end SearchServer

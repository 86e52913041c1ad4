import SearchServer.Process.MyCache

/-!
# What the clients of the cache get

A round of the cache thread (`MyCache::threadFuc`) writes the cache to a file, and for that cuts a
newline off the results that end with one, in the cache itself. The results come back to the cache with
each query that finds them, so a result can lose one newline in each round.

**Theorem (`answers_up_to_newlines`).** That is all that happens: in every run, in which any number of
workers run `doQuery`, every reply is what `doQuery` gives without the cache, but for newlines at its
end.
-/

namespace SearchServer

variable {F : Type} [DoubleOps F] {q : WordQuery F} {str ret : Bytes}

namespace WordQuery

/-- `doQuery` without the cache. -/
def uncached (q : WordQuery F) (str : Bytes) : Except Undefined Bytes :=
  if str = [] then .ok q.returnNoAnswer else (q.answer str).map Prod.fst

/-- `ret` is what `doQuery` gives for `str` without the cache, but for newlines at its end. -/
def MayReturn (q : WordQuery F) (str ret : Bytes) : Prop :=
  ∃ full, q.uncached str = .ok full ∧ Cache.CutFrom full ret

theorem mayReturn_nil (q : WordQuery F) : q.MayReturn [] q.returnNoAnswer :=
  ⟨_, rfl, Cache.CutFrom.refl _⟩

theorem mayReturn_of_answer {table : IndexTable F} (hne : str ≠ [])
    (h : q.answer str = .ok (ret, table)) : q.MayReturn str ret :=
  ⟨ret, by rw [uncached, if_neg hne, h]; rfl, Cache.CutFrom.refl ret⟩

/-- Every answer is a JSON document. -/
theorem exists_write_of_answer {table : IndexTable F} (h : q.answer str = .ok (ret, table)) :
    ∃ json, ret = q.write json := by
  obtain ⟨⟨verdict, table'⟩, -, h⟩ := bind_eq_ok.mp h
  cases verdict with
  | noAnswer => exact ⟨_, (Prod.mk.inj (Except.ok.inj h)).1.symm⟩
  | found docs words =>
    obtain ⟨ret', hjson, h⟩ := bind_eq_ok.mp h
    obtain ⟨json, -, hwrite⟩ := bind_eq_ok.mp hjson
    obtain rfl := (Prod.mk.inj (Except.ok.inj h)).1
    exact ⟨json, (Except.ok.inj hwrite).symm⟩

/-- An answer is not longer than the document that it is made of. -/
theorem MayReturn.exists_write (h : q.MayReturn str ret) :
    ∃ json, ret <+: q.write json := by
  obtain ⟨full, hfull, k, hk⟩ := h
  have hprefix : ret <+: full := hk ▸ List.prefix_append _ _
  unfold uncached at hfull
  split_ifs at hfull with hnil
  · obtain rfl := Except.ok.inj hfull
    exact ⟨_, hprefix⟩
  · cases hanswer : q.answer str with
    | error e =>
      rw [hanswer] at hfull
      cases hfull
    | ok result =>
      rw [hanswer] at hfull
      obtain rfl := Except.ok.inj hfull
      obtain ⟨json, hjson⟩ := exists_write_of_answer hanswer
      exact ⟨json, hjson ▸ hprefix⟩

end WordQuery

namespace Cache

/-- Every result in the cache is one of its query. -/
structure Serves (c : Cache) (q : WordQuery F) : Prop where
  wf : c.Wf
  nodes : ∀ p ∈ c.nodes, q.MayReturn p.1 p.2

theorem serves_empty {capacity : ℕ} (h : 0 < capacity) : (empty capacity).Serves q where
  wf := wf_empty h
  nodes := by simp [nodes, empty]

theorem Serves.addAll {c : Cache} (h : c.Serves q) {batch : List CacheNode}
    (hbatch : ∀ node ∈ batch, q.MayReturn node.queryWord node.reuslt) :
    (c.addAll batch).Serves q := by
  obtain ⟨hwf, -, hnodes⟩ := h.wf.addAll batch
  refine ⟨hwf, hnodes ▸ Recency.forall_foldl_add ?_ h.nodes⟩
  intro p hp
  obtain ⟨node, hnode, rfl⟩ := List.mem_map.mp hp
  exact hbatch node hnode

theorem Serves.get {c : Cache} (h : c.Serves q) (hget : c.get str = some ret)
    (hne : ret ≠ lit "-1") : q.MayReturn str ret := by
  rw [get_eq h.wf] at hget
  cases hl : c.nodes.lookup str with
  | none => exact absurd (by simpa [hl] using hget.symm) hne
  | some v =>
    obtain rfl : v = ret := by simpa [hl] using hget
    exact h.nodes (str, v) (Recency.mem_of_lookup hl)

/-- **Writing the file** cuts newlines off, and does nothing else to a result. -/
theorem Serves.writeToFile {c c' : Cache} {text : Bytes} (h : c.Serves q)
    (hwrite : c.writeToFile = some (c', text)) : c'.Serves q := by
  refine ⟨h.wf.writeToFile hwrite, ?_⟩
  have hcut := writeToFile_nodes hwrite
  have hnodes := h.nodes
  generalize c.nodes = before at hcut hnodes
  generalize c'.nodes = after at hcut
  induction hcut with
  | nil => simp
  | @cons p p' before after hpp' _ ih =>
    obtain ⟨⟨full, hfull, hfrom⟩, hrest⟩ := List.forall_mem_cons.mp hnodes
    refine List.forall_mem_cons.mpr ⟨⟨full, ?_, hfrom.trimmed hpp'.2⟩, ih hrest⟩
    rw [← hpp'.1, hfull]

end Cache

def Worker.query : Worker → Option Bytes
  | .idle => none
  | .hit str _ => some str
  | .miss str => some str

namespace Service

/-- Both caches, the nodes on their way, and the replies have results of their queries. -/
structure Serves (s : Service) (q : WordQuery F) : Prop where
  current : s.cache.current.Serves q
  clone : s.cache.clone.Serves q
  list : ∀ node ∈ s.cache.list, q.MayReturn node.queryWord node.reuslt
  docker : ∀ node ∈ s.cache.docker, q.MayReturn node.queryWord node.reuslt
  hits : ∀ w str ret, s.workers w = .hit str ret → q.MayReturn str ret
  busy : ∀ w, (s.workers w).query ≠ some []
  replies : ∀ r ∈ s.replies, q.MayReturn r.query r.answer

variable {s t : Service} {w : ℕ}

theorem serves_init : init.Serves q where
  current := Cache.serves_empty (by decide)
  clone := Cache.serves_empty (by decide)
  list := by simp [init, MyCache.init]
  docker := by simp [init, MyCache.init]
  hits := by simp [init]
  busy := by simp [init, Worker.query]
  replies := by simp [init]

theorem Serves.setWorker (h : s.Serves q) {x : Worker} (hbusy : x.query ≠ some [])
    (hx : ∀ str ret, x = .hit str ret → q.MayReturn str ret) : (s.setWorker w x).Serves q := by
  refine { h with hits := ?_, busy := ?_ }
  · apply (Function.forall_update_iff s.workers fun _ x =>
      ∀ str ret, x = .hit str ret → q.MayReturn str ret).mpr
    exact ⟨hx, fun v _ => h.hits v⟩
  · apply (Function.forall_update_iff s.workers fun _ x => x.query ≠ some []).mpr
    exact ⟨hbusy, fun v _ => h.busy v⟩

theorem Serves.return_ (h : s.Serves q) {r : Reply} (hr : q.MayReturn r.query r.answer) :
    (s.return_ w r).Serves q := by
  have hset : (s.setWorker w .idle).Serves q := h.setWorker nofun nofun
  refine { hset with list := ?_, replies := ?_ }
  · exact List.forall_mem_append.mpr ⟨h.list, List.forall_mem_singleton.mpr hr⟩
  · exact List.forall_mem_append.mpr ⟨h.replies, List.forall_mem_singleton.mpr hr⟩

theorem Serves.thread (h : s.Serves q) {a : ThreadStep} {cache : MyCache}
    (hstep : s.cache.threadStep a = some cache) : Serves { s with cache := cache } q := by
  unfold MyCache.threadStep at hstep
  split at hstep
  · cases hstep
    exact { h with list := h.docker, docker := h.list }
  · cases hstep
    exact { h with clone := h.clone.addAll h.docker }
  · cases hstep
    exact { h with }
  · obtain ⟨⟨clone, text⟩, hwrite, hcache⟩ := Option.map_eq_some_iff.mp hstep
    cases hcache
    exact { h with clone := h.clone.writeToFile hwrite }
  · cases hstep
    exact { h with current := h.clone, clone := h.current }
  · cases hstep
    exact { h with clone := h.clone.addAll h.docker, docker := by simp }
  · cases hstep

/-- A worker that is idle calls `doQuery`. -/
theorem query_eq_some (h : step q s (.query w str) = some t) :
    s.workers w = .idle ∧
      ((str = [] ∧ t = { s with replies := s.replies ++ [⟨str, q.returnNoAnswer, false⟩] }) ∨
        (str ≠ [] ∧ ∃ ret, s.cache.current.get str = some ret ∧
          t = s.setWorker w (if ret ≠ lit "-1" then .hit str ret else .miss str))) := by
  simp only [step] at h
  split at h
  · rename_i hidle
    refine ⟨hidle, ?_⟩
    split_ifs at h with hstr
    · exact Or.inl ⟨hstr, (Option.some.inj h).symm⟩
    · obtain ⟨ret, hget, rfl⟩ := Option.map_eq_some_iff.mp h
      exact Or.inr ⟨hstr, ret, hget, rfl⟩
  · cases h

theorem finish_eq_some (h : step q s (.finish w) = some t) :
    ∃ r : Reply, (s.workers w).query = some r.query ∧ t = s.return_ w r ∧
      (s.workers w = .hit r.query r.answer ∨
        ∃ table, q.answer r.query = .ok (r.answer, table)) := by
  simp only [step] at h
  split at h
  · cases h
  · rename_i str ret hworker
    exact ⟨_, by rw [hworker]; rfl, (Option.some.inj h).symm, Or.inl hworker⟩
  · rename_i str hworker
    split at h
    · rename_i ret table hanswer
      exact ⟨_, by rw [hworker]; rfl, (Option.some.inj h).symm, Or.inr ⟨table, hanswer⟩⟩
    · cases h

theorem serves_step {a : Action} (h : s.Serves q) (hstep : step q s a = some t) :
    t.Serves q := by
  cases a with
  | query w str =>
    obtain ⟨-, ⟨rfl, rfl⟩ | ⟨hstr, ret, hget, rfl⟩⟩ := query_eq_some hstep
    · refine { h with replies := ?_ }
      exact List.forall_mem_append.mpr
        ⟨h.replies, List.forall_mem_singleton.mpr q.mayReturn_nil⟩
    · refine h.setWorker ?_ fun str' ret' heq => ?_
      · split_ifs <;> exact fun heq => hstr (Option.some.inj heq)
      · split_ifs at heq with hne
        cases heq
        exact h.current.get hget hne
  | finish w =>
    obtain ⟨r, hquery, rfl, hworker | ⟨table, hanswer⟩⟩ := finish_eq_some hstep
    · exact h.return_ (h.hits w _ _ hworker)
    · refine h.return_ (WordQuery.mayReturn_of_answer ?_ hanswer)
      intro hnil
      exact h.busy w (hnil ▸ hquery)
  | thread a =>
    obtain ⟨cache, hcache, rfl⟩ := Option.map_eq_some_iff.mp hstep
    exact h.thread hcache

/-- Two servers that answer the query of the step alike. -/
theorem step_congr {G : Type} [DoubleOps G] {q' : WordQuery G}
    (hnone : q.returnNoAnswer = q'.returnNoAnswer) {a : Action}
    (h : ∀ w str, a = .finish w → s.workers w = .miss str →
      (q.answer str).map Prod.fst = (q'.answer str).map Prod.fst) :
    step q s a = step q' s a := by
  cases a with
  | query w str => simp only [step, hnone]
  | finish w =>
    simp only [step]
    cases hw : s.workers w with
    | idle => rfl
    | hit str ret => rfl
    | miss str =>
      have hsame := h w str rfl hw
      dsimp only
      generalize q.answer str = x at hsame ⊢
      generalize q'.answer str = x' at hsame ⊢
      rcases x with e | ⟨ret, table⟩
      · rcases x' with e' | ⟨ret', table'⟩
        · rfl
        · cases hsame
      · rcases x' with e' | ⟨ret', table'⟩
        · cases hsame
        · obtain rfl : ret = ret' := Except.ok.inj hsame
          rfl
  | thread a => rfl

/-- **Answers up to newlines.** -/
theorem answers_up_to_newlines (q : WordQuery F) {tr : List (Service × Action)} {s : Service}
    (hrun : Run (step q) init tr s) : ∀ r ∈ s.replies, q.MayReturn r.query r.answer :=
  (hrun.invariant (fun _ _ _ h hst => serves_step h hst) serves_init).2.replies

/-- The second reply of `twoCalls` has lost its last byte. -/
theorem answers_up_to_newlines_twoCalls :
    ∃ s, exec (step WordQuery.sampleServer) init (twoCalls true) = some s ∧
      ∃ r ∈ s.replies, r.answer = lit "{}" ∧ WordQuery.sampleServer.MayReturn r.query r.answer := by
  obtain ⟨s, hs⟩ : ∃ s, exec (step WordQuery.sampleServer) init (twoCalls true) = some s :=
    Option.isSome_iff_exists.mp (by decide)
  have hreplies := replies_twoCalls true
  rw [hs] at hreplies
  have hmem : (⟨lit "dog", lit "{}", true⟩ : Reply) ∈ s.replies := by
    rw [Option.some.inj hreplies]
    exact List.mem_cons_of_mem _ List.mem_cons_self
  exact ⟨s, hs, _, hmem, rfl, answers_up_to_newlines WordQuery.sampleServer (run_trace hs) _ hmem⟩

end Service

end SearchServer

import SearchServer.Lib.Replies
import SearchServer.Process.Cache

/-!
# The cache as a recency list

Clients of a `Cache` (`process/Cache.cc`) call `addElement` and `get`. What they see is what `get`
returns; which keys a call drops decides what later calls return. Both make up the reply of a call.

**Theorem (`cache_leastRecentlyUsed`).** On an empty cache, any sequence of calls has the replies of
the recency list. In every state it leads to, the key that makes room for a new one is the one that
was added or touched least recently.

**Theorem (`copy_sameBehaviour`).** The copy constructor adds the nodes to an empty cache, from the
last to the first. The copy has the nodes of the original and gives the same replies from then on.
-/

namespace SearchServer

namespace Cache

/-- The calls that clients make. -/
inductive Call where
  | addElement (key value : Bytes)
  | get (queryWord : Bytes)

/-- What `get` returns, and the keys that the call drops. -/
structure Reply where
  result : Option Bytes
  evicted : List Bytes
deriving DecidableEq

def evicted (before after : List Bytes) : List Bytes := before.filter (· ∉ after)

/-- A call on the cache. It is undefined if it follows a dangling iterator. -/
def call (c : Cache) : Call → Option (Cache × Reply)
  | .addElement key value =>
    some (c.addElement key value, ⟨none, evicted c.keys (c.addElement key value).keys⟩)
  | .get queryWord => (c.get queryWord).map fun result => (c, ⟨some result, []⟩)

/-- A call on the reference model: a list of keys and values, the last one added first. -/
def modelCall (capacity : ℕ) (l : List (Bytes × Bytes)) :
    Call → Option (List (Bytes × Bytes) × Reply)
  | .addElement key value =>
    let l' := Recency.add capacity l key value
    some (l', ⟨none, evicted (l.map Prod.fst) (l'.map Prod.fst)⟩)
  | .get queryWord => some (l, ⟨some ((l.lookup queryWord).getD (lit "-1")), []⟩)

/-- The keys of the `addElement` calls, the latest last. -/
def addedKeys : List Call → List Bytes
  | [] => []
  | .addElement key _ :: calls => key :: addedKeys calls
  | .get _ :: calls => addedKeys calls

structure LeastRecentlyUsed (capacity : ℕ) (calls : List Call) (c : Cache) : Prop where
  bounded : c.nodes.length ≤ capacity
  nodup : c.keys.Nodup
  /-- A key that is present moves to the front and keeps its first value. -/
  present : ∀ key value old, (key, old) ∈ c.nodes →
    (c.addElement key value).nodes = (key, old) :: c.nodes.filter (·.1 ≠ key)
  /-- A new key is put at the front. -/
  room : ∀ key value, key ∉ c.keys → c.nodes.length < capacity →
    (c.addElement key value).nodes = (key, value) :: c.nodes
  /-- If the cache is full, the last node is dropped. No key was added longer ago. -/
  full : ∀ key value, key ∉ c.keys → c.nodes.length = capacity →
    ∃ rest oldest, c.nodes = rest ++ [oldest] ∧
      (c.addElement key value).nodes = (key, value) :: rest ∧
      ∀ node ∈ rest, Recency.age (addedKeys calls) node.1 < Recency.age (addedKeys calls) oldest.1
  get_present : ∀ key value, (key, value) ∈ c.nodes → c.get key = some value
  get_absent : ∀ key, key ∉ c.keys → c.get key = some (lit "-1")

/-! ## The simulation -/

structure Refines (capacity : ℕ) (c : Cache) (l : List (Bytes × Bytes)) : Prop where
  wf : c.Wf
  capacity : c.capacity = capacity
  nodes : c.nodes = l

theorem refines_call {capacity : ℕ} {c : Cache} {l : List (Bytes × Bytes)}
    (h : Refines capacity c l) (a : Call) :
    ∃ c' l' reply, c.call a = some (c', reply) ∧ modelCall capacity l a = some (l', reply) ∧
      Refines capacity c' l' := by
  obtain ⟨hwf, rfl, rfl⟩ := h
  cases a with
  | addElement key value =>
    have hnodes := addElement_nodes hwf key value
    refine ⟨c.addElement key value, (c.addElement key value).nodes, _, rfl, ?_, ?_⟩
    · rw [modelCall, ← hnodes, map_fst_nodes, map_fst_nodes]
    · exact ⟨hwf.addElement key value, addElement_capacity hwf key value, rfl⟩
  | get queryWord =>
    refine ⟨c, c.nodes, _, ?_, rfl, hwf, rfl, rfl⟩
    rw [call, get_eq hwf]
    rfl

theorem refines_replies {capacity : ℕ} {c : Cache} {l : List (Bytes × Bytes)}
    (h : Refines capacity c l) (calls : List Call) :
    ∃ c' l' out, replies call c calls = some (c', out) ∧
      replies (modelCall capacity) l calls = some (l', out) ∧ Refines capacity c' l' :=
  replies_simulation (Refines capacity) (fun _ _ a h => refines_call h a) h calls

theorem refines_empty {capacity : ℕ} (h : 0 < capacity) : Refines capacity (empty capacity) [] :=
  ⟨wf_empty h, rfl, rfl⟩

/-- The keys of the model are what the added keys leave. -/
theorem map_fst_replies {capacity : ℕ} {l l' : List (Bytes × Bytes)} {calls : List Call}
    {out : List Reply} (h : replies (modelCall capacity) l calls = some (l', out)) :
    l'.map Prod.fst = (addedKeys calls).foldl (Recency.addKey capacity) (l.map Prod.fst) := by
  induction calls generalizing l out with
  | nil =>
    obtain ⟨rfl, -⟩ := Prod.mk.inj (Option.some.inj h)
    rfl
  | cons a calls ih =>
    obtain ⟨⟨l₁, reply⟩, hcall, hrest⟩ := Option.bind_eq_some_iff.mp h
    obtain ⟨⟨l₂, out'⟩, hreplies, hpure⟩ := Option.bind_eq_some_iff.mp hrest
    obtain ⟨rfl, -⟩ := Prod.mk.inj (Option.some.inj hpure)
    rw [ih hreplies]
    cases a with
    | addElement key value =>
      obtain ⟨rfl, -⟩ := Prod.mk.inj (Option.some.inj hcall)
      rw [addedKeys, List.foldl_cons, Recency.map_fst_add]
    | get queryWord =>
      obtain ⟨rfl, -⟩ := Prod.mk.inj (Option.some.inj hcall)
      rfl

theorem lookup_nodes_eq_none {c : Cache} {key : Bytes} (h : key ∉ c.keys) :
    c.nodes.lookup key = none := by
  refine Recency.lookup_eq_none_iff.mpr fun p hp hpk => h ?_
  rw [← map_fst_nodes, ← hpk]
  exact List.mem_map_of_mem hp

/-- A cache whose keys are in the order of their last additions drops the one added longest ago. -/
theorem leastRecentlyUsed_of_wf {c : Cache} (h : c.Wf) {calls : List Call}
    (hage : c.keys.Pairwise fun a b =>
      Recency.age (addedKeys calls) a < Recency.age (addedKeys calls) b) :
    LeastRecentlyUsed c.capacity calls c where
  bounded := by
    rw [nodes, List.length_map]
    exact h.bounded
  nodup := h.keys
  present key value old hmem := by
    rw [addElement_nodes h, Recency.add, Recency.lookup_of_mem h.nodup_nodes hmem]
    dsimp only
    congr 2
    funext p
    exact Bool.eq_iff_iff.mpr (by simp)
  room key value hkey hroom := by
    rw [addElement_nodes h, Recency.add, lookup_nodes_eq_none hkey]
    dsimp only
    rw [if_neg hroom.ne]
  full key value hkey hfull := by
    have hpos := h.pos
    have hne : c.nodes ≠ [] := by
      intro hnil
      rw [hnil, List.length_nil] at hfull
      omega
    refine ⟨c.nodes.dropLast, c.nodes.getLast hne, (List.dropLast_append_getLast hne).symm, ?_, ?_⟩
    · rw [addElement_nodes h, Recency.add, lookup_nodes_eq_none hkey]
      dsimp only
      rw [if_pos hfull]
    · rw [← map_fst_nodes, ← List.dropLast_append_getLast hne, List.map_append,
        List.pairwise_append] at hage
      intro node hnode
      exact hage.2.2 _ (List.mem_map_of_mem hnode) _ (by simp)
  get_present key value hmem := by
    rw [get_eq h, Recency.lookup_of_mem h.nodup_nodes hmem]
    rfl
  get_absent key hkey := by
    rw [get_eq h, lookup_nodes_eq_none hkey]
    rfl

/-- **The cache is the recency list.** -/
theorem cache_leastRecentlyUsed {capacity : ℕ} (h : 0 < capacity) (calls : List Call) :
    ∃ c l out, replies call (empty capacity) calls = some (c, out) ∧
      replies (modelCall capacity) [] calls = some (l, out) ∧ c.nodes = l ∧
      LeastRecentlyUsed capacity calls c := by
  obtain ⟨c, l, out, hc, hl, hwf, rfl, rfl⟩ := refines_replies (refines_empty h) calls
  refine ⟨c, c.nodes, out, hc, hl, rfl, leastRecentlyUsed_of_wf hwf ?_⟩
  rw [← map_fst_nodes, map_fst_replies hl]
  exact Recency.pairwise_age c.capacity (addedKeys calls)

/-- Two places, and a key that is touched before a third one comes: the other key is dropped. -/
theorem cache_leastRecentlyUsed_two :
    let calls : List Call := [.addElement (lit "11") (lit "aa"), .addElement (lit "22") (lit "bb"),
      .addElement (lit "11") (lit "cc"), .addElement (lit "33") (lit "dd"), .get (lit "11")]
    (replies call (empty 2) calls).map (fun p => p.2.map Reply.evicted) =
        some [[], [], [], [lit "22"], []] ∧
      ∃ c l out, replies call (empty 2) calls = some (c, out) ∧
        replies (modelCall 2) [] calls = some (l, out) ∧ c.nodes = l ∧
        LeastRecentlyUsed 2 calls c :=
  ⟨by decide +kernel, cache_leastRecentlyUsed (by decide) _⟩

/-! ## The copy -/

/-- `Cache::Cache(const Cache &)`. -/
def copy (rhs : Cache) : Cache :=
  (empty rhs.capacity).addAll (rhs.cacheList.reverse.map Prod.snd)

/-- The other cache has the same nodes and is consistent, and every sequence of calls has the same
replies on both and leaves the same nodes. -/
structure SameBehaviour (c d : Cache) : Prop where
  nodes : d.nodes = c.nodes
  wf : d.Wf
  capacity : d.capacity = c.capacity
  replies : ∀ calls, ∃ c' d' out, replies call c calls = some (c', out) ∧
    replies call d calls = some (d', out) ∧ d'.nodes = c'.nodes

/-- No step of the copy drops, merges or moves a node. -/
theorem copy_nodes {c : Cache} (h : c.Wf) :
    c.copy.Wf ∧ c.copy.capacity = c.capacity ∧ c.copy.nodes = c.nodes := by
  obtain ⟨hwf, hcap, hnodes⟩ :=
    (wf_empty h.pos).addAll (c.cacheList.reverse.map Prod.snd)
  refine ⟨hwf, hcap, ?_⟩
  have hrev : (c.cacheList.reverse.map Prod.snd).map (fun node => (node.queryWord, node.reuslt)) =
      c.nodes.reverse := by
    rw [nodes, List.map_map, ← List.map_reverse]
    rfl
  have hlen : c.nodes.length ≤ c.capacity := by
    rw [nodes, List.length_map]
    exact h.bounded
  rw [hrev] at hnodes
  exact hnodes.trans (Recency.foldl_add_reverse h.nodup_nodes hlen)

/-- Two consistent caches with the same nodes and the same capacity refine the same model. -/
theorem sameBehaviour_of_nodes {c d : Cache} (hc : c.Wf) (hd : d.Wf)
    (hcap : d.capacity = c.capacity) (hnodes : d.nodes = c.nodes) : SameBehaviour c d where
  nodes := hnodes
  wf := hd
  capacity := hcap
  replies calls := by
    have hrefines : Refines c.capacity c c.nodes := ⟨hc, rfl, rfl⟩
    have hrefines' : Refines c.capacity d c.nodes := ⟨hd, hcap, hnodes⟩
    obtain ⟨c', l, out, hc', hl, -, -, hnodes'⟩ := refines_replies hrefines calls
    obtain ⟨d', l', out', hd', hl', -, -, hnodes''⟩ := refines_replies hrefines' calls
    obtain ⟨rfl, rfl⟩ := Prod.mk.inj (Option.some.inj (hl.symm.trans hl'))
    exact ⟨c', d', out, hc', hd', hnodes''.trans hnodes'.symm⟩

/-- **The copy behaves like the original.** -/
theorem copy_sameBehaviour {capacity : ℕ} (h : 0 < capacity) {calls : List Call} {c : Cache}
    {out : List Reply} (hc : replies call (empty capacity) calls = some (c, out)) :
    SameBehaviour c c.copy := by
  obtain ⟨c', l, out', hc', -, hwf, -, -⟩ := refines_replies (refines_empty h) calls
  obtain ⟨rfl, -⟩ := Prod.mk.inj (Option.some.inj (hc.symm.trans hc'))
  obtain ⟨hcopy, hcap, hnodes⟩ := copy_nodes hwf
  exact sameBehaviour_of_nodes hwf hcopy hcap hnodes

/-- The copy of a cache with two nodes and no room for a third. -/
theorem copy_sameBehaviour_full :
    let calls : List Call := [.addElement (lit "11") (lit "aa"), .addElement (lit "22") (lit "bb")]
    ∃ c out, replies call (empty 2) calls = some (c, out) ∧ SameBehaviour c c.copy := by
  intro calls
  have hcalls : ∃ c out, replies call (empty 2) calls = some (c, out) := ⟨_, _, rfl⟩
  obtain ⟨c, out, hc⟩ := hcalls
  exact ⟨c, out, hc, copy_sameBehaviour Nat.zero_lt_two hc⟩

end Cache

end SearchServer

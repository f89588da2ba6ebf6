import QTrace.Analysis.DetailTrie

/-! Failure links. The queue holds nodes whose links are set, in the order of their depth, so that
every node that is not deeper than its head is done; the walk for a child of the head only meets
such nodes and finds the border of the child's word. -/

namespace QTrace.Analysis.DetailMatcher

open Lib

variable {m : DetailMatcher} {paths needles : List (List UInt8)} {state target failure fuel : ℕ} {path word : List UInt8}
  {byte : UInt8} {done : ℕ → Prop} {build : Build} {es : List DetailEdge}

/-- The words of a trie. -/
abbrev wordSet (paths : List (List UInt8)) : Set (List UInt8) := {word | word ∈ paths}

theorem Trie.take_mem (h : Trie m paths) (hpath : path ∈ paths) (n : ℕ) : path.take n ∈ paths := by
  induction path using List.reverseRecOn with
  | nil => simpa using hpath
  | append_singleton front last ih =>
    rcases Nat.lt_or_ge n (front.length + 1) with hlt | hge
    · rw [List.take_append_of_le_length (by omega)]
      exact ih (h.init hpath)
    · rwa [List.take_of_length_le (by simpa using hge)]

/-- A word is shorter than the number of nodes: its prefixes are words too. -/
theorem Trie.length_lt (h : Trie m paths) (hpath : path ∈ paths) : path.length < m.nodes.length := by
  have hnodup : ((List.range (path.length + 1)).map path.take).Nodup := by
    refine List.nodup_range.map_on fun i hi j hj heq => ?_
    have := congrArg List.length heq
    rw [List.mem_range] at hi hj
    simp only [List.length_take] at this
    omega
  have hsub : (List.range (path.length + 1)).map path.take ⊆ paths := by
    intro front hfront
    obtain ⟨n, -, rfl⟩ := List.mem_map.mp hfront
    exact h.take_mem hpath n
  have := (hnodup.subperm hsub).length_le
  rw [List.length_map, List.length_range] at this
  rw [h.length]
  omega

theorem Trie.eq_zero_iff (h : Trie m paths) (hstate : paths[state]? = some path) : state = 0 ↔ path = [] := by
  constructor
  · rintro rfl
    exact Option.some.inj (hstate.symm.trans h.root)
  · rintro rfl
    exact h.index_unique hstate h.root

/-- The links and marks of the nodes that are done; the others have the marks of the trie. -/
structure Links (m : DetailMatcher) (paths needles : List (List UInt8)) (done : ℕ → Prop) : Prop where
  border : ∀ {state path}, done state → paths[state]? = some path → path ≠ [] →
    ∃ word, paths[(m.node state).failure]? = some word ∧ Border (wordSet paths) path word
  ends : ∀ {state path}, done state → paths[state]? = some path →
    ((m.node state).terminal = true ↔ EndsWith needles path)
  fresh : ∀ {state path}, ¬done state → paths[state]? = some path → ((m.node state).terminal = true ↔ path ∈ needles)

/-- The walk along failure links stops at the longest suffix that the byte fits. -/
theorem Links.failureFrom (htrie : Trie m paths) (hlinks : Links m paths needles done) (byte : UInt8)
    (hlevel : ∀ {v w}, paths[v]? = some w → w.length ≤ word.length → done v)
    (hfailure : paths[failure]? = some word) (hfuel : word.length ≤ fuel) :
    ∃ stop, paths[(m.failureFrom byte fuel failure).1]? = some stop ∧ Stops (wordSet paths) byte word stop := by
  have hmem : word ∈ wordSet paths := List.mem_of_getElem? hfailure
  induction fuel generalizing failure word with
  | zero =>
    rw [Nat.le_zero, List.length_eq_zero_iff] at hfuel
    exact ⟨word, hfailure, stops_self hmem (.inl hfuel)⟩
  | succ fuel ih =>
    rw [DetailMatcher.failureFrom]
    by_cases hzero : failure = 0
    · rw [if_pos hzero]
      exact ⟨word, hfailure, stops_self hmem (.inl ((htrie.eq_zero_iff hfailure).mp hzero))⟩
    · rw [if_neg hzero]
      have hne : word ≠ [] := fun h => hzero ((htrie.eq_zero_iff hfailure).mpr h)
      rcases hstep : m.transitionForBuild failure byte with ⟨_ | found, visits⟩
      · have hfits := (htrie.transitionForBuild_eq_none hfailure byte).mp (by rw [hstep])
        obtain ⟨next, hnext, hborder⟩ := hlinks.border (hlevel hfailure le_rfl) hfailure hne
        have hshort := hborder.length_lt
        obtain ⟨stop, hstop, hstops⟩ := ih (fun hv hle => hlevel hv (by omega)) hnext (by omega)
          (List.mem_of_getElem? hnext)
        exact ⟨stop, hstop, hstops.of_border hborder hfits⟩
      · have hfits := (htrie.transitionForBuild_eq_some hfailure byte found).mp (by rw [hstep])
        exact ⟨word, hfailure, stops_self hmem (.inr (List.mem_of_getElem? hfits))⟩

theorem node_setFailure (h : target < m.nodes.length) (failure other : ℕ) :
    (m.setFailure target failure).node other =
      if other = target then
        { m.node target with failure := failure, terminal := (m.node target).terminal || (m.node failure).terminal }
      else m.node other :=
  node_modify h other

theorem Trie.setFailure (h : Trie m paths) (htarget : paths[target]? = some word) :
    Trie (m.setFailure target failure) paths := by
  refine h.congr (by simp [DetailMatcher.setFailure]) rfl fun v => ?_
  rw [node_setFailure (h.lt htarget)]
  split_ifs with heq
  · rw [heq]
  · rfl

theorem Links.setFailure (htrie : Trie m paths) (hlinks : Links m paths needles done)
    (hstored : ∀ needle ∈ needles, needle ∈ paths) (htarget : paths[target]? = some path)
    (hfailure : paths[failure]? = some word) (hborder : Border (wordSet paths) path word) (hdone : done failure) :
    Links (m.setFailure target failure) paths needles fun v => done v ∨ v = target := by
  have hnode := node_setFailure (htrie.lt htarget) failure
  have hends := hlinks.ends hdone hfailure
  have hword : EndsWith needles path ↔ path ∈ needles ∨ EndsWith needles word := hborder.endsWith_iff hstored
  refine ⟨fun {v w} hv hw hne => ?_, fun {v w} hv hw => ?_, fun {v w} hv hw => ?_⟩
  · rw [hnode]
    split_ifs with heq
    · subst heq
      obtain rfl := Option.some.inj (hw.symm.trans htarget)
      exact ⟨word, hfailure, hborder⟩
    · exact hlinks.border (hv.resolve_right heq) hw hne
  · rw [hnode]
    split_ifs with heq
    · subst heq
      obtain rfl := Option.some.inj (hw.symm.trans htarget)
      rw [Bool.or_eq_true, hends, hword]
      by_cases hold : done v
      · rw [hlinks.ends hold hw, hword]
        tauto
      · rw [hlinks.fresh hold hw]
    · exact hlinks.ends (hv.resolve_right heq) hw
  · rw [not_or] at hv
    rw [hnode, if_neg hv.2]
    exact hlinks.fresh hv.1 hw

/-- The link behind an edge of a node, where all nodes that are not deeper are done. -/
theorem Links.linkEdge {edge : DetailEdge} (htrie : Trie build.matcher paths)
    (hlinks : Links build.matcher paths needles done) (hstored : ∀ needle ∈ needles, needle ∈ paths)
    (hstate : paths[state]? = some path) (hne : path ≠ [])
    (hlevel : ∀ {v w}, paths[v]? = some w → w.length ≤ path.length → done v)
    (hedge : paths[edge.target]? = some (path ++ [edge.byte])) :
    Trie (linkEdge state build edge).matcher paths ∧
      Links (linkEdge state build edge).matcher paths needles fun v => done v ∨ v = edge.target := by
  obtain ⟨word, hfailure, hborder⟩ := hlinks.border (hlevel hstate le_rfl) hstate hne
  have hshort := hborder.length_lt
  have hfuel := htrie.length_lt (List.mem_of_getElem? hfailure)
  obtain ⟨stop, hstop, hstops⟩ := hlinks.failureFrom htrie edge.byte (fun hv hle => hlevel hv (by omega))
    hfailure hfuel.le
  have hlonger := hstops.border htrie.prefixClosed hborder
  set found := (build.matcher.failureFrom edge.byte build.matcher.nodes.length (build.matcher.node state).failure).1
  obtain ⟨next, hnext, hfound⟩ : ∃ next, paths[((build.matcher.transitionForBuild found edge.byte).1).getD 0]? = some next ∧
      next = if stop ++ [edge.byte] ∈ wordSet paths then stop ++ [edge.byte] else [] := by
    cases htransition : (build.matcher.transitionForBuild found edge.byte).1 with
    | none =>
      have hnot : stop ++ [edge.byte] ∉ wordSet paths := (htrie.transitionForBuild_eq_none hstop edge.byte).mp htransition
      exact ⟨[], htrie.root, (if_neg hnot).symm⟩
    | some next =>
      have hnext := (htrie.transitionForBuild_eq_some hstop edge.byte next).mp htransition
      have hmem : stop ++ [edge.byte] ∈ wordSet paths := List.mem_of_getElem? hnext
      exact ⟨_, hnext, (if_pos hmem).symm⟩
  rw [← hfound] at hlonger
  refine ⟨htrie.setFailure hedge, hlinks.setFailure htrie hstored hedge hnext hlonger (hlevel hnext ?_)⟩
  have hless := hlonger.length_lt
  rw [List.length_append, List.length_singleton] at hless
  omega

theorem Links.linkEdges (htrie : Trie build.matcher paths) (hlinks : Links build.matcher paths needles done)
    (hstored : ∀ needle ∈ needles, needle ∈ paths) (hstate : paths[state]? = some path) (hne : path ≠ [])
    (hlevel : ∀ {v w}, paths[v]? = some w → w.length ≤ path.length → done v)
    (hedges : ∀ edge ∈ es, paths[edge.target]? = some (path ++ [edge.byte])) :
    Trie (es.foldl (DetailMatcher.linkEdge state) build).matcher paths ∧
      Links (es.foldl (DetailMatcher.linkEdge state) build).matcher paths needles
        fun v => done v ∨ v ∈ es.map (·.target) := by
  induction es generalizing build done with
  | nil => exact ⟨htrie, by simpa using hlinks⟩
  | cons edge es ih =>
    obtain ⟨htrie₁, hlinks₁⟩ := hlinks.linkEdge htrie hstored hstate hne hlevel (hedges edge (.head _))
    obtain ⟨htrie₂, hlinks₂⟩ := ih htrie₁ hlinks₁ (fun hv hle => .inl (hlevel hv hle)) fun e he => hedges e (.tail _ he)
    refine ⟨htrie₂, ?_⟩
    simpa only [List.foldl_cons, List.map_cons, List.mem_cons, or_assoc] using hlinks₂

/-- The length of the word of a node. -/
def depth (paths : List (List UInt8)) (state : ℕ) : ℕ := (paths.getD state []).length

theorem depth_eq (h : paths[state]? = some path) : depth paths state = path.length := by
  rw [depth, List.getD_eq_getElem?_getD, h, Option.getD_some]

/-- The node of the word without its last byte is the root, or in the list. -/
def ParentIn (paths : List (List UInt8)) (popped : List ℕ) (state : ℕ) : Prop :=
  ∃ path byte parent, paths[state]? = some (path ++ [byte]) ∧ paths[parent]? = some path ∧ (parent = 0 ∨ parent ∈ popped)

/-- The breadth-first loop: a node was met where its parent was taken from the queue. -/
structure Search (m : DetailMatcher) (paths needles : List (List UInt8)) (popped queue : List ℕ) : Prop where
  trie : Trie m paths
  stored : ∀ needle ∈ needles, needle ∈ paths
  links : Links m paths needles fun v => v = 0 ∨ v ∈ popped ++ queue
  nodup : (popped ++ queue).Nodup
  mem : ∀ v, v ∈ popped ++ queue ↔ ParentIn paths popped v
  sorted : queue.Pairwise fun a b => depth paths a ≤ depth paths b ∧ depth paths b ≤ depth paths a + 1

variable {popped queue : List ℕ}

theorem Search.ne_zero (h : Search m paths needles popped queue) (hstate : state ∈ popped ++ queue) : state ≠ 0 := by
  obtain ⟨path, byte, -, hpath, -⟩ := (h.mem state).mp hstate
  intro hzero
  have := (h.trie.eq_zero_iff hpath).mp hzero
  simp at this

/-- A word whose proper prefixes were all taken from the queue was met. -/
theorem Search.met (h : Search m paths needles popped queue)
    (hfront : ∀ {v w}, paths[v]? = some w → w.length < path.length → v = 0 ∨ v ∈ popped ++ queue → v = 0 ∨ v ∈ popped)
    (hstate : paths[state]? = some path) : state = 0 ∨ state ∈ popped ++ queue := by
  induction path using List.reverseRecOn generalizing state with
  | nil => exact .inl ((h.trie.eq_zero_iff hstate).mpr rfl)
  | append_singleton front last ih =>
    obtain ⟨parent, hparent⟩ := List.mem_iff_getElem?.mp (h.trie.init (List.mem_of_getElem? hstate))
    have hmet := ih (fun hv hlt => hfront hv (by rw [List.length_append, List.length_singleton]; omega)) hparent
    have hpopped := hfront hparent (by rw [List.length_append, List.length_singleton]; omega) hmet
    exact .inr ((h.mem state).mpr ⟨front, last, parent, hstate, hparent, hpopped⟩)

/-- All nodes that are not deeper than the head of the queue were met. -/
theorem Search.level (h : Search m paths needles popped (state :: queue)) (hstate : paths[state]? = some path) {v : ℕ}
    (hv : paths[v]? = some word) (hle : word.length ≤ path.length) : v = 0 ∨ v ∈ popped ++ state :: queue := by
  refine h.met (fun {u front} hu hlt hmet => ?_) hv
  rcases hmet with rfl | hmet
  · exact .inl rfl
  · rcases List.mem_append.mp hmet with hpopped | hqueue
    · exact .inr hpopped
    · -- nothing in the queue is above its head
      have hdeep : depth paths state ≤ depth paths u := by
        rcases List.mem_cons.mp hqueue with rfl | hlater
        · exact le_rfl
        · exact ((List.pairwise_cons.mp h.sorted).1 u hlater).1
      rw [depth_eq hstate, depth_eq hu] at hdeep
      omega

theorem Search.finished (h : Search m paths needles popped []) (hstate : paths[state]? = some path) :
    state = 0 ∨ state ∈ popped ++ [] :=
  h.met (fun _ _ hmet => by simpa using hmet) hstate

theorem Search.length_lt (h : Search m paths needles popped queue) : (popped ++ queue).length < m.nodes.length := by
  have hnodup : (0 :: (popped ++ queue)).Nodup :=
    List.nodup_cons.mpr ⟨fun hmem => h.ne_zero hmem rfl, h.nodup⟩
  have hsub : 0 :: (popped ++ queue) ⊆ List.range m.nodes.length := by
    intro v hv
    rw [List.mem_range]
    rcases List.mem_cons.mp hv with rfl | hmem
    · exact h.trie.lt h.trie.root
    · obtain ⟨path, byte, -, hpath, -⟩ := (h.mem v).mp hmem
      exact h.trie.lt hpath
  have := (hnodup.subperm hsub).length_le
  rwa [List.length_cons, List.length_range] at this

theorem Children.mem_targets (h : Children paths path es) (v : ℕ) :
    v ∈ es.map (·.target) ↔ ∃ byte, paths[v]? = some (path ++ [byte]) := by
  rw [List.mem_map]
  constructor
  · rintro ⟨edge, hedge, rfl⟩
    exact ⟨edge.byte, (h.iff _ _).mp ⟨edge, hedge, rfl, rfl⟩⟩
  · rintro ⟨byte, hv⟩
    obtain ⟨edge, hedge, -, htarget⟩ := (h.iff _ _).mpr hv
    exact ⟨edge, hedge, htarget⟩

theorem Children.nodup_targets (h : Children paths path es) : (es.map (·.target)).Nodup := by
  refine (List.Nodup.of_map _ h.nodup).map_on fun edge hedge edge' hedge' heq => ?_
  have hword := (h.iff edge.byte edge.target).mp ⟨edge, hedge, rfl, rfl⟩
  have hword' := (h.iff edge'.byte edge'.target).mp ⟨edge', hedge', rfl, rfl⟩
  rw [heq] at hword
  have hbyte : edge.byte = edge'.byte := by simpa using Option.some.inj (hword.symm.trans hword')
  exact List.inj_on_of_nodup_map h.nodup hedge hedge' hbyte

/-- One round: the head is taken from the queue, and its children are linked and put behind. -/
theorem Search.step (h : Search build.matcher paths needles popped (state :: queue)) :
    Search ((build.matcher.edgesOf state).foldl (linkEdge state) { build with work := build.work + 1 }).matcher paths
      needles (popped ++ [state]) (queue ++ (build.matcher.edgesOf state).map (·.target)) := by
  have hin : state ∈ popped ++ state :: queue := by simp
  obtain ⟨front, last, -, hstate, -⟩ := (h.mem state).mp hin
  have hchildren := h.trie.edgesOf_children hstate
  set es := build.matcher.edgesOf state
  have hedges : ∀ edge ∈ es, paths[edge.target]? = some (front ++ [last] ++ [edge.byte]) := fun edge hedge =>
    (hchildren.iff edge.byte edge.target).mp ⟨edge, hedge, rfl, rfl⟩
  have hcounted : Trie ({ build with work := build.work + 1 } : Build).matcher paths := h.trie
  obtain ⟨htrie, hlinks⟩ := Links.linkEdges hcounted h.links h.stored hstate (by simp)
    (fun hv hle => h.level hstate hv hle) hedges
  have hperm : ∀ v, v ∈ popped ++ [state] ++ (queue ++ es.map (·.target)) ↔
      v ∈ popped ++ state :: queue ∨ v ∈ es.map (·.target) := by
    intro v
    simp only [List.mem_append, List.mem_cons, List.not_mem_nil, or_false]
    tauto
  refine ⟨htrie, h.stored, ?_, ?_, ?_, ?_⟩
  · simpa only [hperm, or_assoc] using hlinks
  · have hdisjoint : List.Disjoint (popped ++ state :: queue) (es.map (·.target)) := by
      intro v hmet htarget
      obtain ⟨byte, hv⟩ := (hchildren.mem_targets v).mp htarget
      obtain ⟨path, byte', parent, hv', hparent, hpopped⟩ := (h.mem v).mp hmet
      obtain rfl := (List.append_inj' (Option.some.inj (hv.symm.trans hv')) rfl).1
      obtain rfl := h.trie.index_unique hparent hstate
      rcases hpopped with hzero | hpopped
      · exact h.ne_zero hin hzero
      · exact (List.disjoint_of_nodup_append h.nodup) hpopped (.head _)
    have := h.nodup.append hchildren.nodup_targets hdisjoint
    simpa only [List.append_assoc, List.singleton_append, List.cons_append, List.nil_append] using this
  · intro v
    rw [hperm, hchildren.mem_targets, h.mem]
    constructor
    · rintro (⟨path, byte, parent, hv, hparent, hpopped⟩ | ⟨byte, hv⟩)
      · exact ⟨path, byte, parent, hv, hparent, hpopped.imp_right fun hmem => List.mem_append_left _ hmem⟩
      · exact ⟨_, byte, state, hv, hstate, .inr (by simp)⟩
    · rintro ⟨path, byte, parent, hv, hparent, hzero | hpopped⟩
      · exact .inl ⟨path, byte, parent, hv, hparent, .inl hzero⟩
      · rcases List.mem_append.mp hpopped with hpopped | hhead
        · exact .inl ⟨path, byte, parent, hv, hparent, .inr hpopped⟩
        · obtain rfl := List.mem_singleton.mp hhead
          obtain rfl := Option.some.inj (hparent.symm.trans hstate)
          exact .inr ⟨byte, hv⟩
  · -- what was in the queue is as deep as the head or by one deeper, and the children are by one deeper
    have hsorted := List.pairwise_cons.mp h.sorted
    have hdepth : ∀ v ∈ es.map (·.target), depth paths v = depth paths state + 1 := by
      intro v hv
      obtain ⟨byte, hword⟩ := (hchildren.mem_targets v).mp hv
      rw [depth_eq hword, depth_eq hstate, List.length_append, List.length_singleton]
    refine List.pairwise_append.mpr ⟨hsorted.2, ?_, fun a ha b hb => ?_⟩
    · refine List.pairwise_of_forall_mem_list fun a ha b hb => ?_
      rw [hdepth a ha, hdepth b hb]
      omega
    · have := hsorted.1 a ha
      rw [hdepth b hb]
      omega

/-- The loop ends with an empty queue, and then all nodes are done. -/
theorem Search.linkQueue (h : Search build.matcher paths needles popped queue)
    (hfuel : build.matcher.nodes.length ≤ fuel + popped.length) :
    Trie (linkQueue fuel build queue).matcher paths ∧ Links (linkQueue fuel build queue).matcher paths needles fun _ => True := by
  induction fuel generalizing build popped queue with
  | zero =>
    have hlt := h.length_lt
    rw [List.length_append] at hlt
    omega
  | succ fuel ih =>
    cases queue with
    | nil =>
      refine ⟨h.trie, fun {v w} _ hv hne => ?_, fun {v w} _ hv => ?_, fun {v w} hfalse _ => absurd trivial hfalse⟩
      · exact h.links.border (h.finished hv) hv hne
      · exact h.links.ends (h.finished hv) hv
    | cons state queue =>
      have hstep := h.step
      refine ih hstep ?_
      have hnodes : ∀ {m m' : DetailMatcher}, Trie m paths → Trie m' paths → m'.nodes.length = m.nodes.length :=
        fun ht ht' => ht'.length.trans ht.length.symm
      rw [hnodes h.trie hstep.trie, List.length_append, List.length_singleton]
      omega

/-- The loop starts with the children of the root, whose links are the default. -/
theorem Marked.search (hm : Marked m paths needles) (hne : [] ∉ needles) :
    Search m paths needles [] ((m.edgesOf 0).map (·.target)) := by
  have hchildren := hm.trie.edgesOf_children hm.trie.root
  have htargets : ∀ v, v ∈ (m.edgesOf 0).map (·.target) ↔ ∃ byte, paths[v]? = some [byte] := hchildren.mem_targets
  have hnone : ¬ EndsWith needles [] := by
    rintro ⟨needle, hneedle, hsuffix⟩
    exact hne (List.suffix_nil.mp hsuffix ▸ hneedle)
  have hsingle : ∀ {v w}, v = 0 ∨ v ∈ [] ++ (m.edgesOf 0).map (·.target) → paths[v]? = some w → w = [] ∨ ∃ byte, w = [byte] := by
    rintro v w (rfl | hv) hw
    · exact .inl (Option.some.inj (hw.symm.trans hm.trie.root))
    · obtain ⟨byte, hword⟩ := (htargets v).mp hv
      exact .inr ⟨byte, Option.some.inj (hw.symm.trans hword)⟩
  refine ⟨hm.trie, hm.stored, ⟨fun {v w} hv hw hword => ?_, fun {v w} hv hw => ?_, fun {v w} _ hw => hm.terminal hw⟩,
    hchildren.nodup_targets, fun v => ?_, ?_⟩
  · obtain ⟨byte, rfl⟩ := (hsingle hv hw).resolve_left hword
    refine ⟨[], ?_, border_singleton hm.trie.prefixClosed byte⟩
    rw [hm.failure, hm.trie.root]
  · rw [hm.terminal hw]
    rcases hsingle hv hw with rfl | ⟨byte, rfl⟩
    · exact iff_of_false hne hnone
    · rw [(border_singleton hm.trie.prefixClosed byte).endsWith_iff hm.stored]
      exact (or_iff_left hnone).symm
  · rw [List.nil_append, htargets]
    constructor
    · rintro ⟨byte, hv⟩
      exact ⟨[], byte, 0, hv, hm.trie.root, .inl rfl⟩
    · rintro ⟨path, byte, parent, hv, hparent, hzero | hpopped⟩
      · rw [(hm.trie.eq_zero_iff hparent).mp hzero] at hv
        exact ⟨byte, hv⟩
      · cases hpopped
  · refine List.pairwise_of_forall_mem_list fun a ha b hb => ?_
    obtain ⟨byte, hword⟩ := (htargets a).mp ha
    obtain ⟨byte', hword'⟩ := (htargets b).mp hb
    rw [depth_eq hword, depth_eq hword']
    simp

theorem Marked.buildFailures (hm : Marked build.matcher paths needles) (hne : [] ∉ needles) :
    Trie (buildFailures build).matcher paths ∧ Links (buildFailures build).matcher paths needles fun _ => True := by
  have hsearch := hm.search hne
  have hcounted : Search ({ build with work := build.work + (build.matcher.edgesOf 0).length } : Build).matcher paths needles
      [] ((build.matcher.edgesOf 0).map (·.target)) := hsearch
  exact Search.linkQueue hcounted le_rfl

end QTrace.Analysis.DetailMatcher

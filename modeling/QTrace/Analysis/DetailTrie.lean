import QTrace.Analysis.DetailMatcher
import QTrace.Lib.Borders

/-! The trie of the matcher. Every node stands for a word, the bytes on its way from the root; the
linked list of a node holds an edge for every longer word by one byte. -/

namespace QTrace.Analysis.DetailMatcher

open Lib

/-- The list that starts at an edge; links lead to older edges. -/
inductive Linked (edges : List DetailEdge) : ℕ → List DetailEdge → Prop
  | nil : Linked edges noEdge []
  | cons {edge : ℕ} {candidate : DetailEdge} {rest : List DetailEdge} (at_ : edges[edge]? = some candidate)
      (real : edge ≠ noEdge) (older : candidate.next = noEdge ∨ candidate.next < edge)
      (tail : Linked edges candidate.next rest) : Linked edges edge (candidate :: rest)

variable {edges es : List DetailEdge} {edge : ℕ}

section

variable (h : Linked edges edge es)
include h

theorem Linked.start : edge = noEdge ∨ edge < edges.length := by
  cases h with
  | nil => exact .inl rfl
  | cons at_ _ _ _ => exact .inr (List.getElem?_eq_some_iff.mp at_).1

theorem Linked.length_le_succ : es = [] ∨ es.length ≤ edge + 1 := by
  induction h with
  | nil => exact .inl rfl
  | cons at_ real older tail ih =>
    right
    rcases ih with rfl | hlength
    · simp
    · rcases older with hnone | hless
      · rw [hnone] at tail
        cases tail with
        | nil => simp
        | cons _ hreal _ _ => exact absurd rfl hreal
      · simp only [List.length_cons]
        omega

theorem Linked.length_le : es.length ≤ edges.length := by
  cases h with
  | nil => exact Nat.zero_le _
  | cons at_ real older tail =>
    have hlt := (List.getElem?_eq_some_iff.mp at_).1
    have := (Linked.cons at_ real older tail).length_le_succ.resolve_left (by simp)
    omega

theorem Linked.chain_eq {fuel : ℕ} (hfuel : es.length ≤ fuel) : chain edges fuel edge = es := by
  induction h generalizing fuel with
  | nil => cases fuel <;> simp [chain]
  | cons at_ real older tail ih =>
    cases fuel with
    | zero => simp at hfuel
    | succ fuel =>
      rw [List.length_cons, Nat.succ_le_succ_iff] at hfuel
      simp only [chain, if_neg real, at_, ih hfuel]

theorem Linked.append (more : List DetailEdge) : Linked (edges ++ more) edge es := by
  induction h with
  | nil => exact .nil
  | cons at_ real older tail ih =>
    refine .cons ?_ real older ih
    rw [List.getElem?_append_left (List.getElem?_eq_some_iff.mp at_).1, at_]

end

theorem findEdge_eq_some {byte : UInt8} {target : ℕ} (hnodup : (es.map (·.byte)).Nodup) :
    (findEdge byte es).1 = some target ↔ ∃ edge ∈ es, edge.byte = byte ∧ edge.target = target := by
  induction es with
  | nil => simp [findEdge]
  | cons candidate es ih =>
    rw [List.map_cons, List.nodup_cons] at hnodup
    rw [findEdge]
    by_cases hbyte : candidate.byte = byte
    · rw [if_pos hbyte]
      constructor
      · intro h
        exact ⟨candidate, .head _, hbyte, Option.some.inj h⟩
      · rintro ⟨edge, hmem, rfl, rfl⟩
        rcases List.mem_cons.mp hmem with rfl | hmem
        · rfl
        · exact absurd (hbyte ▸ List.mem_map_of_mem hmem) hnodup.1
    · rw [if_neg hbyte]
      simp only [ih hnodup.2, List.mem_cons]
      constructor
      · rintro ⟨edge, hmem, hedge⟩
        exact ⟨edge, .inr hmem, hedge⟩
      · rintro ⟨edge, rfl | hmem, hedge⟩
        · exact absurd hedge.1 hbyte
        · exact ⟨edge, hmem, hedge⟩

/-- The edges of a node lead to the words that are longer by one byte. -/
structure Children (paths : List (List UInt8)) (path : List UInt8) (es : List DetailEdge) : Prop where
  nodup : (es.map (·.byte)).Nodup
  iff : ∀ byte target, (∃ edge ∈ es, edge.byte = byte ∧ edge.target = target) ↔ paths[target]? = some (path ++ [byte])

/-- The shape of a trie whose nodes stand for the words of `paths`. -/
structure Trie (m : DetailMatcher) (paths : List (List UInt8)) : Prop where
  length : m.nodes.length = paths.length
  root : paths[0]? = some []
  nodup : paths.Nodup
  init : ∀ {path byte}, path ++ [byte] ∈ paths → path ∈ paths
  linked : ∀ {state path}, paths[state]? = some path →
    ∃ es, Linked m.edges (m.node state).firstEdge es ∧ Children paths path es

variable {m : DetailMatcher} {paths needles : List (List UInt8)} {state target : ℕ} {path pattern : List UInt8} {byte : UInt8}
  {build build' : Build}

theorem Trie.index_unique (h : Trie m paths) {state' : ℕ} (hstate : paths[state]? = some path)
    (hstate' : paths[state']? = some path) : state = state' := by
  obtain ⟨hlt, hpath⟩ := List.getElem?_eq_some_iff.mp hstate
  obtain ⟨hlt', hpath'⟩ := List.getElem?_eq_some_iff.mp hstate'
  exact (h.nodup.getElem_inj_iff).mp (hpath.trans hpath'.symm)

theorem Trie.lt (h : Trie m paths) (hstate : paths[state]? = some path) : state < m.nodes.length := by
  rw [h.length]
  exact (List.getElem?_eq_some_iff.mp hstate).1

theorem Trie.prefixClosed (h : Trie m paths) : PrefixClosed {word | word ∈ paths} where
  nil := List.mem_of_getElem? h.root
  init := h.init

section

variable (h : Trie m paths) (hstate : paths[state]? = some path)
include h hstate

theorem Trie.edgesOf_children : Children paths path (m.edgesOf state) := by
  obtain ⟨es, hlinked, hchildren⟩ := h.linked hstate
  rwa [edgesOf, hlinked.chain_eq hlinked.length_le]

theorem Trie.transitionForBuild_eq_some (byte : UInt8) (target : ℕ) :
    (m.transitionForBuild state byte).1 = some target ↔ paths[target]? = some (path ++ [byte]) := by
  have hchildren := h.edgesOf_children hstate
  rw [transitionForBuild, findEdge_eq_some hchildren.nodup, hchildren.iff]

theorem Trie.transitionForBuild_eq_none (byte : UInt8) :
    (m.transitionForBuild state byte).1 = none ↔ path ++ [byte] ∉ paths := by
  rw [Option.eq_none_iff_forall_ne_some]
  simp only [ne_eq, h.transitionForBuild_eq_some hstate, List.mem_iff_getElem?, not_exists]

end

theorem node_modify {nodes : List DetailNode} {f : DetailNode → DetailNode} (hstate : state < nodes.length)
    (other : ℕ) :
    (⟨nodes.modify state f, edges⟩ : DetailMatcher).node other =
      if other = state then f ((⟨nodes, edges⟩ : DetailMatcher).node state)
      else (⟨nodes, edges⟩ : DetailMatcher).node other := by
  unfold node
  rw [List.getD_eq_getElem?_getD, List.getElem?_modify]
  by_cases hother : other = state
  · subst hother
    simp [hstate]
  · simp [hother, Ne.symm hother]

theorem node_addNode (h : state < m.nodes.length) (other : ℕ) :
    (m.addNode state byte).node other =
      if other = state then { m.node state with firstEdge := m.edges.length } else m.node other := by
  rw [addNode, node_modify (by rw [List.length_append]; omega)]
  -- an index behind the nodes reads as the default, which is what the new node is
  have hold : ∀ v, (⟨m.nodes ++ [.default], m.edges ++ [⟨byte, m.nodes.length, (m.node state).firstEdge⟩]⟩ :
      DetailMatcher).node v = m.node v := by
    intro v
    simp only [node, List.getD_eq_getElem?_getD]
    rcases lt_trichotomy v m.nodes.length with hlt | rfl | hgt
    · rw [List.getElem?_append_left hlt]
    · simp
    · rw [List.getElem?_eq_none (by simp; omega), List.getElem?_eq_none (by omega)]
  rw [hold, hold]

theorem node_addNode_new (h : state < m.nodes.length) : (m.addNode state byte).node m.nodes.length = .default := by
  rw [node_addNode h, if_neg (by omega), node, List.getD_eq_getElem?_getD, List.getElem?_eq_none le_rfl, Option.getD_none]

theorem getElem?_concat_eq {word word' : List UInt8} :
    (paths ++ [word])[target]? = some word' ↔
      paths[target]? = some word' ∨ target = paths.length ∧ word = word' := by
  rcases lt_trichotomy target paths.length with hlt | rfl | hgt
  · rw [List.getElem?_append_left hlt]
    simp [hlt.ne]
  · simp
  · rw [List.getElem?_eq_none (by simp; omega), List.getElem?_eq_none (by omega)]
    simp [hgt.ne']

theorem Trie.addNode (h : Trie m paths) (hstate : paths[state]? = some path) (hnew : path ++ [byte] ∉ paths)
    (hsmall : m.edges.length < noEdge) : Trie (m.addNode state byte) (paths ++ [path ++ [byte]]) := by
  have hlt := h.lt hstate
  have hpath : path ∈ paths := List.mem_of_getElem? hstate
  refine ⟨by simp [DetailMatcher.addNode, h.length], ?_, ?_, ?_, ?_⟩
  · exact getElem?_concat_eq.mpr (.inl h.root)
  · exact h.nodup.append (List.nodup_singleton _) (by simpa using hnew)
  · intro word last hmem
    rw [List.mem_append, List.mem_singleton] at hmem ⊢
    rcases hmem with hmem | heq
    · exact .inl (h.init hmem)
    · exact .inl ((List.append_inj' heq rfl).1 ▸ hpath)
  · intro other word hother
    rcases getElem?_concat_eq.mp hother with hold | ⟨rfl, rfl⟩
    · obtain ⟨es, hlinked, hchildren⟩ := h.linked hold
      rw [node_addNode hlt]
      by_cases heq : other = state
      · -- the node that got the edge
        subst heq
        obtain rfl := Option.some.inj (hold.symm.trans hstate)
        rw [if_pos rfl]
        refine ⟨⟨byte, m.nodes.length, (m.node other).firstEdge⟩ :: es, .cons (by simp [DetailMatcher.addNode]) hsmall.ne ?_
          (hlinked.append _), ?_, ?_⟩
        · exact hlinked.start
        · rw [List.map_cons, List.nodup_cons]
          refine ⟨fun hmem => hnew ?_, hchildren.nodup⟩
          obtain ⟨edge, hedge, hbyte⟩ := List.mem_map.mp hmem
          exact List.mem_of_getElem? ((hchildren.iff byte edge.target).mp ⟨edge, hedge, hbyte, rfl⟩)
        · intro byte' target'
          rw [getElem?_concat_eq, ← hchildren.iff, ← h.length]
          simp only [List.mem_cons, exists_eq_or_imp, List.append_cancel_left_eq, List.cons.injEq, and_true]
          rw [or_comm, and_comm, eq_comm (a := m.nodes.length)]
      · rw [if_neg heq]
        refine ⟨es, hlinked.append _, hchildren.nodup, fun byte' target' => ?_⟩
        rw [getElem?_concat_eq, ← hchildren.iff]
        refine ⟨.inl, fun hor => hor.resolve_right ?_⟩
        rintro ⟨-, hword⟩
        exact heq (h.index_unique hold ((List.append_inj' hword rfl).1 ▸ hstate))
    · -- the new node has no edges yet
      rw [← h.length, node_addNode_new hlt]
      refine ⟨[], .nil, List.nodup_nil, fun byte' target' => ?_⟩
      rw [getElem?_concat_eq]
      simp only [List.not_mem_nil, false_and, exists_false, false_iff, not_or, not_and]
      refine ⟨fun hmem => hnew (h.init (List.mem_of_getElem? hmem)), fun _ heq => ?_⟩
      have := congrArg List.length heq
      simp at this

/-- The shape depends on the edges and on where the lists start. -/
theorem Trie.congr {m' : DetailMatcher} (h : Trie m paths) (hlength : m'.nodes.length = m.nodes.length)
    (hedges : m'.edges = m.edges) (hfirst : ∀ v, (m'.node v).firstEdge = (m.node v).firstEdge) : Trie m' paths where
  length := hlength.trans h.length
  root := h.root
  nodup := h.nodup
  init := h.init
  linked := by
    intro state path hstate
    rw [hedges, hfirst]
    exact h.linked hstate

/-- A trie without failure links, in which the needles are marked. -/
structure Marked (m : DetailMatcher) (paths needles : List (List UInt8)) : Prop where
  trie : Trie m paths
  failure : ∀ state, (m.node state).failure = 0
  terminal : ∀ {state path}, paths[state]? = some path → ((m.node state).terminal = true ↔ path ∈ needles)
  stored : ∀ needle ∈ needles, needle ∈ paths

theorem marked_root : Marked ⟨[.default], []⟩ [[]] [] := by
  have hroot : ∀ {state : ℕ} {path : List UInt8}, [[]][state]? = some path → state = 0 ∧ path = [] := by
    intro state path h
    cases state with
    | zero => exact ⟨rfl, (Option.some.inj h).symm⟩
    | succ state => cases h
  have hnode : ∀ state, (⟨[.default], []⟩ : DetailMatcher).node state = .default := by
    intro state
    cases state <;> simp [node]
  refine ⟨⟨rfl, rfl, List.nodup_singleton _, ?_, ?_⟩, fun state => ?_, fun hstate => ?_, by simp⟩
  · intro path byte hmem
    simp at hmem
  · intro state path hstate
    obtain ⟨rfl, rfl⟩ := hroot hstate
    refine ⟨[], .nil, List.nodup_nil, fun byte target => ?_⟩
    simp only [List.not_mem_nil, false_and, exists_false, false_iff]
    intro htarget
    simpa using (hroot htarget).2
  · rw [hnode]
    rfl
  · rw [hnode]
    simp [DetailNode.default]

theorem addByte_ok (h : addByte (build, state) byte = .ok (build', target)) :
    build'.matcher = build.matcher ∧ (build.matcher.transitionForBuild state byte).1 = some target ∨
      build'.matcher = build.matcher.addNode state byte ∧ target = build.matcher.nodes.length ∧
        (build.matcher.transitionForBuild state byte).1 = none := by
  unfold addByte at h
  dsimp only at h
  split at h
  · next found visits heq =>
    obtain ⟨rfl, rfl⟩ := Prod.mk.inj (Except.ok.inj h)
    exact .inl ⟨rfl, by rw [heq]⟩
  · next visits heq =>
    split_ifs at h
    obtain ⟨rfl, rfl⟩ := Prod.mk.inj (Except.ok.inj h)
    exact .inr ⟨rfl, rfl, by rw [heq]⟩

/-- One byte leads to the longer word, which is added where it is new. -/
theorem Marked.addByte (hm : Marked build.matcher paths needles) (hstate : paths[state]? = some path)
    (hsmall : build.matcher.edges.length < noEdge) (h : addByte (build, state) byte = .ok (build', target)) :
    ∃ paths', Marked build'.matcher paths' needles ∧ paths'[target]? = some (path ++ [byte]) ∧
      build'.matcher.edges.length ≤ build.matcher.edges.length + 1 := by
  have hlt := hm.trie.lt hstate
  rcases addByte_ok h with ⟨hsame, hfound⟩ | ⟨hadded, rfl, hnone⟩
  · rw [hsame]
    exact ⟨paths, hm, (hm.trie.transitionForBuild_eq_some hstate byte target).mp hfound, by omega⟩
  · have hnew := (hm.trie.transitionForBuild_eq_none hstate byte).mp hnone
    rw [hadded]
    refine ⟨paths ++ [path ++ [byte]], ⟨hm.trie.addNode hstate hnew hsmall, fun v => ?_, fun {v word} hword => ?_, ?_⟩,
      getElem?_concat_eq.mpr (.inr ⟨hm.trie.length, rfl⟩), by simp [addNode]⟩
    · rw [node_addNode hlt]
      split_ifs
      · exact hm.failure state
      · exact hm.failure v
    · rcases getElem?_concat_eq.mp hword with hold | ⟨rfl, rfl⟩
      · rw [node_addNode hlt]
        split_ifs with heq
        · subst heq
          exact hm.terminal hold
        · exact hm.terminal hold
      · rw [← hm.trie.length, node_addNode_new hlt]
        refine iff_of_false (by simp [DetailNode.default]) fun hneedle => hnew (hm.stored _ hneedle)
    · intro needle hneedle
      exact List.mem_append_left _ (hm.stored needle hneedle)

theorem Marked.addBytes (hm : Marked build.matcher paths needles) (hstate : paths[state]? = some path)
    (hsmall : build.matcher.edges.length + pattern.length ≤ noEdge)
    (h : pattern.foldlM DetailMatcher.addByte (build, state) = .ok (build', target)) :
    ∃ paths', Marked build'.matcher paths' needles ∧ paths'[target]? = some (path ++ pattern) ∧
      build'.matcher.edges.length ≤ build.matcher.edges.length + pattern.length := by
  induction pattern generalizing build paths state path with
  | nil =>
    obtain ⟨rfl, rfl⟩ := Prod.mk.inj (pure_eq_ok.mp h)
    exact ⟨paths, hm, by simpa using hstate, by simp⟩
  | cons byte pattern ih =>
    rw [List.foldlM_cons] at h
    obtain ⟨⟨mid, next⟩, hbyte, hrest⟩ := bind_eq_ok.mp h
    rw [List.length_cons] at hsmall
    obtain ⟨paths₁, hm₁, hnext, hedges₁⟩ := hm.addByte hstate (by omega) hbyte
    obtain ⟨paths₂, hm₂, htarget, hedges₂⟩ := ih hm₁ hnext (by omega) hrest
    refine ⟨paths₂, hm₂, ?_, ?_⟩
    · rwa [List.append_assoc, List.singleton_append] at htarget
    · rw [List.length_cons]
      omega

theorem node_setTerminal (h : state < m.nodes.length) (other : ℕ) :
    (m.setTerminal state).node other = if other = state then { m.node state with terminal := true } else m.node other :=
  node_modify h other

theorem Marked.setTerminal (hm : Marked m paths needles) (hstate : paths[state]? = some path) :
    Marked (m.setTerminal state) paths (needles ++ [path]) := by
  have hnode := node_setTerminal (hm.trie.lt hstate)
  refine ⟨hm.trie.congr (by simp [DetailMatcher.setTerminal]) rfl fun v => ?_, fun v => ?_, fun {v word} hword => ?_, ?_⟩
  · rw [hnode]
    split_ifs with heq
    · rw [heq]
    · rfl
  · rw [hnode]
    split_ifs
    · exact hm.failure state
    · exact hm.failure v
  · rw [hnode, List.mem_append, List.mem_singleton]
    split_ifs with heq
    · subst heq
      exact iff_of_true rfl (.inr (Option.some.inj (hword.symm.trans hstate)))
    · rw [hm.terminal hword]
      refine ⟨.inl, fun hor => hor.resolve_right ?_⟩
      rintro rfl
      exact heq (hm.trie.index_unique hword hstate)
  · intro needle hneedle
    rcases List.mem_append.mp hneedle with hold | hnew
    · exact hm.stored needle hold
    · exact List.mem_singleton.mp hnew ▸ List.mem_of_getElem? hstate

theorem Marked.addPattern (hm : Marked build.matcher paths needles)
    (hsmall : build.matcher.edges.length + pattern.length ≤ noEdge) (h : addPattern build pattern = .ok build') :
    ∃ paths', Marked build'.matcher paths' (needles ++ [pattern]) ∧
      build'.matcher.edges.length ≤ build.matcher.edges.length + pattern.length := by
  obtain ⟨⟨mid, state⟩, hbytes, hlast⟩ := bind_eq_ok.mp h
  obtain rfl := pure_eq_ok.mp hlast
  obtain ⟨paths', hm', hstate, hedges⟩ := hm.addBytes hm.trie.root hsmall hbytes
  exact ⟨paths', hm'.setTerminal hstate, hedges⟩

theorem Marked.addPatterns {patterns : List (List UInt8)} (hm : Marked build.matcher paths needles)
    (hsmall : build.matcher.edges.length + (patterns.map List.length).sum ≤ noEdge)
    (h : patterns.foldlM DetailMatcher.addPattern build = .ok build') :
    ∃ paths', Marked build'.matcher paths' (needles ++ patterns) ∧
      build'.matcher.edges.length ≤ build.matcher.edges.length + (patterns.map List.length).sum := by
  induction patterns generalizing build paths needles with
  | nil =>
    obtain rfl := pure_eq_ok.mp h
    exact ⟨paths, by simpa using hm, by simp⟩
  | cons pattern patterns ih =>
    rw [List.foldlM_cons] at h
    obtain ⟨mid, hpattern, hrest⟩ := bind_eq_ok.mp h
    rw [List.map_cons, List.sum_cons] at hsmall
    obtain ⟨paths₁, hm₁, hedges₁⟩ := hm.addPattern (by omega) hpattern
    obtain ⟨paths₂, hm₂, hedges₂⟩ := ih hm₁ (by omega) hrest
    refine ⟨paths₂, ?_, ?_⟩
    · rwa [List.append_assoc, List.singleton_append] at hm₂
    · rw [List.map_cons, List.sum_cons]
      omega

end QTrace.Analysis.DetailMatcher

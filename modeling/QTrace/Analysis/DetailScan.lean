import QTrace.Analysis.DetailFailures

/-! The scan of a text. With the edges sorted, the binary search of a node finds the same words as
the linked lists did; so the state after each byte is the longest suffix of the text read that is
a word of the trie, and it is marked exactly where a needle ends. -/

namespace QTrace.Analysis.DetailMatcher

open Lib

variable {m : DetailMatcher} {paths needles : List (List UInt8)} {state target : ℕ} {path text : List UInt8}
  {byte : UInt8} {edges : List DetailEdge}

/-- The edges of a node as they are sorted. -/
def orderedEdges (es : List DetailEdge) : List DetailEdge := (es.foldl insertEdge ([], 0)).1

/-- From the right, an edge goes in front of those that are not greater. -/
theorem insertEdge_reverse (place : List DetailEdge × ℕ) (candidate : DetailEdge) :
    (insertEdge place candidate).1.reverse =
      place.1.reverse.orderedInsert (Order.Preimage (·.byte.toNat) (· ≥ ·)) candidate := by
  simp [insertEdge, List.orderedInsert_eq_take_drop, List.rdropWhile, List.rtakeWhile, Order.Preimage,
    UInt8.le_iff_toNat_le, ← decide_not]

theorem orderedEdges_reverse (es : List DetailEdge) :
    (orderedEdges es).reverse = es.reverse.insertionSort (Order.Preimage (·.byte.toNat) (· ≥ ·)) := by
  induction es using List.reverseRecOn with
  | nil => rfl
  | append_singleton es edge ih =>
    rw [List.reverse_concat, List.insertionSort_cons, ← ih, orderedEdges, List.foldl_concat, insertEdge_reverse]
    rfl

theorem orderedEdges_spec (es : List DetailEdge) :
    (orderedEdges es).Pairwise (fun a b => a.byte.toNat ≤ b.byte.toNat) ∧ (orderedEdges es).Perm es := by
  constructor
  · rw [← List.pairwise_reverse, orderedEdges_reverse]
    exact List.pairwise_insertionSort _ _
  · rw [← List.reverse_perm', orderedEdges_reverse]
    exact (List.perm_insertionSort _ _).trans es.reverse_perm

/-- The search finds the edge with the byte, where the edges are ordered and it is in the range. -/
theorem searchEdge_eq_some {slice : List DetailEdge} {start fuel left right : ℕ}
    (hslice : ∀ i < slice.length, edges[start + i]? = slice[i]?)
    (hordered : slice.Pairwise fun a b => a.byte.toNat < b.byte.toNat) (hright : right ≤ slice.length)
    (hfuel : right ≤ left + fuel)
    (hrange : ∀ i edge, slice[i]? = some edge → edge.byte = byte → left ≤ i ∧ i < right) :
    (searchEdge edges start byte fuel left right).1 = some target ↔
      ∃ edge ∈ slice, edge.byte = byte ∧ edge.target = target := by
  have hless : ∀ {i j : ℕ} {a b : DetailEdge}, slice[i]? = some a → slice[j]? = some b →
      a.byte.toNat ≤ b.byte.toNat → i ≤ j := by
    intro i j a b ha hb hle
    obtain ⟨hi, rfl⟩ := List.getElem?_eq_some_iff.mp ha
    obtain ⟨hj, rfl⟩ := List.getElem?_eq_some_iff.mp hb
    by_contra hlt
    have := List.pairwise_iff_getElem.mp hordered j i hj hi (by omega)
    omega
  have hnone : ∀ {left right : ℕ}, (∀ i edge, slice[i]? = some edge → edge.byte = byte → left ≤ i ∧ i < right) →
      ¬ left < right → (none = some target ↔ ∃ edge ∈ slice, edge.byte = byte ∧ edge.target = target) := by
    simp only [reduceCtorEq, false_iff]
    rintro left right hrange hempty ⟨edge, hedge, hbyte, -⟩
    obtain ⟨i, hi⟩ := List.mem_iff_getElem?.mp hedge
    have := hrange i edge hi hbyte
    omega
  induction fuel generalizing left right with
  | zero =>
    rw [searchEdge]
    exact hnone hrange (by omega)
  | succ fuel ih =>
    rw [searchEdge]
    by_cases hlt : left < right
    · rw [if_pos hlt]
      have hmiddle : left + (right - left) / 2 < slice.length := by omega
      obtain ⟨candidate, hcandidate⟩ : ∃ candidate, slice[left + (right - left) / 2]? = some candidate :=
        ⟨_, List.getElem?_eq_getElem hmiddle⟩
      have hother : ∀ {i edge}, candidate.byte ≠ byte → slice[i]? = some edge → edge.byte = byte →
          i ≠ left + (right - left) / 2 := by
        rintro i edge hne hi hedge rfl
        exact hne (Option.some.inj (hi.symm.trans hcandidate) ▸ hedge)
      simp only [hslice _ hmiddle, hcandidate]
      split_ifs with hbyte hsmall
      · constructor
        · intro htarget
          exact ⟨candidate, List.mem_of_getElem? hcandidate, hbyte, Option.some.inj htarget⟩
        · rintro ⟨edge, hedge, hedgebyte, rfl⟩
          -- two edges with one byte are the same
          obtain ⟨i, hi⟩ := List.mem_iff_getElem?.mp hedge
          have hle := hless hi hcandidate (by rw [hedgebyte, hbyte])
          have hge := hless hcandidate hi (by rw [hedgebyte, hbyte])
          obtain rfl : i = left + (right - left) / 2 := le_antisymm hle hge
          rw [Option.some.inj (hi.symm.trans hcandidate)]
      · rw [UInt8.lt_iff_toNat_lt] at hsmall
        refine ih hright (by omega) fun i edge hi hedge => ⟨?_, (hrange i edge hi hedge).2⟩
        have hle := hless hcandidate hi (by rw [hedge]; omega)
        have hne := hother hbyte hi hedge
        omega
      · rw [UInt8.lt_iff_toNat_lt] at hsmall
        refine ih (by omega) (by omega) fun i edge hi hedge => ⟨(hrange i edge hi hedge).1, ?_⟩
        have hle := hless hi hcandidate (by rw [hedge]; omega)
        have hne := hother hbyte hi hedge
        omega
    · rw [if_neg hlt]
      exact hnone hrange hlt

/-- What a scan needs of the matcher. -/
structure Automaton (m : DetailMatcher) (paths needles : List (List UInt8)) : Prop where
  root : paths[0]? = some []
  nodup : paths.Nodup
  closed : PrefixClosed (wordSet paths)
  stored : ∀ needle ∈ needles, needle ∈ paths
  short : ∀ path ∈ paths, path.length ≤ m.nodes.length
  transition : ∀ {state path}, paths[state]? = some path → ∀ byte target,
    (m.transition state byte).1 = some target ↔ paths[target]? = some (path ++ [byte])
  border : ∀ {state path}, paths[state]? = some path → path ≠ [] →
    ∃ word, paths[(m.node state).failure]? = some word ∧ Border (wordSet paths) path word
  ends : ∀ {state path}, paths[state]? = some path → ((m.node state).terminal = true ↔ EndsWith needles path)

/-- The sorted edges of a node. -/
def sliceOf (edges : List DetailEdge) (node : DetailNode) : List DetailEdge :=
  (orderedEdges (chain edges edges.length node.firstEdge)).map fun edge => { edge with next := noEdge }

/-- The nodes so far, each with its slice of the sorted edges. -/
structure Slices (edges : List DetailEdge) (nodes : List DetailNode) (done : Sorted) : Prop where
  length : done.nodes.length = nodes.length
  slice : ∀ (state : ℕ) (node : DetailNode), nodes[state]? = some node → ∃ start,
    done.nodes[state]? = some { node with firstEdge := start, edgeCount := (sliceOf edges node).length } ∧
      start + (sliceOf edges node).length ≤ done.edges.length ∧
      window done.edges start (sliceOf edges node).length = sliceOf edges node

variable {done : Sorted} {node : DetailNode}

theorem normalizeNode_ok {done' : Sorted} (h : normalizeNode edges done node = .ok done') :
    done'.nodes = done.nodes ++
        [{ node with firstEdge := done.edges.length, edgeCount := (sliceOf edges node).length }] ∧
      done'.edges = done.edges ++ sliceOf edges node := by
  unfold normalizeNode at h
  dsimp only at h
  split_ifs at h
  obtain rfl := Except.ok.inj h
  exact ⟨by simp [sliceOf, orderedEdges], rfl⟩

variable {nodes : List DetailNode}

theorem Slices.normalizeNode {done' : Sorted} (h : Slices edges nodes done)
    (hnode : normalizeNode edges done node = .ok done') :
    Slices edges (nodes ++ [node]) done' := by
  obtain ⟨hnodes, hedges⟩ := normalizeNode_ok hnode
  refine ⟨by simp [hnodes, h.length], fun v other hother => ?_⟩
  rw [hnodes, hedges, List.length_append]
  rcases Nat.lt_or_ge v nodes.length with hlt | hge
  · rw [List.getElem?_append_left hlt] at hother
    obtain ⟨start, hdone, hbound, hwindow⟩ := h.slice v other hother
    refine ⟨start, ?_, by omega, ?_⟩
    · rw [List.getElem?_append_left (by rw [h.length]; exact hlt), hdone]
    · rw [window_append_left hbound, hwindow]
  · obtain rfl : v = nodes.length := by
      have := (List.getElem?_eq_some_iff.mp hother).1
      rw [List.length_append, List.length_singleton] at this
      omega
    rw [List.getElem?_concat_length] at hother
    obtain rfl := Option.some.inj hother
    refine ⟨done.edges.length, ?_, le_rfl, ?_⟩
    · rw [← h.length, List.getElem?_concat_length]
    · rw [window, List.drop_left, List.take_length]

theorem slices_of_foldlM {work : ℕ} (h : nodes.foldlM (normalizeNode edges) ⟨[], [], work⟩ = .ok done) :
    Slices edges nodes done :=
  foldlM_rule (Slices edges) ⟨rfl, by simp⟩ (fun _ _ _ _ _ _ hslices hnode => hslices.normalizeNode hnode) h

/-- The sorted edges of a node lead where its linked list did. -/
theorem Children.sliceOf (h : Children paths path (chain edges edges.length node.firstEdge)) :
    (sliceOf edges node).Pairwise (fun a b => a.byte.toNat < b.byte.toNat) ∧
      ∀ byte target, (∃ edge ∈ sliceOf edges node, edge.byte = byte ∧ edge.target = target) ↔
        paths[target]? = some (path ++ [byte]) := by
  obtain ⟨hordered, hperm⟩ := orderedEdges_spec (chain edges edges.length node.firstEdge)
  have hnodup : ((orderedEdges (chain edges edges.length node.firstEdge)).map (·.byte)).Nodup :=
    (hperm.map _).nodup_iff.mpr h.nodup
  constructor
  · refine List.pairwise_map.mpr ?_
    refine (hordered.and (List.pairwise_map.mp hnodup)).imp ?_
    rintro a b ⟨hle, hne⟩
    exact lt_of_le_of_ne hle fun heq => hne (UInt8.toNat_inj.mp heq)
  · intro byte target
    rw [← h.iff]
    constructor
    · rintro ⟨edge, hedge, hbyte, htarget⟩
      obtain ⟨old, hold, rfl⟩ := List.mem_map.mp hedge
      exact ⟨old, hperm.mem_iff.mp hold, hbyte, htarget⟩
    · rintro ⟨edge, hedge, hbyte, htarget⟩
      exact ⟨_, List.mem_map_of_mem (hperm.mem_iff.mpr hedge), hbyte, htarget⟩

/-- `normalize_edges` turns the linked trie into the automaton. -/
theorem automaton_of_links {build build' : Build} (htrie : Trie build.matcher paths)
    (hlinks : Links build.matcher paths needles fun _ => True) (hstored : ∀ needle ∈ needles, needle ∈ paths)
    (h : normalizeEdges build = .ok build') : Automaton build'.matcher paths needles := by
  obtain ⟨sorted, hfold, hlast⟩ := bind_eq_ok.mp h
  obtain rfl := pure_eq_ok.mp hlast
  have hslices := slices_of_foldlM hfold
  -- the node behind an index, before and after
  have hnode : ∀ {state path}, paths[state]? = some path → ∃ start,
      (⟨sorted.nodes, sorted.edges⟩ : DetailMatcher).node state =
        { build.matcher.node state with
          firstEdge := start, edgeCount := (sliceOf build.matcher.edges (build.matcher.node state)).length } ∧
      window sorted.edges start (sliceOf build.matcher.edges (build.matcher.node state)).length =
        sliceOf build.matcher.edges (build.matcher.node state) := by
    intro state path hstate
    have hlt := htrie.lt hstate
    have hold : build.matcher.nodes[state]? = some (build.matcher.node state) := by
      rw [node, List.getD_eq_getElem?_getD, List.getElem?_eq_getElem hlt, Option.getD_some]
    obtain ⟨start, hnew, -, hwindow⟩ := hslices.slice _ _ hold
    refine ⟨start, ?_, hwindow⟩
    rw [node, List.getD_eq_getElem?_getD, hnew, Option.getD_some]
  refine ⟨htrie.root, htrie.nodup, htrie.prefixClosed, hstored, fun path hpath => ?_, fun {state path} hstate byte target => ?_,
    fun {state path} hstate hne => ?_, fun {state path} hstate => ?_⟩
  · have := htrie.length_lt hpath
    rw [hslices.length]
    exact this.le
  · obtain ⟨start, hnew, hwindow⟩ := hnode hstate
    obtain ⟨hordered, hiff⟩ := (htrie.edgesOf_children hstate).sliceOf
    rw [transition, hnew, ← hiff]
    refine searchEdge_eq_some (fun i hi => ?_) hordered le_rfl (by omega) fun i edge hi _ =>
      ⟨Nat.zero_le i, (List.getElem?_eq_some_iff.mp hi).1⟩
    conv_rhs => rw [← hwindow]
    rw [window, List.getElem?_take_of_lt hi, List.getElem?_drop]
  · obtain ⟨start, hnew, -⟩ := hnode hstate
    rw [hnew]
    exact hlinks.border trivial hstate hne
  · obtain ⟨start, hnew, -⟩ := hnode hstate
    rw [hnew]
    exact hlinks.ends trivial hstate

/-- Every matcher that is built is an automaton of its needles. -/
theorem automaton_of_new {patterns : List (List UInt8)} {maxWork : ℕ} (h : new patterns maxWork = .ok m) :
    [] ∉ patterns ∧ ∃ paths, Automaton m paths patterns := by
  obtain ⟨⟨⟩, hempty, h⟩ := bind_eq_ok.mp h
  obtain ⟨⟨⟩, -, h⟩ := bind_eq_ok.mp h
  obtain ⟨⟨⟩, hbytes, h⟩ := bind_eq_ok.mp h
  obtain ⟨trie, htrie, h⟩ := bind_eq_ok.mp h
  obtain ⟨sorted, hsorted, h⟩ := bind_eq_ok.mp h
  obtain ⟨⟨⟩, -, h⟩ := bind_eq_ok.mp h
  obtain rfl := pure_eq_ok.mp h
  have hne : [] ∉ patterns := by
    intro hmem
    have := failIf_eq_ok.mp hempty
    rw [List.any_eq_false] at this
    exact this [] hmem rfl
  have hsmall : (patterns.map List.length).sum ≤ maxFilterTextBytes := by
    simpa using failIf_eq_ok.mp hbytes
  have hroot : Marked (⟨⟨[.default], []⟩, (patterns.map List.length).sum⟩ : Build).matcher [[]] [] := marked_root
  obtain ⟨paths, hmarked, -⟩ := hroot.addPatterns (by
    rw [maxFilterTextBytes] at hsmall
    simp only [List.length_nil, noEdge]
    omega) htrie
  rw [List.nil_append] at hmarked
  obtain ⟨hlinked, hlinks⟩ := hmarked.buildFailures hne
  exact ⟨hne, paths, automaton_of_links hlinked hlinks hmarked.stored hsorted⟩

theorem Automaton.index_unique (h : Automaton m paths needles) {state' : ℕ} (hstate : paths[state]? = some path)
    (hstate' : paths[state']? = some path) : state = state' := by
  obtain ⟨_, hpath⟩ := List.getElem?_eq_some_iff.mp hstate
  obtain ⟨_, hpath'⟩ := List.getElem?_eq_some_iff.mp hstate'
  exact (h.nodup.getElem_inj_iff).mp (hpath.trans hpath'.symm)

theorem Automaton.transition_eq_none (h : Automaton m paths needles) (hstate : paths[state]? = some path) (byte : UInt8) :
    (m.transition state byte).1 = none ↔ path ++ [byte] ∉ wordSet paths := by
  rw [Option.eq_none_iff_forall_ne_some]
  simp only [ne_eq, h.transition hstate, Set.mem_ofPred_eq, List.mem_iff_getElem?, not_exists]

/-- Falling back stops at the longest suffix that the byte fits. -/
theorem Automaton.fallBack (h : Automaton m paths needles) (byte : UInt8) {fuel : ℕ} (hstate : paths[state]? = some path)
    (hfuel : path.length ≤ fuel) :
    ∃ stop, paths[(m.fallBack byte fuel state).1]? = some stop ∧ Stops (wordSet paths) byte path stop := by
  have hmem : path ∈ wordSet paths := List.mem_of_getElem? hstate
  induction fuel generalizing state path with
  | zero =>
    rw [Nat.le_zero, List.length_eq_zero_iff] at hfuel
    exact ⟨path, hstate, stops_self hmem (.inl hfuel)⟩
  | succ fuel ih =>
    rw [DetailMatcher.fallBack]
    by_cases hzero : state = 0
    · rw [if_pos hzero]
      subst hzero
      exact ⟨path, hstate, stops_self hmem (.inl (Option.some.inj (hstate.symm.trans h.root)))⟩
    · rw [if_neg hzero]
      have hne : path ≠ [] := by
        rintro rfl
        exact hzero (h.index_unique hstate h.root)
      rcases hstep : m.transition state byte with ⟨_ | found, visits⟩
      · have hfits := (h.transition_eq_none hstate byte).mp (by rw [hstep])
        obtain ⟨next, hnext, hborder⟩ := h.border hstate hne
        have hshort := hborder.length_lt
        obtain ⟨stop, hstop, hstops⟩ := ih hnext (by omega) (List.mem_of_getElem? hnext)
        exact ⟨stop, hstop, hstops.of_border hborder hfits⟩
      · have hfits := (h.transition hstate byte found).mp (by rw [hstep])
        exact ⟨path, hstate, stops_self hmem (.inr (List.mem_of_getElem? hfits))⟩

/-- The state stands for the longest suffix of the text that is a word. -/
def At (paths : List (List UInt8)) (state : ℕ) (text : List UInt8) : Prop :=
  ∃ path, paths[state]? = some path ∧ LongestSuffix (wordSet paths) text path

theorem Automaton.at_root (h : Automaton m paths needles) : At paths 0 [] :=
  ⟨[], h.root, longestSuffix_self h.closed.nil⟩

theorem Automaton.readByte (h : Automaton m paths needles) (hat : At paths state text) (byte : UInt8) :
    At paths (m.readByte state byte).1 (text ++ [byte]) := by
  obtain ⟨path, hstate, hlongest⟩ := hat
  obtain ⟨stop, hstop, hstops⟩ := h.fallBack byte hstate (h.short path (List.mem_of_getElem? hstate))
  refine ⟨_, ?_, hstops.read h.closed hlongest⟩
  have hread : (m.readByte state byte).1 = (m.transition (m.fallBack byte m.nodes.length state).1 byte).1.getD 0 := rfl
  rw [hread]
  cases hfound : (m.transition (m.fallBack byte m.nodes.length state).1 byte).1 with
  | none => rw [if_neg ((h.transition_eq_none hstop byte).mp hfound), Option.getD_none, h.root]
  | some next =>
    have hnext := (h.transition hstop byte next).mp hfound
    have hmem : stop ++ [byte] ∈ wordSet paths := List.mem_of_getElem? hnext
    rw [if_pos hmem, Option.getD_some, hnext]

theorem Automaton.terminal_iff (h : Automaton m paths needles) (hat : At paths state text) :
    (m.node state).terminal = true ↔ EndsWith needles text := by
  obtain ⟨path, hstate, hlongest⟩ := hat
  rw [h.ends hstate, hlongest.endsWith_iff h.stored]

/-- A needle ends behind the text read so far. -/
def EndsLater (needles : List (List UInt8)) (text later : List UInt8) : Prop :=
  ∃ front, front ≠ [] ∧ front <+: later ∧ EndsWith needles (text ++ front)

theorem endsLater_cons {later : List UInt8} : EndsLater needles text (byte :: later) ↔
    EndsWith needles (text ++ [byte]) ∨ EndsLater needles (text ++ [byte]) later := by
  constructor
  · rintro ⟨front, hne, hstart, hends⟩
    cases front with
    | nil => exact absurd rfl hne
    | cons first front =>
      obtain ⟨rfl, hfront⟩ := List.cons_prefix_cons.mp hstart
      rw [List.append_cons] at hends
      by_cases hnil : front = []
      · subst hnil
        exact .inl (by simpa using hends)
      · exact .inr ⟨front, hnil, hfront, hends⟩
  · rintro (hends | ⟨front, -, hfront, hends⟩)
    · exact ⟨[byte], by simp, by simp, hends⟩
    · exact ⟨byte :: front, by simp, List.cons_prefix_cons.mpr ⟨rfl, hfront⟩, by rwa [List.append_cons]⟩

theorem endsLater_append {later later' : List UInt8} : EndsLater needles text (later ++ later') ↔
    EndsLater needles text later ∨ EndsLater needles (text ++ later) later' := by
  induction later generalizing text with
  | nil =>
    have hnone : ¬ EndsLater needles text [] := by
      rintro ⟨front, hne, hfront, -⟩
      exact hne (List.prefix_nil.mp hfront)
    simp [hnone]
  | cons byte later ih =>
    rw [List.cons_append, endsLater_cons, ih, endsLater_cons, or_assoc, ← List.append_cons]

/-- A chunk is read up to the first needle that ends in it. -/
theorem Automaton.scanChunk (h : Automaton m paths needles) (hat : At paths state text) (chunk : List UInt8) :
    ((m.scanChunk state chunk).matched = true ↔ EndsLater needles text chunk) ∧
      ((m.scanChunk state chunk).matched = false → At paths (m.scanChunk state chunk).state (text ++ chunk)) := by
  induction chunk generalizing state text with
  | nil =>
    refine ⟨iff_of_false (by simp [DetailMatcher.scanChunk]) ?_, fun _ => by simpa [DetailMatcher.scanChunk] using hat⟩
    rintro ⟨front, hne, hfront, -⟩
    exact hne (List.prefix_nil.mp hfront)
  | cons byte chunk ih =>
    have hnext := h.readByte hat byte
    have hterminal := h.terminal_iff hnext
    obtain ⟨hmatched, hlater⟩ := ih hnext
    rw [endsLater_cons, DetailMatcher.scanChunk]
    dsimp only
    split_ifs with hends
    · exact ⟨iff_of_true rfl (.inl (hterminal.mp hends)), by simp⟩
    · refine ⟨?_, fun hfalse => ?_⟩
      · rw [hmatched, or_iff_right (fun hword => hends (hterminal.mpr hword))]
      · rw [List.append_cons]
        exact hlater hfalse

theorem Automaton.containsFrom (h : Automaton m paths needles) {maxBytes : ℕ} (processed : ℕ) (rest : List (List UInt8))
    (hat : At paths state text) (hlimit : processed + rest.flatten.length ≤ maxBytes) :
    ∃ matched total cost, Metered.Returns (m.containsFrom maxBytes state processed rest) (matched, total) cost ∧
      (matched = true ↔ EndsLater needles text rest.flatten) := by
  induction rest generalizing state text processed with
  | nil =>
    refine ⟨false, processed, 0, Metered.returns_pure _, iff_of_false (by simp) ?_⟩
    rintro ⟨front, hne, hfront, -⟩
    exact hne (List.prefix_nil.mp hfront)
  | cons chunk rest ih =>
    rw [List.flatten_cons, List.length_append] at hlimit
    obtain ⟨hmatched, hlater⟩ := h.scanChunk hat chunk
    rw [DetailMatcher.containsFrom]
    dsimp only
    rw [if_neg (by omega), List.flatten_cons, endsLater_append]
    cases hfound : (m.scanChunk state chunk).matched with
    | true =>
      exact ⟨true, _, _, .charge_bind _ (Metered.returns_pure _), iff_of_true rfl (.inl (hmatched.mp hfound))⟩
    | false =>
      obtain ⟨matched, total, cost, hreturns, hiff⟩ := ih (processed + chunk.length) (hlater hfound) (by omega)
      refine ⟨matched, total, _, .charge_bind _ hreturns, ?_⟩
      rw [hiff, or_iff_right]
      rw [← hmatched, hfound]
      simp

theorem flatten_chunks (haystack : List UInt8) : (chunks haystack).flatten = haystack := by
  rw [chunks, ← List.flatMap_def, flatMap_spans haystack (by decide), List.take_length]

/-- The scan is exact substring search: within the byte limit it ends, and it reports a match exactly where a needle
stands somewhere in the text. -/
theorem contains_exact {patterns : List (List UInt8)} {maxWork : ℕ} (hbuild : new patterns maxWork = .ok m)
    {haystack : List UInt8} {maxBytes : ℕ} (hlimit : haystack.length ≤ maxBytes) :
    ∃ matched processed cost, Metered.Returns (m.contains haystack maxBytes) (matched, processed) cost ∧
      (matched = true ↔ ∃ pattern ∈ patterns, pattern <:+: haystack) := by
  obtain ⟨hne, paths, h⟩ := automaton_of_new hbuild
  have hflat := flatten_chunks haystack
  obtain ⟨matched, processed, cost, hreturns, hiff⟩ :=
    h.containsFrom 0 (chunks haystack) h.at_root (show 0 + _ ≤ maxBytes by rwa [hflat, Nat.zero_add])
  refine ⟨matched, processed, cost, hreturns, hiff.trans ?_⟩
  rw [hflat, exists_infix_iff]
  refine exists_congr fun front => ⟨And.right, fun hends => ⟨?_, hends⟩⟩
  -- no needle ends at the empty text
  rintro rfl
  obtain ⟨pattern, hpattern, hsuffix⟩ := hends.2
  exact hne (List.suffix_nil.mp hsuffix ▸ hpattern)

/-- A needle across the border of two chunks. -/
theorem contains_exact_across : ∃ m processed cost, new [[104, 101], [115, 104, 101]] (2 ^ 24) = .ok m ∧
    Metered.Returns (m.contains (List.replicate 4095 120 ++ [104, 101]) 8192) (true, processed) cost := by
  have hok : (new [[104, 101], [115, 104, 101]] (2 ^ 24)).isOk = true := by decide +kernel
  cases hbuild : new [[104, 101], [115, 104, 101]] (2 ^ 24) with
  | error e =>
    rw [hbuild] at hok
    cases hok
  | ok m =>
    have hlimit : (List.replicate 4095 120 ++ [104, 101] : List UInt8).length ≤ 8192 := by
      rw [List.length_append, List.length_replicate]
      decide
    obtain ⟨matched, processed, cost, hreturns, hiff⟩ := contains_exact hbuild hlimit
    have hmatched : matched = true := hiff.mpr ⟨[104, 101], by simp, (List.suffix_append _ _).isInfix⟩
    exact ⟨m, processed, cost, rfl, hmatched ▸ hreturns⟩

end QTrace.Analysis.DetailMatcher

import QTrace.Analysis.Store
import QTrace.Lib.Chunks
import QTrace.Lib.Metered
import QTrace.Lib.Parser

/-! The matcher of semantic details: an automaton over the needles of a filter. The trie is built
with the edges of a node in a linked list; failure links are set breadth first; at the end the
edges of each node are sorted into a slice, and a scan finds an edge by binary search. The build
counts its work against a bound. Cancellation and refused allocations only end a build or a scan
early and are left out. -/

namespace QTrace.Analysis

open Lib

def maxFilterTextBytes : ℕ := 1024 * 1024

/-- `NO_EDGE`. -/
def noEdge : ℕ := 2 ^ 32 - 1

structure DetailNode where
  firstEdge : ℕ := noEdge
  edgeCount : ℕ := 0
  failure : ℕ := 0
  terminal : Bool := false
  deriving DecidableEq

def DetailNode.default : DetailNode := {}

structure DetailEdge where
  byte : UInt8
  target : ℕ
  next : ℕ
  deriving DecidableEq

structure DetailMatcher where
  nodes : List DetailNode
  edges : List DetailEdge
  deriving DecidableEq

namespace DetailMatcher

variable (m : DetailMatcher)

/-- The node with this index; every index in use is in range. -/
def node (state : ℕ) : DetailNode := m.nodes.getD state .default

/-- The edges of a linked list, from the given one on; no list is longer than the fuel. -/
def chain (edges : List DetailEdge) : ℕ → ℕ → List DetailEdge
  | 0, _ => []
  | fuel + 1, edge =>
    if edge = noEdge then []
    else match edges[edge]? with
      | none => []
      | some candidate => candidate :: chain edges fuel candidate.next

/-- The edges of a node while the automaton is built. -/
def edgesOf (state : ℕ) : List DetailEdge := chain m.edges m.edges.length (m.node state).firstEdge

/-- The target of the first edge with the byte, and how many edges were visited. -/
def findEdge (byte : UInt8) : List DetailEdge → Option ℕ × ℕ
  | [] => (none, 0)
  | candidate :: rest =>
    if candidate.byte = byte then (some candidate.target, 1)
    else
      let (target, visits) := findEdge byte rest
      (target, visits + 1)

def transitionForBuild (state : ℕ) (byte : UInt8) : Option ℕ × ℕ := findEdge byte (m.edgesOf state)

/-- A new node behind an edge at the head of the list of its parent. -/
def addNode (state : ℕ) (byte : UInt8) : DetailMatcher where
  nodes := (m.nodes ++ [DetailNode.default]).modify state fun node => { node with firstEdge := m.edges.length }
  edges := m.edges ++ [⟨byte, m.nodes.length, (m.node state).firstEdge⟩]

def setTerminal (state : ℕ) : DetailMatcher :=
  { m with nodes := m.nodes.modify state fun node => { node with terminal := true } }

/-- A matcher under construction, and the work so far. -/
structure Build where
  matcher : DetailMatcher
  work : ℕ

/-- One byte of a pattern. -/
def addByte (place : Build × ℕ) (byte : UInt8) : Except AnalysisError (Build × ℕ) :=
  let (⟨m, work⟩, state) := place
  match m.transitionForBuild state byte with
  | (some target, visits) => .ok (⟨m, work + 1 + visits⟩, target)
  | (none, visits) =>
    if 2 ^ 32 ≤ m.nodes.length then .error (.resourceExhausted "semantic automaton exceeds u32")
    else if 2 ^ 32 ≤ m.edges.length then .error (.resourceExhausted "semantic automaton exceeds u32")
    else .ok (⟨m.addNode state byte, work + 1 + visits + 2⟩, m.nodes.length)

def addPattern (build : Build) (pattern : List UInt8) : Except AnalysisError Build := do
  let (build, state) ← pattern.foldlM addByte (build, 0)
  return { build with matcher := build.matcher.setTerminal state }

/-- The walk along failure links until the byte fits, and its work. -/
def failureFrom (byte : UInt8) : ℕ → ℕ → ℕ × ℕ
  | 0, failure => (failure, 0)
  | fuel + 1, failure =>
    if failure = 0 then (failure, 0)
    else match m.transitionForBuild failure byte with
      | (some _, visits) => (failure, visits)
      | (none, visits) =>
        let (found, work) := failureFrom byte fuel (m.node failure).failure
        (found, visits + 1 + work)

def setFailure (target failure : ℕ) : DetailMatcher :=
  { m with
    nodes := m.nodes.modify target fun node =>
      { node with failure := failure, terminal := node.terminal || (m.node failure).terminal } }

/-- The failure link behind one edge of a node. -/
def linkEdge (state : ℕ) (build : Build) (candidate : DetailEdge) : Build :=
  let m := build.matcher
  let (failure, walked) := m.failureFrom candidate.byte m.nodes.length (m.node state).failure
  let (target, visits) := m.transitionForBuild failure candidate.byte
  ⟨m.setFailure candidate.target (target.getD 0), build.work + 1 + walked + visits⟩

/-- The breadth-first loop; every node is popped at most once, which bounds the rounds. -/
def linkQueue : ℕ → Build → List ℕ → Build
  | 0, build, _ => build
  | _ + 1, build, [] => build
  | fuel + 1, build, state :: queue =>
    let edges := build.matcher.edgesOf state
    linkQueue fuel (edges.foldl (linkEdge state) { build with work := build.work + 1 })
      (queue ++ edges.map (·.target))

def buildFailures (build : Build) : Build :=
  let edges := build.matcher.edgesOf 0
  linkQueue build.matcher.nodes.length { build with work := build.work + edges.length } (edges.map (·.target))

/-- Insertion from the right, behind the edges that are not greater; with the work of one edge. -/
def insertEdge (place : List DetailEdge × ℕ) (candidate : DetailEdge) : List DetailEdge × ℕ :=
  let greater := place.1.rtakeWhile fun other => !(other.byte ≤ candidate.byte)
  let others := place.1.rdropWhile fun other => !(other.byte ≤ candidate.byte)
  (others ++ candidate :: greater, place.2 + 1 + greater.length + if others = [] then 0 else 1)

structure Sorted where
  nodes : List DetailNode
  edges : List DetailEdge
  work : ℕ

/-- The edges of one node go behind those of the nodes before it. -/
def normalizeNode (edges : List DetailEdge) (done : Sorted) (node : DetailNode) : Except AnalysisError Sorted :=
  if 2 ^ 32 ≤ done.edges.length then .error (.resourceExhausted "semantic automaton exceeds u32")
  else
    let (ordered, work) := (chain edges edges.length node.firstEdge).foldl insertEdge ([], 0)
    if 2 ^ 16 ≤ ordered.length then .error (.resourceExhausted "semantic node exceeds byte alphabet")
    else .ok ⟨done.nodes ++ [{ node with firstEdge := done.edges.length, edgeCount := ordered.length }],
      done.edges ++ ordered.map fun edge => { edge with next := noEdge }, done.work + work⟩

def normalizeEdges (build : Build) : Except AnalysisError Build := do
  let sorted ← build.matcher.nodes.foldlM (normalizeNode build.matcher.edges) ⟨[], [], build.work⟩
  return ⟨⟨sorted.nodes, sorted.edges⟩, sorted.work⟩

/-- `new_guarded_with_probe`. -/
def new (patterns : List (List UInt8)) (maxWork : ℕ) : Except AnalysisError DetailMatcher := do
  failIf (patterns.any (·.isEmpty)) (.invalidFilter "semantic detail needles must not be empty")
  let totalBytes := (patterns.map List.length).sum
  failIf (maxWork < totalBytes) (.resourceExhausted "semantic matcher build work exceeded")
  failIf (maxFilterTextBytes < totalBytes) (.filterTooComplex "semantic patterns exceed 1 MiB")
  let build ← patterns.foldlM addPattern ⟨⟨[.default], []⟩, totalBytes⟩
  let build ← normalizeEdges (buildFailures build)
  failIf (maxWork < build.work) (.resourceExhausted "semantic matcher build work exceeded")
  return build.matcher

/-- The binary search among the edges of a node, and its comparisons. -/
def searchEdge (edges : List DetailEdge) (start : ℕ) (byte : UInt8) : ℕ → ℕ → ℕ → Option ℕ × ℕ
  | 0, _, _ => (none, 0)
  | fuel + 1, left, right =>
    if left < right then
      let middle := left + (right - left) / 2
      match edges[start + middle]? with
      | none => (none, 0)
      | some candidate =>
        if candidate.byte = byte then (some candidate.target, 1)
        else
          let (target, comparisons) :=
            if candidate.byte < byte then searchEdge edges start byte fuel (middle + 1) right
            else searchEdge edges start byte fuel left middle
          (target, comparisons + 1)
    else (none, 0)

def transition (state : ℕ) (byte : UInt8) : Option ℕ × ℕ :=
  let node := m.node state
  searchEdge m.edges node.firstEdge byte node.edgeCount 0 node.edgeCount

/-- Falling back along failure links until the byte fits or the root is reached, and the work of it. -/
def fallBack (byte : UInt8) : ℕ → ℕ → ℕ × ℕ
  | 0, state => (state, 0)
  | fuel + 1, state =>
    if state = 0 then (state, 0)
    else match m.transition state byte with
      | (some _, visits) => (state, 1 + visits)
      | (none, visits) =>
        let (found, work) := fallBack byte fuel (m.node state).failure
        (found, 1 + visits + work)

/-- One byte of the text: the next state and the work. -/
def readByte (state : ℕ) (byte : UInt8) : ℕ × ℕ :=
  let (state, work) := m.fallBack byte m.nodes.length state
  let (target, visits) := m.transition state byte
  (target.getD 0, work + (1 + visits))

/-- What a stretch of the text leads to. -/
structure Scanned where
  state : ℕ
  work : ℕ
  matched : Bool

/-- The bytes of a chunk, up to the first match. -/
def scanChunk : ℕ → List UInt8 → Scanned
  | state, [] => ⟨state, 0, false⟩
  | state, byte :: rest =>
    let (state, work) := m.readByte state byte
    if (m.node state).terminal then ⟨state, work, true⟩
    else
      let later := scanChunk state rest
      { later with work := work + later.work }

def containsFrom (maxBytes : ℕ) : ℕ → ℕ → List (List UInt8) → Metered AnalysisError (Bool × ℕ)
  | _, processed, [] => pure (false, processed)
  | state, processed, chunk :: rest =>
    let processed := processed + chunk.length
    if maxBytes < processed then .fail (.resourceExhausted "semantic scan exceeds 64 MiB work budget")
    else do
      let scanned := m.scanChunk state chunk
      .charge scanned.work
      if scanned.matched then pure (true, processed) else containsFrom maxBytes scanned.state processed rest

/-- The chunks of a text. -/
def chunks (haystack : List UInt8) : List (List UInt8) :=
  (spans 4096 haystack.length).map fun span => window haystack span.start span.count

/-- `contains_guarded_with_probe`: whether a needle was found, and the bytes of the chunks that were read. -/
def contains (haystack : List UInt8) (maxBytes : ℕ) : Metered AnalysisError (Bool × ℕ) :=
  m.containsFrom maxBytes 0 0 (chunks haystack)

end DetailMatcher

end QTrace.Analysis

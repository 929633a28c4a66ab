import Mathlib.Algebra.GroupWithZero.Nat
import OcEarley.Base.Lists
import OcEarley.Formal.Scc
import OcEarley.Grammar.Grammar

/-!
# Components of a grammar

`dependencyGraph` has an edge from a nonterminal to every nonterminal in its productions.
`analyzeSccs` finds the strongly connected components in one depth-first search, whose frames are on
an explicit stack.
-/

namespace OcEarley

/-- What a symbol of a right-hand side adds to the graph. -/
def addEdge (lhs : ℕ) (graph : List (List ℕ)) (symbol : GrammarSymbol) :
    Except CompileError (List (List ℕ)) :=
  match symbol with
  | .nonterminal target => do
    let edges ← vecGet graph lhs
    vecSet graph lhs (edges ++ [target])
  | .terminal _ => pure graph

/-- The nonterminals that the productions of each nonterminal mention, sorted. -/
def dependencyGraph (grammar : Grammar) : Except CompileError (List (List ℕ)) := do
  let graph ← grammar.productions.foldlM
    (fun graph production => production.rhs.foldlM (addEdge production.lhs) graph)
    (List.replicate grammar.nonterminals.length [])
  pure (graph.map (sortDedup id))

/-- A strongly connected component. -/
structure Scc where
  id : ℕ
  members : List ℕ
  recursive : Bool
  deriving DecidableEq, Repr

/-- The components, and the id of each nonterminal's component. -/
structure SccAnalysis where
  components : List Scc
  componentOf : List ℕ
  deriving DecidableEq, Repr

/-- The local variables of the search; the top of the stack is its head. -/
structure Tarjan where
  nextIndex : ℕ
  indices : List (Option ℕ)
  lowlink : List ℕ
  onStack : List Bool
  tarjanStack : List ℕ
  components : List (List ℕ)

namespace Tarjan

/-- A node is seen for the first time. -/
def discover (search : Tarjan) (node : ℕ) : Except CompileError Tarjan := do
  let indices ← vecSet search.indices node (some search.nextIndex)
  let lowlink ← vecSet search.lowlink node search.nextIndex
  Result.require (search.nextIndex + 1 ≤ usizeMax)
    (.resourceLimitExceeded .sccAnalysis usizeMax (usizeMax - 1))
  let onStack ← vecSet search.onStack node true
  pure { search with
    nextIndex := search.nextIndex + 1
    indices := indices
    lowlink := lowlink
    onStack := onStack
    tarjanStack := node :: search.tarjanStack }

/-- The loop that closes a component: what is left of the stack, and the members in their order. -/
def popMembers (completed : ℕ) :
    List ℕ → List Bool → List ℕ → Except CompileError (List ℕ × List Bool × List ℕ)
  | [], _, _ => throw (.internalInvariant "Tarjan stack became empty while closing a component")
  | member :: tarjanStack, onStack, members => do
    let onStack ← vecSet onStack member false
    -- `member as NonterminalId` keeps 32 bits
    let members := members ++ [member % (u32Max + 1)]
    if member = completed then pure (tarjanStack, onStack, members)
    else popMembers completed tarjanStack onStack members

/-- `lowlink[node] = lowlink[node].min(index)`. -/
def lower (search : Tarjan) (node index : ℕ) : Except CompileError Tarjan := do
  let low ← vecGet search.lowlink node
  let lowlink ← vecSet search.lowlink node (min low index)
  pure { search with lowlink := lowlink }

/-- The next edge of the last frame. -/
def follow (search : Tarjan) (node target : ℕ) (frames : List (ℕ × ℕ)) :
    Except CompileError (Tarjan × List (ℕ × ℕ)) := do
  let index ← vecGet search.indices target
  match index with
  | none => do
    let search ← search.discover target
    pure (search, (target, 0) :: frames)
  | some index => do
    let onStack ← vecGet search.onStack target
    if onStack then do
      let search ← search.lower node index
      pure (search, frames)
    else pure (search, frames)

/-- The low link of a completed node goes over to the last frame that is left. -/
def lowerParent (search : Tarjan) (completed : ℕ) (frames : List (ℕ × ℕ)) :
    Except CompileError Tarjan :=
  match frames with
  | (parent, _) :: _ => do
    let low ← vecGet search.lowlink completed
    search.lower parent low
  | [] => pure search

/-- The last frame has no edge left and has been taken away. -/
def complete (search : Tarjan) (completed : ℕ) (frames : List (ℕ × ℕ)) :
    Except CompileError Tarjan := do
  let search ← search.lowerParent completed frames
  let low ← vecGet search.lowlink completed
  let index ← vecGet search.indices completed
  let index ← Result.unwrap index .panicked
  if low = index then do
    let (tarjanStack, onStack, members) ←
      popMembers completed search.tarjanStack search.onStack []
    pure { search with
      onStack := onStack
      tarjanStack := tarjanStack
      components := search.components ++ [sortByKey id members] }
  else pure search

/-- The loop over the frames, whose last one is the head. -/
def loop (graph : List (List ℕ)) : ℕ → Tarjan → List (ℕ × ℕ) → Except CompileError Tarjan
  | _, search, [] => pure search
  | 0, _, _ :: _ => throw .diverged
  | fuel + 1, search, (node, edgeIndex) :: frames => do
    let edges ← vecGet graph node
    match edges[edgeIndex]? with
    | some target => do
      let (search, frames) ← search.follow node target ((node, edgeIndex + 1) :: frames)
      loop graph fuel search frames
    | none => do
      let search ← search.complete node frames
      loop graph fuel search frames

/-- The search from a node.  Every turn of the loop uses an edge or a node up. -/
def visit (graph : List (List ℕ)) (search : Tarjan) (root : ℕ) : Except CompileError Tarjan := do
  let index ← vecGet search.indices root
  if index.isSome then pure search
  else do
    let search ← search.discover root
    loop graph (graph.length * (graph.flatten.length + 1)) search [(root, 0)]

end Tarjan

/-- The report of a component. -/
def SccAnalysis.add (graph : List (List ℕ)) (analysis : SccAnalysis) (entry : List ℕ × ℕ) :
    Except CompileError SccAnalysis := do
  let id ← toU32 entry.2 .sccAnalysis
  let componentOf ← entry.1.foldlM (fun componentOf member => vecSet componentOf member id)
    analysis.componentOf
  let recursive ← if 1 < entry.1.length then pure true
    else do
      let first ← vecGet entry.1 0
      let edges ← vecGet graph first
      pure (decide (first ∈ edges))
  pure {
    components := analysis.components ++ [{ id := id, members := entry.1, recursive := recursive }]
    componentOf := componentOf }

/-- The components of the dependency graph, in the order of their least members. -/
def analyzeSccs (grammar : Grammar) : Except CompileError SccAnalysis := do
  let graph ← dependencyGraph grammar
  let nodeCount := graph.length
  let search ← (List.range nodeCount).foldlM (Tarjan.visit graph) {
    nextIndex := 0
    indices := List.replicate nodeCount none
    lowlink := List.replicate nodeCount 0
    onStack := List.replicate nodeCount false
    tarjanStack := []
    components := [] }
  -- `members[0]`: a component is closed with a member
  let components := sortByKey (fun members : List ℕ => members.headD 0) search.components
  components.zipIdx.foldlM (SccAnalysis.add graph) {
    components := []
    componentOf := List.replicate nodeCount 0 }

/-! ### The graph -/

/-- The graph has the edge. -/
def Edge (graph : List (List ℕ)) (A B : ℕ) : Prop := ∃ edges, graph[A]? = some edges ∧ B ∈ edges

section Graph

variable {g : Grammar} {graph : List (List ℕ)}

theorem edge_set {graph : List (List ℕ)} {n : ℕ} {edges : List ℕ} (hn : graph[n]? = some edges)
    (target A B : ℕ) : Edge (graph.set n (edges ++ [target])) A B ↔
      Edge graph A B ∨ A = n ∧ B = target := by
  unfold Edge
  rw [List.getElem?_set]
  by_cases hA : n = A
  · subst hA
    have hlt := (List.getElem?_eq_some_iff.1 hn).1
    rw [if_pos rfl, if_pos hlt, hn]
    simp
  · simp [hA, Ne.symm hA]

/-- The edges from the symbols of a right-hand side that have been read. -/
theorem addEdges_wp {p : Production} (hp : p.lhs < graph.length) :
    Result.wp (fun _ => False) (p.rhs.foldlM (addEdge p.lhs) graph) fun graph' =>
      graph'.length = graph.length ∧
      ∀ A B, Edge graph' A B ↔ Edge graph A B ∨ A = p.lhs ∧ .nonterminal B ∈ p.rhs := by
  have hloop := Result.wp_foldlM (E := fun _ : CompileError => False) (f := addEdge p.lhs)
    (I := fun done _ (graph' : List (List ℕ)) => graph'.length = graph.length ∧
      ∀ A B, Edge graph' A B ↔ Edge graph A B ∨ A = p.lhs ∧ Symbol.nonterminal B ∈ done)
    ?_ [] p.rhs graph ⟨rfl, fun A B => by simp⟩
  · exact hloop
  · rintro done symbol rest graph' ⟨hlen, hedges⟩
    cases symbol with
    | terminal t => exact ⟨hlen, fun A B => by simp [hedges]⟩
    | nonterminal target =>
      have hget := List.getElem?_eq_getElem (hlen ▸ hp : p.lhs < graph'.length)
      refine Result.wp_bind.2 ((wp_vecGet hget).2 ((wp_vecSet (hlen ▸ hp)).2 ⟨?_, fun A B => ?_⟩))
      · rw [List.length_set, hlen]
      · rw [edge_set hget, hedges]
        simp only [List.mem_append, List.mem_singleton, Symbol.nonterminal.injEq]
        tauto

/-- **The graph has the dependencies of the nonterminals for edges.** -/
theorem dependencyGraph_wp (hg : g.WellFormed) :
    Result.wp (fun _ => False) (dependencyGraph g) fun graph =>
      graph.length = g.nonterminals.length ∧
      ∀ A B, Edge graph A B ↔ ∃ p ∈ g.productions, p.lhs = A ∧ .nonterminal B ∈ p.rhs := by
  have hloop := Result.wp_foldlM (E := fun _ : CompileError => False)
    (f := fun graph (production : Production) =>
      production.rhs.foldlM (addEdge production.lhs) graph)
    (I := fun done rest (graph : List (List ℕ)) => done ++ rest = g.productions ∧
      graph.length = g.nonterminals.length ∧
      ∀ A B, Edge graph A B ↔ ∃ p ∈ done, p.lhs = A ∧ Symbol.nonterminal B ∈ p.rhs)
    ?_ [] g.productions (List.replicate g.nonterminals.length [])
    ⟨rfl, List.length_replicate, fun A B => ?_⟩
  · refine Result.wp_bind.2 (Result.wp_mono hloop ?_)
    rintro graph ⟨-, hlen, hedges⟩
    refine ⟨by rw [List.length_map, hlen], fun A B => ?_⟩
    rw [List.nil_append] at hedges
    rw [← hedges, Edge, Edge, List.getElem?_map]
    cases graph[A]? <;> simp
  · rintro done p rest graph ⟨hall, hlen, hedges⟩
    have hp : p ∈ g.productions := by simp [← hall]
    refine Result.wp_mono (addEdges_wp (hlen ▸ hg.lhs_lt p hp)) ?_
    rintro graph' ⟨hlen', hedges'⟩
    refine ⟨by simpa using hall, hlen'.trans hlen, fun A B => ?_⟩
    rw [hedges', hedges]
    constructor
    · rintro (⟨q, hq, h⟩ | ⟨rfl, hB⟩)
      · exact ⟨q, List.mem_append_left _ hq, h⟩
      · exact ⟨p, by simp, rfl, hB⟩
    · rintro ⟨q, hq, rfl, hB⟩
      rcases List.mem_append.1 hq with hq | hq
      · exact .inl ⟨q, hq, rfl, hB⟩
      · obtain rfl := List.mem_singleton.1 hq
        exact .inr ⟨rfl, hB⟩
  · simp [Edge, List.getElem?_replicate]

end Graph

end OcEarley

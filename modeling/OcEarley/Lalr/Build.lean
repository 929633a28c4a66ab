import Mathlib.Data.List.AList
import Mathlib.Data.Prod.Lex
import OcEarley.Base.Lists
import OcEarley.Base.Worklist
import OcEarley.Grammar.Residual

/-!
# LALR(1) tables

`CompiledLalr.build` computes FIRST sets, the canonical LR(1) states, merges the states of equal
core, and fills the action table, reporting every conflict.  `lexicalSafety` checks that no word of
a terminal is a prefix of a word of another one, or of a longer word of its own.

Ordered sets are lists sorted by a key; maps are association lists.
-/

namespace OcEarley

/-- What may stand behind a production. -/
inductive Lookahead
  | terminal (id : ℕ)
  | eof
  deriving DecidableEq, Repr

/-- The order of lookaheads. -/
def Lookahead.key : Lookahead → ℕ ×ₗ ℕ
  | .terminal id => toLex (0, id)
  | .eof => toLex (1, 0)

/-- A production with a dot in its right-hand side, and what may stand behind it. -/
structure Lr1Item where
  production : ℕ
  dot : ℕ
  lookahead : Lookahead
  deriving DecidableEq, Repr

/-- The order of items. -/
def Lr1Item.key (item : Lr1Item) : ℕ ×ₗ ℕ ×ₗ ℕ ×ₗ ℕ :=
  toLex (item.production, toLex (item.dot, item.lookahead.key))

/-- What the parser does in a state on a lookahead. -/
inductive Action
  | shift (state : ℕ)
  | reduce (production : ℕ)
  | accept
  deriving DecidableEq, Repr

/-- What kind of actions are in conflict. -/
inductive ConflictKind
  | shiftReduce | reduceReduce | acceptConflict
  deriving DecidableEq, Repr

/-- Two actions of one state on one lookahead, with the productions that call for them. -/
structure LalrConflict where
  kind : ConflictKind
  state : ℕ
  lookahead : Lookahead
  first : Action
  second : Action
  productions : List ℕ
  provenance : List Provenance

/-- What the construction counts. -/
structure LalrBuildStats where
  canonicalStates : ℕ
  mergedStates : ℕ
  lrItems : ℕ
  actionEntries : ℕ
  gotoEntries : ℕ
  conflicts : ℕ
  deriving DecidableEq, Repr

/-- A production as the parser needs it; the augmented one has no original. -/
structure ParserProduction where
  lhs : ℕ
  rhs : List GrammarSymbol
  provenance : Provenance
  original : Option ℕ

/-- The rows of the states: an action for every lookahead, a target for every nonterminal. -/
structure LalrTable where
  actions : List (List (Lookahead × Action))
  gotos : List (List (ℕ × ℕ))

/-- The tables of an LALR parser. -/
structure CompiledLalr where
  grammar : ResidualGrammar
  productions : List ParserProduction
  table : LalrTable
  conflicts : List LalrConflict
  lexicalSafe : Bool
  stats : LalrBuildStats

/-! ### FIRST sets -/

/-- A set of terminals, one bit for each. -/
structure TerminalSet where
  bits : List Bool
  epsilon : Bool

namespace TerminalSet

/-- Words of 64 bits. -/
def new (terminals : ℕ) : TerminalSet :=
  ⟨List.replicate (64 * ((terminals + 63) / 64)) false, false⟩

/-- The set with a terminal, and whether it changed. -/
def insert (set : TerminalSet) (terminal : ℕ) : Except CompileError (TerminalSet × Bool) := do
  let bit ← Result.unwrap set.bits[terminal]? .panicked
  pure ({ set with bits := set.bits.set terminal true }, !bit)

/-- The union, and whether the first set changed. -/
def unionWithoutEpsilon (set other : TerminalSet) : TerminalSet × Bool :=
  let bits := set.bits.zipWith (· || ·) other.bits ++ set.bits.drop other.bits.length
  ({ set with bits := bits }, bits != set.bits)

/-- The terminals of the set, in the order of their ids. -/
def terminals (set : TerminalSet) : List ℕ :=
  (List.range set.bits.length).filter fun terminal =>
    set.bits[terminal]?.getD false && terminal ≤ u32Max

end TerminalSet

/-- The FIRST sets so far, and whether one of them changed in this pass. -/
structure FirstPass where
  first : List TerminalSet
  changed : Bool

namespace FirstPass

variable (grammar : ResidualGrammar)

/-- The loop over a right-hand side; the result says whether all of it is nullable. -/
def rhs (lhs : ℕ) : List GrammarSymbol → FirstPass → Except CompileError (FirstPass × Bool)
  | [], pass => pure (pass, true)
  | .terminal terminal :: _, pass => do
    let set ← Result.unwrap pass.first[lhs]? .panicked
    let inserted ← set.insert terminal
    pure (⟨pass.first.set lhs inserted.1, pass.changed || inserted.2⟩, false)
  | .nonterminal nonterminal :: rest, pass => do
    let rhsFirst ← Result.unwrap pass.first[nonterminal]? .panicked
    let set ← Result.unwrap pass.first[lhs]? .panicked
    let union := set.unionWithoutEpsilon rhsFirst
    let pass : FirstPass := ⟨pass.first.set lhs union.1, pass.changed || union.2⟩
    let nullable ← Result.unwrap grammar.nullable[nonterminal]? .panicked
    if nullable then rhs lhs rest pass else pure (pass, false)

/-- A production of the pass over all first sets. -/
def production (pass : FirstPass) (production : ResidualProduction) :
    Except CompileError FirstPass := do
  let result ← rhs grammar production.lhs production.rhs pass
  let pass := result.1
  if result.2 then do
    let set ← Result.unwrap pass.first[production.lhs]? .panicked
    if set.epsilon then pure pass
    else pure ⟨pass.first.set production.lhs { set with epsilon := true }, true⟩
  else
    pure pass

/-- Passes over all productions until nothing changes. -/
def passes : ℕ → List TerminalSet → Except CompileError (List TerminalSet)
  | 0, _ => throw .diverged
  | fuel + 1, first => do
    let pass ← grammar.productions.foldlM (production grammar) ⟨first, false⟩
    if pass.changed then passes fuel pass.first else pure pass.first

end FirstPass

/-- A pass changes one of the bits or is the last one. -/
def computeFirst (grammar : ResidualGrammar) : Except CompileError (List TerminalSet) :=
  FirstPass.passes grammar
    (grammar.nonterminals.length * (64 * ((grammar.terminals.length + 63) / 64) + 1) + 1)
    (List.replicate grammar.nonterminals.length (.new grammar.terminals.length))

/-! ### LR(1) items -/

section Items

variable (productions : List ParserProduction)

/-- The symbol after the dot. -/
def symbolAfterDot (item : Lr1Item) : Except CompileError (Option GrammarSymbol) := do
  let production ← Result.unwrap productions[item.production]?
    (.internalInvariant "LR item production does not exist")
  pure production.rhs[item.dot]?

/-- The loop over the symbols of a tail. -/
def firstOfSymbols (nullable : List Bool) (first : List TerminalSet) (lookahead : Lookahead) :
    List GrammarSymbol → Except CompileError (List Lookahead)
  | [] => pure [lookahead]
  | .terminal terminal :: _ => pure [.terminal terminal]
  | .nonterminal nonterminal :: tail => do
    let set ← Result.unwrap first[nonterminal]? .panicked
    let found := set.terminals.map Lookahead.terminal
    let nullableSymbol ← Result.unwrap nullable[nonterminal]? .panicked
    if nullableSymbol then do
      let rest ← firstOfSymbols nullable first lookahead tail
      pure (found ++ rest)
    else
      pure found

/-- What the symbols behind the next one, and then the lookahead, may begin with. -/
def firstOfTail (nullable : List Bool) (first : List TerminalSet) (item : Lr1Item) :
    Except CompileError (List Lookahead) := do
  let production ← Result.unwrap productions[item.production]? .panicked
  Result.require (item.dot + 1 ≤ production.rhs.length)
    (.internalInvariant "LR item dot is outside its production")
  let result ← firstOfSymbols nullable first item.lookahead (production.rhs.drop (item.dot + 1))
  pure (sortDedup Lookahead.key result)

variable (byLhs : List (List ℕ)) (nullable : List Bool) (first : List TerminalSet)

/-- The items that an item on the agenda asks for. -/
def closureStep (item : Lr1Item) : Except CompileError (List Lr1Item) := do
  let next ← symbolAfterDot productions item
  match next with
  | some (.nonterminal nonterminal) => do
    let lookaheads ← firstOfTail productions nullable first item
    let starts ← Result.unwrap byLhs[nonterminal]? .panicked
    pure (starts.flatMap fun production => lookaheads.map fun lookahead =>
      { production := production, dot := 0, lookahead := lookahead })
  | _ => pure []

/-- The limit bounds the number of items, and so the length of the agenda. -/
def closure (limits : CompileLimits) (seed : List Lr1Item) :
    Except CompileError (List Lr1Item) := do
  let seed := sortDedup Lr1Item.key seed
  let result ← Worklist.explore (closureStep productions byLhs nullable first)
    (fun observed => enforceCompileLimit .lrConstruction observed limits.maxLrItems)
    .diverged (seed.length + limits.maxLrItems) seed seed
  pure (sortDedup Lr1Item.key result)

/-- The body of the loop of `goto`. -/
def moveItem (symbol : GrammarSymbol) (moved : List Lr1Item) (item : Lr1Item) :
    Except CompileError (List Lr1Item) := do
  let next ← symbolAfterDot productions item
  if next = some symbol then do
    Result.require (item.dot + 1 ≤ u32Max) (.internalInvariant "LR item dot overflowed")
    pure (moved ++ [{ item with dot := item.dot + 1 }])
  else
    pure moved

/-- The items with their dot behind the symbol, closed. -/
def goto (limits : CompileLimits) (items : List Lr1Item) (symbol : GrammarSymbol) :
    Except CompileError (List Lr1Item) := do
  let moved ← items.foldlM (moveItem productions symbol) []
  closure productions byLhs nullable first limits moved

end Items

/-- Terminals come before nonterminals. -/
def symbolKey : GrammarSymbol → ℕ ×ₗ ℕ
  | .terminal id => toLex (0, id)
  | .nonterminal id => toLex (1, id)

/-! ### Canonical states -/

/-- The canonical states found so far, those still to be processed, and the transitions.
`state_ids` is the inverse of `canonical`. -/
structure CanonicalStates where
  canonical : List (List Lr1Item)
  queue : List ℕ
  transitions : List ((ℕ × GrammarSymbol) × ℕ)
  totalItems : ℕ

namespace CanonicalStates

section Loop

variable (productions : List ParserProduction) (byLhs : List (List ℕ)) (nullable : List Bool)
  (first : List TerminalSet) (limits : CompileLimits)

/-- The id of a state, which is added if it is new. -/
def stateId (states : CanonicalStates) (target : List Lr1Item) :
    Except CompileError (CanonicalStates × ℕ) :=
  match states.canonical.idxOf? target with
  | some id => pure (states, id)
  | none => do
    enforceCompileLimit .lrConstruction (saturatingAdd states.canonical.length 1) limits.maxLrStates
    let totalItems := states.totalItems + target.length
    Result.require (totalItems ≤ usizeMax)
      (.resourceLimitExceeded .lrConstruction usizeMax limits.maxLrItems)
    enforceCompileLimit .lrConstruction totalItems limits.maxLrItems
    let id := states.canonical.length
    Result.require (id ≤ u32Max) (.resourceLimitExceeded .lrConstruction id u32Max)
    pure ({ states with
      canonical := states.canonical ++ [target]
      queue := states.queue ++ [id]
      totalItems := totalItems }, id)

/-- The transition of a state over a symbol. -/
def transition (state : ℕ) (items : List Lr1Item) (states : CanonicalStates)
    (symbol : GrammarSymbol) : Except CompileError CanonicalStates := do
  let target ← goto productions byLhs nullable first limits items symbol
  let (states, id) ← stateId limits states target
  pure { states with transitions := states.transitions ++ [((state, symbol), id)] }

/-- The loop over the queue; the limit bounds the number of states. -/
def loop : ℕ → CanonicalStates → Except CompileError CanonicalStates
  | fuel, states =>
    match states.queue, fuel with
    | [], _ => pure states
    | _ :: _, 0 => throw .diverged
    | state :: queue, fuel + 1 => do
      let items ← Result.unwrap states.canonical[state]? .panicked
      let symbols ← items.foldlM (fun symbols item => do
        let next ← symbolAfterDot productions item
        pure (symbols ++ next.toList)) []
      let states ← (sortDedup symbolKey symbols).foldlM
        (transition productions byLhs nullable first limits state items)
        { states with queue := queue }
      loop fuel states

end Loop

end CanonicalStates

/-! ### Merging cores -/

/-- The groups of states with equal core, and the group of each state so far. -/
structure MergedCores where
  cores : List (List (ℕ × ℕ))
  mergedSets : List (List Lr1Item)
  mapping : List ℕ

namespace MergedCores

/-- The items of a state without their lookaheads. -/
def core (state : List Lr1Item) : List (ℕ × ℕ) :=
  sortDedup (fun item : ℕ × ℕ => toLex item) (state.map fun item => (item.production, item.dot))

/-- The body of the loop of `merge_cores`. -/
def addState (limits : CompileLimits) (merged : MergedCores) (state : List Lr1Item) :
    Except CompileError MergedCores :=
  match merged.cores.idxOf? (core state) with
  | some id => pure { merged with
      mergedSets := merged.mergedSets.modify id (· ++ state)
      mapping := merged.mapping ++ [id] }
  | none => do
    enforceCompileLimit .lalrMerge (saturatingAdd merged.mergedSets.length 1) limits.maxLrStates
    let id := merged.mergedSets.length
    Result.require (id ≤ u32Max) (.resourceLimitExceeded .lalrMerge id u32Max)
    pure {
      cores := merged.cores ++ [core state]
      mergedSets := merged.mergedSets ++ [state]
      mapping := merged.mapping ++ [id] }

end MergedCores

/-- The states with equal cores are merged, and every state is mapped to its merged one. -/
def mergeCores (limits : CompileLimits) (canonical : List (List Lr1Item)) :
    Except CompileError (List (List Lr1Item) × List ℕ) := do
  let merged ← canonical.foldlM (MergedCores.addState limits) ⟨[], [], []⟩
  pure (merged.mergedSets.map (sortDedup Lr1Item.key), merged.mapping)

/-- The transitions between merged states. -/
abbrev Transitions := AList fun _ : ℕ × GrammarSymbol => ℕ

/-- The body of the loop over the canonical transitions. -/
def mergeTransition (canonicalToMerged : List ℕ) (merged : Transitions)
    (edge : (ℕ × GrammarSymbol) × ℕ) : Except CompileError Transitions := do
  let source ← Result.unwrap canonicalToMerged[edge.1.1]? .panicked
  let target ← Result.unwrap canonicalToMerged[edge.2]? .panicked
  let symbol := edge.1.2
  let existing := (merged.lookup (source, symbol)).getD target
  Result.require (existing = target)
    (.internalInvariant "merged LR core has inconsistent transition targets")
  pure (merged.insert (source, symbol) target)

/-! ### The table -/

/-- A row of actions and the productions that asked for them, with the conflicts so far. -/
structure ActionRow where
  row : AList fun _ : Lookahead => Action
  sources : AList fun _ : Lookahead => List ℕ
  conflicts : List LalrConflict

namespace ActionRow

/-- A conflict of a shift with a reduction, of two reductions, or of an accept. -/
def conflictKind : Action → Action → ConflictKind
  | .shift _, .reduce _ => .shiftReduce
  | .reduce _, .shift _ => .shiftReduce
  | .reduce _, .reduce _ => .reduceReduce
  | _, _ => .acceptConflict

/-- The production of a reduction. -/
def reduced : Action → List ℕ
  | .reduce production => [production]
  | _ => []

/-- An action is entered into a row, or reported as a conflict if there is another one already. -/
def insertAction (productions : List ParserProduction) (limits : CompileLimits) (state : ℕ)
    (lookahead : Lookahead) (action : Action) (source : ℕ) (r : ActionRow) :
    Except CompileError ActionRow :=
  match r.row.lookup lookahead with
  | none => pure { r with
      row := r.row.insert lookahead action
      sources := r.sources.insert lookahead [source] }
  | some existing =>
    let entry := (r.sources.lookup lookahead).getD []
    if existing = action then
      let entry := if source ∈ entry then entry else entry ++ [source]
      pure { r with sources := r.sources.insert lookahead entry }
    else do
      enforceCompileLimit .lalrTable (saturatingAdd r.conflicts.length 1)
        limits.maxReportedConflicts
      let involved := sortDedup (fun id : ℕ => id)
        (entry ++ [source] ++ reduced existing ++ reduced action)
      pure { r with conflicts := r.conflicts ++ [{
        kind := conflictKind existing action
        state := state
        lookahead := lookahead
        first := existing
        second := action
        productions := involved
        provenance := involved.filterMap fun id =>
          productions[id]?.map ParserProduction.provenance }] }

end ActionRow

/-- The rows of one state. -/
structure StateRows where
  actions : ActionRow
  gotos : AList fun _ : ℕ => ℕ

section Table

variable (transitions : Transitions) (productions : List ParserProduction) (augmented : ℕ)
  (limits : CompileLimits)

/-- The entries of an item. -/
def insertItemActions (state : ℕ) (rows : StateRows) (item : Lr1Item) :
    Except CompileError StateRows := do
  let next ← symbolAfterDot productions item
  match next with
  | some (.terminal terminal) => do
    let target ← Result.unwrap (transitions.lookup (state, .terminal terminal)) .panicked
    let actions ← rows.actions.insertAction productions limits state (.terminal terminal)
      (.shift target) item.production
    pure { rows with actions := actions }
  | some (.nonterminal nonterminal) => do
    let target ← Result.unwrap (transitions.lookup (state, .nonterminal nonterminal)) .panicked
    pure { rows with gotos := rows.gotos.insert nonterminal target }
  | none =>
    if item.production = augmented ∧ item.lookahead = .eof then do
      let actions ← rows.actions.insertAction productions limits state .eof .accept
        item.production
      pure { rows with actions := actions }
    else do
      let actions ← rows.actions.insertAction productions limits state item.lookahead
        (.reduce item.production) item.production
      pure { rows with actions := actions }

/-- The rows filled so far. -/
structure TableRows where
  actions : List (List (Lookahead × Action))
  gotos : List (List (ℕ × ℕ))
  conflicts : List LalrConflict

/-- The body of the loop over the states. -/
def addStateRows (rows : TableRows) (entry : List Lr1Item × ℕ) :
    Except CompileError TableRows := do
  let items := entry.1
  let state := entry.2
  Result.require (state ≤ u32Max) (.resourceLimitExceeded .lalrTable state u32Max)
  let filled ← items.foldlM (insertItemActions transitions productions augmented limits state)
    ⟨⟨∅, ∅, rows.conflicts⟩, ∅⟩
  pure {
    actions := rows.actions ++ [sortByKey (fun e => e.1.key)
      (filled.actions.row.entries.map fun e => (e.1, e.2))]
    gotos := rows.gotos ++ [sortByKey (fun e => e.1) (filled.gotos.entries.map fun e => (e.1, e.2))]
    conflicts := filled.actions.conflicts }

/-- The rows of all states, within the limits on entries. -/
def buildTable (states : List (List Lr1Item)) :
    Except CompileError (LalrTable × List LalrConflict) := do
  let rows ← states.zipIdx.foldlM
    (addStateRows transitions productions augmented limits) ⟨[], [], []⟩
  enforceCompileLimit .lalrTable (rows.actions.map List.length).sum limits.maxActionEntries
  enforceCompileLimit .lalrTable (rows.gotos.map List.length).sum limits.maxGotoEntries
  pure ({ actions := rows.actions, gotos := rows.gotos }, rows.conflicts)

end Table

/-! ### Lexical safety -/

/-- How a search ends before its queue is empty. -/
inductive SearchExit
  | found
  | diverged

/-- A search that ended early has found what it looks for. -/
def SearchExit.hasFound {α : Type} : Except SearchExit α → Except CompileError Bool
  | .ok _ => pure false
  | .error .found => pure true
  | .error .diverged => throw .diverged

/-- The states that are not dead after one byte. -/
def CompiledByteDfa.successors (dfa : CompiledByteDfa) (state : ℕ) : List ℕ :=
  (allBytes.map (dfa.nextState state)).filter fun next => !dfa.isDead next

/-- The search for an accepting state after an accepting state. -/
def searchAccepting (dfa : CompiledByteDfa) (state : ℕ) : Except SearchExit (List ℕ) := do
  let start ← Worklist.visit (fun _ => pure ()) [] [] (dfa.successors state)
  Worklist.explore
    (fun current => if dfa.isAccepting current then throw .found else pure (dfa.successors current))
    (fun _ => pure ()) .diverged dfa.stateCount start.1 start.2

/-- No word of the terminal is the beginning of another. -/
def terminalIsPrefixFree : CompiledTerminal → Except CompileError Bool
  | .literal _ => pure true
  | .dfa dfa => do
    let longer ← SearchExit.hasFound ((List.range dfa.stateCount).forM fun state => do
      Result.require (state ≤ u32Max) .found
      if dfa.isAccepting state then do
        let _ ← searchAccepting dfa state
        pure ()
      else pure ())
    pure !longer

/-- An upper bound of the number of cursors of a terminal. -/
def CompiledTerminal.cursorCount : CompiledTerminal → ℕ
  | .literal bytes => bytes.length + 1
  | .dfa d => d.stateCount + 1

/-- The pairs of cursors after one byte; an accepting cursor in one of them ends the search. -/
def stepPair (left right : CompiledTerminal) (pair : TerminalCursorState × TerminalCursorState) :
    Except SearchExit (List (TerminalCursorState × TerminalCursorState)) :=
  allBytes.foldlM (fun pairs byte =>
    match left.advance pair.1 byte, right.advance pair.2 byte with
    | some nextLeft, some nextRight =>
      if left.isAccepting nextLeft || right.isAccepting nextRight then throw .found
      else pure (pairs ++ [(nextLeft, nextRight)])
    | _, _ => pure pairs) []

/-- A word of the one terminal is the beginning of a word of the other. -/
def terminalLanguagesHavePrefixOverlap (left right : CompiledTerminal) :
    Except CompileError Bool :=
  let start := (left.start, right.start)
  SearchExit.hasFound (Worklist.explore (stepPair left right) (fun _ => pure ()) .diverged
    (left.cursorCount * right.cursorCount) [start] [start])

/-- The loop over the pairs of terminals. -/
def overlapFree : List CompiledTerminal → Except CompileError Bool
  | [] => pure true
  | left :: rest => do
    let overlap ← rest.foldlM (fun found right =>
      if found then pure true else terminalLanguagesHavePrefixOverlap left right) false
    if overlap then pure false else overlapFree rest

/-- No word of a terminal is the beginning of another word, of the same terminal
or of another one. -/
def lexicalSafety (terminals : List CompiledTerminal) : Except CompileError Bool := do
  let prefixFree ← terminals.foldlM (fun safe terminal =>
    if safe then terminalIsPrefixFree terminal else pure false) true
  if prefixFree then overlapFree terminals else pure false

/-! ### Building the tables -/

namespace CompiledLalr

/-- The productions with the augmented one last. -/
def parserProductions (grammar : ResidualGrammar) (augmented : ℕ) (rootProvenance : Provenance) :
    List ParserProduction :=
  (grammar.productions.map fun production =>
    { lhs := production.lhs, rhs := production.rhs, provenance := production.provenance,
      original := some production.original }) ++
  [{ lhs := augmented, rhs := [.nonterminal grammar.start], provenance := rootProvenance,
     original := none }]

/-- The tables of a grammar: the canonical states, merged by their cores, and the
check of the terminals. -/
def build (grammar : ResidualGrammar) (limits : CompileLimits) :
    Except CompileError CompiledLalr := do
  let augmented := grammar.nonterminals.length
  Result.require (augmented ≤ u32Max)
    (.resourceLimitExceeded .lrConstruction augmented u32Max)
  let root ← Result.unwrap grammar.nonterminals[grammar.start]?
    (.internalInvariant "residual start nonterminal does not exist")
  let augmentedProduction := grammar.productions.length
  Result.require (augmentedProduction ≤ u32Max)
    (.resourceLimitExceeded .lrConstruction augmentedProduction u32Max)
  let productions := parserProductions grammar augmented root.provenance
  let byLhs := grammar.productionsByLhs ++ [[augmentedProduction]]
  let first ← computeFirst grammar
  let initial ← closure productions byLhs grammar.nullable first limits
    [{ production := augmentedProduction, dot := 0, lookahead := .eof }]
  let states ← CanonicalStates.loop productions byLhs grammar.nullable first limits
    (limits.maxLrStates + 1)
    { canonical := [initial], queue := [0], transitions := [], totalItems := initial.length }
  let merged ← mergeCores limits states.canonical
  let transitions ← states.transitions.foldlM (mergeTransition merged.2) ∅
  let table ← buildTable transitions productions augmentedProduction limits merged.1
  let lexicalSafe ← lexicalSafety grammar.terminals
  pure {
    grammar := grammar
    productions := productions
    table := table.1
    conflicts := table.2
    lexicalSafe := lexicalSafe
    stats := {
      canonicalStates := states.canonical.length
      mergedStates := merged.1.length
      lrItems := states.totalItems
      actionEntries := (table.1.actions.map List.length).sum
      gotoEntries := (table.1.gotos.map List.length).sum
      conflicts := table.2.length } }

/-- Without conflicts and lexically safe. -/
def isUsable (compiled : CompiledLalr) : Bool := compiled.conflicts.isEmpty && compiled.lexicalSafe

end CompiledLalr

end OcEarley

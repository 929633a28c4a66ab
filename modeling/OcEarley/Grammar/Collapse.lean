import OcEarley.Base.Rounds
import OcEarley.Grammar.Automaton
import OcEarley.Grammar.Certify
import OcEarley.Grammar.Residual

/-!
# Collapsing certified regions

`buildResidual` keeps the nonterminals without a certificate, the start symbol and what may become
empty below them; every other nonterminal of a right-hand side becomes a terminal, with an automaton
for its expression.  Terminals for the same literal or the same expression are shared.
-/

namespace OcEarley

/-! ### Nullable nonterminals -/

/-- One production in a round of `productive_nonterminals_for_empty` or `residual_nullable`. -/
def markNullable (state : List Bool × Bool) (rule : ℕ × List GrammarSymbol) :
    Except CompileError (List Bool × Bool) := do
  let known ← vecGet state.1 rule.1
  if known then pure state
  else do
    let empty ← rule.2.allM fun symbol =>
      match symbol with
      | .nonterminal id => vecGet state.1 id
      | .terminal _ => pure false
    if empty then do
      let nullable ← vecSet state.1 rule.1 true
      pure (nullable, true)
    else pure state

/-- Both loops over the productions. -/
def nullableOf (count : ℕ) (rules : List (ℕ × List GrammarSymbol)) :
    Except CompileError (List Bool) :=
  Rounds.rounds markNullable rules .diverged (count + 1) (List.replicate count false)

/-- The nonterminals that derive the empty string. -/
def productiveNonterminalsForEmpty (grammar : Grammar) : Except CompileError (List Bool) :=
  nullableOf grammar.nonterminals.length
    (grammar.productions.map fun production => (production.lhs, production.rhs))

/-- The nullable flags of the residual nonterminals. -/
def residualNullable (count : ℕ) (productions : List ResidualProduction) :
    Except CompileError (List Bool) :=
  nullableOf count (productions.map fun production => (production.lhs, production.rhs))

/-- For every position whether the rest can become empty. -/
def nullableSuffixes (nullable : List Bool) : List GrammarSymbol → Except CompileError (List Bool)
  | [] => pure [true]
  | symbol :: rhs => do
    let rest ← nullableSuffixes nullable rhs
    let here ←
      if rest.headD false then
        match symbol with
        | .nonterminal id => vecGet nullable id
        | .terminal _ => pure false
      else pure false
    pure (here :: rest)

/-! ### What is retained -/

/-- A symbol of a retained production. -/
def retainSymbol (nullable : List Bool) (state : List Bool × Bool) (symbol : GrammarSymbol) :
    Except CompileError (List Bool × Bool) :=
  match symbol with
  | .terminal _ => pure state
  | .nonterminal target => do
    let empty ← vecGet nullable target
    if empty then do
      let known ← vecGet state.1 target
      if known then pure state
      else do
        let retained ← vecSet state.1 target true
        pure (retained, true)
    else pure state

/-- A production of a retained nonterminal: what it mentions and is nullable is retained too. -/
def retainProduction (nullable : List Bool) (state : List Bool × Bool) (production : Production) :
    Except CompileError (List Bool × Bool) := do
  let retained ← vecGet state.1 production.lhs
  if retained then production.rhs.foldlM (retainSymbol nullable) state else pure state

/-- A nonterminal is kept when its component has no certificate. -/
def isUncertified (analysis : RegularAnalysis) (nonterminal : ℕ) : Except CompileError Bool := do
  let component ← vecGet analysis.sccs.componentOf nonterminal
  let certificate ← vecGet analysis.certificates component
  pure certificate.kind.isNone

/-- The nonterminals that stay: those without a certificate, the start, and nullable ones that a
retained nonterminal mentions. -/
def retainedNonterminals (grammar : Grammar) (analysis : RegularAnalysis) (nullable : List Bool) :
    Except CompileError (List Bool) := do
  let retained ← (List.range grammar.nonterminals.length).mapM (isUncertified analysis)
  let retained ← vecSet retained grammar.start true
  Rounds.rounds (retainProduction nullable) grammar.productions .diverged
    (grammar.nonterminals.length + 1) retained

/-- The new ids, and the nonterminals that have them. -/
structure Remap where
  remap : List (Option ℕ)
  nonterminals : List ResidualNonterminal

/-- The next retained nonterminal gets the next id. -/
def remapNonterminal (limits : CompileLimits) (retained : List Bool) (state : Remap)
    (original : Nonterminal) : Except CompileError Remap := do
  let keep ← vecGet retained original.id
  if keep = false then pure state
  else do
    enforceCompileLimit .residualGrammar (saturatingAdd state.nonterminals.length 1)
      limits.maxSymbols
    let id ← toU32 state.nonterminals.length .residualGrammar
    let remap ← vecSet state.remap original.id (some id)
    pure {
      remap := remap
      nonterminals := state.nonterminals ++ [{
        id := id
        original := original.id
        name := original.name
        provenance := original.provenance }] }

/-- The retained nonterminals with their new ids. -/
def remapNonterminals (grammar : Grammar) (limits : CompileLimits) (retained : List Bool) :
    Except CompileError Remap :=
  grammar.nonterminals.foldlM (remapNonterminal limits retained)
    { remap := List.replicate grammar.nonterminals.length none, nonterminals := [] }

/-! ### Terminals -/

/-- What a terminal of the residual grammar stands for; terminals with the same one are shared. -/
inductive TerminalLanguage
  | literal (bytes : List UInt8)
  | expression (e : RegularExpression)
  deriving DecidableEq

/-- The terminals so far, and the ids of those that are shared. -/
structure TerminalTable where
  cache : AList fun _ : TerminalLanguage => ℕ
  terminals : List CompiledTerminal
  terminalProvenance : List Provenance
  dfaStates : ℕ
  dfaBytes : ℕ

section Collapse

variable {ν σ : Type} [DecidableEq σ] (library : RegexLibrary ν σ) (limits : CompileLimits)

/-- The limits of an automaton for a terminal. -/
def terminalLimits : CompileLimits :=
  { limits with
    maxNfaStates := min limits.maxNfaStates limits.maxTerminalDfaStates
    maxDfaStates := min limits.maxDfaStates limits.maxTerminalDfaStates
    maxDfaBytes := min limits.maxDfaBytes limits.maxTerminalDfaBytes }

/-- Limits are reported for the stage of the terminals. -/
def terminalFailure : CompileError → CompileError
  | .resourceLimitExceeded _ observed limit =>
    .resourceLimitExceeded .terminalCompilation observed limit
  | other => other

/-- `compile_terminal` where the language is new. -/
def compileLanguage (provenance : Provenance) (table : TerminalTable) :
    TerminalLanguage → Except CompileError (CompiledTerminal × TerminalTable)
  | .literal bytes => do
    Result.require (bytes ≠ [])
      (.internalInvariant "empty literal remained as a parser terminal")
    pure (.literal bytes, table)
  | .expression expression => do
    let dfa ← (CompiledByteDfa.compile library expression (terminalLimits limits)
      provenance.pointer).mapError terminalFailure
    Result.require (dfa.isAccepting CompiledByteDfa.startState = false)
      (.internalInvariant "nullable regular region was collapsed into a parser terminal")
    Result.require (table.dfaStates + dfa.stateCount ≤ usizeMax)
      (.resourceLimitExceeded .terminalCompilation usizeMax limits.maxTerminalDfaStates)
    Result.require (table.dfaBytes + dfa.memoryBytes ≤ usizeMax)
      (.resourceLimitExceeded .terminalCompilation usizeMax limits.maxTerminalDfaBytes)
    enforceCompileLimit .terminalCompilation (table.dfaStates + dfa.stateCount)
      limits.maxTerminalDfaStates
    enforceCompileLimit .terminalCompilation (table.dfaBytes + dfa.memoryBytes)
      limits.maxTerminalDfaBytes
    pure (.dfa dfa, { table with
      dfaStates := table.dfaStates + dfa.stateCount
      dfaBytes := table.dfaBytes + dfa.memoryBytes })

/-- The id of a terminal, which is compiled at its first use. -/
def compileTerminal (language : TerminalLanguage) (provenance : Provenance)
    (table : TerminalTable) :
    Except CompileError (ℕ × TerminalTable) :=
  match table.cache.lookup language with
  | some id => pure (id, table)
  | none => do
    let (compiled, table) ← compileLanguage library limits provenance table language
    let id ← toU32 table.terminals.length .terminalCompilation
    pure (id, { table with
      cache := table.cache.insert language id
      terminals := table.terminals ++ [compiled]
      terminalProvenance := table.terminalProvenance ++ [provenance] })

/-! ### Productions -/

/-- What a terminal of the grammar stands for. -/
def RegularTerminalKind.terminalLanguage : RegularTerminalKind → TerminalLanguage
  | .literal bytes => .literal bytes
  | .pattern forward reverse => .expression (.atom forward reverse)

variable (grammar : Grammar) (analysis : RegularAnalysis) (remap : List (Option ℕ))

/-- A symbol of a right-hand side, after those that have been translated. -/
def collapseSymbol (state : List GrammarSymbol × TerminalTable) (symbol : GrammarSymbol) :
    Except CompileError (List GrammarSymbol × TerminalTable) :=
  match symbol with
  | .terminal id => do
    let terminal ← Result.unwrap grammar.terminals[id]?
      (.internalInvariant "grammar terminal does not exist")
    let (terminalId, table) ← compileTerminal library limits terminal.kind.terminalLanguage
      terminal.provenance state.2
    pure (state.1 ++ [.terminal terminalId], table)
  | .nonterminal id => do
    let mapped ← vecGet remap id
    match mapped with
    | some id => pure (state.1 ++ [.nonterminal id], state.2)
    | none => do
      let expression ← vecGet analysis.expressions id
      let expression ← Result.unwrap expression
        (.internalInvariant "certified dependency has no regular expression")
      let nonterminal ← vecGet grammar.nonterminals id
      let (terminalId, table) ← compileTerminal library limits (.expression expression)
        nonterminal.provenance state.2
      pure (state.1 ++ [.terminal terminalId], table)

/-- The local variables of the loop over the productions. -/
structure Collapsing where
  table : TerminalTable
  productions : List ResidualProduction
  rhsSymbols : ℕ

/-- The production of a retained nonterminal, with terminals for all that has been collapsed. -/
def collapseProduction (state : Collapsing) (production : Production) :
    Except CompileError Collapsing := do
  let lhs ← vecGet remap production.lhs
  match lhs with
  | none => pure state
  | some lhs => do
    let (rhs, table) ← production.rhs.foldlM
      (collapseSymbol library limits grammar analysis remap) ([], state.table)
    Result.require (state.rhsSymbols + rhs.length ≤ usizeMax)
      (.resourceLimitExceeded .residualGrammar usizeMax limits.maxRhsSymbols)
    enforceCompileLimit .residualGrammar (state.rhsSymbols + rhs.length) limits.maxRhsSymbols
    enforceCompileLimit .residualGrammar (saturatingAdd state.productions.length 1)
      limits.maxProductions
    let id ← toU32 state.productions.length .residualGrammar
    pure {
      table := table
      productions := state.productions ++ [{
        id := id
        original := production.id
        lhs := lhs
        rhs := rhs
        provenance := production.provenance }]
      rhsSymbols := state.rhsSymbols + rhs.length }

/-- `productions_by_lhs`. -/
def indexProductions (count : ℕ) (productions : List ResidualProduction) :
    Except CompileError (List (List ℕ)) :=
  productions.foldlM (fun index production => do
    let ids ← vecGet index production.lhs
    vecSet index production.lhs (ids ++ [production.id])) (List.replicate count [])

/-- The components none of whose members is retained. -/
def countCollapsedRegions (retained : List Bool) : List Scc → Except CompileError ℕ
  | [] => pure 0
  | component :: components => do
    let collapsed ← component.members.allM fun member => do
      let keep ← vecGet retained member
      pure (!keep)
    let rest ← countCollapsedRegions retained components
    pure (if collapsed then rest + 1 else rest)

/-- The residual grammar of an analysis. -/
def buildResidual : Except CompileError ResidualGrammar := do
  let originalNullable ← productiveNonterminalsForEmpty grammar
  let retained ← retainedNonterminals grammar analysis originalNullable
  let ids ← remapNonterminals grammar limits retained
  let collapsed ← grammar.productions.foldlM
    (collapseProduction library limits grammar analysis ids.remap)
    { table := {
        cache := ∅, terminals := [], terminalProvenance := [], dfaStates := 0, dfaBytes := 0 }
      productions := []
      rhsSymbols := 0 }
  let productionsByLhs ← indexProductions ids.nonterminals.length collapsed.productions
  let nullable ← residualNullable ids.nonterminals.length collapsed.productions
  let productiveSuffixes ← collapsed.productions.mapM fun production =>
    nullableSuffixes nullable production.rhs
  let start ← vecGet ids.remap grammar.start
  let start ← Result.unwrap start (.internalInvariant "residual grammar start was removed")
  let collapsedRegions ← countCollapsedRegions retained analysis.sccs.components
  pure {
    start := start
    nonterminals := ids.nonterminals
    terminals := collapsed.table.terminals
    terminalProvenance := collapsed.table.terminalProvenance
    productions := collapsed.productions
    productionsByLhs := productionsByLhs
    nullable := nullable
    productiveSuffixes := productiveSuffixes
    collapsedNonterminals := retained.count false
    collapsedRegions := collapsedRegions
    terminalDfaStates := collapsed.table.dfaStates
    terminalDfaBytes := collapsed.table.dfaBytes }

end Collapse

end OcEarley

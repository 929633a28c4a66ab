import OcEarley.Grammar.Expression
import OcEarley.Grammar.Scc
import OcEarley.Grammar.TerminalText

/-!
# Certifying regular components

A component without recursion is the union of its right-hand sides.  A recursive one in which the
member of a right-hand side always stands at the same end is a linear system, solved by eliminating
one member after the other; where it stands at the front, the system is solved for the reversed
languages.  The components are certified once those that they depend on are.
-/

namespace OcEarley

/-- What a component is certified as. -/
inductive RegularCertificateKind
  | acyclic
  | rightLinear
  | leftLinear
  deriving DecidableEq, Repr

/-- The reasons of the source, and `panicked` for an index out of bounds. -/
inductive CertificateFailureReason
  | multipleRecursiveOccurrences
  | mixedLinearOrientation
  | recursiveSymbolInInterior
  | uncertifiedDependency
  | unsupportedRegularOperation
  | panicked
  deriving DecidableEq, Repr

/-- What is reported of a component: what it is certified as, or why it is not. -/
structure SccCertificate where
  scc : ℕ
  kind : Option RegularCertificateKind
  failureReason : Option CertificateFailureReason
  deriving DecidableEq, Repr

/-- The components with their certificates, and the expressions of the
nonterminals in certified ones. -/
structure RegularAnalysis where
  sccs : SccAnalysis
  certificates : List SccCertificate
  expressions : List (Option RegularExpression)
  wholeLanguage : Option RegularExpression

section Certify

variable (escape : String → String) (grammar : Grammar) (analysis : SccAnalysis) (component : Scc)

/-- The symbol is a nonterminal of the component. -/
def isRecursiveSymbol (symbol : GrammarSymbol) : Except CertificateFailureReason Bool :=
  match symbol with
  | .nonterminal target => do
    let owner ← Result.unwrap analysis.componentOf[target]? .panicked
    pure (owner = component.id)
  | .terminal _ => pure false

/-! ### Expressions of right-hand sides -/

/-- The expression itself, or its reversal. -/
def orient (reversed : Bool) (expression : RegularExpression) :
    Except CertificateFailureReason RegularExpression :=
  if reversed then Result.unwrap expression.reversed .unsupportedRegularOperation
  else pure expression

/-- The expression of a symbol that is no member of the component. -/
def symbolExpression (expressions : List (Option RegularExpression)) (reversed : Bool)
    (symbol : GrammarSymbol) : Except CertificateFailureReason RegularExpression :=
  match symbol with
  | .terminal id => do
    let terminal ← Result.unwrap grammar.terminals[id]? .panicked
    orient reversed (.atom (terminal.forwardPattern escape) (terminal.reversePattern escape))
  | .nonterminal id => do
    let owner ← Result.unwrap analysis.componentOf[id]? .panicked
    Result.require (owner ≠ component.id) .recursiveSymbolInInterior
    let expression ← Result.unwrap expressions[id]? .panicked
    let expression ← Result.unwrap expression .uncertifiedDependency
    orient reversed expression

/-- The expression of a right-hand side without members, in the order that the system reads it. -/
def rhsExpression (rhs : List GrammarSymbol) (expressions : List (Option RegularExpression))
    (reversed : Bool) : Except CertificateFailureReason RegularExpression := do
  let parts ← (if reversed then rhs.reverse else rhs).mapM
    (symbolExpression escape grammar analysis component expressions reversed)
  pure (concat parts)

/-! ### Orientation -/

/-- The end at which members stand; a right-hand side without members, or with
nothing else, is neutral. -/
inductive LinearOrientation
  | neutral
  | right
  | left
  deriving DecidableEq, Repr

/-- The orientation of a right-hand side whose members stand at the positions. -/
def productionOrientation (rhs : List GrammarSymbol) (positions : List ℕ) :
    Except CertificateFailureReason LinearOrientation := do
  Result.require (positions.length ≤ 1) .multipleRecursiveOccurrences
  match positions.head? with
  | none => pure .neutral
  | some position =>
    if rhs.length = 1 then pure .neutral
    else if position = 0 then pure .left
    else if position + 1 = rhs.length then pure .right
    else throw .recursiveSymbolInInterior

/-- The orientation found so far, and that of one more production. -/
def orientProduction (orientation : LinearOrientation) (production : Production) :
    Except CertificateFailureReason LinearOrientation := do
  let flags ← production.rhs.mapM (isRecursiveSymbol analysis component)
  let positions := (flags.zipIdx.filter fun entry => entry.1).map fun entry => entry.2
  let productionOrientation ← productionOrientation production.rhs positions
  if productionOrientation = .neutral then pure orientation
  else do
    Result.require (¬ (orientation ≠ .neutral ∧ orientation ≠ productionOrientation))
      .mixedLinearOrientation
    pure productionOrientation

/-- The orientation of all productions, the right one if both suit. -/
def componentOrientation : Except CertificateFailureReason LinearOrientation := do
  let orientation ← component.members.foldlM (fun orientation member =>
    (grammar.productionsFor member).foldlM (orientProduction analysis component)
      orientation) .neutral
  pure (if orientation = .neutral then .right else orientation)

/-! ### Elimination -/

/-- `edges[source][target]`. -/
def edgeAt (edges : List (List RegularExpression)) (source target : ℕ) :
    Except CertificateFailureReason RegularExpression := do
  let row ← Result.unwrap edges[source]? .panicked
  Result.unwrap row[target]? .panicked

/-- A further branch of `edges[source][target]`. -/
def addBranch (edges : List (List RegularExpression)) (source target : ℕ)
    (label : RegularExpression) :
    Except CertificateFailureReason (List (List RegularExpression)) := do
  let row ← Result.unwrap edges[source]? .panicked
  let branch ← Result.unwrap row[target]? .panicked
  pure (edges.set source (row.set target (union [branch, label])))

/-- The position of the first member of the component. -/
def recursivePosition : List GrammarSymbol → Except CertificateFailureReason (Option ℕ)
  | [] => pure none
  | symbol :: rhs => do
    let here ← isRecursiveSymbol analysis component symbol
    if here then pure (some 0)
    else do
      let position ← recursivePosition rhs
      pure (position.map (· + 1))

/-- Where the edge of a right-hand side leads, and the symbols on it. -/
def edgeOf (reversed : Bool) (rhs : List GrammarSymbol) :
    Except CertificateFailureReason (ℕ × List GrammarSymbol) := do
  let recursive ← recursivePosition analysis component rhs
  match recursive with
  | some position =>
    match rhs[position]? with
    | some (.nonterminal target) => do
      let index ← Result.unwrap (component.members.idxOf? target) .panicked
      pure (index, if reversed then rhs.drop (position + 1) else rhs.take position)
    | _ => throw .panicked
  | none => pure (component.members.length, rhs)

/-- The edge of a production. -/
def addProductionEdge (expressions : List (Option RegularExpression)) (reversed : Bool) (source : ℕ)
    (edges : List (List RegularExpression)) (production : Production) :
    Except CertificateFailureReason (List (List RegularExpression)) := do
  let edge ← edgeOf analysis component reversed production.rhs
  let label ← rhsExpression escape grammar analysis component edge.2 expressions reversed
  addBranch edges source edge.1 label

/-- The walks through the pivot, from one source. -/
def passPivot (stateCount : ℕ) (entering loop : RegularExpression)
    (outgoing : List RegularExpression) (source : ℕ) (edges : List (List RegularExpression)) :
    Except CertificateFailureReason (List (List RegularExpression)) :=
  if entering = .empty then pure edges
  else
    (List.range stateCount).foldlM (fun edges target => do
      let leaving ← Result.unwrap outgoing[target]? .panicked
      if leaving = .empty then pure edges
      else addBranch edges source target (concat [entering, loop, leaving])) edges

/-- One member is eliminated: every walk through it becomes a branch between the others. -/
def eliminate (stateCount : ℕ) (edges : List (List RegularExpression)) (pivot : ℕ) :
    Except CertificateFailureReason (List (List RegularExpression)) := do
  let incoming ← (List.range stateCount).mapM fun source => edgeAt edges source pivot
  let outgoing ← Result.unwrap edges[pivot]? .panicked
  let here ← edgeAt edges pivot pivot
  (List.range stateCount).foldlM (fun edges source => do
    let entering ← Result.unwrap incoming[source]? .panicked
    passPivot stateCount entering (star here) outgoing source edges) edges

/-- The linear system of a component, filled, eliminated and read off at the exit. -/
def solveLinearComponent (expressions : List (Option RegularExpression)) (reversed : Bool) :
    Except CertificateFailureReason (List RegularExpression) := do
  let finalState := component.members.length
  let stateCount := finalState + 1
  let edges ← component.members.zipIdx.foldlM (fun edges entry =>
      (grammar.productionsFor entry.1).foldlM
        (addProductionEdge escape grammar analysis component expressions reversed entry.2) edges)
    (List.replicate stateCount (List.replicate stateCount .empty))
  let edges ← (List.range finalState).foldlM (eliminate stateCount) edges
  (List.range finalState).mapM fun source => edgeAt edges source finalState

/-! ### Components -/

/-- A call that records expressions. -/
abbrev Certifying := Method CertificateFailureReason (List (Option RegularExpression))

/-- A call that only reads. -/
def certifying {α : Type} (result : Except CertificateFailureReason α) : Certifying α :=
  match result with
  | .ok value => pure value
  | .error reason => throw reason

/-- `expressions[member] = Some(expression)`. -/
def setExpression (member : ℕ) (expression : RegularExpression) : Certifying Unit := do
  let expressions ← get
  Method.require (member < expressions.length) .panicked
  set (expressions.set member (some expression))

/-- A component is solved, and the expressions of its members are recorded. -/
def certifyComponent : Certifying RegularCertificateKind := do
  if component.recursive = false then
    let member ← Method.unwrap component.members[0]? .panicked
    let expressions ← get
    let branches ← certifying ((grammar.productionsFor member).mapM fun production =>
      rhsExpression escape grammar analysis component production.rhs expressions false)
    setExpression member (union branches)
    pure .acyclic
  else
    let orientation ← certifying (componentOrientation grammar analysis component)
    let reversed : Bool := orientation = .left
    let expressions ← get
    let solved ← certifying
      (solveLinearComponent escape grammar analysis component expressions reversed)
    (component.members.zip solved).forM fun entry => do
      let expression ← certifying (orient reversed entry.2)
      setExpression entry.1 expression
    pure (if reversed then .leftLinear else .rightLinear)

/-! ### All components -/

/-- What a component is left with. -/
abbrev CertificateOutcome := Except CertificateFailureReason RegularCertificateKind

/-- The local variables of the loop over the components. -/
structure Certification where
  outcomes : List (Option CertificateOutcome)
  expressions : List (Option RegularExpression)
  remaining : ℕ
  progress : Bool

/-- The other components that a right-hand side mentions. -/
def externalSymbol (dependencies : List ℕ) (symbol : GrammarSymbol) :
    Except CompileError (List ℕ) :=
  match symbol with
  | .nonterminal target => do
    let dependency ← vecGet analysis.componentOf target
    pure (if dependency ≠ component.id then dependencies ++ [dependency] else dependencies)
  | .terminal _ => pure dependencies

/-- The other components that the right-hand sides of the component mention. -/
def externalComponents : Except CompileError (List ℕ) := do
  let dependencies ← component.members.foldlM (fun dependencies member =>
    (grammar.productionsFor member).foldlM (fun dependencies production =>
      production.rhs.foldlM (externalSymbol analysis component) dependencies) dependencies) []
  pure (sortDedup id dependencies)

/-- A failure that is reported; a panic is none. -/
def reported : EStateM.Result CertificateFailureReason (List (Option RegularExpression))
      RegularCertificateKind →
    Except CompileError (CertificateOutcome × List (Option RegularExpression))
  | .ok kind expressions => pure (.ok kind, expressions)
  | .error reason expressions =>
    if reason = .panicked then throw .panicked else pure (.error reason, expressions)

/-- The component is done with. -/
def settle (state : Certification) (outcome : CertificateOutcome)
    (expressions : List (Option RegularExpression)) : Except CompileError Certification := do
  let outcomes ← vecSet state.outcomes component.id (some outcome)
  Result.require (0 < state.remaining) .panicked
  pure { outcomes, expressions, remaining := state.remaining - 1, progress := true }

/-- The component was not certified. -/
def isRefused : Option CertificateOutcome → Bool
  | some (.error _) => true
  | _ => false

/-- A component is certified or refused once all that it needs are done with;
until then it waits. -/
def visitComponent (state : Certification) : Except CompileError Certification := do
  let outcome ← vecGet state.outcomes component.id
  if outcome.isSome then pure state
  else
    let dependencies ← externalComponents grammar analysis component
    let statuses ← dependencies.mapM (vecGet state.outcomes)
    if statuses.any Option.isNone then pure state
    else if statuses.any isRefused then
      settle component state (.error .uncertifiedDependency) state.expressions
    else
      let result ← reported (certifyComponent escape grammar analysis component state.expressions)
      settle component state result.1 result.2

/-- The loop `while remaining != 0`. -/
def certifyLoop : ℕ → Certification → Except CompileError Certification
  | fuel, state =>
    if state.remaining = 0 then pure state
    else match fuel with
      | 0 => throw .diverged
      | fuel + 1 => do
        let state ← analysis.components.foldlM
          (fun state component => visitComponent escape grammar analysis component state)
          { state with progress := false }
        Result.require (state.progress = true)
          (.internalInvariant "SCC condensation graph did not make progress")
        certifyLoop fuel state

/-- The certificate of a component that is done with. -/
def certificateOf (entry : Option CertificateOutcome × ℕ) : Except CompileError SccCertificate := do
  let outcome ← Result.unwrap entry.1
    (.internalInvariant "regular certification left an SCC unprocessed")
  let scc ← toU32 entry.2 .regularCertification
  match outcome with
  | .ok kind => pure { scc, kind := some kind, failureReason := none }
  | .error reason => pure { scc, kind := none, failureReason := some reason }

/-- All components are certified or refused, pass after pass. -/
def certifyRegularWithSccs : Except CompileError RegularAnalysis := do
  let state ← certifyLoop escape grammar analysis analysis.components.length
    { outcomes := List.replicate analysis.components.length none
      expressions := List.replicate grammar.nonterminals.length none
      remaining := analysis.components.length
      progress := false }
  let certificates ← state.outcomes.zipIdx.mapM certificateOf
  let wholeLanguage ← vecGet state.expressions grammar.start
  pure { sccs := analysis, certificates, expressions := state.expressions, wholeLanguage }

end Certify

/-- The components of the grammar are analyzed and certified. -/
def certifyRegular (escape : String → String) (grammar : Grammar) :
    Except CompileError RegularAnalysis := do
  let sccs ← analyzeSccs grammar
  certifyRegularWithSccs escape grammar sccs

end OcEarley

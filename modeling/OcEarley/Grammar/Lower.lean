import Mathlib.Data.List.AList
import OcEarley.Base.Method
import OcEarley.Grammar.Grammar
import OcEarley.Schema.Types

/-!
# Lowering a schema to a grammar

Every node of the arena gets a nonterminal, and its productions are added by the kind of the node.
Arrays and objects have further nonterminals for the position in the value.
-/

namespace OcEarley

/-- The key of a literal: its bytes and where in the schema it stands. -/
abbrev LiteralKey := List UInt8 × String × Option String

/-- The grammar while it is built. -/
structure GrammarBuilder where
  limits : CompileLimits
  nonterminals : List Nonterminal
  terminals : List RegularTerminal
  productions : List Production
  rhsSymbols : ℕ
  literalCache : AList fun _ : LiteralKey => ℕ

/-- A call that changes the builder. -/
abbrev Lowering := Method CompileError GrammarBuilder

/-- The provenance with a keyword. -/
def keywordProvenance (provenance : Provenance) (keyword : String) : Provenance :=
  { provenance with keyword := some keyword }

namespace GrammarBuilder

/-- The empty grammar. -/
def new (limits : CompileLimits) : GrammarBuilder where
  limits := limits
  nonterminals := []
  terminals := []
  productions := []
  rhsSymbols := 0
  literalCache := ∅

/-- An id below the limit and of 32 bits. -/
def nextId (observed limit id : ℕ) : Lowering Unit := do
  Method.require (observed ≤ limit) (.resourceLimitExceeded .lowering observed limit)
  Method.require (id ≤ u32Max) (.resourceLimitExceeded .lowering id u32Max)

/-- One more nonterminal, within the limit on symbols. -/
def addNonterminal (name : String) (provenance : Provenance) : Lowering ℕ := do
  let b ← get
  let id := b.nonterminals.length
  nextId (b.nonterminals.length + b.terminals.length + 1) b.limits.maxSymbols id
  modify fun b => { b with nonterminals := b.nonterminals ++ [{ id, name, provenance }] }
  pure id

/-- One more terminal, within the limit on symbols. -/
def addTerminal (kind : RegularTerminalKind) (provenance : Provenance) : Lowering ℕ := do
  let b ← get
  let id := b.terminals.length
  nextId (b.nonterminals.length + b.terminals.length + 1) b.limits.maxSymbols id
  modify fun b => { b with terminals := b.terminals ++ [{ id, kind, provenance }] }
  pure id

/-- The terminal of a literal, shared within one place and keyword of the document. -/
def addLiteral (bytes : List UInt8) (provenance : Provenance) : Lowering ℕ := do
  let b ← get
  let key : LiteralKey := (bytes, provenance.pointer.text, provenance.keyword)
  match b.literalCache.lookup key with
  | some id => pure id
  | none =>
    let id ← addTerminal (.literal bytes) provenance
    modify fun b => { b with literalCache := b.literalCache.insert key id }
    pure id

/-- The terminal of a pattern. -/
def addPattern (forward : String) (reverse : Option String) (provenance : Provenance) :
    Lowering ℕ :=
  addTerminal (.pattern forward reverse) provenance

/-- One more production, within the limits on productions and on symbols of right-hand sides. -/
def addProduction (lhs : ℕ) (rhs : List GrammarSymbol) (provenance : Provenance) : Lowering ℕ := do
  let b ← get
  Method.require (b.productions.length + 1 ≤ b.limits.maxProductions)
    (.resourceLimitExceeded .lowering (b.productions.length + 1) b.limits.maxProductions)
  let nextRhs := b.rhsSymbols + rhs.length
  Method.require (nextRhs ≤ usizeMax)
    (.resourceLimitExceeded .lowering usizeMax b.limits.maxRhsSymbols)
  let id := b.productions.length
  nextId nextRhs b.limits.maxRhsSymbols id
  modify fun b => { b with
    rhsSymbols := nextRhs
    productions := b.productions ++ [{ id, lhs, rhs, provenance }] }
  pure id

end GrammarBuilder

open GrammarBuilder

/-! ### Arrays -/

/-- The schema of the item at a position. -/
def ArrayConstraints.item (array : ArrayConstraints) (index : ℕ) : Option ℕ :=
  if index < array.prefixItems.length then array.prefixItems[index]? else array.items

/-- `items: false` bounds the length by the number of prefix items. -/
def ArrayConstraints.effectiveMax (array : ArrayConstraints) (itemIsNever : Bool) : Option ℕ :=
  if itemIsNever then
    some (min (array.maxItems.getD array.prefixItems.length) array.prefixItems.length)
  else array.maxItems

/-- The array may end at the position. -/
def lowerEnd (array : ArrayConstraints) (provenance : Provenance) (state index : ℕ) :
    Lowering Unit :=
  if array.minItems ≤ index then do
    let _ ← addProduction state [] (keywordProvenance provenance "minItems")
  else pure ()

/-- The symbols before an item. -/
def lowerComma (provenance : Provenance) (index : ℕ) : Lowering (List GrammarSymbol) :=
  if index ≠ 0 then do
    let comma ← addLiteral [44] provenance
    pure [.terminal comma]
  else pure []

/-- An item may follow at the position; the last state loops. -/
def lowerItem (arena : SchemaArena) (schemaNonterminals : List ℕ) (array : ArrayConstraints)
    (effectiveMax : Option ℕ) (provenance : Provenance) (states : List ℕ) (state index : ℕ) :
    Lowering Unit :=
  if effectiveMax.any (· ≤ index) then pure ()
  else match array.item index with
    | none => pure ()
    | some item =>
      if arena.isNever item then pure ()
      else do
        let next := (states[index + 1]?).getD state
        let comma ← lowerComma provenance index
        let nonterminal ← Method.unwrap schemaNonterminals[item]? .panicked
        let _ ← addProduction state (comma ++ [.nonterminal nonterminal, .nonterminal next])
          (keywordProvenance provenance "items")

/-- The productions of an array from one position on. -/
def lowerPosition (arena : SchemaArena) (schemaNonterminals : List ℕ) (array : ArrayConstraints)
    (effectiveMax : Option ℕ) (provenance : Provenance) (states : List ℕ) (index : ℕ) :
    Lowering Unit := do
  let state ← Method.unwrap states[index]? .panicked
  lowerEnd array provenance state index
  lowerItem arena schemaNonterminals array effectiveMax provenance states state index

/-- An array: a chain of nonterminals, one for every position up to the last one that is bounded. -/
def lowerArray (arena : SchemaArena) (schemaNonterminals : List ℕ) (lhs schemaId : ℕ)
    (array : ArrayConstraints) (provenance : Provenance) : Lowering Unit := do
  let effectiveMax := array.effectiveMax (array.items.any arena.isNever)
  if effectiveMax.any (· < array.minItems) then pure ()
  else do
    Method.require (¬ (effectiveMax = none ∧ array.items = none))
      (.unsupportedCombination provenance.location
        "unbounded unconstrained array items require a structural backend")
    Method.require (¬ (effectiveMax.any (array.prefixItems.length < ·) ∧ array.items = none))
      (.unsupportedCombination provenance.location
        "unconstrained remainder items require a structural backend")
    let b ← get
    let positionCount := effectiveMax.getD
      (max (max array.prefixItems.length array.minItems) 1)
    Method.require (positionCount + 1 ≤ usizeMax)
      (.resourceLimitExceeded .lowering usizeMax b.limits.maxSymbols)
    let stateCount := positionCount + 1
    Method.require (b.nonterminals.length + stateCount ≤ usizeMax)
      (.resourceLimitExceeded .lowering usizeMax b.limits.maxSymbols)
    Method.require (b.nonterminals.length + stateCount ≤ b.limits.maxSymbols)
      (.resourceLimitExceeded .lowering (b.nonterminals.length + stateCount) b.limits.maxSymbols)
    let states ← (List.range stateCount).mapM fun index =>
      addNonterminal s!"array_{schemaId}_position_{index}" (keywordProvenance provenance "items")
    (List.range stateCount).forM
      (lowerPosition arena schemaNonterminals array effectiveMax provenance states)
    let opening ← addLiteral [91] provenance
    let closing ← addLiteral [93] provenance
    let first ← Method.unwrap states[0]? .panicked
    let _ ← addProduction lhs [.terminal opening, .nonterminal first, .terminal closing] provenance

/-! ### Objects -/

/-- The production in which the member is absent. -/
def lowerAbsent (required : Bool) (provenance : Provenance) (current next : ℕ) : Lowering Unit :=
  if required then pure ()
  else do
    let _ ← addProduction current [.nonterminal next] (keywordProvenance provenance "properties")

/-- The productions of the member `index`, where `emitted` says whether one stands before it. -/
def lowerMember (schemaNonterminals : List ℕ) (object : ObjectConstraints)
    (provenance : Provenance) (members : List (ℕ × ℕ)) (entry : (String × ℕ) × ℕ)
    (emitted : Bool) : Lowering Unit := do
  let pick := fun states : ℕ × ℕ => if emitted then states.2 else states.1
  let here ← Method.unwrap members[entry.2]? .panicked
  let next ← Method.unwrap members[entry.2 + 1]? .panicked
  lowerAbsent (object.required.contains entry.1.1) provenance (pick here) (pick next)
  let comma ← lowerComma provenance (if emitted then 1 else 0)
  let key ← addLiteral (utf8Bytes (jsonString entry.1.1)) provenance
  let colon ← addLiteral [58] provenance
  let value ← Method.unwrap schemaNonterminals[entry.1.2]? .panicked
  let _ ← addProduction (pick here)
    (comma ++ [.terminal key, .terminal colon, .nonterminal value, .nonterminal next.2])
    (keywordProvenance provenance "properties")

/-- An object: its properties in the order of their keys, with a nonterminal for what has been
written before each of them. -/
def lowerObject (schemaNonterminals : List ℕ) (lhs schemaId : ℕ) (object : ObjectConstraints)
    (provenance : Provenance) : Lowering Unit := do
  Method.require (object.additionalProperties = .forbidden)
    (.unsupportedCombination provenance.location "open objects require canonical key-order memory")
  if object.required.any fun name => (object.properties.lookup name).isNone then pure ()
  else do
    let count := object.properties.length
    let members ← (List.range (count + 1)).mapM fun index => do
      let absent ← addNonterminal s!"object_{schemaId}_members_{index}_empty"
        (keywordProvenance provenance "properties")
      let present ← addNonterminal s!"object_{schemaId}_members_{index}_present"
        (keywordProvenance provenance "properties")
      pure (absent, present)
    let last ← Method.unwrap members[count]? .panicked
    let _ ← addProduction last.1 [] (keywordProvenance provenance "properties")
    let _ ← addProduction last.2 [] (keywordProvenance provenance "properties")
    object.properties.zipIdx.forM fun entry => do
      lowerMember schemaNonterminals object provenance members entry false
      lowerMember schemaNonterminals object provenance members entry true
    let opening ← addLiteral [123] provenance
    let closing ← addLiteral [125] provenance
    let first ← Method.unwrap members[0]? .panicked
    let _ ← addProduction lhs [.terminal opening, .nonterminal first.1,
      .terminal closing] provenance

/-! ### Nodes -/

/-- The only right-hand side is a pattern. -/
def lowerPattern (lhs : ℕ) (forward : String) (reverse : Option String)
    (provenance : Provenance) : Lowering Unit := do
  let terminal ← addPattern forward reverse provenance
  let _ ← addProduction lhs [.terminal terminal] provenance

/-- A right-hand side that is the text of a value. -/
def lowerValue (lhs : ℕ) (provenance : Provenance) (value : CanonicalValue) : Lowering Unit := do
  let terminal ← addLiteral (utf8Bytes value.json) provenance
  let _ ← addProduction lhs [.terminal terminal] provenance

/-- A right-hand side that is the nonterminal of another node. -/
def lowerTarget (schemaNonterminals : List ℕ) (lhs : ℕ) (provenance : Provenance) (target : ℕ) :
    Lowering Unit := do
  let nonterminal ← Method.unwrap schemaNonterminals[target]? .panicked
  let _ ← addProduction lhs [.nonterminal nonterminal] provenance

/-- The right-hand sides of a node, by its kind. -/
def lowerNode (arena : SchemaArena) (schemaNonterminals : List ℕ) (lhs schemaId : ℕ)
    (kind : NormalizedSchema) (provenance : Provenance) : Lowering Unit :=
  match kind with
  | .never => pure ()
  | .any => throw (.unsupportedCombination provenance.location
      "unconstrained JSON objects require canonical key-order memory")
  | .null => lowerPattern lhs JsonPattern.null (some JsonPattern.null) provenance
  | .boolean => lowerPattern lhs JsonPattern.boolean none provenance
  | .string constraints => do
    Method.require (constraints.minLength = 0 ∧ constraints.maxLength = none)
      (.unsupportedCombination provenance.location
        "Unicode length constraints require a certified scalar-count automaton")
    lowerPattern lhs JsonPattern.string none provenance
  | .number => lowerPattern lhs JsonPattern.number none provenance
  | .integer => lowerPattern lhs JsonPattern.integer none provenance
  | .const value => lowerValue lhs provenance value
  | .enum values => values.forM (lowerValue lhs provenance)
  | .union branches => branches.forM (lowerTarget schemaNonterminals lhs provenance)
  | .ref target => lowerTarget schemaNonterminals lhs provenance target
  | .array array => lowerArray arena schemaNonterminals lhs schemaId array provenance
  | .object object => lowerObject schemaNonterminals lhs schemaId object provenance

/-- A nonterminal for every node, then the productions of each; the
root's nonterminal is returned. -/
def lowerNodes (arena : SchemaArena) : Lowering ℕ := do
  let schemaNonterminals ← arena.nodes.mapM fun node =>
    addNonterminal s!"schema_{node.id}" node.provenance
  arena.nodes.forM fun node => do
    let lhs ← Method.unwrap schemaNonterminals[node.id]? .panicked
    lowerNode arena schemaNonterminals lhs node.id node.kind node.provenance
  Method.unwrap schemaNonterminals[arena.root]? .panicked

/-- The grammar of a schema arena. -/
def lower (arena : SchemaArena) (limits : CompileLimits) : Except CompileError Grammar :=
  match lowerNodes arena (GrammarBuilder.new limits) with
  | .ok start b => .ok
    { start, nonterminals := b.nonterminals, terminals := b.terminals,
      productions := b.productions }
  | .error error _ => .error error

end OcEarley

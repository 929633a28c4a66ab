import Mathlib.Algebra.Group.Nat.Defs
import OcEarley.Base.Method
import OcEarley.Base.Result

/-!
# Errors, limits and locations

The error types of the crate, with the fields they report, and the two records of limits.  Two
outcomes of running the program are not values of the source's error types and get constructors of
their own: `panicked` for an index out of bounds, and `diverged` for a loop whose fuel ran out.
The results on the recognizers show that neither is ever reached.
-/

namespace OcEarley

/-- Largest value of a `usize` or a `u64`. -/
def usizeMax : ℕ := 2 ^ 64 - 1

/-- Largest value of a `u32`. -/
def u32Max : ℕ := 2 ^ 32 - 1

/-- `usize::saturating_add`, also of `u64`. -/
def saturatingAdd (a b : ℕ) : ℕ := min (a + b) usizeMax

/-- `usize::saturating_mul`, also of `u64`. -/
def saturatingMul (a b : ℕ) : ℕ := min (a * b) usizeMax

/-- A JSON pointer into a schema document. -/
structure SchemaPointer where
  text : String
  deriving DecidableEq, Repr

/-- Where a part of the grammar comes from: a document, a place in it and a keyword there. -/
structure Provenance where
  resource : ℕ
  pointer : SchemaPointer
  keyword : Option String
  deriving DecidableEq, Repr

/-- The place that an error message names. -/
structure DiagnosticLocation where
  resource : ℕ
  pointer : SchemaPointer
  keyword : Option String
  deriving DecidableEq, Repr

/-- The root of the first resource. -/
def Provenance.root : Provenance := { resource := 0, pointer := ⟨""⟩, keyword := none }

/-- The place of a provenance. -/
def Provenance.location (p : Provenance) : DiagnosticLocation :=
  { resource := p.resource, pointer := p.pointer, keyword := p.keyword }

/-- The stages of a compilation. -/
inductive CompileStage
  | parse | schemaIndex | referenceResolution | normalization | lowering | grammarReduction
  | sccAnalysis | regularCertification | nfaConstruction | dfaDeterminization
  | vocabularyProjection | residualGrammar | terminalCompilation | lrConstruction | lalrMerge
  | lalrTable | earleyPreparation | leoPreparation
  deriving DecidableEq, Repr

/-- What a limit bounds while a recognizer or a guide runs. -/
inductive RuntimeResource
  | inputBytes | parseStack | chartColumns | itemsPerColumn | totalItems | activeScans | leoItems
  | checkpointHistory | maskTraversal | committedTokens
  deriving DecidableEq, Repr

/-- What a recognizer or a guide may fail with. -/
inductive RuntimeError
  | rejectedByte (position : ℕ) (byte : UInt8)
  | resourceLimitExceeded (resource : RuntimeResource) (observed limit : ℕ)
  | invalidCheckpoint (expectedGeneration foundGeneration : ℕ)
  | guideFinished
  | eosNotAccepting
  | unknownTokenId (tokenId : ℕ)
  | tokenNotAllowed (tokenId : ℕ)
  | rollbackUnavailable (requested available : ℕ)
  | allocationFailed (resource : RuntimeResource)
  | stateIdUnavailable
  | internalInvariant (message : String)
  | panicked
  | diverged
  deriving DecidableEq, Repr

/-- The error is `ResourceLimitExceeded`. -/
def RuntimeError.IsLimit : RuntimeError → Prop
  | .resourceLimitExceeded .. => True
  | _ => False

instance : DecidablePred RuntimeError.IsLimit := fun e => by
  cases e <;> unfold RuntimeError.IsLimit <;> infer_instance

@[simp] theorem RuntimeError.isLimit_resourceLimitExceeded (r : RuntimeResource) (o l : ℕ) :
    (RuntimeError.resourceLimitExceeded r o l).IsLimit := trivial

/-- What a compilation may fail with. -/
inductive CompileError
  | invalidJson (message : String)
  | duplicateSchemaKey (location : DiagnosticLocation) (key : String)
  | unsupportedDialect (found : String)
  | invalidKeywordValue (location : DiagnosticLocation) (keyword reason : String)
  | unsupportedKeyword (location : DiagnosticLocation) (keyword : String)
  | unsupportedCombination (location : DiagnosticLocation) (reason : String)
  | remoteReferenceUnsupported (location : DiagnosticLocation) (reference : String)
  | referenceNotFound (location : DiagnosticLocation) (reference : String)
  | invalidJsonPointer (location : DiagnosticLocation) (pointer reason : String)
  | resourceLimitExceeded (stage : CompileStage) (observed limit : ℕ)
  | structuralBackendRequired (location : DiagnosticLocation)
  | backendUnavailable (backend : String) (location : DiagnosticLocation) (reason : String)
  | incompatibleCompiledFormat (found expected : ℕ)
  | automatonBuild (pointer : SchemaPointer) (message : String)
  | internalInvariant (message : String)
  | panicked
  | diverged
  deriving DecidableEq, Repr

/-- The error is `ResourceLimitExceeded`. -/
def CompileError.IsLimit : CompileError → Prop
  | .resourceLimitExceeded .. => True
  | _ => False

@[simp] theorem CompileError.isLimit_resourceLimitExceeded (s : CompileStage) (o l : ℕ) :
    (CompileError.resourceLimitExceeded s o l).IsLimit := trivial

/-- The errors of vocabularies and indexes. -/
inductive Error
  | compile (error : CompileError)
  | dfaHasNoStartState
  | eosTokenDisallowed
  | ambiguousTokenId (tokenId : ℕ)
  | emptyTokenDisallowed
  | incompatibleVocabulary (regex : String) (errorState : ℕ) (missingTokens : List String)
  deriving DecidableEq, Repr

/-- The error is `ResourceLimitExceeded`. -/
def Error.IsLimit : Error → Prop
  | .compile e => e.IsLimit
  | _ => False

@[simp] theorem Error.isLimit_compile (e : CompileError) : (Error.compile e).IsLimit ↔ e.IsLimit :=
  Iff.rfl

/-- The limits of a compilation. -/
structure CompileLimits where
  maxSchemaBytes : ℕ
  maxSchemaNodes : ℕ
  maxRefEdges : ℕ
  maxSymbols : ℕ
  maxProductions : ℕ
  maxRhsSymbols : ℕ
  maxNfaStates : ℕ
  maxNfaTransitions : ℕ
  maxDfaStates : ℕ
  maxDfaBytes : ℕ
  maxTerminalDfaStates : ℕ
  maxTerminalDfaBytes : ℕ
  maxLrStates : ℕ
  maxLrItems : ℕ
  maxActionEntries : ℕ
  maxGotoEntries : ℕ
  maxReportedConflicts : ℕ
  maxVocabularySlots : ℕ
  maxTotalTokenBytes : ℕ
  maxTokenBytes : ℕ
  maxTrieNodes : ℕ
  maxTrieEdges : ℕ
  maxTrieTerminalIds : ℕ
  deriving DecidableEq, Repr

/-- `CompileLimits::default`. -/
def CompileLimits.default : CompileLimits where
  maxSchemaBytes := 8 * 1024 * 1024
  maxSchemaNodes := 100000
  maxRefEdges := 200000
  maxSymbols := 500000
  maxProductions := 1000000
  maxRhsSymbols := 4000000
  maxNfaStates := 1000000
  maxNfaTransitions := 4000000
  maxDfaStates := 200000
  maxDfaBytes := 512 * 1024 * 1024
  maxTerminalDfaStates := 200000
  maxTerminalDfaBytes := 256 * 1024 * 1024
  maxLrStates := 100000
  maxLrItems := 2000000
  maxActionEntries := 2000000
  maxGotoEntries := 1000000
  maxReportedConflicts := 1000
  maxVocabularySlots := 2000000
  maxTotalTokenBytes := 512 * 1024 * 1024
  maxTokenBytes := 1024 * 1024
  maxTrieNodes := 64000000
  maxTrieEdges := 64000000
  maxTrieTerminalIds := 4000000

/-- The limits of a recognizer or a guide. -/
structure RuntimeLimits where
  maxInputBytes : ℕ
  maxParseStack : ℕ
  maxChartColumns : ℕ
  maxItemsPerColumn : ℕ
  maxTotalItems : ℕ
  maxActiveScans : ℕ
  maxLeoItems : ℕ
  maxCheckpointHistory : ℕ
  maxMaskTrieEdges : ℕ
  maxCommittedTokens : ℕ
  deriving DecidableEq, Repr

/-- `RuntimeLimits::default`. -/
def RuntimeLimits.default : RuntimeLimits where
  maxInputBytes := 16 * 1024 * 1024
  maxParseStack := 1000000
  maxChartColumns := 16 * 1024 * 1024
  maxItemsPerColumn := 1000000
  maxTotalItems := 16000000
  maxActiveScans := 1000000
  maxLeoItems := 1000000
  maxCheckpointHistory := 100000
  maxMaskTrieEdges := 64000000
  maxCommittedTokens := 16 * 1024 * 1024

/-- No limit is higher than in `other`. -/
structure RuntimeLimits.Within (limits other : RuntimeLimits) : Prop where
  maxInputBytes : limits.maxInputBytes ≤ other.maxInputBytes
  maxParseStack : limits.maxParseStack ≤ other.maxParseStack
  maxChartColumns : limits.maxChartColumns ≤ other.maxChartColumns
  maxItemsPerColumn : limits.maxItemsPerColumn ≤ other.maxItemsPerColumn
  maxTotalItems : limits.maxTotalItems ≤ other.maxTotalItems
  maxActiveScans : limits.maxActiveScans ≤ other.maxActiveScans
  maxLeoItems : limits.maxLeoItems ≤ other.maxLeoItems
  maxCheckpointHistory : limits.maxCheckpointHistory ≤ other.maxCheckpointHistory
  maxMaskTrieEdges : limits.maxMaskTrieEdges ≤ other.maxMaskTrieEdges
  maxCommittedTokens : limits.maxCommittedTokens ≤ other.maxCommittedTokens

/-- A count of a compilation is checked against its limit. -/
def enforceCompileLimit (stage : CompileStage) (observed limit : ℕ) : Except CompileError Unit :=
  Result.require (observed ≤ limit) (.resourceLimitExceeded stage observed limit)

/-- `u32::try_from` of a count, an id that does not fit being a limit of the stage. -/
def toU32 (value : ℕ) (stage : CompileStage) : Except CompileError ℕ := do
  Result.require (value ≤ u32Max) (.resourceLimitExceeded stage value u32Max)
  pure value

/-- `v[i]`; an index out of bounds panics. -/
def vecGet {α : Type} (v : List α) (i : ℕ) : Except CompileError α := Result.unwrap v[i]? .panicked

/-- `v[i] = a`; an index out of bounds panics. -/
def vecSet {α : Type} (v : List α) (i : ℕ) (a : α) : Except CompileError (List α) := do
  Result.require (i < v.length) .panicked
  pure (v.set i a)

theorem toU32_of_le {value : ℕ} {stage : CompileStage} (h : value ≤ u32Max) :
    toU32 value stage = pure value := by
  simp [toU32, Result.require, h]

theorem vecGet_of {α : Type} {v : List α} {i : ℕ} {a : α} (h : v[i]? = some a) :
    vecGet v i = pure a := by
  rw [vecGet, h]
  rfl

theorem vecSet_of {α : Type} {v : List α} {i : ℕ} {a : α} (h : i < v.length) :
    vecSet v i a = pure (v.set i a) := by
  simp [vecSet, Result.require, h]

theorem wp_vecGet {α : Type} {v : List α} {i : ℕ} {a : α} (h : v[i]? = some a)
    {E : CompileError → Prop} {Q : α → Prop} : Result.wp E (vecGet v i) Q ↔ Q a := by
  rw [vecGet_of h]
  exact Iff.rfl

theorem wp_vecSet {α : Type} {v : List α} {i : ℕ} {a : α} (h : i < v.length)
    {E : CompileError → Prop} {Q : List α → Prop} :
    Result.wp E (vecSet v i a) Q ↔ Q (v.set i a) := by
  rw [vecSet_of h]
  exact Iff.rfl

theorem wp_toU32 {value : ℕ} {stage : CompileStage} (h : value ≤ u32Max)
    {E : CompileError → Prop} {Q : ℕ → Prop} : Result.wp E (toU32 value stage) Q ↔ Q value := by
  rw [toU32_of_le h]
  exact Iff.rfl

/-- A count of a running recognizer or guide is checked against its limit. -/
def enforceRuntimeLimit {σ : Type} (resource : RuntimeResource) (observed limit : ℕ) :
    Method RuntimeError σ Unit :=
  Method.require (observed ≤ limit) (.resourceLimitExceeded resource observed limit)

/-- A limit that is raised. -/
theorem follows_enforceRuntimeLimit {σ τ : Type} {R : σ → τ → Prop} {limit limit' : ℕ}
    (resource : RuntimeResource) (observed : ℕ) (h : limit ≤ limit') :
    Method.Follows RuntimeError.IsLimit R (enforceRuntimeLimit resource observed limit)
      (enforceRuntimeLimit resource observed limit') :=
  Method.follows_check (fun hle => Nat.le_trans hle h) trivial

end OcEarley

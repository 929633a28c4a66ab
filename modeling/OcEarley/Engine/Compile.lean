import OcEarley.Engine.Guide
import OcEarley.Lalr.Build

/-!
# Compiling a schema

The last part of a compilation: a backend is chosen for the grammar, by the policy and by what the
earlier stages have found out, and the vocabulary is compiled for it.  A whole automaton gets an
index, a parser a derived vocabulary.
-/

namespace OcEarley

/-- Which backend a compilation is to choose. -/
inductive BackendPolicy
  | auto | forceDfa | forceLalr | forceEarley
  deriving DecidableEq, Repr

/-- The backend that has been chosen, before the vocabulary comes in. -/
inductive PreparedBackend
  | dfa (dfa : CompiledByteDfa)
  | lalr (lalr : CompiledLalr)
  | earley (earley : CompiledEarley)

/-- What `prepare` has found out about a schema before it chooses a backend: where the root is, the
automaton of a grammar that is regular as a whole, and the result of `build_residual`. -/
structure PreparedGrammar where
  location : DiagnosticLocation
  dfa : Option CompiledByteDfa
  residual : Except CompileError ResidualGrammar

namespace PreparedGrammar

/-- The Earley backend of a residual grammar. -/
def earleyBackend (residual : ResidualGrammar) (limits : CompileLimits) :
    Except CompileError PreparedBackend := do
  let earley ← CompiledEarley.build residual limits
  pure (.earley earley)

/-- The branch of `prepare` for the grammars that do not become one automaton.  A parser that is
not usable is an error only if it has been asked for. -/
def structuralBackend (self : PreparedGrammar) (limits : CompileLimits) (policy : BackendPolicy) :
    Except CompileError PreparedBackend := do
  let residual ← self.residual
  if policy = .forceEarley then earleyBackend residual limits
  else match policy, CompiledLalr.build residual limits with
    | .forceLalr, .ok lalr => do
      Result.require (lalr.isUsable = true) (.backendUnavailable "lalr" self.location
        (toString lalr.conflicts.length ++ " parser conflicts; lexical safety=" ++
          toString lalr.lexicalSafe))
      pure (.lalr lalr)
    | .forceLalr, .error error => throw error
    | _, .ok lalr => if lalr.isUsable then pure (.lalr lalr) else earleyBackend residual limits
    | _, .error _ => earleyBackend residual limits

/-- The choice of a backend in `prepare`. -/
def backend (self : PreparedGrammar) (limits : CompileLimits) (policy : BackendPolicy) :
    Except CompileError PreparedBackend :=
  match policy, self.dfa with
  | .forceDfa, none => throw (.backendUnavailable "whole_dfa" self.location
      "the whole grammar has no exact regular certificate")
  | .auto, some dfa => pure (.dfa dfa)
  | .forceDfa, some dfa => pure (.dfa dfa)
  | policy, _ => self.structuralBackend limits policy

end PreparedGrammar

namespace CompiledSchema

/-- A parser and the derived vocabulary that is built for it. -/
def withVocabulary (backend : CompiledBackend) (vocabulary : Vocabulary) (limits : CompileLimits) :
    Except Error CompiledSchema :=
  match h : DerivedVocabulary.build vocabulary limits with
  | .ok derived => pure {
      backend := backend
      byteDfa := none
      vocabulary := some derived
      vocabulary_built := fun _ hsome => ⟨vocabulary, limits, Option.some.inj hsome ▸ h⟩ }
  | .error error => throw error

/-- The part of `compile_profiled_with_policy` behind `prepare`. -/
def ofPrepared (prepared : PreparedBackend) (vocabulary : Vocabulary) (limits : CompileLimits) :
    Except Error CompiledSchema :=
  match prepared with
  | .dfa dfa => do
    let index ← Index.fromCertifiedDfa dfa vocabulary
    pure {
      backend := .dfa index
      byteDfa := some dfa
      vocabulary := none
      vocabulary_built := fun _ hsome => nomatch hsome }
  | .lalr lalr => withVocabulary (.lalr lalr) vocabulary limits
  | .earley earley => withVocabulary (.earley earley) vocabulary limits

/-- `compile_with_policy`, for the grammar of a schema. -/
def compileWithPolicy (prepared : PreparedGrammar) (vocabulary : Vocabulary)
    (limits : CompileLimits) (policy : BackendPolicy) : Except Error CompiledSchema := do
  let backend ← (prepared.backend limits policy).mapError .compile
  ofPrepared backend vocabulary limits

variable {vocabulary : Vocabulary} {limits : CompileLimits} {compiled : CompiledSchema}

theorem withVocabulary_eq_ok {backend : CompiledBackend}
    (h : withVocabulary backend vocabulary limits = .ok compiled) :
    ∃ derived, DerivedVocabulary.build vocabulary limits = .ok derived ∧
      compiled.backend = backend ∧ compiled.vocabulary = some derived := by
  unfold withVocabulary at h
  split at h
  · next derived hbuild =>
    obtain rfl := Result.pure_eq_ok.1 h
    exact ⟨derived, hbuild, rfl, rfl⟩
  · cases h

/-- What a compilation makes of a backend and a vocabulary. -/
inductive Made (prepared : PreparedBackend) (vocabulary : Vocabulary) (limits : CompileLimits)
    (compiled : CompiledSchema) : Prop
  | dfa {dfa : CompiledByteDfa} {index : Index} (hprepared : prepared = .dfa dfa)
    (hindex : Index.fromCertifiedDfa dfa vocabulary = .ok index)
    (hbackend : compiled.backend = .dfa index) : Made prepared vocabulary limits compiled
  | structural {derived : DerivedVocabulary} (hprepared : ∀ dfa, prepared ≠ .dfa dfa)
    (hbackend : ∀ index, compiled.backend ≠ .dfa index)
    (hbuild : DerivedVocabulary.build vocabulary limits = .ok derived)
    (hvocabulary : compiled.vocabulary = some derived) : Made prepared vocabulary limits compiled

theorem ofPrepared_eq_ok {prepared : PreparedBackend}
    (h : ofPrepared prepared vocabulary limits = .ok compiled) :
    Made prepared vocabulary limits compiled := by
  cases prepared with
  | dfa dfa =>
    obtain ⟨index, hindex, h⟩ := Result.bind_eq_ok.1 h
    obtain rfl := Result.pure_eq_ok.1 h
    exact .dfa rfl hindex rfl
  | lalr lalr =>
    obtain ⟨derived, hbuild, hbackend, hvocabulary⟩ := withVocabulary_eq_ok h
    exact .structural (fun _ h => nomatch h) (fun _ h => nomatch hbackend.symm.trans h) hbuild
      hvocabulary
  | earley earley =>
    obtain ⟨derived, hbuild, hbackend, hvocabulary⟩ := withVocabulary_eq_ok h
    exact .structural (fun _ h => nomatch h) (fun _ h => nomatch hbackend.symm.trans h) hbuild
      hvocabulary

end CompiledSchema

end OcEarley

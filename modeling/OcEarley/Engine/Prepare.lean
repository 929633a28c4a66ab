import OcEarley.Engine.Compile
import OcEarley.Engine.Decides
import OcEarley.Grammar.Texts

/-!
# Preparing a schema

The first part of a compilation: a document is normalized, lowered, reduced and certified.  A
grammar that is regular as a whole becomes an automaton; the residual grammar is there for the other
backends.  All that is prepared stands for the language of the document (`prepare_standsFor`).
-/

namespace OcEarley

section Prepare

variable {ν σ : Type} [DecidableEq σ] (library : RegexLibrary ν σ) (escape : String → String)

/-- The part of `prepare` before the choice of a backend, for a document that has been parsed. -/
def prepare (root : JsonValue) (limits : CompileLimits) : Except CompileError PreparedGrammar := do
  let arena := (← normalizeSchema root limits).1
  let lowered ← lower arena limits
  let grammar := (← lowered.reduce).2
  let analysis ← certifyRegular escape grammar
  let start ← Result.unwrap grammar.nonterminals[grammar.start]?
    (.internalInvariant "reduced grammar start does not exist")
  let dfa ← analysis.wholeLanguage.mapM fun expression =>
    CompiledByteDfa.compile library expression limits start.provenance.pointer
  pure {
    location := start.provenance.location
    dfa := dfa
    residual := buildResidual library limits grammar analysis }

/-- `compile_with_policy`, for a document that has been parsed. -/
def compileDocument (root : JsonValue) (vocabulary : Vocabulary) (limits : CompileLimits)
    (policy : BackendPolicy) : Except Error CompiledSchema := do
  let prepared ← (prepare library escape root limits).mapError .compile
  CompiledSchema.compileWithPolicy prepared vocabulary limits policy

end Prepare

/-! ### What is prepared -/

section Residual

variable {g : Grammar} {R : String → Language UInt8} {residual : ResidualGrammar}

theorem ResidualGrammar.Exact.productive (h : residual.Exact g R) (hg : g.Inhabited R) :
    residual.Productive := by
  intro A hA
  have hn := List.getElem?_eq_getElem hA
  obtain ⟨x, hx⟩ := hg (.nonterminal _) (h.original_lt hn)
  have hx' : x ∈ residual.languageOf A := by
    rw [h.language hn]
    exact hx
  obtain ⟨w, hw, -⟩ := yields_iff_sentence.1 hx'
  exact ⟨w, hw⟩

theorem ResidualGrammar.Exact.terminalsExact (h : residual.Exact g R) (hg : g.Inhabited R) :
    residual.TerminalsExact where
  nonempty t ht := by
    obtain ⟨s, hs, hrealizes⟩ := h.terminals t ht
    rw [hrealizes.language]
    exact hg s hs
  nil_notMem t ht := by
    obtain ⟨s, -, hrealizes⟩ := h.terminals t ht
    rw [hrealizes.language]
    exact hrealizes.nil_notMem
  live t ht := by
    obtain ⟨s, -, hrealizes⟩ := h.terminals t ht
    exact hrealizes.live

/-- **A residual grammar is fit for the recognizers** when every symbol of the
grammar has a word. -/
theorem ResidualGrammar.Exact.recognizable (h : residual.Exact g R) (hg : g.Inhabited R) :
    residual.Recognizable where
  wellFormed := h.wellFormed
  index := h.index
  nullable := h.nullable
  productive := h.productive hg
  terminals := h.terminalsExact hg
  terminals_length := h.terminals_length

theorem ResidualGrammar.Exact.language_start (h : residual.Exact g R) :
    residual.language = g.language R g.start := by
  obtain ⟨n, hn, hstart⟩ := h.start
  rw [← hstart, ← h.language hn]
  exact Set.ext fun x => ResidualGrammar.mem_language_iff

end Residual

/-- What has been prepared is right for the language. -/
structure PreparedGrammar.StandsFor (prepared : PreparedGrammar) (K : Language UInt8) : Prop where
  dfa : ∀ dfa, prepared.dfa = some dfa → dfa.Accepts K
  residual : ∀ residual, prepared.residual = .ok residual →
    residual.Recognizable ∧ residual.language = K

section Document

variable {ν σ : Type} [DecidableEq σ] {library : RegexLibrary ν σ} {S : RegexSyntax UInt8}
  {escape : String → String} {R : String → Language UInt8} {root : JsonValue}
  {limits : CompileLimits} {arena : SchemaArena} {edges : List ReferenceEdge}

/-- What a reduced grammar is made into stands for its language. -/
theorem standsFor_of_certified {g : Grammar} {analysis : RegularAnalysis}
    {prepared : PreparedGrammar}
    {pointer : SchemaPointer} (hlibrary : library.Exact S) (hread : PatternsRead S escape R)
    (hg : g.WellFormed) (hjson : ∀ t ∈ g.terminals, t.kind.IsJson) (hinhabited : g.Inhabited R)
    (hanalysis : certifyRegular escape g = .ok analysis)
    (hdfa : (analysis.wholeLanguage.mapM fun expression =>
      CompiledByteDfa.compile library expression limits pointer) = .ok prepared.dfa)
    (hresidual : prepared.residual = buildResidual library limits g analysis) :
    prepared.StandsFor (g.language R g.start) := by
  have hescapes := hread.escapes hjson
  have hreadable := hread.readable hjson
  obtain ⟨result, hresult, hexact⟩ := exists_certifyRegular hg hescapes
  obtain rfl : result = analysis := Except.ok.inj (hresult.symm.trans hanalysis)
  refine ⟨fun dfa hsome => ?_, fun residual hok => ?_⟩
  · rw [hsome] at hdfa
    cases hwhole : result.wholeLanguage with
    | none =>
      rw [hwhole] at hdfa
      cases hdfa
    | some expression =>
      rw [hwhole] at hdfa
      obtain ⟨found, hfound, h⟩ := Result.bind_eq_ok.1 hdfa
      obtain rfl := Option.some.inj (Result.pure_eq_ok.1 h)
      obtain ⟨hbuilt, hlanguage⟩ := hexact.solved.sound (hwhole ▸ hexact.whole)
      have hdenotes : RegularExpression.Built
          (fun forward _ => RegexDenotes S forward.toList (R forward)) expression := by
        refine RegularExpression.Built.mono hbuilt ?_
        rintro forward reverse ⟨t, ht, rfl, -⟩
        exact hreadable.denotes t ht
      have haccepts := Result.wp_ok (CompiledByteDfa.compileMeasured_wp hlibrary hdenotes) hfound
      rw [← hlanguage]
      exact haccepts
  · have hgrammar := Result.wp_ok (buildResidual_wp hlibrary hreadable hg hexact)
      (hresidual.symm.trans hok)
    exact ⟨hgrammar.recognizable hinhabited, hgrammar.language_start⟩

/-- **What is prepared stands for the language of the document**, which is read from its arena. -/
theorem prepare_standsFor {prepared : PreparedGrammar} (hlibrary : library.Exact S)
    (hread : PatternsRead S escape R) (hkeys : root.DistinctKeys)
    (hnormalized : normalizeSchema root limits = .ok (arena, edges))
    (hsatisfiable : ∃ x, x ∈ arena.meaning R arena.root)
    (h : prepare library escape root limits = .ok prepared) :
    prepared.StandsFor (arena.meaning R arena.root) := by
  obtain ⟨normalized, hok, h⟩ := Result.bind_eq_ok.1 h
  obtain rfl : normalized = (arena, edges) := Except.ok.inj (hok.symm.trans hnormalized)
  obtain ⟨lowered, hlowered, h⟩ := Result.bind_eq_ok.1 h
  obtain ⟨reduced, hreduce, h⟩ := Result.bind_eq_ok.1 h
  obtain ⟨analysis, hanalysis, h⟩ := Result.bind_eq_ok.1 h
  obtain ⟨start, -, h⟩ := Result.bind_eq_ok.1 h
  obtain ⟨dfa, hdfa, h⟩ := Result.bind_eq_ok.1 h
  obtain rfl := Result.pure_eq_ok.1 h
  obtain ⟨hordered, htidy⟩ := normalizeSchema_tidy hkeys hnormalized
  have hg := lower_wellFormed hordered hlowered
  have hlanguage : lowered.language R lowered.start = arena.meaning R arena.root := by
    obtain ⟨b, owner, -, -, hroot, -, rfl⟩ := exists_owned hordered hlowered R
    exact lower_language hordered hlowered R hroot
  obtain ⟨x, hx⟩ := hsatisfiable
  have hstart : IsProductive lowered.Rule lowered.start :=
    Grammar.isProductive_of_mem_language (hlanguage ▸ hx)
  obtain ⟨ν, τ, π, hreduced, -⟩ := Result.wp_ok (Grammar.reduce_wp hg hstart) hreduce
  have hjson := hreduced.toImage.isJson (isJson_of_lower htidy hlowered)
  rw [← hlanguage, ← hreduced.language_start]
  exact standsFor_of_certified hlibrary hread (hreduced.toImage.wellFormed hg) hjson
    (hreduced.inhabited hg fun t ht => hread.exists_mem (hjson t ht)) hanalysis hdfa rfl

end Document

end OcEarley

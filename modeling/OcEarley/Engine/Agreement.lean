import OcEarley.Engine.Committed
import OcEarley.Engine.Prepare
import OcEarley.Grammar.JsonTexts

/-!
# The backends agree

Whatever backend a policy chooses for a document, its recognizer decides the language of the
document (`CompiledSchema.Made.decides`).  So a client that feeds chunks of bytes gets the answers
of the language, and cannot tell the backends apart.
-/

namespace OcEarley

/-- The backends that may be chosen for what has been prepared. -/
inductive PreparedGrammar.Offers (self : PreparedGrammar) (limits : CompileLimits) :
    PreparedBackend → Prop
  | dfa {dfa : CompiledByteDfa} (h : self.dfa = some dfa) : Offers self limits (.dfa dfa)
  | lalr {residual : ResidualGrammar} {lalr : CompiledLalr}
    (hresidual : self.residual = .ok residual)
    (hbuild : CompiledLalr.build residual limits = .ok lalr) (husable : lalr.isUsable = true) :
    Offers self limits (.lalr lalr)
  | earley {residual : ResidualGrammar} {earley : CompiledEarley}
    (hresidual : self.residual = .ok residual)
    (hbuild : CompiledEarley.build residual limits = .ok earley) :
    Offers self limits (.earley earley)

namespace PreparedGrammar

variable {self : PreparedGrammar} {limits : CompileLimits} {policy : BackendPolicy}
  {backend : PreparedBackend}

theorem offers_of_earleyBackend {residual : ResidualGrammar}
    (hresidual : self.residual = .ok residual)
    (h : earleyBackend residual limits = .ok backend) : self.Offers limits backend := by
  obtain ⟨earley, hbuild, h⟩ := Result.bind_eq_ok.1 h
  obtain rfl := Result.pure_eq_ok.1 h
  exact .earley hresidual hbuild

theorem offers_of_structuralBackend (h : self.structuralBackend limits policy = .ok backend) :
    self.Offers limits backend := by
  obtain ⟨residual, hresidual, h⟩ := Result.bind_eq_ok.1 h
  split at h
  · exact offers_of_earleyBackend hresidual h
  · split at h
    · next lalr hbuild _ _ =>
      obtain ⟨_, husable, h⟩ := Result.bind_eq_ok.1 h
      obtain rfl := Result.pure_eq_ok.1 h
      exact .lalr hresidual hbuild (Result.require_eq_ok.1 husable)
    · cases h
    · next lalr hbuild _ _ =>
      split at h
      · next husable =>
        obtain rfl := Result.pure_eq_ok.1 h
        exact .lalr hresidual hbuild husable
      · exact offers_of_earleyBackend hresidual h
    · exact offers_of_earleyBackend hresidual h

/-- Every policy chooses one of these. -/
theorem offers_of_backend (h : self.backend limits policy = .ok backend) :
    self.Offers limits backend := by
  unfold PreparedGrammar.backend at h
  split at h
  · cases h
  · next dfa hdfa =>
    obtain rfl := Result.pure_eq_ok.1 h
    exact .dfa hdfa
  · next dfa hdfa =>
    obtain rfl := Result.pure_eq_ok.1 h
    exact .dfa hdfa
  · exact offers_of_structuralBackend h

end PreparedGrammar

open RecognizerState

section Decides

variable {prepared : PreparedGrammar} {backend : PreparedBackend} {K : Language UInt8}
  {vocabulary : Vocabulary} {limits : CompileLimits} {compiled : CompiledSchema}
  {runtimeLimits : RuntimeLimits} {generation : ℕ} {r : RecognizerState}

/-- **A backend decides the language** that has been prepared for. -/
theorem PreparedGrammar.StandsFor.decides (h : prepared.StandsFor K)
    (hoffers : prepared.Offers limits backend)
    (hmade : CompiledSchema.ofPrepared backend vocabulary limits = .ok compiled)
    (hr : compiled.recognizer runtimeLimits generation = .ok r) : r.Decides K := by
  unfold CompiledSchema.recognizer at hr
  cases hoffers with
  | @dfa dfa hdfa =>
    obtain ⟨index, -, hmade⟩ := Result.bind_eq_ok.1 hmade
    obtain rfl := Result.pure_eq_ok.1 hmade
    obtain rfl := Result.pure_eq_ok.1 hr
    have haccepts := h.dfa dfa hdfa
    exact decides_dfa haccepts.stateCount_pos haccepts.live haccepts.accepts_iff
  | lalr hresidual hbuild husable =>
    obtain ⟨derived, -, hbackend, -⟩ := CompiledSchema.withVocabulary_eq_ok hmade
    rw [hbackend] at hr
    obtain rfl := Result.pure_eq_ok.1 hr
    obtain ⟨hgrammar, rfl⟩ := h.residual _ hresidual
    exact decides_lalr hgrammar hbuild husable
  | earley hresidual hbuild =>
    obtain ⟨derived, -, hbackend, -⟩ := CompiledSchema.withVocabulary_eq_ok hmade
    rw [hbackend] at hr
    obtain ⟨recognizer, hfresh, hr⟩ := Result.bind_eq_ok.1 hr
    obtain rfl := Result.pure_eq_ok.1 hr
    obtain ⟨hgrammar, rfl⟩ := h.residual _ hresidual
    exact decides_earley hgrammar hbuild hfresh

end Decides

section Document

variable {ν σ : Type} [DecidableEq σ] {library : RegexLibrary ν σ} {S : RegexSyntax UInt8}
  {escape : String → String} {R : String → Language UInt8} {root : JsonValue}
  {limits : CompileLimits}
  {arena : SchemaArena} {edges : List ReferenceEdge} {vocabulary : Vocabulary}
  {policy : BackendPolicy}
  {compiled : CompiledSchema} {runtimeLimits : RuntimeLimits} {generation : ℕ} {r : RecognizerState}
  {chunks : List (List UInt8)}

/-- What has been prepared for a document, and the backend chosen for it. -/
theorem standsFor_of_compileDocument (hlibrary : library.Exact S) (hread : PatternsRead S escape R)
    (hkeys : root.DistinctKeys) (hnormalized : normalizeSchema root limits = .ok (arena, edges))
    (hsatisfiable : ∃ x, x ∈ arena.meaning R arena.root)
    (hcompiled : compileDocument library escape root vocabulary limits policy = .ok compiled) :
    ∃ prepared backend, PreparedGrammar.StandsFor prepared (arena.meaning R arena.root) ∧
      prepared.Offers limits backend ∧
      CompiledSchema.ofPrepared backend vocabulary limits = .ok compiled := by
  obtain ⟨prepared, hprepared, hcompiled⟩ := Result.bind_eq_ok.1 hcompiled
  obtain ⟨backend, hbackend, hcompiled⟩ := Result.bind_eq_ok.1 hcompiled
  have hstands := prepare_standsFor hlibrary hread hkeys hnormalized hsatisfiable
    (Result.mapError_eq_ok.1 hprepared)
  exact ⟨prepared, backend, hstands,
    PreparedGrammar.offers_of_backend (Result.mapError_eq_ok.1 hbackend), hcompiled⟩

theorem decides_of_compileDocument (hlibrary : library.Exact S) (hread : PatternsRead S escape R)
    (hkeys : root.DistinctKeys) (hnormalized : normalizeSchema root limits = .ok (arena, edges))
    (hsatisfiable : ∃ x, x ∈ arena.meaning R arena.root)
    (hcompiled : compileDocument library escape root vocabulary limits policy = .ok compiled)
    (hr : compiled.recognizer runtimeLimits generation = .ok r) :
    r.Decides (arena.meaning R arena.root) := by
  obtain ⟨prepared, backend, hstands, hoffers, hmade⟩ := standsFor_of_compileDocument hlibrary hread
    hkeys hnormalized hsatisfiable hcompiled
  exact hstands.decides hoffers hmade hr

/-- What a client is told, from the first chunk on. -/
theorem wp_feed_of_compileDocument (hlibrary : library.Exact S) (hread : PatternsRead S escape R)
    (hkeys : root.DistinctKeys) (hnormalized : normalizeSchema root limits = .ok (arena, edges))
    (hsatisfiable : ∃ x, x ∈ arena.meaning R arena.root)
    (hcompiled : compileDocument library escape root vocabulary limits policy = .ok compiled)
    (hr : compiled.recognizer runtimeLimits generation = .ok r)
    (hlength : chunks.flatten.length ≤ u32Max) (hfits : r.FitsThroughout chunks) :
    Method.wp RuntimeError.IsLimit (feed chunks) (fun answers s =>
      ∃ y, Session.Answers (arena.meaning R arena.root) [] chunks answers y ∧
        (s.isAccepting = true ↔ y ∈ arena.meaning R arena.root) ∧
        (s.isLive = true ↔ Viable (arena.meaning R arena.root) y)) r :=
  (decides_of_compileDocument hlibrary hread hkeys hnormalized hsatisfiable hcompiled hr).wp_feed
    (CompiledSchema.fresh_of_recognizer hr).hasColumn chunks rfl hsatisfiable
    (by simpa using hlength)
    hfits

end Document

/-! ### The document `{"const": 1}` -/

/-- The document `{"const": 1}`. -/
def oneDocument : JsonValue := .object [("const", .number oneLiteral)]

theorem oneDocument_distinctKeys : oneDocument.DistinctKeys :=
  .object (by simp) fun m hm => by
    obtain rfl := List.mem_singleton.1 hm
    exact .number _

/-- A regex library that knows the one text `1`. -/
def oneLibrary : RegexLibrary Unit ℕ := oneByteLibrary "1" 49

theorem patternLanguage_one : patternLanguage "1" = {[49]} := patternLanguage_escape "1"

theorem oneLibrary_exact : oneLibrary.Exact patternSyntax :=
  oneByteLibrary_exact (patternLanguage_one ▸ Pattern.regexDenotes_escape "1")

/-- The arena has one node, which spells out the value. -/
theorem exists_oneArena : ∃ arena edges, normalizeSchema oneDocument .default = .ok (arena, edges) ∧
    arena.meaning patternLanguage arena.root = {utf8Bytes "1"} := by
  have hok : (normalizeSchema oneDocument .default).toOption.map (fun normalized =>
      normalized.1.nodes[normalized.1.root]?.map SchemaNode.kind) =
        some (some (.const ⟨"1"⟩)) := by decide +kernel
  obtain ⟨normalized, hnormalized, hkind⟩ := Option.map_eq_some_iff.1 hok
  obtain ⟨node, hnode, hkind⟩ := Option.map_eq_some_iff.1 hkind
  refine ⟨normalized.1, normalized.2, Result.toOption_eq_some.1 hnormalized, ?_⟩
  rw [SchemaArena.meaning_eq hnode, hkind]
  rfl

/-- What a client is told of the chunks `2` and `1`, by a recognizer without tables. -/
def oneAnswers (policy : BackendPolicy) : Option (List Advance) := do
  let compiled ←
    (compileDocument oneLibrary Pattern.escape oneDocument oneVocabulary .default policy).toOption
  let r ← (compiled.recognizer .default 0).toOption
  guard (r.usesTables = false)
  (Method.valueOf (feed [[50], [49]] r)).toOption

theorem exists_oneRun (policy : BackendPolicy) (answers : List Advance)
    (h : oneAnswers policy = some answers) : ∃ compiled r s,
      compileDocument oneLibrary Pattern.escape oneDocument oneVocabulary .default policy =
        .ok compiled ∧
      compiled.recognizer .default 0 = .ok r ∧ r.FitsThroughout [[50], [49]] ∧
      feed [[50], [49]] r = .ok answers s := by
  unfold oneAnswers at h
  simp only [Option.bind_eq_bind, Option.bind_eq_some_iff, Option.guard_eq_some',
    Result.toOption_eq_some, Method.valueOf_eq_ok] at h
  obtain ⟨compiled, hcompiled, r, hr, _, htables, hfeed⟩ := h
  have hcol := (CompiledSchema.fresh_of_recognizer hr).hasColumn
  exact ⟨compiled, r, _, hcompiled, hr,
    fitsThroughout_of_usesTables hcol htables _ (.refl r), hfeed⟩

/-! ### What a client is told -/

section Answers

variable {ν σ : Type} [DecidableEq σ] {library : RegexLibrary ν σ} {S : RegexSyntax UInt8}
  {escape : String → String} {R : String → Language UInt8} {root : JsonValue}
  {limits : CompileLimits}
  {arena : SchemaArena} {edges : List ReferenceEdge} {vocabulary : Vocabulary}
  {policy : BackendPolicy}
  {compiled : CompiledSchema} {runtimeLimits : RuntimeLimits} {generation : ℕ} {r : RecognizerState}
  {chunks : List (List UInt8)}

/-- **A compiled document answers for its language.**  Whatever backend the policy has chosen, a
client that feeds chunks of bytes, none of which makes a probe exceed a limit, is told of every
chunk whether some text of the document goes on with it, and in the end whether a text is complete
and whether one may follow; a call that fails has exceeded a limit. -/
theorem compiled_document_answers (hlibrary : library.Exact S) (hread : PatternsRead S escape R)
    (hkeys : root.DistinctKeys) (hnormalized : normalizeSchema root limits = .ok (arena, edges))
    (hsatisfiable : ∃ x, x ∈ arena.meaning R arena.root)
    (hcompiled : compileDocument library escape root vocabulary limits policy = .ok compiled)
    (hr : compiled.recognizer runtimeLimits generation = .ok r)
    (hlength : chunks.flatten.length ≤ u32Max) (hfits : r.FitsThroughout chunks) :
    (∀ answers s, feed chunks r = .ok answers s →
      ∃ y, Session.Answers (arena.meaning R arena.root) [] chunks answers y ∧
        (s.isAccepting = true ↔ y ∈ arena.meaning R arena.root) ∧
        (s.isLive = true ↔ Viable (arena.meaning R arena.root) y)) ∧
    ∀ e s, feed chunks r = .error e s → e.IsLimit := by
  have hfeed := wp_feed_of_compileDocument hlibrary hread hkeys hnormalized hsatisfiable
    hcompiled hr
    hlength hfits
  exact ⟨fun answers s h => Method.wp_ok hfeed h, fun e s h => Method.wp_error hfeed h⟩

/-- `2` begins no text of the document, and `1` is one. -/
theorem compiled_document_answers_one : ∃ compiled r s,
    compileDocument oneLibrary Pattern.escape oneDocument oneVocabulary .default .auto =
      .ok compiled ∧
    compiled.recognizer .default 0 = .ok r ∧
    feed [[50], [49]] r = .ok [.rejected, .accepting] s ∧
    ∃ arena edges y, normalizeSchema oneDocument .default = .ok (arena, edges) ∧
      Session.Answers (arena.meaning patternLanguage arena.root) [] [[50], [49]]
        [.rejected, .accepting] y ∧
      (s.isAccepting = true ↔ y ∈ arena.meaning patternLanguage arena.root) ∧
      (s.isLive = true ↔ Viable (arena.meaning patternLanguage arena.root) y) := by
  obtain ⟨arena, edges, hnormalized, hmeaning⟩ := exists_oneArena
  obtain ⟨compiled, r, s, hcompiled, hr, hfits, hfeed⟩ :=
    exists_oneRun .auto [.rejected, .accepting] (by decide +kernel)
  obtain ⟨y, hanswers⟩ := (compiled_document_answers oneLibrary_exact patternsRead
    oneDocument_distinctKeys hnormalized ⟨_, hmeaning.ge rfl⟩ hcompiled hr (by decide)
      hfits).1 _ s hfeed
  exact ⟨compiled, r, s, hcompiled, hr, hfeed, arena, edges, y, hnormalized, hanswers⟩

/-- **The backends agree.**  Two policies, vocabularies and runtime limits under which a document
compiles give recognizers that a client cannot tell apart: the same chunks get the same answers, and
what is said in the end is the same. -/
theorem backends_agree {vocabulary' : Vocabulary} {policy' : BackendPolicy}
    {compiled' : CompiledSchema}
    {runtimeLimits' : RuntimeLimits} {generation' : ℕ} {r' s s' : RecognizerState}
    {answers answers' : List Advance} (hlibrary : library.Exact S) (hread : PatternsRead S escape R)
    (hkeys : root.DistinctKeys) (hnormalized : normalizeSchema root limits = .ok (arena, edges))
    (hsatisfiable : ∃ x, x ∈ arena.meaning R arena.root)
    (hcompiled : compileDocument library escape root vocabulary limits policy = .ok compiled)
    (hcompiled' : compileDocument library escape root vocabulary' limits policy' = .ok compiled')
    (hr : compiled.recognizer runtimeLimits generation = .ok r)
    (hr' : compiled'.recognizer runtimeLimits' generation' = .ok r')
    (hlength : chunks.flatten.length ≤ u32Max) (hfits : r.FitsThroughout chunks)
    (hfits' : r'.FitsThroughout chunks) (hfeed : feed chunks r = .ok answers s)
    (hfeed' : feed chunks r' = .ok answers' s') :
    answers = answers' ∧ s.isAccepting = s'.isAccepting ∧ s.isLive = s'.isLive := by
  obtain ⟨y, hanswers, haccepting, hlive⟩ := Method.wp_ok (wp_feed_of_compileDocument hlibrary hread
    hkeys hnormalized hsatisfiable hcompiled hr hlength hfits) hfeed
  obtain ⟨y', hanswers', haccepting', hlive'⟩ := Method.wp_ok (wp_feed_of_compileDocument hlibrary
    hread hkeys hnormalized hsatisfiable hcompiled' hr' hlength hfits') hfeed'
  obtain ⟨hsame, rfl⟩ := hanswers.unique hanswers'
  exact ⟨hsame, Bool.eq_iff_iff.2 (haccepting.trans haccepting'.symm),
    Bool.eq_iff_iff.2 (hlive.trans hlive'.symm)⟩

/-- The automaton and the chart of the document agree. -/
theorem backends_agree_one : ∃ compiled compiled' r r' s s',
    compileDocument oneLibrary Pattern.escape oneDocument oneVocabulary .default .auto =
      .ok compiled ∧
    compileDocument oneLibrary Pattern.escape oneDocument oneVocabulary .default .forceEarley =
      .ok compiled' ∧
    compiled.recognizer .default 0 = .ok r ∧ compiled'.recognizer .default 0 = .ok r' ∧
    feed [[50], [49]] r = .ok [.rejected, .accepting] s ∧
    feed [[50], [49]] r' = .ok [.rejected, .accepting] s' ∧
    s.isAccepting = s'.isAccepting ∧ s.isLive = s'.isLive := by
  obtain ⟨arena, edges, hnormalized, hmeaning⟩ := exists_oneArena
  obtain ⟨compiled, r, s, hcompiled, hr, hfits, hfeed⟩ :=
    exists_oneRun .auto [.rejected, .accepting] (by decide +kernel)
  obtain ⟨compiled', r', s', hcompiled', hr', hfits', hfeed'⟩ :=
    exists_oneRun .forceEarley [.rejected, .accepting] (by decide +kernel)
  exact ⟨compiled, compiled', r, r', s, s', hcompiled, hcompiled', hr, hr', hfeed, hfeed',
    (backends_agree oneLibrary_exact patternsRead oneDocument_distinctKeys hnormalized
      ⟨_, hmeaning.ge rfl⟩ hcompiled hcompiled' hr hr' (by decide) hfits hfits' hfeed hfeed').2⟩

end Answers

end OcEarley

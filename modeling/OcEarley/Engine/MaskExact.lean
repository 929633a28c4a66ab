import OcEarley.Engine.GuideLimits
import OcEarley.Engine.Live

/-!
# Token masks are exact

A mask that is filled shows the end of the sequence if the recognizer is accepting, and every token
whose bytes are consumed (`mask_exact`).  The walk over the trie asks `is_live` before it shows a
token, and `is_live` answers `false` when a probe exceeds a limit; where no probe does, what was
consumed is live.
-/

namespace OcEarley

open Method

/-! ### What the walk finds -/

namespace MaskWalk

variable {trie : TokenTrie} {r t : RecognizerState} {bytes : List UInt8} {n v : ℕ}

theorem exists_of_finds (h : Finds trie t n v) (hreaches : trie.Reaches bytes n)
    (hconsumes : r.Consumes bytes t) : ∃ bytes' m node u, trie.Reaches bytes' m ∧
      trie.nodes[m]? = some node ∧ v ∈ trie.idsOf node ∧ r.Consumes bytes' u ∧ u.isLive = true := by
  induction h generalizing bytes with
  | here hnode hlive hv => exact ⟨bytes, _, _, _, hreaches, hnode, hv, hconsumes, hlive⟩
  | edge hnode hi hedge hu hv ih =>
    exact ih (hreaches.step hnode (mem_edgesOf hi hedge))
      (RecognizerState.consumes_append.2 ⟨_, hconsumes, hu⟩)

theorem finds_of_reaches (hreaches : trie.Reaches bytes n) (hconsumes : r.Consumes bytes t)
    (h : Finds trie t n v) : Finds trie r 0 v := by
  induction hreaches generalizing t with
  | root =>
    obtain rfl := hconsumes
    exact h
  | @step bytes n node edge hreaches hnode hedge ih =>
    obtain ⟨u, hu, hstep⟩ := RecognizerState.consumes_append.1 hconsumes
    obtain ⟨i, hi⟩ := List.mem_iff_getElem?.1 hedge
    have hlt : i < node.edgeLen := by
      by_contra hle
      rw [TokenTrie.edgesOf, List.getElem?_take_eq_none (not_lt.1 hle)] at hi
      cases hi
    rw [TokenTrie.edgesOf, List.getElem?_take_of_lt hlt, List.getElem?_drop] at hi
    exact ih hu (.edge hnode hlt hi hstep h)

/-- The walk finds the tokens of the vocabulary that are consumed and then live. -/
theorem finds_iff {vocabulary : DerivedVocabulary} {tokens : Vocabulary}
    (hspec : vocabulary.Represents tokens) :
    Finds vocabulary.trie r 0 v ↔ ∃ bytes t, vocabulary.sharedBytes v = some bytes ∧
      r.Consumes bytes t ∧ t.isLive = true := by
  constructor
  · intro h
    obtain ⟨bytes, n, node, t, hreaches, hnode, hv, hconsumes, hlive⟩ :=
      exists_of_finds h .root (rfl : r.Consumes [] r)
    exact ⟨bytes, t, (hspec.sharedBytes_iff v bytes).2
      ((hspec.mem_ids bytes n node hreaches hnode v).1 hv),
      hconsumes, hlive⟩
  · rintro ⟨bytes, t, hbytes, hconsumes, hlive⟩
    have hid := (hspec.sharedBytes_iff v bytes).1 hbytes
    obtain ⟨n, hreaches⟩ := hspec.exists_reaches bytes v hid
    obtain ⟨node, hnode⟩ := hspec.exists_node bytes n hreaches
    exact finds_of_reaches hreaches hconsumes
      (.here hnode hlive ((hspec.mem_ids bytes n node hreaches hnode v).2 hid))

end MaskWalk

/-! ### The mask of a guide -/

namespace MaskQuery

variable {q q' : MaskQuery} {r : RecognizerState} {vocabulary : DerivedVocabulary}

theorem bits_walkOrClear (hcol : r.HasColumn) (h : walkOrClear r vocabulary q = .ok () q') (v : ℕ) :
    BitSet q'.destination v ↔ BitSet q.destination v ∨
      (r.isAccepting = true ∧ v = vocabulary.eosTokenId) ∨
        MaskWalk.Finds vocabulary.trie r 0 v := by
  have hspec := (fillStructuralMask_spec vocabulary q.guide.limits
    (w := ⟨r, q.destination, q.guide.maskStats⟩) hcol).2
  unfold walkOrClear onWalk zoom at h
  cases hwalk : fillStructuralMask vocabulary q.guide.limits
    ⟨r, q.destination, q.guide.maskStats⟩ with
  | error e w =>
    -- a walk that fails is an error of the query
    rw [hwalk] at h
    obtain ⟨_, _, _, hrest⟩ := bind_eq_ok.1 h
    obtain ⟨_, _, _, hthrow⟩ := bind_eq_ok.1 hrest
    exact absurd hthrow (by simp)
  | ok u w =>
    rw [hwalk] at h
    obtain ⟨-, rfl⟩ := EStateM.Result.ok.inj h
    exact hspec u w hwalk v

theorem bits_computeUnfinished (hruntime : q.guide.runtime = .structural r)
    (hvocabulary : q.guide.vocabulary = some vocabulary) (hcol : r.HasColumn)
    (hunfinished : q.guide.finished = false) (h : computeUnfinished q = .ok () q') (v : ℕ) :
    BitSet q'.destination v ↔ BitSet q.destination v ∨
      (r.isAccepting = true ∧ v = vocabulary.eosTokenId) ∨
        MaskWalk.Finds vocabulary.trie r 0 v := by
  unfold computeUnfinished compute at h
  rw [get_bind_apply, hunfinished, if_neg Bool.false_ne_true, get_bind_apply, hruntime,
    hvocabulary] at h
  exact bits_walkOrClear hcol h v

end MaskQuery

namespace Guide

variable {g g' : Guide} {r : RecognizerState} {vocabulary : DerivedVocabulary}
  {destination mask : List ℕ}

/-- Where a fresh mask comes from. -/
theorem freshMask_eq_ok (h : g.freshMask destination = .ok mask) : ∃ q,
    MaskQuery.computeUnfinished (MaskQuery.started ⟨{ g with cachedMask := none }, destination⟩) =
      .ok () q ∧ q.destination = mask := by
  by_cases hlen : g.maskWords ≤ destination.length
  swap
  · rw [freshMask_of_lt hlen] at h
    cases h
  have hq := MaskQuery.fillMask_of_none (q := ⟨{ g with cachedMask := none }, destination⟩) hlen rfl
  unfold freshMask fillMask at h
  rw [hq, bind_apply] at h
  cases hcompute : MaskQuery.computeUnfinished
      (MaskQuery.started ⟨{ g with cachedMask := none }, destination⟩) with
  | error e q =>
    rw [hcompute] at h
    cases h
  | ok u q =>
    rw [hcompute] at h
    exact ⟨q, rfl, Except.ok.inj h⟩

/-- The mask of a finished guide is all zero. -/
theorem freshMask_of_finished (hfinished : g.finished = true)
    (h : g.freshMask destination = .ok mask) : mask = List.replicate destination.length 0 := by
  obtain ⟨q, hq, rfl⟩ := freshMask_eq_ok h
  have hstarted : (MaskQuery.started ⟨{ g with cachedMask := none }, destination⟩).guide.finished =
      true := hfinished
  unfold MaskQuery.computeUnfinished at hq
  rw [get_bind_apply, if_pos hstarted] at hq
  obtain ⟨-, rfl⟩ := EStateM.Result.ok.inj hq
  rfl

theorem freshMask_structural (hruntime : g.runtime = .structural r)
    (hvocabulary : g.vocabulary = some vocabulary) (hcol : r.HasColumn)
    (hunfinished : g.finished = false) (h : g.freshMask destination = .ok mask) (v : ℕ) :
    BitSet mask v ↔ (r.isAccepting = true ∧ v = vocabulary.eosTokenId) ∨
      MaskWalk.Finds vocabulary.trie r 0 v := by
  obtain ⟨q, hq, rfl⟩ := freshMask_eq_ok h
  have hbits := MaskQuery.bits_computeUnfinished hruntime hvocabulary hcol hunfinished hq v
  rw [hbits, or_iff_right]
  exact bitSet_replicate

/-- The mask that `get_tokens` asks for shows the same bits. -/
theorem freshMask_words (hg : g.Sound) (h : g.freshMask destination = .ok mask) :
    ∃ words : List ℕ, words.length = g.maskWords ∧
      g.freshMask (List.replicate g.maskWords 0) = .ok words ∧
      ∀ v, BitSet words v ↔ BitSet mask v := by
  have hlen : g.maskWords ≤ destination.length := by
    by_contra hlen
    rw [freshMask_of_lt hlen] at h
    cases h
  have hlen' : g.maskWords ≤ (List.replicate g.maskWords 0).length := by simp
  rcases freshMask_alike (.refl g) hg.fits hlen hlen' with ⟨e, he, -⟩ | ⟨words, hwords, hw, hw'⟩
  · rw [he] at h
    cases h
  · rw [hw] at h
    obtain rfl := Except.ok.inj h
    rw [List.length_replicate, Nat.sub_self, List.replicate_zero, List.append_nil] at hw'
    refine ⟨words, hwords, hw', fun v => ?_⟩
    unfold BitSet
    by_cases hv : v / 32 < words.length
    · rw [List.getElem?_append_left hv]
    · rw [List.getElem?_append_right (not_lt.1 hv), List.getElem?_eq_none (not_lt.1 hv)]
      refine iff_of_false (by simp) ?_
      rintro ⟨word, hword, hbit⟩
      obtain rfl := List.eq_of_mem_replicate (List.mem_of_getElem? hword)
      simp at hbit

theorem bitSet_iff {words : List ℕ} {v : ℕ} :
    BitSet words v ↔ (words[v / 32]?.getD 0).testBit (v % 32) = true := by
  unfold BitSet
  cases words[v / 32]? with
  | none => simp
  | some word => simp

/-- The body of the loop of `get_tokens`. -/
def collectToken (words tokens : List ℕ) (token : ℕ) : Method RuntimeError Guide (List ℕ) := do
  let word ← Method.unwrap words[token / 32]? .panicked
  if word.testBit (token % 32) then do
    Method.require (token ≤ u32Max) (.internalInvariant "vocabulary width exceeds TokenId")
    pure (tokens ++ [token])
  else
    pure tokens

theorem collectTokens_eq_ok {words l : List ℕ} (hwords : ∀ v ∈ l, v / 32 < words.length)
    (hfits : ∀ v, BitSet words v → v ≤ u32Max) (tokens : List ℕ) (g : Guide) :
    l.foldlM (collectToken words) tokens g =
      .ok (tokens ++ l.filter fun v => (words[v / 32]?.getD 0).testBit (v % 32)) g := by
  induction l generalizing tokens with
  | nil =>
    rw [List.foldlM_nil, List.filter_nil, List.append_nil]
    rfl
  | cons token l ih =>
    have hlt := hwords token List.mem_cons_self
    have hget : words[token / 32]? = some words[token / 32] := List.getElem?_eq_getElem hlt
    have ih := fun tokens => ih (fun v hv => hwords v (List.mem_cons_of_mem _ hv)) tokens
    rw [List.foldlM_cons]
    cases hbit : words[token / 32].testBit (token % 32) with
    | true =>
      have hle : token ≤ u32Max := hfits token ⟨_, hget, hbit⟩
      have hstep : collectToken words tokens token g = .ok (tokens ++ [token]) g := by
        unfold collectToken
        rw [hget, bind_of_ok (unwrap_eq_ok.2 ⟨rfl, rfl⟩), if_pos hbit, bind_of_ok (require_of hle)]
        rfl
      rw [bind_of_ok hstep, ih, List.filter_cons_of_pos (by simpa [hget] using hbit),
        List.append_assoc, List.singleton_append]
    | false =>
      have hstep : collectToken words tokens token g = .ok tokens g := by
        unfold collectToken
        rw [hget, bind_of_ok (unwrap_eq_ok.2 ⟨rfl, rfl⟩), if_neg (by simp [hbit])]
        rfl
      rw [bind_of_ok hstep, ih, List.filter_cons_of_neg (by simpa [hget] using hbit)]

/-- The tokens collected from a mask, in ascending order. -/
theorem valueOf_getTokens {words : List ℕ}
    (hmask : valueOf (fillMask (List.replicate g.maskWords 0) g) =
    .ok words) (hwords : ∀ v < g.vocabSize, v / 32 < words.length)
    (hfits : ∀ v, BitSet words v → v ≤ u32Max) :
    ∃ tokens, valueOf (getTokens g) = .ok tokens ∧ tokens.Pairwise (· < ·) ∧
      ∀ v, v ∈ tokens ↔ v < g.vocabSize ∧ BitSet words v := by
  refine ⟨(List.range g.vocabSize).filter fun v => (words[v / 32]?.getD 0).testBit (v % 32), ?_,
    List.pairwise_lt_range.filter _, fun v => ?_⟩
  · unfold getTokens
    rw [get_bind_apply, bind_of_ok (valueOf_eq_ok.1 hmask)]
    change valueOf ((List.range g.vocabSize).foldlM (collectToken words) [] _) = _
    rw [collectTokens_eq_ok (fun v hv => hwords v (List.mem_range.1 hv)) hfits]
    rfl
  · rw [List.mem_filter, List.mem_range, bitSet_iff]

/-! ### Advancing a structural guide -/

/-- The token can be advanced over: it ends the sequence, or its bytes are consumed. -/
def Allows (g : Guide) (r : RecognizerState) (token : ℕ) : Prop :=
  if token = g.eosTokenId then r.isAccepting = true
  else ∃ bytes t, (g.vocabulary.bind fun v => v.sharedBytes token) = some bytes ∧ r.Consumes bytes t

/-- What advancing a structural guide does. -/
inductive Moves (token : ℕ) (g : Guide) (r : RecognizerState) :
    EStateM.Result RuntimeError Guide Unit → Prop
  | refused {e : RuntimeError} {g' : Guide}
    (h : g.finished = false → ¬ e.IsLimit → ¬ g.Allows r token) : Moves token g r (.error e g')
  | moved {g' : Guide} {t : RecognizerState} {bytes : List UInt8} (hallows : g.Allows r token)
    (hruntime : g'.runtime = .structural t) (hconsumes : r.Consumes bytes t) :
    Moves token g r (.ok () g')

theorem isAccepting_structural (hruntime : g.runtime = .structural r)
    (hunfinished : g.finished = false) : g.isAccepting = r.isAccepting := by
  unfold isAccepting
  rw [hunfinished, hruntime]
  rfl

theorem moves_advance (hruntime : g.runtime = .structural r) (hcol : r.HasColumn) (token : ℕ) :
    Moves token g r (advance token g) := by
  unfold advance enforceRuntimeLimit
  rw [get_bind_apply]
  -- the three checks of `advance`, each of which refuses without a change
  by_cases hunfinished : g.finished = false
  swap
  · rw [bind_of_error (require_of_not hunfinished)]
    exact .refused fun h => absurd h hunfinished
  rw [bind_of_ok (require_of hunfinished)]
  by_cases hcount : g.committedTokenIds.length + 1 ≤ usizeMax
  swap
  · rw [bind_of_error (require_of_not hcount)]
    exact .refused fun _ h => absurd trivial h
  rw [bind_of_ok (require_of hcount)]
  by_cases hlimit : g.committedTokenIds.length + 1 ≤ g.limits.maxCommittedTokens
  swap
  · rw [bind_of_error (require_of_not hlimit)]
    exact .refused fun _ h => absurd trivial h
  rw [bind_of_ok (require_of hlimit)]
  dsimp only
  split
  -- the end of the sequence moves no recognizer
  · next heos =>
    have hallows : g.Allows r token ↔ g.isAccepting = true := by
      rw [Allows, if_pos heos, isAccepting_structural hruntime hunfinished]
    by_cases hacc : g.isAccepting = true
    · rw [bind_of_ok (require_of hacc), bind_of_ok modify_apply]
      obtain ⟨g', hcommit, -, hruntime', -⟩ :=
        commit_eq_ok g.checkpoint token [] { g with finished := true }
      rw [hcommit]
      have hnothing : r.Consumes [] r := rfl
      exact .moved (hallows.2 hacc) (hruntime'.trans hruntime) hnothing
    · rw [bind_of_error (require_of_not hacc)]
      exact .refused fun _ _ h => hacc (hallows.1 h)
  · next hne =>
    rw [hruntime]
    dsimp only
    cases hbytes : g.vocabulary.bind fun v => v.sharedBytes token with
    | none =>
      rw [bind_of_error (require_of_not (by simp))]
      refine .refused fun _ _ h => ?_
      rw [Allows, if_neg hne, hbytes] at h
      obtain ⟨bytes, t, hsome, -⟩ := h
      cases hsome
    | some bytes =>
      have hallows : g.Allows r token ↔ ∃ t, r.Consumes bytes t := by
        rw [Allows, if_neg hne, hbytes]
        constructor
        · rintro ⟨bytes', t, hsome, ht⟩
          obtain rfl := Option.some.inj hsome
          exact ⟨t, ht⟩
        · rintro ⟨t, ht⟩
          exact ⟨bytes, t, rfl, ht⟩
      have hsome : (some bytes).isSome = true := rfl
      rw [bind_of_ok (require_of hsome)]
      unfold advanceRuntime
      rw [bind_apply, get_bind_apply, hruntime]
      dsimp only
      rw [bind_of_ok (unwrap_eq_ok.2 ⟨rfl, rfl⟩)]
      -- the recognizer takes the bytes, rejects them or fails, and only then is it unchanged
      rcases RecognizerState.tryAdvanceBytes_spec hcol bytes with ⟨t, ht⟩ | hrej | ⟨e, herr⟩
      · rw [bind_of_ok (onRecognizer_eq_ok g (RecognizerState.tryAdvanceBytes_of_consumes ht)),
          require_of t.outcome_ne_rejected]
        obtain ⟨g', hcommit, -, hruntime', -⟩ :=
          commit_eq_ok g.checkpoint token bytes { g with runtime := .structural t }
        dsimp only [Option.getD_some]
        rw [hcommit]
        exact .moved (hallows.2 ⟨t, ht⟩) hruntime' ht
      · rw [bind_of_ok (onRecognizer_eq_ok g hrej), require_of_not (by simp)]
        refine .refused fun _ _ h => ?_
        obtain ⟨t, ht⟩ := hallows.1 h
        exact RecognizerState.not_consumes_of_rejected hrej ht
      · rw [bind_of_error (onRecognizer_eq_error g herr)]
        refine .refused fun _ _ h => ?_
        obtain ⟨t, ht⟩ := hallows.1 h
        rw [RecognizerState.tryAdvanceBytes_of_consumes ht] at herr
        cases herr

/-- The recognizer of a guide has consumed bytes. -/
theorem Replays.consumes {tokens : List ℕ} (hruntime : g.runtime = .structural r)
    (hcol : r.HasColumn)
    (h : g.Replays tokens g') : ∃ bytes t, g'.runtime = .structural t ∧ r.Consumes bytes t := by
  induction tokens generalizing g r with
  | nil => exact ⟨[], r, h ▸ hruntime, rfl⟩
  | cons token tokens ih =>
    obtain ⟨g₁, hadvance, h⟩ := h
    have hmoves := moves_advance hruntime hcol token
    rw [hadvance] at hmoves
    cases hmoves with
    | @moved _ t bytes hallows hruntime₁ hconsumes =>
      obtain ⟨later, s, hs, hlater⟩ := ih hruntime₁ (hconsumes.extends.hasColumn hcol) h
      exact ⟨bytes ++ later, s, hs, RecognizerState.consumes_append.2 ⟨t, hconsumes, hlater⟩⟩

/-- What a structural guide is made of. -/
theorem fromCompiled_structural {compiled : CompiledSchema} {maxRollback generation : ℕ}
    {limits : RuntimeLimits} (h : fromCompiled compiled maxRollback limits generation = .ok g)
    (hruntime : g.runtime = .structural r) :
    compiled.recognizer limits generation = .ok r ∧ (∀ a, r ≠ .dfa a) ∧ ∃ vocabulary,
      compiled.vocabulary = some vocabulary ∧ g.vocabulary = some vocabulary ∧
      g.eosTokenId = vocabulary.eosTokenId ∧ g.vocabSize = vocabulary.vocabSize ∧
      g.maskWords = vocabulary.maskWords := by
  obtain ⟨_, -, h⟩ := Result.bind_eq_ok.1 h
  split at h
  · next index hbackend =>
    obtain rfl := Result.pure_eq_ok.1 h
    cases hruntime
  · next hnot =>
    obtain ⟨vocabulary, hvocabulary, h⟩ := Result.bind_eq_ok.1 h
    obtain ⟨recognizer, hrecognizer, h⟩ := Result.bind_eq_ok.1 h
    obtain rfl := Result.pure_eq_ok.1 h
    obtain rfl := GuideRuntime.structural.inj hruntime
    refine ⟨hrecognizer, ?_, vocabulary, Result.unwrap_eq_ok.1 hvocabulary, rfl, rfl, rfl, rfl⟩
    rintro a rfl
    -- only the automaton backend makes recognizers of an automaton
    unfold CompiledSchema.recognizer at hrecognizer
    cases hbackend : compiled.backend with
    | dfa index => exact hnot index hbackend
    | lalr table =>
      rw [hbackend] at hrecognizer
      cases Result.pure_eq_ok.1 hrecognizer
    | earley table =>
      rw [hbackend] at hrecognizer
      obtain ⟨_, -, hrecognizer⟩ := Result.bind_eq_ok.1 hrecognizer
      cases Result.pure_eq_ok.1 hrecognizer

end Guide

/-- The LALR tables of the schema have been built. -/
def CompiledSchema.Prepared (compiled : CompiledSchema) : Prop :=
  ∀ table, compiled.backend = .lalr table → table.Prepared

theorem CompiledSchema.Prepared.recognizer {compiled : CompiledSchema} (h : compiled.Prepared)
    {limits : RuntimeLimits} {generation : ℕ} {r : RecognizerState}
    (hr : compiled.recognizer limits generation = .ok r) : r.Prepared := by
  unfold CompiledSchema.recognizer at hr
  cases hbackend : compiled.backend with
  | dfa index =>
    rw [hbackend] at hr
    obtain ⟨_, -, hr⟩ := Result.bind_eq_ok.1 hr
    obtain rfl := Result.pure_eq_ok.1 hr
    trivial
  | lalr table =>
    rw [hbackend] at hr
    obtain rfl := Result.pure_eq_ok.1 hr
    exact h table hbackend
  | earley table =>
    rw [hbackend] at hr
    obtain ⟨_, -, hr⟩ := Result.bind_eq_ok.1 hr
    obtain rfl := Result.pure_eq_ok.1 hr
    trivial

namespace Guide

variable {compiled : CompiledSchema} {maxRollback generation : ℕ} {limits : RuntimeLimits}
  {initial g : Guide} {r : RecognizerState} {vocabulary : DerivedVocabulary}
  {destination mask : List ℕ}

/-- The state of a structural guide that has committed tokens. -/
structure Structural (compiled : CompiledSchema) (g : Guide) (r : RecognizerState)
    (vocabulary : DerivedVocabulary) : Prop where
  consumed : ∃ (first : RecognizerState) (x : List UInt8) (limits : RuntimeLimits) (generation : ℕ),
    compiled.recognizer limits generation = .ok first ∧ (∀ a, first ≠ .dfa a) ∧ first.Consumes x r
  built : ∃ tokens limits, DerivedVocabulary.build tokens limits = .ok vocabulary
  eosTokenId : g.eosTokenId = vocabulary.eosTokenId
  vocabSize : g.vocabSize = vocabulary.vocabSize
  maskWords : g.maskWords = vocabulary.maskWords

theorem Replayed.structural
    (hinitial : fromCompiled compiled maxRollback limits generation = .ok initial)
    (h : Replayed initial g) (hruntime : g.runtime = .structural r)
    (hvocabulary : g.vocabulary = some vocabulary) : Structural compiled g r vocabulary := by
  have hstarted := (Fresh.fromCompiled hinitial).started
  obtain ⟨s, hs, hcore⟩ := h.replays
  have hset := (hs.ahead hstarted.column).toSameSetting.trans hcore.toSameSetting
  have hext := (hs.ahead hstarted.column).runtime
  rw [← hcore.runtime, hruntime] at hext
  -- a guide that has become structural was structural at first
  cases hfirst : initial.runtime with
  | dfa index state =>
    rw [hfirst] at hext
    cases hext
  | structural first =>
    have hcol : first.HasColumn := by
      have hcol := hstarted.column
      rw [hfirst] at hcol
      exact hcol
    obtain ⟨x, t, ht, hconsumes⟩ := hs.consumes hfirst hcol
    rw [← hcore.runtime, hruntime] at ht
    obtain rfl := GuideRuntime.structural.inj ht
    obtain ⟨hrecognizer, hdfa, derived, hcompiled, hderived, heos, hsize, hwords⟩ :=
      fromCompiled_structural hinitial hfirst
    rw [← hset.vocabulary, hvocabulary] at hderived
    obtain rfl := Option.some.inj hderived
    exact {
      consumed := ⟨first, x, limits, generation, hrecognizer, hdfa, hconsumes⟩
      built := compiled.vocabulary_built _ hcompiled
      eosTokenId := hset.eosTokenId.trans heos
      vocabSize := hset.vocabSize.trans hsize
      maskWords := hset.maskWords.trans hwords }

/-- What the bits of a fresh mask show. -/
theorem Structural.freshMask (h : Structural compiled g r vocabulary)
    (hprepared : compiled.Prepared) (hruntime : g.runtime = .structural r)
    (hvocabulary : g.vocabulary = some vocabulary) (hcol : r.HasColumn)
    (hunfinished : g.finished = false) (hmask : g.freshMask destination = .ok mask)
    (hfits : ∀ token bytes t, vocabulary.sharedBytes token = some bytes → r.Consumes bytes t →
      t.LivenessFits) (v : ℕ) :
    BitSet mask v ↔ (v = vocabulary.eosTokenId ∧ r.isAccepting = true) ∨
      ∃ bytes t, vocabulary.sharedBytes v = some bytes ∧ r.Consumes bytes t := by
  obtain ⟨tokens, compileLimits, hbuild⟩ := h.built
  obtain ⟨first, x, _, _, hrecognizer, hdfa, hconsumes⟩ := h.consumed
  have hspec := DerivedVocabulary.build_spec hbuild
  rw [freshMask_structural hruntime hvocabulary hcol hunfinished hmask, MaskWalk.finds_iff hspec,
    and_comm]
  refine or_congr_right (exists_congr fun bytes => exists_congr fun t => ?_)
  refine ⟨fun ⟨hbytes, ht, _⟩ => ⟨hbytes, ht⟩, fun ⟨hbytes, ht⟩ => ⟨hbytes, ht, ?_⟩⟩
  -- a token is not empty, so a byte was consumed and the recognizer is live
  have hne : x ++ bytes ≠ [] := by
    intro hnil
    obtain rfl := (List.append_eq_nil_iff.1 hnil).2
    exact hspec.nil_notMem v ((hspec.sharedBytes_iff v []).1 hbytes)
  exact RecognizerState.isLive_of_consumes (CompiledSchema.fresh_of_recognizer hrecognizer)
    (hprepared.recognizer hrecognizer) hne (RecognizerState.consumes_append.2 ⟨r, hconsumes, ht⟩)
    (hfits v bytes t hbytes ht) hdfa

/-- The tokens that a mask shows are those that the guide allows. -/
theorem Structural.allows_iff (h : Structural compiled g r vocabulary)
    (hvocabulary : g.vocabulary = some vocabulary) (v : ℕ) :
    g.Allows r v ↔ (v = vocabulary.eosTokenId ∧ r.isAccepting = true) ∨
      ∃ bytes t, vocabulary.sharedBytes v = some bytes ∧ r.Consumes bytes t := by
  obtain ⟨tokens, compileLimits, hbuild⟩ := h.built
  have hspec := DerivedVocabulary.build_spec hbuild
  unfold Allows
  rw [h.eosTokenId, hvocabulary, Option.bind_some]
  split
  · next heos =>
    subst heos
    refine ⟨fun hacc => .inl ⟨rfl, hacc⟩, ?_⟩
    rintro (⟨-, hacc⟩ | ⟨bytes, t, hbytes, -⟩)
    · exact hacc
    · -- the end of the sequence has no bytes
      rw [hspec.sharedBytes_iff, hspec.eosTokenId] at hbytes
      exact absurd hbytes (tokens.eos_notMem_ids bytes)
  · next hne => exact ⟨.inr, fun hor => hor.resolve_left fun hleft => hne hleft.1⟩

end Guide

/-- **Token masks are exact.**  A mask that is filled in an unfinished structural guide, after any
operations, shows the end of the sequence iff the recognizer is accepting, and a token of the
vocabulary iff its bytes are not rejected, provided that the probes of `is_live` after the tokens
exceed no limit.  These are the tokens that the guide can be advanced over, limits apart, and the
ones that `get_tokens` lists.  The mask of a finished guide is all zero. -/
theorem mask_exact {compiled : CompiledSchema} (hprepared : compiled.Prepared)
    {maxRollback generation : ℕ} {limits : RuntimeLimits} {initial : Guide}
    (hinitial : Guide.fromCompiled compiled maxRollback limits generation = .ok initial)
    (ops : List GuideOp) {r : RecognizerState} {vocabulary : DerivedVocabulary}
    (hruntime : (initial.after ops).runtime = .structural r)
    (hvocabulary : (initial.after ops).vocabulary = some vocabulary) {destination mask : List ℕ}
    (hmask : valueOf (Guide.fillMask destination (initial.after ops)) = .ok mask) :
    ((initial.after ops).finished = true → mask = List.replicate destination.length 0) ∧
    ((initial.after ops).finished = false →
      (∀ token bytes t, vocabulary.sharedBytes token = some bytes → r.Consumes bytes t →
        t.LivenessFits) →
      (∀ v, BitSet mask v ↔ (v = vocabulary.eosTokenId ∧ r.isAccepting = true) ∨
        ∃ bytes a t, vocabulary.sharedBytes v = some bytes ∧
          RecognizerState.tryAdvanceBytes bytes r = .ok a t ∧ a ≠ .rejected) ∧
      (∀ v, (∀ e, valueOf (Guide.advance v (initial.after ops)) = .error e → ¬ e.IsLimit) →
        (BitSet mask v ↔ ∃ g, Guide.advance v (initial.after ops) = .ok () g)) ∧
      (vocabulary.vocabSize ≤ u32Max + 1 → ∃ tokens,
        valueOf (Guide.getTokens (initial.after ops)) = .ok tokens ∧ tokens.Pairwise (· < ·) ∧
          ∀ v, v ∈ tokens ↔ BitSet mask v)) := by
  have hstarted := (Guide.Fresh.fromCompiled hinitial).started
  have hreplayed := hstarted.replayed.after hstarted ops
  generalize initial.after ops = g at *
  have hsound := hreplayed.sound hstarted
  rw [Guide.valueOf_fillMask hsound.mask] at hmask
  refine ⟨fun hfinished => Guide.freshMask_of_finished hfinished hmask, fun hunfinished hfits => ?_⟩
  have hstructural := hreplayed.structural hinitial hruntime hvocabulary
  have hcol : r.HasColumn := by
    have hcol := hsound.column
    rw [hruntime] at hcol
    exact hcol
  have hbits := hstructural.freshMask hprepared hruntime hvocabulary hcol hunfinished hmask hfits
  refine ⟨fun v => ?_, fun v hlimit => ?_, fun hsize => ?_⟩
  · rw [hbits]
    refine or_congr_right (exists_congr fun bytes => ?_)
    constructor
    · rintro ⟨t, hbytes, ht⟩
      exact ⟨t.outcome, t, hbytes, RecognizerState.tryAdvanceBytes_of_consumes ht,
        t.outcome_ne_rejected⟩
    · rintro ⟨a, t, hbytes, hadvance, ha⟩
      exact ⟨t, hbytes, ((RecognizerState.tryAdvanceBytes_eq_ok_iff hcol ha).1 hadvance).1⟩
  · rw [hbits, ← hstructural.allows_iff hvocabulary]
    have hmoves := Guide.moves_advance hruntime hcol v
    generalize Guide.advance v g = result at hmoves hlimit
    cases hmoves with
    | @refused e g' h => exact iff_of_false (h hunfinished (hlimit e rfl)) nofun
    | @moved g' t bytes hallows _ _ => exact iff_of_true hallows ⟨g', rfl⟩
  · obtain ⟨tokens, compileLimits, hbuild⟩ := hstructural.built
    have hspec := DerivedVocabulary.build_spec hbuild
    -- every bit that is set stands for a token id
    have hlt : ∀ v, BitSet mask v → v < g.vocabSize := by
      intro v hv
      rw [hstructural.vocabSize]
      rcases (hbits v).1 hv with ⟨rfl, -⟩ | ⟨bytes, t, hbytes, -⟩
      · exact hspec.eosTokenId ▸ hspec.eos_lt
      · exact hspec.id_lt bytes v ((hspec.sharedBytes_iff v bytes).1 hbytes)
    obtain ⟨words, hlen, hwords, hsame⟩ := Guide.freshMask_words hsound hmask
    rw [← Guide.valueOf_fillMask hsound.mask] at hwords
    have hword : ∀ v < g.vocabSize, v / 32 < words.length := by
      intro v hv
      rw [hlen, hstructural.maskWords, hspec.maskWords]
      rw [hstructural.vocabSize] at hv
      omega
    have hfitsWidth : ∀ v, BitSet words v → v ≤ u32Max := by
      intro v hv
      have hv := hlt v ((hsame v).1 hv)
      rw [hstructural.vocabSize] at hv
      omega
    obtain ⟨ids, hids, hsorted, hmem⟩ := Guide.valueOf_getTokens hwords hword hfitsWidth
    refine ⟨ids, hids, hsorted, fun v => ?_⟩
    rw [hmem, hsame]
    exact ⟨And.right, fun hv => ⟨hlt v hv, hv⟩⟩

theorem mask_exact_sampleGuide :
    ∃ tokens, valueOf (Guide.getTokens (sampleGuide.after [.advance 0])) = .ok tokens ∧
      ∀ v, v ∈ tokens ↔ BitSet [7] v := by
  have hprepared : sampleSchema.Prepared := nofun
  have hok : (valueOf (Guide.fillMask [0] (sampleGuide.after [.advance 0]))) = .ok [7] := by
    decide +kernel
  have hruntime : (sampleGuide.after [.advance 0]).runtime = .structural (.earley
      (stateOf (EarleyRecognizer.advanceByte 97 sampleRecognizer))) := by
    rfl
  have h := (mask_exact hprepared fromCompiled_sampleSchema [.advance 0] hruntime rfl hok).2 rfl
    fun _ _ t _ ht => ?_
  · obtain ⟨tokens, htokens, -, hmem⟩ := h.2.2 (by decide)
    exact ⟨tokens, htokens, hmem⟩
  · have hext := ht.extends
    cases hext
    trivial

/-! ### A mask that a limit clears -/

/-- `S → a b | a c`. -/
def branching : ResidualGrammar where
  start := 0
  nonterminals := [{ id := 0, original := 0, name := "n0", provenance := .root }]
  terminals := [.literal [97], .literal [98], .literal [99]]
  terminalProvenance := [.root, .root, .root]
  productions := [
    { id := 0, original := 0, lhs := 0, rhs := [.terminal 0, .terminal 1], provenance := .root },
    { id := 1, original := 1, lhs := 0, rhs := [.terminal 0, .terminal 2], provenance := .root }]
  productionsByLhs := [[0, 1]]
  nullable := [false]
  productiveSuffixes := [[false, false, true], [false, false, true]]
  collapsedNonterminals := 0
  collapsedRegions := 0
  terminalDfaStates := 0
  terminalDfaBytes := 0

/-- The tables built for `branching`. -/
def branchingLalr : CompiledLalr where
  grammar := branching
  productions := [⟨0, [.terminal 0, .terminal 1], .root, some 0⟩,
    ⟨0, [.terminal 0, .terminal 2], .root, some 1⟩, ⟨1, [.nonterminal 0], .root, none⟩]
  table := {
    actions := [[(.terminal 0, .shift 1)], [(.terminal 1, .shift 3), (.terminal 2, .shift 4)],
      [(.eof, .accept)], [(.eof, .reduce 0)], [(.eof, .reduce 1)]]
    gotos := [[(0, 2)], [], [], [], []] }
  conflicts := []
  lexicalSafe := true
  stats := {
    canonicalStates := 5
    mergedStates := 5
    lrItems := 8
    actionEntries := 6
    gotoEntries := 1
    conflicts := 0 }

namespace branching

set_option maxRecDepth 4000 in
theorem build_lalr_eq : CompiledLalr.build branching .default = .ok branchingLalr := rfl

theorem wellFormed : branching.WellFormed where
  start_lt := by decide
  lhs_lt := by simp [branching]
  rhs_inRange := by simp [branching, ResidualGrammar.SymbolInRange]
  nullable_length := rfl

theorem indexExact : branching.IndexExact where
  length_eq := rfl
  mem_iff {A ids} h p := by
    obtain ⟨hA, rfl⟩ := List.getElem?_eq_some_iff.1 h
    obtain rfl : A = 0 := Nat.lt_one_iff.1 hA
    rcases p with _ | _ | p <;> simp [branching]

theorem not_sentence_nil : ¬ Sentence branching.Rule [.nonterminal 0] [] := by
  intro h
  obtain ⟨γ, ⟨p, hp, -, rfl⟩, h⟩ := yields_nonterminal_iff.1 h
  have hcons : ∃ t β, p.rhs = .terminal t :: β := by
    rcases List.mem_cons.1 hp with rfl | hp
    · exact ⟨_, _, rfl⟩
    · obtain rfl := List.mem_singleton.1 hp
      exact ⟨_, _, rfl⟩
  obtain ⟨t, β, hrhs⟩ := hcons
  rw [hrhs] at h
  obtain ⟨u, v, huv, hu, -⟩ := yields_terminal_cons_iff.1 h
  rw [mem_selfLanguage.1 hu] at huv
  cases huv

theorem nullableExact : branching.NullableExact := by
  intro A hA
  obtain rfl : A = 0 := Nat.lt_one_iff.1 hA
  exact iff_of_false (by simp [branching]) not_sentence_nil

theorem productive : branching.Productive := by
  intro A hA
  obtain rfl : A = 0 := Nat.lt_one_iff.1 hA
  have hrhs : Sentence branching.Rule [.terminal 0, .terminal 1] [0, 1] :=
    .terminal (mem_selfLanguage.2 rfl) (.terminal (mem_selfLanguage.2 rfl) .nil)
  exact ⟨[0, 1], Yields.of_production ⟨_, List.mem_cons_self, rfl, rfl⟩ hrhs⟩

theorem terminalsExact : branching.TerminalsExact := by
  have hliteral : ∀ t ∈ branching.terminals, ∃ byte, t = .literal [byte] := by
    simp [branching]
  refine ⟨fun t ht => ?_, fun t ht => ?_, fun t ht => ?_⟩
  · obtain ⟨byte, rfl⟩ := hliteral t ht
    exact ⟨[byte], rfl⟩
  · obtain ⟨byte, rfl⟩ := hliteral t ht
    exact List.cons_ne_nil _ _ ∘ Eq.symm
  · obtain ⟨byte, rfl⟩ := hliteral t ht
    trivial

theorem prepared : branchingLalr.Prepared :=
  .inr ⟨branching, .default, build_lalr_eq, rfl, wellFormed, indexExact, nullableExact, productive,
    terminalsExact, by decide⟩

/-- `a` and the end of the sequence. -/
def vocabulary : Vocabulary where
  eosTokenId := 1
  tokens := ⟨[⟨[97], [0]⟩], by simp [List.NodupKeys, List.keys]⟩
  eos_notMem := by decide
  nodup_ids := by decide

/-- The trie and the reverse table of the vocabulary. -/
def derived : DerivedVocabulary where
  trie := {
    nodes := [⟨0, 1, 0, 0⟩, ⟨1, 0, 0, 1⟩]
    edges := [⟨97, 1⟩]
    terminalIds := [0] }
  reverse := [some [97], none]
  eosTokenId := 1
  vocabSize := 2
  maskWords := 1
  totalTokenBytes := 1

theorem build_vocabulary : DerivedVocabulary.build vocabulary .default = .ok derived := by
  decide +kernel

/-- The compiled schema of the tables. -/
def schema : CompiledSchema where
  backend := .lalr branchingLalr
  byteDfa := none
  vocabulary := some derived
  vocabulary_built d h := by
    obtain rfl := Option.some.inj h
    exact ⟨vocabulary, .default, build_vocabulary⟩

/-- One scan may be active. -/
def limits : RuntimeLimits := { RuntimeLimits.default with maxActiveScans := 1 }

/-- The recognizer of the schema, at its start. -/
def recognizer : RecognizerState := .lalr (branchingLalr.recognizer limits 1)

/-- The guide of the schema, at its start. -/
def guide : Guide where
  runtime := .structural recognizer
  vocabulary := some derived
  eosTokenId := 1
  vocabSize := 2
  maskWords := 1
  initial := .structural recognizer.checkpoint 0 0 false
  history := []
  maxRollback := 0
  finished := false
  committedTokenIds := []
  committedBytes := []
  limits := limits
  maskStats := .default
  cachedMask := none

theorem fromCompiled_schema : Guide.fromCompiled schema 0 limits 1 = .ok guide := rfl

end branching

/-- With one active scan at most, `a` is consumed, but `is_live` finds two candidates behind it and
answers `false`: the mask does not show the token, although no advance exceeds a limit. -/
theorem mask_absorbs_limit :
    ¬ ∀ compiled : CompiledSchema, compiled.Prepared → ∀ maxRollback limits generation initial,
      Guide.fromCompiled compiled maxRollback limits generation = .ok initial → ∀ ops r vocabulary,
        (initial.after ops).runtime = .structural r →
        (initial.after ops).vocabulary = some vocabulary → (initial.after ops).finished = false →
        (∀ token bytes e, vocabulary.sharedBytes token = some bytes →
          valueOf (RecognizerState.tryAdvanceBytes bytes r) = .error e → ¬ e.IsLimit) →
        ∀ destination mask, valueOf (Guide.fillMask destination (initial.after ops)) = .ok mask →
          ∀ v, BitSet mask v ↔ (v = vocabulary.eosTokenId ∧ r.isAccepting = true) ∨
            ∃ bytes a t, vocabulary.sharedBytes v = some bytes ∧
              RecognizerState.tryAdvanceBytes bytes r = .ok a t ∧ a ≠ .rejected := by
  intro hclaim
  have hlive : valueOf (RecognizerState.tryAdvanceBytes [97] branching.recognizer) = .ok .live := by
    decide +kernel
  have hmask : valueOf (Guide.fillMask [0] branching.guide) = .ok [0] := by decide +kernel
  have hprepared : branching.schema.Prepared := by
    intro table htable
    obtain rfl := CompiledBackend.lalr.inj htable
    exact branching.prepared
  have hfits : ∀ token bytes e, branching.derived.sharedBytes token = some bytes →
      valueOf (RecognizerState.tryAdvanceBytes bytes branching.recognizer) = .error e →
        ¬ e.IsLimit := by
    intro token bytes e hbytes herror
    obtain rfl : bytes = [97] := by
      rcases token with _ | _ | token
      · exact (Option.some.inj hbytes).symm
      · cases hbytes
      · cases hbytes
    rw [hlive] at herror
    cases herror
  have h := hclaim branching.schema hprepared 0 branching.limits 1 branching.guide
    branching.fromCompiled_schema [] branching.recognizer branching.derived rfl rfl rfl hfits
    [0] [0] hmask 0
  obtain ⟨word, hword, hbit⟩ := h.2
    (.inr ⟨[97], .live, _, rfl, valueOf_eq_ok.1 hlive, nofun⟩)
  obtain rfl := Option.some.inj hword
  simp at hbit

end OcEarley

import OcEarley.Engine.Mask

/-!
# Guides and their histories

Whatever operations a guide has been through, it is where a fresh guide gets to by advancing over
the token ids that are committed now (`guide_runs_equal_replay`).  The invariant of a run is
`Guide.Replayed`: the core of the guide is that of the replay, the checkpoints of the history are
those that the replay has before its last tokens, and a cached mask is the one that would be
computed.
-/

namespace OcEarley

open Method

namespace Guide

variable {initial g g' r : Guide}

/-! ### Fresh guides -/

/-- The guides that are made. -/
inductive Fresh : Guide → Prop
  | fromIndex {index : Index} {maxRollback : ℕ} {g : Guide}
    (h : Guide.fromIndex index maxRollback = .ok g) : Fresh g
  | fromCompiled {compiled : CompiledSchema} {maxRollback : ℕ} {limits : RuntimeLimits}
    {generation : ℕ} {g : Guide}
    (h : Guide.fromCompiled compiled maxRollback limits generation = .ok g) : Fresh g

/-- The recognizer can be restored, the ids have a place in the mask, and a cached mask is right. -/
structure Sound (g : Guide) : Prop where
  column : g.runtime.HasColumn
  fits : g.FitsMask
  mask : g.CachesMask

/-- Nothing has been committed. -/
structure Started (g : Guide) : Prop extends Sound g where
  initial : g.initial = g.checkpoint
  history : g.history = []
  committedTokenIds : g.committedTokenIds = []

theorem div_lt_maskWords {token size : ℕ} (h : token < size) : token / 32 < (size + 31) / 32 := by
  omega

theorem Index.fits {index : Index} {state token : ℕ}
    (h : token ∈ (index.allowedTokens state).getD []) : token < index.vocabSize := by
  unfold Index.allowedTokens at h
  cases hrow : index.transitions.lookup state with
  | none =>
    rw [hrow] at h
    exact absurd h List.not_mem_nil
  | some row =>
    rw [hrow] at h
    exact index.token_lt state row hrow token h

end Guide

theorem CompiledSchema.fresh_of_recognizer {compiled : CompiledSchema} {limits : RuntimeLimits}
    {generation : ℕ} {r : RecognizerState} (h : compiled.recognizer limits generation = .ok r) :
    r.Fresh := by
  unfold CompiledSchema.recognizer at h
  cases hbackend : compiled.backend with
  | dfa index =>
    rw [hbackend] at h
    obtain ⟨dfa, -, h⟩ := Result.bind_eq_ok.1 h
    obtain rfl := Result.pure_eq_ok.1 h
    exact .dfa dfa limits generation
  | lalr table =>
    rw [hbackend] at h
    obtain rfl := Result.pure_eq_ok.1 h
    exact .lalr table limits generation
  | earley table =>
    rw [hbackend] at h
    obtain ⟨recognizer, hrec, h⟩ := Result.bind_eq_ok.1 h
    obtain rfl := Result.pure_eq_ok.1 h
    exact .earley hrec

namespace Guide

variable {initial g g' r : Guide}

theorem started_dfa {index : Index} (hruntime : g.runtime = .dfa index index.initialState)
    (hvocabulary : g.vocabulary = none) (hwords : g.maskWords = (index.vocabSize + 31) / 32)
    (hinitial : g.initial = g.checkpoint) (hhistory : g.history = [])
    (hids : g.committedTokenIds = []) (hcached : g.cachedMask = none) : g.Started := by
  refine { column := ?_, fits := ⟨fun index' state h state' token htoken => ?_, fun v h => ?_⟩,
           mask := cachesMask_of_none hcached, initial := hinitial, history := hhistory,
           committedTokenIds := hids }
  · rw [hruntime]
    trivial
  · rw [hruntime] at h
    cases h
    rw [hwords]
    exact div_lt_maskWords (Index.fits htoken)
  · rw [hvocabulary] at h
    cases h

theorem started_structural {recognizer : RecognizerState} {vocabulary : DerivedVocabulary}
    {tokens : Vocabulary} {limits : CompileLimits} (hcol : recognizer.HasColumn)
    (hbuilt : DerivedVocabulary.build tokens limits = .ok vocabulary)
    (hruntime : g.runtime = .structural recognizer) (hvocabulary : g.vocabulary = some vocabulary)
    (hwords : g.maskWords = vocabulary.maskWords) (hinitial : g.initial = g.checkpoint)
    (hhistory : g.history = []) (hids : g.committedTokenIds = []) (hcached : g.cachedMask = none) :
    g.Started := by
  have hrepresents := DerivedVocabulary.build_spec hbuilt
  refine { column := ?_, fits := ⟨fun index' state h => ?_, fun v h => ?_⟩,
           mask := cachesMask_of_none hcached, initial := hinitial, history := hhistory,
           committedTokenIds := hids }
  · rw [hruntime]
    exact hcol
  · rw [hruntime] at h
    cases h
  · rw [hvocabulary] at h
    obtain rfl := Option.some.inj h
    rw [hwords, hrepresents.maskWords, hrepresents.eosTokenId]
    exact ⟨div_lt_maskWords hrepresents.eos_lt,
      fun id hid => div_lt_maskWords (hrepresents.terminalIds_lt id hid)⟩

theorem Fresh.started (h : g.Fresh) : g.Started := by
  cases h with
  | fromIndex h =>
    obtain ⟨-, -, h⟩ := Result.bind_eq_ok.1 h
    obtain rfl := Result.pure_eq_ok.1 h
    exact started_dfa rfl rfl rfl rfl rfl rfl rfl
  | @fromCompiled compiled maxRollback limits generation g h =>
    obtain ⟨-, -, h⟩ := Result.bind_eq_ok.1 h
    split at h
    · obtain rfl := Result.pure_eq_ok.1 h
      exact started_dfa rfl rfl rfl rfl rfl rfl rfl
    · obtain ⟨vocabulary, hvocabulary, h⟩ := Result.bind_eq_ok.1 h
      obtain ⟨recognizer, hrecognizer, h⟩ := Result.bind_eq_ok.1 h
      obtain rfl := Result.pure_eq_ok.1 h
      obtain ⟨tokens, compileLimits, hbuilt⟩ :=
        compiled.vocabulary_built vocabulary (Result.unwrap_eq_ok.1 hvocabulary)
      exact started_structural (CompiledSchema.fresh_of_recognizer hrecognizer).hasColumn hbuilt
        rfl rfl rfl rfl rfl rfl rfl

/-! ### What an observer sees -/

theorem fitsMask_of_extends (hset : SameSetting g g') (hext : g.runtime.Extends g'.runtime)
    (h : g.FitsMask) : g'.FitsMask := by
  constructor
  · intro index state hruntime
    rw [hruntime] at hext
    rw [hset.maskWords]
    cases hg : g.runtime with
    | dfa index' state' =>
      rw [hg] at hext
      cases hext
      exact h.dfa _ _ hg
    | structural recognizer =>
      rw [hg] at hext
      cases hext
  · rw [hset.vocabulary, hset.maskWords]
    exact h.structural

theorem Sound.of_core (h : g.Sound) (hcore : SameCore g g') (hmask : g'.CachesMask) : g'.Sound :=
  ⟨hcore.runtime ▸ h.column,
    fitsMask_of_extends hcore.toSameSetting (hcore.runtime ▸ .refl _) h.fits, hmask⟩

theorem Advanced.sound {token : ℕ} (h : Advanced token g g') (hg : g.Sound) : g'.Sound :=
  ⟨h.runtime.hasColumn hg.column, fitsMask_of_extends h.toSameSetting h.runtime hg.fits,
    cachesMask_of_none h.cachedMask⟩

/-- The mask after some more tokens. -/
def laterMask (later destination : List ℕ) : Method RuntimeError Guide (List ℕ) :=
  match later with
  | [] => fillMask destination
  | token :: later => advance token >>= fun _ => laterMask later destination

/-- Everything that can be seen of a guide but its history: also the masks
after any further tokens. -/
structure SameView (g g' : Guide) : Prop where
  runtime : g'.runtime = g.runtime
  isAccepting : g'.isAccepting = g.isAccepting
  isFinished : g'.isFinished = g.isFinished
  committedTokenIds : g'.committedTokenIds = g.committedTokenIds
  committedBytes : g'.committedBytes = g.committedBytes
  masks : ∀ later destination,
    valueOf (laterMask later destination g') = valueOf (laterMask later destination g)

theorem laterMask_congr (h : SameCore g g') (hg : g.Sound) (hg' : g'.Sound)
    (later destination : List ℕ) :
    valueOf (laterMask later destination g') = valueOf (laterMask later destination g) := by
  induction later generalizing g g' with
  | nil =>
    change valueOf (fillMask destination g') = valueOf (fillMask destination g)
    rw [valueOf_fillMask hg'.mask, valueOf_fillMask hg.mask, freshMask_congr h hg.fits]
  | cons token later ih =>
    have hspec := advance_spec hg.column token
    have hspec' := advance_spec hg'.column token
    have halike := alike_advance token h
    rw [laterMask, bind_apply, bind_apply]
    generalize advance token g = x at hspec halike
    generalize advance token g' = y at hspec' halike
    cases halike with
    | error h => rfl
    | ok h =>
      cases hspec with
      | advanced hadv =>
        cases hspec' with
        | advanced hadv' => exact ih h (hadv.sound hg) (hadv'.sound hg')

theorem SameCore.sameView (h : SameCore g g') (hg : g.Sound) (hg' : g'.Sound) : SameView g g' :=
  ⟨h.runtime, h.isAccepting, h.finished, h.committedTokenIds, h.committedBytes,
    laterMask_congr h hg hg'⟩

/-! ### The invariant of a run -/

/-- The guide is where `initial` gets to over the tokens that are committed, and so are the
checkpoints of its history over all but the last so many of them. -/
structure Replayed (initial g : Guide) : Prop where
  replays : ∃ r, initial.Replays g.committedTokenIds r ∧ SameCore r g
  history_le : g.history.length ≤ g.maxRollback
  history_le_ids : g.history.length ≤ g.committedTokenIds.length
  checkpoint : ∀ i c, g.history[i]? = some c → ∃ r, initial.Replays
    (g.committedTokenIds.take (g.committedTokenIds.length - g.history.length + i)) r ∧
      c = r.checkpoint
  mask : g.CachesMask

theorem Replays.sound {tokens : List ℕ} (hg : g.Sound) (h : g.Replays tokens g') : g'.Sound := by
  induction tokens generalizing g with
  | nil => exact h ▸ hg
  | cons token tokens ih =>
    obtain ⟨t, ht, h⟩ := h
    exact ih ((advanced_of_ok hg.column ht).sound hg) h

theorem Replayed.sound (hinitial : initial.Started) (h : Replayed initial g) : g.Sound := by
  obtain ⟨r, hr, hcore⟩ := h.replays
  exact (hr.sound hinitial.toSound).of_core hcore h.mask

/-- A guide whose history and committed tokens stay keeps the invariant. -/
theorem Replayed.of_core (h : Replayed initial g) (hcore : SameCore g g')
    (hhistory : g'.history = g.history) (hmask : g'.CachesMask) : Replayed initial g' := by
  obtain ⟨r, hr, hsame⟩ := h.replays
  refine ⟨⟨r, ?_, hsame.trans hcore⟩, ?_, ?_, ?_, hmask⟩
  · rwa [hcore.committedTokenIds]
  · rw [hhistory, hcore.maxRollback]
    exact h.history_le
  · rw [hhistory, hcore.committedTokenIds]
    exact h.history_le_ids
  · rw [hhistory, hcore.committedTokenIds]
    exact h.checkpoint

theorem Started.replayed (h : initial.Started) : Replayed initial initial := by
  refine ⟨⟨initial, ?_, .refl initial⟩, ?_, ?_, ?_, h.mask⟩
  · rw [h.committedTokenIds]
    rfl
  · rw [h.history]
    exact Nat.zero_le _
  · rw [h.history]
    exact Nat.zero_le _
  · rw [h.history]
    intro i c hc
    cases hc

/-- The history after a token: the window of checkpoints has moved on by one. -/
theorem Advanced.window {token : ℕ} (h : Replayed initial g) (hadv : Advanced token g g') :
    g'.history.length ≤ g'.maxRollback ∧ g'.history.length ≤ g'.committedTokenIds.length ∧
      ∀ i c, g'.history[i]? = some c → ∃ r, initial.Replays
        (g'.committedTokenIds.take (g'.committedTokenIds.length - g'.history.length + i)) r ∧
          c = r.checkpoint := by
  obtain ⟨r, hr, hcore⟩ := h.replays
  have hle := h.history_le
  have hids := h.history_le_ids
  rw [hadv.maxRollback, hadv.committedTokenIds, hadv.history]
  by_cases hzero : g.maxRollback = 0
  · rw [hzero] at hle
    rw [if_pos hzero, List.length_eq_zero_iff.1 (Nat.le_zero.1 hle)]
    exact ⟨Nat.zero_le _, Nat.zero_le _, fun i c hc => nomatch hc⟩
  rw [if_neg hzero]
  have hlength : (g.history.drop (g.history.length + 1 - g.maxRollback) ++ [g.checkpoint]).length =
      g.history.length - (g.history.length + 1 - g.maxRollback) + 1 := by simp
  rw [hlength, List.length_append, List.length_singleton]
  refine ⟨by omega, by omega, fun i c hc => ?_⟩
  rcases getElem?_snoc.1 hc with hc | ⟨rfl, rfl⟩
  · -- an older checkpoint
    rw [List.getElem?_drop] at hc
    obtain ⟨r', hr', hc'⟩ := h.checkpoint _ c hc
    have hlt := (List.getElem?_eq_some_iff.1 hc).1
    refine ⟨r', ?_, hc'⟩
    rw [List.take_append_of_le_length (by omega)]
    convert hr' using 2
    omega
  · -- the checkpoint of the guide before the token
    refine ⟨r, ?_, hcore.checkpoint⟩
    rw [List.length_drop]
    convert hr using 2
    rw [List.take_append_of_le_length (by omega), List.take_of_length_le (by omega)]

theorem Replayed.advance (hinitial : initial.Started) (h : Replayed initial g) (token : ℕ) :
    Replayed initial (stateOf (Guide.advance token g)) := by
  have hg := h.sound hinitial
  obtain ⟨r, hr, hcore⟩ := h.replays
  have hspec := advance_spec hg.column token
  have halike := alike_advance token hcore
  generalize Guide.advance token g = x at hspec halike
  cases hspec with
  | failed e => exact h
  | @advanced g' hadv =>
    obtain ⟨hle, hids, hcheckpoint⟩ := hadv.window h
    refine ⟨?_, hle, hids, hcheckpoint, cachesMask_of_none hadv.cachedMask⟩
    generalize hy : Guide.advance token r = y at halike
    cases halike with
    | @ok u r' _ hcore' =>
      refine ⟨r', ?_, hcore'⟩
      rw [stateOf_ok, hadv.committedTokenIds]
      exact replays_append.2 ⟨r, hr, r', hy, rfl⟩

theorem Replayed.fillMask (hinitial : initial.Started) (h : Replayed initial g)
    (destination : List ℕ) : Replayed initial (stateOf (Guide.fillMask destination g)) := by
  have hg := h.sound hinitial
  obtain ⟨hcore, hhistory⟩ := fillMask_frame hg.column destination
  exact h.of_core hcore hhistory (hg.mask.fillMask hg.column hg.fits destination)

/-- `get_tokens` is a mask query for the guide. -/
theorem stateOf_getTokens :
    stateOf (getTokens g) = stateOf (Guide.fillMask (List.replicate g.maskWords 0) g) := by
  unfold getTokens
  rw [stateOf_get_bind, bind_apply]
  cases Guide.fillMask (List.replicate g.maskWords 0) g with
  | error e g' => rfl
  | ok mask g' =>
    have hmoves : Moves Eq ((List.range g.vocabSize).foldlM (fun tokens token => do
        let word ← Method.unwrap mask[token / 32]? .panicked
        if word.testBit (token % 32) then do
          Method.require (token ≤ u32Max) (.internalInvariant "vocabulary width exceeds TokenId")
          pure (tokens ++ [token])
        else
          pure tokens) [] : Method RuntimeError Guide (List ℕ)) := by
      refine moves_foldlM (fun tokens token => moves_bind (moves_unwrap _ _) fun word => ?_) _ _
      split
      · exact moves_bind (moves_require _) fun _ => moves_pure _
      · exact moves_pure _
    exact (hmoves g').symm

theorem Replays.committedTokenIds (hinitial : initial.Started) {tokens : List ℕ}
    (hr : initial.Replays tokens r) : r.committedTokenIds = tokens := by
  rw [(hr.ahead hinitial.column).committedTokenIds, hinitial.committedTokenIds, List.nil_append]

/-- What the replay has passed through on its way. -/
theorem Replayed.ahead (hinitial : initial.Started) (h : Replayed initial g) {n : ℕ}
    (hr : initial.Replays (g.committedTokenIds.take n) r) :
    Ahead (g.committedTokenIds.drop n) r g := by
  obtain ⟨s, hs, hcore⟩ := h.replays
  rw [← List.take_append_drop n g.committedTokenIds] at hs
  obtain ⟨t, ht, hrest⟩ := replays_append.1 hs
  obtain rfl := hr.unique ht
  have hahead := hrest.ahead (hr.sound hinitial.toSound).column
  exact {
    toSameSetting := hahead.toSameSetting.trans hcore.toSameSetting
    runtime := hcore.runtime ▸ hahead.runtime
    committedTokenIds := hcore.committedTokenIds.trans hahead.committedTokenIds
    committedBytes := hcore.committedBytes ▸ hahead.committedBytes }

theorem Replayed.rollback_eq_ok (hinitial : initial.Started) (h : Replayed initial g) {count : ℕ}
    (hcount : count ≤ g.history.length) (hpos : count ≠ 0) :
    ∃ r g', Guide.rollback count g = .ok () g' ∧
      initial.Replays (g.committedTokenIds.take (g.committedTokenIds.length - count)) r ∧
      SameCore r g' ∧ g'.history = g.history.take (g.history.length - count) ∧
      g'.cachedMask = none := by
  have hids := h.history_le_ids
  have hlt : g.history.length - count < g.history.length := by omega
  obtain ⟨r, hr, hchecked⟩ := h.checkpoint _ _ (List.getElem?_eq_getElem hlt)
  rw [show g.committedTokenIds.length - g.history.length + (g.history.length - count) =
    g.committedTokenIds.length - count by omega] at hr
  have hahead := h.ahead hinitial hr
  obtain ⟨g', hok, hcore, hhistory⟩ := restoreGuide_of_ahead
    (g := { g with history := g.history.take (g.history.length - count) })
    (hr.sound hinitial.toSound).column { hahead with }
  refine ⟨r, { g' with cachedMask := none, maskStats := { g'.maskStats with cacheBytes := 0 } }, ?_,
    hr, { hcore with }, hhistory, rfl⟩
  unfold Guide.rollback
  rw [bind_of_ok get_apply, if_neg hpos, bind_of_ok (require_of hcount),
    bind_of_ok modify_apply, List.getElem?_eq_getElem hlt, hchecked,
    bind_of_ok (unwrap_eq_ok.2 ⟨rfl, rfl⟩), bind_of_ok hok]
  rfl

theorem Replayed.rollback (hinitial : initial.Started) (h : Replayed initial g) (count : ℕ) :
    Replayed initial (stateOf (Guide.rollback count g)) := by
  by_cases hzero : count = 0
  · rw [hzero]
    exact h
  by_cases hcount : count ≤ g.history.length
  swap
  · have herr : Guide.rollback count g =
        .error (.rollbackUnavailable count g.history.length) g := by
      unfold Guide.rollback
      rw [bind_of_ok get_apply, if_neg hzero, bind_of_error (require_of_not hcount)]
    rw [herr]
    exact h
  obtain ⟨r, g', hok, hr, hcore, hhistory, hcached⟩ := h.rollback_eq_ok hinitial hcount hzero
  have hle := h.history_le
  have hids := h.history_le_ids
  have hcommitted : g'.committedTokenIds =
      g.committedTokenIds.take (g.committedTokenIds.length - count) :=
    hcore.committedTokenIds.trans (hr.committedTokenIds hinitial)
  have hmax : g'.maxRollback = g.maxRollback :=
    hcore.maxRollback.trans (h.ahead hinitial hr).maxRollback.symm
  rw [hok, stateOf_ok]
  refine ⟨⟨r, by rwa [hcommitted], hcore⟩, ?_, ?_, fun i c hc => ?_, cachesMask_of_none hcached⟩
  · rw [hhistory, hmax, List.length_take]
    omega
  · rw [hhistory, hcommitted, List.length_take, List.length_take]
    omega
  · rw [hhistory, List.getElem?_take] at hc
    split at hc
    · next hi =>
      obtain ⟨r', hr', hc'⟩ := h.checkpoint i c hc
      refine ⟨r', ?_, hc'⟩
      rw [hhistory, hcommitted, List.take_take, List.length_take, List.length_take]
      convert hr' using 2
      omega
    · cases hc

theorem Replayed.reset (hinitial : initial.Started) (h : Replayed initial g) :
    ∃ g', Guide.reset g = .ok () g' ∧ SameCore initial g' ∧ g'.history = [] ∧
      g'.cachedMask = none := by
  have hahead := h.ahead hinitial (n := 0) rfl
  obtain ⟨g', hok, hcore, -⟩ := restoreGuide_of_ahead hinitial.column hahead
  refine ⟨{ g' with history := [], maskStats := .default, cachedMask := none }, ?_,
    { hcore with }, rfl, rfl⟩
  unfold Guide.reset
  rw [bind_of_ok get_apply, hahead.initial, hinitial.initial, bind_of_ok hok]
  rfl

theorem Replayed.of_reset (hinitial : initial.Started) (h : Replayed initial g) :
    Replayed initial (stateOf (Guide.reset g)) := by
  obtain ⟨g', hok, hcore, hhistory, hcached⟩ := h.reset hinitial
  rw [hok, stateOf_ok]
  have hids := hcore.committedTokenIds.trans hinitial.committedTokenIds
  refine ⟨⟨initial, hids ▸ rfl, hcore⟩, ?_, ?_, ?_, cachesMask_of_none hcached⟩
  · rw [hhistory]
    exact Nat.zero_le _
  · rw [hhistory]
    exact Nat.zero_le _
  · rw [hhistory]
    intro i c hc
    cases hc

/-! ### Runs -/

end Guide

/-- A call of a guide. -/
inductive GuideOp
  | advance (tokenId : ℕ)
  | fillMask (destination : List ℕ)
  | getTokens
  | rollback (count : ℕ)
  | reset
  deriving DecidableEq, Repr

namespace GuideOp

/-- What the call does; its answer is dropped. -/
def run : GuideOp → Method RuntimeError Guide Unit
  | .advance tokenId => Guide.advance tokenId
  | .fillMask destination => Guide.fillMask destination >>= fun _ => pure ()
  | .getTokens => Guide.getTokens >>= fun _ => pure ()
  | .rollback count => Guide.rollback count
  | .reset => Guide.reset

/-- The guide after an operation, on success and on failure. -/
def step (g : Guide) (op : GuideOp) : Guide := stateOf (op.run g)

theorem stateOf_ignore {α : Type} {m : Method RuntimeError Guide α} {g : Guide} :
    stateOf ((m >>= fun _ => pure ()) g) = stateOf (m g) := by
  rw [bind_apply]
  cases m g <;> rfl

end GuideOp

namespace Guide

variable {initial g g' r : Guide}

theorem Replayed.step (hinitial : initial.Started) (h : Replayed initial g) (op : GuideOp) :
    Replayed initial (GuideOp.step g op) := by
  unfold GuideOp.step
  cases op with
  | advance tokenId => exact h.advance hinitial tokenId
  | fillMask destination =>
    rw [GuideOp.run, GuideOp.stateOf_ignore]
    exact h.fillMask hinitial destination
  | getTokens =>
    rw [GuideOp.run, GuideOp.stateOf_ignore, stateOf_getTokens]
    exact h.fillMask hinitial _
  | rollback count => exact h.rollback hinitial count
  | reset => exact h.of_reset hinitial

/-- The guide after some operations, whether they succeed or not. -/
def after (g : Guide) (ops : List GuideOp) : Guide := ops.foldl GuideOp.step g

/-- The invariant holds along every run. -/
theorem Replayed.after (hinitial : initial.Started) (h : Replayed initial g) (ops : List GuideOp) :
    Replayed initial (g.after ops) := by
  induction ops generalizing g with
  | nil => exact h
  | cons op ops ih => exact ih (h.step hinitial op)

/-- An operation that fails leaves the guide as it was. -/
theorem Replayed.failed (hinitial : initial.Started) (h : Replayed initial g) {op : GuideOp}
    {e : RuntimeError} (hop : op.run g = .error e g') : SameCore g g' ∧ g'.history = g.history := by
  have hcol := (h.sound hinitial).column
  have hstate : g' = stateOf (op.run g) := by rw [hop]; rfl
  cases op with
  | advance tokenId =>
    have hspec := advance_spec hcol tokenId
    rw [show Guide.advance tokenId g = _ from hop] at hspec
    cases hspec
    exact ⟨.refl g, rfl⟩
  | fillMask destination =>
    rw [hstate, GuideOp.run, GuideOp.stateOf_ignore]
    exact fillMask_frame hcol destination
  | getTokens =>
    rw [hstate, GuideOp.run, GuideOp.stateOf_ignore, stateOf_getTokens]
    exact fillMask_frame hcol _
  | rollback count =>
    -- only a rollback that is refused fails
    by_cases hzero : count = 0
    · rw [hzero] at hop
      cases hop
    by_cases hcount : count ≤ g.history.length
    · obtain ⟨r, g₂, hok, -⟩ := h.rollback_eq_ok hinitial hcount hzero
      rw [show Guide.rollback count g = _ from hop] at hok
      cases hok
    · rw [hstate, GuideOp.run, Guide.rollback, bind_of_ok get_apply, if_neg hzero,
        bind_of_error (require_of_not hcount)]
      exact ⟨.refl g, rfl⟩
  | reset =>
    obtain ⟨g₂, hok, -⟩ := h.reset hinitial
    rw [show Guide.reset g = _ from hop] at hok
    cases hok

end Guide

/-- **The runs of a guide equal fresh replays.**  After any operations on a fresh guide, successful
or not, the guide looks like the fresh guide after advancing over exactly the token ids that are
committed now, all later masks included; an operation that fails and a mask query change nothing of
this; and the history is bounded and rolls back any number of tokens up to its length. -/
theorem guide_runs_equal_replay {initial : Guide} (hinitial : initial.Fresh) (ops : List GuideOp) :
    (∃ r, initial.Replays (initial.after ops).committedTokenIds r ∧
      r.SameView (initial.after ops)) ∧
    (∀ (op : GuideOp) e g, op.run (initial.after ops) = .error e g →
      (initial.after ops).SameView g ∧ g.history = (initial.after ops).history) ∧
    (∀ destination, (initial.after ops).SameView
      ((initial.after ops).after [.fillMask destination])) ∧
    (initial.after ops).SameView ((initial.after ops).after [.getTokens]) ∧
    (initial.after ops).getAllowedRollback ≤ initial.maxRollback ∧
    ∀ count ≤ (initial.after ops).getAllowedRollback,
      ∃ g r, Guide.rollback count (initial.after ops) = .ok () g ∧
        initial.Replays ((initial.after ops).committedTokenIds.take
          ((initial.after ops).committedTokenIds.length - count)) r ∧ r.SameView g := by
  have hstarted := hinitial.started
  have h := hstarted.replayed.after hstarted ops
  generalize initial.after ops = g at h
  have hg := h.sound hstarted
  obtain ⟨r, hr, hcore⟩ := h.replays
  have hview := hcore.sameView (hr.sound hstarted.toSound) hg
  refine ⟨⟨r, hr, hview⟩, fun op e g' hop => ?_, fun destination => ?_, ?_, ?_,
    fun count hcount => ?_⟩
  · obtain ⟨hsame, hhistory⟩ := h.failed hstarted hop
    have hnext := h.step hstarted op
    rw [GuideOp.step, hop] at hnext
    exact ⟨hsame.sameView hg (hnext.sound hstarted), hhistory⟩
  · refine Guide.SameCore.sameView ?_ hg ((h.after hstarted _).sound hstarted)
    change Guide.SameCore g (stateOf (GuideOp.run _ g))
    rw [GuideOp.run, GuideOp.stateOf_ignore]
    exact (Guide.fillMask_frame hg.column destination).1
  · refine Guide.SameCore.sameView ?_ hg ((h.after hstarted _).sound hstarted)
    change Guide.SameCore g (stateOf (GuideOp.run _ g))
    rw [GuideOp.run, GuideOp.stateOf_ignore, Guide.stateOf_getTokens]
    exact (Guide.fillMask_frame hg.column _).1
  · have hmax := hcore.maxRollback.trans (hr.ahead hstarted.column).maxRollback
    exact hmax ▸ h.history_le
  · by_cases hzero : count = 0
    · subst hzero
      refine ⟨g, r, rfl, ?_, hview⟩
      rwa [Nat.sub_zero, List.take_length]
    · obtain ⟨r', g', hok, hr', hcore', -, hcached⟩ := h.rollback_eq_ok hstarted hcount hzero
      have hsound := hr'.sound hstarted.toSound
      exact ⟨g', r', hok, hr', hcore'.sameView hsound
        (hsound.of_core hcore' (Guide.cachesMask_of_none hcached))⟩

/-! ### A sample guide -/

/-- `a`, `aa` and the end of the sequence. -/
def sampleVocabulary : Vocabulary where
  eosTokenId := 2
  tokens := ⟨[⟨[97], [0]⟩, ⟨[97, 97], [1]⟩], by simp [List.NodupKeys, List.keys]⟩
  eos_notMem := by decide
  nodup_ids := by decide

/-- The trie and the reverse table of `a` and `aa`. -/
def sampleDerived : DerivedVocabulary where
  trie := {
    nodes := [⟨0, 1, 0, 0⟩, ⟨1, 1, 0, 1⟩, ⟨2, 0, 1, 1⟩]
    edges := [⟨97, 1⟩, ⟨97, 2⟩]
    terminalIds := [0, 1] }
  reverse := [some [97], some [97, 97], none]
  eosTokenId := 2
  vocabSize := 3
  maskWords := 1
  totalTokenBytes := 3

theorem build_sampleVocabulary :
    DerivedVocabulary.build sampleVocabulary .default = .ok sampleDerived := by
  decide +kernel

/-- The grammar of `a*` as a compiled schema. -/
def sampleSchema : CompiledSchema where
  backend := .earley rightRecursiveEarley
  byteDfa := none
  vocabulary := some sampleDerived
  vocabulary_built derived h := by
    obtain rfl := Option.some.inj h
    exact ⟨sampleVocabulary, .default, build_sampleVocabulary⟩

/-- The Earley recognizer of the schema, at its start. -/
def sampleRecognizer : EarleyRecognizer :=
  stateOf (CompiledEarley.prepare (rightRecursiveEarley.blank .default true 1))

/-- The guide of the schema, at its start. -/
def sampleGuide : Guide where
  runtime := .structural (.earley sampleRecognizer)
  vocabulary := some sampleDerived
  eosTokenId := 2
  vocabSize := 3
  maskWords := 1
  initial := .structural (.earley sampleRecognizer.checkpoint) 0 0 false
  history := []
  maxRollback := 2
  finished := false
  committedTokenIds := []
  committedBytes := []
  limits := .default
  maskStats := .default
  cachedMask := none

theorem fromCompiled_sampleSchema :
    Guide.fromCompiled sampleSchema 2 .default 1 = .ok sampleGuide := by
  have hrecognizer : sampleSchema.recognizer .default 1 = .ok (.earley sampleRecognizer) := by
    have h : rightRecursiveEarley.recognizer .default true 1 = .ok sampleRecognizer :=
      CompiledEarley.recognizer_eq_ok (by decide) (by decide +kernel)
    exact Result.bind_eq_ok.2 ⟨_, h, rfl⟩
  refine Result.bind_eq_ok.2 ⟨(), by decide, ?_⟩
  refine Result.bind_eq_ok.2 ⟨sampleDerived, rfl, ?_⟩
  exact Result.bind_eq_ok.2 ⟨_, hrecognizer, rfl⟩

theorem guide_runs_equal_replay_sampleGuide :
    ∃ r, sampleGuide.Replays [1, 2] r ∧ r.SameView (sampleGuide.after
      [.advance 0, .getTokens, .advance 1, .advance 7, .rollback 2, .advance 1, .fillMask [5, 5],
        .advance 2, .advance 0]) := by
  have hids : (sampleGuide.after
      [.advance 0, .getTokens, .advance 1, .advance 7, .rollback 2, .advance 1, .fillMask [5, 5],
        .advance 2, .advance 0]).committedTokenIds = [1, 2] := by decide +kernel
  have h := (guide_runs_equal_replay (.fromCompiled fromCompiled_sampleSchema)
    [.advance 0, .getTokens, .advance 1, .advance 7, .rollback 2, .advance 1, .fillMask [5, 5],
      .advance 2, .advance 0]).1
  rwa [hids] at h

end OcEarley

import OcEarley.Engine.Replay
import OcEarley.Engine.Walk

/-!
# Mask queries

A mask query changes nothing of a guide but its statistics and the cached mask
(`Guide.fillMask_frame`), and the mask is a function of the core of the guide and of the length of
the destination (`Guide.fillMask_alike`).  A cached mask is right if it is the one that would be
computed without it.
-/

namespace OcEarley

open Method

namespace Guide

/-- The ids that a mask may have to show have a place in its words. -/
structure FitsMask (g : Guide) : Prop where
  dfa : ∀ index state, g.runtime = .dfa index state → ∀ state', ∀ token ∈
    (index.allowedTokens state').getD [], token / 32 < g.maskWords
  structural : ∀ vocabulary, g.vocabulary = some vocabulary →
    vocabulary.eosTokenId / 32 < g.maskWords ∧
      ∀ id ∈ vocabulary.trie.terminalIds, id / 32 < g.maskWords

end Guide

namespace MaskQuery

variable {q q' : MaskQuery} {k a b : ℕ}

/-! ### What a query leaves alone -/

/-- The guides agree on everything but the statistics. -/
structure SameGuide (q q' : MaskQuery) : Prop extends Guide.SameCore q.guide q'.guide where
  history : q'.guide.history = q.guide.history
  cachedMask : q'.guide.cachedMask = q.guide.cachedMask

instance : Std.Refl SameGuide := ⟨fun q => { Guide.SameCore.refl q.guide with
  history := rfl, cachedMask := rfl }⟩

instance : IsTrans MaskQuery SameGuide where
  trans _ _ _ h h' := { h.toSameCore.trans h'.toSameCore with
    history := h'.history.trans h.history, cachedMask := h'.cachedMask.trans h.cachedMask }

theorem moves_modifyStats (f : MaskStats → MaskStats) : Moves SameGuide (modifyStats f) :=
  moves_modify fun q => { Guide.SameCore.refl q.guide with history := rfl, cachedMask := rfl }

theorem moves_clear : Moves SameGuide clear :=
  moves_modify fun q => { Guide.SameCore.refl q.guide with history := rfl, cachedMask := rfl }

theorem moves_enable (token : ℕ) : Moves SameGuide (enable token) :=
  moves_bind moves_get fun _ => moves_bind (moves_require _) fun _ =>
    moves_bind (moves_modify fun q =>
      { Guide.SameCore.refl q.guide with history := rfl, cachedMask := rfl })
      fun _ => moves_modifyStats _

/-- The walk takes the recognizer back to where it was. -/
theorem sameGuide_onWalk {recognizer : RecognizerState} (vocabulary : DerivedVocabulary)
    (limits : RuntimeLimits) (hruntime : q.guide.runtime = .structural recognizer)
    (hcol : recognizer.HasColumn) :
    SameGuide q (stateOf (onWalk recognizer (fillStructuralMask vocabulary limits) q)) := by
  have hback := (fillStructuralMask_spec vocabulary limits
    (w := ⟨recognizer, q.destination, q.guide.maskStats⟩) hcol).1
  unfold onWalk
  rw [stateOf_zoom]
  refine { Guide.SameCore.refl q.guide with runtime := ?_, history := rfl, cachedMask := rfl }
  dsimp only
  rw [hback, hruntime]

theorem sameGuide_walkOrClear {recognizer : RecognizerState} (vocabulary : DerivedVocabulary)
    (hruntime : q.guide.runtime = .structural recognizer) (hcol : recognizer.HasColumn) :
    SameGuide q (stateOf (walkOrClear recognizer vocabulary q)) := by
  have hwalk := sameGuide_onWalk vocabulary q.guide.limits hruntime hcol
  unfold walkOrClear
  cases hres : onWalk recognizer (fillStructuralMask vocabulary q.guide.limits) q with
  | ok u q₁ =>
    rw [hres] at hwalk
    exact hwalk
  | error e q₁ =>
    rw [hres] at hwalk
    exact trans_of SameGuide hwalk (moves_bind moves_clear
      (fun _ => moves_bind (moves_modifyStats _) fun _ => moves_throw e) q₁)

theorem sameGuide_compute (hcol : q.guide.runtime.HasColumn) :
    SameGuide q (stateOf (compute q)) := by
  unfold compute
  rw [stateOf_get_bind]
  cases hruntime : q.guide.runtime with
  | dfa index state => exact moves_forM moves_enable _ q
  | structural recognizer =>
    rw [hruntime] at hcol
    dsimp only
    cases hvocabulary : q.guide.vocabulary with
    | none => exact refl_of SameGuide q
    | some vocabulary =>
      rw [bind_of_ok (unwrap_eq_ok.2 ⟨rfl, rfl⟩)]
      exact sameGuide_walkOrClear vocabulary hruntime hcol

theorem sameGuide_computeUnfinished (hcol : q.guide.runtime.HasColumn) :
    SameGuide q (stateOf (computeUnfinished q)) := by
  unfold computeUnfinished
  rw [stateOf_get_bind]
  split
  · exact refl_of SameGuide q
  · exact sameGuide_compute hcol

theorem clear_apply :
    clear q = .ok () { q with destination := List.replicate q.destination.length 0 } := rfl

theorem modifyStats_apply (f : MaskStats → MaskStats) :
    modifyStats f q =
      .ok () { q with guide := { q.guide with maskStats := f q.guide.maskStats } } := rfl

/-- What `fill_mask` does to its query. -/
inductive Filled (q : MaskQuery) : EStateM.Result RuntimeError MaskQuery Unit → Prop
  | failed {e : RuntimeError} {q' : MaskQuery} (h : SameGuide q q') : Filled q (.error e q')
  | cached {mask : List ℕ} {q' : MaskQuery} (h : SameGuide q q')
    (hmask : q.guide.cachedMask = some mask) (hwords : q.guide.maskWords ≤ q.destination.length)
    (hdestination : q'.destination =
      mask ++ List.replicate (q.destination.length - q.guide.maskWords) 0) : Filled q (.ok () q')
  | computed {q' : MaskQuery} (h : Guide.SameCore q.guide q'.guide)
    (hhistory : q'.guide.history = q.guide.history) (hnone : q.guide.cachedMask = none)
    (hmask : q'.guide.cachedMask = some (q'.destination.take q.guide.maskWords)) :
    Filled q (.ok () q')

/-- The query when it starts to compute a mask. -/
def started (q : MaskQuery) : MaskQuery where
  guide := { q.guide with maskStats := { q.guide.maskStats with
    queries := saturatingAdd q.guide.maskStats.queries 1
    cacheMisses := saturatingAdd q.guide.maskStats.cacheMisses 1 } }
  destination := List.replicate q.destination.length 0

theorem sameGuide_started : SameGuide q q.started :=
  { Guide.SameCore.refl q.guide with history := rfl, cachedMask := rfl }

theorem fillMask_of_lt (hwords : ¬ q.guide.maskWords ≤ q.destination.length) :
    fillMask q = .error (.internalInvariant "mask destination is shorter than mask_words") q := by
  unfold fillMask
  rw [bind_of_ok get_apply, bind_of_error (require_of_not hwords)]

theorem fillMask_of_none (hwords : q.guide.maskWords ≤ q.destination.length)
    (hnone : q.guide.cachedMask = none) :
    fillMask q = (computeUnfinished >>= fun _ => rememberMask) q.started := by
  unfold fillMask
  rw [bind_of_ok get_apply, bind_of_ok (require_of hwords), bind_of_ok clear_apply,
    bind_of_ok (modifyStats_apply _), hnone]
  dsimp only
  rw [bind_of_ok (modifyStats_apply _)]
  rfl

theorem fillMask_of_some {mask : List ℕ} (hwords : q.guide.maskWords ≤ q.destination.length)
    (hmask : q.guide.cachedMask = some mask) :
    ∃ q', fillMask q = .ok () q' ∧ SameGuide q q' ∧ q'.destination =
      mask ++ List.replicate (q.destination.length - q.guide.maskWords) 0 := by
  unfold fillMask
  rw [bind_of_ok get_apply, bind_of_ok (require_of hwords), bind_of_ok clear_apply,
    bind_of_ok (modifyStats_apply _), hmask]
  refine ⟨_, rfl, { Guide.SameCore.refl q.guide with history := rfl, cachedMask := rfl }, ?_⟩
  change mask ++ (List.replicate q.destination.length 0).drop q.guide.maskWords = _
  rw [List.drop_replicate]

theorem fillMask_spec (hcol : q.guide.runtime.HasColumn) : Filled q (fillMask q) := by
  by_cases hwords : q.guide.maskWords ≤ q.destination.length
  swap
  · rw [fillMask_of_lt hwords]
    exact .failed (refl_of SameGuide q)
  cases hcached : q.guide.cachedMask with
  | some mask =>
    obtain ⟨q', hok, hsame, hdest⟩ := fillMask_of_some hwords hcached
    rw [hok]
    exact .cached hsame hcached hwords hdest
  | none =>
    rw [fillMask_of_none hwords hcached]
    have hcompute := sameGuide_computeUnfinished (q := q.started) hcol
    cases hres : computeUnfinished q.started with
    | error e q₂ =>
      rw [bind_of_error hres]
      rw [hres] at hcompute
      exact .failed (trans_of SameGuide sameGuide_started hcompute)
    | ok u q₂ =>
      rw [bind_of_ok hres]
      rw [hres] at hcompute
      have h : SameGuide q q₂ := trans_of SameGuide sameGuide_started hcompute
      refine .computed { h.toSameCore with } h.history hcached ?_
      exact congrArg (fun words => some (q₂.destination.take words)) h.maskWords

/-! ### Two queries -/

/-- The queries are for the same mask, and what is behind its words is zero. -/
structure SameQuery (k a b : ℕ) (q q' : MaskQuery) : Prop where
  core : Guide.SameCore q.guide q'.guide
  fits : q.guide.FitsMask
  maskWords : q.guide.maskWords = k
  destination : ∃ words : List ℕ, words.length = k ∧
    q.destination = words ++ List.replicate a 0 ∧ q'.destination = words ++ List.replicate b 0

theorem alike_modifyStats (f g : MaskStats → MaskStats) (h : SameQuery k a b q q') :
    Alike (SameQuery k a b) (modifyStats f q) (modifyStats g q') :=
  alike_modify { h with core := { h.core with }, fits := { h.fits with } }

theorem alike_clear (h : SameQuery k a b q q') : Alike (SameQuery k a b) (clear q) (clear q') := by
  obtain ⟨words, hlen, hq, hq'⟩ := h.destination
  refine alike_modify { h with destination := ⟨List.replicate k 0, List.length_replicate, ?_, ?_⟩ }
  · simp [hq, hlen]
  · simp [hq', hlen]

theorem alike_enable {token : ℕ} (htoken : token / 32 < k) (h : SameQuery k a b q q') :
    Alike (SameQuery k a b) (enable token q) (enable token q') := by
  obtain ⟨words, hlen, hq, hq'⟩ := h.destination
  have hword : token / 32 < words.length := by rwa [hlen]
  have hlt : token / 32 < q.destination.length := by
    rw [hq, List.length_append]
    omega
  have hlt' : token / 32 < q'.destination.length := by
    rw [hq', List.length_append]
    omega
  refine alike_get_bind ?_
  rw [bind_of_ok (require_of hlt), bind_of_ok (require_of hlt')]
  refine alike_bind (alike_modify { h with destination := ⟨maskBit token words,
    length_maskBit.trans hlen, ?_, ?_⟩ }) fun _ _ _ h => alike_modifyStats _ _ h
  · change maskBit token q.destination = _
    rw [hq, MaskWalk.maskBit_append hword]
  · change maskBit token q'.destination = _
    rw [hq', MaskWalk.maskBit_append hword]

theorem alike_onWalk {vocabulary : DerivedVocabulary}
    (hvocabulary : q.guide.vocabulary = some vocabulary) (recognizer : RecognizerState)
    (limits : RuntimeLimits) (h : SameQuery k a b q q') :
    Alike (SameQuery k a b) (onWalk recognizer (fillStructuralMask vocabulary limits) q)
      (onWalk recognizer (fillStructuralMask vocabulary limits) q') := by
  obtain ⟨heos, hids⟩ := h.fits.structural vocabulary hvocabulary
  rw [h.maskWords] at heos hids
  have hwords : MaskWalk.SameWords k a b ⟨recognizer, q.destination, q.guide.maskStats⟩
      ⟨recognizer, q'.destination, q'.guide.maskStats⟩ := ⟨rfl, h.destination⟩
  have hwalk := alike_fillStructuralMask limits hids heos hwords
  refine alike_zoom hwalk fun w w' ⟨hrec, hwords⟩ => ?_
  refine { core := { h.core with runtime := ?_ }, fits := ⟨fun _ _ h => ?_, h.fits.structural⟩,
           maskWords := h.maskWords, destination := hwords }
  · exact congrArg GuideRuntime.structural hrec.symm
  · cases h

theorem alike_walkOrClear {vocabulary : DerivedVocabulary}
    (hvocabulary : q.guide.vocabulary = some vocabulary) (recognizer : RecognizerState)
    (h : SameQuery k a b q q') :
    Alike (SameQuery k a b) (walkOrClear recognizer vocabulary q)
      (walkOrClear recognizer vocabulary q') := by
  have hwalk := alike_onWalk hvocabulary recognizer q.guide.limits h
  unfold walkOrClear
  rw [h.core.limits]
  generalize onWalk recognizer (fillStructuralMask vocabulary q.guide.limits) q = x at hwalk
  generalize onWalk recognizer (fillStructuralMask vocabulary q.guide.limits) q' = y at hwalk
  cases hwalk with
  | ok h => exact .ok h
  | error h =>
    exact alike_bind (alike_clear h) fun _ _ _ h =>
      alike_bind (alike_modifyStats _ _ h) fun _ _ _ h => alike_throw h

theorem alike_compute (h : SameQuery k a b q q') :
    Alike (SameQuery k a b) (compute q) (compute q') := by
  refine alike_get_bind ?_
  rw [h.core.runtime, h.core.vocabulary]
  cases hruntime : q.guide.runtime with
  | dfa index state =>
    have hfits := h.fits.dfa index state hruntime state
    rw [h.maskWords] at hfits
    exact alike_forM (fun token htoken _ _ h => alike_enable (hfits token htoken) h) h
  | structural recognizer =>
    cases hvocabulary : q.guide.vocabulary with
    | none => exact .error h
    | some vocabulary => exact alike_walkOrClear hvocabulary recognizer h

theorem alike_computeUnfinished (h : SameQuery k a b q q') :
    Alike (SameQuery k a b) (computeUnfinished q) (computeUnfinished q') := by
  refine alike_get_bind ?_
  rw [h.core.finished]
  split
  · exact alike_pure h
  · exact alike_compute h

theorem alike_rememberMask (h : SameQuery k a b q q') :
    Alike (SameQuery k a b) (rememberMask q) (rememberMask q') :=
  alike_modify { h with core := { h.core with }, fits := { h.fits with } }

end MaskQuery

/-! ### The masks of a guide -/

namespace Guide

variable {g g' : Guide} {destination destination' : List ℕ}

/-- What a mask query changes of a guide. -/
theorem fillMask_frame (hcol : g.runtime.HasColumn) (destination : List ℕ) :
    SameCore g (stateOf (fillMask destination g)) ∧
      (stateOf (fillMask destination g)).history = g.history := by
  have hspec := MaskQuery.fillMask_spec (q := ⟨g, destination⟩) hcol
  unfold fillMask
  generalize MaskQuery.fillMask ⟨g, destination⟩ = result at hspec
  cases hspec with
  | failed h => exact ⟨h.toSameCore, h.history⟩
  | cached h => exact ⟨h.toSameCore, h.history⟩
  | computed h hhistory => exact ⟨h, hhistory⟩

/-- What `fill_mask` would write without a cached mask. -/
def freshMask (g : Guide) (destination : List ℕ) : Except RuntimeError (List ℕ) :=
  valueOf (fillMask destination { g with cachedMask := none })

/-- The mask is a function of the core of the guide and of the length of the destination. -/
theorem freshMask_alike (h : SameCore g g') (hfits : g.FitsMask)
    (hlen : g.maskWords ≤ destination.length) (hlen' : g.maskWords ≤ destination'.length) :
    (∃ e, g.freshMask destination = .error e ∧ g'.freshMask destination' = .error e) ∨
    ∃ words : List ℕ, words.length = g.maskWords ∧
      g.freshMask destination =
        .ok (words ++ List.replicate (destination.length - g.maskWords) 0) ∧
      g'.freshMask destination' =
        .ok (words ++ List.replicate (destination'.length - g.maskWords) 0) := by
  have hquery : ∀ {n : ℕ}, g.maskWords ≤ n → List.replicate n 0 =
      List.replicate g.maskWords 0 ++ List.replicate (n - g.maskWords) 0 := by
    intro n hn
    rw [List.replicate_append_replicate, Nat.add_sub_cancel' hn]
  have hsame : MaskQuery.SameQuery g.maskWords (destination.length - g.maskWords)
      (destination'.length - g.maskWords)
      (MaskQuery.started ⟨{ g with cachedMask := none }, destination⟩)
      (MaskQuery.started ⟨{ g' with cachedMask := none }, destination'⟩) :=
    { core := { h with }, fits := { hfits with }, maskWords := rfl,
      destination := ⟨_, List.length_replicate, hquery hlen, hquery hlen'⟩ }
  have halike := alike_bind (MaskQuery.alike_computeUnfinished hsame) fun _ _ _ h =>
    MaskQuery.alike_rememberMask h
  rw [← MaskQuery.fillMask_of_none hlen rfl, ← MaskQuery.fillMask_of_none (h.maskWords ▸ hlen') rfl]
    at halike
  unfold freshMask fillMask
  generalize MaskQuery.fillMask ⟨{ g with cachedMask := none }, destination⟩ = x at halike
  generalize MaskQuery.fillMask ⟨{ g' with cachedMask := none }, destination'⟩ = y at halike
  cases halike with
  | @ok u q q' h =>
    obtain ⟨words, hwords, hq, hq'⟩ := h.destination
    exact .inr ⟨words, hwords, congrArg Except.ok hq, congrArg Except.ok hq'⟩
  | @error e => exact .inl ⟨e, rfl, rfl⟩

theorem freshMask_of_lt (hlen : ¬ g.maskWords ≤ destination.length) :
    g.freshMask destination =
      .error (.internalInvariant "mask destination is shorter than mask_words") := by
  unfold freshMask fillMask
  rw [MaskQuery.fillMask_of_lt hlen]
  rfl

theorem freshMask_congr (h : SameCore g g') (hfits : g.FitsMask) (destination : List ℕ) :
    g'.freshMask destination = g.freshMask destination := by
  by_cases hlen : g.maskWords ≤ destination.length
  · rcases freshMask_alike h hfits hlen hlen with ⟨e, he, he'⟩ | ⟨words, -, hw, hw'⟩
    · rw [he, he']
    · rw [hw, hw']
  · rw [freshMask_of_lt hlen, freshMask_of_lt (h.maskWords ▸ hlen)]

/-- A cached mask is the one that would be computed. -/
def CachesMask (g : Guide) : Prop :=
  ∀ mask, g.cachedMask = some mask → ∀ destination : List ℕ, g.maskWords ≤ destination.length →
    g.freshMask destination = .ok (mask ++ List.replicate (destination.length - g.maskWords) 0)

theorem cachesMask_of_none (h : g.cachedMask = none) : g.CachesMask := by
  intro mask hmask
  rw [h] at hmask
  cases hmask

theorem freshMask_of_none (h : g.cachedMask = none) :
    g.freshMask destination = valueOf (fillMask destination g) := by
  unfold freshMask
  rw [← h]

theorem valueOf_fillMask (h : g.CachesMask) (destination : List ℕ) :
    valueOf (fillMask destination g) = g.freshMask destination := by
  cases hcached : g.cachedMask with
  | none => exact (freshMask_of_none hcached).symm
  | some mask =>
    by_cases hlen : g.maskWords ≤ destination.length
    · rw [h mask hcached destination hlen]
      obtain ⟨q', hok, -, hdest⟩ :=
        MaskQuery.fillMask_of_some (q := ⟨g, destination⟩) hlen hcached
      unfold fillMask
      rw [hok]
      exact congrArg Except.ok hdest
    · rw [freshMask_of_lt hlen]
      unfold fillMask
      rw [MaskQuery.fillMask_of_lt hlen]
      rfl

theorem cachesMask_congr (h : SameCore g g') (hfits : g.FitsMask)
    (hcached : g'.cachedMask = g.cachedMask) (hmask : g.CachesMask) : g'.CachesMask := by
  intro mask hsome destination hlen
  rw [freshMask_congr h hfits, h.maskWords]
  exact hmask mask (hcached ▸ hsome) destination (h.maskWords ▸ hlen)

/-- A mask query leaves a right mask behind. -/
theorem CachesMask.fillMask (hcol : g.runtime.HasColumn) (hfits : g.FitsMask) (h : g.CachesMask)
    (destination : List ℕ) : (stateOf (fillMask destination g)).CachesMask := by
  have hspec := MaskQuery.fillMask_spec (q := ⟨g, destination⟩) hcol
  have hvalue : valueOf (Guide.fillMask destination g) = g.freshMask destination :=
    valueOf_fillMask h destination
  unfold Guide.fillMask at hvalue ⊢
  generalize MaskQuery.fillMask ⟨g, destination⟩ = result at hspec hvalue
  cases hspec with
  | failed hq => exact cachesMask_congr hq.toSameCore hfits hq.cachedMask h
  | cached hq => exact cachesMask_congr hq.toSameCore hfits hq.cachedMask h
  | @computed q' hq hhistory hnone hmask =>
    intro mask hsome destination' hlen'
    obtain rfl := Option.some.inj (hmask.symm.trans hsome)
    have hlen : g.maskWords ≤ destination.length := by
      by_contra hlen
      rw [freshMask_of_lt hlen] at hvalue
      cases hvalue
    have hwords : g.maskWords ≤ destination'.length := hq.maskWords ▸ hlen'
    rcases freshMask_alike hq hfits hlen hwords with ⟨e, he, -⟩ | ⟨words, hlength, hw, hw'⟩
    · rw [he] at hvalue
      cases hvalue
    · rw [hw] at hvalue
      have hdest : q'.destination = _ := Except.ok.inj hvalue
      have htake : q'.destination.take g.maskWords = words := by
        rw [hdest, List.take_left' hlength]
      have hmaskWords : q'.guide.maskWords = g.maskWords := hq.maskWords
      change q'.guide.freshMask destination' =
        .ok (q'.destination.take g.maskWords ++
          List.replicate (destination'.length - q'.guide.maskWords) 0)
      rw [htake, hmaskWords]
      exact hw'

end Guide

end OcEarley

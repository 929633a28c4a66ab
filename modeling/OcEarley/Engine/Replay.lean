import OcEarley.Engine.Guide
import OcEarley.Engine.Transaction

/-!
# Advancing a guide

Advancing a guide over a token fails and changes nothing, or moves the runtime on and retains the
checkpoint of the guide before (`Guide.advance_spec`).  A guide that has advanced over some tokens
can be taken back by the checkpoint it had at first (`Guide.restoreGuide_of_ahead`), and guides with
the same core stay alike whatever their histories are (`Guide.alike_advance`).
-/

namespace OcEarley

open Method

/-! ### Runtimes -/

namespace GuideRuntime

/-- `s` differs from `r` in what the checkpoint of `r` restores only. -/
inductive Extends : GuideRuntime → GuideRuntime → Prop
  | dfa {index : Index} {s s' : ℕ} : Extends (.dfa index s) (.dfa index s')
  | structural {r s : RecognizerState} (h : r.Extends s) : Extends (.structural r) (.structural s)

/-- A structural runtime has a column. -/
def HasColumn : GuideRuntime → Prop
  | .dfa .. => True
  | .structural recognizer => recognizer.HasColumn

variable {r s t : GuideRuntime}

theorem Extends.refl (r : GuideRuntime) : r.Extends r := by
  cases r with
  | dfa index state => exact .dfa
  | structural recognizer => exact .structural (.refl recognizer)

theorem Extends.trans (h : r.Extends s) (h' : s.Extends t) : r.Extends t := by
  cases h with
  | dfa => cases h' with | dfa => exact .dfa
  | structural h => cases h' with | structural h' => exact .structural (h.trans h')

theorem Extends.hasColumn (h : r.Extends s) (hr : r.HasColumn) : s.HasColumn := by
  cases h with
  | dfa => trivial
  | structural h => exact h.hasColumn hr

end GuideRuntime

namespace Guide

variable {g g' : Guide}

/-- The guides agree on what they were made with. -/
structure SameSetting (g g' : Guide) : Prop where
  vocabulary : g'.vocabulary = g.vocabulary
  eosTokenId : g'.eosTokenId = g.eosTokenId
  vocabSize : g'.vocabSize = g.vocabSize
  maskWords : g'.maskWords = g.maskWords
  initial : g'.initial = g.initial
  maxRollback : g'.maxRollback = g.maxRollback
  limits : g'.limits = g.limits

theorem SameSetting.refl (g : Guide) : SameSetting g g := ⟨rfl, rfl, rfl, rfl, rfl, rfl, rfl⟩

theorem SameSetting.trans {g'' : Guide} (h : SameSetting g g') (h' : SameSetting g' g'') :
    SameSetting g g'' :=
  ⟨h'.vocabulary.trans h.vocabulary, h'.eosTokenId.trans h.eosTokenId,
    h'.vocabSize.trans h.vocabSize, h'.maskWords.trans h.maskWords, h'.initial.trans h.initial,
    h'.maxRollback.trans h.maxRollback, h'.limits.trans h.limits⟩

/-- The guides agree on everything but the history, the statistics and the cached mask. -/
structure SameCore (g g' : Guide) : Prop extends SameSetting g g' where
  runtime : g'.runtime = g.runtime
  finished : g'.finished = g.finished
  committedTokenIds : g'.committedTokenIds = g.committedTokenIds
  committedBytes : g'.committedBytes = g.committedBytes

theorem SameCore.refl (g : Guide) : SameCore g g := ⟨.refl g, rfl, rfl, rfl, rfl⟩

theorem SameCore.trans {g'' : Guide} (h : SameCore g g') (h' : SameCore g' g'') :
    SameCore g g'' :=
  ⟨h.toSameSetting.trans h'.toSameSetting, h'.runtime.trans h.runtime,
    h'.finished.trans h.finished, h'.committedTokenIds.trans h.committedTokenIds,
    h'.committedBytes.trans h.committedBytes⟩

theorem SameCore.symm (h : SameCore g g') : SameCore g' g :=
  ⟨⟨h.vocabulary.symm, h.eosTokenId.symm, h.vocabSize.symm, h.maskWords.symm, h.initial.symm,
    h.maxRollback.symm, h.limits.symm⟩, h.runtime.symm, h.finished.symm,
    h.committedTokenIds.symm, h.committedBytes.symm⟩

theorem SameCore.isAccepting (h : SameCore g g') : g'.isAccepting = g.isAccepting := by
  unfold Guide.isAccepting
  rw [h.finished, h.runtime]

theorem SameCore.checkpoint (h : SameCore g g') : g'.checkpoint = g.checkpoint := by
  unfold Guide.checkpoint
  rw [h.finished, h.runtime, h.committedTokenIds, h.committedBytes]

/-! ### One step -/

/-- What advancing over a token does when it succeeds. -/
structure Advanced (token : ℕ) (g g' : Guide) : Prop extends SameSetting g g' where
  runtime : g.runtime.Extends g'.runtime
  unfinished : g.finished = false
  committedTokenIds : g'.committedTokenIds = g.committedTokenIds ++ [token]
  committedBytes : g.committedBytes <+: g'.committedBytes
  history : g'.history =
    if g.maxRollback = 0 then g.history
    else g.history.drop (g.history.length + 1 - g.maxRollback) ++ [g.checkpoint]
  cachedMask : g'.cachedMask = none

/-- Advancing either fails and changes nothing, or does what it should. -/
inductive Advances (token : ℕ) (g : Guide) : EStateM.Result RuntimeError Guide Unit → Prop
  | failed (e : RuntimeError) : Advances token g (.error e g)
  | advanced {g' : Guide} (h : Advanced token g g') : Advances token g (.ok () g')

/-- The steps behind the point where the runtime has moved. -/
theorem commit_eq_ok (before : GuideCheckpoint) (token : ℕ) (bytes : List UInt8) (g : Guide) :
    ∃ g', commit before token bytes g = .ok () g' ∧ SameSetting g g' ∧ g'.runtime = g.runtime ∧
      g'.committedTokenIds = g.committedTokenIds ++ [token] ∧
      g'.committedBytes = g.committedBytes ++ bytes ∧ g'.finished = g.finished ∧
      g'.history = (if g.maxRollback = 0 then g.history
        else g.history.drop (g.history.length + 1 - g.maxRollback) ++ [before]) ∧
      g'.cachedMask = none := by
  unfold commit retainCheckpoint invalidateMask
  rw [bind_of_ok modify_apply, bind_of_ok modify_apply, modify_apply]
  by_cases hzero : g.maxRollback = 0
  · simp only [if_pos hzero]
    exact ⟨_, rfl, ⟨rfl, rfl, rfl, rfl, rfl, rfl, rfl⟩, rfl, rfl, rfl, rfl, rfl, rfl⟩
  · simp only [if_neg hzero]
    exact ⟨_, rfl, ⟨rfl, rfl, rfl, rfl, rfl, rfl, rfl⟩, rfl, rfl, rfl, rfl, rfl, rfl⟩

theorem onRecognizer_eq_ok {α : Type} {m : Method RuntimeError RecognizerState α}
    {r s : RecognizerState} {a : α} (g : Guide) (h : m r = .ok a s) :
    onRecognizer r m g = .ok a { g with runtime := .structural s } :=
  zoom_eq_ok h

theorem onRecognizer_eq_error {α : Type} {m : Method RuntimeError RecognizerState α}
    {r s : RecognizerState} {e : RuntimeError} (g : Guide) (h : m r = .error e s) :
    onRecognizer r m g = .error e { g with runtime := .structural s } :=
  zoom_eq_error h

/-- The runtime either stays, with an error, or moves on. -/
theorem advanceRuntime_spec (hcol : g.runtime.HasColumn) (token : ℕ)
    (bytes : Option (List UInt8)) :
    (∃ e, advanceRuntime token bytes g = .error e g) ∨
      ∃ runtime, g.runtime.Extends runtime ∧
        advanceRuntime token bytes g = .ok () { g with runtime := runtime } := by
  unfold advanceRuntime
  rw [bind_of_ok get_apply]
  cases hruntime : g.runtime with
  | dfa index state =>
    dsimp only
    cases hnext : index.nextState state token with
    | none => exact .inl ⟨_, rfl⟩
    | some next => exact .inr ⟨.dfa index next, .dfa, rfl⟩
  | structural recognizer =>
    dsimp only
    cases bytes with
    | none => exact .inl ⟨_, rfl⟩
    | some bytes =>
      rw [hruntime] at hcol
      have hself : { g with runtime := .structural recognizer } = g := by rw [← hruntime]
      rw [bind_of_ok (unwrap_eq_ok.2 ⟨rfl, rfl⟩)]
      rcases RecognizerState.tryAdvanceBytes_spec hcol bytes with ⟨t, ht⟩ | hrej | ⟨e, herr⟩
      · rw [bind_of_ok (onRecognizer_eq_ok g (RecognizerState.tryAdvanceBytes_of_consumes ht))]
        refine .inr ⟨.structural t, .structural ht.extends, ?_⟩
        rw [require_of t.outcome_ne_rejected]
      · rw [bind_of_ok (onRecognizer_eq_ok g hrej), hself]
        exact .inl ⟨_, rfl⟩
      · rw [bind_of_error (onRecognizer_eq_error g herr), hself]
        exact .inl ⟨e, rfl⟩

theorem advance_spec (hcol : g.runtime.HasColumn) (token : ℕ) :
    Advances token g (advance token g) := by
  unfold advance enforceRuntimeLimit
  rw [bind_of_ok get_apply]
  -- the checks of `advance`; what fails leaves the guide as it was
  by_cases hfinished : g.finished = false
  swap
  · rw [bind_of_error (require_of_not hfinished)]
    exact .failed _
  rw [bind_of_ok (require_of hfinished)]
  by_cases hcount : g.committedTokenIds.length + 1 ≤ usizeMax
  swap
  · rw [bind_of_error (require_of_not hcount)]
    exact .failed _
  rw [bind_of_ok (require_of hcount)]
  by_cases hlimit : g.committedTokenIds.length + 1 ≤ g.limits.maxCommittedTokens
  swap
  · rw [bind_of_error (require_of_not hlimit)]
    exact .failed _
  rw [bind_of_ok (require_of hlimit)]
  split
  · -- the token ends the sequence
    by_cases haccepting : g.isAccepting = true
    swap
    · rw [bind_of_error (require_of_not haccepting)]
      exact .failed _
    rw [bind_of_ok (require_of haccepting), bind_of_ok modify_apply]
    obtain ⟨g', hcommit, hsame, hruntime, hids, hbytes, -, hhistory, hmask⟩ :=
      commit_eq_ok g.checkpoint token [] { g with finished := true }
    rw [hcommit]
    have hset : SameSetting g { g with finished := true } := ⟨rfl, rfl, rfl, rfl, rfl, rfl, rfl⟩
    exact .advanced ⟨hset.trans hsame, hruntime ▸ .refl _, hfinished, hids,
      hbytes ▸ List.prefix_append _ _, hhistory, hmask⟩
  -- with the bytes of the token given, a step of either backend is committed alike
  · have hrest : ∀ bytes : Option (List UInt8), Advances token g ((do
        advanceRuntime token bytes
        commit g.checkpoint token (bytes.getD []) : Method RuntimeError Guide Unit) g) := by
      intro bytes
      rcases advanceRuntime_spec hcol token bytes with ⟨e, herr⟩ | ⟨runtime, hext, hok⟩
      · rw [bind_of_error herr]
        exact .failed e
      · rw [bind_of_ok hok]
        obtain ⟨g', hcommit, hsame, hruntime, hids, hbytes, -, hhistory, hmask⟩ :=
          commit_eq_ok g.checkpoint token (bytes.getD []) { g with runtime := runtime }
        rw [hcommit]
        have hset : SameSetting g { g with runtime := runtime } :=
          ⟨rfl, rfl, rfl, rfl, rfl, rfl, rfl⟩
        exact .advanced ⟨hset.trans hsame, hruntime ▸ hext, hfinished, hids,
          hbytes ▸ List.prefix_append _ _, hhistory, hmask⟩
    dsimp only
    cases hruntime : g.runtime with
    | dfa index state => exact hrest _
    | structural recognizer =>
      dsimp only
      by_cases hsome : (g.vocabulary.bind fun v => v.sharedBytes token).isSome = true
      · rw [bind_of_ok (require_of hsome)]
        exact hrest _
      · rw [bind_of_error (require_of_not hsome)]
        exact .failed _

/-! ### Two guides with the same core -/

theorem alike_retainCheckpoint {c c' : GuideCheckpoint} (h : SameCore g g') :
    Alike SameCore (retainCheckpoint c g) (retainCheckpoint c' g') := by
  refine alike_modify ?_
  rw [h.maxRollback]
  split
  · exact h
  · exact { h with maxRollback := rfl }

theorem alike_commit {c c' : GuideCheckpoint} (token : ℕ) (bytes : List UInt8)
    (h : SameCore g g') : Alike SameCore (commit c token bytes g) (commit c' token bytes g') :=
  alike_bind (alike_retainCheckpoint h) fun _ _ _ h =>
    alike_bind
      (alike_modify { h with
        committedTokenIds := congrArg (· ++ [token]) h.committedTokenIds
        committedBytes := congrArg (· ++ bytes) h.committedBytes })
      fun _ _ _ h => alike_modify { h with }

theorem alike_advanceRuntime (token : ℕ) (bytes : Option (List UInt8)) (h : SameCore g g') :
    Alike SameCore (advanceRuntime token bytes g) (advanceRuntime token bytes g') := by
  refine alike_get_bind ?_
  rw [h.runtime]
  cases g.runtime with
  | dfa index state =>
    exact alike_bind (alike_unwrap h) fun _ _ _ h => alike_modify { h with runtime := rfl }
  | structural recognizer =>
    refine alike_bind (alike_unwrap h) fun bytes _ _ h => alike_bind ?_ fun advance _ _ h =>
      alike_require Iff.rfl h
    unfold onRecognizer zoom
    cases RecognizerState.tryAdvanceBytes bytes recognizer with
    | ok a s => exact .ok { h with runtime := rfl }
    | error e s => exact .error { h with runtime := rfl }

theorem alike_advance (token : ℕ) (h : SameCore g g') :
    Alike SameCore (advance token g) (advance token g') := by
  refine alike_get_bind ?_
  rw [h.finished, h.committedTokenIds, h.limits, h.eosTokenId, h.isAccepting, h.vocabulary,
    h.runtime]
  refine alike_bind (alike_require Iff.rfl h) fun _ _ _ h =>
    alike_bind (alike_require Iff.rfl h) fun _ _ _ h =>
      alike_bind (alike_require Iff.rfl h) fun _ _ _ h => ?_
  split
  · exact alike_bind (alike_require Iff.rfl h) fun _ _ _ h =>
      alike_bind (alike_modify { h with finished := rfl }) fun _ _ _ h => alike_commit token [] h
  · cases g.runtime with
    | dfa index state =>
      exact alike_bind (alike_advanceRuntime token _ h) fun _ _ _ h => alike_commit token _ h
    | structural recognizer =>
      exact alike_bind (alike_require Iff.rfl h) fun _ _ _ h =>
        alike_bind (alike_advanceRuntime token _ h) fun _ _ _ h => alike_commit token _ h

/-! ### Replays -/

/-- The guide advances over the tokens one by one. -/
def Replays (g : Guide) : List ℕ → Guide → Prop
  | [], g' => g = g'
  | token :: tokens, g' => ∃ t, advance token g = .ok () t ∧ Replays t tokens g'

variable {initial r : Guide} {xs ys : List ℕ}

theorem replays_append :
    g.Replays (xs ++ ys) g' ↔ ∃ t, g.Replays xs t ∧ t.Replays ys g' := by
  induction xs generalizing g with
  | nil => simp [Replays]
  | cons token xs ih =>
    simp only [List.cons_append, Replays, ih]
    constructor
    · rintro ⟨u, hu, t, ht, h⟩
      exact ⟨t, ⟨u, hu, ht⟩, h⟩
    · rintro ⟨t, ⟨u, hu, ht⟩, h⟩
      exact ⟨u, hu, t, ht, h⟩

theorem Replays.unique {g'' : Guide} (h : g.Replays xs g') (h' : g.Replays xs g'') : g' = g'' := by
  induction xs generalizing g with
  | nil => exact h.symm.trans h'
  | cons token xs ih =>
    obtain ⟨t, ht, h⟩ := h
    obtain ⟨t', ht', h'⟩ := h'
    rw [ht] at ht'
    obtain rfl := (EStateM.Result.ok.inj ht').2
    exact ih h h'

/-- The guide has advanced over the tokens. -/
structure Ahead (tokens : List ℕ) (g g' : Guide) : Prop extends SameSetting g g' where
  runtime : g.runtime.Extends g'.runtime
  committedTokenIds : g'.committedTokenIds = g.committedTokenIds ++ tokens
  committedBytes : g.committedBytes <+: g'.committedBytes

theorem advanced_of_ok {token : ℕ} (hcol : g.runtime.HasColumn) {u : Unit}
    (h : advance token g = .ok u g') : Advanced token g g' := by
  have hspec := advance_spec hcol token
  rw [h] at hspec
  cases hspec with
  | advanced h => exact h

theorem Replays.ahead (hcol : g.runtime.HasColumn) (h : g.Replays xs g') : Ahead xs g g' := by
  induction xs generalizing g with
  | nil =>
    obtain rfl := h
    exact ⟨.refl g, .refl _, (List.append_nil _).symm, List.prefix_refl _⟩
  | cons token xs ih =>
    obtain ⟨t, ht, h⟩ := h
    have hadv := advanced_of_ok hcol ht
    have hrest := ih (hadv.runtime.hasColumn hcol) h
    refine ⟨hadv.toSameSetting.trans hrest.toSameSetting, hadv.runtime.trans hrest.runtime, ?_,
      hadv.committedBytes.trans hrest.committedBytes⟩
    rw [hrest.committedTokenIds, hadv.committedTokenIds, List.append_assoc, List.singleton_append]

/-- The checkpoint of a guide is restored wherever the guide has got to. -/
theorem restoreGuide_of_ahead (hcol : r.runtime.HasColumn) (h : Ahead xs r g) :
    ∃ g', restoreGuide r.checkpoint g = .ok () g' ∧ SameCore r g' ∧ g'.history = g.history := by
  have hids : g.committedTokenIds.take r.committedTokenIds.length = r.committedTokenIds := by
    rw [h.committedTokenIds, List.take_left]
  have hbytes : g.committedBytes.take r.committedBytes.length = r.committedBytes :=
    (List.prefix_iff_eq_take.1 h.committedBytes).symm
  have hext := h.runtime
  unfold restoreGuide checkpoint
  rw [bind_of_ok get_apply]
  cases hr : r.runtime with
  | dfa index state =>
    rw [hr] at hext
    cases hg : g.runtime with
    | structural recognizer =>
      rw [hg] at hext
      cases hext
    | dfa index' state' =>
      rw [hg] at hext
      cases hext
      exact ⟨_, rfl, { h with
        runtime := hr.symm, finished := rfl, committedTokenIds := hids,
          committedBytes := hbytes }, rfl⟩
  | structural recognizer =>
    rw [hr] at hext hcol
    cases hg : g.runtime with
    | dfa index' state' =>
      rw [hg] at hext
      cases hext
    | structural now =>
      rw [hg] at hext
      cases hext with
      | structural hext =>
        dsimp only
        rw [bind_of_ok (onRecognizer_eq_ok g (RecognizerState.restore_of_extends hcol hext)),
          modify_apply]
        exact ⟨_, rfl, { h with
          runtime := hr.symm, finished := rfl, committedTokenIds := hids,
          committedBytes := hbytes }, rfl⟩

end Guide

end OcEarley

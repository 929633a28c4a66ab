import OcEarley.Earley.Frame
import OcEarley.Earley.Language
import OcEarley.Engine.Recognizer
import OcEarley.Lalr.Frame

/-!
# Advancing is a transaction

A call of `tryAdvanceBytes` that rejects its bytes or fails leaves the recognizer as it was
(`advance_transactional`), and one that succeeds is the composition of its steps
(`RecognizerState.tryAdvanceBytes_eq_ok_iff`).  What makes the checkpoint good enough is the
relation `Extends r s`: whatever `s` has become, the checkpoint of `r` still restores `r` there.
-/

namespace OcEarley

open Method

/-! ### Parts of the receiver -/

namespace Method

variable {ε σ τ α : Type} {wrap : σ → τ} {m : Method ε σ α} {s : σ}

theorem stateOf_zoom : stateOf (zoom wrap m s) = wrap (stateOf (m s)) := by
  unfold zoom
  cases m s <;> rfl

end Method

/-! ### The automaton -/

namespace DfaRecognizer

/-- The recognizers are for the same automaton and have the same limits and generation. -/
structure SameMachine (s s' : DfaRecognizer) : Prop where
  dfa : s'.dfa = s.dfa
  limits : s'.limits = s.limits
  generation : s'.generation = s.generation

instance : Std.Refl SameMachine := ⟨fun _ => ⟨rfl, rfl, rfl⟩⟩

instance : IsTrans DfaRecognizer SameMachine where
  trans _ _ _ h h' := ⟨h'.dfa.trans h.dfa, h'.limits.trans h.limits,
    h'.generation.trans h.generation⟩

theorem moves_advanceByte (byte : UInt8) : Moves SameMachine (advanceByte byte) := by
  refine moves_bind moves_get fun self => moves_bind (moves_require _) fun _ => ?_
  dsimp only
  split
  · exact moves_pure _
  · exact moves_bind (moves_modify fun _ => ⟨rfl, rfl, rfl⟩) fun _ =>
      moves_bind (moves_require _) fun _ =>
        moves_bind (moves_modify fun _ => ⟨rfl, rfl, rfl⟩) fun _ => moves_pure _

end DfaRecognizer

/-! ### Checkpoints that still hold -/

namespace RecognizerState

/-- `s` differs from `r` in what the checkpoint of `r` restores only. -/
inductive Extends : RecognizerState → RecognizerState → Prop
  | dfa {r s : DfaRecognizer} (h : r.SameMachine s) : Extends (.dfa r) (.dfa s)
  | lalr {r s : LalrRecognizer} (h : r.SameMachine s) : Extends (.lalr r) (.lalr s)
  | earley {r s : EarleyRecognizer} (h : r.Keeps r.chart.length s) :
    Extends (.earley r) (.earley s)

/-- There is a column to go back to. -/
def HasColumn : RecognizerState → Prop
  | .earley r => r.chart ≠ []
  | _ => True

variable {r s t : RecognizerState} {bytes xs ys : List UInt8} {a : Advance} {e : RuntimeError}

theorem Extends.refl (r : RecognizerState) : r.Extends r := by
  cases r with
  | dfa r => exact .dfa (refl_of _ r)
  | lalr r => exact .lalr (refl_of _ r)
  | earley r => exact .earley (refl_of _ r)

theorem Extends.trans (h : r.Extends s) (h' : s.Extends t) : r.Extends t := by
  cases h with
  | dfa h => cases h' with | dfa h' => exact .dfa (trans_of _ h h')
  | lalr h => cases h' with | lalr h' => exact .lalr (trans_of _ h h')
  | @earley r s h =>
    cases h' with
    | earley h' =>
      -- the columns of the first recognizer are among those of the second
      refine .earley (trans_of _ h ⟨h'.compiled, h'.limits, h'.leoEnabled, h'.generation, ?_,
        h'.length_le⟩)
      have key := congrArg (List.take r.chart.length) h'.take
      rwa [List.take_take, List.take_take, min_eq_left h.length_le] at key

theorem extends_advanceByte (byte : UInt8) (s : RecognizerState) :
    s.Extends (stateOf (advanceByte byte s)) := by
  cases s with
  | dfa s =>
    change Extends _ (stateOf (zoom _ _ s))
    rw [stateOf_zoom]
    exact .dfa (DfaRecognizer.moves_advanceByte byte s)
  | lalr s =>
    change Extends _ (stateOf (zoom _ _ s))
    rw [stateOf_zoom]
    exact .lalr (LalrRecognizer.moves_advanceByte byte s)
  | earley s =>
    change Extends _ (stateOf (zoom _ _ s))
    rw [stateOf_zoom]
    exact .earley (EarleyRecognizer.keeps_advanceByte byte s)

/-- A checkpoint can be restored wherever its recognizer has been extended to. -/
theorem restore_of_extends (hr : r.HasColumn) (h : r.Extends s) :
    restore r.checkpoint s = .ok () r := by
  cases h with
  | @dfa r s h =>
    have hok : DfaRecognizer.restore r.checkpoint s = .ok () r := by
      simp only [DfaRecognizer.restore, bind_eq_ok, get_eq_ok, require_eq_ok, modify_eq_ok]
      refine ⟨s, s, ⟨rfl, rfl⟩, (), s, ⟨h.generation.symm, rfl⟩, ?_⟩
      simp [DfaRecognizer.checkpoint, h.dfa, h.limits, h.generation]
    simp [restore, checkpoint, zoom, hok]
  | @lalr r s h =>
    have hok : LalrRecognizer.restore r.checkpoint s = .ok () r := by
      simp only [LalrRecognizer.restore, bind_eq_ok, get_eq_ok, require_eq_ok, modify_eq_ok]
      refine ⟨s, s, ⟨rfl, rfl⟩, (), s, ⟨h.generation.symm, rfl⟩, ?_⟩
      simp [LalrRecognizer.checkpoint, h.compiled, h.limits, h.generation]
    simp [restore, checkpoint, zoom, hok]
  | @earley r s h =>
    have hok : EarleyRecognizer.restore r.checkpoint s = .ok () r := by
      simp only [EarleyRecognizer.restore, bind_eq_ok, get_eq_ok, require_eq_ok, modify_eq_ok]
      refine ⟨s, s, ⟨rfl, rfl⟩, (), s, ⟨h.generation.symm, rfl⟩, (), s,
        ⟨⟨List.length_pos_iff.2 hr |>.ne', h.length_le⟩, rfl⟩, ?_⟩
      have htake : s.chart.take r.chart.length = r.chart := by rw [h.take, List.take_length]
      simp [EarleyRecognizer.checkpoint, htake, h.compiled, h.limits, h.leoEnabled,
        h.generation]
    simp [restore, checkpoint, zoom, hok]

/-! ### Runs -/

/-- The answer after all bytes were consumed. -/
def outcome (s : RecognizerState) : Advance := if s.isAccepting then .accepting else .live

/-- The bytes are consumed one by one. -/
def Consumes (s : RecognizerState) : List UInt8 → RecognizerState → Prop
  | [], s' => s = s'
  | byte :: bytes, s' => ∃ t, advanceByte byte s = .ok true t ∧ Consumes t bytes s'

theorem outcome_ne_rejected (s : RecognizerState) : s.outcome ≠ .rejected := by
  unfold outcome
  split <;> simp

theorem consumes_append :
    s.Consumes (xs ++ ys) t ↔ ∃ u, s.Consumes xs u ∧ u.Consumes ys t := by
  induction xs generalizing s with
  | nil => simp [Consumes]
  | cons byte xs ih =>
    simp only [List.cons_append, Consumes, ih]
    constructor
    · rintro ⟨v, hv, u, hu, ht⟩
      exact ⟨u, ⟨v, hv, hu⟩, ht⟩
    · rintro ⟨u, ⟨v, hv, hu⟩, ht⟩
      exact ⟨v, hv, u, hu, ht⟩

theorem Consumes.extends (h : s.Consumes bytes t) : s.Extends t := by
  induction bytes generalizing s with
  | nil => exact h ▸ .refl s
  | cons byte bytes ih =>
    obtain ⟨u, hu, h⟩ := h
    have hstep := extends_advanceByte byte s
    rw [hu] at hstep
    exact hstep.trans (ih h)

theorem Consumes.unique {t' : RecognizerState} (h : s.Consumes bytes t)
    (h' : s.Consumes bytes t') : t = t' := by
  induction bytes generalizing s with
  | nil => exact h.symm.trans h'
  | cons byte bytes ih =>
    obtain ⟨u, hu, h⟩ := h
    obtain ⟨u', hu', h'⟩ := h'
    obtain rfl : u = u' := by
      rw [hu] at hu'
      exact (EStateM.Result.ok.inj hu').2
    exact ih h h'

theorem advanceLoop_cons {checkpoint : RecognizerCheckpoint} {byte : UInt8} :
    advanceLoop checkpoint (byte :: bytes) s =
      match advanceByte byte s with
      | .ok true s => advanceLoop checkpoint bytes s
      | .ok false s => (RecognizerState.restore checkpoint >>= fun _ => pure Advance.rejected) s
      | .error error s => (RecognizerState.restore checkpoint >>= fun _ => throw error) s :=
  rfl

theorem advanceLoop_of_consumes {checkpoint : RecognizerCheckpoint} (h : s.Consumes bytes t) :
    advanceLoop checkpoint bytes s = .ok t.outcome t := by
  induction bytes generalizing s with
  | nil => exact h ▸ rfl
  | cons byte bytes ih =>
    obtain ⟨u, hu, h⟩ := h
    rw [advanceLoop_cons, hu]
    exact ih h

/-- A run of the loop either consumes all bytes, or ends where its checkpoint was taken. -/
theorem advanceLoop_spec (hr : r.HasColumn) (h : r.Extends s) :
    (∃ t, s.Consumes bytes t) ∨ advanceLoop r.checkpoint bytes s = .ok .rejected r ∨
      ∃ e, advanceLoop r.checkpoint bytes s = .error e r := by
  induction bytes generalizing s with
  | nil => exact .inl ⟨s, rfl⟩
  | cons byte bytes ih =>
    have hext := h.trans (extends_advanceByte byte s)
    rw [advanceLoop_cons]
    cases hbyte : advanceByte byte s with
    | ok live t =>
      rw [hbyte] at hext
      cases live with
      | true =>
        refine (ih hext).imp_left ?_
        rintro ⟨u, hu⟩
        exact ⟨u, t, hbyte, hu⟩
      | false =>
        refine .inr (.inl ?_)
        exact bind_eq_ok.2 ⟨(), r, restore_of_extends hr hext, rfl⟩
    | error e t =>
      rw [hbyte] at hext
      refine .inr (.inr ⟨e, ?_⟩)
      exact bind_eq_error.2 (.inr ⟨(), r, restore_of_extends hr hext, rfl⟩)

theorem tryAdvanceBytes_of_consumes (h : r.Consumes bytes t) :
    tryAdvanceBytes bytes r = .ok t.outcome t :=
  advanceLoop_of_consumes h

/-- One call of `tryAdvanceBytes`. -/
theorem tryAdvanceBytes_spec (hr : r.HasColumn) (bytes : List UInt8) :
    (∃ t, r.Consumes bytes t) ∨
      tryAdvanceBytes bytes r = .ok .rejected r ∨ ∃ e, tryAdvanceBytes bytes r = .error e r :=
  advanceLoop_spec hr (.refl r)

theorem tryAdvanceBytes_eq_ok_iff (hr : r.HasColumn) (ha : a ≠ .rejected) :
    tryAdvanceBytes bytes r = .ok a t ↔ r.Consumes bytes t ∧ a = t.outcome := by
  constructor
  · intro h
    rcases tryAdvanceBytes_spec hr bytes with ⟨u, hu⟩ | hrej | ⟨e, herr⟩
    · rw [tryAdvanceBytes_of_consumes hu] at h
      obtain ⟨rfl, rfl⟩ := EStateM.Result.ok.inj h
      exact ⟨hu, rfl⟩
    · rw [hrej] at h
      exact absurd (EStateM.Result.ok.inj h).1.symm ha
    · rw [herr] at h
      cases h
  · rintro ⟨ht, rfl⟩
    exact tryAdvanceBytes_of_consumes ht

/-! ### Reachable recognizers -/

/-- A fresh recognizer of one of the backends. -/
inductive Fresh : RecognizerState → Prop
  | dfa (dfa : CompiledByteDfa) (limits : RuntimeLimits) (generation : ℕ) :
    Fresh (.dfa (dfa.recognizer limits generation))
  | lalr (compiled : CompiledLalr) (limits : RuntimeLimits) (generation : ℕ) :
    Fresh (.lalr (compiled.recognizer limits generation))
  | earley {compiled : CompiledEarley} {limits : RuntimeLimits} {leo : Bool} {generation : ℕ}
    {r : EarleyRecognizer} (h : compiled.recognizer limits leo generation = .ok r) :
    Fresh (.earley r)

/-- The recognizers that calls of `tryAdvanceBytes` and `restore` lead to,
whatever their results are. -/
inductive Reachable : RecognizerState → Prop
  | fresh {r : RecognizerState} (h : r.Fresh) : Reachable r
  | advance {r : RecognizerState} (h : Reachable r) (bytes : List UInt8) :
    Reachable (stateOf (tryAdvanceBytes bytes r))
  | restore {r : RecognizerState} (h : Reachable r) (checkpoint : RecognizerCheckpoint) :
    Reachable (stateOf (restore checkpoint r))

theorem Fresh.hasColumn (h : r.Fresh) : r.HasColumn := by
  cases h with
  | dfa => trivial
  | lalr => trivial
  | @earley compiled limits leo generation r h =>
    obtain ⟨-, -, h⟩ := Result.bind_eq_ok.1 h
    have hkeep := CompiledEarley.keeps_prepare (compiled.blank limits leo generation)
    cases hprep : CompiledEarley.prepare (compiled.blank limits leo generation) with
    | ok u s =>
      rw [hprep] at h hkeep
      obtain rfl := Result.pure_eq_ok.1 h
      exact List.length_pos_iff.1 (Nat.lt_of_lt_of_le Nat.zero_lt_one hkeep.length_le)
    | error e s =>
      rw [hprep] at h
      cases h

theorem Extends.hasColumn (h : r.Extends s) (hr : r.HasColumn) : s.HasColumn := by
  cases h with
  | dfa => trivial
  | lalr => trivial
  | earley h => exact List.length_pos_iff.1 ((List.length_pos_iff.2 hr).trans_le h.length_le)

theorem hasColumn_restore (hr : r.HasColumn) (checkpoint : RecognizerCheckpoint) :
    (stateOf (RecognizerState.restore checkpoint r)).HasColumn := by
  cases r with
  | dfa r =>
    cases checkpoint with
    | dfa checkpoint =>
      change HasColumn (stateOf (zoom _ _ r))
      rw [stateOf_zoom]
      trivial
    | _ => trivial
  | lalr r =>
    cases checkpoint with
    | lalr checkpoint =>
      change HasColumn (stateOf (zoom _ _ r))
      rw [stateOf_zoom]
      trivial
    | _ => trivial
  | earley r =>
    cases checkpoint with
    | earley checkpoint =>
      change HasColumn (stateOf (zoom _ _ r))
      rw [stateOf_zoom]
      change (stateOf (EarleyRecognizer.restore checkpoint r)).chart ≠ []
      unfold EarleyRecognizer.restore
      rw [stateOf_get_bind]
      refine stateOf_require_bind (P := fun s : EarleyRecognizer => s.chart ≠ []) hr ?_
      by_cases hcount : checkpoint.columnCount ≠ 0 ∧ checkpoint.columnCount ≤ r.chart.length
      · rw [stateOf_require_bind_of hcount]
        have hpos := List.length_pos_iff.2 hr
        refine List.length_pos_iff.1 ?_
        change 0 < (r.chart.take checkpoint.columnCount).length
        rw [List.length_take]
        omega
      · rwa [stateOf_require_bind_of_not hcount]
    | _ => exact hr

theorem Reachable.hasColumn (h : r.Reachable) : r.HasColumn := by
  induction h with
  | fresh h => exact h.hasColumn
  | @advance r h bytes ih =>
    rcases tryAdvanceBytes_spec ih bytes with ⟨t, ht⟩ | h | ⟨e, h⟩
    · rw [tryAdvanceBytes_of_consumes ht]
      exact ht.extends.hasColumn ih
    · rwa [h]
    · rwa [h]
  | restore h checkpoint ih => exact hasColumn_restore ih checkpoint

end RecognizerState

/-- **Advancing is transactional.**  For every backend and every reachable recognizer, a call of
`try_advance_bytes` that rejects its bytes or fails leaves every field of the recognizer as it was;
and a call that succeeds on a concatenation ends where the calls on the two parts end. -/
theorem advance_transactional {r : RecognizerState} (hr : r.Reachable) (xs ys : List UInt8) :
    (∀ s, RecognizerState.tryAdvanceBytes xs r = .ok .rejected s → s = r) ∧
    (∀ e s, RecognizerState.tryAdvanceBytes xs r = .error e s → s = r) ∧
    ∀ a s, RecognizerState.tryAdvanceBytes (xs ++ ys) r = .ok a s → a ≠ .rejected →
      ∃ b t, RecognizerState.tryAdvanceBytes xs r = .ok b t ∧ b ≠ .rejected ∧
        RecognizerState.tryAdvanceBytes ys t = .ok a s := by
  have hcol := hr.hasColumn
  refine ⟨fun s h => ?_, fun e s h => ?_, fun a s h ha => ?_⟩
  · rcases RecognizerState.tryAdvanceBytes_spec hcol xs with ⟨t, ht⟩ | h' | ⟨e, h'⟩
    · rw [RecognizerState.tryAdvanceBytes_of_consumes ht] at h
      exact absurd (EStateM.Result.ok.inj h).1 t.outcome_ne_rejected
    · rw [h'] at h
      exact (EStateM.Result.ok.inj h).2.symm
    · rw [h'] at h
      cases h
  · rcases RecognizerState.tryAdvanceBytes_spec hcol xs with ⟨t, ht⟩ | h' | ⟨e, h'⟩
    · rw [RecognizerState.tryAdvanceBytes_of_consumes ht] at h
      cases h
    · rw [h'] at h
      cases h
    · rw [h'] at h
      exact (EStateM.Result.error.inj h).2.symm
  · obtain ⟨hs, rfl⟩ := (RecognizerState.tryAdvanceBytes_eq_ok_iff hcol ha).1 h
    obtain ⟨t, hxs, hys⟩ := RecognizerState.consumes_append.1 hs
    exact ⟨t.outcome, t, RecognizerState.tryAdvanceBytes_of_consumes hxs, t.outcome_ne_rejected,
      RecognizerState.tryAdvanceBytes_of_consumes hys⟩

/-- The recognizer of the sample grammar under a limit of one byte. -/
def limitedRecognizer : EarleyRecognizer :=
  stateOf (CompiledEarley.prepare
    (rightRecursiveEarley.blank { RuntimeLimits.default with maxInputBytes := 1 } true 1))

theorem recognizer_eq_limitedRecognizer :
    rightRecursiveEarley.recognizer { RuntimeLimits.default with maxInputBytes := 1 } true 1 =
      .ok limitedRecognizer :=
  CompiledEarley.recognizer_eq_ok (by decide) (by decide +kernel)

theorem advance_transactional_limitedRecognizer :
    RecognizerState.tryAdvanceBytes [98] (.earley limitedRecognizer) =
        .ok .rejected (.earley limitedRecognizer) ∧
      RecognizerState.tryAdvanceBytes [97, 97] (.earley limitedRecognizer) =
        .error (.resourceLimitExceeded .inputBytes 2 1) (.earley limitedRecognizer) := by
  have hr : RecognizerState.Reachable (.earley limitedRecognizer) :=
    .fresh (.earley recognizer_eq_limitedRecognizer)
  have hrejected : valueOf (RecognizerState.tryAdvanceBytes [98] (.earley limitedRecognizer)) =
      .ok .rejected := by decide +kernel
  have hlimited : valueOf (RecognizerState.tryAdvanceBytes [97, 97] (.earley limitedRecognizer)) =
      .error (.resourceLimitExceeded .inputBytes 2 1) := by decide +kernel
  rw [valueOf_eq_ok] at hrejected
  rw [valueOf_eq_error] at hlimited
  constructor
  · rw [hrejected, (advance_transactional hr [98] []).1 _ hrejected]
  · rw [hlimited, (advance_transactional hr [97, 97] []).2.1 _ _ hlimited]

end OcEarley

import OcEarley.Earley.Limits
import OcEarley.Engine.History
import OcEarley.Lalr.Limits

/-!
# Runs under higher limits

Of two recognizers that differ in their limits, the one with the higher limits consumes whatever the
other one consumes (`RecognizerState.Consumes.relax`), and a chunk of bytes gets the same answer
from both unless it exceeds a limit of the other one (`RecognizerState.advances_relax`).

The exceptions are the probes: `is_accepting` and `is_live` of an LALR recognizer answer `false`
when a limit is exceeded.  Where no probe exceeds a limit, a limit never changes an answer and never
clears a bit of a mask (`limits_only_fail`).
-/

namespace OcEarley

open Method

namespace RecognizerState

variable {higher : RuntimeLimits} {generation : ℕ} {r s t u : RecognizerState} {bytes : List UInt8}

/-- The limits that the recognizer was made with. -/
def limits : RecognizerState → RuntimeLimits
  | .dfa recognizer => recognizer.limits
  | .lalr recognizer => recognizer.limits
  | .earley recognizer => recognizer.limits

/-- The recognizer with other limits. -/
def relax (higher : RuntimeLimits) (generation : ℕ) : RecognizerState → RecognizerState
  | .dfa recognizer => .dfa { recognizer with limits := higher, generation := generation }
  | .lalr recognizer => .lalr (recognizer.relax higher generation)
  | .earley recognizer => .earley (recognizer.relax higher generation)

/-- The second recognizer is the first one with higher limits. -/
def Relaxed (higher : RuntimeLimits) (generation : ℕ) (s t : RecognizerState) : Prop :=
  s.limits.Within higher ∧ t = s.relax higher generation

/-- The probe of `is_accepting`, if it makes one, exceeds no limit. -/
def AcceptanceFits : RecognizerState → Prop
  | .lalr recognizer => recognizer.AcceptanceFits
  | _ => True

/-- The probes of `is_live`, if it makes some, exceed no limit. -/
def LivenessFits : RecognizerState → Prop
  | .lalr recognizer => recognizer.AcceptanceFits ∧ recognizer.LivenessFits
  | _ => True

/-! ### One byte -/

theorem follows_advanceByte (byte : UInt8) :
    Follows RuntimeError.IsLimit (Relaxed higher generation) (advanceByte byte)
      (advanceByte byte) := by
  rintro s _ ⟨hs, rfl⟩
  cases s with
  | dfa s =>
    have hbyte : Agrees RuntimeError.IsLimit (fun s t : DfaRecognizer => s.limits.Within higher ∧
        t = { s with limits := higher, generation := generation })
          (DfaRecognizer.advanceByte byte s)
        (DfaRecognizer.advanceByte byte { s with limits := higher, generation := generation }) := by
      refine follows_get_bind ?_ s _ ⟨hs, rfl⟩
      rintro s _ ⟨hs, rfl⟩
      refine follows_bind (follows_enforceRuntimeLimit _ _ hs.maxInputBytes) fun _ => ?_
      dsimp only
      split
      · exact follows_pure _
      · exact follows_bind (follows_modify fun _ _ h => ⟨h.1, h.2 ▸ rfl⟩) fun _ =>
          follows_bind (follows_require _ _) fun _ =>
            follows_bind (follows_modify fun _ _ h => ⟨h.1, h.2 ▸ rfl⟩) fun _ => follows_pure _
    exact agrees_zoom hbyte fun s t h => ⟨h.1, h.2 ▸ rfl⟩
  | lalr s =>
    exact agrees_zoom (LalrRecognizer.follows_advanceByte byte s _ ⟨hs, rfl⟩)
      fun s t h => ⟨h.1, h.2 ▸ rfl⟩
  | earley s =>
    exact agrees_zoom (EarleyRecognizer.follows_advanceByte byte s _ ⟨hs, rfl⟩)
      fun s t h => ⟨h.1, h.2 ▸ rfl⟩

theorem isAccepting_relax (hs : s.limits.Within higher) (hfits : s.AcceptanceFits) :
    (s.relax higher generation).isAccepting = s.isAccepting := by
  cases s with
  | dfa s => rfl
  | lalr s => exact LalrRecognizer.isAccepting_relax hs hfits
  | earley s => rfl

theorem acceptanceFits_of_isAccepting (h : s.isAccepting = true) : s.AcceptanceFits := by
  cases s with
  | dfa s => trivial
  | lalr s => exact LalrRecognizer.acceptanceFits_of_isAccepting h
  | earley s => trivial

theorem isLive_relax (hs : s.limits.Within higher) (hfits : s.LivenessFits) :
    (s.relax higher generation).isLive = s.isLive := by
  cases s with
  | dfa s => rfl
  | lalr s => exact LalrRecognizer.isLive_relax hs hfits.1 hfits.2
  | earley s => rfl

/-! ### Chunks of bytes -/

theorem Extends.relax (h : s.Extends t) (higher : RuntimeLimits) (generation : ℕ) :
    (s.relax higher generation).Extends (t.relax higher generation) := by
  cases h with
  | dfa h => exact .dfa ⟨h.dfa, rfl, rfl⟩
  | lalr h => exact .lalr ⟨h.compiled, rfl, rfl⟩
  | earley h => exact .earley ⟨h.compiled, rfl, h.leoEnabled, rfl, h.take, h.length_le⟩

theorem Extends.limits_eq (h : s.Extends t) : t.limits = s.limits := by
  cases h with
  | dfa h => exact h.limits
  | lalr h => exact h.limits
  | earley h => exact h.limits

theorem hasColumn_relax (h : s.HasColumn) (higher : RuntimeLimits) (generation : ℕ) :
    (s.relax higher generation).HasColumn := by
  cases s with
  | dfa s => trivial
  | lalr s => trivial
  | earley s => exact h

/-- **What is consumed is consumed under higher limits.** -/
theorem Consumes.relax (h : s.Consumes bytes t) (hs : s.limits.Within higher) :
    (s.relax higher generation).Consumes bytes (t.relax higher generation) := by
  induction bytes generalizing s with
  | nil => exact congrArg _ h
  | cons byte bytes ih =>
    obtain ⟨u, hu, h⟩ := h
    have hagrees : Agrees RuntimeError.IsLimit (Relaxed higher generation) _ _ :=
      follows_advanceByte byte s _ ⟨hs, rfl⟩
    rw [hu] at hagrees
    obtain ⟨_, hu', hlimits, rfl⟩ := hagrees.of_ok
    exact ⟨_, hu', ih h hlimits⟩

/-- What a chunk of bytes does under lower and under higher limits. -/
inductive Advances (higher : RuntimeLimits) (generation : ℕ) (s : RecognizerState)
    (bytes : List UInt8) : Prop
  | consumed {t : RecognizerState} (h : s.Consumes bytes t)
    (h' : (s.relax higher generation).Consumes bytes (t.relax higher generation))
  | rejected (h : tryAdvanceBytes bytes s = .ok .rejected s)
    (h' : tryAdvanceBytes bytes (s.relax higher generation) =
      .ok .rejected (s.relax higher generation))
  | failed {e : RuntimeError} (h : tryAdvanceBytes bytes s = .error e s)
    (h' : tryAdvanceBytes bytes (s.relax higher generation) =
      .error e (s.relax higher generation))
  | limited {e : RuntimeError} (he : e.IsLimit) (h : tryAdvanceBytes bytes s = .error e s)

theorem advances_relax (hcol : s.HasColumn) (hs : s.limits.Within higher) :
    s.Advances higher generation bytes := by
  -- the loop has come from `s` to `t`
  suffices hloop : ∀ {bytes t}, s.Extends t → (∃ u, t.Consumes bytes u) ∨
      (advanceLoop s.checkpoint bytes t = .ok .rejected s ∧
        advanceLoop (s.relax higher generation).checkpoint bytes (t.relax higher generation) =
          .ok .rejected (s.relax higher generation)) ∨
      ∃ e, advanceLoop s.checkpoint bytes t = .error e s ∧ (e.IsLimit ∨
        advanceLoop (s.relax higher generation).checkpoint bytes (t.relax higher generation) =
          .error e (s.relax higher generation)) by
    rcases @hloop bytes s (.refl s) with ⟨u, hu⟩ | ⟨h, h'⟩ | ⟨e, h, he | h'⟩
    · exact .consumed hu (hu.relax hs)
    · exact .rejected h h'
    · exact .limited he h
    · exact .failed h h'
  intro bytes
  induction bytes with
  | nil => exact fun _ => .inl ⟨_, rfl⟩
  | cons byte bytes ih =>
    intro t ht
    have hext := ht.trans (extends_advanceByte byte t)
    have hext' := (ht.relax higher generation).trans
      (extends_advanceByte byte _)
    have hagrees : Agrees RuntimeError.IsLimit (Relaxed higher generation) _ _ :=
      follows_advanceByte byte t _ ⟨ht.limits_eq ▸ hs, rfl⟩
    have hcol' := hasColumn_relax hcol higher generation
    rw [advanceLoop_cons, advanceLoop_cons]
    have hbyte : ∀ u, advanceByte byte t = .ok true u → (∃ v, u.Consumes bytes v) →
        ∃ v, t.Consumes (byte :: bytes) v := fun u hu ⟨v, hv⟩ => ⟨v, u, hu, hv⟩
    generalize advanceByte byte t = x at hext hext' hagrees hbyte
    generalize advanceByte byte (t.relax higher generation) = y at hext' hagrees
    cases hagrees with
    | stop he =>
      exact .inr (.inr ⟨_, bind_eq_error.2
        (.inr ⟨(), s, restore_of_extends hcol hext, rfl⟩), .inl he⟩)
    | @ok live u u' hu =>
      obtain ⟨-, rfl⟩ := hu
      cases live with
      | true => exact (ih hext).imp_left (hbyte u rfl)
      | false =>
        exact .inr (.inl ⟨bind_eq_ok.2 ⟨(), s, restore_of_extends hcol hext, rfl⟩,
          bind_eq_ok.2 ⟨(), _, restore_of_extends hcol' hext', rfl⟩⟩)
    | @error e u u' =>
      exact .inr (.inr ⟨e, bind_eq_error.2 (.inr ⟨(), s, restore_of_extends hcol hext, rfl⟩),
        .inr (bind_eq_error.2 (.inr ⟨(), _, restore_of_extends hcol' hext', rfl⟩))⟩)

/-- The answers to a chunk of bytes. -/
theorem Advances.valueOf (h : s.Advances higher generation bytes) (hs : s.limits.Within higher)
    (hfits : ∀ t, s.Consumes bytes t → t.AcceptanceFits) :
    (∃ e : RuntimeError, e.IsLimit ∧ valueOf (tryAdvanceBytes bytes s) = .error e) ∨
      valueOf (tryAdvanceBytes bytes s) = valueOf
        (tryAdvanceBytes bytes (s.relax higher generation)) := by
  cases h with
  | @consumed t h h' =>
    rw [tryAdvanceBytes_of_consumes h, tryAdvanceBytes_of_consumes h']
    have hacc : (t.relax higher generation).isAccepting = t.isAccepting :=
      isAccepting_relax (h.extends.limits_eq ▸ hs) (hfits t h)
    refine .inr (congrArg Except.ok ?_)
    unfold outcome
    rw [hacc]
  | rejected h h' =>
    rw [h, h']
    exact .inr rfl
  | failed h h' =>
    rw [h, h']
    exact .inr rfl
  | limited he h =>
    rw [h]
    exact .inl ⟨_, he, rfl⟩

/-! ### Fresh recognizers -/

/-- What is made within some limits is made within higher ones. -/
theorem Fresh.relax (h : r.Fresh) (hs : r.limits.Within higher) (generation : ℕ) :
    (r.relax higher generation).Fresh := by
  cases h with
  | dfa dfa limits => exact .dfa dfa higher generation
  | lalr compiled limits => exact .lalr compiled higher generation
  | earley h =>
    exact .earley (CompiledEarley.recognizer_relax h hs generation)

end RecognizerState

theorem CompiledSchema.recognizer_relax {compiled : CompiledSchema} {limits higher : RuntimeLimits}
    {generation : ℕ} {r : RecognizerState} (h : compiled.recognizer limits generation = .ok r)
    (hs : limits.Within higher) (generation' : ℕ) :
    r.limits = limits ∧
      compiled.recognizer higher generation' = .ok (r.relax higher generation') := by
  unfold CompiledSchema.recognizer at h ⊢
  cases hbackend : compiled.backend with
  | dfa index =>
    rw [hbackend] at h
    obtain ⟨dfa, hdfa, h⟩ := Result.bind_eq_ok.1 h
    obtain rfl := Result.pure_eq_ok.1 h
    exact ⟨rfl, Result.bind_eq_ok.2 ⟨dfa, hdfa, rfl⟩⟩
  | lalr table =>
    rw [hbackend] at h
    obtain rfl := Result.pure_eq_ok.1 h
    exact ⟨rfl, rfl⟩
  | earley table =>
    rw [hbackend] at h
    obtain ⟨recognizer, hrec, h⟩ := Result.bind_eq_ok.1 h
    obtain rfl := Result.pure_eq_ok.1 h
    have hlimits : recognizer.limits = limits := CompiledEarley.limits_of_recognizer hrec
    exact ⟨hlimits, Result.bind_eq_ok.2
      ⟨_, CompiledEarley.recognizer_relax hrec (hlimits.symm ▸ hs) generation', rfl⟩⟩

end OcEarley

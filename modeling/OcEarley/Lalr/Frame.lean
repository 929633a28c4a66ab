import OcEarley.Lalr.Recognizer

/-!
# What the methods of the LALR recognizer leave alone

Every path through `advanceByte`, the failing ones included, keeps the table, the limits and the
generation (`LalrRecognizer.SameMachine`), and the reductions change nothing but the statistics
(`SameButStats`).
-/

namespace OcEarley

open Method

namespace LalrRecognizer

/-- The recognizers are for the same table and have the same limits and generation. -/
structure SameMachine (s s' : LalrRecognizer) : Prop where
  compiled : s'.compiled = s.compiled
  limits : s'.limits = s.limits
  generation : s'.generation = s.generation

instance : Std.Refl SameMachine := ⟨fun _ => ⟨rfl, rfl, rfl⟩⟩

instance : IsTrans LalrRecognizer SameMachine where
  trans _ _ _ h h' := ⟨h'.compiled.trans h.compiled, h'.limits.trans h.limits,
    h'.generation.trans h.generation⟩

/-- Nothing but the statistics differs. -/
def SameButStats (s s' : LalrRecognizer) : Prop := ∃ stats, s' = { s with stats := stats }

theorem SameButStats.refl (s : LalrRecognizer) : SameButStats s s := ⟨s.stats, rfl⟩

theorem SameButStats.trans {a b c : LalrRecognizer} (h : SameButStats a b) (h' : SameButStats b c) :
    SameButStats a c := by
  obtain ⟨stats, rfl⟩ := h
  obtain ⟨stats', rfl⟩ := h'
  exact ⟨stats', rfl⟩

instance : Std.Refl SameButStats := ⟨.refl⟩

instance : IsTrans LalrRecognizer SameButStats := ⟨fun _ _ _ => .trans⟩

theorem SameButStats.sameMachine {s s' : LalrRecognizer} (h : SameButStats s s') :
    SameMachine s s' := by
  obtain ⟨stats, rfl⟩ := h
  exact ⟨rfl, rfl, rfl⟩

theorem moves_modifyStats (f : LalrRuntimeStats → LalrRuntimeStats) :
    Moves SameButStats (modifyStats f) :=
  moves_modify fun _ => ⟨_, rfl⟩

theorem moves_reduce (production : ℕ) (stack : List ℕ) :
    Moves SameButStats (reduce production stack) :=
  moves_bind moves_get fun _ => moves_bind (moves_unwrap _ _) fun _ =>
    moves_bind (moves_require _) fun _ => moves_bind (moves_unwrap _ _) fun _ =>
      moves_bind (moves_unwrap _ _) fun _ => moves_bind (moves_require _) fun _ =>
        moves_bind (moves_modifyStats _) fun _ => moves_pure _

theorem moves_reductionLoop (lookahead : Lookahead) (fuel : ℕ) (stack : List ℕ) :
    Moves SameButStats (reductionLoop lookahead fuel stack) := by
  induction fuel generalizing stack with
  | zero => exact moves_throw _
  | succ fuel ih =>
    refine moves_bind moves_get fun self => moves_bind (moves_unwrap _ _) fun state => ?_
    split
    · exact moves_bind (moves_reduce _ _) fun stack => ih stack
    · exact moves_pure _

theorem moves_actionAfterReductions (stack : List ℕ) (lookahead : Lookahead) :
    Moves SameButStats (actionAfterReductions stack lookahead) :=
  moves_bind moves_get fun _ => moves_reductionLoop _ _ _

theorem moves_startCandidate (candidates : List TerminalCandidate) (terminal : ℕ) :
    Moves SameButStats (startCandidate candidates terminal) := by
  refine moves_bind (moves_require _) fun _ => moves_bind moves_get fun self =>
    moves_bind (moves_actionAfterReductions _ _) fun reduced => moves_bind ?_ fun _ =>
      moves_bind (moves_modifyStats _) fun _ => moves_pure _
  split
  · exact moves_bind (moves_unwrap _ _) fun _ => moves_bind moves_get fun _ => moves_pure _
  · exact moves_pure _

theorem moves_startCandidates : Moves SameMachine startCandidates :=
  moves_bind moves_get fun _ =>
    moves_bind ((moves_foldlM moves_startCandidate _ _).mono fun _ _ h => h.sameMachine) fun _ =>
      moves_bind (moves_require _) fun _ => moves_modify fun _ => ⟨rfl, rfl, rfl⟩

/-- Candidates are only stored at the end. -/
theorem startCandidates_error {e : RuntimeError} {s s' : LalrRecognizer}
    (h : startCandidates s = .error e s') : SameButStats s s' := by
  change (List.foldlM startCandidate []
    (List.range s.compiled.grammar.terminals.length) >>= _) s = _
    at h
  rcases bind_eq_error.1 h with hfold | ⟨candidates, s₁, hfold, hrest⟩
  · exact (moves_foldlM moves_startCandidate _ _).of_error hfold
  · rcases bind_eq_error.1 hrest with hlimit | ⟨_, _, _, hmodify⟩
    · obtain rfl := (require_eq_error.1 hlimit).2.2
      exact (moves_foldlM moves_startCandidate _ _).of_ok hfold
    · exact absurd hmodify (by simp)

theorem moves_advanceCandidate (byte : UInt8) (advanced : Advanced)
    (candidate : TerminalCandidate) :
    Moves SameButStats (advanceCandidate byte advanced candidate) := by
  refine moves_bind moves_get fun self => moves_bind (moves_unwrap _ _) fun terminal => ?_
  split
  · exact moves_pure _
  · exact moves_pure _

theorem moves_shiftCandidate (candidate : TerminalCandidate) :
    Moves SameMachine (shiftCandidate candidate) :=
  moves_bind moves_get fun _ => moves_bind (moves_require _) fun _ =>
    moves_modify fun _ => ⟨rfl, rfl, rfl⟩

theorem moves_finishByte (nextPosition : ℕ) : Moves SameMachine (finishByte nextPosition) :=
  moves_bind (moves_require _) fun _ => moves_bind (moves_modify fun _ => ⟨rfl, rfl, rfl⟩) fun _ =>
    moves_bind ((moves_modifyStats _).mono fun _ _ h => h.sameMachine) fun _ => moves_pure _

/-- `advance_byte` from the loop over the candidates on. -/
def readByte (byte : UInt8) (nextPosition : ℕ) : Method RuntimeError LalrRecognizer Bool := do
  let self ← get
  modify fun self => { self with candidates := [] }
  let advanced ← self.candidates.foldlM (advanceCandidate byte) ⟨[], []⟩
  Method.require (advanced.accepted.length ≤ 1)
    (.internalInvariant "lexically safe LALR state accepted multiple terminals")
  match advanced.accepted.getLast? with
  | some candidate => do
    shiftCandidate candidate
    finishByte nextPosition
  | none => do
    modify fun self => { self with candidates := advanced.next }
    if advanced.next.isEmpty then pure false else finishByte nextPosition

theorem advanceByte_apply (byte : UInt8) (s : LalrRecognizer) :
    advanceByte byte s =
      (enforceRuntimeLimit .inputBytes (s.bytePosition + 1) s.limits.maxInputBytes
      >>= fun _ => (if s.candidates.isEmpty then startCandidates else pure ())
      >>= fun _ => readByte byte (s.bytePosition + 1)) s := by
  unfold advanceByte
  rw [get_bind_apply]
  cases s.candidates.isEmpty <;> rfl

theorem moves_readByte (byte : UInt8) (nextPosition : ℕ) :
    Moves SameMachine (readByte byte nextPosition) := by
  refine moves_bind moves_get fun self => moves_bind (moves_modify fun _ => ⟨rfl, rfl, rfl⟩)
    fun _ => moves_bind ((moves_foldlM (moves_advanceCandidate byte) _ _).mono fun _ _ h =>
      h.sameMachine) fun advanced => moves_bind (moves_require _) fun _ => ?_
  split
  · exact moves_bind (moves_shiftCandidate _) fun _ => moves_finishByte _
  · refine moves_bind (moves_modify fun _ => ⟨rfl, rfl, rfl⟩) fun _ => ?_
    split
    · exact moves_pure _
    · exact moves_finishByte _

theorem moves_advanceByte (byte : UInt8) : Moves SameMachine (advanceByte byte) := by
  intro s
  rw [advanceByte_apply]
  refine moves_bind (moves_require _) (fun _ => moves_bind ?_ fun _ => moves_readByte byte _) s
  split
  · exact moves_startCandidates
  · exact moves_pure _

end LalrRecognizer

end OcEarley

import OcEarley.Grammar.Liveness
import OcEarley.Grammar.Rendering
import OcEarley.Schema.Types

/-!
# Compiling an expression

`CompiledByteDfa.compile` renders the expression, has the regex library build and determinize an
automaton for the text, and renumbers the states.  The library is a parameter (`RegexLibrary`);
where it does what it says (`RegexLibrary.Exact`), the compiled automaton accepts the language of
the expression (`compile_exact`).
-/

namespace OcEarley

/-- The states of an automaton of the library, as far as their transitions are counted. -/
inductive NfaState
  | byteRange
  | look
  | capture
  | sparse (transitions : ℕ)
  | dense (targets : List ℕ)
  | union (alternates : ℕ)
  | binaryUnion
  | fail
  | accept
  deriving DecidableEq, Repr

/-- A failure of the library. -/
inductive BuildFailure
  | sizeLimit (limit : ℕ)
  | other (message : String)
  deriving DecidableEq, Repr

/-- A determinized automaton of the library. -/
structure DenseDfa (σ : Type) where
  memoryUsage : ℕ
  /-- `universal_start_state(Anchored::Yes)`. -/
  universalStartState : Option σ
  nextState : σ → UInt8 → σ
  isDeadState : σ → Bool
  isQuitState : σ → Bool
  isMatchState : σ → Bool
  nextEoiState : σ → σ

/-- The automaton as the renumbering reads it, from its start state. -/
def DenseDfa.raw {σ : Type} (dfa : DenseDfa σ) (start : σ) : RawDfa σ where
  start := start
  nextState := dfa.nextState
  isDeadState := dfa.isDeadState
  isQuitState := dfa.isQuitState
  isMatchState := dfa.isMatchState
  nextEoiState := dfa.nextEoiState

/-- The regex library, with the sizes and the capacities that are measured. -/
structure RegexLibrary (ν σ : Type) where
  buildNfa : String → ℕ → Except BuildFailure ν
  states : ν → List NfaState
  determinize : ν → Bool → ℕ → Except BuildFailure (DenseDfa σ)
  stateSize : ℕ
  transitionSize : ℕ
  frameSize : ℕ
  /-- The capacity of a text for which so much room was asked. -/
  textCapacity : ℕ → ℕ
  /-- The capacities of the tables, and that of the live flags. -/
  tableCapacities : RawDfa σ → LivenessCapacities
  liveCapacity : RawDfa σ → ℕ

/-! ### The functions -/

/-- The transitions of one state. -/
def NfaState.additional : NfaState → ℕ
  | .byteRange | .look | .capture => 1
  | .sparse transitions => transitions
  | .dense targets => (targets.filter (· ≠ 0)).length
  | .union alternates => alternates
  | .binaryUnion => 2
  | .fail | .accept => 0

/-- The transitions of the library's states, counted under a limit. -/
def countNfaTransitions (states : List NfaState) (limit : ℕ) : Except CompileError ℕ :=
  states.foldlM (fun count state => do
    Result.require (count + state.additional ≤ usizeMax)
      (.resourceLimitExceeded .nfaConstruction usizeMax limit)
    enforceCompileLimit .nfaConstruction (count + state.additional) limit
    pure (count + state.additional)) 0

section Compile

variable {ν σ : Type} [DecidableEq σ] (library : RegexLibrary ν σ)

/-- The bytes that the limits leave for an automaton. -/
def nfaByteLimit (limits : CompileLimits) : Except CompileError ℕ := do
  let bytes := limits.maxNfaStates * library.stateSize +
    limits.maxNfaTransitions * library.transitionSize
  -- a checked product or sum overflows exactly when the whole sum does
  Result.require (bytes ≤ usizeMax)
    (.resourceLimitExceeded .nfaConstruction usizeMax limits.maxDfaBytes)
  pure bytes

/-- The error of a text that is not built into an automaton without determinization. -/
def nfaFailure (pointer : SchemaPointer) : BuildFailure → CompileError
  | .sizeLimit limit => .resourceLimitExceeded .nfaConstruction (saturatingAdd limit 1) limit
  | .other message => .automatonBuild pointer message

/-- The error of an automaton that is not determinized. -/
def dfaFailure (limits : CompileLimits) (pointer : SchemaPointer) : BuildFailure → CompileError
  | .sizeLimit _ => .resourceLimitExceeded .dfaDeterminization (saturatingAdd limits.maxDfaBytes 1)
      limits.maxDfaBytes
  | .other message => .automatonBuild pointer message

namespace CompiledByteDfa

/-- The automaton of the empty language. -/
def empty (limits : CompileLimits) : Except CompileError CompiledByteDfa := do
  ensureDfaCapacity 1 limits
  let memoryBytes ← minimumDfaBytes 1
  pure {
    transitions := [fun _ => deadDfaState]
    accepting := [false]
    live := [false]
    nfaStates := 1
    nfaTransitions := 0
    memoryBytes := memoryBytes }

/-- The automaton of an expression: its text is built by the library, renumbered breadth first, and
its live states are marked. -/
def compileMeasured (expression : RegularExpression) (limits : CompileLimits)
    (pointer : SchemaPointer) (minimize : Bool) : Except CompileError CompiledByteDfa :=
  if expression = .empty then empty limits
  else do
    let byteLimit ← nfaByteLimit library limits
    let pattern ← expression.patternWithLimit library.frameSize library.textCapacity byteLimit
    let pattern ← Result.unwrap pattern
      (.internalInvariant "non-empty regular expression rendered as empty language")
    let nfa ← (library.buildNfa pattern byteLimit).mapError (nfaFailure pointer)
    let nfaStates := (library.states nfa).length
    enforceCompileLimit .nfaConstruction nfaStates limits.maxNfaStates
    let nfaTransitions ← countNfaTransitions (library.states nfa) limits.maxNfaTransitions
    let dfa ← (library.determinize nfa minimize limits.maxDfaBytes).mapError
      (dfaFailure limits pointer)
    enforceCompileLimit .dfaDeterminization dfa.memoryUsage limits.maxDfaBytes
    let start ← Result.unwrap dfa.universalStartState
      (.automatonBuild pointer "anchored DFA start state is unavailable")
    compileDeterminized (dfa.raw start) limits (library.tableCapacities (dfa.raw start))
      (library.liveCapacity (dfa.raw start)) nfaStates nfaTransitions

/-- The automaton of an expression, which is not minimized. -/
def compile (expression : RegularExpression) (limits : CompileLimits) (pointer : SchemaPointer) :
    Except CompileError CompiledByteDfa :=
  compileMeasured library expression limits pointer false

end CompiledByteDfa

end Compile

/-! ### What is compiled -/

section Exact

variable {ν σ : Type} [DecidableEq σ] {library : RegexLibrary ν σ} {S : RegexSyntax UInt8}

/-- The library determinizes to finitely many states, fewer than there are state ids, and its
automata accept what the text is read as. -/
structure RegexLibrary.Exact (library : RegexLibrary ν σ) (S : RegexSyntax UInt8) : Prop where
  accepts : ∀ {text : String} {nfaLimit dfaLimit : ℕ} {nfa : ν} {minimize : Bool} {dfa : DenseDfa σ}
    {start : σ} {L : Language UInt8}, library.buildNfa text nfaLimit = .ok nfa →
    library.determinize nfa minimize dfaLimit = .ok dfa → dfa.universalStartState = some start →
    RegexDenotes S text.toList L → ∀ w, (dfa.raw start).accepts w = true ↔ w ∈ L
  finite : ∀ {nfa : ν} {minimize : Bool} {dfaLimit : ℕ} {dfa : DenseDfa σ} {start : σ},
    library.determinize nfa minimize dfaLimit = .ok dfa → dfa.universalStartState = some start →
    ∃ states : Finset σ, (dfa.raw start).Closed states ∧ states.card ≤ u32Max

/-- A limit is exceeded, or the library refuses the text. -/
def CompileError.IsRefusal (pointer : SchemaPointer) (e : CompileError) : Prop :=
  e.IsLimit ∨ ∃ message, e = .automatonBuild pointer message

theorem nfaFailure_isRefusal (pointer : SchemaPointer) (e : BuildFailure) :
    (nfaFailure pointer e).IsRefusal pointer := by
  cases e with
  | sizeLimit limit => exact .inl trivial
  | other message => exact .inr ⟨message, rfl⟩

theorem dfaFailure_isRefusal (limits : CompileLimits) (pointer : SchemaPointer) (e : BuildFailure) :
    (dfaFailure limits pointer e).IsRefusal pointer := by
  cases e with
  | sizeLimit limit => exact .inl trivial
  | other message => exact .inr ⟨message, rfl⟩

/-- The start state has a row. -/
theorem stateCount_pos_of_compileDeterminized {raw : RawDfa σ} {limits : CompileLimits}
    {capacities : LivenessCapacities} {liveCapacity nfaStates nfaTransitions : ℕ}
    {dfa : CompiledByteDfa}
    (h : compileDeterminized raw limits capacities liveCapacity nfaStates nfaTransitions =
      .ok dfa) :
    0 < dfa.stateCount := by
  obtain ⟨table, htable, h⟩ := Result.bind_eq_ok.1 h
  obtain ⟨live, -, h⟩ := Result.bind_eq_ok.1 h
  obtain ⟨_, -, h⟩ := Result.bind_eq_ok.1 h
  obtain ⟨_, -, h⟩ := Result.bind_eq_ok.1 h
  have hdfa := Result.pure_eq_ok.1 h
  have hwp := Result.wp_ok renumber_wp htable
  obtain ⟨order, horder⟩ := hwp dfa (hdfa ▸ rfl) (hdfa ▸ rfl)
  rw [CompiledByteDfa.stateCount, horder.transitions]
  exact (List.getElem?_eq_some_iff.1 horder.getElem?_zero).1

theorem compileDeterminized_wp {raw : RawDfa σ} {limits : CompileLimits}
    {capacities : LivenessCapacities} {liveCapacity nfaStates nfaTransitions : ℕ}
    {states : Finset σ} (hstates : raw.Closed states) (hcard : states.card ≤ u32Max) :
    Result.wp CompileError.IsLimit
      (compileDeterminized raw limits capacities liveCapacity nfaStates nfaTransitions) fun dfa =>
        0 < dfa.stateCount ∧ dfa.LiveExact ∧ ∀ w, dfa.accepts w = raw.accepts w := by
  refine Result.wp_self (Result.wp_mono (Q := fun _ => True) ?_ fun dfa _ hdfa =>
    ⟨stateCount_pos_of_compileDeterminized hdfa, compileDeterminized_spec hstates hcard hdfa⟩)
  refine Result.wp_bind.2 (Result.wp_mono (Result.wp_weaken renumber_wp fun _ h => h.1) ?_)
  rintro ⟨transitions, accepting⟩ htable
  obtain ⟨order, horder⟩ := htable
    { transitions := transitions, accepting := accepting, live := [], nfaStates := 0,
      nfaTransitions := 0, memoryBytes := 0 } rfl rfl
  have hlength : accepting.length = transitions.length := by
    have haccepting := congrArg List.length horder.accepting
    rw [List.length_map] at haccepting
    exact haccepting.trans horder.transitions.symm
  refine Result.wp_bind.2 (Result.wp_mono (Result.wp_weaken
    (computeLiveness_wp hlength fun row hrow => horder.target_lt hrow) fun _ h => h.1)
      fun _ _ => ?_)
  refine Result.wp_bind.2 (Result.wp_require.2 ⟨fun _ => ?_, fun _ => trivial⟩)
  exact Result.wp_bind.2 (Result.wp_require.2 ⟨fun _ => trivial, fun _ => trivial⟩)

/-- What is right for an expression. -/
structure CompiledByteDfa.Accepts (dfa : CompiledByteDfa) (L : Language UInt8) : Prop where
  stateCount_pos : 0 < dfa.stateCount
  live : dfa.LiveExact
  accepts_iff : ∀ w, dfa.accepts w = true ↔ w ∈ L

theorem ensureDfaCapacity_wp {states : ℕ} {limits : CompileLimits} :
    Result.wp CompileError.IsLimit (ensureDfaCapacity states limits) fun _ => True := by
  simp [ensureDfaCapacity, minimumDfaBytes, enforceCompileLimit]

/-- **The automaton of the empty language.** -/
theorem CompiledByteDfa.empty_wp {limits : CompileLimits} :
    Result.wp CompileError.IsLimit (empty limits) fun dfa => dfa.Accepts 0 := by
  refine Result.wp_bind.2 (Result.wp_mono ensureDfaCapacity_wp fun _ _ => ?_)
  refine Result.wp_bind.2 (Result.wp_bind.2 (Result.wp_require.2 ⟨fun _ => ?_, fun _ => trivial⟩))
  have hnone : ∀ (dfa : CompiledByteDfa) (w : List UInt8),
      dfa.transitions = [fun _ => deadDfaState] →
        dfa.accepting = [false] → dfa.acceptsFrom 0 w = false := by
    intro dfa w htransitions haccepting
    cases w with
    | nil => simp [acceptsFrom, CompiledByteDfa.isAccepting, haccepting]
    | cons byte w => simp [acceptsFrom, nextState, htransitions, isDead]
  refine Result.wp_pure.2 ⟨Nat.one_pos, fun state hstate => ?_, fun w => ?_⟩
  · obtain rfl : state = 0 := Nat.lt_one_iff.1 hstate
    refine ⟨fun h => (by cases h), fun h => ?_⟩
    obtain ⟨w, hw⟩ := h
    rw [hnone _ w rfl rfl] at hw
    cases hw
  · rw [accepts, startState, hnone _ w rfl rfl]
    exact ⟨fun h => (by cases h), fun h => absurd h (Language.notMem_zero w)⟩

theorem countNfaTransitions_wp {states : List NfaState} {limit : ℕ} :
    Result.wp CompileError.IsLimit (countNfaTransitions states limit) fun _ => True := by
  refine Result.wp_foldlM (I := fun _ _ _ => True) (fun _ state _ count _ => ?_) [] states 0 trivial
  refine Result.wp_bind.2 (Result.wp_require.2 ⟨fun _ => ?_, fun _ => trivial⟩)
  exact Result.wp_bind.2 (Result.wp_require.2 ⟨fun _ => trivial, fun _ => trivial⟩)

/-- A failure of the library is passed on. -/
theorem wp_mapError {ε α : Type} {m : Except ε α} {f : ε → CompileError} {pointer : SchemaPointer}
    (h : ∀ e, (f e).IsRefusal pointer) :
    Result.wp (CompileError.IsRefusal pointer) (m.mapError f) fun a => m = .ok a := by
  cases m with
  | ok a => exact rfl
  | error e => exact h e

open OcEarley.RegularExpression in
theorem CompiledByteDfa.compileMeasured_wp (hlibrary : library.Exact S)
    {R : String → Language UInt8} {e : RegularExpression}
    (he : Built (fun forward _ => RegexDenotes S forward.toList (R forward)) e)
    {limits : CompileLimits} {pointer : SchemaPointer} {minimize : Bool} :
    Result.wp (CompileError.IsRefusal pointer) (compileMeasured library e limits pointer minimize)
      fun dfa => dfa.Accepts (e.language fun forward _ => R forward) := by
  unfold compileMeasured
  split
  · next hempty =>
    subst hempty
    exact Result.wp_weaken empty_wp fun _ h => .inl h
  · next hempty =>
    have hproper := he.proper.resolve_left hempty
    refine Result.wp_bind.2
      (Result.wp_bind.2 (Result.wp_require.2 ⟨fun hle => ?_, fun _ => .inl trivial⟩))
    have hstack : ∀ frame ∈ [Frame.expression e],
        frame.Proper fun forward _ => RegexDenotes S forward.toList (R forward) := by
      simpa [Frame.Proper] using hproper
    refine Result.wp_pure.2 (Result.wp_bind.2 ?_)
    rw [patternWithLimit, if_neg hempty]
    refine Result.wp_bind.2 (Result.wp_mono (Result.wp_weaken
      (wp_emit_exceeded hle hstack (by simp [Frame.weight])) fun _ h => .inl h.1) ?_)
    rintro text rfl
    have htext : String.join ([Frame.expression e].map Frame.render) = e.render := by
      simp [Frame.render]
    rw [String.empty_append, htext]
    have hdenotes := regexDenotes_render hproper
    refine Result.wp_pure.2 (Result.wp_bind.2 (Result.wp_unwrap_some.2 ?_))
    refine Result.wp_bind.2 (Result.wp_mono
      (wp_mapError (nfaFailure_isRefusal pointer)) fun nfa hnfa => ?_)
    refine Result.wp_bind.2 (Result.wp_require.2 ⟨fun _ => ?_, fun _ => .inl trivial⟩)
    refine Result.wp_bind.2 (Result.wp_mono
      (Result.wp_weaken countNfaTransitions_wp fun _ h => .inl h) fun _ _ => ?_)
    refine Result.wp_bind.2 (Result.wp_mono
      (wp_mapError (dfaFailure_isRefusal limits pointer)) fun dfa hdfa => ?_)
    refine Result.wp_bind.2 (Result.wp_require.2 ⟨fun _ => ?_, fun _ => .inl trivial⟩)
    refine Result.wp_bind.2 (Result.wp_unwrap.2 ⟨fun start hstart => ?_, fun _ => .inr ⟨_, rfl⟩⟩)
    obtain ⟨states, hstates, hcard⟩ := hlibrary.finite hdfa hstart
    refine Result.wp_mono (Result.wp_weaken (compileDeterminized_wp hstates hcard)
      fun _ h => .inl h) fun compiled hcompiled => ⟨hcompiled.1, hcompiled.2.1, fun w => ?_⟩
    rw [hcompiled.2.2]
    exact hlibrary.accepts hnfa hdfa hstart hdenotes w

/-- **A compiled expression.**  The automaton accepts exactly the words of the expression and its
live flags are exact; without one, a limit is exceeded or the library refuses the text. -/
theorem CompiledByteDfa.compile_exact (hlibrary : library.Exact S) {R : String → Language UInt8}
    {e : RegularExpression}
    (he : RegularExpression.Built (fun forward _ => RegexDenotes S forward.toList (R forward)) e)
    (limits : CompileLimits) (pointer : SchemaPointer) :
    (∀ dfa, compile library e limits pointer = .ok dfa → dfa.LiveExact ∧
      ∀ w, dfa.accepts w = true ↔ w ∈ e.language fun forward _ => R forward) ∧
    ∀ error, compile library e limits pointer = .error error →
      error.IsLimit ∨ ∃ message, error = .automatonBuild pointer message := by
  have hwp : Result.wp (CompileError.IsRefusal pointer) (compile library e limits pointer) _ :=
    compileMeasured_wp hlibrary he
  refine ⟨fun dfa h => ?_, fun error h => ?_⟩
  · rw [h] at hwp
    exact ⟨hwp.live, hwp.accepts_iff⟩
  · rw [h] at hwp
    exact hwp

/-! ### A library for one letter -/

/-- The automaton of one byte: 0 is the start, 1 accepts and 2 is dead. -/
def oneByteDfa (letter : UInt8) : DenseDfa ℕ where
  memoryUsage := 0
  universalStartState := some 0
  nextState := fun s byte => if s = 0 ∧ byte = letter then 1 else 2
  isDeadState := fun s => s = 2
  isQuitState := fun _ => false
  isMatchState := fun s => s = 1
  nextEoiState := id

/-- The library that knows one text only, of one byte. -/
def oneByteLibrary (known : String) (letter : UInt8) : RegexLibrary Unit ℕ where
  buildNfa := fun text _ => if text = known then .ok () else .error (.other "unsupported")
  states := fun _ => [.byteRange, .accept]
  determinize := fun _ _ _ => .ok (oneByteDfa letter)
  stateSize := 32
  transitionSize := 8
  frameSize := 24
  textCapacity := id
  tableCapacities := fun _ => ⟨2, 2, 2⟩
  liveCapacity := fun _ => 2

theorem oneByteDfa_accepts (letter : UInt8) (w : List UInt8) :
    ((oneByteDfa letter).raw 0).accepts w = true ↔ w = [letter] := by
  cases w with
  | nil => exact ⟨fun h => (by cases h), fun h => (by cases h)⟩
  | cons byte w =>
    by_cases hbyte : byte = letter
    · subst hbyte
      cases w with
      | nil =>
        simp [RawDfa.accepts, RawDfa.run, RawDfa.step, RawDfa.isAccepting, DenseDfa.raw, oneByteDfa]
      | cons next w => simp [RawDfa.accepts, RawDfa.run, RawDfa.step, DenseDfa.raw, oneByteDfa]
    · simp [RawDfa.accepts, RawDfa.run, RawDfa.step, DenseDfa.raw, oneByteDfa, hbyte]

theorem oneByteLibrary_exact {known : String} {letter : UInt8}
    (hknown : RegexDenotes S known.toList {[letter]}) : (oneByteLibrary known letter).Exact S where
  accepts := by
    intro text _ _ nfa _ dfa start L hnfa hdfa hstart hL w
    obtain rfl := Except.ok.inj hdfa
    obtain rfl := Option.some.inj hstart
    have htext : text = known := by
      by_contra hne
      simp [oneByteLibrary, hne] at hnfa
    subst htext
    obtain rfl := hL.unique hknown
    exact oneByteDfa_accepts letter w
  finite := by
    intro _ _ _ dfa start hdfa hstart
    obtain rfl := Except.ok.inj hdfa
    obtain rfl := Option.some.inj hstart
    refine ⟨{0, 1}, ⟨Finset.mem_insert_self 0 {1}, ?_⟩, by decide⟩
    intro s _ byte t hstep
    by_cases hs : s = 0 ∧ byte = letter
    · simp [RawDfa.step, DenseDfa.raw, oneByteDfa, hs] at hstep
      simp [← hstep]
    · simp [RawDfa.step, DenseDfa.raw, oneByteDfa, hs] at hstep

/-- The library that knows the text `a` only. -/
def oneLetterLibrary : RegexLibrary Unit ℕ := oneByteLibrary "a" 97

/-- The syntax of texts that are spelled in UTF-8. -/
abbrev utf8Syntax : RegexSyntax UInt8 := .spelled String.utf8EncodeChar

theorem oneLetterLibrary_exact : oneLetterLibrary.Exact utf8Syntax :=
  oneByteLibrary_exact (regexDenotes_spelled (by decide))

theorem CompiledByteDfa.compile_exact_letter :
    ∃ dfa, compile oneLetterLibrary (.atom "a" none) CompileLimits.default ⟨""⟩ = .ok dfa ∧
      dfa.LiveExact ∧ ∀ w, dfa.accepts w = true ↔ w = utf8Bytes "a" := by
  have hatom : RegularExpression.Built
      (fun forward _ => RegexDenotes utf8Syntax forward.toList {utf8Bytes forward})
      (.atom "a" none) := .atom (regexDenotes_spelled (by decide))
  have hexact := compile_exact oneLetterLibrary_exact hatom CompileLimits.default ⟨""⟩
  have hok : (compile oneLetterLibrary (.atom "a" none) CompileLimits.default
      ⟨""⟩).isOk = true := by
    decide +kernel
  cases hdfa : compile oneLetterLibrary (.atom "a" none) CompileLimits.default ⟨""⟩ with
  | error e =>
    rw [hdfa] at hok
    cases hok
  | ok dfa => exact ⟨dfa, rfl, hexact.1 dfa hdfa⟩

end Exact

end OcEarley

import OcEarley.Lalr.Build

/-!
# The LALR recognizer

Between two terminals the recognizer simulates the reductions of every possible lookahead on a copy
of the stack, and keeps one candidate for each terminal that can then be shifted.  The candidates
read bytes until one of them accepts.  The top of a stack is the head of its list.
-/

namespace OcEarley

/-- What a recognizer counts. -/
structure LalrRuntimeStats where
  shifts : ℕ
  reductions : ℕ
  maxStackDepth : ℕ
  bytes : ℕ
  deriving DecidableEq, Repr

/-- A terminal that is being read, and the stack and the state it would be shifted with. -/
structure TerminalCandidate where
  terminal : ℕ
  cursor : TerminalCursorState
  stack : List ℕ
  shift : ℕ
  reductions : ℕ
  deriving DecidableEq, Repr

/-- What is saved of a recognizer. -/
structure LalrCheckpoint where
  generation : ℕ
  stack : List ℕ
  candidates : List TerminalCandidate
  bytePosition : ℕ
  stats : LalrRuntimeStats

/-- An LALR recognizer between two bytes: the stack, and the terminals that are being read. -/
structure LalrRecognizer where
  compiled : CompiledLalr
  limits : RuntimeLimits
  generation : ℕ
  stack : List ℕ
  candidates : List TerminalCandidate
  bytePosition : ℕ
  stats : LalrRuntimeStats

/-- The search in a sorted row. -/
def findAction (table : LalrTable) (state : ℕ) (lookahead : Lookahead) : Option Action := do
  let row ← table.actions[state]?
  let entry ← row.find? fun entry => entry.1 = lookahead
  pure entry.2

/-- The search in a sorted row. -/
def findGoto (table : LalrTable) (state nonterminal : ℕ) : Option ℕ := do
  let row ← table.gotos[state]?
  let entry ← row.find? fun entry => entry.1 = nonterminal
  pure entry.2

namespace LalrRecognizer

/-- The counters are changed. -/
def modifyStats (f : LalrRuntimeStats → LalrRuntimeStats) :
    Method RuntimeError LalrRecognizer Unit :=
  modify fun self => { self with stats := f self.stats }

/-- One reduction on the stack. -/
def reduce (production : ℕ) (stack : List ℕ) : Method RuntimeError LalrRecognizer (List ℕ) := do
  let self ← get
  let production ← Method.unwrap self.compiled.productions[production]? .panicked
  Method.require (production.rhs.length < stack.length)
    (.internalInvariant "LALR reduction underflowed the state stack")
  let stack := stack.drop production.rhs.length
  let base ← Method.unwrap stack.head?
    (.internalInvariant "LALR stack is empty after reduction")
  let target ← Method.unwrap (findGoto self.compiled.table base production.lhs)
    (.internalInvariant "LALR goto is missing after reduction")
  let stack := target :: stack
  enforceRuntimeLimit .parseStack stack.length self.limits.maxParseStack
  modifyStats fun stats => { stats with reductions := saturatingAdd stats.reductions 1 }
  pure stack

/-- The loop of `action_after_reductions`. -/
def reductionLoop (lookahead : Lookahead) :
    ℕ → List ℕ → Method RuntimeError LalrRecognizer (Option Action × List ℕ)
  | 0, _ => throw .diverged
  | fuel + 1, stack => do
    let self ← get
    let state ← Method.unwrap stack.head? (.internalInvariant "LALR stack is empty")
    match findAction self.compiled.table state lookahead with
    | some (.reduce production) => do
      let stack ← reduce production stack
      reductionLoop lookahead fuel stack
    | action => pure (action, stack)

/-- An upper bound of the number of stacks within the limit on their height. -/
def reductionFuel (self : LalrRecognizer) (stack : List ℕ) : ℕ :=
  (self.compiled.table.actions.length + 1) ^ max stack.length self.limits.maxParseStack + 1

/-- The action on a lookahead once all reductions are made, and the stack after them. -/
def actionAfterReductions (stack : List ℕ) (lookahead : Lookahead) :
    Method RuntimeError LalrRecognizer (Option Action × List ℕ) := do
  let self ← get
  reductionLoop lookahead (self.reductionFuel stack) stack

/-- The body of the loop of `start_candidates`. -/
def startCandidate (candidates : List TerminalCandidate) (terminal : ℕ) :
    Method RuntimeError LalrRecognizer (List TerminalCandidate) := do
  Method.require (terminal ≤ u32Max) (.internalInvariant "terminal ID does not fit u32")
  let self ← get
  let reductionsBefore := self.stats.reductions
  let reduced ← actionAfterReductions self.stack (.terminal terminal)
  let candidates ← (match reduced.1 with
    | some (.shift shift) => do
      let automaton ← Method.unwrap self.compiled.grammar.terminals[terminal]? .panicked
      let self ← get
      pure (candidates ++ [{
        terminal := terminal
        cursor := automaton.start
        stack := reduced.2
        shift := shift
        reductions := self.stats.reductions - reductionsBefore }])
    | _ => pure candidates)
  modifyStats fun stats => { stats with reductions := reductionsBefore }
  pure candidates

/-- The terminals that may come next: each is looked ahead for on a copy of the stack. -/
def startCandidates : Method RuntimeError LalrRecognizer Unit := do
  let self ← get
  let candidates ← (List.range self.compiled.grammar.terminals.length).foldlM startCandidate []
  enforceRuntimeLimit .activeScans candidates.length self.limits.maxActiveScans
  modify fun self => { self with candidates := candidates }

/-- The candidates that go on and those that accept. -/
structure Advanced where
  next : List TerminalCandidate
  accepted : List TerminalCandidate

/-- The body of the loop over the candidates. -/
def advanceCandidate (byte : UInt8) (advanced : Advanced) (candidate : TerminalCandidate) :
    Method RuntimeError LalrRecognizer Advanced := do
  let self ← get
  let terminal ← Method.unwrap self.compiled.grammar.terminals[candidate.terminal]? .panicked
  match terminal.advance candidate.cursor byte with
  | none => pure advanced
  | some cursor =>
    let candidate := { candidate with cursor := cursor }
    pure {
      accepted := if terminal.isAccepting cursor then advanced.accepted ++ [candidate]
        else advanced.accepted
      next := if terminal.isLive cursor then advanced.next ++ [candidate] else advanced.next }

/-- The accepted terminal is shifted. -/
def shiftCandidate (candidate : TerminalCandidate) : Method RuntimeError LalrRecognizer Unit := do
  let self ← get
  let stack := candidate.shift :: candidate.stack
  enforceRuntimeLimit .parseStack stack.length self.limits.maxParseStack
  modify fun self => { self with
    stack := stack
    candidates := []
    stats := { self.stats with
      shifts := saturatingAdd self.stats.shifts 1
      reductions := saturatingAdd self.stats.reductions candidate.reductions
      maxStackDepth := max self.stats.maxStackDepth stack.length } }

/-- The byte is counted. -/
def finishByte (nextPosition : ℕ) : Method RuntimeError LalrRecognizer Bool := do
  Method.require (nextPosition ≤ u32Max) (.resourceLimitExceeded .inputBytes nextPosition u32Max)
  modify fun self => { self with bytePosition := nextPosition }
  modifyStats fun stats => { stats with bytes := saturatingAdd stats.bytes 1 }
  pure true

/-- A byte is consumed: the candidates read it, the one that accepts is shifted at once.  Without
candidates they are looked for first. -/
def advanceByte (byte : UInt8) : Method RuntimeError LalrRecognizer Bool := do
  let self ← get
  let nextPosition := self.bytePosition + 1
  enforceRuntimeLimit .inputBytes nextPosition self.limits.maxInputBytes
  if self.candidates.isEmpty then startCandidates else pure ()
  let self ← get
  -- `drain`: a candidate is kept only if it goes on after the byte
  modify fun self => { self with candidates := [] }
  let advanced ← self.candidates.foldlM (advanceCandidate byte) ⟨[], []⟩
  Method.require (advanced.accepted.length ≤ 1)
    (.internalInvariant "lexically safe LALR state accepted multiple terminals")
  match advanced.accepted.getLast? with
  | some candidate => do
    shiftCandidate candidate
    finishByte nextPosition
  | none => do
    modify fun self => { self with candidates := advanced.next }
    if advanced.next.isEmpty then pure false else finishByte nextPosition

/-- Between two terminals the end of the text would be accepted. -/
def isAccepting (self : LalrRecognizer) : Bool :=
  if !self.candidates.isEmpty then false
  else match actionAfterReductions self.stack .eof self with
    | .ok (some .accept, _) _ => true
    | _ => false

/-- A terminal is being read, the text is complete, or some terminal may come next. -/
def isLive (self : LalrRecognizer) : Bool :=
  if !self.candidates.isEmpty then true
  else if self.isAccepting then true
  else match startCandidates self with
    | .ok _ clone => !clone.candidates.isEmpty
    | .error _ _ => false

theorem isAccepting_of_nil {self : LalrRecognizer} (h : self.candidates = []) :
    self.isAccepting = match actionAfterReductions self.stack .eof self with
      | .ok (some .accept, _) _ => true
      | _ => false := by
  rw [isAccepting, h]
  rfl

theorem isLive_of_nil {self : LalrRecognizer} (h : self.candidates = [])
    (haccepting : self.isAccepting = false) :
    self.isLive = match startCandidates self with
      | .ok _ clone => !clone.candidates.isEmpty
      | .error _ _ => false := by
  rw [isLive, h, haccepting]
  rfl

/-- What is saved of the recognizer. -/
def checkpoint (self : LalrRecognizer) : LalrCheckpoint where
  generation := self.generation
  stack := self.stack
  candidates := self.candidates
  bytePosition := self.bytePosition
  stats := self.stats

/-- The recognizer goes back to a checkpoint, if the generation is its own. -/
def restore (checkpoint : LalrCheckpoint) : Method RuntimeError LalrRecognizer Unit := do
  let self ← get
  Method.require (checkpoint.generation = self.generation)
    (.invalidCheckpoint self.generation checkpoint.generation)
  modify fun self => { self with
    stack := checkpoint.stack
    candidates := checkpoint.candidates
    bytePosition := checkpoint.bytePosition
    stats := checkpoint.stats }

end LalrRecognizer

/-- `generation` is the value drawn from the global counter. -/
def CompiledLalr.recognizer (compiled : CompiledLalr) (limits : RuntimeLimits)
    (generation : ℕ) : LalrRecognizer where
  compiled := compiled
  limits := limits
  generation := generation
  stack := [0]
  candidates := []
  bytePosition := 0
  stats := { shifts := 0, reductions := 0, maxStackDepth := 1, bytes := 0 }

end OcEarley

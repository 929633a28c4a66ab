import OcEarley.Earley.Recognizer
import OcEarley.Lalr.Recognizer

/-!
# Recognizers of all backends

`RecognizerState` is a recognizer of one of the three backends.  `tryAdvanceBytes` consumes a chunk
of bytes or, when a byte is rejected or fails, goes back to the checkpoint it took at first.
-/

namespace OcEarley

/-- The answer to a chunk of bytes. -/
inductive Advance
  | rejected
  | live
  | accepting
  deriving DecidableEq, Repr

/-- What is saved of an automaton that runs. -/
structure DfaCheckpoint where
  generation : ℕ
  state : ℕ
  position : ℕ

/-- An automaton that runs over the bytes. -/
structure DfaRecognizer where
  dfa : CompiledByteDfa
  state : ℕ
  position : ℕ
  generation : ℕ
  limits : RuntimeLimits

/-- A checkpoint of one of the backends. -/
inductive RecognizerCheckpoint
  | dfa (checkpoint : DfaCheckpoint)
  | lalr (checkpoint : LalrCheckpoint)
  | earley (checkpoint : EarleyCheckpoint)

/-- A recognizer of one of the backends. -/
inductive RecognizerState
  | dfa (recognizer : DfaRecognizer)
  | lalr (recognizer : LalrRecognizer)
  | earley (recognizer : EarleyRecognizer)

namespace DfaRecognizer

/-- A byte is consumed if it leads to a live state. -/
def advanceByte (byte : UInt8) : Method RuntimeError DfaRecognizer Bool := do
  let self ← get
  let nextPosition := self.position + 1
  enforceRuntimeLimit .inputBytes nextPosition self.limits.maxInputBytes
  let next := self.dfa.nextState self.state byte
  if self.dfa.isDead next || !self.dfa.isLive next then
    pure false
  else do
    modify fun self => { self with state := next }
    Method.require (nextPosition ≤ u32Max)
      (.resourceLimitExceeded .inputBytes nextPosition u32Max)
    modify fun self => { self with position := nextPosition }
    pure true

/-- What is saved of the automaton. -/
def checkpoint (self : DfaRecognizer) : DfaCheckpoint where
  generation := self.generation
  state := self.state
  position := self.position

/-- The automaton goes back to a checkpoint, if the generation is its own. -/
def restore (checkpoint : DfaCheckpoint) : Method RuntimeError DfaRecognizer Unit := do
  let self ← get
  Method.require (checkpoint.generation = self.generation)
    (.invalidCheckpoint self.generation checkpoint.generation)
  modify fun self => { self with state := checkpoint.state, position := checkpoint.position }

end DfaRecognizer

/-- The recognizer of a whole-language automaton. -/
def CompiledByteDfa.recognizer (dfa : CompiledByteDfa) (limits : RuntimeLimits)
    (generation : ℕ) : DfaRecognizer where
  dfa := dfa
  state := 0
  position := 0
  generation := generation
  limits := limits

namespace RecognizerState

/-- A byte is consumed by the backend. -/
def advanceByte (byte : UInt8) : Method RuntimeError RecognizerState Bool
  | .dfa recognizer => Method.zoom .dfa (DfaRecognizer.advanceByte byte) recognizer
  | .lalr recognizer => Method.zoom .lalr (LalrRecognizer.advanceByte byte) recognizer
  | .earley recognizer => Method.zoom .earley (EarleyRecognizer.advanceByte byte) recognizer

/-- The bytes consumed are a whole text.  A limit that an LALR probe exceeds counts as no. -/
def isAccepting : RecognizerState → Bool
  | .dfa recognizer => recognizer.dfa.isAccepting recognizer.state
  | .lalr recognizer => recognizer.isAccepting
  | .earley recognizer => recognizer.isAccepting

/-- Something may follow, or the text is complete.  A limit that an LALR probe
exceeds counts as no. -/
def isLive : RecognizerState → Bool
  | .dfa recognizer => recognizer.dfa.isLive recognizer.state
  | .lalr recognizer => recognizer.isLive
  | .earley recognizer => recognizer.isLive

/-- What is saved of the recognizer. -/
def checkpoint : RecognizerState → RecognizerCheckpoint
  | .dfa recognizer => .dfa recognizer.checkpoint
  | .lalr recognizer => .lalr recognizer.checkpoint
  | .earley recognizer => .earley recognizer.checkpoint

/-- The recognizer goes back to a checkpoint of its own backend. -/
def restore (checkpoint : RecognizerCheckpoint) : Method RuntimeError RecognizerState Unit
  | .dfa recognizer =>
    match checkpoint with
    | .dfa checkpoint => Method.zoom .dfa (DfaRecognizer.restore checkpoint) recognizer
    | _ => .error (.internalInvariant "checkpoint belongs to a different recognizer backend")
      (.dfa recognizer)
  | .lalr recognizer =>
    match checkpoint with
    | .lalr checkpoint => Method.zoom .lalr (LalrRecognizer.restore checkpoint) recognizer
    | _ => .error (.internalInvariant "checkpoint belongs to a different recognizer backend")
      (.lalr recognizer)
  | .earley recognizer =>
    match checkpoint with
    | .earley checkpoint => Method.zoom .earley (EarleyRecognizer.restore checkpoint) recognizer
    | _ => .error (.internalInvariant "checkpoint belongs to a different recognizer backend")
      (.earley recognizer)

/-- The loop over the bytes; `checkpoint` was taken before the first one. -/
def advanceLoop (checkpoint : RecognizerCheckpoint) :
    List UInt8 → Method RuntimeError RecognizerState Advance
  | [] => do
    let self ← get
    pure (if self.isAccepting then .accepting else .live)
  | byte :: bytes => fun self =>
    match advanceByte byte self with
    | .ok true self => advanceLoop checkpoint bytes self
    | .ok false self => (restore checkpoint >>= fun _ => pure Advance.rejected) self
    | .error error self => (restore checkpoint >>= fun _ => throw error) self

/-- A chunk of bytes is consumed as a whole, or the recognizer goes back to where it was. -/
def tryAdvanceBytes (bytes : List UInt8) : Method RuntimeError RecognizerState Advance := do
  let self ← get
  advanceLoop self.checkpoint bytes

end RecognizerState

end OcEarley

import OcEarley.Engine.Recognizer
import OcEarley.Index.Project
import OcEarley.Vocabulary.Reverse

/-!
# Guides

A guide advances over token ids, either along an index over an automaton or by feeding the bytes of
the tokens to a structural recognizer.  It keeps a bounded history of checkpoints for rolling back
and computes masks of the allowed tokens; the mask of a structural guide comes from a walk over the
token trie that moves one recognizer down and up again.

Masks are lists of 32-bit words.  Reserving memory is taken to succeed.
-/

namespace OcEarley

/-- What a guide counts of its masks. -/
structure MaskStats where
  queries : ℕ
  cacheHits : ℕ
  cacheMisses : ℕ
  cacheBytes : ℕ
  trieEdgesVisited : ℕ
  trieEdgesPruned : ℕ
  tokenIdsEnabled : ℕ
  peakStackDepth : ℕ
  errors : ℕ
  deriving DecidableEq, Repr

/-- `MaskStats::default`. -/
def MaskStats.default : MaskStats := ⟨0, 0, 0, 0, 0, 0, 0, 0, 0⟩

/-- What a guide runs on: the index of a whole automaton, or a recognizer. -/
inductive GuideRuntime
  | dfa (index : Index) (state : ℕ)
  | structural (recognizer : RecognizerState)

/-- What is saved of a guide: the state of its runtime, and how much it had committed. -/
inductive GuideCheckpoint
  | dfa (state committedTokens committedBytes : ℕ) (finished : Bool)
  | structural (recognizer : RecognizerCheckpoint) (committedTokens committedBytes : ℕ)
    (finished : Bool)

/-- A guide: its runtime, the vocabulary of a recognizer, what has been committed, and the
checkpoints that it may go back to. -/
structure Guide where
  runtime : GuideRuntime
  vocabulary : Option DerivedVocabulary
  eosTokenId : ℕ
  vocabSize : ℕ
  maskWords : ℕ
  initial : GuideCheckpoint
  history : List GuideCheckpoint
  maxRollback : ℕ
  finished : Bool
  committedTokenIds : List ℕ
  committedBytes : List UInt8
  limits : RuntimeLimits
  maskStats : MaskStats
  cachedMask : Option (List ℕ)

/-! ### Masks of a structural guide -/

/-- What the walk over the trie works on. -/
structure MaskWalk where
  recognizer : RecognizerState
  destination : List ℕ
  stats : MaskStats

/-- A node on the path from the root, and the state of the recognizer before its edges. -/
structure TrieFrame where
  node : ℕ
  nextEdge : ℕ
  emitted : Bool
  checkpoint : RecognizerCheckpoint

/-- The mask with the bit of a token set. -/
def maskBit (token : ℕ) (destination : List ℕ) : List ℕ :=
  destination.modify (token / 32) fun slot => slot ||| 1 <<< (token % 32)

namespace MaskWalk

/-- The counters are changed. -/
def modifyStats (f : MaskStats → MaskStats) : Method RuntimeError MaskWalk Unit :=
  modify fun self => { self with stats := f self.stats }

/-- A call on the recognizer. -/
def onRecognizer {α : Type} (m : Method RuntimeError RecognizerState α) :
    Method RuntimeError MaskWalk α := fun self =>
  Method.zoom (fun recognizer => { self with recognizer := recognizer }) m self.recognizer

/-- The bit of a token is set in the destination. -/
def setMaskBit (token : ℕ) : Method RuntimeError MaskWalk Unit := do
  let self ← get
  Method.require (token / 32 < self.destination.length)
    (.internalInvariant "token ID exceeds the validated mask width")
  modify fun self => { self with destination := maskBit token self.destination }

/-- A token is enabled and counted. -/
def enable (token : ℕ) : Method RuntimeError MaskWalk Unit := do
  setMaskBit token
  modifyStats fun stats => { stats with tokenIdsEnabled := saturatingAdd stats.tokenIdsEnabled 1 }

/-- The token ids of a node are enabled if the recognizer is live. -/
def emit (trie : TokenTrie) (node : TrieNode) : Method RuntimeError MaskWalk Unit := do
  let self ← get
  if self.recognizer.isLive then do
    Method.require (node.tokenStart + node.tokenLen ≤ trie.terminalIds.length)
      (.internalInvariant "token trie terminal range is invalid")
    ((trie.terminalIds.drop node.tokenStart).take node.tokenLen).forM enable
  else
    pure ()

/-- The token ids of a frame are emitted once. -/
def emitFrame (trie : TokenTrie) (frame : TrieFrame) (node : TrieNode) :
    Method RuntimeError MaskWalk Unit :=
  if frame.emitted then pure () else emit trie node

/-- One edge of the frame on top of the stack; the result is the frame of the child, if the byte is
not rejected. -/
def descend (trie : TokenTrie) (limits : RuntimeLimits) (visited : ℕ) (frame : TrieFrame)
    (node : TrieNode) : Method RuntimeError MaskWalk (Option TrieFrame) := do
  let edge ← Method.unwrap trie.edges[node.edgeStart + frame.nextEdge]?
    (.internalInvariant "token trie edge is out of bounds")
  enforceRuntimeLimit .maskTraversal (saturatingAdd visited 1) limits.maxMaskTrieEdges
  modifyStats fun stats => { stats with trieEdgesVisited := saturatingAdd stats.trieEdgesVisited 1 }
  onRecognizer (RecognizerState.restore frame.checkpoint)
  let advance ← onRecognizer (RecognizerState.tryAdvanceBytes [edge.byte])
  if advance = .rejected then do
    modifyStats fun stats => { stats with trieEdgesPruned := saturatingAdd stats.trieEdgesPruned 1 }
    pure none
  else do
    let self ← get
    pure (some { node := edge.child, nextEdge := 0, emitted := false,
                 checkpoint := self.recognizer.checkpoint })

/-- `while !stack.is_empty()`; the top of the stack is the head of its list. -/
def loop (trie : TokenTrie) (limits : RuntimeLimits) :
    ℕ → ℕ → List TrieFrame → Method RuntimeError MaskWalk Unit
  | _, _, [] => pure ()
  | 0, _, _ :: _ => throw .diverged
  | fuel + 1, visited, frame :: stack => do
    modifyStats fun stats =>
      { stats with peakStackDepth := max stats.peakStackDepth (stack.length + 1) }
    let node ← Method.unwrap trie.nodes[frame.node]?
      (.internalInvariant "token trie node is out of bounds")
    emitFrame trie frame node
    if node.edgeLen ≤ frame.nextEdge then do
      -- all edges have been followed: back to where the node was entered
      onRecognizer (RecognizerState.restore frame.checkpoint)
      loop trie limits fuel visited stack
    else do
      let child ← descend trie limits visited frame node
      loop trie limits fuel (saturatingAdd visited 1)
        (child.toList ++ { frame with emitted := true, nextEdge := frame.nextEdge + 1 } :: stack)

/-- The id of the end of the sequence is enabled if the recognizer is accepting. -/
def enableEos (vocabulary : DerivedVocabulary) : Method RuntimeError MaskWalk Unit := do
  let self ← get
  if self.recognizer.isAccepting then enable vocabulary.eosTokenId else pure ()

/-- The body of `fill_structural_mask`.  Every round of the loop pops a frame or visits an edge, of
which the limit allows so many. -/
def fill (vocabulary : DerivedVocabulary) (limits : RuntimeLimits) :
    Method RuntimeError MaskWalk Unit := do
  let self ← get
  enableEos vocabulary
  loop vocabulary.trie limits (2 * limits.maxMaskTrieEdges + 2) 0
    [{ node := 0, nextEdge := 0, emitted := false, checkpoint := self.recognizer.checkpoint }]

end MaskWalk

/-- Whatever the walk returns, the recognizer goes back to where it was. -/
def fillStructuralMask (vocabulary : DerivedVocabulary) (limits : RuntimeLimits) :
    Method RuntimeError MaskWalk Unit := fun self =>
  let root := self.recognizer.checkpoint
  match MaskWalk.fill vocabulary limits self with
  | .ok _ walk => MaskWalk.onRecognizer (RecognizerState.restore root) walk
  | .error error walk =>
    (MaskWalk.onRecognizer (RecognizerState.restore root) >>= fun _ => throw error) walk

/-! ### The guide -/

/-- The rollback that is asked for is within the limits. -/
def validateRollbackLimit (maxRollback : ℕ) (limits : RuntimeLimits) : Except RuntimeError Unit :=
  Result.require (maxRollback ≤ limits.maxCheckpointHistory)
    (.resourceLimitExceeded .checkpointHistory maxRollback limits.maxCheckpointHistory)

/-- The backend of a compiled schema. -/
inductive CompiledBackend
  | dfa (index : Index)
  | lalr (compiled : CompiledLalr)
  | earley (compiled : CompiledEarley)

/-- What recognizers and guides are made from.  The derived vocabulary has been
built from a vocabulary. -/
structure CompiledSchema where
  backend : CompiledBackend
  byteDfa : Option CompiledByteDfa
  vocabulary : Option DerivedVocabulary
  vocabulary_built : ∀ derived, vocabulary = some derived →
    ∃ tokens limits, DerivedVocabulary.build tokens limits = .ok derived

/-- `generation` is the value drawn from a global counter. -/
def CompiledSchema.recognizer (self : CompiledSchema) (limits : RuntimeLimits) (generation : ℕ) :
    Except RuntimeError RecognizerState :=
  match self.backend with
  | .dfa _ => do
    let dfa ← Result.unwrap self.byteDfa
      (.internalInvariant "whole-DFA backend has no byte automaton")
    pure (.dfa (dfa.recognizer limits generation))
  | .lalr compiled => pure (.lalr (compiled.recognizer limits generation))
  | .earley compiled => do
    let recognizer ← compiled.recognizer limits true generation
    pure (.earley recognizer)

namespace Guide

/-- `max_rollback` entries are reserved for the history. -/
def fromIndex (index : Index) (maxRollback : ℕ) : Except RuntimeError Guide := do
  let limits := RuntimeLimits.default
  validateRollbackLimit maxRollback limits
  pure {
    runtime := .dfa index index.initialState
    vocabulary := none
    eosTokenId := index.eosTokenId
    vocabSize := index.vocabSize
    maskWords := (index.vocabSize + 31) / 32
    initial := .dfa index.initialState 0 0 false
    history := []
    maxRollback := maxRollback
    finished := false
    committedTokenIds := []
    committedBytes := []
    limits := limits
    maskStats := .default
    cachedMask := none }

/-- A guide of a compiled schema, at its start. -/
def fromCompiled (compiled : CompiledSchema) (maxRollback : ℕ) (limits : RuntimeLimits)
    (generation : ℕ) : Except RuntimeError Guide := do
  validateRollbackLimit maxRollback limits
  match compiled.backend with
  | .dfa index =>
    pure {
      runtime := .dfa index index.initialState
      vocabulary := none
      eosTokenId := index.eosTokenId
      vocabSize := index.vocabSize
      maskWords := (index.vocabSize + 31) / 32
      initial := .dfa index.initialState 0 0 false
      history := []
      maxRollback := maxRollback
      finished := false
      committedTokenIds := []
      committedBytes := []
      limits := limits
      maskStats := .default
      cachedMask := none }
  | _ => do
    let vocabulary ← Result.unwrap compiled.vocabulary
      (.internalInvariant "structural backend has no derived vocabulary")
    let recognizer ← compiled.recognizer limits generation
    pure {
      runtime := .structural recognizer
      vocabulary := some vocabulary
      eosTokenId := vocabulary.eosTokenId
      vocabSize := vocabulary.vocabSize
      maskWords := vocabulary.maskWords
      initial := .structural recognizer.checkpoint 0 0 false
      history := []
      maxRollback := maxRollback
      finished := false
      committedTokenIds := []
      committedBytes := []
      limits := limits
      maskStats := .default
      cachedMask := none }

/-- The end of the sequence may come next. -/
def isAccepting (self : Guide) : Bool :=
  if self.finished then false
  else match self.runtime with
    | .dfa index state => index.isFinalState state
    | .structural recognizer => recognizer.isAccepting

/-- The end of the sequence has come. -/
def isFinished (self : Guide) : Bool := self.finished

/-- The number of tokens that may be taken back. -/
def getAllowedRollback (self : Guide) : ℕ := self.history.length

/-- What is saved of the guide. -/
def checkpoint (self : Guide) : GuideCheckpoint :=
  match self.runtime with
  | .dfa _ state =>
    .dfa state self.committedTokenIds.length self.committedBytes.length self.finished
  | .structural recognizer =>
    .structural recognizer.checkpoint self.committedTokenIds.length self.committedBytes.length
      self.finished

/-- The oldest checkpoints make room for the new one. -/
def retainCheckpoint (checkpoint : GuideCheckpoint) : Method RuntimeError Guide Unit :=
  modify fun self =>
    if self.maxRollback = 0 then self
    else { self with
      history := self.history.drop (self.history.length + 1 - self.maxRollback) ++ [checkpoint] }

/-- The cached mask is dropped. -/
def invalidateMask : Method RuntimeError Guide Unit :=
  modify fun self => { self with
    cachedMask := none, maskStats := { self.maskStats with cacheBytes := 0 } }

/-- A call on the recognizer of the runtime. -/
def onRecognizer {α : Type} (recognizer : RecognizerState)
    (m : Method RuntimeError RecognizerState α) : Method RuntimeError Guide α := fun self =>
  Method.zoom (fun recognizer => { self with runtime := .structural recognizer }) m recognizer

/-- The step of the runtime over a token. -/
def advanceRuntime (tokenId : ℕ) (tokenBytes : Option (List UInt8)) :
    Method RuntimeError Guide Unit := do
  let self ← get
  match self.runtime with
  | .dfa index state => do
    let next ← Method.unwrap (index.nextState state tokenId) (.tokenNotAllowed tokenId)
    modify fun self => { self with runtime := .dfa index next }
  | .structural recognizer => do
    let bytes ← Method.unwrap tokenBytes
      (.internalInvariant "validated structural token bytes disappeared")
    let advance ← onRecognizer recognizer (RecognizerState.tryAdvanceBytes bytes)
    Method.require (advance ≠ .rejected) (.tokenNotAllowed tokenId)

/-- The bytes of a token are committed with it. -/
def commit (before : GuideCheckpoint) (tokenId : ℕ) (tokenBytes : List UInt8) :
    Method RuntimeError Guide Unit := do
  retainCheckpoint before
  modify fun self => { self with
    committedBytes := self.committedBytes ++ tokenBytes
    committedTokenIds := self.committedTokenIds ++ [tokenId] }
  invalidateMask

/-- A token is committed.  The end of the sequence is committed where the guide accepts; another
token moves the runtime, which keeps its state if it refuses the token. -/
def advance (tokenId : ℕ) : Method RuntimeError Guide Unit := do
  let self ← get
  Method.require (self.finished = false) .guideFinished
  let nextCount := self.committedTokenIds.length + 1
  Method.require (nextCount ≤ usizeMax)
    (.resourceLimitExceeded .committedTokens usizeMax self.limits.maxCommittedTokens)
  enforceRuntimeLimit .committedTokens nextCount self.limits.maxCommittedTokens
  let before := self.checkpoint
  if tokenId = self.eosTokenId then do
    Method.require (self.isAccepting = true) .eosNotAccepting
    modify fun self => { self with finished := true }
    commit before tokenId []
  else do
    let tokenBytes := self.vocabulary.bind fun vocabulary => vocabulary.sharedBytes tokenId
    -- what an automaton allows is told by its row, which is looked up below
    match self.runtime with
    | .dfa .. => pure ()
    | .structural _ => Method.require (tokenBytes.isSome = true) (.unknownTokenId tokenId)
    advanceRuntime tokenId tokenBytes
    commit before tokenId (tokenBytes.getD [])

/-- The guide goes back to a checkpoint of its own kind of runtime. -/
def restoreGuide (checkpoint : GuideCheckpoint) : Method RuntimeError Guide Unit := do
  let self ← get
  match self.runtime, checkpoint with
  | .dfa index _, .dfa saved committedTokens committedBytes finished =>
    modify fun self => { self with
      runtime := .dfa index saved
      committedTokenIds := self.committedTokenIds.take committedTokens
      committedBytes := self.committedBytes.take committedBytes
      finished := finished }
  | .structural recognizer, .structural saved committedTokens committedBytes finished => do
    onRecognizer recognizer (RecognizerState.restore saved)
    modify fun self => { self with
      committedTokenIds := self.committedTokenIds.take committedTokens
      committedBytes := self.committedBytes.take committedBytes
      finished := finished }
  | _, _ => throw (.internalInvariant "guide checkpoint belongs to a different backend")

/-- The last tokens are taken back. -/
def rollback (count : ℕ) : Method RuntimeError Guide Unit := do
  let self ← get
  if count = 0 then
    pure ()
  else do
    Method.require (count ≤ self.history.length)
      (.rollbackUnavailable count self.history.length)
    -- `pop_back`, `count` times: the last one popped is restored
    modify fun self => { self with history := self.history.take (self.history.length - count) }
    let target ← Method.unwrap self.history[self.history.length - count]?
      (.internalInvariant "rollback history changed during rollback")
    restoreGuide target
    invalidateMask

/-- The guide would advance over the tokens, none of which is the end of the sequence; it stays as
it is. -/
def acceptsTokens (self : Guide) (sequence : List ℕ) : Bool :=
  if self.eosTokenId ∈ sequence then false
  else match sequence.forM advance self with
    | .ok .. => true
    | .error .. => false

/-- The guide goes back to its start. -/
def reset : Method RuntimeError Guide Unit := do
  let self ← get
  restoreGuide self.initial
  modify fun self => { self with history := [], maskStats := .default, cachedMask := none }

end Guide

/-! ### Mask queries -/

/-- A guide and the destination of a mask query. -/
structure MaskQuery where
  guide : Guide
  destination : List ℕ

namespace MaskQuery

/-- The counters are changed. -/
def modifyStats (f : MaskStats → MaskStats) : Method RuntimeError MaskQuery Unit :=
  modify fun self => { self with guide := { self.guide with maskStats := f self.guide.maskStats } }

/-- All bits are cleared. -/
def clear : Method RuntimeError MaskQuery Unit :=
  modify fun self => { self with destination := List.replicate self.destination.length 0 }

/-- The walk over the trie, or over the tokens of a row, on the parts of a guide. -/
def onWalk (recognizer : RecognizerState) (m : Method RuntimeError MaskWalk Unit) :
    Method RuntimeError MaskQuery Unit := fun self =>
  Method.zoom
    (fun walk => {
      guide := { self.guide with
        runtime := .structural walk.recognizer, maskStats := walk.stats }
      destination := walk.destination })
    m { recognizer := recognizer, destination := self.destination,
        stats := self.guide.maskStats }

/-- One token of the row of an index. -/
def enable (token : ℕ) : Method RuntimeError MaskQuery Unit := do
  let self ← get
  Method.require (token / 32 < self.destination.length)
    (.internalInvariant "token ID exceeds the validated mask width")
  modify fun self => { self with destination := maskBit token self.destination }
  modifyStats fun stats => { stats with tokenIdsEnabled := saturatingAdd stats.tokenIdsEnabled 1 }

/-- The mask in the destination is cached. -/
def rememberMask : Method RuntimeError MaskQuery Unit :=
  modify fun self => { self with guide := { self.guide with
    maskStats := { self.guide.maskStats with cacheBytes := saturatingMul self.guide.maskWords 4 }
    cachedMask := some (self.destination.take self.guide.maskWords) } }

/-- A walk that fails leaves the destination cleared. -/
def walkOrClear (recognizer : RecognizerState) (vocabulary : DerivedVocabulary) :
    Method RuntimeError MaskQuery Unit := fun self =>
  match onWalk recognizer (fillStructuralMask vocabulary self.guide.limits) self with
  | .ok _ self => .ok () self
  | .error error self => (do
      clear
      modifyStats fun stats => { stats with errors := saturatingAdd stats.errors 1 }
      throw error : Method RuntimeError MaskQuery Unit) self

/-- The part of `fill_mask` that computes a mask. -/
def compute : Method RuntimeError MaskQuery Unit := do
  let self ← get
  match self.guide.runtime with
  | .dfa index state => ((index.allowedTokens state).getD []).forM enable
  | .structural recognizer => do
    let vocabulary ← Method.unwrap self.guide.vocabulary
      (.internalInvariant "structural guide has no derived vocabulary")
    walkOrClear recognizer vocabulary

/-- The mask of a finished guide is empty. -/
def computeUnfinished : Method RuntimeError MaskQuery Unit := do
  let self ← get
  if self.guide.finished then pure () else compute

/-- The mask of the guide is written to the destination, from the cache or by asking the runtime. -/
def fillMask : Method RuntimeError MaskQuery Unit := do
  let self ← get
  Method.require (self.guide.maskWords ≤ self.destination.length)
    (.internalInvariant "mask destination is shorter than mask_words")
  clear
  modifyStats fun stats => { stats with queries := saturatingAdd stats.queries 1 }
  match self.guide.cachedMask with
  | some cached => do
    modify fun self => { self with
      destination := cached ++ self.destination.drop self.guide.maskWords }
    modifyStats fun stats => { stats with cacheHits := saturatingAdd stats.cacheHits 1 }
  | none => do
    modifyStats fun stats => { stats with cacheMisses := saturatingAdd stats.cacheMisses 1 }
    computeUnfinished
    rememberMask

end MaskQuery

namespace Guide

/-- The method of a guide, which is given the destination. -/
def fillMask (destination : List ℕ) : Method RuntimeError Guide (List ℕ) := fun self =>
  match MaskQuery.fillMask { guide := self, destination := destination } with
  | .ok _ query => .ok query.destination query.guide
  | .error error query => .error error query.guide

/-- The ids whose bits are set in the mask, in their order. -/
def getTokens : Method RuntimeError Guide (List ℕ) := do
  let self ← get
  let mask ← fillMask (List.replicate self.maskWords 0)
  (List.range self.vocabSize).foldlM (fun tokens token => do
    let word ← Method.unwrap mask[token / 32]? .panicked
    if word.testBit (token % 32) then do
      Method.require (token ≤ u32Max) (.internalInvariant "vocabulary width exceeds TokenId")
      pure (tokens ++ [token])
    else
      pure tokens) []

end Guide

end OcEarley

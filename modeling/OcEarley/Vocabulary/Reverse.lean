import Mathlib.Data.List.Lex
import OcEarley.Base.Lists
import OcEarley.Vocabulary.Basic

/-!
# The derived vocabulary

`DerivedVocabulary.build` checks a vocabulary, inverts it, and lays out a trie of its byte strings
in three tables: nodes, edges and token ids.
-/

namespace OcEarley

/-- A node of the trie: its edges and its token ids are slices of the tables. -/
structure TrieNode where
  edgeStart : ℕ
  edgeLen : ℕ
  tokenStart : ℕ
  tokenLen : ℕ
  deriving DecidableEq, Repr

/-- An edge of the trie. -/
structure TrieEdge where
  byte : UInt8
  child : ℕ
  deriving DecidableEq, Repr

/-- The trie of the token strings, flattened into tables. -/
structure TokenTrie where
  nodes : List TrieNode
  edges : List TrieEdge
  terminalIds : List ℕ
  deriving DecidableEq, Repr

/-- What the guides of a parser need of a vocabulary: the trie, and the bytes of every id. -/
structure DerivedVocabulary where
  trie : TokenTrie
  reverse : List (Option (List UInt8))
  eosTokenId : ℕ
  vocabSize : ℕ
  maskWords : ℕ
  totalTokenBytes : ℕ
  deriving DecidableEq, Repr

/-- A node of the trie while it is built. -/
structure BuildNode where
  children : AList fun _ : UInt8 => ℕ
  terminalIds : List ℕ

/-- `BuildNode::default`. -/
def BuildNode.default : BuildNode := ⟨∅, []⟩

namespace DerivedVocabulary

/-- `enforce`. -/
def enforce (observed limit : ℕ) : Except Error Unit :=
  Result.require (observed ≤ limit)
    (.compile (.resourceLimitExceeded .vocabularyProjection observed limit))

/-- `usize` arithmetic that must not overflow. -/
def checkedUsize (value limit : ℕ) : Except Error Unit :=
  Result.require (value ≤ usizeMax)
    (.compile (.resourceLimitExceeded .vocabularyProjection usizeMax limit))

/-- `checked_u32`. -/
def checkedU32 (value limit : ℕ) : Except Error ℕ := do
  Result.require (value ≤ u32Max)
    (.compile (.resourceLimitExceeded .vocabularyProjection value limit))
  pure value

/-- The entries sorted by their bytes. -/
def sortedEntries (vocabulary : Vocabulary) : List (List UInt8 × List ℕ) :=
  sortByKey (fun entry => entry.1.map UInt8.toNat)
    (vocabulary.tokens.entries.map fun entry => (entry.1, entry.2))

/-- What the first pass over the entries counts. -/
structure Totals where
  maxId : ℕ
  totalTokenBytes : ℕ
  aliasCount : ℕ

/-- The body of the first pass. -/
def countEntry (limits : CompileLimits) (totals : Totals) (entry : List UInt8 × List ℕ) :
    Except Error Totals := do
  Result.require (entry.1 ≠ []) .emptyTokenDisallowed
  enforce entry.1.length limits.maxTokenBytes
  let totalTokenBytes := totals.totalTokenBytes + entry.1.length
  checkedUsize totalTokenBytes limits.maxTotalTokenBytes
  enforce totalTokenBytes limits.maxTotalTokenBytes
  let aliasCount := totals.aliasCount + entry.2.length
  checkedUsize aliasCount limits.maxTrieTerminalIds
  enforce aliasCount limits.maxTrieTerminalIds
  pure {
    maxId := entry.2.foldl max totals.maxId
    totalTokenBytes := totalTokenBytes
    aliasCount := aliasCount }

/-- The step of a token from a node over a byte; a missing child is added. -/
def stepByte (limits : CompileLimits) (state : List BuildNode × ℕ) (byte : UInt8) :
    Except Error (List BuildNode × ℕ) := do
  let node ← Result.unwrap state.1[state.2]? (.compile .panicked)
  match node.children.lookup byte with
  | some child => pure (state.1, child)
  | none => do
    let child := state.1.length
    enforce (saturatingAdd child 1) limits.maxTrieNodes
    let nodes := (state.1 ++ [BuildNode.default]).modify state.2 fun node =>
      { node with children := node.children.insert byte child }
    pure (nodes, child)

/-- The trie and the inverse map filled so far. -/
structure Building where
  nodes : List BuildNode
  reverse : List (Option (List UInt8))

/-- The body of the loop over the ids of a token. -/
def addId (bytes : List UInt8) (node : ℕ) (building : Building) (id : ℕ) :
    Except Error Building := do
  let slot ← Result.unwrap building.reverse[id]? (.compile .panicked)
  Result.require (slot = none ∨ slot = some bytes) (.ambiguousTokenId id)
  pure {
    nodes := building.nodes.modify node fun node =>
      { node with terminalIds := node.terminalIds ++ [id] }
    reverse := building.reverse.set id (some bytes) }

/-- The body of the loop over the tokens. -/
def addToken (limits : CompileLimits) (building : Building) (entry : List UInt8 × List ℕ) :
    Except Error Building := do
  let state ← entry.1.foldlM (stepByte limits) (building.nodes, 0)
  (sortDedup (fun id : ℕ => id) entry.2).foldlM (addId entry.1 state.2)
    { building with nodes := state.1 }

/-- The body of the loop that lays out the tables. -/
def layNode (limits : CompileLimits) (trie : TokenTrie) (node : BuildNode) :
    Except Error TokenTrie := do
  let terminalIds := sortDedup (fun id : ℕ => id) node.terminalIds
  let children := sortByKey (fun entry => entry.1.toNat)
    (node.children.entries.map fun entry => (entry.1, entry.2))
  let edgeStart ← checkedU32 trie.edges.length limits.maxTrieEdges
  let edges ← children.mapM fun entry => do
    let child ← checkedU32 entry.2 limits.maxTrieNodes
    pure ({ byte := entry.1, child := child } : TrieEdge)
  let tokenStart ← checkedU32 trie.terminalIds.length limits.maxTrieTerminalIds
  let edgeLen ← checkedU32 children.length limits.maxTrieEdges
  let tokenLen ← checkedU32 terminalIds.length limits.maxTrieTerminalIds
  pure {
    nodes := trie.nodes ++ [{ edgeStart := edgeStart, edgeLen := edgeLen,
                              tokenStart := tokenStart, tokenLen := tokenLen }]
    edges := trie.edges ++ edges
    terminalIds := trie.terminalIds ++ terminalIds }

/-- Reserving memory is taken to succeed. -/
def build (vocabulary : Vocabulary) (limits : CompileLimits) : Except Error DerivedVocabulary := do
  enforce vocabulary.tokens.entries.length limits.maxTrieNodes
  let entries := sortedEntries vocabulary
  let totals ← entries.foldlM (countEntry limits)
    { maxId := vocabulary.eosTokenId, totalTokenBytes := 0, aliasCount := 0 }
  let vocabSize := totals.maxId + 1
  checkedUsize vocabSize limits.maxVocabularySlots
  enforce vocabSize limits.maxVocabularySlots
  checkedUsize (vocabSize + 31) limits.maxVocabularySlots
  -- the root is node 0, and no id has bytes yet
  let building ← entries.foldlM (addToken limits)
    { nodes := [BuildNode.default], reverse := List.replicate vocabSize none }
  let edgeCount := (building.nodes.map fun node => node.children.entries.length).sum
  checkedUsize edgeCount limits.maxTrieEdges
  enforce edgeCount limits.maxTrieEdges
  let trie ← building.nodes.foldlM (layNode limits) { nodes := [], edges := [], terminalIds := [] }
  pure {
    trie := trie
    reverse := building.reverse
    eosTokenId := vocabulary.eosTokenId
    vocabSize := vocabSize
    maskWords := (vocabSize + 31) / 32
    totalTokenBytes := totals.totalTokenBytes }

/-- The bytes of an id, if it has any. -/
def sharedBytes (vocabulary : DerivedVocabulary) (id : ℕ) : Option (List UInt8) :=
  vocabulary.reverse[id]?.getD none

end DerivedVocabulary

end OcEarley

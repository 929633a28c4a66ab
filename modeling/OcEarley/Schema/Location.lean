import OcEarley.Schema.Json

/-!
# Locations of a schema document

Every subschema of the document is indexed under its JSON Pointer.  The index of a subschema is its
schema id; local references are resolved to pointers.
-/

namespace OcEarley

/-! ### Errors -/

/-- The place of a keyword. -/
def keywordLocation (pointer : SchemaPointer) (keyword : String) : DiagnosticLocation where
  resource := 0
  pointer := pointer
  keyword := some keyword

/-- The error of a keyword with a value that it may not have. -/
def invalidValue (pointer : SchemaPointer) (keyword reason : String) : CompileError :=
  .invalidKeywordValue (keywordLocation pointer keyword) keyword reason

/-- The error of a schema that is not supported at the place. -/
def unsupportedCombination (pointer : SchemaPointer) (reason : String) : CompileError :=
  .unsupportedCombination { resource := 0, pointer := pointer, keyword := none } reason

/-! ### Pointers -/

/-- `str::replace` of a character. -/
def replaceChar (c : Char) (text : List Char) (l : List Char) : List Char :=
  l.flatMap fun d => if d = c then text else [d]

/-- A key, as it stands in a pointer. -/
def escapePointerSegment (segment : List Char) : List Char :=
  replaceChar '/' ['~', '1'] (replaceChar '~' ['~', '0'] segment)

/-- The pointer to what stands under the key. -/
def pointerJoin (pointer : SchemaPointer) (segment : String) : SchemaPointer :=
  ⟨pointer.text ++ String.ofList ('/' :: escapePointerSegment segment.toList)⟩

/-- The value of a hexadecimal digit. -/
def hex (byte : UInt8) : Option UInt8 :=
  if 48 ≤ byte ∧ byte ≤ 57 then some (byte - 48)
  else if 97 ≤ byte ∧ byte ≤ 102 then some (byte - 97 + 10)
  else if 65 ≤ byte ∧ byte ≤ 70 then some (byte - 65 + 10)
  else none

/-- The loop over the bytes. -/
def percentDecodeBytes : List UInt8 → Except String (List UInt8)
  | [] => pure []
  | byte :: bytes =>
    if byte = 37 then
      match bytes with
      | high :: low :: bytes => do
        let high ← Result.unwrap (hex high) "invalid percent escape"
        let low ← Result.unwrap (hex low) "invalid percent escape"
        let decoded ← percentDecodeBytes bytes
        pure ((high <<< 4 ||| low) :: decoded)
      | _ => throw "truncated percent escape"
    else do
      let decoded ← percentDecodeBytes bytes
      pure (byte :: decoded)

/-- A fragment with its percent encodings replaced; the result has to be UTF-8. -/
def percentDecode (value : List Char) : Except String (List Char) := do
  let decoded ← percentDecodeBytes (value.flatMap String.utf8EncodeChar)
  let text ← Result.unwrap decoded.toByteArray.utf8Decode? "fragment is not valid UTF-8"
  pure text.toList

/-- A segment of a pointer with its escapes replaced. -/
def decodePointerSegment : List Char → Except String (List Char)
  | [] => pure []
  | character :: value =>
    if character ≠ '~' then do
      let decoded ← decodePointerSegment value
      pure (character :: decoded)
    else
      match value with
      | '0' :: value => do
        let decoded ← decodePointerSegment value
        pure ('~' :: decoded)
      | '1' :: value => do
        let decoded ← decodePointerSegment value
        pure ('/' :: decoded)
      | _ => throw "invalid RFC 6901 escape"

/-- `map_err`. -/
def mapErr {α ε ε' : Type} (f : ε → ε') : Except ε α → Except ε' α
  | .ok a => .ok a
  | .error e => .error (f e)

/-- The pointer that a reference to a place in the same document stands for. -/
def resolveLocalPointer (source : SchemaPointer) (reference : String) :
    Except CompileError SchemaPointer := do
  Result.require (reference.toList.head? = some '#')
    (.remoteReferenceUnsupported (keywordLocation source "$ref") reference)
  let decoded ← mapErr (.invalidJsonPointer (keywordLocation source "$ref") reference)
    (percentDecode (reference.toList.drop 1))
  if decoded = [] then pure ⟨""⟩
  else do
    Result.require (decoded.head? = some '/')
      (.invalidJsonPointer (keywordLocation source "$ref") reference
        "only JSON Pointer fragments are supported")
    let segments ← ((decoded.drop 1).splitOn '/').mapM fun segment =>
      mapErr (.invalidJsonPointer (keywordLocation source "$ref") reference)
        (decodePointerSegment segment)
    pure ⟨String.ofList (segments.flatMap fun segment => '/' :: escapePointerSegment segment)⟩

/-! ### Indexing -/

/-- The value is a boolean or an object. -/
def isSchema (value : JsonValue) : Bool := value.asBool.isSome || value.asObject.isSome

/-- The subschemas under the names of an object, in the order of the names. -/
def namedChildren (pointer : SchemaPointer) (object : List (String × JsonValue))
    (keyword : String) :
    List (SchemaPointer × JsonValue) :=
  match (mapGet object keyword).bind JsonValue.asObject with
  | some entries =>
    ((sortByKey (fun m => m.1) entries).filter fun m => isSchema m.2).map fun m =>
      (pointerJoin (pointerJoin pointer keyword) m.1, m.2)
  | none => []

/-- The subschema that is the value of the keyword. -/
def singleChild (pointer : SchemaPointer) (object : List (String × JsonValue)) (keyword : String) :
    List (SchemaPointer × JsonValue) :=
  match mapGet object keyword with
  | some child => if isSchema child then [(pointerJoin pointer keyword, child)] else []
  | none => []

/-- The subschemas in an array, under their indices. -/
def indexedChildren (pointer : SchemaPointer) (object : List (String × JsonValue))
    (keyword : String) : List (SchemaPointer × JsonValue) :=
  match (mapGet object keyword).bind JsonValue.asArray with
  | some entries =>
    (entries.zipIdx.filter fun entry => isSchema entry.1).map fun entry =>
      (pointerJoin (pointerJoin pointer keyword) (toString entry.2), entry.1)
  | none => []

/-- The subschemas of a schema, in the order that the worklist takes them. -/
def schemaChildren (pointer : SchemaPointer) (value : JsonValue) :
    List (SchemaPointer × JsonValue) :=
  match value.asObject with
  | none => []
  | some object =>
    ["$defs", "properties"].flatMap (namedChildren pointer object) ++
    ["additionalProperties", "items"].flatMap (singleChild pointer object) ++
    ["prefixItems", "allOf", "anyOf", "oneOf"].flatMap (indexedChildren pointer object)

namespace JsonValue

mutual

/-- The number of values inside the value, itself included. -/
def size : JsonValue → ℕ
  | .array elements => 1 + elementSize elements
  | .object members => 1 + memberSize members
  | _ => 1

/-- The number of values in the elements. -/
def elementSize : List JsonValue → ℕ
  | [] => 0
  | v :: elements => v.size + elementSize elements

/-- The number of values in the members. -/
def memberSize : List (String × JsonValue) → ℕ
  | [] => 0
  | (_, v) :: members => v.size + memberSize members

end

end JsonValue

/-- The worklist and what has been indexed. -/
structure Indexing where
  work : List (SchemaPointer × JsonValue)
  rawNodes : List (SchemaPointer × JsonValue)
  seen : List SchemaPointer

/-- One location is taken from the worklist, whose top is the head. -/
def Indexing.step (limits : CompileLimits) (indexing : Indexing) (pointer : SchemaPointer)
    (value : JsonValue) (work : List (SchemaPointer × JsonValue)) : Except CompileError Indexing :=
  if pointer ∈ indexing.seen then pure { indexing with work := work }
  else do
    enforceCompileLimit .schemaIndex (indexing.rawNodes.length + 1) limits.maxSchemaNodes
    let children := sortByKey (fun c => c.1.text) (schemaChildren pointer value)
    pure {
      work := children ++ work
      rawNodes := indexing.rawNodes ++ [(pointer, value)]
      seen := indexing.seen ++ [pointer] }

/-- The worklist is taken from the front until it is empty. -/
def Indexing.loop (limits : CompileLimits) : ℕ → Indexing → Except CompileError Indexing
  | 0, _ => throw .diverged
  | fuel + 1, indexing =>
    match indexing.work with
    | [] => pure indexing
    | (pointer, value) :: work => do
      let indexing ← Indexing.step limits indexing pointer value work
      Indexing.loop limits fuel indexing

/-- No more locations than the document has values are ever taken from the worklist. -/
def indexSchemaLocations (root : JsonValue) (limits : CompileLimits) :
    Except CompileError (List (SchemaPointer × JsonValue)) := do
  let indexing ← Indexing.loop limits (root.size + 1) ⟨[(⟨""⟩, root)], [], []⟩
  pure indexing.rawNodes

end OcEarley

import Mathlib.Data.List.AList
import OcEarley.Schema.Location

/-!
# Normalization

`normalizeNode` turns an indexed subschema into a node of the arena.  It is a cascade of cases on
the keywords that are present; what it cannot express exactly is an error.
-/

namespace OcEarley

/-- The only dialect. -/
def draft202012 : String := "https://json-schema.org/draft/2020-12/schema"

/-- The values of `type`. -/
inductive JsonType
  | null | boolean | string | number | integer | array | object
  deriving DecidableEq, Repr

/-- A reference from one node to another. -/
structure ReferenceEdge where
  fromId : ℕ
  toId : ℕ
  provenance : Provenance
  deriving DecidableEq, Repr

/-! ### Keywords -/

/-- The schema constrains strings. -/
def hasStringKeywords (object : List (String × JsonValue)) : Bool :=
  ["minLength", "maxLength"].any (containsKey object)

/-- The schema constrains objects. -/
def hasObjectKeywords (object : List (String × JsonValue)) : Bool :=
  ["properties", "required", "additionalProperties"].any (containsKey object)

/-- The schema constrains arrays. -/
def hasArrayKeywords (object : List (String × JsonValue)) : Bool :=
  ["items", "prefixItems", "minItems", "maxItems"].any (containsKey object)

/-- The schema constrains objects or arrays. -/
def hasStructuralKeywords (object : List (String × JsonValue)) : Bool :=
  hasObjectKeywords object || hasArrayKeywords object

/-- The keyword does not constrain values. -/
def isAnnotation (keyword : String) : Bool :=
  keyword ∈ ["$schema", "$defs", "$comment", "title", "description", "default", "examples",
    "deprecated", "readOnly", "writeOnly"]

/-- The keywords that a schema may have. -/
def supportedKeywords : List String :=
  ["$schema", "$defs", "$ref", "$comment", "title", "description", "default", "examples",
    "deprecated", "readOnly", "writeOnly", "type", "const", "enum", "properties", "required",
    "additionalProperties", "items", "prefixItems", "minItems", "maxItems", "minLength",
      "maxLength",
    "allOf", "anyOf", "oneOf"]

/-- Only supported keywords occur. -/
def validateKeywords (pointer : SchemaPointer) (object : List (String × JsonValue)) :
    Except CompileError Unit :=
  object.forM fun m =>
    Result.require (m.1 ∈ supportedKeywords)
      (.unsupportedKeyword (keywordLocation pointer m.1) m.1)

/-- The check of a keyword whose value names schemas. -/
def validateNamed (pointer : SchemaPointer) (object : List (String × JsonValue))
    (keyword notObject notSchema : String) : Except CompileError Unit :=
  match mapGet object keyword with
  | none => pure ()
  | some value => do
    let entries ← Result.unwrap value.asObject (invalidValue pointer keyword notObject)
    entries.forM fun m =>
      Result.require (isSchema m.2 = true)
        (invalidValue (pointerJoin (pointerJoin pointer keyword) m.1) keyword notSchema)

/-- What applies subschemas has subschemas where it should. -/
def validateContainers (pointer : SchemaPointer) (object : List (String × JsonValue)) :
    Except CompileError Unit := do
  validateNamed pointer object "$defs" "$defs must be an object"
    "definition must be a boolean or object schema"
  validateNamed pointer object "properties" "properties must be an object"
    "property value must be a boolean or object schema"
  ["additionalProperties", "items"].forM fun keyword =>
    match mapGet object keyword with
    | none => pure ()
    | some value => Result.require (isSchema value = true)
        (invalidValue pointer keyword "value must be a boolean or object schema")
  ["prefixItems", "allOf", "anyOf", "oneOf"].forM fun keyword =>
    match mapGet object keyword with
    | none => pure ()
    | some value => do
      let entries ← Result.unwrap value.asArray
        (invalidValue pointer keyword "value must be an array")
      Result.require (¬(entries = [] ∧ keyword ∈ ["allOf", "anyOf", "oneOf"]))
        (invalidValue pointer keyword "array must not be empty")
      Result.require (entries.all isSchema = true)
        (invalidValue pointer keyword "every entry must be a boolean or object schema")

/-- The type that the schema declares, if any. -/
def parseDeclaredType (pointer : SchemaPointer) (object : List (String × JsonValue)) :
    Except CompileError (Option JsonType) :=
  match mapGet object "type" with
  | none => pure none
  | some rawType => do
    let name ← Result.unwrap rawType.asStr
      (invalidValue pointer "type" "K1 requires type to be a single string")
    match name with
    | "null" => pure (some .null)
    | "boolean" => pure (some .boolean)
    | "string" => pure (some .string)
    | "number" => pure (some .number)
    | "integer" => pure (some .integer)
    | "array" => pure (some .array)
    | "object" => pure (some .object)
    | _ => throw (invalidValue pointer "type" "unknown JSON Schema type")

/-- The value has the type. -/
def valueMatchesType (value : JsonValue) (kind : JsonType) : Bool :=
  match kind with
  | .null => value.isNull
  | .boolean => value.asBool.isSome
  | .string => value.asStr.isSome
  | .number => value.asNumber.isSome
  | .integer => value.asNumber.any fun n => numberIsInteger n.text
  | .array => value.asArray.isSome
  | .object => value.asObject.isSome

/-- A keyword with a size for its value. -/
def optionalUsize (pointer : SchemaPointer) (object : List (String × JsonValue))
    (keyword : String) :
    Except CompileError (Option ℕ) :=
  match mapGet object keyword with
  | none => pure none
  | some value => do
    let value ← Result.unwrap value.asU64
      (invalidValue pointer keyword "value must be a non-negative integer")
    Result.require (value ≤ usizeMax)
      (invalidValue pointer keyword "value is too large for this platform")
    pure (some value)

/-- The length of a string is within the bounds of the schema; other values pass. -/
def valueMatchesStringKeywords (pointer : SchemaPointer) (object : List (String × JsonValue))
    (value : JsonValue) : Except CompileError Bool :=
  match value.asStr with
  | none => pure true
  | some value => do
    let minLength ← optionalUsize pointer object "minLength"
    let maxLength ← optionalUsize pointer object "maxLength"
    let length := value.toList.length
    pure (decide (minLength.getD 0 ≤ length) && maxLength.all fun maximum => length ≤ maximum)

/-! ### Nodes -/

/-- The id of an indexed subschema. -/
def indexedId (pointerToId : AList fun _ : SchemaPointer => ℕ) (child : SchemaPointer)
    (message : String) : Except CompileError ℕ :=
  Result.unwrap (pointerToId.lookup child) (.internalInvariant message)

/-- The ids of the subschemas in a list. -/
def childIds (pointer : SchemaPointer) (keyword : String) (value : JsonValue)
    (pointerToId : AList fun _ : SchemaPointer => ℕ) : Except CompileError (List ℕ) := do
  let entries ← Result.unwrap value.asArray (invalidValue pointer keyword "value must be an array")
  (List.range entries.length).mapM fun index =>
    indexedId pointerToId (pointerJoin (pointerJoin pointer keyword) (toString index))
      "indexed applicator schema is missing"

/-- The loop over the branches; nothing is left where they contradict each other. -/
def allOfLoop (pointer : SchemaPointer) (rawNodes : List (SchemaPointer × JsonValue)) :
    List ℕ → Option JsonValue → Option JsonType →
    Except CompileError (Option (Option JsonValue × Option JsonType))
  | [], constant, requiredType => pure (some (constant, requiredType))
  | id :: ids, constant, requiredType => do
    let rawNode ← vecGet rawNodes id
    let branch ← Result.unwrap rawNode.2.asObject
      (unsupportedCombination pointer "boolean allOf branches require Boolean operations")
    match mapGet branch "const" with
    | some value => do
      Result.require (branch.all (fun m => isAnnotation m.1 || m.1 = "const") = true ∧
          constant.isNone = true)
        (unsupportedCombination pointer
          "allOf is supported only for one const intersected with simple types")
      allOfLoop pointer rawNodes ids (some value) requiredType
    | none => do
      let declared ← parseDeclaredType rawNode.1 branch
      match declared with
      | some kind => do
        Result.require (branch.all (fun m => isAnnotation m.1 || m.1 = "type") = true)
          (unsupportedCombination pointer
            "allOf simple type branches cannot contain other assertions")
        -- no value has two simple types
        if requiredType.any (fun previous => previous ≠ kind) then pure none
        else allOfLoop pointer rawNodes ids constant (some kind)
      | none => throw (unsupportedCombination pointer
          "allOf requires exact intersection not available for these branches")

/-- An `allOf` whose branches are constants and types: what they have in common. -/
def normalizeSimpleAllOf (pointer : SchemaPointer) (object : List (String × JsonValue))
    (rawNodes : List (SchemaPointer × JsonValue)) (pointerToId : AList fun _ : SchemaPointer => ℕ) :
    Except CompileError NormalizedSchema := do
  let entries ← Result.unwrap (mapGet object "allOf") .panicked
  let ids ← childIds pointer "allOf" entries pointerToId
  let outcome ← allOfLoop pointer rawNodes ids none none
  match outcome with
  | none => pure .never
  | some (constant, requiredType) => do
    let constant ← Result.unwrap constant
      (unsupportedCombination pointer
        "allOf without a finite const branch requires DFA intersection")
    if requiredType.all (valueMatchesType constant) then do
      let value ← canonicalValue constant
      pure (.const value)
    else pure .never

/-- The bounds of a string. -/
def normalizeString (pointer : SchemaPointer) (object : List (String × JsonValue)) :
    Except CompileError NormalizedSchema := do
  let minLength ← optionalUsize pointer object "minLength"
  let maxLength ← optionalUsize pointer object "maxLength"
  if maxLength.any fun maximum => maximum < minLength.getD 0 then pure .never
  else pure (.string { minLength := minLength.getD 0, maxLength := maxLength })

/-- The items of an array and their bounds. -/
def normalizeArray (pointer : SchemaPointer) (object : List (String × JsonValue))
    (pointerToId : AList fun _ : SchemaPointer => ℕ) : Except CompileError NormalizedSchema := do
  let minItems ← optionalUsize pointer object "minItems"
  let maxItems ← optionalUsize pointer object "maxItems"
  -- without a length that fits, the items are not looked at
  if maxItems.any fun maximum => maximum < minItems.getD 0 then pure .never
  else do
    let prefixItems ← match mapGet object "prefixItems" with
      | some value => childIds pointer "prefixItems" value pointerToId
      | none => pure []
    let items ← match mapGet object "items" with
      | some _ => do
        let id ← indexedId pointerToId (pointerJoin pointer "items")
          "indexed items schema is missing"
        pure (some id)
      | none => pure none
    pure (.array {
      prefixItems := prefixItems
      items := items
      minItems := minItems.getD 0
      maxItems := maxItems })

/-- The names that are required, in the order of the set. -/
def requiredNames (pointer : SchemaPointer) (object : List (String × JsonValue)) :
    Except CompileError (List String) :=
  match mapGet object "required" with
  | none => pure []
  | some rawRequired => do
    let entries ← Result.unwrap rawRequired.asArray
      (invalidValue pointer "required" "required must be an array")
    let required ← entries.foldlM (fun required entry => do
      let name ← Result.unwrap entry.asStr
        (invalidValue pointer "required" "required entries must be strings")
      Result.require (name ∉ required)
        (invalidValue pointer "required" "required entries must be unique")
      pure (required ++ [name])) []
    pure (sortByKey id required)

/-- The properties of an object with the ids of their schemas, and which of them are required. -/
def normalizeObject (pointer : SchemaPointer) (object : List (String × JsonValue))
    (pointerToId : AList fun _ : SchemaPointer => ℕ) : Except CompileError NormalizedSchema := do
  let properties ← match (mapGet object "properties").bind JsonValue.asObject with
    | some rawProperties => rawProperties.mapM fun m => do
      let id ← indexedId pointerToId (pointerJoin (pointerJoin pointer "properties") m.1)
        "indexed property schema is missing"
      pure (m.1, id)
    | none => pure []
  let required ← requiredNames pointer object
  let additionalProperties ← match mapGet object "additionalProperties" with
    | none => pure .unconstrained
    | some (.bool true) => pure .unconstrained
    | some (.bool false) => pure .forbidden
    | some _ => do
      let id ← indexedId pointerToId (pointerJoin pointer "additionalProperties")
        "indexed additionalProperties schema is missing"
      pure (.schema id)
  pure (.object {
    properties := sortByKey (fun m => m.1) properties
    required := required
    additionalProperties := additionalProperties })

/-- The case of `$ref`. -/
def normalizeReference (id : ℕ) (pointer : SchemaPointer) (reference : JsonValue)
    (pointerToId : AList fun _ : SchemaPointer => ℕ) (limits : CompileLimits)
    (referenceEdges : List ReferenceEdge) :
    Except CompileError (NormalizedSchema × List ReferenceEdge) := do
  let reference ← Result.unwrap reference.asStr
    (invalidValue pointer "$ref" "a reference must be a string")
  let targetPointer ← resolveLocalPointer pointer reference
  let target ← Result.unwrap (pointerToId.lookup targetPointer)
    (.referenceNotFound (keywordLocation pointer "$ref") reference)
  enforceCompileLimit .referenceResolution (referenceEdges.length + 1) limits.maxRefEdges
  pure (.ref target, referenceEdges ++ [{
    fromId := id
    toId := target
    provenance := { resource := 0, pointer := pointer, keyword := some "$ref" } }])

/-- The case of `const`. -/
def normalizeConst (pointer : SchemaPointer) (object : List (String × JsonValue))
    (declaredType : Option JsonType) (constant : JsonValue) :
    Except CompileError NormalizedSchema := do
  Result.require ((containsKey object "enum" || hasStructuralKeywords object) = false)
    (unsupportedCombination pointer "const cannot be combined with other value assertions in K1")
  if declaredType.all (valueMatchesType constant) then do
    let fits ← valueMatchesStringKeywords pointer object constant
    if fits then do
      let value ← canonicalValue constant
      pure (.const value)
    else pure .never
  else pure .never

/-- What the loop over the entries of an `enum` has seen and kept. -/
structure EnumEntries where
  seen : List String
  canonical : List CanonicalValue

/-- One more entry, which none before may be equal to; it is kept if it fits the
rest of the schema. -/
def EnumEntries.add (pointer : SchemaPointer) (object : List (String × JsonValue))
    (declaredType : Option JsonType) (entries : EnumEntries) (value : JsonValue) :
    Except CompileError EnumEntries := do
  let canonicalValue ← canonicalValue value
  Result.require (canonicalValue.json ∉ entries.seen)
    (invalidValue pointer "enum" "enum entries must be unique")
  let fits ← if declaredType.all (valueMatchesType value) then
      valueMatchesStringKeywords pointer object value
    else pure false
  pure {
    seen := entries.seen ++ [canonicalValue.json]
    canonical := if fits then entries.canonical ++ [canonicalValue] else entries.canonical }

/-- The case of `enum`. -/
def normalizeEnum (pointer : SchemaPointer) (object : List (String × JsonValue))
    (declaredType : Option JsonType) (values : JsonValue) :
    Except CompileError NormalizedSchema := do
  Result.require (hasStructuralKeywords object = false)
    (unsupportedCombination pointer "enum cannot be combined with structural assertions in K1")
  let values ← Result.unwrap values.asArray (invalidValue pointer "enum" "enum must be an array")
  Result.require (values ≠ []) (invalidValue pointer "enum" "enum must not be empty")
  let entries ← values.foldlM (EnumEntries.add pointer object declaredType) ⟨[], []⟩
  if entries.canonical = [] then pure .never
  else pure (.enum (sortByKey (fun value => value.json) entries.canonical))

/-- The case of a type without a finite list of values. -/
def normalizeTyped (pointer : SchemaPointer) (object : List (String × JsonValue))
    (declaredType : Option JsonType) (pointerToId : AList fun _ : SchemaPointer => ℕ) :
    Except CompileError NormalizedSchema :=
  if hasObjectKeywords object && declaredType = some .object then
    normalizeObject pointer object pointerToId
  else do
    Result.require (¬(hasObjectKeywords object = true ∧ declaredType = none))
      (unsupportedCombination pointer "object keywords require an explicit object type in K1")
    if hasArrayKeywords object && declaredType = some .array then
      normalizeArray pointer object pointerToId
    else do
      Result.require (¬(hasArrayKeywords object = true ∧ declaredType = none))
        (unsupportedCombination pointer "array keywords require an explicit array type in K1")
      Result.require (¬(hasStringKeywords object = true ∧ declaredType = none))
        (unsupportedCombination pointer
          "string constraints without a finite value or explicit string type require a union")
      match declaredType with
      | none => pure .any
      | some .null => pure .null
      | some .boolean => pure .boolean
      | some .string => normalizeString pointer object
      | some .number => pure .number
      | some .integer => pure .integer
      | some .array => normalizeArray pointer object pointerToId
      | some .object => normalizeObject pointer object pointerToId

/-- The check of the dialect identifier. -/
def checkDialect (pointer : SchemaPointer) (object : List (String × JsonValue)) :
    Except CompileError Unit :=
  match mapGet object "$schema" with
  | none => pure ()
  | some dialect => do
    let found ← Result.unwrap dialect.asStr
      (invalidValue pointer "$schema" "the dialect identifier must be a string")
    Result.require (found = draft202012 ∨ found = draft202012 ++ "#") (.unsupportedDialect found)

/-- How many keywords that decide the kind of the node are present. -/
def semanticCount (object : List (String × JsonValue)) : ℕ :=
  (["$ref", "const", "enum", "type", "allOf", "anyOf", "oneOf"].filter (containsKey object)).length

/-- The cases of an object, after it has been validated. -/
def normalizeKeywords (id : ℕ) (pointer : SchemaPointer) (object : List (String × JsonValue))
    (rawNodes : List (SchemaPointer × JsonValue)) (pointerToId : AList fun _ : SchemaPointer => ℕ)
    (limits : CompileLimits) (referenceEdges : List ReferenceEdge) :
    Except CompileError (NormalizedSchema × List ReferenceEdge) :=
  if containsKey object "allOf" then do
    Result.require (semanticCount object = 1 ∧ hasStructuralKeywords object = false)
      (unsupportedCombination pointer "allOf with adjacent assertions is not implemented exactly")
    let kind ← normalizeSimpleAllOf pointer object rawNodes pointerToId
    pure (kind, referenceEdges)
  else do
    Result.require (containsKey object "oneOf" = false)
      (unsupportedCombination pointer
        "exclusive oneOf requires exact Boolean automaton construction")
    match mapGet object "anyOf" with
    | some branches => do
      Result.require (semanticCount object = 1 ∧ hasStructuralKeywords object = false)
        (unsupportedCombination pointer "anyOf with adjacent assertions is not implemented exactly")
      let ids ← childIds pointer "anyOf" branches pointerToId
      pure (.union ids, referenceEdges)
    | none =>
      match mapGet object "$ref" with
      | some reference => do
        Result.require (semanticCount object = 1 ∧ hasStructuralKeywords object = false)
          (unsupportedCombination pointer
            "$ref siblings with assertions require exact intersection")
        normalizeReference id pointer reference pointerToId limits referenceEdges
      | none => do
        let declaredType ← parseDeclaredType pointer object
        let kind ← match mapGet object "const" with
          | some constant => normalizeConst pointer object declaredType constant
          | none =>
            match mapGet object "enum" with
            | some values => normalizeEnum pointer object declaredType values
            | none => normalizeTyped pointer object declaredType pointerToId
        pure (kind, referenceEdges)

/-- A location is normalized, by the keyword that governs it. -/
def normalizeNode (id : ℕ) (pointer : SchemaPointer) (raw : JsonValue)
    (rawNodes : List (SchemaPointer × JsonValue)) (pointerToId : AList fun _ : SchemaPointer => ℕ)
    (limits : CompileLimits) (referenceEdges : List ReferenceEdge) :
    Except CompileError (NormalizedSchema × List ReferenceEdge) :=
  match raw with
  | .bool value => pure (if value then .any else .never, referenceEdges)
  | _ => do
    let object ← Result.unwrap raw.asObject
      (invalidValue pointer "schema" "a schema must be a boolean or object")
    validateKeywords pointer object
    validateContainers pointer object
    checkDialect pointer object
    normalizeKeywords id pointer object rawNodes pointerToId limits referenceEdges

/-! ### The arena -/

/-- The pointers of the indexed subschemas, with their ids. -/
def pointerIds (rawNodes : List (SchemaPointer × JsonValue)) :
    Except CompileError (AList fun _ : SchemaPointer => ℕ) :=
  rawNodes.zipIdx.foldlM (fun pointerToId entry => do
    let id ← toU32 entry.2 .schemaIndex
    pure (pointerToId.insert entry.1.1 id)) ∅

/-- The nodes that have been normalized, and the references among them. -/
structure Normalizing where
  nodes : List SchemaNode
  referenceEdges : List ReferenceEdge

/-- The arena of a document: its locations are indexed, and every one becomes a node. -/
def normalizeSchema (root : JsonValue) (limits : CompileLimits) :
    Except CompileError (SchemaArena × List ReferenceEdge) := do
  let rawNodes ← indexSchemaLocations root limits
  let pointerToId ← pointerIds rawNodes
  let result ← rawNodes.zipIdx.foldlM (fun (result : Normalizing) entry => do
    let (kind, referenceEdges) ← normalizeNode entry.2 entry.1.1 entry.1.2 rawNodes
      pointerToId limits
      result.referenceEdges
    let node : SchemaNode := {
      id := entry.2
      provenance := { resource := 0, pointer := entry.1.1, keyword := none }
      kind := kind }
    pure (⟨result.nodes ++ [node], referenceEdges⟩ : Normalizing)) ⟨[], []⟩
  pure ({ root := 0, nodes := result.nodes }, result.referenceEdges)

/-! ### The cases of a node -/

/-- How an object has been normalized. -/
inductive NormalizedBy (id : ℕ) (pointer : SchemaPointer) (object : List (String × JsonValue))
    (rawNodes : List (SchemaPointer × JsonValue)) (pointerToId : AList fun _ : SchemaPointer => ℕ)
    (limits : CompileLimits) (edges : List ReferenceEdge) :
    NormalizedSchema → List ReferenceEdge → Prop
  | allOf {kind : NormalizedSchema} (hallOf : containsKey object "allOf" = true)
      (hcount : semanticCount object = 1) (hstructural : hasStructuralKeywords object = false)
      (h : normalizeSimpleAllOf pointer object rawNodes pointerToId = .ok kind) :
      NormalizedBy id pointer object rawNodes pointerToId limits edges kind edges
  | anyOf {branches : JsonValue} {ids : List ℕ} (hanyOf : mapGet object "anyOf" = some branches)
      (hcount : semanticCount object = 1) (hstructural : hasStructuralKeywords object = false)
      (h : childIds pointer "anyOf" branches pointerToId = .ok ids) :
      NormalizedBy id pointer object rawNodes pointerToId limits edges (.union ids) edges
  | reference {reference : JsonValue} {kind : NormalizedSchema} {edges' : List ReferenceEdge}
      (href : mapGet object "$ref" = some reference) (hcount : semanticCount object = 1)
      (hstructural : hasStructuralKeywords object = false)
      (h : normalizeReference id pointer reference pointerToId limits edges = .ok (kind, edges')) :
      NormalizedBy id pointer object rawNodes pointerToId limits edges kind edges'
  | const {declaredType : Option JsonType} {constant : JsonValue} {kind : NormalizedSchema}
      (hnone : ∀ key ∈ ["allOf", "oneOf", "anyOf", "$ref"], containsKey object key = false)
      (htype : parseDeclaredType pointer object = .ok declaredType)
      (hconst : mapGet object "const" = some constant)
      (h : normalizeConst pointer object declaredType constant = .ok kind) :
      NormalizedBy id pointer object rawNodes pointerToId limits edges kind edges
  | enum {declaredType : Option JsonType} {values : JsonValue} {kind : NormalizedSchema}
      (hnone : ∀ key ∈ ["allOf", "oneOf", "anyOf", "$ref", "const"], containsKey object key = false)
      (htype : parseDeclaredType pointer object = .ok declaredType)
      (henum : mapGet object "enum" = some values)
      (h : normalizeEnum pointer object declaredType values = .ok kind) :
      NormalizedBy id pointer object rawNodes pointerToId limits edges kind edges
  | typed {declaredType : Option JsonType} {kind : NormalizedSchema}
      (hnone : ∀ key ∈ ["allOf", "oneOf", "anyOf", "$ref", "const", "enum"],
        containsKey object key = false)
      (htype : parseDeclaredType pointer object = .ok declaredType)
      (h : normalizeTyped pointer object declaredType pointerToId = .ok kind) :
      NormalizedBy id pointer object rawNodes pointerToId limits edges kind edges

variable {id : ℕ} {pointer : SchemaPointer} {object : List (String × JsonValue)}
  {rawNodes : List (SchemaPointer × JsonValue)} {pointerToId : AList fun _ : SchemaPointer => ℕ}
  {limits : CompileLimits} {edges edges' : List ReferenceEdge} {kind : NormalizedSchema}

theorem containsKey_of_mapGet {key : String} {v : JsonValue} (h : mapGet object key = some v) :
    containsKey object key = true := by
  rw [containsKey, h]
  rfl

theorem containsKey_of_mapGet_none {key : String} (h : mapGet object key = none) :
    containsKey object key = false := by
  rw [containsKey, h]
  rfl

theorem mapGet_of_not_containsKey {key : String} (h : containsKey object key = false) :
    mapGet object key = none := by
  rw [containsKey] at h
  exact Option.isNone_iff_eq_none.1 (by rw [← Option.not_isSome, h]; rfl)

theorem NormalizedBy.of_normalizeKeywords
    (h : normalizeKeywords id pointer object rawNodes pointerToId limits edges =
      .ok (kind, edges')) :
    NormalizedBy id pointer object rawNodes pointerToId limits edges kind edges' := by
  -- the keywords in the order of their precedence, each with those before it absent
  unfold normalizeKeywords at h
  split at h
  · next hallOf =>
    obtain ⟨_, hchecks, h⟩ := Result.bind_eq_ok.1 h
    obtain ⟨hcount, hstructural⟩ := Result.require_eq_ok.1 hchecks
    obtain ⟨kind', hkind, h⟩ := Result.bind_eq_ok.1 h
    obtain ⟨rfl, rfl⟩ := Prod.mk.inj (Result.pure_eq_ok.1 h)
    exact .allOf hallOf hcount hstructural hkind
  · next hallOf =>
    obtain ⟨_, honeOf, h⟩ := Result.bind_eq_ok.1 h
    have hallOf := eq_false_of_ne_true hallOf
    have honeOf := Result.require_eq_ok.1 honeOf
    split at h
    · next branches hanyOf =>
      obtain ⟨_, hchecks, h⟩ := Result.bind_eq_ok.1 h
      obtain ⟨hcount, hstructural⟩ := Result.require_eq_ok.1 hchecks
      obtain ⟨ids, hids, h⟩ := Result.bind_eq_ok.1 h
      obtain ⟨rfl, rfl⟩ := Prod.mk.inj (Result.pure_eq_ok.1 h)
      exact .anyOf hanyOf hcount hstructural hids
    · next hanyOf =>
      have hanyOf := containsKey_of_mapGet_none hanyOf
      split at h
      · next reference href =>
        obtain ⟨_, hchecks, h⟩ := Result.bind_eq_ok.1 h
        obtain ⟨hcount, hstructural⟩ := Result.require_eq_ok.1 hchecks
        exact .reference href hcount hstructural h
      · next href =>
        have href := containsKey_of_mapGet_none href
        have hnone : ∀ key ∈ ["allOf", "oneOf", "anyOf", "$ref"],
            containsKey object key = false := by
          simp [hallOf, honeOf, hanyOf, href]
        obtain ⟨declaredType, htype, h⟩ := Result.bind_eq_ok.1 h
        split at h
        · next constant hconst =>
          obtain ⟨kind', hkind, h⟩ := Result.bind_eq_ok.1 h
          obtain ⟨rfl, rfl⟩ := Prod.mk.inj (Result.pure_eq_ok.1 h)
          exact .const hnone htype hconst hkind
        · next hconst =>
          have hconst := containsKey_of_mapGet_none hconst
          split at h
          · next values henum =>
            obtain ⟨kind', hkind, h⟩ := Result.bind_eq_ok.1 h
            obtain ⟨rfl, rfl⟩ := Prod.mk.inj (Result.pure_eq_ok.1 h)
            exact .enum (by simpa [hconst] using hnone) htype henum hkind
          · next henum =>
            have henum := containsKey_of_mapGet_none henum
            obtain ⟨kind', hkind, h⟩ := Result.bind_eq_ok.1 h
            obtain ⟨rfl, rfl⟩ := Prod.mk.inj (Result.pure_eq_ok.1 h)
            exact .typed (by simpa [hconst, henum] using hnone) htype hkind

/-- **How an object is normalized.** -/
theorem NormalizedBy.of_normalizeNode
    (h : normalizeNode id pointer (.object object) rawNodes pointerToId limits edges =
      .ok (kind, edges')) :
    (validateKeywords pointer object = .ok () ∧ validateContainers pointer object = .ok ()) ∧
      NormalizedBy id pointer object rawNodes pointerToId limits edges kind edges' := by
  obtain ⟨found, hfound, h⟩ := Result.bind_eq_ok.1 h
  obtain rfl : object = found := Option.some.inj (Result.unwrap_eq_ok.1 hfound)
  obtain ⟨_, hkeywords, h⟩ := Result.bind_eq_ok.1 h
  obtain ⟨_, hcontainers, h⟩ := Result.bind_eq_ok.1 h
  obtain ⟨_, -, h⟩ := Result.bind_eq_ok.1 h
  exact ⟨⟨hkeywords, hcontainers⟩, .of_normalizeKeywords h⟩

/-- Two keywords that decide the kind of the node. -/
theorem semanticCount_ne_one {a b : String} (ha : containsKey object a = true)
    (hb : containsKey object b = true) (hsub : [a, b].Sublist ["$ref", "const", "enum", "type",
      "allOf", "anyOf", "oneOf"]) : semanticCount object ≠ 1 := by
  have hle := (hsub.filter (containsKey object)).length_le
  rw [List.filter_cons_of_pos ha, List.filter_cons_of_pos hb] at hle
  have htwo : 2 ≤ semanticCount object := hle
  omega

end OcEarley

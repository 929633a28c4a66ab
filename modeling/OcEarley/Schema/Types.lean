import OcEarley.Base.Error

/-!
# Normalized schemas

The arena that a schema is normalized to, and the texts of the patterns of the JSON types.  A
schema id is the index of its node.  Sorted maps and sets are lists in ascending order.
-/

namespace OcEarley

/-- The canonical text of a value. -/
structure CanonicalValue where
  json : String
  deriving DecidableEq, Repr

/-- The bounds of a string's length. -/
structure StringConstraints where
  minLength : ℕ
  maxLength : Option ℕ
  deriving DecidableEq, Repr

/-- The items of an array and the bounds of their number. -/
structure ArrayConstraints where
  prefixItems : List ℕ
  items : Option ℕ
  minItems : ℕ
  maxItems : Option ℕ
  deriving DecidableEq, Repr

/-- What properties an object may have beside those that are listed. -/
inductive AdditionalProperties
  | forbidden
  | unconstrained
  | schema (id : ℕ)
  deriving DecidableEq, Repr

/-- The properties of an object, those that are required, and what else it may have. -/
structure ObjectConstraints where
  properties : List (String × ℕ)
  required : List String
  additionalProperties : AdditionalProperties
  deriving DecidableEq, Repr

/-- What a node of the arena stands for. -/
inductive NormalizedSchema
  | any
  | never
  | null
  | boolean
  | string (constraints : StringConstraints)
  | number
  | integer
  | const (value : CanonicalValue)
  | enum (values : List CanonicalValue)
  | array (constraints : ArrayConstraints)
  | object (constraints : ObjectConstraints)
  | union (branches : List ℕ)
  | ref (target : ℕ)
  deriving DecidableEq, Repr

/-- A node of the arena, which comes from one place of the document. -/
structure SchemaNode where
  id : ℕ
  provenance : Provenance
  kind : NormalizedSchema
  deriving DecidableEq, Repr

/-- A normalized document: a node for every location. -/
structure SchemaArena where
  root : ℕ
  nodes : List SchemaNode
  deriving DecidableEq, Repr

/-- The node of an id. -/
def SchemaArena.node (arena : SchemaArena) (id : ℕ) : Option SchemaNode := arena.nodes[id]?

/-- The node has the kind `Never`. -/
def SchemaArena.isNever (arena : SchemaArena) (id : ℕ) : Bool :=
  match arena.node id with
  | some node => node.kind = .never
  | none => false

/-! ### Patterns of the JSON types -/

namespace JsonPattern

/-- The pattern of strings. -/
def string : String := r#""([^"\\\x00-\x1F\x7F-\x9F]|\\["\\/bfnrt])*""#

/-- The pattern of integers. -/
def integer : String := r#"(-)?(0|[1-9][0-9]*)"#

/-- The pattern of numbers. -/
def number : String := r#"((-)?(0|[1-9][0-9]*))(\.[0-9]+)?([eE][+-][0-9]+)?"#

/-- The pattern of booleans. -/
def boolean : String := r#"(true|false)"#

/-- The pattern of null. -/
def null : String := r#"null"#

end JsonPattern

/-! ### Strings -/

/-- `str::as_bytes`. -/
def utf8Bytes (s : String) : List UInt8 := s.toList.flatMap String.utf8EncodeChar

/-- The lower-case hexadecimal digit. -/
def hexDigit (n : ℕ) : Char := Char.ofNat (if n < 10 then 48 + n else 87 + n)

/-- How `serde_json::to_string` writes a character of a string. -/
def escapeChar (c : Char) : List Char :=
  if c = '"' then ['\\', '"']
  else if c = '\\' then ['\\', '\\']
  else if c.toNat = 0x08 then ['\\', 'b']
  else if c.toNat = 0x0C then ['\\', 'f']
  else if c.toNat = 0x0A then ['\\', 'n']
  else if c.toNat = 0x0D then ['\\', 'r']
  else if c.toNat = 0x09 then ['\\', 't']
  else if c.toNat < 0x20 then ['\\', 'u', '0', '0', hexDigit (c.toNat / 16),
    hexDigit (c.toNat % 16)]
  else [c]

/-- `serde_json::to_string` of a string. -/
def jsonString (s : String) : String := String.ofList ('"' :: s.toList.flatMap escapeChar ++ ['"'])

end OcEarley

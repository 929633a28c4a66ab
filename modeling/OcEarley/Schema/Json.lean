import Mathlib.Data.String.Basic
import OcEarley.Base.Lists
import OcEarley.Schema.NumberValue
import OcEarley.Schema.Types

/-!
# JSON values

A value as it is parsed, with the text of every number and the members of every object in their
order.  `data` is what the value is in the JSON data model, where numbers are rational and the order
of members does not count; `canonicalValue` writes the value in canonical form.
-/

namespace OcEarley

/-- `serde_json::Value`. -/
inductive JsonValue
  | null
  | bool (value : Bool)
  | number (literal : NumberLiteral)
  | string (text : String)
  | array (elements : List JsonValue)
  | object (members : List (String × JsonValue))

/-- A value of the JSON data model; the members of an object are in the order of their keys. -/
inductive JsonData
  | null
  | bool (value : Bool)
  | number (value : ℚ)
  | string (text : String)
  | array (elements : List JsonData)
  | object (members : List (String × JsonData))

namespace JsonValue

/-- Induction over a value with the hypothesis for every element and every member. -/
theorem ind {P : JsonValue → Prop} (null : P .null) (bool : ∀ b, P (.bool b))
    (number : ∀ n, P (.number n)) (string : ∀ s, P (.string s))
    (array : ∀ elements, (∀ v ∈ elements, P v) → P (.array elements))
    (object : ∀ members : List (String × JsonValue), (∀ m ∈ members, P m.2) → P (.object members))
    (v : JsonValue) : P v := by
  refine JsonValue.rec (motive_1 := P) (motive_2 := fun elements => ∀ v ∈ elements, P v)
    (motive_3 := fun members => ∀ m ∈ members, P m.2) (motive_4 := fun m => P m.2)
    null bool number string array object ?_ ?_ ?_ ?_ ?_ v
  · simp
  · exact fun _ _ hhead htail => List.forall_mem_cons.2 ⟨hhead, htail⟩
  · simp
  · exact fun _ _ hhead htail => List.forall_mem_cons.2 ⟨hhead, htail⟩
  · intro key value hvalue
    exact hvalue

/-! ### The data model -/

mutual

/-- What the value is in the JSON data model. -/
def data : JsonValue → JsonData
  | .null => .null
  | .bool b => .bool b
  | .number n => .number n.value
  | .string s => .string s
  | .array elements => .array (elementData elements)
  | .object members => .object (sortByKey (fun m => m.1) (memberData members))

/-- The data of the elements. -/
def elementData : List JsonValue → List JsonData
  | [] => []
  | v :: elements => v.data :: elementData elements

/-- The data of the members. -/
def memberData : List (String × JsonValue) → List (String × JsonData)
  | [] => []
  | (key, v) :: members => (key, v.data) :: memberData members

end

theorem elementData_eq (elements : List JsonValue) : elementData elements = elements.map data := by
  induction elements with
  | nil => rfl
  | cons v elements ih => rw [elementData, ih, List.map_cons]

theorem memberData_eq (members : List (String × JsonValue)) :
    memberData members = members.map fun m => (m.1, m.2.data) := by
  induction members with
  | nil => rfl
  | cons m members ih => rw [memberData, ih, List.map_cons]

/-! ### Access -/

/-- `Value::as_bool`. -/
def asBool : JsonValue → Option Bool
  | .bool b => some b
  | _ => none

/-- `Value::as_number`. -/
def asNumber : JsonValue → Option NumberLiteral
  | .number n => some n
  | _ => none

/-- `Value::as_str`. -/
def asStr : JsonValue → Option String
  | .string s => some s
  | _ => none

/-- `Value::as_array`. -/
def asArray : JsonValue → Option (List JsonValue)
  | .array elements => some elements
  | _ => none

/-- `Value::as_object`. -/
def asObject : JsonValue → Option (List (String × JsonValue))
  | .object members => some members
  | _ => none

/-- `Number::as_u64`, on the text of the number. -/
def asU64 : JsonValue → Option ℕ
  | .number n =>
    if n.text.all Char.isDigit ∧ Nat.ofDigitChars 10 n.text 0 ≤ usizeMax then
      some (Nat.ofDigitChars 10 n.text 0)
    else none
  | _ => none

/-- The value is null. -/
def isNull : JsonValue → Bool
  | .null => true
  | _ => false

end JsonValue

/-- `Map::get`. -/
def mapGet (members : List (String × JsonValue)) (key : String) : Option JsonValue :=
  members.lookup key

/-- `Map::contains_key`. -/
def containsKey (members : List (String × JsonValue)) (key : String) : Bool :=
  (mapGet members key).isSome

/-! ### Writing -/

/-- Elements with commas between them. -/
def joinComma (texts : List (List Char)) : List Char := List.intercalate [','] texts

mutual

/-- What `write_canonical` appends. -/
def writeCanonical : JsonValue → Except CompileError (List Char)
  | .null => pure ['n', 'u', 'l', 'l']
  | .bool value => pure (if value then ['t', 'r', 'u', 'e'] else ['f', 'a', 'l', 's', 'e'])
  | .number n => canonicalNumber n.text
  | .string s => pure (jsonString s).toList
  | .array elements => do
    let texts ← (writeElements elements).mapM id
    pure ('[' :: joinComma texts ++ [']'])
  | .object members => do
    let texts ← (sortByKey (fun m => m.1) (writeMembers members)).mapM fun m => do
      let text ← m.2
      pure ((jsonString m.1).toList ++ ':' :: text)
    pure ('\x7b' :: joinComma texts ++ ['\x7d'])

/-- The canonical texts of the elements. -/
def writeElements : List JsonValue → List (Except CompileError (List Char))
  | [] => []
  | v :: elements => writeCanonical v :: writeElements elements

/-- The keys with the canonical texts of their values. -/
def writeMembers :
    List (String × JsonValue) → List (String × Except CompileError (List Char))
  | [] => []
  | (key, v) :: members => (key, writeCanonical v) :: writeMembers members

end

theorem writeElements_eq (elements : List JsonValue) :
    writeElements elements = elements.map writeCanonical := by
  induction elements with
  | nil => rfl
  | cons v elements ih => rw [writeElements, ih, List.map_cons]

theorem writeMembers_eq (members : List (String × JsonValue)) :
    writeMembers members = members.map fun m => (m.1, writeCanonical m.2) := by
  induction members with
  | nil => rfl
  | cons m members ih => rw [writeMembers, ih, List.map_cons]

/-- The canonical text of a value, as a schema keeps it. -/
def canonicalValue (value : JsonValue) : Except CompileError CanonicalValue := do
  let output ← writeCanonical value
  pure ⟨String.ofList output⟩

end OcEarley

import OcEarley.Schema.Coverage

/-!
# The arena refers to its nodes

Whatever a node refers to by a keyword is the location of a subschema, if its containers have been
validated, so that its id is found.  Hence nothing fails in the normalization of a document but what
is reported, and every id in the arena is the index of a node.
-/

namespace OcEarley

variable {pointer : SchemaPointer} {object : List (String × JsonValue)} {keyword : String}

/-! ### Errors that are reported -/

/-- The error is about the document or a limit, not about the program. -/
def CompileError.IsReported : CompileError → Prop
  | .internalInvariant _ => False
  | .panicked => False
  | .diverged => False
  | _ => True

theorem CompileError.IsLimit.isReported {e : CompileError} (h : e.IsLimit) : e.IsReported := by
  cases e <;> first | exact trivial | exact h.elim

/-- Whatever fails is reported. -/
def Reports {α : Type} (m : Except CompileError α) : Prop :=
  Result.wp CompileError.IsReported m fun _ => True

section Reports

variable {α β : Type}

theorem Reports.wp {m : Except CompileError α} (h : Reports m) {Q : α → Prop} (hQ : ∀ a, Q a) :
    Result.wp CompileError.IsReported m Q :=
  Result.wp_mono h fun a _ => hQ a

theorem Reports.wp_eq {m : Except CompileError α} (h : Reports m) :
    Result.wp CompileError.IsReported m fun a => m = .ok a :=
  Result.wp_self (Result.wp_mono h fun _ _ hm => hm)

theorem reports_pure {a : α} : Reports (pure a) := trivial

theorem reports_throw {e : CompileError} (h : e.IsReported) : Reports (throw e : Except _ α) := h

theorem reports_require {p : Prop} [Decidable p] {e : CompileError} (h : e.IsReported) :
    Reports (Result.require p e) :=
  Result.wp_require.2 ⟨fun _ => trivial, fun _ => h⟩

theorem reports_unwrap {o : Option α} {e : CompileError} (h : e.IsReported) :
    Reports (Result.unwrap o e) :=
  Result.wp_unwrap.2 ⟨fun _ _ => trivial, fun _ => h⟩

theorem reports_bind {m : Except CompileError α} {f : α → Except CompileError β} (hm : Reports m)
    (hf : ∀ a, Reports (f a)) : Reports (m >>= f) :=
  Result.wp_bind.2 (hm.wp hf)

theorem reports_ite {p : Prop} [Decidable p] {m m' : Except CompileError α} (h : Reports m)
    (h' : Reports m') : Reports (if p then m else m') := by
  split
  · exact h
  · exact h'

theorem reports_mapM {f : α → Except CompileError β} {l : List α} (h : ∀ a ∈ l, Reports (f a)) :
    Reports (l.mapM f) :=
  Result.wp_mono (Result.wp_mapM h) fun _ _ => trivial

theorem reports_foldlM {f : β → α → Except CompileError β} (h : ∀ b a, Reports (f b a)) (l : List α)
    (b : β) : Reports (l.foldlM f b) := by
  have hloop := Result.wp_foldlM (E := CompileError.IsReported) (f := f) (I := fun _ _ _ => True)
    (fun _ a _ b _ => h b a) [] l b trivial
  exact hloop

end Reports

/-! ### Numbers and values -/

theorem reports_checkedI128 (z : ℤ) : Reports (checkedI128 z) :=
  reports_bind (reports_require trivial) fun _ => reports_pure

theorem reports_usizeOfI128 (z : ℤ) : Reports (usizeOfI128 z) :=
  reports_bind (reports_require trivial) fun _ => reports_pure

theorem reports_checkedUsize (n : ℕ) : Reports (checkedUsize n) :=
  reports_bind (reports_require trivial) fun _ => reports_pure

theorem reports_mantissaParts (mantissa : List Char) (exponent : ℤ) :
    Reports (mantissaParts mantissa exponent) := by
  refine reports_bind (reports_checkedUsize _) fun _ => reports_ite reports_pure ?_
  refine reports_bind (reports_checkedI128 _) fun _ => ?_
  exact reports_bind (reports_checkedI128 _) fun _ => reports_pure

theorem reports_decimalParts (text : List Char) : Reports (decimalParts text) := by
  unfold decimalParts
  split
  · exact reports_bind (reports_unwrap trivial) fun _ => reports_mantissaParts _ _
  · exact reports_mantissaParts _ _

theorem reports_plainNumberLength (parts : DecimalParts) : Reports (plainNumberLength parts) := by
  refine reports_ite ?_ ?_
  · exact reports_bind (reports_usizeOfI128 _) fun _ => reports_checkedUsize _
  · refine reports_bind (reports_usizeOfI128 _) fun _ => ?_
    exact reports_ite (reports_checkedUsize _) (reports_checkedUsize _)

theorem reports_renderPlainNumber (parts : DecimalParts) : Reports (renderPlainNumber parts) := by
  refine reports_ite ?_ ?_
  · exact reports_bind (reports_usizeOfI128 _) fun _ => reports_pure
  · refine reports_bind (reports_usizeOfI128 _) fun _ => ?_
    exact reports_ite reports_pure reports_pure

theorem reports_canonicalNumber (text : List Char) : Reports (canonicalNumber text) := by
  refine reports_bind (reports_decimalParts text) fun parts => reports_ite reports_pure ?_
  refine reports_bind (reports_checkedI128 _) fun _ => ?_
  refine reports_bind (reports_plainNumberLength _) fun _ => ?_
  exact reports_ite reports_pure (reports_renderPlainNumber _)

theorem reports_writeCanonical (value : JsonValue) : Reports (writeCanonical value) := by
  induction value using JsonValue.ind with
  | null => exact reports_pure
  | bool b => exact reports_pure
  | number n => exact reports_canonicalNumber _
  | string s => exact reports_pure
  | array elements ih =>
    rw [writeCanonical, writeElements_eq]
    refine reports_bind (reports_mapM fun text htext => ?_) fun _ => reports_pure
    obtain ⟨v, hv, rfl⟩ := List.mem_map.1 htext
    exact ih v hv
  | object members ih =>
    rw [writeCanonical, writeMembers_eq]
    refine reports_bind (reports_mapM fun text htext => ?_) fun _ => reports_pure
    obtain ⟨m, hm, rfl⟩ := List.mem_map.1 (mem_sortByKey.1 htext)
    exact reports_bind (ih m hm) fun _ => reports_pure

theorem reports_canonicalValue (value : JsonValue) : Reports (canonicalValue value) :=
  reports_bind (reports_writeCanonical value) fun _ => reports_pure

/-! ### Keywords -/

theorem reports_parseDeclaredType : Reports (parseDeclaredType pointer object) := by
  unfold parseDeclaredType
  split
  · exact reports_pure
  · refine reports_bind (reports_unwrap trivial) fun name => ?_
    split <;> first | exact reports_pure | exact reports_throw trivial

theorem reports_optionalUsize : Reports (optionalUsize pointer object keyword) := by
  unfold optionalUsize
  split
  · exact reports_pure
  · refine reports_bind (reports_unwrap trivial) fun _ => ?_
    exact reports_bind (reports_require trivial) fun _ => reports_pure

theorem reports_valueMatchesStringKeywords (value : JsonValue) :
    Reports (valueMatchesStringKeywords pointer object value) := by
  unfold valueMatchesStringKeywords
  split
  · exact reports_pure
  · refine reports_bind reports_optionalUsize fun _ => ?_
    exact reports_bind reports_optionalUsize fun _ => reports_pure

theorem reports_validateKeywords : Reports (validateKeywords pointer object) :=
  Result.wp_forM fun _ _ => reports_require trivial

theorem reports_validateNamed {notObject notSchema : String} :
    Reports (validateNamed pointer object keyword notObject notSchema) := by
  unfold validateNamed
  split
  · exact reports_pure
  · exact reports_bind (reports_unwrap trivial) fun _ =>
      Result.wp_forM fun _ _ => reports_require trivial

theorem reports_validateContainers : Reports (validateContainers pointer object) := by
  refine reports_bind reports_validateNamed fun _ => reports_bind reports_validateNamed fun _ => ?_
  refine reports_bind (Result.wp_forM fun keyword _ => ?_) fun _ =>
    Result.wp_forM fun keyword _ => ?_
  · split
    · exact reports_pure
    · exact reports_require trivial
  · split
    · exact reports_pure
    · refine reports_bind (reports_unwrap trivial) fun _ => ?_
      exact reports_bind (reports_require trivial) fun _ => reports_require trivial

theorem reports_checkDialect : Reports (checkDialect pointer object) := by
  unfold checkDialect
  split
  · exact reports_pure
  · exact reports_bind (reports_unwrap trivial) fun _ => reports_require trivial

theorem reports_requiredNames : Reports (requiredNames pointer object) := by
  unfold requiredNames
  split
  · exact reports_pure
  · refine reports_bind (reports_unwrap trivial) fun entries => ?_
    refine reports_bind (reports_foldlM (fun required entry => ?_) entries []) fun _ => reports_pure
    refine reports_bind (reports_unwrap trivial) fun _ => ?_
    exact reports_bind (reports_require trivial) fun _ => reports_pure

theorem reports_resolveLocalPointer (reference : String) :
    Reports (resolveLocalPointer pointer reference) := by
  have hmapErr : ∀ {α : Type} (reason : Except String α), Reports (mapErr
      (.invalidJsonPointer (keywordLocation pointer "$ref") reference) reason) := by
    intro α reason
    cases reason with
    | ok a => exact reports_pure
    | error e => exact reports_throw trivial
  refine reports_bind (reports_require trivial) fun _ => reports_bind (hmapErr _) fun decoded => ?_
  refine reports_ite reports_pure (reports_bind (reports_require trivial) fun _ => ?_)
  exact reports_bind (reports_mapM fun _ _ => hmapErr _) fun _ => reports_pure

/-! ### What a node refers to -/

/-- The locations of the subschemas that the node of the object refers to. -/
inductive Resolves (pointer : SchemaPointer) (object : List (String × JsonValue)) :
    SchemaPointer → Prop
  | property {entries : List (String × JsonValue)} {m : String × JsonValue}
      (hentries : mapGet object "properties" = some (.object entries)) (hm : m ∈ entries) :
      Resolves pointer object (pointerJoin (pointerJoin pointer "properties") m.1)
  | single {keyword : String} {child : JsonValue}
    (hkeyword : keyword ∈ ["additionalProperties", "items"])
      (hchild : mapGet object keyword = some child) :
      Resolves pointer object (pointerJoin pointer keyword)
  | entry {keyword : String} {entries : List JsonValue} {i : ℕ}
      (hkeyword : keyword ∈ ["prefixItems", "allOf", "anyOf"])
      (hentries : mapGet object keyword = some (.array entries)) (hi : i < entries.length) :
      Resolves pointer object (pointerJoin (pointerJoin pointer keyword) (toString i))

/-- In an object whose containers have been validated, what a node refers to is applied. -/
theorem Resolves.applies {child : SchemaPointer} (h : Resolves pointer object child)
    (hvalid : validateContainers pointer object = .ok ()) :
    ∃ segments value, Applies object segments value ∧
      child = segments.foldl pointerJoin pointer := by
  obtain ⟨_, -, hvalid⟩ := Result.bind_eq_ok.1 hvalid
  obtain ⟨_, hnamed, hvalid⟩ := Result.bind_eq_ok.1 hvalid
  obtain ⟨_, hsingles, harrays⟩ := Result.bind_eq_ok.1 hvalid
  cases h with
  | @property entries m hentries hm =>
    rw [validateNamed, hentries] at hnamed
    obtain ⟨found, hfound, hnamed⟩ := Result.bind_eq_ok.1 hnamed
    obtain rfl : entries = found := Option.some.inj (Result.unwrap_eq_ok.1 hfound)
    have hschema := Result.require_eq_ok.1 (Result.forM_eq_ok hnamed m hm)
    exact ⟨["properties", m.1], m.2, .named (by decide) hentries hm hschema, rfl⟩
  | @single keyword child hkeyword hchild =>
    have hschema := Result.forM_eq_ok hsingles keyword hkeyword
    rw [hchild] at hschema
    exact ⟨[keyword], child, .single hkeyword hchild (Result.require_eq_ok.1 hschema), rfl⟩
  | @entry keyword entries i hkeyword hentries hi =>
    have hsub : ∀ k ∈ ["prefixItems", "allOf", "anyOf"],
        k ∈ ["prefixItems", "allOf", "anyOf", "oneOf"] := by decide
    have hkeyword' := hsub keyword hkeyword
    have hschema := Result.forM_eq_ok harrays keyword hkeyword'
    rw [hentries] at hschema
    obtain ⟨found, hfound, hschema⟩ := Result.bind_eq_ok.1 hschema
    obtain rfl : entries = found := Option.some.inj (Result.unwrap_eq_ok.1 hfound)
    obtain ⟨_, -, hschema⟩ := Result.bind_eq_ok.1 hschema
    have hall := List.all_eq_true.1 (Result.require_eq_ok.1 hschema)
    refine ⟨[keyword, toString i], entries[i], .indexed hkeyword' hentries
      (List.getElem?_eq_getElem hi) (hall _ (List.getElem_mem hi)), rfl⟩

/-- The ids of the subschemas that a node refers to. -/
def AdditionalProperties.ids : AdditionalProperties → List ℕ
  | .schema id => [id]
  | _ => []

/-- The ids that a node refers to. -/
def NormalizedSchema.ids : NormalizedSchema → List ℕ
  | .array constraints => constraints.prefixItems ++ constraints.items.toList
  | .object constraints =>
    constraints.properties.map (fun m => m.2) ++ constraints.additionalProperties.ids
  | .union branches => branches
  | .ref target => [target]
  | _ => []

/-- Every id that the node refers to is one of the first `n`. -/
def NormalizedSchema.InRange (n : ℕ) (kind : NormalizedSchema) : Prop := ∀ id ∈ kind.ids, id < n

/-- Everything that the node of the object refers to has one of the first `n` ids. -/
def Resolved (pointerToId : AList fun _ : SchemaPointer => ℕ) (n : ℕ) (pointer : SchemaPointer)
    (object : List (String × JsonValue)) : Prop :=
  ∀ child, Resolves pointer object child → ∃ id < n, pointerToId.lookup child = some id

theorem inRange_of_ids {n : ℕ} {kind : NormalizedSchema} (h : kind.ids = []) : kind.InRange n := by
  intro id hid
  rw [h] at hid
  exact absurd hid List.not_mem_nil

theorem forall_mem_of_forall₂ {α β : Type} {P : β → Prop} {l : List α} {l' : List β}
    (h : List.Forall₂ (fun _ b => P b) l l') : ∀ b ∈ l', P b := by
  induction h with
  | nil => simp
  | cons hb _ ih => exact List.forall_mem_cons.2 ⟨hb, ih⟩

section Nodes

variable {pointerToId : AList fun _ : SchemaPointer => ℕ} {n : ℕ}
  {rawNodes : List (SchemaPointer × JsonValue)}

theorem wp_indexedId {child : SchemaPointer} {message : String}
    (hresolved : Resolved pointerToId n pointer object) (h : Resolves pointer object child) :
    Result.wp CompileError.IsReported (indexedId pointerToId child message) fun id => id < n := by
  obtain ⟨id, hid, hlookup⟩ := hresolved child h
  rw [indexedId, hlookup]
  exact hid

theorem wp_childIds {value : JsonValue} (hresolved : Resolved pointerToId n pointer object)
    (hkeyword : keyword ∈ ["prefixItems", "allOf", "anyOf"])
    (hvalue : mapGet object keyword = some value) :
    Result.wp CompileError.IsReported (childIds pointer keyword value pointerToId)
      fun ids => ∀ id ∈ ids, id < n := by
  refine Result.wp_bind.2 (Result.wp_unwrap.2 ⟨fun entries hentries => ?_, fun _ => trivial⟩)
  obtain rfl := asArray_eq_some.1 hentries
  refine Result.wp_mono (Result.wp_mapM (R := fun _ id => id < n) fun i hi => ?_) fun ids hids =>
    forall_mem_of_forall₂ hids
  exact wp_indexedId hresolved (.entry hkeyword hvalue (List.mem_range.1 hi))

theorem reports_allOfLoop {ids : List ℕ} (hids : ∀ id ∈ ids, id < rawNodes.length)
    (constant : Option JsonValue) (requiredType : Option JsonType) :
    Reports (allOfLoop pointer rawNodes ids constant requiredType) := by
  induction ids generalizing constant requiredType with
  | nil => exact reports_pure
  | cons id ids ih =>
    obtain ⟨hid, hids⟩ := List.forall_mem_cons.1 hids
    have hnode : Reports (vecGet rawNodes id) := by
      rw [vecGet, List.getElem?_eq_getElem hid]
      exact reports_pure
    unfold allOfLoop
    refine reports_bind hnode fun rawNode => reports_bind (reports_unwrap trivial) fun branch => ?_
    split
    · exact reports_bind (reports_require trivial) fun _ => ih hids _ _
    · refine reports_bind reports_parseDeclaredType fun declared => ?_
      cases declared with
      | none => exact reports_throw trivial
      | some kind =>
        refine reports_bind (reports_require trivial) fun _ => ?_
        exact reports_ite reports_pure (ih hids _ _)

theorem wp_normalizeSimpleAllOf (hresolved : Resolved pointerToId rawNodes.length pointer object)
    (hallOf : containsKey object "allOf" = true) :
    Result.wp CompileError.IsReported (normalizeSimpleAllOf pointer object rawNodes pointerToId)
      (NormalizedSchema.InRange n) := by
  obtain ⟨value, hvalue⟩ := Option.isSome_iff_exists.1 hallOf
  refine Result.wp_bind.2 ?_
  rw [hvalue, Result.wp_unwrap_some]
  refine Result.wp_bind.2
    (Result.wp_mono (wp_childIds hresolved (by decide) hvalue) fun ids hids => ?_)
  refine Result.wp_bind.2 ((reports_allOfLoop hids none none).wp fun outcome => ?_)
  cases outcome with
  | none => exact inRange_of_ids rfl
  | some found =>
    obtain ⟨constant, requiredType⟩ := found
    refine Result.wp_bind.2 (Result.wp_unwrap.2 ⟨fun constant _ => ?_, fun _ => trivial⟩)
    split
    · exact Result.wp_bind.2 ((reports_canonicalValue _).wp fun _ => inRange_of_ids rfl)
    · exact inRange_of_ids rfl

theorem wp_normalizeString : Result.wp CompileError.IsReported (normalizeString pointer object)
    (NormalizedSchema.InRange n) := by
  refine Result.wp_bind.2 (reports_optionalUsize.wp fun _ => ?_)
  refine Result.wp_bind.2 (reports_optionalUsize.wp fun _ => ?_)
  split
  · exact inRange_of_ids rfl
  · exact inRange_of_ids rfl

/-- The end of `normalizeArray`. -/
theorem wp_arrayItems (hresolved : Resolved pointerToId n pointer object) {prefixItems : List ℕ}
    (hprefixItems : ∀ id ∈ prefixItems, id < n) (minItems maxItems : Option ℕ) :
    Result.wp CompileError.IsReported (do
      let items ← match mapGet object "items" with
        | some _ => do
          let id ← indexedId pointerToId (pointerJoin pointer "items")
            "indexed items schema is missing"
          pure (some id)
        | none => pure none
      pure (.array {
        prefixItems := prefixItems
        items := items
        minItems := minItems.getD 0
        maxItems := maxItems })) (NormalizedSchema.InRange n) := by
  have hfinal : ∀ items : Option ℕ, (∀ id ∈ items, id < n) →
      NormalizedSchema.InRange n (.array ⟨prefixItems, items, minItems.getD 0, maxItems⟩) := by
    intro items hitems id hid
    rcases List.mem_append.1 hid with hid | hid
    · exact hprefixItems id hid
    · exact hitems id (Option.mem_toList.1 hid)
  split
  · next child hchild =>
    refine Result.wp_bind.2
      (Result.wp_mono (wp_indexedId hresolved (.single (by decide) hchild)) ?_)
    intro id hid
    exact hfinal (some id) (by simpa using hid)
  · exact hfinal none (by simp)

theorem wp_normalizeArray (hresolved : Resolved pointerToId n pointer object) :
    Result.wp CompileError.IsReported (normalizeArray pointer object pointerToId)
      (NormalizedSchema.InRange n) := by
  refine Result.wp_bind.2 (reports_optionalUsize.wp fun _ => ?_)
  refine Result.wp_bind.2 (reports_optionalUsize.wp fun _ => ?_)
  split
  · exact inRange_of_ids rfl
  dsimp only
  split
  · next value hvalue =>
    refine Result.wp_bind.2
      (Result.wp_mono (wp_childIds hresolved (by decide) hvalue) fun ids hids => ?_)
    exact wp_arrayItems hresolved hids _ _
  · exact wp_arrayItems hresolved (List.forall_mem_nil _) _ _

/-- The end of `normalizeObject`. -/
theorem wp_objectAdditional (hresolved : Resolved pointerToId n pointer object)
    {properties : List (String × ℕ)} (hproperties : ∀ m ∈ properties, m.2 < n) :
    Result.wp CompileError.IsReported (do
      let required ← requiredNames pointer object
      let additionalProperties ← match mapGet object "additionalProperties" with
        | none => pure .unconstrained
        | some (.bool true) => pure .unconstrained
        | some (.bool false) => pure .forbidden
        | some _ => do
          let id ← indexedId pointerToId (pointerJoin pointer "additionalProperties")
            "indexed additionalProperties schema is missing"
          pure (.schema id)
      pure (.object {
        properties := sortByKey (fun m => m.1) properties
        required := required
        additionalProperties := additionalProperties })) (NormalizedSchema.InRange n) := by
  have hfinal : ∀ required (additional : AdditionalProperties), (∀ id ∈ additional.ids, id < n) →
      NormalizedSchema.InRange n
        (.object ⟨sortByKey (fun m => m.1) properties, required, additional⟩) := by
    intro required additional hadditional id hid
    rcases List.mem_append.1 hid with hid | hid
    · obtain ⟨m, hm, rfl⟩ := List.mem_map.1 hid
      exact hproperties m (mem_sortByKey.1 hm)
    · exact hadditional id hid
  refine Result.wp_bind.2 (reports_requiredNames.wp fun required => ?_)
  split
  · exact hfinal required .unconstrained (List.forall_mem_nil _)
  · exact hfinal required .unconstrained (List.forall_mem_nil _)
  · exact hfinal required .forbidden (List.forall_mem_nil _)
  · next child _ _ hchild =>
    refine Result.wp_bind.2
      (Result.wp_mono (wp_indexedId hresolved (.single (by decide) hchild)) ?_)
    intro id hid
    exact hfinal required (.schema id) (List.forall_mem_singleton.2 hid)

theorem wp_normalizeObject (hresolved : Resolved pointerToId n pointer object) :
    Result.wp CompileError.IsReported (normalizeObject pointer object pointerToId)
      (NormalizedSchema.InRange n) := by
  unfold normalizeObject
  dsimp only
  split
  · next rawProperties hraw =>
    obtain ⟨value, hvalue, hobject⟩ := Option.bind_eq_some_iff.1 hraw
    obtain rfl := asObject_eq_some.1 hobject
    refine Result.wp_bind.2
      (Result.wp_mono (Result.wp_mapM (R := fun _ m => m.2 < n) fun m hm => ?_)
      fun properties hall => wp_objectAdditional hresolved (forall_mem_of_forall₂ hall))
    exact Result.wp_bind.2 (wp_indexedId hresolved (.property hvalue hm))
  · exact wp_objectAdditional hresolved (List.forall_mem_nil _)

theorem wp_normalizeConst {declaredType : Option JsonType} {constant : JsonValue} :
    Result.wp CompileError.IsReported (normalizeConst pointer object declaredType constant)
      (NormalizedSchema.InRange n) := by
  refine Result.wp_bind.2 (Result.wp_require.2 ⟨fun _ => ?_, fun _ => trivial⟩)
  split
  · refine Result.wp_bind.2 ((reports_valueMatchesStringKeywords _).wp fun fits => ?_)
    split
    · exact Result.wp_bind.2 ((reports_canonicalValue _).wp fun _ => inRange_of_ids rfl)
    · exact inRange_of_ids rfl
  · exact inRange_of_ids rfl

theorem reports_enumEntriesAdd (declaredType : Option JsonType) (entries : EnumEntries)
    (value : JsonValue) : Reports (EnumEntries.add pointer object declaredType entries value) := by
  refine reports_bind (reports_canonicalValue _) fun _ =>
    reports_bind (reports_require trivial) fun _ => ?_
  split
  · exact reports_bind (reports_valueMatchesStringKeywords _) fun _ => reports_pure
  · exact reports_pure

theorem wp_normalizeEnum_inRange {declaredType : Option JsonType} {values : JsonValue} :
    Result.wp CompileError.IsReported (normalizeEnum pointer object declaredType values)
      (NormalizedSchema.InRange n) := by
  refine Result.wp_bind.2 (Result.wp_require.2 ⟨fun _ => ?_, fun _ => trivial⟩)
  refine Result.wp_bind.2 (Result.wp_unwrap.2 ⟨fun values _ => ?_, fun _ => trivial⟩)
  refine Result.wp_bind.2 (Result.wp_require.2 ⟨fun _ => ?_, fun _ => trivial⟩)
  have hloop : Reports (values.foldlM (EnumEntries.add pointer object declaredType) ⟨[], []⟩) :=
    reports_foldlM (reports_enumEntriesAdd declaredType) values _
  refine Result.wp_bind.2 (hloop.wp fun entries => ?_)
  split
  · exact inRange_of_ids rfl
  · exact inRange_of_ids rfl

theorem wp_normalizeTyped {declaredType : Option JsonType}
    (hresolved : Resolved pointerToId n pointer object) :
    Result.wp CompileError.IsReported (normalizeTyped pointer object declaredType pointerToId)
      (NormalizedSchema.InRange n) := by
  unfold normalizeTyped
  split
  · exact wp_normalizeObject hresolved
  refine Result.wp_bind.2 (Result.wp_require.2 ⟨fun _ => ?_, fun _ => trivial⟩)
  split
  · exact wp_normalizeArray hresolved
  refine Result.wp_bind.2 (Result.wp_require.2 ⟨fun _ => ?_, fun _ => trivial⟩)
  refine Result.wp_bind.2 (Result.wp_require.2 ⟨fun _ => ?_, fun _ => trivial⟩)
  split
  · exact inRange_of_ids rfl
  · exact inRange_of_ids rfl
  · exact inRange_of_ids rfl
  · exact wp_normalizeString
  · exact inRange_of_ids rfl
  · exact inRange_of_ids rfl
  · exact wp_normalizeArray hresolved
  · exact wp_normalizeObject hresolved

/-- The nodes that the references are between have ids. -/
def EdgesInRange (n : ℕ) (edges : List ReferenceEdge) : Prop :=
  ∀ edge ∈ edges, edge.fromId < n ∧ edge.toId < n

/-- What a node is normalized to, with the references so far. -/
def NodeInRange (n : ℕ) (result : NormalizedSchema × List ReferenceEdge) : Prop :=
  result.1.InRange n ∧ EdgesInRange n result.2

theorem wp_normalizeReference {id : ℕ} {reference : JsonValue} {limits : CompileLimits}
    {edges : List ReferenceEdge} (hid : id < n) (hedges : EdgesInRange n edges)
    (hlookup : ∀ child target, pointerToId.lookup child = some target → target < n) :
    Result.wp CompileError.IsReported
      (normalizeReference id pointer reference pointerToId limits edges) (NodeInRange n) := by
  refine Result.wp_bind.2 (Result.wp_unwrap.2 ⟨fun text _ => ?_, fun _ => trivial⟩)
  refine Result.wp_bind.2 ((reports_resolveLocalPointer text).wp fun child => ?_)
  refine Result.wp_bind.2 (Result.wp_unwrap.2 ⟨fun target htarget => ?_, fun _ => trivial⟩)
  refine Result.wp_bind.2 (Result.wp_require.2 ⟨fun _ => ?_, fun _ => trivial⟩)
  have htarget := hlookup child target htarget
  refine ⟨List.forall_mem_singleton.2 htarget, fun edge hedge => ?_⟩
  rcases List.mem_append.1 hedge with hedge | hedge
  · exact hedges edge hedge
  · obtain rfl := List.mem_singleton.1 hedge
    exact ⟨hid, htarget⟩

theorem wp_normalizeKeywords {id : ℕ} {limits : CompileLimits} {edges : List ReferenceEdge}
    (hid : id < rawNodes.length) (hedges : EdgesInRange rawNodes.length edges)
    (hlookup : ∀ child target, pointerToId.lookup child = some target → target < rawNodes.length)
    (hresolved : Resolved pointerToId rawNodes.length pointer object) :
    Result.wp CompileError.IsReported
      (normalizeKeywords id pointer object rawNodes pointerToId limits edges)
      (NodeInRange rawNodes.length) := by
  unfold normalizeKeywords
  split
  · next hallOf =>
    refine Result.wp_bind.2 (Result.wp_require.2 ⟨fun _ => ?_, fun _ => trivial⟩)
    exact Result.wp_bind.2 (Result.wp_mono (wp_normalizeSimpleAllOf hresolved hallOf)
      fun kind hkind => ⟨hkind, hedges⟩)
  refine Result.wp_bind.2 (Result.wp_require.2 ⟨fun _ => ?_, fun _ => trivial⟩)
  split
  · next branches hbranches =>
    refine Result.wp_bind.2 (Result.wp_require.2 ⟨fun _ => ?_, fun _ => trivial⟩)
    exact Result.wp_bind.2 (Result.wp_mono (wp_childIds hresolved (by decide) hbranches)
      fun ids hids => ⟨hids, hedges⟩)
  split
  · refine Result.wp_bind.2 (Result.wp_require.2 ⟨fun _ => ?_, fun _ => trivial⟩)
    exact wp_normalizeReference hid hedges hlookup
  refine Result.wp_bind.2 (reports_parseDeclaredType.wp fun declaredType => ?_)
  dsimp only
  split
  · exact Result.wp_bind.2 (Result.wp_mono wp_normalizeConst fun kind hkind => ⟨hkind, hedges⟩)
  split
  · exact Result.wp_bind.2 (Result.wp_mono wp_normalizeEnum_inRange
      fun kind hkind => ⟨hkind, hedges⟩)
  · exact Result.wp_bind.2 (Result.wp_mono (wp_normalizeTyped hresolved)
      fun kind hkind => ⟨hkind, hedges⟩)

theorem wp_normalizeNode {id : ℕ} {raw : JsonValue} {limits : CompileLimits}
    {edges : List ReferenceEdge} (hid : id < rawNodes.length)
    (hedges : EdgesInRange rawNodes.length edges)
    (hlookup : ∀ child target, pointerToId.lookup child = some target → target < rawNodes.length)
    (hresolved : ∀ object, raw = .object object → validateContainers pointer object = .ok () →
      Resolved pointerToId rawNodes.length pointer object) :
    Result.wp CompileError.IsReported
      (normalizeNode id pointer raw rawNodes pointerToId limits edges)
      (NodeInRange rawNodes.length) := by
  cases raw with
  | bool value =>
    refine ⟨?_, hedges⟩
    cases value <;> exact inRange_of_ids rfl
  | object object =>
    refine Result.wp_bind.2 (Result.wp_unwrap.2 ⟨fun found hfound => ?_, fun _ => trivial⟩)
    obtain rfl := Option.some.inj hfound
    refine Result.wp_bind.2 (reports_validateKeywords.wp fun _ => ?_)
    refine Result.wp_bind.2 (Result.wp_mono reports_validateContainers.wp_eq fun _ hvalid => ?_)
    refine Result.wp_bind.2 (reports_checkDialect.wp fun _ => ?_)
    exact wp_normalizeKeywords hid hedges hlookup (hresolved object rfl hvalid)
  | null => exact trivial
  | number literal => exact trivial
  | string text => exact trivial
  | array elements => exact trivial

end Nodes

/-! ### The arena -/

theorem reports_pointerIds (rawNodes : List (SchemaPointer × JsonValue)) :
    Reports (pointerIds rawNodes) := by
  refine reports_foldlM (fun pointerToId entry => reports_bind ?_ fun _ => reports_pure) _ _
  exact reports_bind (reports_require trivial) fun _ => reports_pure

section Arena

variable {root : JsonValue} {limits : CompileLimits}
  {rawNodes : List (SchemaPointer × JsonValue)} {pointerToId : AList fun _ : SchemaPointer => ℕ}

/-- Every child that a node with valid containers refers to has been indexed. -/
theorem exists_indexed_of_resolves (hkeys : root.DistinctKeys)
    (hindex : indexSchemaLocations root limits = .ok rawNodes)
    (hids : pointerIds rawNodes = .ok pointerToId) {child : SchemaPointer}
    (hmem : (pointer, JsonValue.object object) ∈ rawNodes)
    (hvalid : validateContainers pointer object = .ok ()) (h : Resolves pointer object child) :
    ∃ id value, pointerToId.lookup child = some id ∧ rawNodes[id]? = some (child, value) := by
  have hcovered := Result.wp_ok (indexSchemaLocations_wp hkeys limits) hindex
  obtain ⟨segments, hlocated, rfl⟩ := (hcovered.2 _ _).1 hmem
  obtain ⟨segments', value, happlies, rfl⟩ := h.applies hvalid
  have hchild : (pointerOf (segments ++ segments'), value) ∈ rawNodes :=
    (hcovered.2 _ _).2 ⟨_, hlocated.snoc happlies, rfl⟩
  have hpointer : pointerOf (segments ++ segments') =
      segments'.foldl pointerJoin (pointerOf segments) := List.foldl_append
  rw [hpointer] at hchild
  obtain ⟨id, hid⟩ := List.mem_iff_getElem?.1 hchild
  exact ⟨id, value, (lookup_pointerIds (indexSchemaLocations_nodup hindex) hids).2
    ⟨value, hid⟩, hid⟩

/-- The nodes so far: each has its index for its id, and refers to indexed subschemas only. -/
structure Normalizing.InRange (n : ℕ) (done : List ((SchemaPointer × JsonValue) × ℕ))
    (result : Normalizing) : Prop where
  pointers : result.nodes.map (fun node => node.provenance.pointer) = done.map
    fun entry => entry.1.1
  node : ∀ (i : ℕ) (node : SchemaNode), result.nodes[i]? = some node →
    node.id = i ∧ node.kind.InRange n
  edges : EdgesInRange n result.referenceEdges

theorem Normalizing.InRange.add {n : ℕ} {done : List ((SchemaPointer × JsonValue) × ℕ)}
    {result : Normalizing} (h : result.InRange n done) {entry : (SchemaPointer × JsonValue) × ℕ}
    (hentry : entry.2 = done.length) {kind : NormalizedSchema} {edges : List ReferenceEdge}
    (hkind : NodeInRange n (kind, edges)) :
    Normalizing.InRange n (done ++ [entry]) ⟨result.nodes ++ [{
      id := entry.2
      provenance := { resource := 0, pointer := entry.1.1, keyword := none }
      kind := kind }], edges⟩ where
  pointers := by simp [h.pointers]
  node := by
    intro i node hnode
    have hlen : result.nodes.length = done.length := by simpa using congrArg List.length h.pointers
    rcases getElem?_snoc.1 hnode with hnode | ⟨rfl, rfl⟩
    · exact h.node i node hnode
    · exact ⟨hentry.trans hlen.symm, hkind.1⟩
  edges := hkind.2

theorem normalizeSchema_wp (hkeys : root.DistinctKeys) (limits : CompileLimits) :
    Result.wp CompileError.IsReported (normalizeSchema root limits) fun result =>
      ∃ rawNodes, indexSchemaLocations root limits = .ok rawNodes ∧
        result.1.root = 0 ∧
        Normalizing.InRange rawNodes.length rawNodes.zipIdx ⟨result.1.nodes, result.2⟩ := by
  have hindexing : Result.wp CompileError.IsReported (indexSchemaLocations root limits)
      fun rawNodes => indexSchemaLocations root limits = .ok rawNodes :=
    Result.wp_weaken (Result.wp_self (Result.wp_mono (indexSchemaLocations_wp hkeys limits)
      fun _ _ h => h)) fun _ he => he.isReported
  refine Result.wp_bind.2 (Result.wp_mono hindexing fun rawNodes hindex => ?_)
  refine Result.wp_bind.2
    (Result.wp_mono (reports_pointerIds rawNodes).wp_eq fun pointerToId hids => ?_)
  have hrange : ∀ child target, pointerToId.lookup child = some target →
      target < rawNodes.length := by
    intro child target htarget
    obtain ⟨value, hvalue⟩ :=
      (lookup_pointerIds (indexSchemaLocations_nodup hindex) hids).1 htarget
    exact (List.getElem?_eq_some_iff.1 hvalue).1
  refine Result.wp_bind.2 (Result.wp_mono (Result.wp_foldlM
    (I := fun done rest result => done ++ rest = rawNodes.zipIdx ∧
      Normalizing.InRange rawNodes.length done result) ?_ [] rawNodes.zipIdx ⟨[], []⟩ ⟨rfl, ?_⟩) ?_)
  · rintro done entry rest result ⟨hall, hresult⟩
    obtain ⟨hentry, hnode⟩ := getElem?_of_zipIdx_eq hall.symm
    rw [← hentry] at hnode
    have hid : entry.2 < rawNodes.length := (List.getElem?_eq_some_iff.1 hnode).1
    refine Result.wp_bind.2 (Result.wp_mono (wp_normalizeNode hid hresult.edges hrange ?_) ?_)
    · intro object hobject hvalid child hchild
      have hmem : (entry.1.1, JsonValue.object object) ∈ rawNodes :=
        hobject ▸ List.mem_of_getElem? hnode
      obtain ⟨id, value, hid, hvalue⟩ :=
        exists_indexed_of_resolves hkeys hindex hids hmem hvalid hchild
      exact ⟨id, (List.getElem?_eq_some_iff.1 hvalue).1, hid⟩
    · intro kind hkind
      exact ⟨by simpa using hall, hresult.add hentry hkind⟩
  · exact ⟨rfl, by simp, by simp [EdgesInRange]⟩
  · rintro result ⟨-, hresult⟩
    exact ⟨rawNodes, hindex, rfl, hresult⟩

end Arena

/-- **The index covers what is normalized.**  The locations of the document are indexed, each once
and the root first, and whatever a node with valid containers refers to is among them.  Nothing
fails but what is reported, and in the arena every id is the index of its node. -/
theorem indexing_covers {root : JsonValue} (hkeys : root.DistinctKeys) (limits : CompileLimits) :
    (∀ e, normalizeSchema root limits = .error e → e.IsReported) ∧
    (∀ e, indexSchemaLocations root limits = .error e → e.IsLimit) ∧
    (∀ rawNodes, indexSchemaLocations root limits = .ok rawNodes →
      rawNodes[0]? = some (pointerOf [], root) ∧ (rawNodes.map fun c => c.1).Nodup ∧
      (∀ pointer value, (pointer, value) ∈ rawNodes ↔
        ∃ segments, LocatedAt root segments value ∧ pointer = pointerOf segments) ∧
      ∀ pointerToId, pointerIds rawNodes = .ok pointerToId → ∀ pointer object child,
        (pointer, JsonValue.object object) ∈ rawNodes → validateContainers pointer object = .ok () →
        Resolves pointer object child →
        ∃ id value, pointerToId.lookup child = some id ∧ rawNodes[id]? = some (child, value)) ∧
    ∀ arena edges, normalizeSchema root limits = .ok (arena, edges) →
      (∃ rawNodes, indexSchemaLocations root limits = .ok rawNodes ∧
        arena.nodes.map (fun node => node.provenance.pointer) = rawNodes.map fun c => c.1) ∧
      arena.root < arena.nodes.length ∧ EdgesInRange arena.nodes.length edges ∧
      ∀ (i : ℕ) (node : SchemaNode), arena.nodes[i]? = some node →
        node.id = i ∧ node.kind.InRange arena.nodes.length := by
  refine ⟨fun e he => ?_, fun e he => ?_, fun rawNodes hindex => ?_, fun arena edges h => ?_⟩
  · exact Result.wp_error (normalizeSchema_wp hkeys limits) he
  · exact Result.wp_error (indexSchemaLocations_wp hkeys limits) he
  · obtain ⟨hroot, hlocations⟩ := Result.wp_ok (indexSchemaLocations_wp hkeys limits) hindex
    refine ⟨hroot, indexSchemaLocations_nodup hindex, hlocations, ?_⟩
    intro pointerToId hids pointer object child hmem hvalid hchild
    exact exists_indexed_of_resolves hkeys hindex hids hmem hvalid hchild
  · obtain ⟨rawNodes, hindex, hzero, hrange⟩ := Result.wp_ok (normalizeSchema_wp hkeys limits) h
    have hpointers : arena.nodes.map (fun node => node.provenance.pointer) =
        rawNodes.map fun c => c.1 := by
      have hzip : rawNodes.zipIdx.map (fun entry => entry.1.1) = rawNodes.map fun c => c.1 := by
        conv_rhs => rw [← List.zipIdx_map_fst 0 rawNodes, List.map_map]
        rfl
      exact hrange.pointers.trans hzip
    have hlen : arena.nodes.length = rawNodes.length := by
      simpa using congrArg List.length hpointers
    have hroot := (Result.wp_ok (indexSchemaLocations_wp hkeys limits) hindex).1
    rw [hlen]
    refine ⟨⟨rawNodes, hindex, hpointers⟩, ?_, hrange.edges, hrange.node⟩
    rw [show arena.root = 0 from hzero]
    exact (List.getElem?_eq_some_iff.1 hroot).1

/-- An object with a flag list under a name that needs an escape in a pointer. -/
def slashDocument : JsonValue :=
  .object [("additionalProperties", .bool false),
    ("properties", .object [("a/b", .object [("items", .object [("type", .string "boolean")]),
      ("type", .string "array")])]),
    ("type", .string "object")]

/-- `slashDocument` is normalized, and what its index covers. -/
theorem indexing_covers_slash :
    slashDocument.DistinctKeys ∧
      (∃ rawNodes, indexSchemaLocations slashDocument CompileLimits.default = .ok rawNodes ∧
        rawNodes[0]? = some (pointerOf [], slashDocument) ∧ (rawNodes.map fun c => c.1).Nodup ∧
        ∀ pointer value, (pointer, value) ∈ rawNodes ↔
          ∃ segments, LocatedAt slashDocument segments value ∧ pointer = pointerOf segments) ∧
      ∃ arena edges, normalizeSchema slashDocument CompileLimits.default = .ok (arena, edges) ∧
        arena.nodes.length = 4 ∧ arena.root < arena.nodes.length ∧
        EdgesInRange arena.nodes.length edges := by
  have hkeys : slashDocument.DistinctKeys := by
    have hitems : JsonValue.DistinctKeys (.object [("type", .string "boolean")]) :=
      .object (by decide) (List.forall_mem_singleton.2 (.string _))
    have hproperty : JsonValue.DistinctKeys
        (.object [("items", .object [("type", .string "boolean")]),
          ("type", .string "array")]) :=
      .object (by decide) (by simpa using ⟨hitems, .string _⟩)
    have hproperties : JsonValue.DistinctKeys (.object [("a/b", .object
        [("items", .object [("type", .string "boolean")]), ("type", .string "array")])]) :=
      .object (by decide) (List.forall_mem_singleton.2 hproperty)
    exact .object (by decide) (by simpa using ⟨.bool _, hproperties, .string _⟩)
  obtain ⟨-, -, hcovers, hranges⟩ := indexing_covers hkeys CompileLimits.default
  have hindexed : (indexSchemaLocations slashDocument .default).toOption.isSome = true := by
    decide +kernel
  obtain ⟨rawNodes, hindex⟩ := Option.isSome_iff_exists.1 hindexed
  have hnormalized : (normalizeSchema slashDocument .default).toOption.map (fun normalized =>
      normalized.1.nodes.length) = some 4 := by decide +kernel
  obtain ⟨⟨arena, edges⟩, hok, hlength⟩ := Option.map_eq_some_iff.1 hnormalized
  replace hindex := Result.toOption_eq_some.1 hindex
  replace hok := Result.toOption_eq_some.1 hok
  obtain ⟨hroot, hnodup, hlocations, -⟩ := hcovers rawNodes hindex
  obtain ⟨-, hin, hedges, -⟩ := hranges arena edges hok
  exact ⟨hkeys, ⟨rawNodes, hindex, hroot, hnodup, hlocations⟩, arena, edges, hok, hlength,
    hin, hedges⟩

end OcEarley

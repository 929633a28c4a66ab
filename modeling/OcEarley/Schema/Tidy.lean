import OcEarley.Grammar.LowerExact
import OcEarley.Schema.Arena
import OcEarley.Schema.EnumExact

/-!
# What normalization makes of a document

Every node of the arena is the normalization of an indexed subschema (`normalizeSchema_nodes`).
Hence what the nodes spell out are canonical texts of JSON values, and the properties of objects
stand in order (`normalizeSchema_tidy`).
-/

namespace OcEarley

/-- The kind spells out canonical texts, and its properties are in the order of their names. -/
structure NormalizedSchema.Tidy (kind : NormalizedSchema) : Prop where
  values : ∀ value ∈ kind.values, ∃ v, canonicalValue v = .ok value
  properties : ∀ object, kind = .object object →
    (object.properties.map Prod.fst).Pairwise (· < ·)

theorem tidy_of_plain {kind : NormalizedSchema} (hvalues : kind.values = [])
    (hobject : ∀ object, kind ≠ .object object) : kind.Tidy where
  values := by simp [hvalues]
  properties object h := absurd h (hobject object)

theorem tidy_never : NormalizedSchema.Tidy .never := tidy_of_plain rfl fun _ h => by cases h

theorem tidy_const {v : JsonValue} {value : CanonicalValue} (h : canonicalValue v = .ok value) :
    NormalizedSchema.Tidy (.const value) where
  values := by
    intro found hfound
    obtain rfl := List.mem_singleton.1 hfound
    exact ⟨v, h⟩
  properties object h := by cases h

section Nodes

variable {id : ℕ} {pointer : SchemaPointer} {object : List (String × JsonValue)}
  {rawNodes : List (SchemaPointer × JsonValue)} {pointerToId : AList fun _ : SchemaPointer => ℕ}
  {limits : CompileLimits} {edges edges' : List ReferenceEdge} {kind : NormalizedSchema}
  {declaredType : Option JsonType}

theorem wp_normalizeSimpleAllOf_tidy : Result.wp (fun _ => True)
    (normalizeSimpleAllOf pointer object rawNodes pointerToId) NormalizedSchema.Tidy := by
  refine Result.wp_last fun entries _ => Result.wp_last fun ids _ =>
    Result.wp_last fun outcome _ => ?_
  cases outcome with
  | none => exact tidy_never
  | some found =>
    refine Result.wp_last fun constant _ => ?_
    split
    · exact Result.wp_last fun value hvalue => tidy_const hvalue
    · exact tidy_never

theorem wp_normalizeConst_tidy {constant : JsonValue} : Result.wp (fun _ => True)
    (normalizeConst pointer object declaredType constant) NormalizedSchema.Tidy := by
  refine Result.wp_last fun _ _ => ?_
  split
  · refine Result.wp_last fun fits _ => ?_
    split
    · exact Result.wp_last fun value hvalue => tidy_const hvalue
    · exact tidy_never
  · exact tidy_never

theorem wp_normalizeEnum_tidy {values : JsonValue} : Result.wp (fun _ => True)
    (normalizeEnum pointer object declaredType values) NormalizedSchema.Tidy := by
  refine Result.wp_last fun _ _ => Result.wp_last fun elements _ => Result.wp_last fun _ _ =>
    Result.wp_last fun entries hentries => ?_
  have hholds := Result.wp_ok EnumEntries.foldlM_spec hentries
  split
  · exact tidy_never
  · refine ⟨fun value hvalue => ?_, fun object h => by cases h⟩
    obtain ⟨v, -, hv, -⟩ := (hholds.canonical value).1 (mem_sortByKey.1 hvalue)
    exact ⟨v, hv⟩

theorem wp_normalizeString_tidy : Result.wp (fun _ => True) (normalizeString pointer object)
    NormalizedSchema.Tidy := by
  refine Result.wp_last fun _ _ => Result.wp_last fun _ _ => ?_
  split
  · exact tidy_never
  · exact tidy_of_plain rfl fun _ h => by cases h

theorem wp_normalizeArray_tidy : Result.wp (fun _ => True)
    (normalizeArray pointer object pointerToId) NormalizedSchema.Tidy := by
  have hrest : ∀ constraints, NormalizedSchema.Tidy (.array constraints) := fun _ =>
    tidy_of_plain rfl fun _ h => by cases h
  refine Result.wp_last fun _ _ => Result.wp_last fun _ _ => ?_
  split
  · exact tidy_never
  dsimp only
  split
  · refine Result.wp_last fun _ _ => ?_
    split
    · exact Result.wp_last fun _ _ => Result.wp_last fun _ _ => hrest _
    · exact hrest _
  · split
    · exact Result.wp_last fun _ _ => Result.wp_last fun _ _ => hrest _
    · exact hrest _

/-- The properties keep the names of the document. -/
theorem wp_properties {raw : List (String × JsonValue)} {child : String → SchemaPointer}
    {message : String} : Result.wp (fun _ => True) (raw.mapM fun m => do
      let id ← indexedId pointerToId (child m.1) message
      pure (m.1, id)) fun properties => properties.map Prod.fst = raw.map fun m => m.1 := by
  refine Result.wp_mono (Result.wp_mapM (R := fun m p => p.1 = m.1) fun m _ => ?_)
    fun properties h => ?_
  · exact Result.wp_last fun id _ => Result.wp_pure.2 rfl
  · induction h with
    | nil => rfl
    | cons h _ ih => rw [List.map_cons, List.map_cons, h, ih]

/-- The end of `normalizeObject`. -/
theorem wp_objectAdditional_tidy {properties : List (String × ℕ)}
    (hfinal : ∀ required additional,
      NormalizedSchema.Tidy (.object ⟨properties, required, additional⟩)) :
    Result.wp (fun _ => True) (do
      let required ← requiredNames pointer object
      let additionalProperties ← match mapGet object "additionalProperties" with
        | none => pure .unconstrained
        | some (.bool true) => pure .unconstrained
        | some (.bool false) => pure .forbidden
        | some _ => do
          let id ← indexedId pointerToId (pointerJoin pointer "additionalProperties")
            "indexed additionalProperties schema is missing"
          pure (.schema id)
      pure (.object {
        properties := properties
        required := required
        additionalProperties := additionalProperties })) NormalizedSchema.Tidy := by
  refine Result.wp_last fun required _ => ?_
  split
  · exact hfinal required .unconstrained
  · exact hfinal required .unconstrained
  · exact hfinal required .forbidden
  · exact Result.wp_last fun id _ => hfinal required (.schema id)

theorem wp_normalizeObject_tidy (hkeys : JsonValue.DistinctKeys (.object object)) :
    Result.wp (fun _ => True)
      (normalizeObject pointer object pointerToId) NormalizedSchema.Tidy := by
  have hfinal : ∀ {properties : List (String × ℕ)}, (properties.map Prod.fst).Nodup →
      ∀ required additional, NormalizedSchema.Tidy
        (.object ⟨sortByKey (fun m => m.1) properties, required, additional⟩) := by
    refine fun {properties} hnodup required additional =>
      ⟨fun value h => absurd h List.not_mem_nil, fun found hfound => ?_⟩
    obtain rfl := NormalizedSchema.object.inj hfound
    have hperm : (sortByKey (fun m : String × ℕ => m.1) properties).Perm properties :=
      List.perm_insertionSort _ properties
    have hne : ((sortByKey (fun m : String × ℕ => m.1) properties).map Prod.fst).Nodup :=
      (hperm.map Prod.fst).nodup_iff.2 hnodup
    rw [List.Nodup, List.pairwise_map] at hne
    rw [List.pairwise_map]
    exact (pairwise_sortByKey properties).imp₂ (fun _ _ hle hne => lt_of_le_of_ne hle hne) hne
  unfold normalizeObject
  dsimp only
  split
  · next raw hraw =>
    obtain ⟨value, hvalue, hobject⟩ := Option.bind_eq_some_iff.1 hraw
    obtain rfl := asObject_eq_some.1 hobject
    have hnodup : (raw.map fun m => m.1).Nodup := by
      cases hkeys.mapGet hvalue with
      | object hnodup _ => exact hnodup
    refine Result.wp_bind.2 (Result.wp_mono wp_properties fun properties hnames => ?_)
    exact wp_objectAdditional_tidy (hfinal (hnames ▸ hnodup))
  · exact wp_objectAdditional_tidy (hfinal List.nodup_nil)

theorem wp_normalizeTyped_tidy (hkeys : JsonValue.DistinctKeys (.object object)) :
    Result.wp (fun _ => True) (normalizeTyped pointer object declaredType pointerToId)
      NormalizedSchema.Tidy := by
  unfold normalizeTyped
  split
  · exact wp_normalizeObject_tidy hkeys
  refine Result.wp_last fun _ _ => ?_
  split
  · exact wp_normalizeArray_tidy
  refine Result.wp_last fun _ _ => Result.wp_last fun _ _ => ?_
  split
  · exact tidy_of_plain rfl fun _ h => by cases h
  · exact tidy_of_plain rfl fun _ h => by cases h
  · exact tidy_of_plain rfl fun _ h => by cases h
  · exact wp_normalizeString_tidy
  · exact tidy_of_plain rfl fun _ h => by cases h
  · exact tidy_of_plain rfl fun _ h => by cases h
  · exact wp_normalizeArray_tidy
  · exact wp_normalizeObject_tidy hkeys

/-- **A node is tidy.** -/
theorem tidy_of_normalizeNode {raw : JsonValue} (hkeys : raw.DistinctKeys)
    (h : normalizeNode id pointer raw rawNodes pointerToId limits edges = .ok (kind, edges')) :
    kind.Tidy := by
  cases raw with
  | bool value =>
    obtain ⟨rfl, -⟩ := Prod.mk.inj (Result.pure_eq_ok.1 h)
    cases value
    · exact tidy_never
    · exact tidy_of_plain rfl fun _ h => by cases h
  | object object =>
    obtain ⟨-, hby⟩ := NormalizedBy.of_normalizeNode h
    cases hby with
    | allOf _ _ _ hkind => exact Result.wp_ok wp_normalizeSimpleAllOf_tidy hkind
    | anyOf _ _ _ _ => exact tidy_of_plain rfl fun _ h => by cases h
    | reference _ _ _ hkind =>
      obtain ⟨_, -, hkind⟩ := Result.bind_eq_ok.1 hkind
      obtain ⟨_, -, hkind⟩ := Result.bind_eq_ok.1 hkind
      obtain ⟨_, -, hkind⟩ := Result.bind_eq_ok.1 hkind
      obtain ⟨_, -, hkind⟩ := Result.bind_eq_ok.1 hkind
      obtain ⟨rfl, -⟩ := Prod.mk.inj (Result.pure_eq_ok.1 hkind)
      exact tidy_of_plain rfl fun _ h => by cases h
    | const _ _ _ hkind => exact Result.wp_ok wp_normalizeConst_tidy hkind
    | enum _ _ _ hkind => exact Result.wp_ok wp_normalizeEnum_tidy hkind
    | typed _ _ hkind => exact Result.wp_ok (wp_normalizeTyped_tidy hkeys) hkind
  | null => cases h
  | number literal => cases h
  | string text => cases h
  | array elements => cases h

end Nodes

theorem LocatedAt.distinctKeys {root value : JsonValue} {segments : List String}
    (h : LocatedAt root segments value) (hkeys : root.DistinctKeys) : value.DistinctKeys := by
  induction h with
  | here => exact hkeys
  | inside happlies _ ih => exact ih (happlies.distinctKeys hkeys)

/-! ### The arena -/

variable {root : JsonValue} {limits : CompileLimits} {arena : SchemaArena}
  {edges : List ReferenceEdge}

/-- Where the nodes of an arena come from. -/
structure NormalizedFrom (root : JsonValue) (limits : CompileLimits) (arena : SchemaArena)
    (rawNodes : List (SchemaPointer × JsonValue)) (pointerToId : AList fun _ : SchemaPointer => ℕ) :
    Prop where
  indexed : indexSchemaLocations root limits = .ok rawNodes
  ids : pointerIds rawNodes = .ok pointerToId
  root_eq : arena.root = 0
  length : arena.nodes.length = rawNodes.length
  node : ∀ {i : ℕ} {node : SchemaNode}, arena.nodes[i]? = some node → node.id = i ∧
    ∃ raw edges edges', rawNodes[i]? = some (node.provenance.pointer, raw) ∧
      normalizeNode i node.provenance.pointer raw rawNodes pointerToId limits edges =
        .ok (node.kind, edges')

/-- **The nodes of an arena are normalized subschemas.** -/
theorem normalizeSchema_nodes (h : normalizeSchema root limits = .ok (arena, edges)) :
    ∃ rawNodes pointerToId, NormalizedFrom root limits arena rawNodes pointerToId := by
  obtain ⟨rawNodes, hindexed, h⟩ := Result.bind_eq_ok.1 h
  obtain ⟨pointerToId, hids, h⟩ := Result.bind_eq_ok.1 h
  obtain ⟨result, hloop, h⟩ := Result.bind_eq_ok.1 h
  obtain ⟨rfl, -⟩ := Prod.mk.inj (Result.pure_eq_ok.1 h)
  have hresult := Result.wp_ok (Result.wp_foldlM (E := fun _ : CompileError => True)
    (I := fun done rest (result : Normalizing) => done ++ rest = rawNodes.zipIdx ∧
      result.nodes.length = done.length ∧ ∀ (i : ℕ) (node : SchemaNode),
        result.nodes[i]? = some node → node.id = i ∧
        ∃ raw edges edges', rawNodes[i]? = some (node.provenance.pointer, raw) ∧
          normalizeNode i node.provenance.pointer raw rawNodes pointerToId limits edges =
            .ok (node.kind, edges')) ?_ [] _ _ ⟨rfl, rfl, by simp⟩) hloop
  · obtain ⟨-, hlength, hnode⟩ := hresult
    exact ⟨rawNodes, pointerToId, hindexed, hids, rfl, by simpa using hlength, fun h => hnode _ _ h⟩
  · rintro done entry rest result ⟨hall, hlength, hnodes⟩
    obtain ⟨hentry, hraw⟩ := getElem?_of_zipIdx_eq hall.symm
    refine Result.wp_last fun found hfound =>
      Result.wp_pure.2 ⟨by simpa using hall, by simp [hlength], ?_⟩
    intro i node hnode
    rcases getElem?_snoc.1 hnode with hnode | ⟨rfl, rfl⟩
    · exact hnodes i node hnode
    · rw [hlength, ← hentry] at *
      exact ⟨rfl, _, _, _, hraw, hfound⟩

/-- **The arena of a document is in order**, and spells out canonical texts. -/
theorem normalizeSchema_tidy (hkeys : root.DistinctKeys)
    (h : normalizeSchema root limits = .ok (arena, edges)) :
    arena.Ordered ∧ ∀ node ∈ arena.nodes, node.kind.Tidy := by
  obtain ⟨rawNodes, pointerToId, hfrom⟩ := normalizeSchema_nodes h
  have htidy : ∀ node ∈ arena.nodes, node.kind.Tidy := by
    intro node hnode
    obtain ⟨i, hi⟩ := List.mem_iff_getElem?.1 hnode
    obtain ⟨-, raw, before, after, hraw, hnormalized⟩ := hfrom.node hi
    obtain ⟨segments, hlocated, -⟩ :=
      ((Result.wp_ok (indexSchemaLocations_wp hkeys limits) hfrom.indexed).2 _ _).1
        (List.mem_of_getElem? hraw)
    exact tidy_of_normalizeNode (hlocated.distinctKeys hkeys) hnormalized
  exact ⟨⟨fun h => (hfrom.node h).1, fun node hnode => (htidy node hnode).properties⟩, htidy⟩

end OcEarley

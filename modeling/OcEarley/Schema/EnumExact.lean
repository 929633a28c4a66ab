import OcEarley.Schema.Canonical
import OcEarley.Schema.Normalize

/-!
# Enumerated values

The loop over the entries of an `enum` compares canonical texts.  It fails for equal entries, and
keeps the entries that fit the type and the string keywords next to the `enum`.
-/

namespace OcEarley

variable {pointer : SchemaPointer} {object : List (String × JsonValue)}
  {declaredType : Option JsonType} {values : List JsonValue}

/-- The error of an enum with equal entries. -/
def enumNotUnique (pointer : SchemaPointer) : CompileError :=
  invalidValue pointer "enum" "enum entries must be unique"

/-- The value fits the keywords next to an `enum`. -/
def FitsAdjacent (pointer : SchemaPointer) (object : List (String × JsonValue))
    (declaredType : Option JsonType) (value : JsonValue) : Prop :=
  declaredType.all (valueMatchesType value) = true ∧
    valueMatchesStringKeywords pointer object value = .ok true

/-- What the loop knows after some entries. -/
structure EnumEntries.Holds (pointer : SchemaPointer) (object : List (String × JsonValue))
    (declaredType : Option JsonType) (done : List JsonValue) (entries : EnumEntries) : Prop where
  seen : ∀ json, json ∈ entries.seen ↔ ∃ v ∈ done, canonicalValue v = .ok ⟨json⟩
  written : ∀ v ∈ done, ∃ c, canonicalValue v = .ok c
  distinct : (done.map JsonValue.data).Nodup
  canonical : ∀ c, c ∈ entries.canonical ↔
    ∃ v ∈ done, canonicalValue v = .ok c ∧ FitsAdjacent pointer object declaredType v

/-- Why the loop fails. -/
def EnumEntries.Fails (pointer : SchemaPointer) (object : List (String × JsonValue))
    (values : List JsonValue) (e : CompileError) : Prop :=
  (∃ v ∈ values, canonicalValue v = .error e) ∨
    (∃ v ∈ values, valueMatchesStringKeywords pointer object v = .error e) ∨
    e = enumNotUnique pointer ∧ ¬(values.map JsonValue.data).Nodup

theorem CanonicalValue.ext_json {c : CanonicalValue} : (⟨c.json⟩ : CanonicalValue) = c := rfl

/-- One round of the loop. -/
theorem EnumEntries.add_spec {done rest : List JsonValue} {value : JsonValue}
    {entries : EnumEntries} (h : entries.Holds pointer object declaredType done) :
    Result.wp (Fails pointer object (done ++ value :: rest))
      (add pointer object declaredType entries value)
      (Holds pointer object declaredType (done ++ [value])) := by
  have hmem : value ∈ done ++ value :: rest := by simp
  unfold add
  rw [Result.wp_bind]
  cases hvalue : canonicalValue value with
  | error e => exact .inl ⟨value, hmem, hvalue⟩
  | ok c =>
    -- the text has been seen iff an equal value has
    have hseen : c.json ∈ entries.seen ↔ value.data ∈ done.map JsonValue.data := by
      rw [h.seen, List.mem_map]
      refine exists_congr fun v => and_congr_right fun hv => ?_
      obtain ⟨c', hc'⟩ := h.written v hv
      rw [← canonicalValue_eq_iff hc' hvalue, hc', CanonicalValue.ext_json, Except.ok.injEq]
    change Result.wp _ (Result.require _ _ >>= _) _
    rw [Result.wp_bind, Result.wp_require]
    refine ⟨fun hnew => ?_, fun hold => ?_⟩
    swap
    · refine .inr (.inr ⟨rfl, fun hnodup => ?_⟩)
      rw [List.map_append, List.map_cons] at hnodup
      exact (List.nodup_append.1 hnodup).2.2 _ (hseen.1 (not_not.1 hold)) _ List.mem_cons_self rfl
    have hsucceeds : ∀ fits : Bool, (fits = true ↔ FitsAdjacent pointer object declaredType value) →
        Holds pointer object declaredType (done ++ [value])
          { seen := entries.seen ++ [c.json]
            canonical := if fits then entries.canonical ++ [c] else entries.canonical } := by
      intro fits hfits
      refine ⟨fun json => ?_, fun v hv => ?_, ?_, fun c' => ?_⟩
      · have hjson : canonicalValue value = .ok ⟨json⟩ ↔ json = c.json := by
          rw [hvalue, Except.ok.injEq]
          exact ⟨fun heq => heq ▸ rfl, fun heq => heq ▸ rfl⟩
        simp only [List.mem_append, List.mem_singleton, h.seen, or_and_right, exists_or,
          exists_eq_left, hjson]
      · rcases List.mem_append.1 hv with hv | hv
        · exact h.written v hv
        · exact ⟨c, List.mem_singleton.1 hv ▸ hvalue⟩
      · rw [List.map_append, List.map_singleton]
        refine List.nodup_append.2 ⟨h.distinct, List.nodup_singleton _, fun d hd d' hd' heq => ?_⟩
        rw [List.mem_singleton.1 hd'] at heq
        exact hnew (hseen.2 (heq ▸ hd))
      · have hcanonical : canonicalValue value = .ok c' ↔ c' = c := by
          rw [hvalue, Except.ok.injEq, eq_comm]
        simp only [List.mem_append, List.mem_singleton, or_and_right, exists_or, exists_eq_left,
          hcanonical, ← hfits, ← h.canonical]
        cases fits with
        | true => simp
        | false => simp
    dsimp only
    by_cases htype : declaredType.all (valueMatchesType value) = true
    · rw [if_pos htype, Result.wp_bind]
      cases hstring : valueMatchesStringKeywords pointer object value with
      | error e => exact .inr (.inl ⟨value, hmem, hstring⟩)
      | ok fits =>
        refine hsucceeds fits ?_
        rw [FitsAdjacent, hstring, Except.ok.injEq]
        exact ⟨fun hfits => ⟨htype, hfits⟩, And.right⟩
    · rw [if_neg htype]
      exact hsucceeds false (iff_of_false Bool.false_ne_true fun hfits => htype hfits.1)

/-- The loop over the entries. -/
theorem EnumEntries.foldlM_spec :
    Result.wp (Fails pointer object values)
      (values.foldlM (add pointer object declaredType) ⟨[], []⟩)
      (Holds pointer object declaredType values) := by
  have hstart : Holds pointer object declaredType [] ⟨[], []⟩ :=
    ⟨by simp, by simp, List.nodup_nil, by simp⟩
  have hloop := Result.wp_foldlM (E := Fails pointer object values)
    (f := add pointer object declaredType)
    (I := fun done rest entries => done ++ rest = values ∧
      Holds pointer object declaredType done entries)
    (fun done value rest entries ⟨hvalues, h⟩ => ?_) [] values ⟨[], []⟩ ⟨rfl, hstart⟩
  · refine Result.wp_mono hloop fun entries h => ?_
    rw [List.nil_append] at h
    exact h.2
  · subst hvalues
    refine Result.wp_mono (add_spec h) fun entries' h' => ⟨?_, h'⟩
    rw [List.append_assoc, List.singleton_append]

/-- Where a node with an `enum` is normalized, the entries have been gone through. -/
theorem enum_of_normalizeNode {id : ℕ} {rawNodes : List (SchemaPointer × JsonValue)}
    {pointerToId : AList fun _ : SchemaPointer => ℕ} {limits : CompileLimits}
    {edges edges' : List ReferenceEdge} {kind : NormalizedSchema} {entries : JsonValue}
    (hentries : mapGet object "enum" = some entries)
    (h : normalizeNode id pointer (.object object) rawNodes pointerToId limits edges =
      .ok (kind, edges')) : ∃ declaredType, parseDeclaredType pointer object = .ok declaredType ∧
        normalizeEnum pointer object declaredType entries = .ok kind := by
  have henum := containsKey_of_mapGet hentries
  obtain ⟨-, hby⟩ := NormalizedBy.of_normalizeNode h
  cases hby with
  | allOf hallOf hcount => exact absurd hcount (semanticCount_ne_one henum hallOf (by decide))
  | anyOf hanyOf hcount =>
    exact absurd hcount (semanticCount_ne_one henum (containsKey_of_mapGet hanyOf) (by decide))
  | reference href hcount =>
    exact absurd hcount (semanticCount_ne_one (containsKey_of_mapGet href) henum (by decide))
  | const _ _ _ hconst =>
    obtain ⟨_, hnone, -⟩ := Result.bind_eq_ok.1 hconst
    have hnone := Result.require_eq_ok.1 hnone
    rw [henum] at hnone
    cases hnone
  | enum _ htype hvalues hkind =>
    rw [hentries] at hvalues
    exact ⟨_, htype, Option.some.inj hvalues ▸ hkind⟩
  | typed hnone =>
    have hnot := hnone "enum" (by decide)
    rw [henum] at hnot
    cases hnot

/-- What the entries that are kept become. -/
def KeepsEntries (pointer : SchemaPointer) (object : List (String × JsonValue))
    (declaredType : Option JsonType) (values : List JsonValue) (kind : NormalizedSchema) : Prop :=
  kind = .never ∧ (∀ v ∈ values, ¬FitsAdjacent pointer object declaredType v) ∨
    ∃ kept, kind = .enum kept ∧ ∀ c, c ∈ kept ↔
      ∃ v ∈ values, canonicalValue v = .ok c ∧ FitsAdjacent pointer object declaredType v

theorem wp_normalizeEnum (hstructural : hasStructuralKeywords object = false) (hne : values ≠ []) :
    Result.wp (EnumEntries.Fails pointer object values)
      (normalizeEnum pointer object declaredType (.array values))
      (fun kind => (values.map JsonValue.data).Nodup ∧
        KeepsEntries pointer object declaredType values kind) := by
  unfold normalizeEnum
  rw [Result.wp_bind, Result.wp_require]
  refine ⟨fun _ => ?_, fun hnot => absurd hstructural hnot⟩
  change Result.wp _ (Result.require _ _ >>= _) _
  rw [Result.wp_bind, Result.wp_require]
  refine ⟨fun _ => ?_, fun hnot => absurd hne hnot⟩
  rw [Result.wp_bind]
  refine Result.wp_mono EnumEntries.foldlM_spec fun entries h => ?_
  split
  · next hnil =>
    refine ⟨h.distinct, .inl ⟨rfl, fun v hv hfits => ?_⟩⟩
    obtain ⟨c, hc⟩ := h.written v hv
    have hmem := (h.canonical c).2 ⟨v, hv, hc, hfits⟩
    rw [hnil] at hmem
    cases hmem
  · refine ⟨h.distinct, .inr ⟨_, rfl, fun c => ?_⟩⟩
    rw [mem_sortByKey]
    exact h.canonical c

/-- The object would be normalized to its `enum` if the entries were distinct. -/
structure EnumApplies (pointer : SchemaPointer) (object : List (String × JsonValue))
    (declaredType : Option JsonType) (values : List JsonValue) : Prop where
  keywords : validateKeywords pointer object = .ok ()
  containers : validateContainers pointer object = .ok ()
  dialect : checkDialect pointer object = .ok ()
  alone : ∀ key ∈ ["allOf", "oneOf", "anyOf", "$ref", "const"], containsKey object key = false
  structural : hasStructuralKeywords object = false
  declared : parseDeclaredType pointer object = .ok declaredType
  entries : mapGet object "enum" = some (.array values)
  nonempty : values ≠ []
  written : ∀ v ∈ values, ∃ c, canonicalValue v = .ok c
  bounds : ∀ v ∈ values, ∃ fits, valueMatchesStringKeywords pointer object v = .ok fits

theorem EnumApplies.normalizeNode_eq {id : ℕ} {rawNodes : List (SchemaPointer × JsonValue)}
    {pointerToId : AList fun _ : SchemaPointer => ℕ} {limits : CompileLimits}
    {edges : List ReferenceEdge} (h : EnumApplies pointer object declaredType values) :
    normalizeNode id pointer (.object object) rawNodes pointerToId limits edges = (do
      let kind ← normalizeEnum pointer object declaredType (.array values)
      pure (kind, edges)) := by
  have halone : ∀ key ∈ ["allOf", "oneOf", "anyOf", "$ref", "const"], mapGet object key = none :=
    fun key hkey => mapGet_of_not_containsKey (h.alone key hkey)
  have hallOf : ¬containsKey object "allOf" = true := by
    rw [h.alone "allOf" (by decide)]
    decide
  change (do
    validateKeywords pointer object
    validateContainers pointer object
    checkDialect pointer object
    normalizeKeywords id pointer object rawNodes pointerToId limits edges) = _
  rw [h.keywords, h.containers, h.dialect]
  change normalizeKeywords id pointer object rawNodes pointerToId limits edges = _
  unfold normalizeKeywords
  rw [if_neg hallOf, h.alone "oneOf" (by decide), halone "anyOf" (by decide),
    halone "$ref" (by decide), h.declared, halone "const" (by decide), h.entries]
  rfl

/-- **The canonical encoding decides equality.**  Two values are written in the same way iff they
are the same in the data model, in which objects are the same iff they have the same members in any
order.  So where nothing else is wrong with an `enum`, it is refused for not being unique iff two
entries are equal, and every entry that fits is kept; an `enum` that is accepted is unique. -/
theorem canonical_decides_equality :
    (∀ v w c c', canonicalValue v = .ok c → canonicalValue w = .ok c' →
      (c = c' ↔ v.data = w.data)) ∧
    (∀ members members' : List (String × JsonValue), (members.map Prod.fst).Nodup →
      ((JsonValue.object members).data = (JsonValue.object members').data ↔
        (members.map memberEntry).Perm (members'.map memberEntry))) ∧
    ∀ id pointer object rawNodes pointerToId limits edges values,
      (∀ declaredType, EnumApplies pointer object declaredType values →
        (normalizeNode id pointer (.object object) rawNodes pointerToId limits edges =
          .error (enumNotUnique pointer) ↔ ¬(values.map JsonValue.data).Nodup) ∧
        ((values.map JsonValue.data).Nodup → ∃ kind,
          normalizeNode id pointer (.object object) rawNodes pointerToId limits edges =
            .ok (kind, edges) ∧ KeepsEntries pointer object declaredType values kind)) ∧
      (mapGet object "enum" = some (.array values) → ∀ kind edges',
        normalizeNode id pointer (.object object) rawNodes pointerToId limits edges =
          .ok (kind, edges') → (values.map JsonValue.data).Nodup) := by
  refine ⟨fun v w c c' => canonicalValue_eq_iff, fun members members' => data_object_eq_iff,
    fun id pointer object rawNodes pointerToId limits edges values =>
      ⟨fun declaredType h => ?_, fun hvalues kind edges' h => ?_⟩⟩
  · have hwp : Result.wp _ (normalizeEnum pointer object declaredType (.array values)) _ :=
      wp_normalizeEnum h.structural h.nonempty
    rw [h.normalizeNode_eq]
    cases hrun : normalizeEnum pointer object declaredType (.array values) with
    | ok kind =>
      rw [hrun] at hwp
      obtain ⟨hnodup, hkeeps⟩ := hwp
      exact ⟨iff_of_false (by simp) (not_not.2 hnodup), fun _ => ⟨kind, rfl, hkeeps⟩⟩
    | error e =>
      rw [hrun] at hwp
      -- every value is written and bounded, so the only error left is the one about duplicates
      have hfails : e = enumNotUnique pointer ∧ ¬(values.map JsonValue.data).Nodup := by
        rcases hwp with ⟨v, hv, herror⟩ | ⟨v, hv, herror⟩ | hfails
        · obtain ⟨c, hc⟩ := h.written v hv
          rw [hc] at herror
          cases herror
        · obtain ⟨fits, hfits⟩ := h.bounds v hv
          rw [hfits] at herror
          cases herror
        · exact hfails
      exact ⟨iff_of_true (congrArg Except.error hfails.1) hfails.2, fun hnodup =>
        absurd hnodup hfails.2⟩
  · obtain ⟨declaredType, -, hkind⟩ := enum_of_normalizeNode hvalues h
    have hchecks := hkind
    obtain ⟨_, hstructural, hchecks⟩ := Result.bind_eq_ok.1 hchecks
    obtain ⟨_, hunwrap, hchecks⟩ := Result.bind_eq_ok.1 hchecks
    obtain rfl := Option.some.inj (Result.unwrap_eq_ok.1 hunwrap)
    obtain ⟨_, hne, -⟩ := Result.bind_eq_ok.1 hchecks
    exact (Result.wp_ok (wp_normalizeEnum (Result.require_eq_ok.1 hstructural)
      (Result.require_eq_ok.1 hne)) hkind).1

theorem forall_mem_noDigits : ∀ c ∈ ([] : List Char), c.isDigit = true := List.forall_mem_nil _

/-- The literal `1`. -/
def oneLiteral : NumberLiteral :=
  .ofDigits false ['1'] [] 0 ⟨by simp, by simp [Char.isDigit]⟩
    (fun h => absurd (Option.some.inj h) (by decide)) forall_mem_noDigits

/-- `{"enum": [1, 10e-1]}`. -/
def sameNumbers : List (String × JsonValue) :=
  [("enum", .array [.number oneLiteral, .number tenTenths])]

theorem canonicalValue_one : canonicalValue (.number oneLiteral) = .ok ⟨"1"⟩ := by decide +kernel

theorem canonicalValue_tenTenths : canonicalValue (.number tenTenths) = .ok ⟨"1"⟩ := by
  decide +kernel

theorem enumApplies_sameNumbers : EnumApplies ⟨""⟩ sameNumbers none
    [.number oneLiteral, .number tenTenths] where
  keywords := by decide +kernel
  containers := by decide +kernel
  dialect := by decide +kernel
  alone := by decide +kernel
  structural := by decide +kernel
  declared := by decide +kernel
  entries := rfl
  nonempty := List.cons_ne_nil _ _
  written := by
    simp only [List.forall_mem_cons, List.not_mem_nil, false_imp_iff, implies_true, and_true]
    exact ⟨⟨_, canonicalValue_one⟩, ⟨_, canonicalValue_tenTenths⟩⟩
  bounds := by
    simp only [List.forall_mem_cons, List.not_mem_nil, false_imp_iff, implies_true, and_true]
    exact ⟨⟨true, rfl⟩, ⟨true, rfl⟩⟩

theorem canonical_decides_equality_sameNumbers :
    (JsonValue.number oneLiteral).data = (JsonValue.number tenTenths).data ∧
      normalizeNode 0 ⟨""⟩ (.object sameNumbers)
        [] ∅ .default [] = .error (enumNotUnique ⟨""⟩) := by
  have hsame := (canonical_decides_equality.1 _ _ _ _ canonicalValue_one
    canonicalValue_tenTenths).1 rfl
  refine ⟨hsame, ?_⟩
  refine ((canonical_decides_equality.2.2 0 ⟨""⟩ sameNumbers [] ∅ .default []
    [.number oneLiteral, .number tenTenths]).1 none enumApplies_sameNumbers).1.2 fun hnodup => ?_
  rw [List.map_cons, hsame, List.map_singleton] at hnodup
  exact (List.nodup_cons.1 hnodup).1 List.mem_cons_self

end OcEarley

import OcEarley.Schema.Pointer

/-!
# The index covers the document

The locations of the subschemas of a document, by the segments that lead to them.  The worklist of
the indexer takes every location once, the root first.
-/

namespace OcEarley

/-! ### Locations -/

/-- No object inside the value has two members of one name. -/
inductive JsonValue.DistinctKeys : JsonValue → Prop
  | null : DistinctKeys .null
  | bool (value : Bool) : DistinctKeys (.bool value)
  | number (literal : NumberLiteral) : DistinctKeys (.number literal)
  | string (text : String) : DistinctKeys (.string text)
  | array {elements : List JsonValue} (h : ∀ v ∈ elements, DistinctKeys v) :
      DistinctKeys (.array elements)
  | object {members : List (String × JsonValue)} (hkeys : (members.map fun m => m.1).Nodup)
      (h : ∀ m ∈ members, DistinctKeys m.2) : DistinctKeys (.object members)

/-- The object applies the subschema by a keyword; the segments lead to it. -/
inductive Applies (object : List (String × JsonValue)) : List String → JsonValue → Prop
  | named {keyword name : String} {entries : List (String × JsonValue)} {child : JsonValue}
      (hkeyword : keyword ∈ ["$defs", "properties"])
      (hentries : mapGet object keyword = some (.object entries))
      (hchild : (name, child) ∈ entries) (hschema : isSchema child = true) :
      Applies object [keyword, name] child
  | single {keyword : String} {child : JsonValue}
      (hkeyword : keyword ∈ ["additionalProperties", "items"])
      (hchild : mapGet object keyword = some child) (hschema : isSchema child = true) :
      Applies object [keyword] child
  | indexed {keyword : String} {entries : List JsonValue} {i : ℕ} {child : JsonValue}
      (hkeyword : keyword ∈ ["prefixItems", "allOf", "anyOf", "oneOf"])
      (hentries : mapGet object keyword = some (.array entries))
      (hchild : entries[i]? = some child) (hschema : isSchema child = true) :
      Applies object [keyword, toString i] child

/-- The value is reached from the schema along the segments, through the keywords. -/
inductive LocatedAt : JsonValue → List String → JsonValue → Prop
  | here (value : JsonValue) : LocatedAt value [] value
  | inside {object : List (String × JsonValue)} {segments segments' : List String}
      {child value : JsonValue} (h : Applies object segments child)
      (hrest : LocatedAt child segments' value) :
      LocatedAt (.object object) (segments ++ segments') value

theorem LocatedAt.snoc {root child : JsonValue} {object : List (String × JsonValue)}
    {segments segments' : List String} (hlocated : LocatedAt root segments (.object object))
    (h : Applies object segments' child) : LocatedAt root (segments ++ segments') child := by
  generalize hvalue : JsonValue.object object = value at hlocated
  induction hlocated with
  | here =>
    subst hvalue
    have hchild := LocatedAt.inside h (.here child)
    rwa [List.append_nil] at hchild
  | inside h' _ ih =>
    rw [List.append_assoc]
    exact .inside h' (ih hvalue)

theorem mem_of_mapGet {members : List (String × JsonValue)} {key : String} {value : JsonValue}
    (h : mapGet members key = some value) : (key, value) ∈ members := by
  obtain ⟨l₁, l₂, rfl, -⟩ := List.lookup_eq_some_iff.1 h
  simp

theorem JsonValue.DistinctKeys.mapGet {members : List (String × JsonValue)}
    (h : DistinctKeys (.object members)) {key : String} {value : JsonValue}
    (hvalue : mapGet members key = some value) : value.DistinctKeys := by
  cases h with
  | object _ h => exact h _ (mem_of_mapGet hvalue)

theorem Applies.distinctKeys {object : List (String × JsonValue)} {segments : List String}
    {child : JsonValue} (h : Applies object segments child)
    (hkeys : JsonValue.DistinctKeys (.object object)) : child.DistinctKeys := by
  cases h with
  | named _ hentries hchild _ =>
    cases hkeys.mapGet hentries with
    | object _ h => exact h _ hchild
  | single _ hchild _ => exact hkeys.mapGet hchild
  | indexed _ hentries hchild _ =>
    cases hkeys.mapGet hentries with
    | array h => exact h _ (List.mem_of_getElem? hchild)

theorem toString_injective {m n : ℕ} (h : toString m = toString n) : m = n := by
  have hdigits := congrArg String.toList h
  change (Nat.repr m).toList = (Nat.repr n).toList at hdigits
  rw [Nat.toList_repr, Nat.toList_repr] at hdigits
  have hvalue := congrArg (Nat.ofDigitChars 10 · 0) hdigits
  simpa only [Nat.ofDigitChars_ten_toDigits] using hvalue

/-- The segments tell which subschema is meant, and where they end. -/
theorem Applies.unique {object : List (String × JsonValue)} {s s' t t' : List String}
    {child child' : JsonValue} (hkeys : JsonValue.DistinctKeys (.object object))
    (h : Applies object s child) (h' : Applies object s' child') (heq : s ++ t = s' ++ t') :
    child = child' ∧ t = t' := by
  have hsingle : ∀ k ∈ ["$defs", "properties"], k ∉ ["additionalProperties", "items"] := by decide
  have hnamed : ∀ k ∈ ["prefixItems", "allOf", "anyOf", "oneOf"], k ∉ ["$defs", "properties"] := by
    decide
  have hindexed : ∀ k ∈ ["prefixItems", "allOf", "anyOf", "oneOf"],
      k ∉ ["additionalProperties", "items"] := by decide
  cases h with
  | named hkeyword hentries hchild _ =>
    cases h' with
    | named hkeyword' hentries' hchild' _ =>
      obtain ⟨rfl, htail⟩ := List.cons.inj heq
      obtain ⟨rfl, rfl⟩ := List.cons.inj htail
      obtain rfl := JsonValue.object.inj (Option.some.inj (hentries.symm.trans hentries'))
      cases hkeys.mapGet hentries with
      | object hnodup _ =>
        exact ⟨congrArg Prod.snd (List.inj_on_of_nodup_map hnodup hchild hchild' rfl), rfl⟩
    | single hkeyword' _ _ =>
      obtain ⟨rfl, -⟩ := List.cons.inj heq
      exact absurd hkeyword' (hsingle _ hkeyword)
    | indexed hkeyword' _ _ _ =>
      obtain ⟨rfl, -⟩ := List.cons.inj heq
      exact absurd hkeyword (hnamed _ hkeyword')
  | single hkeyword hchild _ =>
    cases h' with
    | named hkeyword' _ _ _ =>
      obtain ⟨rfl, -⟩ := List.cons.inj heq
      exact absurd hkeyword (hsingle _ hkeyword')
    | single hkeyword' hchild' _ =>
      obtain ⟨rfl, rfl⟩ := List.cons.inj heq
      exact ⟨Option.some.inj (hchild.symm.trans hchild'), rfl⟩
    | indexed hkeyword' _ _ _ =>
      obtain ⟨rfl, -⟩ := List.cons.inj heq
      exact absurd hkeyword (hindexed _ hkeyword')
  | indexed hkeyword hentries hchild _ =>
    cases h' with
    | named hkeyword' _ _ _ =>
      obtain ⟨rfl, -⟩ := List.cons.inj heq
      exact absurd hkeyword' (hnamed _ hkeyword)
    | single hkeyword' _ _ =>
      obtain ⟨rfl, -⟩ := List.cons.inj heq
      exact absurd hkeyword' (hindexed _ hkeyword)
    | indexed hkeyword' hentries' hchild' _ =>
      obtain ⟨rfl, htail⟩ := List.cons.inj heq
      obtain ⟨hindex, rfl⟩ := List.cons.inj htail
      obtain rfl := JsonValue.array.inj (Option.some.inj (hentries.symm.trans hentries'))
      obtain rfl := toString_injective hindex
      exact ⟨Option.some.inj (hchild.symm.trans hchild'), rfl⟩

theorem Applies.ne_nil {object : List (String × JsonValue)} {child : JsonValue} :
    ¬ Applies object [] child := by
  intro h
  cases h

/-- One value at most is located along a list of segments. -/
theorem LocatedAt.unique {root value value' : JsonValue} {segments : List String}
    (hkeys : root.DistinctKeys) (h : LocatedAt root segments value)
    (h' : LocatedAt root segments value') : value = value' := by
  induction h generalizing value' with
  | here =>
    generalize hnil : ([] : List String) = segments at h'
    cases h' with
    | here => rfl
    | inside h' _ =>
      obtain ⟨rfl, -⟩ := List.append_eq_nil_iff.1 hnil.symm
      exact absurd h' Applies.ne_nil
  | @inside object s t child value h _ ih =>
    generalize hall : s ++ t = segments at h'
    cases h' with
    | here =>
      obtain ⟨rfl, -⟩ := List.append_eq_nil_iff.1 hall
      exact absurd h Applies.ne_nil
    | inside h' hrest' =>
      obtain ⟨rfl, rfl⟩ := h.unique hkeys h' hall
      exact ih (h.distinctKeys hkeys) hrest'

/-! ### The children of a subschema -/

variable {pointer : SchemaPointer} {object : List (String × JsonValue)} {keyword : String}
  {c : SchemaPointer × JsonValue}

theorem asObject_eq_some {value : JsonValue} {members : List (String × JsonValue)} :
    value.asObject = some members ↔ value = .object members := by
  cases value <;> simp [JsonValue.asObject]

theorem asArray_eq_some {value : JsonValue} {elements : List JsonValue} :
    value.asArray = some elements ↔ value = .array elements := by
  cases value <;> simp [JsonValue.asArray]

theorem mem_namedChildren : c ∈ namedChildren pointer object keyword ↔
    ∃ entries name, mapGet object keyword = some (.object entries) ∧ (name, c.2) ∈ entries ∧
      isSchema c.2 = true ∧ c.1 = pointerJoin (pointerJoin pointer keyword) name := by
  unfold namedChildren
  constructor
  · intro h
    split at h
    · next entries hentries =>
      obtain ⟨value, hvalue, hobject⟩ := Option.bind_eq_some_iff.1 hentries
      obtain rfl := asObject_eq_some.1 hobject
      obtain ⟨m, hm, rfl⟩ := List.mem_map.1 h
      obtain ⟨hm, hschema⟩ := List.mem_filter.1 hm
      exact ⟨entries, m.1, hvalue, mem_sortByKey.1 hm, hschema, rfl⟩
    · exact absurd h List.not_mem_nil
  · rintro ⟨entries, name, hentries, hmem, hschema, hpointer⟩
    rw [hentries]
    refine List.mem_map.2 ⟨(name, c.2), List.mem_filter.2 ⟨mem_sortByKey.2 hmem, hschema⟩, ?_⟩
    exact Prod.ext hpointer.symm rfl

theorem mem_singleChild : c ∈ singleChild pointer object keyword ↔
    mapGet object keyword = some c.2 ∧ isSchema c.2 = true ∧ c.1 = pointerJoin pointer keyword := by
  unfold singleChild
  constructor
  · intro h
    split at h
    · next child hchild =>
      split at h
      · next hschema =>
        obtain rfl := List.mem_singleton.1 h
        exact ⟨hchild, hschema, rfl⟩
      · exact absurd h List.not_mem_nil
    · exact absurd h List.not_mem_nil
  · rintro ⟨hchild, hschema, hpointer⟩
    simp [hchild, hschema, ← hpointer]

theorem mem_indexedChildren : c ∈ indexedChildren pointer object keyword ↔
    ∃ (entries : List JsonValue) (i : ℕ), mapGet object keyword = some (.array entries) ∧
      entries[i]? = some c.2 ∧ isSchema c.2 = true ∧
      c.1 = pointerJoin (pointerJoin pointer keyword) (toString i) := by
  unfold indexedChildren
  constructor
  · intro h
    split at h
    · next entries hentries =>
      obtain ⟨value, hvalue, harray⟩ := Option.bind_eq_some_iff.1 hentries
      obtain rfl := asArray_eq_some.1 harray
      obtain ⟨entry, hentry, rfl⟩ := List.mem_map.1 h
      obtain ⟨hentry, hschema⟩ := List.mem_filter.1 hentry
      exact ⟨entries, entry.2, hvalue, List.mem_zipIdx_iff_getElem?.1 hentry, hschema, rfl⟩
    · exact absurd h List.not_mem_nil
  · rintro ⟨entries, i, hentries, hmem, hschema, hpointer⟩
    rw [hentries]
    refine List.mem_map.2 ⟨(c.2, i), List.mem_filter.2 ⟨?_, hschema⟩, Prod.ext hpointer.symm rfl⟩
    exact List.mem_zipIdx_iff_getElem?.2 hmem

/-- The children are the subschemas that the object applies, under the segments that lead there. -/
theorem mem_schemaChildren {value : JsonValue} : c ∈ schemaChildren pointer value ↔
    ∃ object segments, value = .object object ∧ Applies object segments c.2 ∧
      c.1 = segments.foldl pointerJoin pointer := by
  unfold schemaChildren
  constructor
  · intro h
    split at h
    · exact absurd h List.not_mem_nil
    · next object hobject =>
      obtain rfl := asObject_eq_some.1 hobject
      rcases List.mem_append.1 h with h | h
      · rcases List.mem_append.1 h with h | h
        · obtain ⟨keyword, hkeyword, h⟩ := List.mem_flatMap.1 h
          obtain ⟨entries, name, hentries, hchild, hschema, hpointer⟩ := mem_namedChildren.1 h
          exact ⟨object, _, rfl, .named hkeyword hentries hchild hschema, hpointer⟩
        · obtain ⟨keyword, hkeyword, h⟩ := List.mem_flatMap.1 h
          obtain ⟨hchild, hschema, hpointer⟩ := mem_singleChild.1 h
          exact ⟨object, _, rfl, .single hkeyword hchild hschema, hpointer⟩
      · obtain ⟨keyword, hkeyword, h⟩ := List.mem_flatMap.1 h
        obtain ⟨entries, i, hentries, hchild, hschema, hpointer⟩ := mem_indexedChildren.1 h
        exact ⟨object, _, rfl, .indexed hkeyword hentries hchild hschema, hpointer⟩
  · rintro ⟨object, segments, rfl, happlies, hpointer⟩
    rw [show (JsonValue.object object).asObject = some object from rfl]
    generalize hchild : c.2 = child at happlies
    cases happlies with
    | @named keyword name entries child hkeyword hentries hmem hschema =>
      subst hchild
      refine List.mem_append_left _ (List.mem_append_left _ (List.mem_flatMap.2 ⟨_, hkeyword, ?_⟩))
      exact mem_namedChildren.2 ⟨entries, name, hentries, hmem, hschema, hpointer⟩
    | single hkeyword hmem hschema =>
      subst hchild
      refine List.mem_append_left _ (List.mem_append_right _ (List.mem_flatMap.2 ⟨_, hkeyword, ?_⟩))
      exact mem_singleChild.2 ⟨hmem, hschema, hpointer⟩
    | @indexed keyword entries i child hkeyword hentries hmem hschema =>
      subst hchild
      refine List.mem_append_right _ (List.mem_flatMap.2 ⟨_, hkeyword, ?_⟩)
      exact mem_indexedChildren.2 ⟨entries, i, hentries, hmem, hschema, hpointer⟩

/-! ### The size of the worklist -/

/-- The number of values inside the values of the worklist. -/
def workSize (work : List (SchemaPointer × JsonValue)) : ℕ := (work.map fun c => c.2.size).sum

@[simp] theorem workSize_nil : workSize [] = 0 := rfl

@[simp] theorem workSize_cons (c : SchemaPointer × JsonValue)
    (work : List (SchemaPointer × JsonValue)) :
    workSize (c :: work) = c.2.size + workSize work := by
  simp [workSize]

@[simp] theorem workSize_append (work work' : List (SchemaPointer × JsonValue)) :
    workSize (work ++ work') = workSize work + workSize work' := by
  simp [workSize]

theorem workSize_sortByKey (key : SchemaPointer × JsonValue → String)
    (work : List (SchemaPointer × JsonValue)) : workSize (sortByKey key work) = workSize work :=
  ((List.perm_insertionSort _ work).map _).sum_eq

theorem JsonValue.size_pos (value : JsonValue) : 0 < value.size := by
  cases value <;> simp [JsonValue.size]

theorem elementSize_eq (elements : List JsonValue) :
    JsonValue.elementSize elements = (elements.map JsonValue.size).sum := by
  induction elements with
  | nil => rfl
  | cons v elements ih => rw [JsonValue.elementSize, ih, List.map_cons, List.sum_cons]

theorem memberSize_eq (members : List (String × JsonValue)) :
    JsonValue.memberSize members = (members.map fun m => m.2.size).sum := by
  induction members with
  | nil => rfl
  | cons m members ih => rw [JsonValue.memberSize, ih, List.map_cons, List.sum_cons]

/-- The size of the value behind a keyword. -/
def keywordSize (object : List (String × JsonValue)) (keyword : String) : ℕ :=
  match mapGet object keyword with
  | some value => value.size
  | none => 0

theorem sum_map_filter_le {α : Type} (f : α → ℕ) (p : α → Bool) (l : List α) :
    ((l.filter p).map f).sum ≤ (l.map f).sum := by
  induction l with
  | nil => simp
  | cons a l ih =>
    by_cases ha : p a = true
    · simp only [List.filter_cons_of_pos ha, List.map_cons, List.sum_cons]
      omega
    · simp only [List.filter_cons_of_neg ha, List.map_cons, List.sum_cons]
      omega

theorem workSize_namedChildren : workSize (namedChildren pointer object keyword) ≤
    keywordSize object keyword := by
  unfold namedChildren keywordSize
  split
  · next entries hentries =>
    obtain ⟨value, hvalue, hobject⟩ := Option.bind_eq_some_iff.1 hentries
    obtain rfl := asObject_eq_some.1 hobject
    rw [hvalue, workSize, List.map_map]
    have hle := sum_map_filter_le (fun m : String × JsonValue => m.2.size) (fun m => isSchema m.2)
      (sortByKey (fun m => m.1) entries)
    have hperm :
        ((sortByKey (fun m : String × JsonValue => m.1) entries).map fun m => m.2.size).sum =
          (entries.map fun m => m.2.size).sum := ((List.perm_insertionSort _ entries).map _).sum_eq
    simp only [Function.comp_def, JsonValue.size, memberSize_eq]
    omega
  · exact Nat.zero_le _

theorem workSize_singleChild : workSize (singleChild pointer object keyword) ≤
    keywordSize object keyword := by
  unfold singleChild keywordSize
  cases mapGet object keyword with
  | none => exact Nat.zero_le _
  | some child =>
    dsimp only
    split
    · exact (Nat.add_zero _).le
    · exact Nat.zero_le _

theorem workSize_indexedChildren : workSize (indexedChildren pointer object keyword) ≤
    keywordSize object keyword := by
  unfold indexedChildren keywordSize
  split
  · next entries hentries =>
    obtain ⟨value, hvalue, harray⟩ := Option.bind_eq_some_iff.1 hentries
    obtain rfl := asArray_eq_some.1 harray
    rw [hvalue, workSize, List.map_map]
    have hle := sum_map_filter_le (fun e : JsonValue × ℕ => e.1.size) (fun e => isSchema e.1)
      entries.zipIdx
    have hfst : (entries.zipIdx.map fun e => e.1.size).sum = (entries.map JsonValue.size).sum := by
      conv_rhs => rw [← List.zipIdx_map_fst 0 entries, List.map_map]
      rfl
    simp only [Function.comp_def, JsonValue.size, elementSize_eq]
    omega
  · exact Nat.zero_le _

/-- Different keywords have different members. -/
theorem sum_keywordSize_le {keywords : List String} (hkeywords : keywords.Nodup) :
    (keywords.map (keywordSize object)).sum ≤ JsonValue.memberSize object := by
  induction object generalizing keywords with
  | nil =>
    have hnone : keywords.map (keywordSize []) = keywords.map fun _ => 0 := rfl
    simp [hnone]
  | cons m object ih =>
    obtain ⟨key, value⟩ := m
    have hother : ∀ k ≠ key, keywordSize ((key, value) :: object) k = keywordSize object k := by
      intro k hk
      have hlookup : mapGet ((key, value) :: object) k = mapGet object k := by
        rw [mapGet, List.lookup_cons, beq_eq_false_iff_ne.2 hk]
        rfl
      rw [keywordSize, keywordSize, hlookup]
    rw [JsonValue.memberSize]
    by_cases hmem : key ∈ keywords
    · have hsize : keywordSize ((key, value) :: object) key = value.size := by
        have hlookup : mapGet ((key, value) :: object) key = some value := by simp [mapGet]
        rw [keywordSize, hlookup]
      have hperm := (List.perm_cons_erase hmem).map (keywordSize ((key, value) :: object))
      have hrest : (keywords.erase key).map (keywordSize ((key, value) :: object)) =
          (keywords.erase key).map (keywordSize object) :=
        List.map_congr_left fun k hk => hother k (hkeywords.mem_erase_iff.1 hk).1
      have hle := ih (hkeywords.erase key)
      rw [hperm.sum_eq, List.map_cons, List.sum_cons, hsize, hrest]
      omega
    · have hall : keywords.map (keywordSize ((key, value) :: object)) =
          keywords.map (keywordSize object) :=
        List.map_congr_left fun k hk => hother k (ne_of_mem_of_not_mem hk hmem)
      have hle := ih hkeywords
      rw [hall]
      omega

/-- The children are smaller than the subschema. -/
theorem workSize_schemaChildren (value : JsonValue) :
    workSize (schemaChildren pointer value) < value.size := by
  unfold schemaChildren
  split
  · exact value.size_pos
  · next object hobject =>
    obtain rfl := asObject_eq_some.1 hobject
    have hkeywords : ["$defs", "properties", "additionalProperties", "items", "prefixItems",
        "allOf", "anyOf", "oneOf"].Nodup := by decide
    have hsum : _ ≤ JsonValue.memberSize object := sum_keywordSize_le hkeywords
    have hnamed : ∀ keyword, workSize (namedChildren pointer object keyword) ≤
        keywordSize object keyword := fun _ => workSize_namedChildren
    have hsingle : ∀ keyword, workSize (singleChild pointer object keyword) ≤
        keywordSize object keyword := fun _ => workSize_singleChild
    have hindexed : ∀ keyword, workSize (indexedChildren pointer object keyword) ≤
        keywordSize object keyword := fun _ => workSize_indexedChildren
    have h₁ := hnamed "$defs"
    have h₂ := hnamed "properties"
    have h₃ := hsingle "additionalProperties"
    have h₄ := hsingle "items"
    have h₅ := hindexed "prefixItems"
    have h₆ := hindexed "allOf"
    have h₇ := hindexed "anyOf"
    have h₈ := hindexed "oneOf"
    simp only [List.flatMap_cons, List.flatMap_nil, List.append_nil, workSize_append, List.map_cons,
      List.map_nil, List.sum_cons, List.sum_nil, JsonValue.size] at hsum ⊢
    omega

/-! ### The worklist -/

/-- What has been taken from the worklist are locations of the document, the root first, and their
children have been taken or are still on the worklist. -/
structure Indexing.Covers (root : JsonValue) (indexing : Indexing) : Prop where
  located : ∀ c ∈ indexing.work ++ indexing.rawNodes,
    ∃ segments, LocatedAt root segments c.2 ∧ c.1 = pointerOf segments
  closed : ∀ c ∈ indexing.rawNodes, ∀ c' ∈ schemaChildren c.1 c.2,
    c' ∈ indexing.work ++ indexing.rawNodes
  seen : indexing.rawNodes.map (fun c => c.1) = indexing.seen
  first : indexing.rawNodes = [] ∧ indexing.work = [(⟨""⟩, root)] ∨
    indexing.rawNodes[0]? = some (⟨""⟩, root)

theorem Indexing.Covers.start (root : JsonValue) : Covers root ⟨[(⟨""⟩, root)], [], []⟩ where
  located := by
    intro c hc
    obtain rfl : c = (⟨""⟩, root) := by simpa using hc
    exact ⟨[], .here root, rfl⟩
  closed := by simp
  seen := rfl
  first := .inl ⟨rfl, rfl⟩

/-- A location that has been seen is not taken again: it is the same subschema. -/
theorem Indexing.Covers.skip {root value : JsonValue} {indexing : Indexing}
    {work : List (SchemaPointer × JsonValue)} (hkeys : root.DistinctKeys)
    (h : indexing.Covers root) (hwork : indexing.work = (pointer, value) :: work)
    (hseen : pointer ∈ indexing.seen) : Covers root { indexing with work := work } := by
  rw [← h.seen] at hseen
  obtain ⟨c, hc, hpointer⟩ := List.mem_map.1 hseen
  have hsame : c = (pointer, value) := by
    have htop : (pointer, value) ∈ indexing.work := by simp [hwork]
    obtain ⟨segments, hlocated, heq⟩ := h.located c (List.mem_append_right _ hc)
    obtain ⟨segments', hlocated', heq'⟩ := h.located _ (List.mem_append_left _ htop)
    obtain rfl := pointerOf_injective (heq.symm.trans (hpointer.trans heq'))
    exact Prod.ext hpointer (hlocated.unique hkeys hlocated')
  have hkept : ∀ c' ∈ indexing.work ++ indexing.rawNodes, c' ∈ work ++ indexing.rawNodes := by
    intro c' hc'
    rw [hwork, List.cons_append] at hc'
    rcases List.mem_cons.1 hc' with rfl | hc'
    · exact List.mem_append_right _ (hsame ▸ hc)
    · exact hc'
  refine ⟨fun c' hc' => h.located c' ?_, fun c' hc' child hchild => ?_, h.seen, ?_⟩
  · rw [hwork]
    exact List.mem_cons_of_mem _ hc'
  · exact hkept _ (h.closed c' hc' child hchild)
  · rcases h.first with ⟨hnil, -⟩ | hfirst
    · rw [hnil] at hc
      exact absurd hc List.not_mem_nil
    · exact .inr hfirst

/-- A location that is new is taken, and its children are put on the worklist. -/
theorem Indexing.Covers.take {root value : JsonValue} {indexing : Indexing}
    {work : List (SchemaPointer × JsonValue)} (h : indexing.Covers root)
    (hwork : indexing.work = (pointer, value) :: work) :
    Covers root {
      work := sortByKey (fun c => c.1.text) (schemaChildren pointer value) ++ work
      rawNodes := indexing.rawNodes ++ [(pointer, value)]
      seen := indexing.seen ++ [pointer] } := by
  have htop : (pointer, value) ∈ indexing.work := by simp [hwork]
  obtain ⟨segments, hlocated, hpointer⟩ := h.located _ (List.mem_append_left _ htop)
  refine ⟨fun c hc => ?_, fun c hc c' hc' => ?_, ?_, .inr ?_⟩
  · simp only [List.mem_append, mem_sortByKey, List.mem_singleton] at hc
    rcases hc with (hc | hc) | hc | rfl
    · obtain ⟨object, segments', rfl, happlies, hchild⟩ := mem_schemaChildren.1 hc
      refine ⟨segments ++ segments', hlocated.snoc happlies, ?_⟩
      rw [hchild, pointerOf, List.foldl_append]
      exact congrArg (List.foldl pointerJoin · segments') hpointer
    · exact h.located c (List.mem_append_left _ (hwork ▸ List.mem_cons_of_mem _ hc))
    · exact h.located c (List.mem_append_right _ hc)
    · exact ⟨segments, hlocated, hpointer⟩
  · simp only [List.mem_append, mem_sortByKey, List.mem_singleton] at hc ⊢
    rcases hc with hc | rfl
    · have hold := h.closed c hc c' hc'
      rw [hwork, List.cons_append, List.mem_cons, List.mem_append] at hold
      rcases hold with rfl | hold | hold
      · exact .inr (.inr rfl)
      · exact .inl (.inr hold)
      · exact .inr (.inl hold)
    · exact .inl (.inl hc')
  · rw [List.map_append, h.seen]
    rfl
  · rcases h.first with ⟨hnil, hstart⟩ | hfirst
    · rw [hnil]
      rw [hwork] at hstart
      exact congrArg some (List.cons.inj hstart).1
    · exact List.getElem?_append_left (List.getElem?_eq_some_iff.1 hfirst).1 ▸ hfirst

/-- **The worklist runs empty**, unless there are too many locations. -/
theorem Indexing.loop_wp {root : JsonValue} {limits : CompileLimits} {fuel : ℕ}
    {indexing : Indexing}
    (hkeys : root.DistinctKeys) (h : indexing.Covers root) (hfuel : workSize indexing.work < fuel) :
    Result.wp CompileError.IsLimit (Indexing.loop limits fuel indexing)
      fun result => result.Covers root ∧ result.work = [] := by
  induction fuel generalizing indexing with
  | zero => exact absurd hfuel (Nat.not_lt_zero _)
  | succ fuel ih =>
    unfold Indexing.loop
    split
    · next hwork => exact ⟨h, hwork⟩
    · next pointer value work hwork =>
      rw [hwork, workSize_cons] at hfuel
      dsimp only at hfuel
      have hpos := value.size_pos
      rw [Result.wp_bind, Indexing.step]
      split
      · next hseen => exact ih (h.skip hkeys hwork hseen) (by dsimp only; omega)
      · have hsmall : workSize (schemaChildren pointer value) < value.size :=
          workSize_schemaChildren value
        refine Result.wp_bind.2 (Result.wp_require.2 ⟨fun _ => ?_, fun _ => trivial⟩)
        refine ih (h.take hwork) ?_
        dsimp only
        rw [workSize_append, workSize_sortByKey]
        omega

/-- What has been taken when the worklist is empty is every location. -/
theorem Indexing.Covers.mem_of_located {root : JsonValue} {indexing : Indexing}
    (h : indexing.Covers root) (hwork : indexing.work = []) {segments : List String}
    {value : JsonValue} (hlocated : LocatedAt root segments value) :
    (pointerOf segments, value) ∈ indexing.rawNodes := by
  have hstep : ∀ prior {start segments value}, (pointerOf prior, start) ∈ indexing.rawNodes →
      LocatedAt start segments value →
        (pointerOf (prior ++ segments), value) ∈ indexing.rawNodes := by
    intro prior start segments value hstart hlocated
    induction hlocated generalizing prior with
    | here => rwa [List.append_nil]
    | @inside object segments segments' child value happlies _ ih =>
      rw [← List.append_assoc]
      refine ih (prior ++ segments) ?_
      have hchild : (pointerOf (prior ++ segments), child) ∈
          schemaChildren (pointerOf prior) (.object object) :=
        mem_schemaChildren.2 ⟨object, segments, rfl, happlies, List.foldl_append⟩
      have hmem := h.closed _ hstart _ hchild
      rwa [hwork, List.nil_append] at hmem
  rcases h.first with ⟨-, hstart⟩ | hfirst
  · rw [hwork] at hstart
    cases hstart
  · exact hstep [] (List.mem_of_getElem? hfirst) hlocated

/-- **The indexed subschemas are the locations of the document.** -/
theorem indexSchemaLocations_wp {root : JsonValue} (hkeys : root.DistinctKeys)
    (limits : CompileLimits) :
    Result.wp CompileError.IsLimit (indexSchemaLocations root limits) fun rawNodes =>
      rawNodes[0]? = some (pointerOf [], root) ∧
      ∀ pointer value, (pointer, value) ∈ rawNodes ↔
        ∃ segments, LocatedAt root segments value ∧ pointer = pointerOf segments := by
  have hfuel : workSize [((⟨""⟩ : SchemaPointer), root)] < root.size + 1 := by
    rw [workSize_cons, workSize_nil]
    exact Nat.lt_succ_self _
  refine Result.wp_bind.2 (Result.wp_mono (Indexing.loop_wp hkeys (.start root) hfuel) ?_)
  rintro indexing ⟨hcovers, hwork⟩
  refine ⟨?_, fun pointer value => ⟨fun hmem => ?_, ?_⟩⟩
  · rcases hcovers.first with ⟨-, hstart⟩ | hfirst
    · rw [hwork] at hstart
      cases hstart
    · exact hfirst
  · exact hcovers.located _ (List.mem_append_right _ hmem)
  · rintro ⟨segments, hlocated, rfl⟩
    exact hcovers.mem_of_located hwork hlocated

end OcEarley

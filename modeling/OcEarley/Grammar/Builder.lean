import OcEarley.Grammar.Lower

/-!
# What lowering keeps to

Lowering changes the builder by four calls only: it adds nonterminals, terminals, literals and
productions.  A relation that these keep to is kept to by the lowering of a node
(`Elementary.moves_lowerNode`); every literal is a text, and every pattern one of a few (`KindOf`).
-/

namespace OcEarley

/-- The patterns of the kinds that are lowered to a pattern without a reverse. -/
def JsonPattern.scalars : List String :=
  [JsonPattern.boolean, JsonPattern.string, JsonPattern.number, JsonPattern.integer]

/-- The values that a kind spells out. -/
def NormalizedSchema.values : NormalizedSchema → List CanonicalValue
  | .const value => [value]
  | .enum values => values
  | _ => []

namespace GrammarBuilder

/-- The bytes are a text that is not empty. -/
def IsWord (bytes : List UInt8) : Prop := bytes ≠ [] ∧ ∃ text, bytes = utf8Bytes text

theorem isWord_jsonString (name : String) :
    IsWord (utf8Bytes (jsonString name)) := by
  refine ⟨fun h => ?_, _, rfl⟩
  simp [utf8Bytes, jsonString, String.utf8EncodeChar] at h

theorem isWord_comma : IsWord [44] := ⟨List.cons_ne_nil _ _, ",", by decide⟩

theorem isWord_colon : IsWord [58] := ⟨List.cons_ne_nil _ _, ":", by decide⟩

theorem isWord_opening : IsWord [91] := ⟨List.cons_ne_nil _ _, "[", by decide⟩

theorem isWord_closing : IsWord [93] := ⟨List.cons_ne_nil _ _, "]", by decide⟩

theorem isWord_brace : IsWord [123] := ⟨List.cons_ne_nil _ _, "\x7b", by decide⟩

theorem isWord_brace' : IsWord [125] := ⟨List.cons_ne_nil _ _, "\x7d", by decide⟩

/-- The kind of a terminal that a node of some kind brings along. -/
inductive KindOf : NormalizedSchema → RegularTerminalKind → Prop
  | word (kind : NormalizedSchema) {bytes : List UInt8} :
    IsWord bytes → KindOf kind (.literal bytes)
  | value {kind : NormalizedSchema} {value : CanonicalValue} : value ∈ kind.values →
      KindOf kind (.literal (utf8Bytes value.json))
  | null : KindOf .null (.pattern JsonPattern.null (some JsonPattern.null))
  | scalar {kind : NormalizedSchema} {forward : String} : forward ∈ JsonPattern.scalars →
      KindOf kind (.pattern forward none)

/-- The elementary calls keep to the relation. -/
structure Elementary (Rel : GrammarBuilder → GrammarBuilder → Prop)
    (P : RegularTerminalKind → Prop) :
    Prop where
  nonterminal : ∀ name provenance, Method.Moves Rel (addNonterminal name provenance)
  terminal : ∀ {kind}, P kind → ∀ provenance, Method.Moves Rel (addTerminal kind provenance)
  literal : ∀ {bytes}, IsWord bytes ∨ P (.literal bytes) → ∀ provenance,
    Method.Moves Rel (addLiteral bytes provenance)
  production : ∀ lhs rhs provenance, Method.Moves Rel (addProduction lhs rhs provenance)

variable {Rel : GrammarBuilder → GrammarBuilder → Prop} [Std.Refl Rel] [IsTrans GrammarBuilder Rel]
  {P : RegularTerminalKind → Prop}

variable {provenance : Provenance}

omit [Std.Refl Rel] [IsTrans GrammarBuilder Rel] in
theorem Elementary.mono {Q : RegularTerminalKind → Prop} (h : Elementary Rel P)
    (hQ : ∀ {kind}, Q kind → P kind) : Elementary Rel Q :=
  ⟨h.nonterminal, fun hkind => h.terminal (hQ hkind), fun hbytes => h.literal (hbytes.imp_right hQ),
    h.production⟩

theorem Elementary.moves_lowerComma (h : Elementary Rel P) (index : ℕ) :
    Method.Moves Rel (lowerComma provenance index) := by
  unfold lowerComma
  split
  · exact Method.moves_bind (h.literal (.inl isWord_comma) _) fun _ => Method.moves_pure _
  · exact Method.moves_pure _

theorem Elementary.moves_lowerPosition (h : Elementary Rel P) (arena : SchemaArena)
    (schemaNonterminals : List ℕ) (array : ArrayConstraints) (effectiveMax : Option ℕ)
    (states : List ℕ) (index : ℕ) :
    Method.Moves Rel
      (lowerPosition arena schemaNonterminals array effectiveMax provenance states index) := by
  have hend : ∀ state, Method.Moves Rel (lowerEnd array provenance state index) := by
    intro state
    unfold lowerEnd
    split
    · exact Method.moves_bind (h.production _ _ _) fun _ => Method.moves_pure _
    · exact Method.moves_pure _
  have hitem : ∀ state, Method.Moves Rel
      (lowerItem arena schemaNonterminals array effectiveMax provenance states state index) := by
    intro state
    unfold lowerItem
    split
    · exact Method.moves_pure _
    · split
      · exact Method.moves_pure _
      · split
        · exact Method.moves_pure _
        · exact Method.moves_bind (h.moves_lowerComma _) fun _ =>
            Method.moves_bind (Method.moves_unwrap _ _) fun _ =>
              Method.moves_bind (h.production _ _ _) fun _ => Method.moves_pure _
  exact Method.moves_bind (Method.moves_unwrap _ _) fun state =>
    Method.moves_bind (hend state) fun _ => hitem state

theorem Elementary.moves_lowerArray (h : Elementary Rel P) (arena : SchemaArena)
    (schemaNonterminals : List ℕ) (lhs schemaId : ℕ) (array : ArrayConstraints) :
    Method.Moves Rel
      (lowerArray arena schemaNonterminals lhs schemaId array provenance) := by
  unfold lowerArray
  dsimp only
  split
  · exact Method.moves_pure _
  · refine Method.moves_bind (Method.moves_require _) fun _ =>
      Method.moves_bind (Method.moves_require _) fun _ =>
        Method.moves_bind Method.moves_get fun _ =>
      Method.moves_bind (Method.moves_require _) fun _ =>
      Method.moves_bind (Method.moves_require _) fun _ =>
      Method.moves_bind (Method.moves_require _) fun _ =>
      Method.moves_bind (Method.moves_mapM (fun _ => h.nonterminal _ _) _) fun _ =>
      Method.moves_bind (Method.moves_forM (fun _ => h.moves_lowerPosition _ _ _ _ _ _) _) fun _ =>
      Method.moves_bind (h.literal (.inl isWord_opening) _) fun _ =>
      Method.moves_bind (h.literal (.inl isWord_closing) _) fun _ =>
      Method.moves_bind (Method.moves_unwrap _ _) fun _ =>
      Method.moves_bind (h.production _ _ _) fun _ => Method.moves_pure _

theorem Elementary.moves_lowerMember (h : Elementary Rel P) (schemaNonterminals : List ℕ)
    (object : ObjectConstraints) (members : List (ℕ × ℕ)) (entry : (String × ℕ) × ℕ)
    (emitted : Bool) :
    Method.Moves Rel
      (lowerMember schemaNonterminals object provenance members entry emitted) := by
  have habsent : ∀ required current next, Method.Moves Rel
      (lowerAbsent required provenance current next) := by
    intro required current next
    unfold lowerAbsent
    split
    · exact Method.moves_pure _
    · exact Method.moves_bind (h.production _ _ _) fun _ => Method.moves_pure _
  exact Method.moves_bind (Method.moves_unwrap _ _) fun _ =>
    Method.moves_bind (Method.moves_unwrap _ _) fun _ => Method.moves_bind (habsent _ _ _) fun _ =>
    Method.moves_bind (h.moves_lowerComma _) fun _ =>
    Method.moves_bind (h.literal (.inl (isWord_jsonString _)) _) fun _ =>
    Method.moves_bind (h.literal (.inl isWord_colon) _) fun _ =>
    Method.moves_bind (Method.moves_unwrap _ _) fun _ =>
    Method.moves_bind (h.production _ _ _) fun _ => Method.moves_pure _

theorem Elementary.moves_lowerObject (h : Elementary Rel P) (schemaNonterminals : List ℕ)
    (lhs schemaId : ℕ) (object : ObjectConstraints) :
    Method.Moves Rel
      (lowerObject schemaNonterminals lhs schemaId object provenance) := by
  have hmembers : ∀ index : ℕ, Method.Moves Rel (do
      let absent ← addNonterminal s!"object_{schemaId}_members_{index}_empty"
        (keywordProvenance provenance "properties")
      let present ← addNonterminal s!"object_{schemaId}_members_{index}_present"
        (keywordProvenance provenance "properties")
      pure (absent, present) : Lowering (ℕ × ℕ)) := fun index =>
    Method.moves_bind (h.nonterminal _ _) fun _ =>
      Method.moves_bind (h.nonterminal _ _) fun _ => Method.moves_pure _
  refine Method.moves_bind (Method.moves_require _) fun _ => ?_
  dsimp only
  split
  · exact Method.moves_pure _
  · exact Method.moves_bind (Method.moves_mapM hmembers _) fun _ =>
      Method.moves_bind (Method.moves_unwrap _ _) fun _ =>
      Method.moves_bind (h.production _ _ _) fun _ =>
      Method.moves_bind (h.production _ _ _) fun _ =>
      Method.moves_bind (Method.moves_forM
        (fun _ => Method.moves_bind (h.moves_lowerMember _ _ _ _ _)
        fun _ => h.moves_lowerMember _ _ _ _ _) _) fun _ =>
      Method.moves_bind (h.literal (.inl isWord_brace) _) fun _ =>
      Method.moves_bind (h.literal (.inl isWord_brace') _) fun _ =>
      Method.moves_bind (Method.moves_unwrap _ _) fun _ =>
      Method.moves_bind (h.production _ _ _) fun _ => Method.moves_pure _

theorem Elementary.moves_lowerPattern (h : Elementary Rel P) {forward : String}
    {reverse : Option String} (hP : P (.pattern forward reverse)) (lhs : ℕ) :
    Method.Moves Rel (lowerPattern lhs forward reverse provenance) :=
  Method.moves_bind (h.terminal hP _) fun _ =>
    Method.moves_bind (h.production _ _ _) fun _ => Method.moves_pure _

/-- A node keeps to what the elementary calls keep to. -/
theorem Elementary.moves_lowerNode {kind : NormalizedSchema} (h : Elementary Rel (KindOf kind))
    (arena : SchemaArena) (schemaNonterminals : List ℕ) (lhs schemaId : ℕ) :
    Method.Moves Rel
      (lowerNode arena schemaNonterminals lhs schemaId kind provenance) := by
  have hvalue : ∀ value ∈ kind.values, Method.Moves Rel (lowerValue lhs provenance value) :=
    fun value hmem => Method.moves_bind (h.literal (.inr (.value hmem)) _) fun _ =>
      Method.moves_bind (h.production _ _ _) fun _ => Method.moves_pure _
  have htarget : ∀ target, Method.Moves Rel
      (lowerTarget schemaNonterminals lhs provenance target) :=
    fun target => Method.moves_bind (Method.moves_unwrap _ _) fun _ =>
      Method.moves_bind (h.production _ _ _) fun _ => Method.moves_pure _
  cases kind with
  | never => exact Method.moves_pure _
  | any => exact Method.moves_throw _
  | null => exact h.moves_lowerPattern .null _
  | boolean => exact h.moves_lowerPattern (.scalar (by simp [JsonPattern.scalars])) _
  | string constraints =>
    exact Method.moves_bind (Method.moves_require _) fun _ =>
      h.moves_lowerPattern (.scalar (by simp [JsonPattern.scalars])) _
  | number => exact h.moves_lowerPattern (.scalar (by simp [JsonPattern.scalars])) _
  | integer => exact h.moves_lowerPattern (.scalar (by simp [JsonPattern.scalars])) _
  | const value => exact hvalue value (List.mem_singleton_self value)
  | enum values => exact Method.moves_forM_of_mem hvalue
  | union branches => exact Method.moves_forM htarget branches
  | ref target => exact htarget target
  | array array => exact h.moves_lowerArray _ _ _ _ _
  | object object => exact h.moves_lowerObject _ _ _ _

/-! ### The terminals of lowered schemas -/

/-- The terminals that are added have kinds with `P`. -/
def AddsKinds (P : RegularTerminalKind → Prop) (b b' : GrammarBuilder) : Prop :=
  ∃ new, b'.terminals = b.terminals ++ new ∧ ∀ t ∈ new, P t.kind

instance : Std.Refl (AddsKinds P) := ⟨fun b => ⟨[], by simp⟩⟩

instance : IsTrans GrammarBuilder (AddsKinds P) := ⟨by
  rintro b b' b'' ⟨new, hnew, hP⟩ ⟨new', hnew', hP'⟩
  refine ⟨new ++ new', by rw [hnew', hnew, List.append_assoc], ?_⟩
  simp only [List.mem_append]
  rintro t (ht | ht)
  · exact hP t ht
  · exact hP' t ht⟩

theorem addsKinds_of_eq {b b' : GrammarBuilder} (h : b'.terminals = b.terminals) :
    AddsKinds P b b' := ⟨[], by simp [h]⟩

theorem moves_nextId (observed limit id : ℕ) :
    Method.Moves (AddsKinds P) (nextId observed limit id) :=
  Method.moves_bind (Method.moves_require _) fun _ => Method.moves_require _

theorem moves_addNonterminal (name : String) (provenance : Provenance) :
    Method.Moves (AddsKinds P) (addNonterminal name provenance) :=
  Method.moves_bind Method.moves_get fun _ => Method.moves_bind (moves_nextId _ _ _) fun _ =>
    Method.moves_bind (Method.moves_modify fun _ => addsKinds_of_eq rfl) fun _ =>
      Method.moves_pure _

theorem moves_addProduction (lhs : ℕ) (rhs : List GrammarSymbol) (provenance : Provenance) :
    Method.Moves (AddsKinds P) (addProduction lhs rhs provenance) :=
  Method.moves_bind Method.moves_get fun _ => Method.moves_bind (Method.moves_require _) fun _ =>
    Method.moves_bind (Method.moves_require _) fun _ =>
      Method.moves_bind (moves_nextId _ _ _) fun _ =>
        Method.moves_bind (Method.moves_modify fun _ => addsKinds_of_eq rfl) fun _ =>
          Method.moves_pure _

theorem moves_addTerminal {kind : RegularTerminalKind} (hkind : P kind) (provenance : Provenance) :
    Method.Moves (AddsKinds P) (addTerminal kind provenance) := by
  refine Method.moves_bind Method.moves_get fun b => Method.moves_bind (moves_nextId _ _ _) fun _ =>
    Method.moves_bind (Method.moves_modify fun b' => ?_) fun _ => Method.moves_pure _
  exact ⟨_, rfl, by simpa using hkind⟩

/-- The elementary calls add terminals of the kinds that are asked for. -/
theorem elementary_addsKinds (hP : ∀ {bytes}, IsWord bytes → P (.literal bytes)) :
    Elementary (AddsKinds P) P where
  nonterminal := moves_addNonterminal
  terminal := moves_addTerminal
  literal := by
    intro bytes hbytes provenance
    refine Method.moves_bind Method.moves_get fun b => ?_
    dsimp only
    split
    · exact Method.moves_pure _
    · exact Method.moves_bind (moves_addTerminal (hbytes.elim hP id) provenance) fun _ =>
        Method.moves_bind (Method.moves_modify fun _ => addsKinds_of_eq rfl) fun _ =>
          Method.moves_pure _
  production := moves_addProduction

theorem AddsKinds.mem_or {b b' : GrammarBuilder} (h : AddsKinds P b b') {t : RegularTerminal}
    (ht : t ∈ b'.terminals) : t ∈ b.terminals ∨ P t.kind := by
  obtain ⟨new, hnew, hP⟩ := h
  rw [hnew, List.mem_append] at ht
  exact ht.imp_right (hP t)

theorem AddsKinds.subset {b b' : GrammarBuilder} (h : AddsKinds P b b') :
    b.terminals ⊆ b'.terminals := by
  obtain ⟨new, hnew, -⟩ := h
  exact hnew ▸ List.subset_append_left _ _

/-- The terminal of `null` is there once its node is lowered. -/
theorem lowerPattern_adds {b b' : GrammarBuilder} {lhs : ℕ} {forward : String}
    {reverse : Option String} {u : Unit}
    (h : lowerPattern lhs forward reverse provenance b = .ok u b') :
    ∃ t ∈ b'.terminals, t.kind = .pattern forward reverse := by
  obtain ⟨id, b₁, hadd, h⟩ := Method.bind_eq_ok.1 h
  obtain ⟨_, b₂, hproduction, h⟩ := Method.bind_eq_ok.1 h
  obtain ⟨-, rfl⟩ := Method.pure_eq_ok.1 h
  obtain ⟨_, _, hget, hadd⟩ := Method.bind_eq_ok.1 hadd
  obtain ⟨_, b₃, -, hadd⟩ := Method.bind_eq_ok.1 hadd
  obtain ⟨_, b₄, hmodify, hadd⟩ := Method.bind_eq_ok.1 hadd
  obtain ⟨-, rfl⟩ := Method.pure_eq_ok.1 hadd
  obtain rfl := Method.modify_eq_ok.1 hmodify
  have hsubset := ((moves_addProduction (P := fun _ => True) _ _ _).of_ok hproduction).subset
  exact ⟨_, hsubset (List.mem_append_right _ List.mem_cons_self), rfl⟩

/-- The terminals after the nodes are lowered, in any order. -/
theorem lowerNodes_kinds {arena : SchemaArena} {schemaNonterminals : List ℕ}
    {nodes : List SchemaNode} {b b' : GrammarBuilder} {u : Unit}
    (h : (nodes.forM fun node => do
      let lhs ← Method.unwrap schemaNonterminals[node.id]? .panicked
      lowerNode arena schemaNonterminals lhs node.id node.kind node.provenance : Lowering Unit) b =
        .ok u b') :
    b.terminals ⊆ b'.terminals ∧
    (∀ t ∈ b'.terminals, t ∈ b.terminals ∨ ∃ node ∈ nodes, KindOf node.kind t.kind) ∧
    ∀ node ∈ nodes, node.kind = .null →
      ∃ t ∈ b'.terminals, t.kind = .pattern JsonPattern.null (some JsonPattern.null) := by
  induction nodes generalizing b with
  | nil =>
    obtain ⟨-, rfl⟩ := Method.pure_eq_ok.1 h
    exact ⟨List.Subset.refl _, fun t ht => .inl ht, by simp⟩
  | cons node nodes ih =>
    obtain ⟨_, b₁, hnode, h⟩ := Method.bind_eq_ok.1 h
    obtain ⟨lhs, _, hlhs, hnode⟩ := Method.bind_eq_ok.1 hnode
    obtain ⟨-, rfl⟩ := Method.unwrap_eq_ok.1 hlhs
    obtain ⟨hsubset, hkinds, hnull⟩ := ih h
    have hadds := ((elementary_addsKinds (.word node.kind)).moves_lowerNode arena
      schemaNonterminals lhs
      node.id).of_ok hnode
    refine ⟨List.Subset.trans hadds.subset hsubset, fun t ht => ?_, ?_⟩
    · rcases hkinds t ht with ht | ⟨node', hmem, hkind⟩
      · exact (hadds.mem_or ht).imp_right fun hkind => ⟨node, List.mem_cons_self, hkind⟩
      · exact .inr ⟨node', List.mem_cons_of_mem _ hmem, hkind⟩
    · refine List.forall_mem_cons.2 ⟨fun hkind => ?_, hnull⟩
      rw [hkind] at hnode
      obtain ⟨t, ht, htkind⟩ := lowerPattern_adds hnode
      exact ⟨t, hsubset ht, htkind⟩

end GrammarBuilder

open GrammarBuilder in
/-- **The terminals of a lowered schema.** -/
theorem lower_kinds {arena : SchemaArena} {limits : CompileLimits} {g : Grammar}
    (h : lower arena limits = .ok g) :
    (∀ t ∈ g.terminals, ∃ node ∈ arena.nodes, KindOf node.kind t.kind) ∧
    ∀ node ∈ arena.nodes, node.kind = .null →
      ∃ t ∈ g.terminals, t.kind = .pattern JsonPattern.null (some JsonPattern.null) := by
  unfold lower at h
  split at h
  · next start b hrun =>
    obtain rfl := Except.ok.inj h
    obtain ⟨schemaNonterminals, b₁, hnonterminals, hrun⟩ := Method.bind_eq_ok.1 hrun
    obtain ⟨_, b₂, hnodes, hrun⟩ := Method.bind_eq_ok.1 hrun
    obtain ⟨-, rfl⟩ := Method.unwrap_eq_ok.1 hrun
    have hnew : ∀ t, t ∉ b₁.terminals := by
      intro t ht
      have hmoves : Method.Moves (AddsKinds fun _ => False) (arena.nodes.mapM fun node =>
          addNonterminal s!"schema_{node.id}" node.provenance) :=
        Method.moves_mapM (fun _ => moves_addNonterminal _ _) _
      rcases (hmoves.of_ok hnonterminals).mem_or ht with ht | hfalse
      · exact List.not_mem_nil ht
      · exact hfalse
    obtain ⟨-, hkinds, hnull⟩ := lowerNodes_kinds hnodes
    exact ⟨fun t ht => (hkinds t ht).resolve_left (hnew t), hnull⟩
  · cases h

end OcEarley

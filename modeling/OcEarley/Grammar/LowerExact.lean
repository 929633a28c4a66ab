import Mathlib.Order.FixedPoints
import OcEarley.Formal.Blocks
import OcEarley.Grammar.CertifyExact
import OcEarley.Grammar.LowerBlocks

/-!
# Lowering is exact

An arena denotes the least solution of the equations that give every schema the strings of its kind
(`SchemaArena.meaning`).  The productions of a lowered arena fall into the blocks of its nodes, and
so the nonterminal of every node generates what its schema denotes.
-/

namespace OcEarley

open GrammarBuilder

/-! ### What an arena denotes -/

namespace ArrayConstraints

theorem language_mono {schemaNonterminals : List ℕ} {array : ArrayConstraints}
    {L L' : ℕ → Language UInt8} (hL : ∀ A, L A ≤ L' A) :
    array.language schemaNonterminals L ≤ array.language schemaNonterminals L' := by
  rintro x ⟨es, hmin, hmax, hes, hx⟩
  exact ⟨es, hmin, hmax, fun i e he item A hitem hA => hL A (hes i e he item A hitem hA), hx⟩

end ArrayConstraints

namespace ObjectConstraints

theorem language_mono {schemaNonterminals : List ℕ} {object : ObjectConstraints}
    {L L' : ℕ → Language UInt8} (hL : ∀ A, L A ≤ L' A) :
    object.language schemaNonterminals L ≤ object.language schemaNonterminals L' := by
  rintro x ⟨es, hsorted, hdecl, hreq, hx⟩
  refine ⟨es, hsorted, fun e he => ?_, hreq, hx⟩
  obtain ⟨id, A, hmem, hA, hv⟩ := hdecl e he
  exact ⟨id, A, hmem, hA, hL A hv⟩

end ObjectConstraints

theorem NormalizedSchema.language_mono {R : String → Language UInt8} {n : ℕ}
    {kind : NormalizedSchema} {L L' : ℕ → Language UInt8} (hL : ∀ A, L A ≤ L' A) :
    kind.language R n L ≤ kind.language R n L' := by
  cases kind with
  | array constraints => exact ArrayConstraints.language_mono hL
  | object constraints => exact ObjectConstraints.language_mono hL
  | union branches =>
    rintro x ⟨branch, hbranch, hx⟩
    exact ⟨branch, hbranch, hL branch hx⟩
  | ref target => exact hL target
  | _ => exact le_rfl

namespace SchemaArena

/-- Nodes stand at the positions that their ids name, and the properties of an object in the order
of their names. -/
structure Ordered (arena : SchemaArena) : Prop where
  node_id : ∀ {i : ℕ} {node : SchemaNode}, arena.nodes[i]? = some node → node.id = i
  properties : ∀ node ∈ arena.nodes, ∀ object, node.kind = .object object →
    (object.properties.map Prod.fst).Pairwise (· < ·)

/-- One round of the equations: every schema gets the strings of its kind. -/
def equations (arena : SchemaArena) (R : String → Language UInt8) :
    (ℕ → Language UInt8) →o (ℕ → Language UInt8) where
  toFun L i := arena.nodes[i]?.elim 0 fun node => node.kind.language R arena.nodes.length L
  monotone' L L' hL i := by
    dsimp only
    cases arena.nodes[i]? with
    | none => exact le_rfl
    | some node => exact NormalizedSchema.language_mono hL

theorem equations_apply {arena : SchemaArena} {R : String → Language UInt8}
    {L : ℕ → Language UInt8} {i : ℕ} {node : SchemaNode} (h : arena.nodes[i]? = some node) :
    arena.equations R L i = node.kind.language R arena.nodes.length L := by
  change arena.nodes[i]?.elim 0 _ = _
  rw [h, Option.elim_some]

/-- What the schemas denote: the least solution of the equations. -/
noncomputable def meaning (arena : SchemaArena) (R : String → Language UInt8) :
    ℕ → Language UInt8 :=
  OrderHom.lfp (arena.equations R)

end SchemaArena

namespace GrammarBuilder

/-! ### The blocks of the nodes -/

/-- The productions as rules. -/
def ProductionRule (productions : List Production) (A : ℕ) (γ : List GrammarSymbol) : Prop :=
  ∃ p ∈ productions, p.lhs = A ∧ p.rhs = γ

/-- What the terminals stand for. -/
def terminalsLanguage (R : String → Language UInt8) (terminals : List RegularTerminal) (t : ℕ) :
    Language UInt8 :=
  (terminals[t]?.map fun found => found.kind.language R).getD 0

/-- A symbol of a production of the block `C`. -/
def InBlockOf (n : ℕ) (b : GrammarBuilder) (owner : ℕ → ℕ) (C : ℕ) : GrammarSymbol → Prop
  | .terminal t => t < b.terminals.length
  | .nonterminal A => A < b.nonterminals.length ∧ (A < n ∨ owner A = C)

/-- The first `i` nodes of the arena have been lowered, and `owner` tells whose block a nonterminal
belongs to. -/
structure Owned (R : String → Language UInt8) (arena : SchemaArena) (i : ℕ) (b : GrammarBuilder)
    (owner : ℕ → ℕ) : Prop where
  owner_eq : ∀ A < arena.nodes.length, owner A = A
  lhs_lt : ∀ p ∈ b.productions, p.lhs < b.nonterminals.length
  owner_lt : ∀ p ∈ b.productions, owner p.lhs < i
  rhs_mem : ∀ p ∈ b.productions, ∀ s ∈ p.rhs,
    InBlockOf arena.nodes.length b owner (owner p.lhs) s
  block_eq : ∀ {j : ℕ} {node : SchemaNode}, j < i → arena.nodes[j]? = some node →
    ∀ {b' : GrammarBuilder}, b.terminals <+: b'.terminals →
    ∀ {L : ℕ → Language UInt8}, (∀ k, arena.isNever k = true → L k = 0) →
      blockLanguage (· < arena.nodes.length) (ProductionRule b.productions) owner
        (terminalsLanguage R b'.terminals) L j j = node.kind.language R arena.nodes.length L

variable {R : String → Language UInt8} {arena : SchemaArena} {b b' : GrammarBuilder}

/-- The languages of a block, in both readings of its productions. -/
theorem blockLanguage_eq_generated {n m C : ℕ} {rules : ℕ → List GrammarSymbol → Prop}
    {owner : ℕ → ℕ} {new : List Production} {L : ℕ → Language UInt8}
    (h : ∀ A γ, BlockRule (· < n) rules owner C A γ ↔ OpenRule m new A γ) :
    blockLanguage (· < n) rules owner (terminalsLanguage R b.terminals) L C C =
      generated m b new R L C := by
  have hrules : BlockRule (· < n) rules owner C = OpenRule m new := by
    funext A γ
    exact propext (h A γ)
  have hlanguages : Sum.elim L (terminalsLanguage R b.terminals) =
      openLanguage R b.terminals L := by
    funext t
    cases t <;> rfl
  unfold blockLanguage generated
  rw [hrules, hlanguages]

/-- The productions of a block mention no nonterminals between those of the nodes and its own. -/
theorem Block.map_openOuter {lhs : ℕ} {kind : NormalizedSchema} {new : List Production}
    (h : Block R arena lhs kind b b' new) (hlen : arena.nodes.length ≤ b.nonterminals.length)
    {p : Production} (hp : p ∈ new) : p.rhs.map (openOuter (· < arena.nodes.length)) =
      p.rhs.map (openSymbol b.nonterminals.length) := by
  refine List.map_congr_left fun s hs => ?_
  have hin := h.rhs_mem p hp s hs
  cases s with
  | terminal t => rfl
  | nonterminal A =>
    rcases hin with hA | ⟨hge, -⟩
    · simp [openOuter, openSymbol, hA, hA.trans_le hlen]
    · simp [openOuter, openSymbol, not_lt.2 hge, not_lt.2 (hlen.trans hge)]

/-- **One node.**  Its block is added to those of the nodes before it. -/
theorem Owned.add {i : ℕ} {owner : ℕ → ℕ} {node : SchemaNode} {new : List Production}
    (h : Owned R arena i b owner) (hnode : arena.nodes[i]? = some node)
    (hlen : arena.nodes.length ≤ b.nonterminals.length) (hgrows : Grows b b')
    (hblock : Block R arena i node.kind b b' new) :
    Owned R arena (i + 1) b' fun A => if b.nonterminals.length ≤ A then i else owner A := by
  have hi : i < arena.nodes.length := (List.getElem?_eq_some_iff.1 hnode).1
  have hle : b.nonterminals.length ≤ b'.nonterminals.length := hgrows.nonterminals.length_le
  set owner' : ℕ → ℕ := fun A => if b.nonterminals.length ≤ A then i else owner A with howner'
  have hold : ∀ {A}, A < b.nonterminals.length → owner' A = owner A := fun hA =>
    if_neg (not_le.2 hA)
  have hadded : ∀ {A}, b.nonterminals.length ≤ A → owner' A = i := fun hA => if_pos hA
  have hnew : ∀ p ∈ new, owner' p.lhs = i ∧ p.lhs < b'.nonterminals.length := by
    intro p hp
    rcases hblock.lhs_mem p hp with hlhs | ⟨hge, hlt⟩
    · rw [hlhs, hold (hi.trans_le hlen), h.owner_eq i hi]
      exact ⟨rfl, (hi.trans_le hlen).trans_le hle⟩
    · exact ⟨hadded hge, hlt⟩
  have hmem : ∀ {p}, p ∈ b'.productions ↔ p ∈ b.productions ∨ p ∈ new := by
    intro p
    rw [hblock.productions, List.mem_append]
  -- each field for the productions that were there and for the new ones
  refine ⟨fun A hA => ?_, fun p hp => ?_, fun p hp => ?_, fun p hp s hs => ?_, ?_⟩
  · rw [hold (hA.trans_le hlen), h.owner_eq A hA]
  · rcases hmem.1 hp with hp | hp
    · exact (h.lhs_lt p hp).trans_le hle
    · exact (hnew p hp).2
  · rcases hmem.1 hp with hp | hp
    · rw [hold (h.lhs_lt p hp)]
      exact (h.owner_lt p hp).trans (Nat.lt_succ_self i)
    · rw [(hnew p hp).1]
      exact Nat.lt_succ_self i
  · rcases hmem.1 hp with hp | hp
    · have hin := h.rhs_mem p hp s hs
      cases s with
      | terminal t => exact lt_of_lt_of_le hin hgrows.terminals.length_le
      | nonterminal A =>
        refine ⟨hin.1.trans_le hle, hin.2.imp_right fun hA => ?_⟩
        rw [hold hin.1, hold (h.lhs_lt p hp), hA]
    · have hin := hblock.rhs_mem p hp s hs
      cases s with
      | terminal t => exact hin
      | nonterminal A =>
        rcases hin with hA | ⟨hge, hlt⟩
        · exact ⟨(hA.trans_le hlen).trans_le hle, .inl hA⟩
        · exact ⟨hlt, .inr ((hadded hge).trans (hnew p hp).1.symm)⟩
  · intro j node' hj hnode' b'' hterminals L hL
    rcases Nat.lt_succ_iff_lt_or_eq.1 hj with hj | rfl
    · -- the productions of an earlier block are those that it had
      rw [← h.block_eq hj hnode' (hgrows.terminals.trans hterminals) hL]
      have hrules : BlockRule (· < arena.nodes.length) (ProductionRule b'.productions) owner' j =
          BlockRule (· < arena.nodes.length) (ProductionRule b.productions) owner j := by
        funext A γ
        refine propext ⟨?_, ?_⟩
        · rintro ⟨β, ⟨p, hp, rfl, rfl⟩, hA, rfl⟩
          rcases hmem.1 hp with hp | hp
          · exact ⟨_, ⟨p, hp, rfl, rfl⟩, (hold (h.lhs_lt p hp)).symm.trans hA, rfl⟩
          · rw [(hnew p hp).1] at hA
            omega
        · rintro ⟨β, ⟨p, hp, rfl, rfl⟩, hA, rfl⟩
          exact ⟨_, ⟨p, hmem.2 (.inl hp), rfl, rfl⟩, (hold (h.lhs_lt p hp)).trans hA, rfl⟩
      unfold blockLanguage
      rw [hrules]
    · obtain rfl := Option.some.inj (hnode.symm.trans hnode')
      rw [← hblock.generated_eq hterminals hL]
      -- the block of node `i` consists of just the new productions
      refine blockLanguage_eq_generated fun A γ => ?_
      constructor
      · rintro ⟨β, ⟨p, hp, rfl, rfl⟩, hA, rfl⟩
        rcases hmem.1 hp with hp | hp
        · rw [hold (h.lhs_lt p hp)] at hA
          exact absurd hA (h.owner_lt p hp).ne
        · exact ⟨p, hp, rfl, (hblock.map_openOuter hlen hp).symm⟩
      · rintro ⟨p, hp, rfl, rfl⟩
        exact ⟨_, ⟨p, hmem.2 (.inr hp), rfl, rfl⟩, (hnew p hp).1, hblock.map_openOuter hlen hp⟩

/-! ### All nodes -/

/-- Every node gets a nonterminal. -/
theorem addSchemas_returns {name : SchemaNode → String} (nodes : List SchemaNode)
    (hb : b.CacheSound) :
    Returns (nodes.mapM fun node => addNonterminal (name node) node.provenance)
      (fun ids b' => ids = (List.range nodes.length).map (b.nonterminals.length + ·) ∧
        b'.nonterminals.length = b.nonterminals.length + nodes.length ∧ b'.CacheSound ∧
        b'.terminals = b.terminals ∧ b'.productions = b.productions) b := by
  induction nodes generalizing b with
  | nil => exact ⟨rfl, rfl, hb, rfl, rfl⟩
  | cons node nodes ih =>
    rw [List.mapM_cons]
    simp only [Returns, Method.wp_bind]
    refine Method.wp_mono addNonterminal_returns ?_
    rintro id b₁ ⟨rfl, hb₁⟩
    have hcache : b₁.CacheSound := hb₁ ▸ hb
    rw [Method.wp_bind]
    refine Method.wp_mono (ih hcache) ?_
    rintro ids b' ⟨rfl, hlen, h⟩
    subst hb₁
    simp only [List.length_append, List.length_singleton] at hlen h ⊢
    refine ⟨?_, by rw [hlen, List.length_cons]; omega, h⟩
    rw [List.length_cons, List.range_succ_eq_map, List.map_cons, List.map_map]
    refine congrArg (_ :: ·) (List.map_congr_left fun i _ => ?_)
    simp only [Function.comp]
    omega

/-- The nodes from `i` on are lowered. -/
theorem lowerNodes_owned (harena : arena.Ordered) (nodes : List SchemaNode) {i : ℕ}
    (hnodes : arena.nodes.drop i = nodes) {owner : ℕ → ℕ} (hb : b.CacheSound)
    (hlen : arena.nodes.length ≤ b.nonterminals.length) (hi : i ≤ arena.nodes.length)
    (h : Owned R arena i b owner) :
    Returns (nodes.forM fun node => do
        let lhs ← Method.unwrap (List.range arena.nodes.length)[node.id]? .panicked
        lowerNode arena (List.range arena.nodes.length) lhs node.id node.kind node.provenance)
      (fun _ b' => arena.nodes.length ≤ b'.nonterminals.length ∧
        ∃ owner', Owned R arena arena.nodes.length b' owner') b := by
  induction nodes generalizing i b owner with
  | nil =>
    obtain rfl : i = arena.nodes.length := le_antisymm hi (List.drop_eq_nil_iff.1 hnodes)
    exact ⟨hlen, owner, h⟩
  | cons node nodes ih =>
    obtain ⟨hnode, hrest, hlt⟩ := ObjectConstraints.drop_eq_cons hnodes
    change Method.wp _ (_ >>= fun _ => nodes.forM _) _ b
    rw [Method.wp_bind]
    dsimp only
    rw [harena.node_id hnode, List.getElem?_range hlt, Method.wp_bind, Method.wp_unwrap_some]
    refine Method.wp_self
      (Method.wp_mono (lowerNode_block (R := R) hb (lt_of_lt_of_le hlt hlen) hlen
      (harena.properties node (List.mem_of_getElem? hnode))) ?_)
    rintro u b₁ ⟨new, hblock⟩ hrun
    have hgrows := ((elementary_grows.mono fun _ => trivial).moves_lowerNode _ _ _ _).of_ok hrun
    have hcache := ((elementary_cacheSound.mono fun _ => trivial).moves_lowerNode _ _ _ _).of_ok
      hrun hb
    exact ih hrest hcache (hlen.trans hgrows.nonterminals.length_le) hlt
      (h.add hnode hlen hgrows hblock)

/-- What is there when all nodes are lowered. -/
theorem lowerNodes_returns (harena : arena.Ordered) (limits : CompileLimits) :
    Returns (lowerNodes arena)
      (fun start b' => start = arena.root ∧ arena.root < arena.nodes.length ∧
        arena.nodes.length ≤ b'.nonterminals.length ∧
        ∃ owner, Owned R arena arena.nodes.length b' owner) (new limits) := by
  unfold Returns lowerNodes
  rw [Method.wp_bind]
  refine Method.wp_mono (addSchemas_returns arena.nodes (new_cacheSound limits)) ?_
  rintro ids b₁ ⟨rfl, hlen, hcache, -, hproductions⟩
  have hrange : (List.range arena.nodes.length).map ((new limits).nonterminals.length + ·) =
      List.range arena.nodes.length := by
    simp [new]
  have hnone : b₁.productions = [] := hproductions
  have hempty : Owned R arena 0 b₁ id :=
    ⟨fun A _ => rfl, by simp [hnone], by simp [hnone], by simp [hnone],
      fun hj => absurd hj (by simp)⟩
  rw [hrange, Method.wp_bind]
  refine Method.wp_mono (lowerNodes_owned harena arena.nodes rfl hcache (by rw [hlen]; omega)
    (Nat.zero_le _) hempty) ?_
  rintro - b₂ ⟨hlen₂, howned⟩
  rw [Method.wp_unwrap]
  refine ⟨fun start hstart => ?_, fun _ => trivial⟩
  have hroot : arena.root < arena.nodes.length := by
    simpa using (List.getElem?_eq_some_iff.1 hstart).1
  rw [List.getElem?_range hroot] at hstart
  exact ⟨(Option.some.inj hstart).symm, hroot, hlen₂, howned⟩

end GrammarBuilder

/-! ### The grammar of an arena -/

namespace SchemaArena

variable {arena : SchemaArena} {R : String → Language UInt8}

theorem meaning_eq {i : ℕ} {node : SchemaNode} (h : arena.nodes[i]? = some node) :
    arena.meaning R i = node.kind.language R arena.nodes.length (arena.meaning R) := by
  have hfixed : arena.equations R (arena.meaning R) i = arena.meaning R i :=
    congrFun (OrderHom.map_lfp (arena.equations R)) i
  rw [← hfixed, equations_apply h]

theorem exists_node_of_isNever {i : ℕ} (h : arena.isNever i = true) :
    ∃ node, arena.nodes[i]? = some node ∧ node.kind = .never := by
  unfold isNever node at h
  split at h
  · next node hnode => exact ⟨node, hnode, by simpa using h⟩
  · cases h

theorem meaning_never {i : ℕ} (h : arena.isNever i = true) : arena.meaning R i = 0 := by
  obtain ⟨node, hnode, hkind⟩ := exists_node_of_isNever h
  rw [meaning_eq hnode, hkind]
  rfl

end SchemaArena

namespace GrammarBuilder

variable {R : String → Language UInt8} {arena : SchemaArena} {b : GrammarBuilder} {owner : ℕ → ℕ}

theorem Owned.blocks (h : Owned R arena arena.nodes.length b owner) :
    Blocks (· < arena.nodes.length) (ProductionRule b.productions) owner where
  owner_eq := h.owner_eq
  rhs_mem := by
    rintro A _ ⟨p, hp, rfl, rfl⟩ B hB
    exact (h.rhs_mem p hp _ hB).2

/-- **The nonterminals of the nodes generate what their schemas denote.** -/
theorem Owned.derivedLanguage_eq (h : Owned R arena arena.nodes.length b owner) {i : ℕ}
    (hi : i < arena.nodes.length) :
    derivedLanguage (ProductionRule b.productions) (terminalsLanguage R b.terminals) i =
      arena.meaning R i := by
  set D := derivedLanguage (ProductionRule b.productions) (terminalsLanguage R b.terminals) with hD
  have hnode : ∀ {j}, j < arena.nodes.length → ∃ node, arena.nodes[j]? = some node :=
    fun hj => ⟨_, List.getElem?_eq_getElem hj⟩
  -- a schema of the kind `Never` has no strings, which the blocks need to know of the others
  have hnever : ∀ k, arena.isNever k = true → D k = 0 := by
    intro k hk
    obtain ⟨node, hk', hkind⟩ := SchemaArena.exists_node_of_isNever hk
    have hlt : k < arena.nodes.length := (List.getElem?_eq_some_iff.1 hk').1
    have hle := h.blocks.language_le (L := terminalsLanguage R b.terminals)
      (M := fun A => if arena.isNever A = true then 0 else ⊤) (fun C hC => ?_) hlt
    · rw [if_pos hk] at hle
      exact le_bot_iff.1 hle
    · obtain ⟨node, hnode⟩ := hnode hC
      by_cases hnever : arena.isNever C = true
      · obtain ⟨node', hnode', hkind'⟩ := SchemaArena.exists_node_of_isNever hnever
        rw [h.block_eq hC hnode' (List.prefix_refl _) fun A hA => if_pos hA, hkind', if_pos hnever]
        exact le_rfl
      · rw [if_neg hnever]
        exact le_top
  refine le_antisymm ?_ ?_
  · refine h.blocks.language_le (fun C hC => ?_) hi
    obtain ⟨node, hnode⟩ := hnode hC
    rw [h.block_eq hC hnode (List.prefix_refl _) fun k => SchemaArena.meaning_never,
      SchemaArena.meaning_eq hnode]
  · -- the derived languages solve the equations, where they are cut off at the nodes
    set X : ℕ → Language UInt8 := fun k => if k < arena.nodes.length then D k else 0 with hX
    have hXle : ∀ k, X k ≤ D k := by
      intro k
      by_cases hk : k < arena.nodes.length
      · exact le_of_eq (if_pos hk)
      · rw [hX]
        simp only [if_neg hk]
        exact bot_le
    have hle : arena.meaning R ≤ X := by
      refine OrderHom.lfp_le _ fun k => ?_
      by_cases hk : k < arena.nodes.length
      · obtain ⟨node, hnode⟩ := hnode hk
        have hblock := h.blocks.language_eq (L := terminalsLanguage R b.terminals) hk
        rw [← hD, h.block_eq hk hnode (List.prefix_refl _) hnever] at hblock
        have hXk : X k = D k := if_pos hk
        rw [hXk, ← hblock, SchemaArena.equations_apply hnode]
        exact NormalizedSchema.language_mono hXle
      · change arena.nodes[k]?.elim 0 _ ≤ X k
        rw [List.getElem?_eq_none (not_lt.1 hk), Option.elim_none]
        exact bot_le
    exact (hle i).trans (hXle i)

theorem moves_lowerNodes {Rel : GrammarBuilder → GrammarBuilder → Prop} [Std.Refl Rel]
    [IsTrans GrammarBuilder Rel] (h : Elementary Rel fun _ => True) :
    Method.Moves Rel (lowerNodes arena) :=
  Method.moves_bind (Method.moves_mapM (fun _ => h.nonterminal _ _) _) fun _ =>
    Method.moves_bind (Method.moves_forM
      (fun _ => Method.moves_bind (Method.moves_unwrap _ _) fun _ =>
      (h.mono fun _ => trivial).moves_lowerNode _ _ _ _) _) fun _ => Method.moves_unwrap _ _

end GrammarBuilder

/-- What a lowered arena is read from. -/
theorem exists_owned {arena : SchemaArena} {limits : CompileLimits} {g : Grammar}
    (harena : arena.Ordered) (h : lower arena limits = .ok g) (R : String → Language UInt8) :
    ∃ b owner, Owned R arena arena.nodes.length b owner ∧ b.WellSized ∧
      arena.root < arena.nodes.length ∧ arena.nodes.length ≤ b.nonterminals.length ∧
      g = ⟨arena.root, b.nonterminals, b.terminals, b.productions⟩ := by
  unfold lower at h
  split at h
  · next start b hrun =>
    obtain ⟨rfl, hroot, hlen, owner, howned⟩ :=
      Method.wp_ok (lowerNodes_returns (R := R) harena limits) hrun
    have hsized := (moves_lowerNodes elementary_wellSized).of_ok hrun (new_wellSized limits)
    exact ⟨b, owner, howned, hsized, hroot, hlen, (Except.ok.inj h).symm⟩
  · cases h

theorem lower_wellFormed {arena : SchemaArena} {limits : CompileLimits} {g : Grammar}
    (harena : arena.Ordered) (h : lower arena limits = .ok g) : g.WellFormed := by
  obtain ⟨b, owner, howned, hsized, hroot, hlen, rfl⟩ := exists_owned harena h fun _ => 0
  exact {
    start_lt := hroot.trans_le hlen
    nonterminal_id := hsized.nonterminal_id
    terminal_id := hsized.terminal_id
    production_id := hsized.production_id
    lhs_lt := howned.lhs_lt
    rhs_inRange := fun p hp s hs => by
      have hin := howned.rhs_mem p hp s hs
      cases s with
      | terminal t => exact hin
      | nonterminal A => exact hin.1
    nonterminals_length := hsized.nonterminals_length
    terminals_length := hsized.terminals_length
    productions_length := hsized.productions_length
    rhs_length := hsized.rhs_length }

theorem lower_language {arena : SchemaArena} {limits : CompileLimits} {g : Grammar}
    (harena : arena.Ordered) (h : lower arena limits = .ok g) (R : String → Language UInt8) {i : ℕ}
    (hi : i < arena.nodes.length) : g.language R i = arena.meaning R i := by
  obtain ⟨b, owner, howned, -, -, -, rfl⟩ := exists_owned harena h R
  exact howned.derivedLanguage_eq hi

/-- **Lowering is exact.**  The grammar of an arena is well formed, starts with the nonterminal of
the root, and generates from the nonterminal of every node what its schema denotes, whatever the
patterns of the JSON types match. -/
theorem lower_exact {arena : SchemaArena} {limits : CompileLimits} {g : Grammar}
    (harena : arena.Ordered) (h : lower arena limits = .ok g) (R : String → Language UInt8) :
    g.WellFormed ∧ g.start = arena.root ∧ arena.root < arena.nodes.length ∧
      ∀ i < arena.nodes.length, g.language R i = arena.meaning R i := by
  refine ⟨lower_wellFormed harena h, ?_, ?_, fun i hi => lower_language harena h R hi⟩
  all_goals
    obtain ⟨b, owner, -, -, hroot, -, rfl⟩ := exists_owned harena h R
  · rfl
  · exact hroot

theorem optionalFlag_ordered : optionalFlag.Ordered where
  node_id {i node} h := by
    have hi : i < 3 := (List.getElem?_eq_some_iff.1 h).1
    interval_cases i <;> cases h <;> rfl
  properties := by
    intro node hnode object hkind
    simp only [optionalFlag, List.mem_cons, List.not_mem_nil, or_false] at hnode
    rcases hnode with rfl | rfl | rfl <;> cases hkind

theorem lower_exact_optionalFlag :
    ∃ g, lower optionalFlag .default = .ok g ∧ g.WellFormed ∧ g.start = optionalFlag.root ∧
      optionalFlag.root < 3 ∧
      ∀ i < 3, g.language patternLanguage i = optionalFlag.meaning patternLanguage i := by
  have hok : (lower optionalFlag .default).isOk = true := by decide +kernel
  cases h : lower optionalFlag .default with
  | error e =>
    rw [h] at hok
    cases hok
  | ok g => exact ⟨g, rfl, lower_exact optionalFlag_ordered h patternLanguage⟩

end OcEarley

import OcEarley.Grammar.LowerSized

/-!
# The block of a node

The kinds of schemas denote languages, given the languages that the schemas stand for
(`NormalizedSchema.language`).  What a node adds to the grammar is a block: its productions are
those of the node and of nonterminals that it has added, they mention no others but the nodes', and
they generate what the kind denotes (`Block`).
-/

namespace OcEarley

open GrammarBuilder

/-- The strings of a kind, when the `n` schemas stand for the languages `L`.  The kinds that are
refused have none. -/
def NormalizedSchema.language (R : String → Language UInt8) (n : ℕ) (L : ℕ → Language UInt8) :
    NormalizedSchema → Language UInt8
  | .any => 0
  | .never => 0
  | .null => R JsonPattern.null
  | .boolean => R JsonPattern.boolean
  | .string _ => R JsonPattern.string
  | .number => R JsonPattern.number
  | .integer => R JsonPattern.integer
  | .const value => {utf8Bytes value.json}
  | .enum values => {x | ∃ value ∈ values, x = utf8Bytes value.json}
  | .array constraints => constraints.language (List.range n) L
  | .object constraints => constraints.language (List.range n) L
  | .union branches => {x | ∃ branch ∈ branches, x ∈ L branch}
  | .ref target => L target

namespace GrammarBuilder

/-- The symbol is that of a node, or has been added between `b` and `b'`. -/
def InBlock (n : ℕ) (b b' : GrammarBuilder) : GrammarSymbol → Prop
  | .terminal t => t < b'.terminals.length
  | .nonterminal A => A < n ∨ b.nonterminals.length ≤ A ∧ A < b'.nonterminals.length

/-- The productions of a node of some kind. -/
structure Block (R : String → Language UInt8) (arena : SchemaArena) (lhs : ℕ)
    (kind : NormalizedSchema) (b b' : GrammarBuilder) (new : List Production) : Prop where
  productions : b'.productions = b.productions ++ new
  lhs_mem : ∀ p ∈ new,
    p.lhs = lhs ∨ b.nonterminals.length ≤ p.lhs ∧ p.lhs < b'.nonterminals.length
  rhs_mem : ∀ p ∈ new, ∀ s ∈ p.rhs, InBlock arena.nodes.length b b' s
  generated_eq : ∀ {b'' : GrammarBuilder}, b'.terminals <+: b''.terminals →
    ∀ {L : ℕ → Language UInt8}, (∀ i, arena.isNever i = true → L i = 0) →
      generated b.nonterminals.length b'' new R L lhs = kind.language R arena.nodes.length L

variable {R : String → Language UInt8} {arena : SchemaArena} {lhs schemaId : ℕ}
  {b b' : GrammarBuilder} {provenance : Provenance}

theorem generated_nil {n A : ℕ} {L : ℕ → Language UInt8} : generated n b [] R L A = 0 := by
  refine Set.eq_empty_of_forall_notMem fun x hx => ?_
  obtain ⟨γ, ⟨q, hq, -⟩, -⟩ := yields_nonterminal_iff.1 hx
  cases hq

theorem Block.nil {kind : NormalizedSchema} (hkind : ∀ L : ℕ → Language UInt8,
    (∀ i, arena.isNever i = true → L i = 0) → kind.language R arena.nodes.length L = 0) :
    Block R arena lhs kind b b [] where
  productions := (List.append_nil _).symm
  lhs_mem := by simp
  rhs_mem := by simp
  generated_eq _ _ hL := generated_nil.trans (hkind _ hL).symm

/-! ### Patterns -/

theorem lowerPattern_block {kind : NormalizedSchema} {forward : String} {reverse : Option String}
    (hkind : ∀ L, kind.language R arena.nodes.length L = R forward) :
    Returns (lowerPattern lhs forward reverse provenance)
      (fun _ b' => ∃ new, Block R arena lhs kind b b' new) b := by
  have hterminal : Returns (addPattern forward reverse provenance)
      (fun id b' => id = b.terminals.length ∧ b' = { b with
        terminals := b.terminals ++ [⟨id, .pattern forward reverse, provenance⟩] }) b := by
    simp only [Returns, addPattern, addTerminal, nextId, Method.wp_bind, Method.wp_get,
      Method.wp_require, Method.wp_modify, Method.wp_pure]
    exact ⟨fun _ => ⟨fun _ => ⟨trivial, trivial⟩, fun _ => trivial⟩, fun _ => trivial⟩
  unfold Returns lowerPattern
  rw [Method.wp_bind]
  refine Method.wp_mono hterminal ?_
  rintro id b₁ ⟨rfl, rfl⟩
  rw [Method.wp_bind]
  refine Method.wp_mono addProduction_returns ?_
  rintro id b₂ rfl
  refine ⟨[⟨id, lhs, [.terminal b.terminals.length], provenance⟩], rfl, ?_, ?_, ?_⟩
  · intro p hp
    obtain rfl := List.mem_singleton.1 hp
    exact .inl rfl
  · intro p hp s hs
    obtain rfl := List.mem_singleton.1 hp
    obtain rfl := List.mem_singleton.1 hs
    change b.terminals.length < (b.terminals ++ [_]).length
    simp
  · rintro b'' ⟨later, hlater⟩ L -
    have hopen : openLanguage R b''.terminals L (.inr b.terminals.length) = R forward := by
      simp [openLanguage, ← hlater, RegularTerminalKind.language]
    rw [hkind, ← hopen]
    ext x
    change Yields _ _ [.nonterminal lhs] x ↔ _
    rw [yields_nonterminal_iff, ← yields_terminal_iff]
    constructor
    · rintro ⟨γ, ⟨p, hp, -, rfl⟩, hγ⟩
      obtain rfl := List.mem_singleton.1 hp
      exact hγ
    · exact fun hx => ⟨_, ⟨_, List.mem_singleton_self _, rfl, rfl⟩, hx⟩

/-! ### Productions that are rules -/

/-- A symbol of a rule that may stand in a block. -/
def TextInBlock (n : ℕ) (b b' : GrammarBuilder) (s : Symbol (List UInt8) ℕ) : Prop :=
  ∀ A, s = .nonterminal A → A < n ∨ b.nonterminals.length ≤ A ∧ A < b'.nonterminals.length

theorem ReadsAs.inBlock {n : ℕ} {s : GrammarSymbol} {t : Symbol (List UInt8) ℕ}
    (h : b'.ReadsAs s t) (ht : TextInBlock n b b' t) : InBlock n b b' s := by
  cases h with
  | literal hid =>
    obtain ⟨t, ht, -⟩ := hid
    exact (List.getElem?_eq_some_iff.1 ht).1
  | nonterminal A => exact ht A rfl

/-- A block whose productions are rules. -/
theorem AreRules.block {kind : NormalizedSchema} {new : List Production} {rules : List TextRule}
    (h : b'.AreRules new rules) (hproductions : b'.productions = b.productions ++ new)
    (hlhs : ∀ A γ, (A, γ) ∈ rules →
      A = lhs ∨ b.nonterminals.length ≤ A ∧ A < b'.nonterminals.length)
    (hrhs : ∀ A γ, (A, γ) ∈ rules → ∀ s ∈ γ, TextInBlock arena.nodes.length b b' s)
    (hkind : ∀ {b'' : GrammarBuilder}, b''.AreRules new rules → ∀ L : ℕ → Language UInt8,
      generated b.nonterminals.length b'' new R L lhs =
        kind.language R arena.nodes.length L) :
    Block R arena lhs kind b b' new := by
  have hrule : ∀ p ∈ new, ∃ γ, (p.lhs, γ) ∈ rules ∧ List.Forall₂ b'.ReadsAs p.rhs γ := by
    intro p hp
    obtain ⟨r, hr, hlhs, hrhs⟩ := exists_of_forall₂_left h hp
    exact ⟨r.2, hlhs ▸ hr, hrhs⟩
  refine ⟨hproductions, fun p hp => ?_, fun p hp s hs => ?_, fun hterminals L _ =>
    hkind (h.mono hterminals) L⟩
  · obtain ⟨γ, hγ, -⟩ := hrule p hp
    exact hlhs _ γ hγ
  · obtain ⟨γ, hγ, hreads⟩ := hrule p hp
    obtain ⟨t, ht, hread⟩ := exists_of_forall₂_left hreads hs
    exact hread.inBlock (hrhs _ γ hγ t ht)

/-! ### Kinds with one symbol on each right-hand side -/

/-- Every target is a rule. -/
abbrev targetRules (lhs : ℕ) (targets : List (Symbol (List UInt8) ℕ)) : List TextRule :=
  targets.map fun s => (lhs, [s])

theorem generated_targets {n : ℕ} {targets : List (Symbol (List UInt8) ℕ)} {new : List Production}
    {L : ℕ → Language UInt8} (h : b.AreRules new (targetRules lhs targets))
    (htargets : ∀ A, .nonterminal A ∈ targets → A < n) {x : List UInt8} :
    x ∈ generated n b new R L lhs ↔
      ∃ s ∈ targets, x ∈ symbolLanguage (fun bytes => {bytes}) L s := by
  have hrule : ∀ s ∈ targets, ∀ M, ruleLanguage n L M [s] =
      symbolLanguage (fun bytes => {bytes}) L s := by
    intro s hs M
    rw [ruleLanguage, List.map_singleton, List.prod_singleton]
    cases s with
    | terminal bytes => rfl
    | nonterminal A => simp [symbolLanguage, htargets A hs]
  constructor
  · intro hx
    refine (generated_le (M := fun A => {x | A = lhs →
      ∃ s ∈ targets, x ∈ symbolLanguage (fun bytes => {bytes}) L s}) h ?_ lhs hx :) rfl
    intro A γ hr y hy _
    obtain ⟨s, hs, heq⟩ := List.mem_map.1 hr
    obtain ⟨-, rfl⟩ := Prod.mk.inj heq
    exact ⟨s, hs, hrule s hs _ ▸ hy⟩
  · rintro ⟨s, hs, hx⟩
    refine ruleLanguage_le_generated h (List.mem_map.2 ⟨s, hs, rfl⟩) ?_
    rwa [hrule s hs]

/-- A kind with one symbol on each right-hand side. -/
theorem AddsRules.block {kind : NormalizedSchema} {targets : List (Symbol (List UInt8) ℕ)}
    (h : AddsRules b (targetRules lhs targets) b')
    (hlen : arena.nodes.length ≤ b.nonterminals.length)
    (htargets : ∀ A, .nonterminal A ∈ targets → A < arena.nodes.length)
    (hkind : ∀ L x, x ∈ kind.language R arena.nodes.length L ↔
      ∃ s ∈ targets, x ∈ symbolLanguage (fun bytes => {bytes}) L s) :
    ∃ new, Block R arena lhs kind b b' new := by
  obtain ⟨new, hadds, hrules⟩ := h
  refine ⟨new, hrules.block hadds.productions (fun A γ hr => ?_) (fun A γ hr s hs B hB => ?_)
    fun {b''} hrules' L => ?_⟩
  · obtain ⟨s, -, heq⟩ := List.mem_map.1 hr
    exact .inl (Prod.mk.inj heq).1.symm
  · obtain ⟨t, ht, heq⟩ := List.mem_map.1 hr
    obtain ⟨-, rfl⟩ := Prod.mk.inj heq
    obtain rfl := List.mem_singleton.1 hs
    exact .inl (htargets B (hB ▸ ht))
  · ext x
    rw [hkind]
    exact generated_targets hrules' fun A hA => (htargets A hA).trans_le hlen

theorem lowerValue_rules {value : CanonicalValue} (hb : b.CacheSound) :
    Returns (lowerValue lhs provenance value)
      (fun _ b' => AddsRules b (targetRules lhs [.terminal (utf8Bytes value.json)]) b') b := by
  unfold Returns lowerValue
  rw [Method.wp_bind]
  refine Method.wp_mono (addLiteral_rules hb) ?_
  rintro id b₁ ⟨hadds, hid⟩
  rw [Method.wp_bind]
  exact Method.wp_mono (addProduction_rules hadds.cacheSound (.cons hid .nil))
    fun _ _ hadds' => hadds.trans hadds'

theorem lowerTarget_rules {n target : ℕ} (hb : b.CacheSound) :
    Returns (lowerTarget (List.range n) lhs provenance target)
      (fun _ b' => target < n ∧ AddsRules b (targetRules lhs [.nonterminal target]) b') b := by
  unfold Returns lowerTarget
  rw [Method.wp_bind, Method.wp_unwrap]
  refine ⟨fun A hA => ?_, fun _ => trivial⟩
  have hlt : target < n := by simpa using (List.getElem?_eq_some_iff.1 hA).1
  obtain rfl : target = A := by simpa [hlt] using hA
  rw [Method.wp_bind]
  exact Method.wp_mono (addProduction_rules hb (.cons (.nonterminal _) .nil))
    fun _ _ hadds => ⟨hlt, hadds⟩

/-- A loop whose rounds each add one rule. -/
theorem targets_rules {α : Type} {f : α → Lowering Unit} {symbol : α → Symbol (List UInt8) ℕ}
    {P : α → Prop} (hf : ∀ a {b : GrammarBuilder}, b.CacheSound →
      Returns (f a) (fun _ b' => P a ∧ AddsRules b (targetRules lhs [symbol a]) b') b)
    (l : List α) (hb : b.CacheSound) :
    Returns (l.forM f)
      (fun _ b' => (∀ a ∈ l, P a) ∧ AddsRules b (targetRules lhs (l.map symbol)) b') b := by
  induction l generalizing b with
  | nil => exact ⟨by simp, .refl hb⟩
  | cons a l ih =>
    change Method.wp _ (_ >>= fun _ => l.forM _) _ b
    rw [Method.wp_bind]
    refine Method.wp_mono (hf a hb) fun _ b₁ ⟨ha, hadds⟩ => ?_
    refine Method.wp_mono (ih hadds.cacheSound) fun _ b₂ ⟨hl, hadds'⟩ => ?_
    exact ⟨List.forall_mem_cons.2 ⟨ha, hl⟩, hadds.trans hadds'⟩

/-! ### Objects -/

theorem memberState_lt {first i count : ℕ} {emitted : Bool} (h : i < count) :
    ObjectConstraints.memberState first i emitted < first + 2 * count := by
  unfold ObjectConstraints.memberState
  split <;> omega

open ObjectConstraints in
theorem lowerObject_block {object : ObjectConstraints} (hb : b.CacheSound)
    (hlhs : lhs < b.nonterminals.length) (hlen : arena.nodes.length ≤ b.nonterminals.length)
    (hkeys : (object.properties.map Prod.fst).Pairwise (· < ·)) :
    Returns (lowerObject (List.range arena.nodes.length) lhs schemaId object provenance)
      (fun _ b' => ∃ new, Block R arena lhs (.object object) b b' new) b := by
  have hnodes : ∀ A ∈ List.range arena.nodes.length, A < b.nonterminals.length :=
    fun A hA => (List.mem_range.1 hA).trans_le hlen
  refine Method.wp_mono (lowerObject_returns hb) ?_
  rintro - b' (⟨⟨name, hname, hundeclared⟩, rfl⟩ |
    ⟨hreq, hrange, hcount, new, hproductions, hrules⟩)
  · exact ⟨[], .nil fun L _ => language_eq_zero_of_undeclared hname hundeclared⟩
  refine ⟨new, hrules.block hproductions (fun A γ hr => ?_) (fun A γ hr s hs B hB => ?_)
    fun {b''} hrules' L => ?_⟩
  · -- the states of the members are the nonterminals that were added
    rcases mem_rules.1 hr with ⟨emitted, rfl, -⟩ | ⟨name, id, i, emitted, hi, hrule⟩ | ⟨rfl, -⟩
    · refine .inr ⟨le_memberState, ?_⟩
      rw [hcount]
      exact memberState_lt (Nat.lt_succ_self _)
    · obtain ⟨rfl, -⟩ := mem_memberRules.1 hrule
      refine .inr ⟨le_memberState, ?_⟩
      rw [hcount]
      exact memberState_lt ((List.getElem?_eq_some_iff.1 hi).1.trans (Nat.lt_succ_self _))
    · exact .inl rfl
  · subst hB
    have hstate : ∀ {i emitted}, i ≤ object.properties.length →
        memberState b.nonterminals.length i emitted < arena.nodes.length ∨
          b.nonterminals.length ≤ memberState b.nonterminals.length i emitted ∧
            memberState b.nonterminals.length i emitted < b'.nonterminals.length := by
      intro i emitted hi
      refine .inr ⟨le_memberState, ?_⟩
      rw [hcount]
      exact memberState_lt (Nat.lt_succ_of_le hi)
    rcases mem_rules.1 hr with ⟨emitted, -, rfl⟩ | ⟨name, id, i, emitted, hi, hrule⟩ | ⟨-, rfl⟩
    · cases hs
    · have hlt := (List.getElem?_eq_some_iff.1 hi).1
      obtain ⟨-, ⟨-, rfl⟩ | rfl⟩ := mem_memberRules.1 hrule
      · obtain rfl : B = _ := by simpa using hs
        exact hstate hlt
      · have hid : id < arena.nodes.length := by simpa using hrange _ (List.mem_of_getElem? hi)
        have hB : B = id ∨ B = memberState b.nonterminals.length (i + 1) true := by
          cases emitted <;> simpa [commaText, memberSymbols, hid] using hs
        rcases hB with rfl | rfl
        · exact .inl hid
        · exact hstate hlt
    · obtain rfl : B = _ := by simpa using hs
      exact hstate (Nat.zero_le _)
  · ext x
    rw [NormalizedSchema.language, mem_language_iff hkeys hreq]
    constructor
    · intro hx
      exact (generated_le hrules' (fun A γ hr =>
        ruleLanguage_le_rest hnodes hrange hlhs rfl hr) lhs hx).1 rfl
    · rintro ⟨y, hy, hx⟩
      -- a text of the members is generated by the first state, and the braces go around it
      have hgen : y ∈ generated b.nonterminals.length b'' new R L
          (memberState b.nonterminals.length 0 false) :=
        rest_le_generated hnodes hrules' (Nat.zero_le _) hy
      exact ruleLanguage_le_generated hrules' (mem_rules.2 (.inr (.inr ⟨rfl, rfl⟩)))
        ((mem_ruleLanguage_object le_memberState).2 ⟨y, hgen, hx⟩)

/-! ### Arrays -/

theorem addNonterminals_length {name : ℕ → String} (l : List ℕ) :
    Returns (l.mapM fun index => addNonterminal (name index) provenance)
      (fun _ b' => b'.nonterminals.length = b.nonterminals.length + l.length) b := by
  induction l generalizing b with
  | nil => exact rfl
  | cons index l ih =>
    rw [List.mapM_cons]
    simp only [Returns, Method.wp_bind]
    refine Method.wp_mono addNonterminal_returns ?_
    rintro id b₁ ⟨-, rfl⟩
    rw [Method.wp_bind]
    refine Method.wp_mono ih fun states b' hlen => ?_
    rw [Method.wp_pure, hlen, List.length_append, List.length_singleton, List.length_cons]
    omega

open ArrayConstraints in
/-- What the lowering of an array adds: the positions, and the brackets around them. -/
structure Bracketed (arena : SchemaArena) (schemaNonterminals : List ℕ) (array : ArrayConstraints)
    (lhs : ℕ) (b b' : GrammarBuilder) (new : List Production) (last : ℕ) (p : Production) :
    Prop where
  nonterminals : b'.nonterminals.length = b.nonterminals.length + (last + 1)
  productions : b'.productions = b.productions ++ (new ++ [p])
  shape : Shape array (array.effectiveMax (array.items.any arena.isNever)) last
  lowered : Lowered arena schemaNonterminals array
    (array.effectiveMax (array.items.any arena.isNever)) b.nonterminals.length last
    (List.range (last + 1)) b' new
  bounded : array.effectiveMax (array.items.any arena.isNever) = none → array.items ≠ none
  remainder : ∀ m, array.effectiveMax (array.items.any arena.isNever) = some m →
    array.items = none → m ≤ array.prefixItems.length
  lhs_eq : p.lhs = lhs
  rhs_eq : ∃ opening closing, b'.IsLiteral opening [91] ∧ b'.IsLiteral closing [93] ∧
    p.rhs = [.terminal opening, .nonterminal b.nonterminals.length, .terminal closing]

open ArrayConstraints in
/-- The call adds nothing if the bounds exclude each other, and
otherwise positions between brackets. -/
theorem lowerArray_returns {schemaNonterminals : List ℕ} {array : ArrayConstraints}
    (hb : b.CacheSound) :
    Returns (lowerArray arena schemaNonterminals lhs schemaId array provenance)
      (fun _ b' =>
        (∃ m, array.effectiveMax (array.items.any arena.isNever) = some m ∧ m < array.minItems) ∧
          b' = b ∨
        ∃ new last p, Bracketed arena schemaNonterminals array lhs b b' new last p) b := by
  unfold Returns lowerArray
  set effectiveMax := array.effectiveMax (array.items.any arena.isNever) with hmaxDef
  by_cases hsmall : effectiveMax.any (· < array.minItems) = true
  · rw [if_pos hsmall]
    cases hm : effectiveMax with
    | none => simp [hm] at hsmall
    | some m =>
      rw [hm, Option.any_some, decide_eq_true_iff] at hsmall
      exact .inl ⟨⟨m, rfl, hsmall⟩, rfl⟩
  rw [if_neg hsmall]
  simp only [Method.wp_bind, Method.wp_require, Method.wp_get]
  refine ⟨fun hbounded => ⟨fun hrest => ⟨fun _ => ⟨fun _ => ⟨fun _ => ?_, fun _ => trivial⟩,
    fun _ => trivial⟩, fun _ => trivial⟩, fun _ => trivial⟩, fun _ => trivial⟩
  set last := effectiveMax.getD (max (max array.prefixItems.length array.minItems) 1) with hlast
  -- the states first, then what leads from one to the next, then the brackets around them
  refine Method.wp_mono (Method.wp_and (addNonterminals_returns (List.range (last + 1)) hb)
    (addNonterminals_length (List.range (last + 1)))) ?_
  rintro states b₁ ⟨⟨rfl, hb₁, hterminals₁, hproductions₁⟩, hlen₁⟩
  rw [List.length_range] at hlen₁ ⊢
  rw [Method.wp_bind]
  refine Method.wp_mono (lowerPositions_returns hb₁ _ fun index hindex =>
    Nat.lt_succ_iff.1 (List.mem_range.1 hindex)) ?_
  rintro - b₂ ⟨new, hadds₂, hlowered⟩
  rw [Method.wp_bind]
  refine Method.wp_mono (addLiteral_adds hadds₂.cacheSound) ?_
  rintro opening b₃ ⟨hadds₃, hopening⟩
  rw [Method.wp_bind]
  refine Method.wp_mono (addLiteral_adds hadds₃.cacheSound) ?_
  rintro closing b₄ ⟨hadds₄, hclosing⟩
  have hfirst : ((List.range (last + 1)).map (b.nonterminals.length + ·))[0]? =
      some b.nonterminals.length := by simp
  rw [hfirst, Method.wp_bind, Method.wp_unwrap_some, Method.wp_bind]
  refine Method.wp_mono (addProduction_adds hadds₄.cacheSound) ?_
  rintro id b₅ hadds₅
  have hadds := ((hadds₂.trans hadds₃).trans hadds₄).trans hadds₅
  refine .inr ⟨new, last, ⟨id, lhs, [.terminal opening, .nonterminal b.nonterminals.length,
    .terminal closing], provenance⟩, ?_⟩
  exact {
    nonterminals := by rw [hadds.nonterminals, hlen₁]
    productions := by simp [hadds.productions, hproductions₁]
    shape := by
      constructor
      · intro m hm
        rw [hlast, hmaxDef, hm]
        rfl
      · intro hm
        rw [hlast, hmaxDef, hm, Option.getD_none]
        omega
    lowered := hlowered.mono ((hadds₃.trans hadds₄).trans hadds₅).terminals
    bounded := fun hm hitems => hbounded ⟨hm, hitems⟩
    remainder := by
      intro m hm hitems
      by_contra hlt
      refine hrest ⟨?_, hitems⟩
      rw [hmaxDef, hm]
      simpa using hlt
    lhs_eq := rfl
    rhs_eq := ⟨opening, closing, hopening.mono (hadds₄.trans hadds₅).terminals,
      hclosing.mono hadds₅.terminals, rfl⟩ }

open ArrayConstraints in
/-- The schema of an item that may follow has a nonterminal. -/
theorem Bracketed.exists_nonterminal {schemaNonterminals : List ℕ} {array : ArrayConstraints}
    {new : List Production} {last : ℕ} {p : Production}
    (h : Bracketed arena schemaNonterminals array lhs b b' new last p) {k item : ℕ}
    (hk : ∀ m, array.effectiveMax (array.items.any arena.isNever) = some m → k < m)
    (hitem : array.item k = some item) (hn : arena.isNever item = false) :
    ∃ A, schemaNonterminals[item]? = some A := by
  have hat : ItemAt arena array (array.effectiveMax (array.items.any arena.isNever)) (min k last)
      item := by
    refine ⟨?_, (h.shape.position fun m hm => (hk m hm).le).1.trans hitem, hn⟩
    cases hm : array.effectiveMax (array.items.any arena.isNever) with
    | none => rfl
    | some m =>
      have := hk m hm
      simp only [Option.any_some, decide_eq_false_iff_not]
      omega
  obtain ⟨q, -, -, comma, A, -, hA, -⟩ :=
    h.lowered.items _ (List.mem_range.2 (by omega)) item hat
  exact ⟨A, hA⟩

open ArrayConstraints in
theorem lowerArray_block {array : ArrayConstraints} (hb : b.CacheSound)
    (hlhs : lhs < b.nonterminals.length) (hlen : arena.nodes.length ≤ b.nonterminals.length) :
    Returns (lowerArray arena (List.range arena.nodes.length) lhs schemaId array provenance)
      (fun _ b' => ∃ new, Block R arena lhs (.array array) b b' new) b := by
  have hnodes : ∀ A ∈ List.range arena.nodes.length, A < b.nonterminals.length :=
    fun A hA => (List.mem_range.1 hA).trans_le hlen
  have hnever : ∀ {L : ℕ → Language UInt8}, (∀ i, arena.isNever i = true → L i = 0) →
      ∀ item, arena.isNever item = true →
        ∃ A, (List.range arena.nodes.length)[item]? = some A ∧ L A = 0 := by
    intro L hL item hn
    have hlt : item < arena.nodes.length := by
      by_contra hge
      rw [SchemaArena.isNever, SchemaArena.node, List.getElem?_eq_none (not_lt.1 hge)] at hn
      cases hn
    exact ⟨item, by simp [hlt], hL item hn⟩
  refine Method.wp_mono (lowerArray_returns hb) ?_
  rintro - b' (⟨⟨m, hm, hsmall⟩, rfl⟩ | ⟨new, last, p, h⟩)
  · refine ⟨[], .nil fun L hL => Set.eq_empty_of_forall_notMem ?_⟩
    rintro x ⟨es, hmin, hmax, hes, -⟩
    have hle := le_effectiveMax (hnever hL) hmax hes hm
    omega
  -- the states of the array are the nonterminals that are added, above those of the nodes
  obtain ⟨opening, closing, hopening, hclosing, hrhs⟩ := h.rhs_eq
  have hliteral : ∀ {id bytes}, b'.IsLiteral id bytes → id < b'.terminals.length := by
    rintro id bytes ⟨t, ht, -⟩
    exact (List.getElem?_eq_some_iff.1 ht).1
  have hstate : ∀ {index}, index ≤ last →
      InBlock arena.nodes.length b b' (.nonterminal (b.nonterminals.length + index)) := by
    intro index hindex
    refine .inr ⟨Nat.le_add_right _ _, ?_⟩
    rw [h.nonterminals]
    omega
  refine ⟨new ++ [p], h.productions, fun q hq => ?_, fun q hq s hs => ?_,
    fun {b''} hterminals L hL => ?_⟩
  · rcases List.mem_append.1 hq with hq | hq
    · obtain ⟨index, hindex, hqlhs, -⟩ := h.lowered.sound q hq
      have := List.mem_range.1 hindex
      rw [hqlhs, h.nonterminals]
      omega
    · obtain rfl := List.mem_singleton.1 hq
      exact .inl h.lhs_eq
  · rcases List.mem_append.1 hq with hq | hq
    · obtain ⟨index, -, -, ⟨hnil, -⟩ | ⟨item, -, comma, A, hcomma, hA, hq⟩⟩ := h.lowered.sound q hq
      · rw [hnil] at hs
        cases hs
      · rw [hq, List.mem_append] at hs
        rcases hs with hs | hs
        · unfold IsComma at hcomma
          split at hcomma
          · rw [hcomma] at hs
            cases hs
          · obtain ⟨id, hid, rfl⟩ := hcomma
            obtain rfl := List.mem_singleton.1 hs
            exact hliteral hid
        · rcases List.mem_cons.1 hs with rfl | hs
          · exact .inl (List.mem_range.1 (List.mem_of_getElem? hA))
          · obtain rfl := List.mem_singleton.1 hs
            exact hstate (Nat.min_le_right _ _)
    · obtain rfl := List.mem_singleton.1 hq
      rw [hrhs] at hs
      rcases List.mem_cons.1 hs with rfl | hs
      · exact hliteral hopening
      rcases List.mem_cons.1 hs with rfl | hs
      · exact hstate (Nat.zero_le _)
      · obtain rfl := List.mem_singleton.1 hs
        exact hliteral hclosing
  -- what the block generates is the language of the array, with `L` for the nodes
  · ext x
    obtain ⟨id, plhs, prhs, pprov⟩ := p
    obtain rfl : plhs = lhs := h.lhs_eq
    obtain rfl : prhs = _ := hrhs
    refine Iff.trans ((h.lowered.mono hterminals).yields_iff h.shape hnodes (fun item A hn hA => ?_)
      hlhs (hopening.mono hterminals) (hclosing.mono hterminals))
      (mem_language_iff (hnever hL) h.remainder h.bounded fun k item hk hitem => ?_).symm
    · obtain ⟨A', hA', hzero⟩ := hnever hL item hn
      obtain rfl := Option.some.inj (hA.symm.trans hA')
      exact hzero
    · cases hn : arena.isNever item with
      | true =>
        obtain ⟨A, hA, -⟩ := hnever hL item hn
        exact ⟨A, hA⟩
      | false => exact h.exists_nonterminal hk hitem hn

/-! ### Nodes -/

/-- **A node adds a block.** -/
theorem lowerNode_block {kind : NormalizedSchema} (hb : b.CacheSound)
    (hlhs : lhs < b.nonterminals.length) (hlen : arena.nodes.length ≤ b.nonterminals.length)
    (hkeys : ∀ object, kind = .object object →
      (object.properties.map Prod.fst).Pairwise (· < ·)) :
    Returns (lowerNode arena (List.range arena.nodes.length) lhs schemaId kind provenance)
      (fun _ b' => ∃ new, Block R arena lhs kind b b' new) b := by
  cases kind with
  | never => exact ⟨[], .nil fun _ _ => rfl⟩
  | any => trivial
  | null => exact lowerPattern_block fun _ => rfl
  | boolean => exact lowerPattern_block fun _ => rfl
  | string constraints =>
    change Method.wp _ (_ >>= fun _ => lowerPattern _ _ _ _) _ b
    rw [Method.wp_bind, Method.wp_require]
    exact ⟨fun _ => lowerPattern_block fun _ => rfl, fun _ => trivial⟩
  | number => exact lowerPattern_block fun _ => rfl
  | integer => exact lowerPattern_block fun _ => rfl
  | const value =>
    refine Method.wp_mono (lowerValue_rules hb) fun _ b' hadds => hadds.block hlen (by simp) ?_
    intro L x
    simp [NormalizedSchema.language, symbolLanguage]
  | enum values =>
    have hvalue : ∀ value {b : GrammarBuilder}, b.CacheSound →
        Returns (lowerValue lhs provenance value) (fun _ b' => True ∧
          AddsRules b (targetRules lhs [.terminal (utf8Bytes value.json)]) b') b :=
      fun value b hb => Method.wp_mono (lowerValue_rules hb) fun _ _ hadds => ⟨trivial, hadds⟩
    refine Method.wp_mono (targets_rules hvalue values hb) ?_
    rintro - b' ⟨-, hadds⟩
    refine hadds.block hlen (by simp) fun L x => ?_
    simp only [List.mem_map, exists_exists_and_eq_and, symbolLanguage]
    exact Iff.rfl
  | union branches =>
    refine Method.wp_mono (targets_rules (fun target b hb => lowerTarget_rules hb) branches hb) ?_
    rintro - b' ⟨hrange, hadds⟩
    refine hadds.block hlen (by simpa using hrange) fun L x => ?_
    simp only [List.mem_map, exists_exists_and_eq_and, symbolLanguage]
    exact Iff.rfl
  | ref target =>
    refine Method.wp_mono (lowerTarget_rules hb) ?_
    rintro - b' ⟨hrange, hadds⟩
    refine hadds.block hlen (by simpa using hrange) fun L x => ?_
    simp [NormalizedSchema.language, symbolLanguage]
  | array array => exact lowerArray_block hb hlhs hlen
  | object object => exact lowerObject_block hb hlhs hlen (hkeys object rfl)

end GrammarBuilder

end OcEarley

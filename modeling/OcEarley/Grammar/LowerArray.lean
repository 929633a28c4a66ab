import OcEarley.Grammar.Lower

/-!
# Arrays are lowered exactly

The nonterminals of a node generate what its kind describes, whatever the nonterminals of the
other nodes stand for.  To say so, the nonterminals of the nodes are read as terminals for given
languages (`openSymbol`); the ones that a call adds keep their productions.
-/

namespace OcEarley

open GrammarBuilder

/-! ### What the calls of the builder do -/

namespace GrammarBuilder

/-- Terminal `id` is the literal. -/
def IsLiteral (b : GrammarBuilder) (id : ℕ) (bytes : List UInt8) : Prop :=
  ∃ t, b.terminals[id]? = some t ∧ t.kind = .literal bytes

/-- The cached ids are those of the literals. -/
def CacheSound (b : GrammarBuilder) : Prop :=
  ∀ key id, b.literalCache.lookup key = some id → b.IsLiteral id key.1

theorem new_cacheSound (limits : CompileLimits) : (new limits).CacheSound := by
  intro key id h
  simp [new] at h

theorem IsLiteral.mono {b b' : GrammarBuilder} (h : b.terminals <+: b'.terminals) {id : ℕ}
    {bytes : List UInt8} (hid : b.IsLiteral id bytes) : b'.IsLiteral id bytes := by
  obtain ⟨t, ht, hkind⟩ := hid
  obtain ⟨s, hs⟩ := h
  exact ⟨t, hs ▸ List.getElem?_append_left (List.getElem?_eq_some_iff.1 ht).1 ▸ ht, hkind⟩

variable {b : GrammarBuilder} {provenance : Provenance}

/-- The result of a call that returns. -/
abbrev Returns {α : Type} (m : Lowering α) (Q : α → GrammarBuilder → Prop) (b : GrammarBuilder) :
    Prop :=
  Method.wp (fun _ => True) m Q b

theorem addNonterminal_returns {name : String} :
    Returns (addNonterminal name provenance)
      (fun id b' => id = b.nonterminals.length ∧
        b' = { b with nonterminals := b.nonterminals ++ [⟨id, name, provenance⟩] }) b := by
  simp only [Returns, addNonterminal, nextId, Method.wp_bind, Method.wp_get, Method.wp_require,
    Method.wp_modify, Method.wp_pure]
  exact ⟨fun _ => ⟨fun _ => ⟨trivial, trivial⟩, fun _ => trivial⟩, fun _ => trivial⟩

theorem addLiteral_returns {bytes : List UInt8} (hb : b.CacheSound) :
    Returns (addLiteral bytes provenance)
      (fun id b' => b'.CacheSound ∧ b'.IsLiteral id bytes ∧ b.terminals <+: b'.terminals ∧
        b'.nonterminals = b.nonterminals ∧ b'.productions = b.productions) b := by
  unfold Returns addLiteral
  simp only [Method.wp_bind, Method.wp_get]
  split
  · next id hid => exact ⟨hb, hb _ _ hid, List.prefix_refl _, rfl, rfl⟩
  · next hid =>
    simp only [addTerminal, nextId, Method.wp_bind, Method.wp_get, Method.wp_require,
      Method.wp_modify, Method.wp_pure]
    refine ⟨fun _ => ⟨fun _ => ?_, fun _ => trivial⟩, fun _ => trivial⟩
    have hnew : ∀ (cache : AList fun _ : LiteralKey => ℕ), IsLiteral
        { b with
          terminals := b.terminals ++ [⟨b.terminals.length, .literal bytes, provenance⟩]
          literalCache := cache } b.terminals.length bytes := fun cache =>
      ⟨⟨b.terminals.length, .literal bytes, provenance⟩, by simp, rfl⟩
    refine ⟨fun key id hkey => ?_, hnew _, List.prefix_append _ _, trivial, trivial⟩
    by_cases heq : key = (bytes, provenance.pointer.text, provenance.keyword)
    · subst heq
      rw [AList.lookup_insert] at hkey
      exact Option.some.inj hkey ▸ hnew _
    · rw [AList.lookup_insert_ne heq] at hkey
      exact (hb key id hkey).mono (List.prefix_append _ _)

theorem addProduction_returns {lhs : ℕ} {rhs : List GrammarSymbol} :
    Returns (addProduction lhs rhs provenance)
      (fun id b' => b' = { b with
        rhsSymbols := b.rhsSymbols + rhs.length
        productions := b.productions ++ [⟨id, lhs, rhs, provenance⟩] }) b := by
  simp only [Returns, addProduction, nextId, Method.wp_bind, Method.wp_get, Method.wp_require,
    Method.wp_modify, Method.wp_pure]
  exact ⟨fun _ => ⟨fun _ => ⟨fun _ => ⟨fun _ => trivial, fun _ => trivial⟩, fun _ => trivial⟩,
    fun _ => trivial⟩, fun _ => trivial⟩

/-- A call that adds the productions `new`, and terminals for literals. -/
structure Adds (b : GrammarBuilder) (new : List Production) (b' : GrammarBuilder) : Prop where
  cacheSound : b'.CacheSound
  terminals : b.terminals <+: b'.terminals
  nonterminals : b'.nonterminals = b.nonterminals
  productions : b'.productions = b.productions ++ new

theorem Adds.refl (hb : b.CacheSound) : Adds b [] b :=
  ⟨hb, List.prefix_refl _, rfl, (List.append_nil _).symm⟩

theorem Adds.trans {b' b'' : GrammarBuilder} {new new' : List Production} (h : Adds b new b')
    (h' : Adds b' new' b'') : Adds b (new ++ new') b'' where
  cacheSound := h'.cacheSound
  terminals := h.terminals.trans h'.terminals
  nonterminals := h'.nonterminals.trans h.nonterminals
  productions := by rw [h'.productions, h.productions, List.append_assoc]

theorem addLiteral_adds {bytes : List UInt8} (hb : b.CacheSound) :
    Returns (addLiteral bytes provenance)
      (fun id b' => Adds b [] b' ∧ b'.IsLiteral id bytes) b :=
  Method.wp_mono (addLiteral_returns hb) fun _ _ ⟨hcache, hid, hterminals, hnt, hprod⟩ =>
    ⟨⟨hcache, hterminals, hnt, hprod.trans (List.append_nil _).symm⟩, hid⟩

theorem addProduction_adds {lhs : ℕ} {rhs : List GrammarSymbol} (hb : b.CacheSound) :
    Returns (addProduction lhs rhs provenance)
      (fun id b' => Adds b [⟨id, lhs, rhs, provenance⟩] b') b :=
  Method.wp_mono addProduction_returns fun _ _ h => h ▸ ⟨hb, List.prefix_refl _, rfl, rfl⟩

/-- Nonterminals that are added together have consecutive ids. -/
theorem addNonterminals_returns {name : ℕ → String} (l : List ℕ) (hb : b.CacheSound) :
    Returns (l.mapM fun index => addNonterminal (name index) provenance)
      (fun states b' => states = (List.range l.length).map (b.nonterminals.length + ·) ∧
        b'.CacheSound ∧ b'.terminals = b.terminals ∧ b'.productions = b.productions) b := by
  induction l generalizing b with
  | nil => exact ⟨rfl, hb, rfl, rfl⟩
  | cons index l ih =>
    rw [List.mapM_cons]
    simp only [Returns, Method.wp_bind]
    refine Method.wp_mono addNonterminal_returns ?_
    rintro id b₁ ⟨rfl, hb₁⟩
    have hcache : b₁.CacheSound := hb₁ ▸ hb
    rw [Method.wp_bind]
    refine Method.wp_mono (ih hcache) ?_
    rintro states b' ⟨rfl, h⟩
    subst hb₁
    refine ⟨?_, h⟩
    rw [List.length_cons, List.range_succ_eq_map, List.map_cons, List.map_map]
    refine congrArg (_ :: ·) (List.map_congr_left fun i _ => ?_)
    simp only [List.length_append, List.length_singleton, Function.comp]
    omega

end GrammarBuilder

/-! ### The nonterminals of the nodes as terminals -/

/-- The nonterminals below `n` are read as terminals. -/
def openSymbol (n : ℕ) : GrammarSymbol → Symbol (ℕ ⊕ ℕ) ℕ
  | .terminal t => .terminal (.inr t)
  | .nonterminal A => if A < n then .terminal (.inl A) else .nonterminal A

/-- The productions, with the nonterminals below `n` read as terminals
on their right-hand sides. -/
def OpenRule (n : ℕ) (productions : List Production) (A : ℕ) (γ : List (Symbol (ℕ ⊕ ℕ) ℕ)) :
    Prop :=
  ∃ p ∈ productions, p.lhs = A ∧ p.rhs.map (openSymbol n) = γ

/-- The byte strings of a terminal, where `pattern` says what a pattern matches. -/
def RegularTerminalKind.language (pattern : String → Language UInt8) :
    RegularTerminalKind → Language UInt8
  | .literal bytes => {bytes}
  | .pattern forward _ => pattern forward

/-- The languages of the nonterminals that are read as terminals, and those of the terminals. -/
def openLanguage (pattern : String → Language UInt8) (terminals : List RegularTerminal)
    (L : ℕ → Language UInt8) : ℕ ⊕ ℕ → Language UInt8
  | .inl A => L A
  | .inr t => (terminals[t]?.map fun found => found.kind.language pattern).getD 0

theorem openLanguage_literal {pattern : String → Language UInt8} {b : GrammarBuilder}
    {L : ℕ → Language UInt8} {id : ℕ} {bytes : List UInt8} (h : b.IsLiteral id bytes) :
    openLanguage pattern b.terminals L (.inr id) = {bytes} := by
  obtain ⟨t, ht, hkind⟩ := h
  simp [openLanguage, ht, hkind, RegularTerminalKind.language]

/-! ### The productions of the positions -/

namespace ArrayConstraints

variable (arena : SchemaArena) (schemaNonterminals : List ℕ) (array : ArrayConstraints)
  (effectiveMax : Option ℕ) (first last : ℕ)

/-- The schema of an item that may follow at a position. -/
def ItemAt (index item : ℕ) : Prop :=
  effectiveMax.any (· ≤ index) = false ∧ array.item index = some item ∧
    arena.isNever item = false

/-- The symbols before the item at a position. -/
def IsComma (b : GrammarBuilder) (index : ℕ) (β : List GrammarSymbol) : Prop :=
  if index = 0 then β = [] else ∃ id, b.IsLiteral id [44] ∧ β = [.terminal id]

/-- The right-hand side for an item at a position, where the states are numbered from `first` on
and `last` is the last position. -/
def ItemRhs (b : GrammarBuilder) (index item : ℕ) (γ : List GrammarSymbol) : Prop :=
  ∃ comma A, IsComma b index comma ∧ schemaNonterminals[item]? = some A ∧
    γ = comma ++ [.nonterminal A, .nonterminal (first + min (index + 1) last)]

/-- The productions `new` are those of the positions `indexes`. -/
structure Lowered (indexes : List ℕ) (b : GrammarBuilder) (new : List Production) : Prop where
  sound : ∀ q ∈ new, ∃ index ∈ indexes, q.lhs = first + index ∧
    (q.rhs = [] ∧ array.minItems ≤ index ∨ ∃ item, ItemAt arena array effectiveMax index item ∧
      ItemRhs schemaNonterminals first last b index item q.rhs)
  ends : ∀ index ∈ indexes, array.minItems ≤ index →
    ∃ q ∈ new, q.lhs = first + index ∧ q.rhs = []
  items : ∀ index ∈ indexes, ∀ item, ItemAt arena array effectiveMax index item →
    ∃ q ∈ new, q.lhs = first + index ∧
      ItemRhs schemaNonterminals first last b index item q.rhs

variable {arena schemaNonterminals array effectiveMax first last}

theorem IsComma.mono {b b' : GrammarBuilder} (h : b.terminals <+: b'.terminals) {index : ℕ}
    {β : List GrammarSymbol} (hβ : IsComma b index β) : IsComma b' index β := by
  unfold IsComma at hβ ⊢
  split at hβ
  · next h0 => rw [if_pos h0]; exact hβ
  · next h0 =>
    obtain ⟨id, hid, rfl⟩ := hβ
    rw [if_neg h0]
    exact ⟨id, hid.mono h, rfl⟩

theorem ItemRhs.mono {b b' : GrammarBuilder} (h : b.terminals <+: b'.terminals) {index item : ℕ}
    {γ : List GrammarSymbol} (hγ : ItemRhs schemaNonterminals first last b index item γ) :
    ItemRhs schemaNonterminals first last b' index item γ := by
  obtain ⟨comma, A, hcomma, hA, rfl⟩ := hγ
  exact ⟨comma, A, hcomma.mono h, hA, rfl⟩

theorem Lowered.mono {indexes : List ℕ} {b b' : GrammarBuilder} {new : List Production}
    (hb : b.terminals <+: b'.terminals)
    (h : Lowered arena schemaNonterminals array effectiveMax first last indexes b new) :
    Lowered arena schemaNonterminals array effectiveMax first last indexes b' new where
  sound q hq := by
    obtain ⟨index, hindex, hlhs, hrhs⟩ := h.sound q hq
    refine ⟨index, hindex, hlhs, hrhs.imp_right ?_⟩
    rintro ⟨item, hitem, hγ⟩
    exact ⟨item, hitem, hγ.mono hb⟩
  ends := h.ends
  items index hindex item hitem := by
    obtain ⟨q, hq, hlhs, hrhs⟩ := h.items index hindex item hitem
    exact ⟨q, hq, hlhs, hrhs.mono hb⟩

theorem Lowered.append {indexes indexes' : List ℕ} {b b' : GrammarBuilder}
    {new new' : List Production} (hb : b.terminals <+: b'.terminals)
    (h : Lowered arena schemaNonterminals array effectiveMax first last indexes b new)
    (h' : Lowered arena schemaNonterminals array effectiveMax first last indexes' b' new') :
    Lowered arena schemaNonterminals array effectiveMax first last (indexes ++ indexes') b'
      (new ++ new') where
  sound q hq := by
    rcases List.mem_append.1 hq with hq | hq
    · obtain ⟨index, hindex, hq⟩ := (h.mono hb).sound q hq
      exact ⟨index, List.mem_append_left _ hindex, hq⟩
    · obtain ⟨index, hindex, hq⟩ := h'.sound q hq
      exact ⟨index, List.mem_append_right _ hindex, hq⟩
  ends index hindex hmin := by
    rcases List.mem_append.1 hindex with hindex | hindex
    · obtain ⟨q, hq, hrhs⟩ := h.ends index hindex hmin
      exact ⟨q, List.mem_append_left _ hq, hrhs⟩
    · obtain ⟨q, hq, hrhs⟩ := h'.ends index hindex hmin
      exact ⟨q, List.mem_append_right _ hq, hrhs⟩
  items index hindex item hitem := by
    rcases List.mem_append.1 hindex with hindex | hindex
    · obtain ⟨q, hq, hrhs⟩ := (h.mono hb).items index hindex item hitem
      exact ⟨q, List.mem_append_left _ hq, hrhs⟩
    · obtain ⟨q, hq, hrhs⟩ := h'.items index hindex item hitem
      exact ⟨q, List.mem_append_right _ hq, hrhs⟩

variable {b : GrammarBuilder} {provenance : Provenance}

theorem lowerEnd_returns (hb : b.CacheSound) {index : ℕ} :
    Returns (lowerEnd array provenance (first + index) index)
      (fun _ b' => ∃ new, Adds b new b' ∧
        (∀ q ∈ new, q.lhs = first + index ∧ q.rhs = [] ∧ array.minItems ≤ index) ∧
        (array.minItems ≤ index → ∃ q ∈ new, q.lhs = first + index ∧ q.rhs = [])) b := by
  unfold Returns lowerEnd
  split
  · next hmin =>
    rw [Method.wp_bind]
    refine Method.wp_mono (addProduction_adds hb) fun id b' hadds => ⟨_, hadds, fun q hq => ?_,
      fun _ => ⟨_, List.mem_singleton_self _, rfl, rfl⟩⟩
    obtain rfl := List.mem_singleton.1 hq
    exact ⟨rfl, rfl, hmin⟩
  · next hmin =>
    exact ⟨[], .refl hb, fun q hq => absurd hq List.not_mem_nil, fun h => absurd h hmin⟩

theorem lowerComma_returns (hb : b.CacheSound) {index : ℕ} :
    Returns (lowerComma provenance index)
      (fun comma b' => Adds b [] b' ∧ IsComma b' index comma) b := by
  unfold Returns lowerComma IsComma
  by_cases h0 : index = 0
  · simp only [h0, ne_eq, not_true_eq_false, if_false, if_true]
    exact ⟨.refl hb, rfl⟩
  · simp only [ne_eq, h0, not_false_eq_true, if_true, if_false, Method.wp_bind]
    refine Method.wp_mono (addLiteral_adds hb) fun id b' h => ⟨h.1, id, h.2, rfl⟩

theorem lowerItem_returns (hb : b.CacheSound) {index : ℕ} (hindex : index ≤ last) :
    Returns (lowerItem arena schemaNonterminals array effectiveMax provenance
      ((List.range (last + 1)).map (first + ·)) (first + index) index)
      (fun _ b' => ∃ new, Adds b new b' ∧
        (∀ q ∈ new, q.lhs = first + index ∧ ∃ item, ItemAt arena array effectiveMax index item ∧
          ItemRhs schemaNonterminals first last b' index item q.rhs) ∧
        ∀ item, ItemAt arena array effectiveMax index item → ∃ q ∈ new, q.lhs = first + index ∧
          ItemRhs schemaNonterminals first last b' index item q.rhs) b := by
  -- at a position without an item, or with one that is never valid, nothing is added
  have hnone : (∀ item, ¬ ItemAt arena array effectiveMax index item) →
      Returns (pure () : Lowering Unit) (fun _ b' => ∃ new, Adds b new b' ∧
        (∀ q ∈ new, q.lhs = first + index ∧ ∃ item, ItemAt arena array effectiveMax index item ∧
          ItemRhs schemaNonterminals first last b' index item q.rhs) ∧
        ∀ item, ItemAt arena array effectiveMax index item → ∃ q ∈ new, q.lhs = first + index ∧
          ItemRhs schemaNonterminals first last b' index item q.rhs) b := fun h =>
    ⟨[], .refl hb, fun q hq => absurd hq List.not_mem_nil, fun item hitem => absurd hitem (h item)⟩
  unfold lowerItem
  split
  · next hmax => exact hnone fun item hitem => by simp [hitem.1] at hmax
  split
  · next hitem => exact hnone fun item h => by simp [h.2.1] at hitem
  · next hmax _ item hitem =>
    split
    · next hnever =>
      refine hnone fun item' h => ?_
      obtain rfl := Option.some.inj (hitem.symm.trans h.2.1)
      simp [h.2.2] at hnever
    · next hnever =>
      have hat : ItemAt arena array effectiveMax index item :=
        ⟨by simpa using hmax, hitem, by simpa using hnever⟩
      have hnext : ((List.range (last + 1)).map (first + ·))[index + 1]?.getD (first + index) =
          first + min (index + 1) last := by
        rcases Nat.lt_or_ge index last with hlt | hge
        · rw [List.getElem?_map, List.getElem?_range (by omega), min_eq_left hlt]
          rfl
        · rw [List.getElem?_eq_none (by simp; omega), min_eq_right (by omega)]
          exact congrArg (first + ·) (le_antisymm hindex hge)
      simp only [Method.wp_bind, hnext]
      refine Method.wp_mono (lowerComma_returns hb) ?_
      rintro comma b₁ ⟨hadds, hcomma⟩
      rw [Method.wp_bind, Method.wp_unwrap]
      refine ⟨fun A hA => ?_, fun _ => trivial⟩
      rw [Method.wp_bind]
      refine Method.wp_mono (addProduction_adds hadds.cacheSound) fun id b₂ hadds' => ?_
      have hrhs : ItemRhs schemaNonterminals first last b₂ index item
          (comma ++ [.nonterminal A, .nonterminal (first + min (index + 1) last)]) :=
        ⟨comma, A, hcomma.mono hadds'.terminals, hA, rfl⟩
      refine ⟨_, hadds.trans hadds', fun q hq => ?_, fun item' h => ?_⟩
      · obtain rfl := List.mem_singleton.1 hq
        exact ⟨rfl, item, hat, hrhs⟩
      · obtain rfl := Option.some.inj (hitem.symm.trans h.2.1)
        exact ⟨_, List.mem_singleton_self _, rfl, hrhs⟩

theorem lowerPosition_returns (hb : b.CacheSound) {index : ℕ} (hindex : index ≤ last) :
    Returns (lowerPosition arena schemaNonterminals array effectiveMax provenance
      ((List.range (last + 1)).map (first + ·)) index)
      (fun _ b' => ∃ new, Adds b new b' ∧
        Lowered arena schemaNonterminals array effectiveMax first last [index] b' new) b := by
  have hstate : ((List.range (last + 1)).map (first + ·))[index]? = some (first + index) := by
    rw [List.getElem?_map, List.getElem?_range (by omega)]
    rfl
  simp only [Returns, lowerPosition, hstate, Method.wp_bind, Method.wp_unwrap_some]
  refine Method.wp_mono (lowerEnd_returns hb) ?_
  rintro - b₁ ⟨new₁, hadds₁, hends, hend⟩
  refine Method.wp_mono (lowerItem_returns hadds₁.cacheSound hindex) ?_
  rintro - b₂ ⟨new₂, hadds₂, hitems, hitem⟩
  refine ⟨new₁ ++ new₂, hadds₁.trans hadds₂, ⟨fun q hq => ?_, fun i hi hmin => ?_,
    fun i hi item h => ?_⟩⟩
  · rcases List.mem_append.1 hq with hq | hq
    · obtain ⟨hlhs, hrhs⟩ := hends q hq
      exact ⟨index, List.mem_singleton_self _, hlhs, .inl hrhs⟩
    · obtain ⟨hlhs, hrhs⟩ := hitems q hq
      exact ⟨index, List.mem_singleton_self _, hlhs, .inr hrhs⟩
  · obtain rfl := List.mem_singleton.1 hi
    obtain ⟨q, hq, h⟩ := hend hmin
    exact ⟨q, List.mem_append_left _ hq, h⟩
  · obtain rfl := List.mem_singleton.1 hi
    obtain ⟨q, hq, h⟩ := hitem item h
    exact ⟨q, List.mem_append_right _ hq, h⟩

theorem lowerPositions_returns (hb : b.CacheSound) (l : List ℕ) (hl : ∀ index ∈ l, index ≤ last) :
    Returns (l.forM (lowerPosition arena schemaNonterminals array effectiveMax provenance
      ((List.range (last + 1)).map (first + ·))))
      (fun _ b' => ∃ new, Adds b new b' ∧
        Lowered arena schemaNonterminals array effectiveMax first last l b' new) b := by
  induction l generalizing b with
  | nil =>
    exact ⟨[], .refl hb, fun q hq => absurd hq List.not_mem_nil,
      fun i hi => absurd hi List.not_mem_nil, fun i hi => absurd hi List.not_mem_nil⟩
  | cons index l ih =>
    change Method.wp _ (_ >>= fun _ => l.forM _) _ b
    rw [Method.wp_bind]
    refine Method.wp_mono (lowerPosition_returns hb (hl index List.mem_cons_self)) ?_
    rintro - b₁ ⟨new₁, hadds₁, hlowered₁⟩
    refine Method.wp_mono (ih hadds₁.cacheSound fun i hi => hl i (List.mem_cons_of_mem _ hi)) ?_
    rintro - b₂ ⟨new₂, hadds₂, hlowered₂⟩
    exact ⟨new₁ ++ new₂, hadds₁.trans hadds₂, hlowered₁.append hadds₂.terminals hlowered₂⟩

/-! ### The language of the positions -/

/-- What follows the first `k` items: the remaining items, each after a comma
except at the start. -/
def separated : ℕ → List (List UInt8) → List UInt8
  | _, [] => []
  | k, e :: es => (if k = 0 then e else 44 :: e) ++ separated (k + 1) es

theorem separated_succ (k : ℕ) (es : List (List UInt8)) :
    separated (k + 1) es = es.flatMap (44 :: ·) := by
  induction es generalizing k with
  | nil => rfl
  | cons e es ih => simp [separated, ih]

/-- From the start, the items are separated by commas. -/
theorem separated_zero (es : List (List UInt8)) : separated 0 es = [44].intercalate es := by
  cases es with
  | nil => rfl
  | cons e es =>
    rw [separated, separated_succ, if_pos rfl]
    induction es generalizing e with
    | nil => simp [List.intercalate]
    | cons e' es ih =>
      calc e ++ (e' :: es).flatMap (44 :: ·) = e ++ ([44] ++ (e' ++ es.flatMap (44 :: ·))) := by
            simp
        _ = e ++ ([44] ++ [44].intercalate (e' :: es)) := by rw [ih e']
        _ = [44].intercalate (e :: e' :: es) := by simp [List.intercalate]

variable (schemaNonterminals array effectiveMax) in
/-- The strings that complete an array after its first `k` items. -/
def Rest (L : ℕ → Language UInt8) (k : ℕ) : Language UInt8 :=
  {x | ∃ es : List (List UInt8), array.minItems ≤ k + es.length ∧
    (∀ m, effectiveMax = some m → k + es.length ≤ m) ∧
    (∀ i e, es[i]? = some e → ∃ item A, array.item (k + i) = some item ∧
      schemaNonterminals[item]? = some A ∧ e ∈ L A) ∧
    x = separated k es}

/-- How the number of positions is related to the bounds. -/
structure Shape (array : ArrayConstraints) (effectiveMax : Option ℕ) (last : ℕ) : Prop where
  bounded : ∀ m, effectiveMax = some m → last = m
  unbounded : effectiveMax = none →
    1 ≤ last ∧ array.minItems ≤ last ∧ array.prefixItems.length ≤ last

/-- After `k` items the array is at the position `min k last`, which agrees with `k` on everything
that the productions depend on. -/
theorem Shape.position (h : Shape array effectiveMax last) {k : ℕ}
    (hk : ∀ m, effectiveMax = some m → k ≤ m) :
    array.item (min k last) = array.item k ∧ (min k last = 0 ↔ k = 0) ∧
      (array.minItems ≤ min k last ↔ array.minItems ≤ k) := by
  cases hmax : effectiveMax with
  | some m =>
    have := hk m hmax
    rw [min_eq_left (h.bounded m hmax ▸ this)]
    exact ⟨rfl, Iff.rfl, Iff.rfl⟩
  | none =>
    obtain ⟨h1, hmin, hprefix⟩ := h.unbounded hmax
    refine ⟨?_, by omega, by omega⟩
    rcases Nat.le_total k last with hle | hle
    · rw [min_eq_left hle]
    · rw [min_eq_right hle, item, item, if_neg (by omega), if_neg (by omega)]

section Positions

variable {b' : GrammarBuilder} {new : List Production} {pattern : String → Language UInt8}
  {L : ℕ → Language UInt8}

theorem ItemAt.lt {index item m : ℕ} (h : ItemAt arena array effectiveMax index item)
    (hm : effectiveMax = some m) : index < m := by
  have hmax := h.1
  rw [hm] at hmax
  simpa using hmax

/-- The strings of the right-hand side for an item. -/
theorem ItemRhs.mem_prod {index item : ℕ} {rhs : List GrammarSymbol}
    (h : ItemRhs schemaNonterminals first last b' index item rhs)
    (hlt : ∀ A ∈ schemaNonterminals, A < first) {M : ℕ → Language UInt8} {x : List UInt8}
    (hx : x ∈ ((rhs.map (openSymbol first)).map
      (symbolLanguage (openLanguage pattern b'.terminals L) M)).prod) :
    ∃ A e y, schemaNonterminals[item]? = some A ∧ e ∈ L A ∧
      y ∈ M (first + min (index + 1) last) ∧ x = (if index = 0 then e else 44 :: e) ++ y := by
  obtain ⟨comma, A, hcomma, hA, rfl⟩ := h
  have hopen : openSymbol first (.nonterminal A) = .terminal (.inl A) :=
    if_pos (hlt A (List.mem_of_getElem? hA))
  have hstate : openSymbol first (.nonterminal (first + min (index + 1) last)) =
      .nonterminal (first + min (index + 1) last) := if_neg (by omega)
  unfold IsComma at hcomma
  split at hcomma
  · next h0 =>
    subst hcomma
    simp only [List.nil_append, List.map_cons, List.map_nil, hopen, hstate, symbolLanguage,
      openLanguage, List.prod_cons, List.prod_nil, mul_one] at hx
    obtain ⟨e, he, y, hy, rfl⟩ := Language.mem_mul.1 hx
    exact ⟨A, e, y, hA, he, hy, by rw [if_pos h0]⟩
  · next h0 =>
    obtain ⟨id, hid, rfl⟩ := hcomma
    have hclosed : openSymbol first (.terminal id) = .terminal (.inr id) := rfl
    simp only [List.singleton_append, List.map_cons, List.map_nil, hclosed, hopen, hstate,
      symbolLanguage, openLanguage_literal hid, List.prod_cons, List.prod_nil, mul_one] at hx
    obtain ⟨_, rfl, z, hz, rfl⟩ := Language.mem_mul.1 hx
    obtain ⟨e, he, y, hy, rfl⟩ := Language.mem_mul.1 hz
    exact ⟨A, e, y, hA, he, hy, by rw [if_neg h0]; rfl⟩

theorem ItemRhs.yields {R : ℕ → List (Symbol (ℕ ⊕ ℕ) ℕ) → Prop} {index item A : ℕ}
    {rhs : List GrammarSymbol} {e y : List UInt8}
    (h : ItemRhs schemaNonterminals first last b' index item rhs)
    (hlt : ∀ A ∈ schemaNonterminals, A < first) (hA : schemaNonterminals[item]? = some A)
    (he : e ∈ L A)
    (hy : Yields R (openLanguage pattern b'.terminals L)
      [.nonterminal (first + min (index + 1) last)] y) :
    Yields R (openLanguage pattern b'.terminals L) (rhs.map (openSymbol first))
      ((if index = 0 then e else 44 :: e) ++ y) := by
  obtain ⟨comma, A', hcomma, hA', rfl⟩ := h
  obtain rfl := Option.some.inj (hA.symm.trans hA')
  have hopen : openSymbol first (.nonterminal A) = .terminal (.inl A) :=
    if_pos (hlt A (List.mem_of_getElem? hA))
  have hstate : openSymbol first (.nonterminal (first + min (index + 1) last)) =
      .nonterminal (first + min (index + 1) last) := if_neg (by omega)
  have htail : Yields R (openLanguage pattern b'.terminals L)
      ([.nonterminal A, .nonterminal (first + min (index + 1) last)].map (openSymbol first))
      (e ++ y) := by
    rw [List.map_cons, List.map_cons, List.map_nil, hopen, hstate]
    exact .terminal he hy
  unfold IsComma at hcomma
  split at hcomma
  · next h0 =>
    subst hcomma
    rw [if_pos h0]
    exact htail
  · next h0 =>
    obtain ⟨id, hid, rfl⟩ := hcomma
    rw [if_neg h0]
    have hcomma : [44] ∈ openLanguage pattern b'.terminals L (.inr id) := by
      rw [openLanguage_literal hid]
      rfl
    exact .terminal (u := [44]) hcomma htail

/-- A production of the position after `k` items leads to strings that complete the array, if what
it leads to does. -/
theorem Lowered.rest_of_rule
    (h : Lowered arena schemaNonterminals array effectiveMax first last (List.range (last + 1))
      b' new) (hshape : Shape array effectiveMax last)
    (hlt : ∀ A ∈ schemaNonterminals, A < first) {M : ℕ → Language UInt8} {k : ℕ}
    (hk : ∀ m, effectiveMax = some m → k ≤ m)
    (hM : (∀ m, effectiveMax = some m → k + 1 ≤ m) →
      M (first + min (k + 1) last) ≤ Rest schemaNonterminals array effectiveMax L (k + 1))
    {γ : List (Symbol (ℕ ⊕ ℕ) ℕ)} (hrule : OpenRule first new (first + min k last) γ) :
    (γ.map (symbolLanguage (openLanguage pattern b'.terminals L) M)).prod ≤
      Rest schemaNonterminals array effectiveMax L k := by
  obtain ⟨q, hq, hlhs, rfl⟩ := hrule
  obtain ⟨index, -, hindex, hrhs⟩ := h.sound q hq
  obtain rfl : index = min k last := Nat.add_left_cancel (hindex.symm.trans hlhs)
  obtain ⟨hitemEq, hzero, hmin⟩ := hshape.position hk
  rintro x hx
  rcases hrhs with ⟨hnil, hends⟩ | ⟨item, hat, hrhs⟩
  · rw [hnil] at hx
    obtain rfl : x = [] := hx
    exact ⟨[], hmin.1 hends, hk, fun i e he => by simp at he, rfl⟩
  · have hk' : ∀ m, effectiveMax = some m → k + 1 ≤ m := fun m hm => by
      have := hat.lt hm
      have := hshape.bounded m hm
      omega
    have hnext : min (min k last + 1) last = min (k + 1) last := by omega
    obtain ⟨A, e, y, hA, he, hy, rfl⟩ := hrhs.mem_prod hlt hx
    rw [hnext] at hy
    obtain ⟨es, hminEs, hmaxEs, hes, rfl⟩ := hM hk' hy
    refine ⟨e :: es, by rw [List.length_cons]; omega, fun m hm => ?_, fun i found hi => ?_, ?_⟩
    · have := hmaxEs m hm
      rw [List.length_cons]
      omega
    · cases i with
      | zero =>
        obtain rfl := Option.some.inj hi
        exact ⟨item, A, hitemEq ▸ hat.2.1, hA, he⟩
      | succ i =>
        rw [Nat.add_comm i 1, ← Nat.add_assoc]
        exact hes i found (by simpa using hi)
    · rw [separated]
      simp only [hzero]

/-- Every string that completes the array after `k` items is generated. -/
theorem Lowered.yields_of_rest
    (h : Lowered arena schemaNonterminals array effectiveMax first last (List.range (last + 1))
      b' new) (hshape : Shape array effectiveMax last)
    (hlt : ∀ A ∈ schemaNonterminals, A < first)
    (hnever : ∀ item A, arena.isNever item = true → schemaNonterminals[item]? = some A → L A = 0)
    (es : List (List UInt8)) {k : ℕ} (hk : ∀ m, effectiveMax = some m → k + es.length ≤ m)
    (hmin : array.minItems ≤ k + es.length)
    (hes : ∀ i e, es[i]? = some e → ∃ item A, array.item (k + i) = some item ∧
      schemaNonterminals[item]? = some A ∧ e ∈ L A) :
    Yields (OpenRule first new) (openLanguage pattern b'.terminals L)
      [.nonterminal (first + min k last)] (separated k es) := by
  have hk₀ : ∀ m, effectiveMax = some m → k ≤ m := fun m hm => by
    have := hk m hm
    omega
  obtain ⟨hitemEq, hzero, hminIff⟩ := hshape.position hk₀
  have hindex : min k last ∈ List.range (last + 1) := List.mem_range.2 (by omega)
  -- on the items; past the last state the position stays, and only the item counts
  induction es generalizing k with
  | nil =>
    obtain ⟨q, hq, hlhs, hrhs⟩ := h.ends _ hindex (hminIff.2 hmin)
    exact .of_production ⟨q, hq, hlhs, by rw [hrhs]; rfl⟩ .nil
  | cons e es ih =>
    rw [List.length_cons] at hk hmin
    obtain ⟨item, A, hitem, hA, he⟩ := hes 0 e rfl
    have hat : ItemAt arena array effectiveMax (min k last) item := by
      refine ⟨?_, hitemEq.trans hitem, ?_⟩
      · cases hmax : effectiveMax with
        | none => rfl
        | some m =>
          have := hk m hmax
          simp only [Option.any_some, decide_eq_false_iff_not]
          omega
      · by_contra hn
        rw [hnever item A (by simpa using hn) hA] at he
        exact he
    obtain ⟨q, hq, hlhs, hrhs⟩ := h.items _ hindex item hat
    have hk₁ : ∀ m, effectiveMax = some m → k + 1 + es.length ≤ m := fun m hm => by
      have := hk m hm
      omega
    have hk₁' : ∀ m, effectiveMax = some m → k + 1 ≤ m := fun m hm => by
      have := hk m hm
      omega
    obtain ⟨hitemEq', hzero', hminIff'⟩ := hshape.position hk₁'
    have htail := ih hk₁ (by omega) (fun i found hi => by
      have := hes (i + 1) found (by simpa using hi)
      rwa [Nat.add_comm i 1, ← Nat.add_assoc] at this) hk₁' hitemEq' hzero' hminIff'
      (List.mem_range.2 (by omega))
    have hnext : min (min k last + 1) last = min (k + 1) last := by omega
    have hyields := hrhs.yields hlt hA he (hnext ▸ htail)
    rw [separated]
    simp only [hzero] at hyields
    exact .of_production ⟨q, hq, hlhs, rfl⟩ hyields

end Positions

/-- The strings of an array: between brackets and separated by commas, as many items as the bounds
allow, each of them a string of the schema of its position. -/
def language (schemaNonterminals : List ℕ) (array : ArrayConstraints) (L : ℕ → Language UInt8) :
    Language UInt8 :=
  {x | ∃ es : List (List UInt8), array.minItems ≤ es.length ∧
    (∀ m, array.maxItems = some m → es.length ≤ m) ∧
    (∀ i e, es[i]? = some e → ∀ item A, array.item i = some item →
      schemaNonterminals[item]? = some A → e ∈ L A) ∧
    x = [91] ++ [44].intercalate es ++ [93]}

/-- Where an item cannot follow, the array ends. -/
theorem le_effectiveMax {L : ℕ → Language UInt8}
    (hnever : ∀ item, arena.isNever item = true →
      ∃ A, schemaNonterminals[item]? = some A ∧ L A = 0) {es : List (List UInt8)}
    (hmax : ∀ m, array.maxItems = some m → es.length ≤ m)
    (hes : ∀ i e, es[i]? = some e → ∀ item A, array.item i = some item →
      schemaNonterminals[item]? = some A → e ∈ L A) {m : ℕ}
    (hm : array.effectiveMax (array.items.any arena.isNever) = some m) : es.length ≤ m := by
  unfold ArrayConstraints.effectiveMax at hm
  split at hm
  · next hitems =>
    obtain ⟨item, hitem, hn⟩ : ∃ item, array.items = some item ∧ arena.isNever item = true := by
      cases hi : array.items with
      | none => simp [hi] at hitems
      | some item => exact ⟨item, rfl, by simpa [hi] using hitems⟩
    obtain ⟨A, hA, hempty⟩ := hnever item hn
    have hle : es.length ≤ array.prefixItems.length := by
      by_contra hgt
      have he := List.getElem?_eq_getElem (not_le.1 hgt)
      have hmem := hes _ _ he item A (by rw [ArrayConstraints.item, if_neg (lt_irrefl _), hitem]) hA
      rw [hempty] at hmem
      exact hmem
    obtain rfl := Option.some.inj hm
    refine le_min ?_ hle
    cases hmaxItems : array.maxItems with
    | none => exact hle
    | some m => exact hmax m hmaxItems
  · exact hmax m hm

/-- The brackets around the positions. -/
theorem Lowered.yields_iff {b' : GrammarBuilder} {new : List Production}
    {pattern : String → Language UInt8} {L : ℕ → Language UInt8}
    (h : Lowered arena schemaNonterminals array effectiveMax first last (List.range (last + 1))
      b' new) (hshape : Shape array effectiveMax last)
    (hlt : ∀ A ∈ schemaNonterminals, A < first)
    (hnever : ∀ item A, arena.isNever item = true → schemaNonterminals[item]? = some A → L A = 0)
    {lhs id opening closing : ℕ} (hlhs : lhs < first) (hopening : b'.IsLiteral opening [91])
    (hclosing : b'.IsLiteral closing [93]) {x : List UInt8} :
    Yields (OpenRule first (new ++
        [⟨id, lhs, [.terminal opening, .nonterminal first, .terminal closing], provenance⟩]))
      (openLanguage pattern b'.terminals L) [.nonterminal lhs] x ↔
        ∃ y ∈ Rest schemaNonterminals array effectiveMax L 0, x = [91] ++ y ++ [93] := by
  set p : Production :=
    ⟨id, lhs, [.terminal opening, .nonterminal first, .terminal closing], provenance⟩ with hp
  have hrhs : p.rhs.map (openSymbol first) =
      [.terminal (.inr opening), .nonterminal first, .terminal (.inr closing)] := by
    simp [hp, openSymbol]
  have hopen : openLanguage pattern b'.terminals L (.inr opening) = {[91]} :=
    openLanguage_literal hopening
  have hclose : openLanguage pattern b'.terminals L (.inr closing) = {[93]} :=
    openLanguage_literal hclosing
  constructor
  · intro hx
    -- the least solution is below the one that the positions suggest
    set M : ℕ → Language UInt8 := fun A => {x | ∀ k, A = first + min k last →
      (∀ m, effectiveMax = some m → k ≤ m) → x ∈ Rest schemaNonterminals array effectiveMax L k}
      with hM
    have hclosed : ∀ A γ, OpenRule first (new ++ [p]) A γ →
        (γ.map (symbolLanguage (openLanguage pattern b'.terminals L) M)).prod ≤ M A := by
      rintro A γ ⟨q, hq, hqA, rfl⟩ x hx k rfl hk
      rcases List.mem_append.1 hq with hq | hq
      · have hnext : (∀ m, effectiveMax = some m → k + 1 ≤ m) →
            M (first + min (k + 1) last) ≤
              Rest schemaNonterminals array effectiveMax L (k + 1) :=
          fun hk' y (hy : ∀ k', _ = first + min k' last → _ → _) => hy (k + 1) rfl hk'
        exact h.rest_of_rule hshape hlt hk hnext ⟨q, hq, hqA, rfl⟩ hx
      · obtain rfl := List.mem_singleton.1 hq
        change lhs = _ at hqA
        omega
    obtain ⟨γ, ⟨q, hq, hlhs', rfl⟩, hγ⟩ := yields_nonterminal_iff.1 hx
    rcases List.mem_append.1 hq with hq | hq
    · obtain ⟨index, -, hindex, -⟩ := h.sound q hq
      omega
    · obtain rfl := List.mem_singleton.1 hq
      have hmem := Yields.mem_prod hclosed hγ
      rw [hrhs] at hmem
      simp only [List.map_cons, List.map_nil, symbolLanguage, hopen, hclose, List.prod_cons,
        List.prod_nil, mul_one] at hmem
      obtain ⟨_, rfl, z, hz, rfl⟩ := Language.mem_mul.1 hmem
      obtain ⟨y, hy, _, rfl, rfl⟩ := Language.mem_mul.1 hz
      have hy : ∀ k, first = first + min k last → _ → y ∈ Rest _ _ _ _ k := hy
      exact ⟨y, hy 0 (by simp) fun m _ => Nat.zero_le m, by simp⟩
  · rintro ⟨y, ⟨es, hmin, hmax, hes, rfl⟩, rfl⟩
    have hyields : Yields (OpenRule first new) (openLanguage pattern b'.terminals L)
        [.nonterminal (first + min 0 last)] (separated 0 es) :=
      h.yields_of_rest hshape hlt hnever es hmax hmin hes
    rw [Nat.zero_min, Nat.add_zero] at hyields
    have hsub : ∀ A γ, OpenRule first new A γ → OpenRule first (new ++ [p]) A γ := by
      rintro A γ ⟨q, hq, hrule⟩
      exact ⟨q, List.mem_append_left [p] hq, hrule⟩
    have hmono := hyields.mono hsub fun _ => le_rfl
    refine .of_production ⟨p, by simp, rfl, rfl⟩ ?_
    rw [hrhs]
    have hend : Yields (OpenRule first (new ++ [p])) (openLanguage pattern b'.terminals L)
        [.terminal (.inr closing)] [93] := .of_terminal (hclose ▸ rfl)
    have hbody := hmono.append hend
    have hstart : [91] ∈ openLanguage pattern b'.terminals L (.inr opening) := hopen ▸ rfl
    rw [List.append_assoc]
    exact .terminal hstart hbody

/-- The strings that complete an array from its start are those within its bounds. -/
theorem mem_language_iff {L : ℕ → Language UInt8}
    (hnever : ∀ item, arena.isNever item = true →
      ∃ A, schemaNonterminals[item]? = some A ∧ L A = 0)
    (hitems : ∀ m, array.effectiveMax (array.items.any arena.isNever) = some m →
      array.items = none → m ≤ array.prefixItems.length)
    (hbound : array.effectiveMax (array.items.any arena.isNever) = none → array.items ≠ none)
    (hrange : ∀ k item,
      (∀ m, array.effectiveMax (array.items.any arena.isNever) = some m → k < m) →
        array.item k = some item → ∃ A, schemaNonterminals[item]? = some A) {x : List UInt8} :
    x ∈ array.language schemaNonterminals L ↔
      ∃ y ∈ Rest schemaNonterminals array (array.effectiveMax (array.items.any arena.isNever)) L 0,
        x = [91] ++ y ++ [93] := by
  constructor
  · rintro ⟨es, hmin, hmax, hes, rfl⟩
    have hle : ∀ m, array.effectiveMax (array.items.any arena.isNever) = some m → es.length ≤ m :=
      fun m hm => le_effectiveMax hnever hmax hes hm
    refine ⟨_, ⟨es, by omega, fun m hm => by have := hle m hm; omega, fun i e he => ?_, rfl⟩,
      by rw [separated_zero]⟩
    have hlt := (List.getElem?_eq_some_iff.1 he).1
    -- there is an item at every position that is in use
    obtain ⟨item, hitem⟩ : ∃ item, array.item i = some item := by
      unfold ArrayConstraints.item
      split
      · next hprefix => exact ⟨_, List.getElem?_eq_getElem hprefix⟩
      · next hprefix =>
        rw [← Option.isSome_iff_exists, Option.isSome_iff_ne_none]
        intro hnone
        cases hm : array.effectiveMax (array.items.any arena.isNever) with
        | none => exact hbound hm hnone
        | some m =>
          have := hle m hm
          have := hitems m hm hnone
          omega
    obtain ⟨A, hA⟩ := hrange i item (fun m hm => hlt.trans_le (hle m hm)) hitem
    exact ⟨item, A, by rwa [Nat.zero_add], hA, hes i e he item A hitem hA⟩
  · rintro ⟨_, ⟨es, hmin, hmax, hes, rfl⟩, rfl⟩
    refine ⟨es, by omega, fun m hm => ?_, fun i e he item A hitem hA => ?_, by rw [separated_zero]⟩
    · unfold ArrayConstraints.effectiveMax at hmax
      split at hmax
      · have := hmax _ rfl
        rw [hm, Option.getD_some] at this
        omega
      · have := hmax m hm
        omega
    · obtain ⟨item', A', hitem', hA', he'⟩ := hes i e he
      rw [Nat.zero_add] at hitem'
      obtain rfl := Option.some.inj (hitem.symm.trans hitem')
      obtain rfl := Option.some.inj (hA.symm.trans hA')
      exact he'

end ArrayConstraints

open ArrayConstraints

/-- **Array lowering is exact.**  Whatever languages the nonterminals of the nodes stand for, the
empty one for nodes of the kind `Never`, the productions that the call adds generate from the
nonterminal of the array exactly its strings. -/
theorem lowerArray_exact {arena : SchemaArena} {schemaNonterminals : List ℕ} {b b' : GrammarBuilder}
    {lhs schemaId : ℕ} {array : ArrayConstraints} {provenance : Provenance} (hb : b.CacheSound)
    (hlen : schemaNonterminals.length = arena.nodes.length)
    (hlt : ∀ A ∈ schemaNonterminals, A < b.nonterminals.length)
    (hlhs : lhs < b.nonterminals.length)
    (h : lowerArray arena schemaNonterminals lhs schemaId array provenance b = .ok () b')
    (pattern : String → Language UInt8) (L : ℕ → Language UInt8)
    (hL : ∀ item A, arena.isNever item = true → schemaNonterminals[item]? = some A → L A = 0) :
    ∃ new, b'.productions = b.productions ++ new ∧ ∀ x,
      Yields (OpenRule b.nonterminals.length new) (openLanguage pattern b'.terminals L)
        [.nonterminal lhs] x ↔ x ∈ array.language schemaNonterminals L := by
  have hnever : ∀ item, arena.isNever item = true →
      ∃ A, schemaNonterminals[item]? = some A ∧ L A = 0 := by
    intro item hn
    have hlt : item < schemaNonterminals.length := by
      rw [hlen]
      by_contra hge
      rw [SchemaArena.isNever, SchemaArena.node, List.getElem?_eq_none (not_lt.1 hge)] at hn
      cases hn
    exact ⟨_, List.getElem?_eq_getElem hlt, hL item _ hn (List.getElem?_eq_getElem hlt)⟩
  refine Method.wp_ok (show Returns (lowerArray arena schemaNonterminals lhs schemaId array
    provenance) (fun _ b' => ∃ new, b'.productions = b.productions ++ new ∧ ∀ x,
      Yields (OpenRule b.nonterminals.length new) (openLanguage pattern b'.terminals L)
        [.nonterminal lhs] x ↔ x ∈ array.language schemaNonterminals L) b from ?_) h
  unfold Returns lowerArray
  set effectiveMax := array.effectiveMax (array.items.any arena.isNever) with hmaxDef
  -- where too few items are possible nothing is lowered, and the language is empty
  by_cases hsmall : effectiveMax.any (· < array.minItems) = true
  · rw [if_pos hsmall]
    refine ⟨[], (List.append_nil _).symm, fun x => ⟨fun hx => ?_, ?_⟩⟩
    · obtain ⟨γ, ⟨q, hq, -⟩, -⟩ := yields_nonterminal_iff.1 hx
      cases hq
    · rintro ⟨es, hmin, hmax, hes, -⟩
      cases hm : effectiveMax with
      | none => simp [hm] at hsmall
      | some m =>
        have hle := le_effectiveMax hnever hmax hes (hmaxDef ▸ hm)
        rw [hm] at hsmall
        simp only [Option.any_some, decide_eq_true_iff] at hsmall
        omega
  · rw [if_neg hsmall]
    simp only [Method.wp_bind, Method.wp_require, Method.wp_get]
    refine ⟨fun hbounded => ⟨fun hrest => ⟨fun _ => ⟨fun _ => ⟨fun _ => ?_, fun _ => trivial⟩,
      fun _ => trivial⟩, fun _ => trivial⟩, fun _ => trivial⟩, fun _ => trivial⟩
    set last := effectiveMax.getD (max (max array.prefixItems.length array.minItems) 1) with hlast
    refine Method.wp_mono (addNonterminals_returns (List.range (last + 1)) hb) ?_
    rintro states b₁ ⟨rfl, hb₁, hterminals₁, hproductions₁⟩
    rw [List.length_range, Method.wp_bind]
    refine Method.wp_mono (lowerPositions_returns hb₁ _ fun index hindex =>
      Nat.lt_succ_iff.1 (List.mem_range.1 hindex)) ?_
    rintro - b₂ ⟨new, hadds₂, hlowered⟩
    rw [Method.wp_bind]
    refine Method.wp_mono (addLiteral_adds hadds₂.cacheSound) ?_
    rintro opening b₃ ⟨hadds₃, hopening⟩
    rw [Method.wp_bind]
    refine Method.wp_mono (addLiteral_adds hadds₃.cacheSound) ?_
    rintro closing b₄ ⟨hadds₄, hclosing⟩
    have hfirst : ((List.range (last + 1)).map (b.nonterminals.length + ·))[0]? =
        some b.nonterminals.length := by simp
    rw [hfirst, Method.wp_bind, Method.wp_unwrap_some, Method.wp_bind]
    refine Method.wp_mono (addProduction_adds hadds₄.cacheSound) ?_
    rintro id b₅ hadds₅
    have hadds := ((hadds₂.trans hadds₃).trans hadds₄).trans hadds₅
    refine ⟨new ++ [⟨id, lhs, [.terminal opening, .nonterminal b.nonterminals.length,
      .terminal closing], provenance⟩], by simp [hadds.productions, hproductions₁], fun x => ?_⟩
    have hshape : Shape array effectiveMax last := by
      constructor
      · intro m hm
        rw [hlast, hm]
        rfl
      · intro hm
        rw [hlast, hm, Option.getD_none]
        omega
    have hlowered' := hlowered.mono ((hadds₃.trans hadds₄).trans hadds₅).terminals
    -- the productions' language is that of the state automaton, compared with the array's below
    rw [hlowered'.yields_iff hshape hlt hL hlhs
      (hopening.mono (hadds₄.trans hadds₅).terminals) (hclosing.mono hadds₅.terminals)]
    refine (mem_language_iff hnever (fun m hm hitems => ?_) (fun hm hitems => ?_) ?_).symm
    · by_contra hlt'
      refine hrest ⟨?_, hitems⟩
      rw [← hmaxDef] at hm
      simpa [hm] using hlt'
    · exact hbounded ⟨hm, hitems⟩
    · intro k item hk hitem
      -- an item that is never valid is not lowered; any other has left its nonterminal behind
      by_cases hn : arena.isNever item = true
      · obtain ⟨A, hA, -⟩ := hnever item hn
        exact ⟨A, hA⟩
      · have hkle : ∀ m, effectiveMax = some m → k ≤ m := fun m hm => (hk m hm).le
        have hat : ItemAt arena array effectiveMax (min k last) item := by
          refine ⟨?_, (hshape.position hkle).1.trans hitem, by simpa using hn⟩
          cases hm : effectiveMax with
          | none => rfl
          | some m =>
            have := hk m (hmaxDef ▸ hm)
            simp only [Option.any_some, decide_eq_false_iff_not]
            omega
        obtain ⟨q, -, -, comma, A, -, hA, -⟩ :=
          hlowered.items _ (List.mem_range.2 (by omega)) item hat
        exact ⟨A, hA⟩

/-- An array of at most one Boolean: `prefixItems` with `items: false`. -/
def optionalFlag : SchemaArena where
  root := 0
  nodes := [⟨0, .root, .array ⟨[1], some 2, 0, none⟩⟩, ⟨1, .root, .boolean⟩, ⟨2, .root, .never⟩]

/-- The builder when the productions of the first node of `optionalFlag` are added. -/
def optionalFlagBuilder : GrammarBuilder :=
  { GrammarBuilder.new CompileLimits.default with
    nonterminals := [⟨0, "schema_0", .root⟩, ⟨1, "schema_1", .root⟩, ⟨2, "schema_2", .root⟩] }

/-- The Booleans for node 1, and nothing for node 2. -/
def flagLanguage (A : ℕ) : Language UInt8 :=
  if A = 1 then {utf8Bytes "true", utf8Bytes "false"} else 0

theorem lowerArray_exact_optionalFlag :
    ∃ b' new, lowerArray optionalFlag [0, 1, 2] 0 0 ⟨[1], some 2, 0, none⟩ .root
        optionalFlagBuilder = .ok () b' ∧
      b'.productions = optionalFlagBuilder.productions ++ new ∧ ∀ x,
        Yields (OpenRule 3 new) (openLanguage (fun _ => 0) b'.terminals flagLanguage)
          [.nonterminal 0] x ↔
            x ∈ ArrayConstraints.language [0, 1, 2] ⟨[1], some 2, 0, none⟩ flagLanguage := by
  obtain ⟨new, h⟩ := @lowerArray_exact optionalFlag [0, 1, 2] optionalFlagBuilder _ 0 0
    ⟨[1], some 2, 0, none⟩ .root (new_cacheSound .default) rfl (by decide)
      (by decide) rfl (fun _ => 0)
    flagLanguage fun item A hn hA => by
      match item with
      | 0 | 1 => cases hn
      | 2 => cases hA; rfl
      | item + 3 => cases hn
  exact ⟨_, new, rfl, h⟩

end OcEarley

import OcEarley.Base.Lists
import OcEarley.Formal.Chart
import OcEarley.Grammar.Residual

/-!
# Prepared Earley grammars

`CompiledEarley.build` numbers the dotted rules of a residual grammar, production by production,
with the augmented start production last.  `CompiledEarley.Laid` describes the table it lays out,
and `CompiledEarley.dottedGrammar` reads the table as the dotted rules of a grammar.
-/

namespace OcEarley

/-- A production with a dot in its right-hand side, with the symbol after the dot and the id of the
rule whose dot stands behind that symbol. -/
structure DottedRule where
  production : ℕ
  dot : ℕ
  next : Option GrammarSymbol
  advanced : Option ℕ
  lhs : ℕ
  deriving DecidableEq, Repr

/-- A production as the recognizer needs it. -/
structure EarleyProduction where
  lhs : ℕ
  rhs : List GrammarSymbol
  deriving DecidableEq, Repr

/-- The tables of an Earley recognizer: the rules of a production stand one after the other from its
offset on, and one more production leads to the start symbol. -/
structure CompiledEarley where
  grammar : ResidualGrammar
  productions : List EarleyProduction
  dotted : List DottedRule
  dottedOffsets : List ℕ
  startsByLhs : List (List ℕ)
  augmentedProduction : ℕ
  augmentedComplete : ℕ
  nullableNonterminals : ℕ
  leoEligibleRules : ℕ

/-- `u32::try_from` with the limit error of the preparation. -/
def earleyToU32 (value : ℕ) : Except CompileError ℕ := do
  Result.require (value ≤ u32Max) (.resourceLimitExceeded .earleyPreparation value u32Max)
  pure value

@[simp] theorem earleyToU32_eq_ok {value id : ℕ} :
    earleyToU32 value = .ok id ↔ id = value ∧ value ≤ u32Max := by
  simp only [earleyToU32, Result.bind_eq_ok, Result.require_eq_ok, Result.pure_eq_ok, exists_const]
  exact ⟨fun h => ⟨h.2.symm, h.1⟩, fun h => ⟨h.2, h.1.symm⟩⟩

namespace CompiledEarley

/-- The tables filled by the loop over the productions. -/
structure Tables where
  dotted : List DottedRule
  dottedOffsets : List ℕ
  startsByLhs : List (List ℕ)

/-- The body of the loop over the dot positions of a production. -/
def pushDotted (productionId : ℕ) (production : EarleyProduction) (dotted : List DottedRule)
    (dot : ℕ) : Except CompileError (List DottedRule) := do
  let id ← earleyToU32 dotted.length
  Result.require (dot ≤ u32Max) (.internalInvariant "production length does not fit u32")
  pure (dotted ++ [{
    production := productionId
    dot := dot
    next := production.rhs[dot]?
    advanced := if dot < production.rhs.length then some (min (id + 1) u32Max) else none
    lhs := production.lhs }])

/-- The body of the loop over the productions. -/
def pushProduction (limits : CompileLimits) (tables : Tables)
    (entry : EarleyProduction × ℕ) : Except CompileError Tables := do
  let (production, productionId) := entry
  enforceCompileLimit .earleyPreparation
    (saturatingAdd (saturatingAdd tables.dotted.length production.rhs.length) 1)
    limits.maxLrItems
  let offset ← earleyToU32 tables.dotted.length
  Result.require (production.lhs < tables.startsByLhs.length) .panicked
  let productionId ← earleyToU32 productionId
  let dotted ← (List.range (production.rhs.length + 1)).foldlM
    (pushDotted productionId production) tables.dotted
  pure {
    dotted := dotted
    dottedOffsets := tables.dottedOffsets ++ [offset]
    startsByLhs := tables.startsByLhs.modify production.lhs (· ++ [offset]) }

/-- `rhs.last()` is a nonterminal. -/
def leoEligible (production : EarleyProduction) : Bool :=
  match production.rhs.getLast? with
  | some (.nonterminal _) => true
  | _ => false

/-- The tables of a grammar, laid out production by production. -/
def build (grammar : ResidualGrammar) (limits : CompileLimits) :
    Except CompileError CompiledEarley := do
  let augmented ← earleyToU32 grammar.nonterminals.length
  let productions := grammar.productions.map fun production =>
    ({ lhs := production.lhs, rhs := production.rhs } : EarleyProduction)
  let augmentedProduction ← earleyToU32 productions.length
  -- the production of the augmented start symbol comes last
  let productions := productions ++ [{ lhs := augmented, rhs := [.nonterminal grammar.start] }]
  let tables ← productions.zipIdx.foldlM (pushProduction limits)
    { dotted := [], dottedOffsets := [],
      startsByLhs := List.replicate (grammar.nonterminals.length + 1) [] }
  match tables.dottedOffsets[augmentedProduction]? with
  | none => throw .panicked
  | some offset =>
    Result.require (offset + 1 ≤ u32Max)
      (.internalInvariant "augmented dotted rule overflowed")
    pure {
      grammar := grammar
      productions := productions
      dotted := tables.dotted
      dottedOffsets := tables.dottedOffsets
      startsByLhs := tables.startsByLhs
      augmentedProduction := augmentedProduction
      augmentedComplete := offset + 1
      nullableNonterminals := grammar.nullable.countP id
      leoEligibleRules := productions.countP leoEligible }

/-! ### The layout -/

/-- The dotted rule of a production laid out from an offset. -/
def ruleAt (p : ℕ) (production : EarleyProduction) (offset dot : ℕ) : DottedRule where
  production := p
  dot := dot
  next := production.rhs[dot]?
  advanced := if dot < production.rhs.length then some (offset + dot + 1) else none
  lhs := production.lhs

theorem pushDotted_eq_ok {p dot : ℕ} {production : EarleyProduction}
    {dotted dotted' : List DottedRule} :
    pushDotted p production dotted dot = .ok dotted' ↔
      dotted.length ≤ u32Max ∧ dot ≤ u32Max ∧ dotted' = dotted ++ [{
        production := p, dot := dot, next := production.rhs[dot]?,
        advanced := if dot < production.rhs.length then some (min (dotted.length + 1) u32Max)
          else none,
        lhs := production.lhs }] := by
  simp only [pushDotted, Result.bind_eq_ok, earleyToU32_eq_ok, Result.require_eq_ok,
    Result.pure_eq_ok, exists_const]
  constructor
  · rintro ⟨_, ⟨rfl, hle⟩, hdot, rfl⟩
    exact ⟨hle, hdot, rfl⟩
  · rintro ⟨hle, hdot, rfl⟩
    exact ⟨_, ⟨rfl, hle⟩, hdot, rfl⟩

theorem pushDotted_loop {p : ℕ} {production : EarleyProduction} {dotted dotted' : List DottedRule}
    (h : (List.range (production.rhs.length + 1)).foldlM (pushDotted p production) dotted =
      .ok dotted') :
    dotted'.length = dotted.length + production.rhs.length + 1 ∧ dotted'.length ≤ u32Max + 1 ∧
      dotted <+: dotted' ∧ ∀ dot ≤ production.rhs.length,
        dotted'[dotted.length + dot]? = some (ruleAt p production dotted.length dot) := by
  -- `n` rules written so far; their successors fit a `u32` once the next one is written
  have key := Result.foldlM_induction (I := fun l d => ∀ n, l = List.range n →
    d.length = dotted.length + n ∧ (n ≠ 0 → d.length ≤ u32Max + 1) ∧ dotted <+: d ∧
      ∀ dot < n, d[dotted.length + dot]? = some { ruleAt p production dotted.length dot with
        advanced := if dot < production.rhs.length
          then some (min (dotted.length + dot + 1) u32Max) else none }) h ?_ ?_
  · obtain ⟨hlen, hle, hpre, hget⟩ := key _ rfl
    have hle := hle (by omega)
    refine ⟨by omega, hle, hpre, fun dot hdot => ?_⟩
    rw [hget dot (by omega)]
    by_cases hlt : dot < production.rhs.length
    · simp only [ruleAt, if_pos hlt,
        Nat.min_eq_left (show dotted.length + dot + 1 ≤ u32Max by omega)]
    · simp only [ruleAt, if_neg hlt]
  · intro n hn
    obtain rfl : n = 0 := List.range_eq_nil.1 hn.symm
    exact ⟨rfl, fun h => absurd rfl h, List.prefix_refl _, fun _ h => absurd h (Nat.not_lt_zero _)⟩
  · intro l dot d d' ih hd' n hn
    obtain ⟨m, rfl⟩ : ∃ m, n = m + 1 := by
      cases n with
      | zero => simp at hn
      | succ m => exact ⟨m, rfl⟩
    rw [List.range_succ] at hn
    obtain ⟨rfl, rfl⟩ := List.append_singleton_inj.1 hn
    obtain ⟨hlen, -, hpre, hget⟩ := ih dot rfl
    obtain ⟨hle, -, rfl⟩ := pushDotted_eq_ok.1 hd'
    refine ⟨by rw [List.length_append, List.length_singleton, hlen]; omega,
      fun _ => by rw [List.length_append, List.length_singleton]; omega,
      hpre.trans (List.prefix_append _ _), fun k hk => ?_⟩
    rcases Nat.lt_succ_iff_lt_or_eq.1 hk with hk | rfl
    · rw [List.getElem?_append_left (by omega)]
      exact hget k hk
    · rw [List.getElem?_append_right (by omega), hlen, Nat.sub_self]
      rfl

/-- The tables describe the productions read so far. -/
structure Tables.Laid (symbols : ℕ) (entries : List (EarleyProduction × ℕ)) (t : Tables) :
    Prop where
  length_offsets : t.dottedOffsets.length = entries.length
  length_starts : t.startsByLhs.length = symbols
  length_dotted : t.dotted.length ≤ u32Max + 1
  rule : ∀ {k : ℕ} {production p}, entries[k]? = some (production, p) →
    ∃ offset, t.dottedOffsets[k]? = some offset ∧ production.lhs < symbols ∧
      ∀ dot ≤ production.rhs.length, t.dotted[offset + dot]? = some (ruleAt p production offset dot)
  cover : ∀ d < t.dotted.length, ∃ (k : ℕ) (production : EarleyProduction) (p offset dot : ℕ),
    entries[k]? = some (production, p) ∧ t.dottedOffsets[k]? = some offset ∧
      dot ≤ production.rhs.length ∧ d = offset + dot
  starts : ∀ {A offset}, offset ∈ t.startsByLhs[A]?.getD [] ↔
    ∃ (k : ℕ) (production : EarleyProduction) (p : ℕ), entries[k]? = some (production, p) ∧
      production.lhs = A ∧ t.dottedOffsets[k]? = some offset

theorem Tables.Laid.push {symbols : ℕ} {entries : List (EarleyProduction × ℕ)} {t t' : Tables}
    {limits : CompileLimits} {entry : EarleyProduction × ℕ} (h : t.Laid symbols entries)
    (ht : pushProduction limits t entry = .ok t') : t'.Laid symbols (entries ++ [entry]) := by
  obtain ⟨production, p⟩ := entry
  simp only [pushProduction, Result.bind_eq_ok, earleyToU32_eq_ok, Result.require_eq_ok,
    Result.pure_eq_ok, enforceCompileLimit] at ht
  obtain ⟨-, -, _, ⟨rfl, -⟩, -, hlhs, _, ⟨rfl, -⟩, dotted, hdotted, rfl⟩ := ht
  obtain ⟨hlen, hle, hpre, hget⟩ := pushDotted_loop hdotted
  have hold : ∀ {d r}, t.dotted[d]? = some r → dotted[d]? = some r := fun {d r} hd => by
    obtain ⟨rest, rfl⟩ := hpre
    rw [List.getElem?_append_left (List.getElem?_eq_some_iff.1 hd).1, hd]
  have hoff : ∀ {k offset : ℕ}, (t.dottedOffsets ++ [t.dotted.length])[k]? = some offset ↔
      t.dottedOffsets[k]? = some offset ∨ k = entries.length ∧ offset = t.dotted.length := by
    intro k offset
    rw [← h.length_offsets]
    exact getElem?_snoc
  -- the rules that were there stay where they are; those of the production follow them
  have hpush := (h.length_starts ▸ hlhs : production.lhs < symbols)
  refine ⟨?_, ?_, ?_, ?_, ?_, ?_⟩
  · simp [h.length_offsets]
  · simp [h.length_starts]
  · exact hle
  · intro k production' p' hk
    rcases getElem?_snoc.1 hk with hk | ⟨rfl, heq⟩
    · obtain ⟨offset, ho, hlt, hr⟩ := h.rule hk
      exact ⟨offset, hoff.2 (.inl ho), hlt, fun dot hdot => hold (hr dot hdot)⟩
    · cases heq
      exact ⟨_, hoff.2 (.inr ⟨rfl, rfl⟩), hpush, hget⟩
  · intro d hd
    by_cases hlt : d < t.dotted.length
    · obtain ⟨k, production', p', offset, dot, hk, ho, hdot, rfl⟩ := h.cover d hlt
      exact ⟨k, production', p', offset, dot, getElem?_snoc.2 (.inl hk), hoff.2 (.inl ho), hdot,
        rfl⟩
    · change d < dotted.length at hd
      exact ⟨entries.length, production, _, t.dotted.length, d - t.dotted.length,
        getElem?_snoc.2 (.inr ⟨rfl, rfl⟩), hoff.2 (.inr ⟨rfl, rfl⟩), by omega, by omega⟩
  · intro A offset
    have hmod : offset ∈ (t.startsByLhs.modify production.lhs (· ++ [t.dotted.length]))[A]?.getD []
        ↔ offset ∈ t.startsByLhs[A]?.getD [] ∨ production.lhs = A ∧ offset = t.dotted.length := by
      rw [List.getElem?_modify]
      by_cases hA : production.lhs = A
      · subst hA
        simp [List.getElem?_eq_getElem hlhs]
      · simp [hA]
    rw [hmod, h.starts]
    constructor
    · rintro (⟨k, production', p', hk, hA, ho⟩ | ⟨hA, rfl⟩)
      · exact ⟨k, production', p', getElem?_snoc.2 (.inl hk), hA, hoff.2 (.inl ho)⟩
      · exact ⟨_, production, _, getElem?_snoc.2 (.inr ⟨rfl, rfl⟩), hA, hoff.2 (.inr ⟨rfl, rfl⟩)⟩
    · rintro ⟨k, production', p', hk, hA, ho⟩
      rcases getElem?_snoc.1 hk with hk | ⟨rfl, heq⟩
      · rcases hoff.1 ho with ho | ⟨rfl, rfl⟩
        · exact .inl ⟨k, production', p', hk, hA, ho⟩
        · exact absurd (List.getElem?_eq_some_iff.1 hk).1 (lt_irrefl _)
      · cases heq
        rcases hoff.1 ho with ho | ⟨-, rfl⟩
        · have := (List.getElem?_eq_some_iff.1 ho).1
          rw [h.length_offsets] at this
          exact absurd this (lt_irrefl _)
        · exact .inr ⟨hA, rfl⟩

/-! ### Reading the tables -/

/-- What `build` establishes about the tables. -/
structure Laid (e : CompiledEarley) : Prop where
  length_dotted : e.dotted.length ≤ u32Max + 1
  length_starts : e.startsByLhs.length = e.grammar.nonterminals.length + 1
  productions_eq : e.productions =
    e.grammar.productions.map (fun p => ⟨p.lhs, p.rhs⟩) ++
      [⟨e.grammar.nonterminals.length, [.nonterminal e.grammar.start]⟩]
  augmented_eq : e.augmentedProduction = e.grammar.productions.length
  rule : ∀ {d r}, e.dotted[d]? = some r → ∃ p, e.productions[r.production]? = some p ∧
    r.dot ≤ p.rhs.length ∧ r.lhs = p.lhs ∧ r.next = p.rhs[r.dot]? ∧
      r.advanced = (if r.dot < p.rhs.length then some (d + 1) else none) ∧
      (r.dot < p.rhs.length → ∃ r', e.dotted[d + 1]? = some r' ∧
        r'.production = r.production ∧ r'.dot = r.dot + 1)
  starts : ∀ {A d}, d ∈ e.startsByLhs[A]?.getD [] ↔
    ∃ r : DottedRule, e.dotted[d]? = some r ∧ r.lhs = A ∧ r.dot = 0
  laid : ∀ {p production}, e.productions[p]? = some production →
    ∃ (d : ℕ) (r : DottedRule), e.dotted[d]? = some r ∧ r.production = p ∧ r.dot = 0
  init : ∃ (d : ℕ) (r : DottedRule), e.dottedOffsets[e.augmentedProduction]? = some d ∧
    e.dotted[d]? = some r ∧
    r.production = e.augmentedProduction ∧ r.dot = 0 ∧ e.augmentedComplete = d + 1

/-- The rules laid out by the loop. -/
theorem Tables.Laid.exists_ruleAt {symbols : ℕ} {entries : List (EarleyProduction × ℕ)}
    {t : Tables} (h : t.Laid symbols entries) {d : ℕ} {r : DottedRule}
    (hd : t.dotted[d]? = some r) : ∃ (k : ℕ) (production : EarleyProduction) (p offset dot : ℕ),
      entries[k]? = some (production, p) ∧ t.dottedOffsets[k]? = some offset ∧
        dot ≤ production.rhs.length ∧ d = offset + dot ∧ r = ruleAt p production offset dot := by
  obtain ⟨k, production, p, offset, dot, hk, ho, hdot, rfl⟩ :=
    h.cover d (List.getElem?_eq_some_iff.1 hd).1
  obtain ⟨offset', ho', -, hr⟩ := h.rule hk
  obtain rfl := Option.some.inj (ho.symm.trans ho')
  exact ⟨k, production, p, offset, dot, hk, ho, hdot, rfl,
    Option.some.inj (hd.symm.trans (hr dot hdot))⟩

theorem build_laid {g : ResidualGrammar} {limits : CompileLimits} {e : CompiledEarley}
    (h : build g limits = .ok e) : e.grammar = g ∧ e.Laid := by
  simp only [build, Result.bind_eq_ok, earleyToU32_eq_ok] at h
  obtain ⟨_, ⟨rfl, -⟩, _, ⟨rfl, -⟩, t, ht, h⟩ := h
  split at h
  · simp at h
  rename_i start hstart
  simp only [Result.bind_eq_ok, Result.require_eq_ok, Result.pure_eq_ok] at h
  obtain ⟨-, -, rfl⟩ := h
  refine ⟨rfl, ?_⟩
  set productions : List EarleyProduction := g.productions.map (fun p => ⟨p.lhs, p.rhs⟩) ++
    [⟨g.nonterminals.length, [.nonterminal g.start]⟩] with hproductions
  -- the tables are laid out production by production, the augmented one last
  have hlaid : t.Laid (g.nonterminals.length + 1) productions.zipIdx := by
    refine Result.foldlM_induction (I := fun l t => t.Laid (g.nonterminals.length + 1) l) ht ?_ ?_
    · refine ⟨rfl, by simp, by simp, by simp, by simp, fun {A offset} => ?_⟩
      rw [List.getElem?_replicate]
      split <;> simp
    · exact fun entries entry t t' h h' => h.push h'
  have hentry : ∀ {k : ℕ} {production p}, productions.zipIdx[k]? = some (production, p) ↔
      p = k ∧ productions[k]? = some production := by
    intro k production p
    rw [List.getElem?_zipIdx, Option.map_eq_some_iff]
    simp only [Prod.mk.injEq, Nat.zero_add]
    constructor
    · rintro ⟨q, hq, h, hp⟩
      exact ⟨hp.symm, h ▸ hq⟩
    · rintro ⟨hp, hq⟩
      exact ⟨_, hq, rfl, hp.symm⟩
  refine ⟨hlaid.length_dotted, hlaid.length_starts, rfl, by simp, ?_, ?_, ?_, ?_⟩
  · intro d r hd
    obtain ⟨k, production, p, offset, dot, hk, ho, hdot, rfl, rfl⟩ := hlaid.exists_ruleAt hd
    obtain ⟨rfl, hprod⟩ := hentry.1 hk
    refine ⟨production, hprod, hdot, rfl, rfl, rfl, fun hlt => ?_⟩
    obtain ⟨offset', ho', -, hr⟩ := hlaid.rule hk
    obtain rfl := Option.some.inj (ho.symm.trans ho')
    exact ⟨_, hr (dot + 1) hlt, rfl, rfl⟩
  · intro A d
    rw [hlaid.starts]
    constructor
    · rintro ⟨k, production, p, hk, hA, ho⟩
      obtain ⟨offset, ho', -, hr⟩ := hlaid.rule hk
      obtain rfl := Option.some.inj (ho.symm.trans ho')
      exact ⟨_, hr 0 (Nat.zero_le _), hA, rfl⟩
    · rintro ⟨r, hd, hA, hdot⟩
      obtain ⟨k, production, p, offset, dot, hk, ho, -, rfl, rfl⟩ := hlaid.exists_ruleAt hd
      obtain rfl : dot = 0 := hdot
      exact ⟨k, production, p, hk, hA, ho⟩
  · intro p production hp
    obtain ⟨offset, -, -, hr⟩ := hlaid.rule (hentry.2 ⟨rfl, hp⟩)
    exact ⟨_, _, hr 0 (Nat.zero_le _), rfl, rfl⟩
  · have hp : productions[g.productions.length]? =
        some ⟨g.nonterminals.length, [.nonterminal g.start]⟩ := by
      rw [hproductions, List.getElem?_append_right (by simp)]
      simp
    obtain ⟨offset, ho, -, hr⟩ := hlaid.rule (hentry.2 ⟨rfl, hp⟩)
    rw [List.length_map, ho] at hstart
    obtain rfl := Option.some.inj hstart
    refine ⟨offset, _, by rw [List.length_map]; exact ho, hr 0 (Nat.zero_le _), ?_, rfl, rfl⟩
    simp [ruleAt]

variable (e : CompiledEarley)

/-- The symbols after the dot of a dotted rule. -/
def rest (d : ℕ) : List GrammarSymbol :=
  match e.dotted[d]? with
  | none => []
  | some r => (e.productions[r.production]?.map EarleyProduction.rhs).getD [] |>.drop r.dot

/-- The left-hand side of a dotted rule. -/
def lhs (d : ℕ) : ℕ :=
  match e.dotted[d]? with
  | none => e.grammar.nonterminals.length
  | some r => r.lhs

/-- The dotted start rule. -/
def start : ℕ := e.dottedOffsets[e.augmentedProduction]?.getD 0

variable {e} {d : ℕ} {r : DottedRule}

theorem lhs_eq (hd : e.dotted[d]? = some r) : e.lhs d = r.lhs := by simp [lhs, hd]

namespace Laid

variable (h : e.Laid)
include h

theorem rest_eq (hd : e.dotted[d]? = some r) :
    ∃ p, e.productions[r.production]? = some p ∧ e.rest d = p.rhs.drop r.dot := by
  obtain ⟨p, hp, -⟩ := h.rule hd
  exact ⟨p, hp, by simp [rest, hd, hp]⟩

/-- `next` is the symbol after the dot. -/
theorem next_eq (hd : e.dotted[d]? = some r) : r.next = (e.rest d).head? := by
  obtain ⟨p, hp, -, -, hnext, -⟩ := h.rule hd
  rw [hnext]
  simp [rest, hd, hp, List.head?_drop]

/-- `advanced` is the next id, unless the dot is at the end. -/
theorem advanced_eq (hd : e.dotted[d]? = some r) :
    r.advanced = (e.rest d).head?.map fun _ => d + 1 := by
  obtain ⟨p, hp, -, -, -, hadv, -⟩ := h.rule hd
  have hrest : e.rest d = p.rhs.drop r.dot := by simp [rest, hd, hp]
  rw [hadv, hrest, List.head?_drop]
  by_cases hlt : r.dot < p.rhs.length
  · simp [hlt]
  · simp [hlt]

/-- Moving the dot over a symbol. -/
theorem advance_spec {s : GrammarSymbol} {β : List GrammarSymbol} (hr : e.rest d = s :: β) :
    ∃ r r', e.dotted[d]? = some r ∧ e.dotted[d + 1]? = some r' ∧ r'.production = r.production ∧
      r'.lhs = r.lhs ∧ e.rest (d + 1) = β := by
  cases hd : e.dotted[d]? with
  | none => simp [rest, hd] at hr
  | some r =>
    obtain ⟨p, hp, hdot, hlhs, -, -, hsucc⟩ := h.rule hd
    have hrest : e.rest d = p.rhs.drop r.dot := by simp [rest, hd, hp]
    have hlt : r.dot < p.rhs.length := by
      by_contra hle
      rw [hrest, List.drop_eq_nil_of_le (not_lt.1 hle)] at hr
      simp at hr
    obtain ⟨r', hd', hprod, hdot'⟩ := hsucc hlt
    obtain ⟨p', hp', -, hlhs', -⟩ := h.rule hd'
    rw [hprod] at hp'
    obtain rfl := Option.some.inj (hp.symm.trans hp')
    refine ⟨r, r', rfl, hd', hprod, hlhs'.trans hlhs.symm, ?_⟩
    have : e.rest (d + 1) = p.rhs.drop (r.dot + 1) := by simp [rest, hd', hprod, hp, hdot']
    rw [this, ← List.drop_drop, ← hrest, hr]
    rfl

/-- A dotted rule belongs to a production of the grammar, or to the augmented one. -/
theorem production_cases (hd : e.dotted[d]? = some r) :
    (∃ p ∈ e.grammar.productions, r.production < e.grammar.productions.length ∧ r.lhs = p.lhs ∧
      e.rest d = p.rhs.drop r.dot) ∨
    (r.production = e.augmentedProduction ∧ r.lhs = e.grammar.nonterminals.length ∧
      e.rest d = [Symbol.nonterminal e.grammar.start].drop r.dot) := by
  obtain ⟨p, hp, -, hlhs, -⟩ := h.rule hd
  have hrest : e.rest d = p.rhs.drop r.dot := by simp [rest, hd, hp]
  rw [h.productions_eq, getElem?_snoc, List.length_map, List.getElem?_map,
    Option.map_eq_some_iff] at hp
  rcases hp with ⟨q, hq, rfl⟩ | ⟨hprod, rfl⟩
  · exact .inl ⟨q, List.mem_of_getElem? hq, (List.getElem?_eq_some_iff.1 hq).1, hlhs, hrest⟩
  · exact .inr ⟨hprod.trans h.augmented_eq.symm, hlhs, hrest⟩

theorem start_spec : ∃ r, e.dotted[e.start]? = some r ∧ r.production = e.augmentedProduction ∧
    r.lhs = e.grammar.nonterminals.length ∧ e.rest e.start = [.nonterminal e.grammar.start] ∧
      e.augmentedComplete = e.start + 1 := by
  obtain ⟨d, r, ho, hd, hprod, hdot, hcomp⟩ := h.init
  have hs : e.start = d := by simp [start, ho]
  rw [hs]
  rcases h.production_cases hd with ⟨p, -, hlt, -⟩ | ⟨-, hlhs, hrest⟩
  · rw [hprod, h.augmented_eq] at hlt
    exact absurd hlt (lt_irrefl _)
  · exact ⟨r, hd, hprod, hlhs, by rw [hrest, hdot]; rfl, hcomp⟩

/-- The symbols after a dot are in range. -/
theorem rest_inRange (hg : e.grammar.WellFormed) (d : ℕ) :
    ∀ s ∈ e.rest d, e.grammar.SymbolInRange s := by
  cases hd : e.dotted[d]? with
  | none => simp [rest, hd]
  | some r =>
    rcases h.production_cases hd with ⟨p, hp, -, -, hrest⟩ | ⟨-, -, hrest⟩
    · exact fun s hs => hg.rhs_inRange p hp s (List.mem_of_mem_drop (hrest ▸ hs))
    · intro s hs
      obtain rfl := List.mem_singleton.1 (List.mem_of_mem_drop (hrest ▸ hs))
      exact hg.start_lt

/-- A dotted rule belongs to the augmented production iff its left-hand side
is the augmented start. -/
theorem production_eq_augmented_iff (hg : e.grammar.WellFormed) (hd : e.dotted[d]? = some r) :
    r.production = e.augmentedProduction ↔ e.lhs d = e.grammar.nonterminals.length := by
  rw [lhs_eq hd]
  rcases h.production_cases hd with ⟨p, hp, hlt, hlhs, -⟩ | ⟨hprod, hlhs, -⟩
  · have := hg.lhs_lt p hp
    rw [h.augmented_eq, hlhs]
    omega
  · simp [hprod, hlhs]

end Laid

/-- The table read as the dotted rules of a grammar. -/
def dottedGrammar (e : CompiledEarley) (h : e.Laid) (hg : e.grammar.WellFormed) :
    DottedGrammar ℕ ℕ ℕ where
  lhs := e.lhs
  rest := e.rest
  advance d := d + 1
  starts A d := A < e.grammar.nonterminals.length ∧ d ∈ e.startsByLhs[A]?.getD []
  init := e.start
  rest_advance hr := by
    obtain ⟨-, -, -, -, -, -, hrest⟩ := h.advance_spec hr
    exact hrest
  lhs_advance hr := by
    obtain ⟨r, r', hd, hd', -, hlhs, -⟩ := h.advance_spec hr
    rw [lhs_eq hd, lhs_eq hd', hlhs]
  lhs_starts hA := by
    obtain ⟨r, hd, hlhs, -⟩ := h.starts.1 hA.2
    rw [lhs_eq hd, hlhs]
  init_fresh {d A β} hr := by
    obtain ⟨r, hd, -, hlhs, -⟩ := h.start_spec
    have : A < e.grammar.nonterminals.length :=
      h.rest_inRange hg d (.nonterminal A) (hr ▸ List.mem_cons_self)
    rw [lhs_eq hd, hlhs]
    omega

/-- The productions of the table are those of the grammar. -/
theorem dottedGrammar_rule (h : e.Laid) (hg : e.grammar.WellFormed) :
    (e.dottedGrammar h hg).Rule = e.grammar.Rule := by
  funext A γ
  refine propext ⟨?_, ?_⟩
  · rintro ⟨d, ⟨hA, hd⟩, hrest⟩
    obtain ⟨r, hd, hlhs, hdot⟩ := h.starts.1 hd
    rcases h.production_cases hd with ⟨p, hp, -, hlhs', hrest'⟩ | ⟨-, hlhs', -⟩
    · refine ⟨p, hp, hlhs'.symm.trans hlhs, ?_⟩
      rw [← hrest]
      exact (hrest'.trans (by rw [hdot, List.drop_zero])).symm
    · omega
  · rintro ⟨p, hp, rfl, rfl⟩
    obtain ⟨k, hk, rfl⟩ := List.getElem_of_mem hp
    have hprod : e.productions[k]? =
        some ⟨e.grammar.productions[k].lhs, e.grammar.productions[k].rhs⟩ := by
      rw [h.productions_eq, getElem?_snoc]
      exact .inl (by simp [List.getElem?_eq_getElem hk])
    obtain ⟨d, r, hd, rfl, hdot⟩ := h.laid hprod
    obtain ⟨p, hp', -, hlhs, -⟩ := h.rule hd
    obtain rfl := Option.some.inj (hprod.symm.trans hp')
    refine ⟨d, ⟨hg.lhs_lt _ hp, h.starts.2 ⟨r, hd, hlhs, hdot⟩⟩, ?_⟩
    change e.rest d = _
    simp [rest, hd, hprod, hdot]

end CompiledEarley

end OcEarley

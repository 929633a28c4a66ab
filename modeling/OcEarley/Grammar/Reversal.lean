import OcEarley.Formal.Pattern
import OcEarley.Grammar.Builder
import OcEarley.Grammar.Expression
import OcEarley.Grammar.TerminalText

/-!
# Reversal

`reversed` reads an expression from its end, with the reverse patterns of its atoms.  Where these
denote the reversed languages of the forward patterns, the result denotes the reversed language, and
reversing twice gives the language back in any case.

What a literal brings along is right.  The terminal of `null` brings its forward pattern, so that
reversal denotes reversal exactly in the grammars of schemas without `null`
(`reversal_exact`).
-/

namespace OcEarley

namespace RegularExpression

variable {α : Type*} {A B : String → Option String → Language α}
  {atoms : String → Option String → Prop} {e e' : RegularExpression}

/-! ### What a reversed expression denotes -/

theorem reverse_prod (l : List (Language α)) :
    l.prod.reverse = (l.map Language.reverse).reverse.prod := by
  induction l with
  | nil => exact Language.reverse_one
  | cons L l ih => simp [ih]

theorem reverse_sum (l : List (Language α)) : l.sum.reverse = (l.map Language.reverse).sum := by
  induction l with
  | nil => exact Language.reverse_zero
  | cons L l ih => rw [List.sum_cons, Language.reverse_add, ih, List.map_cons, List.sum_cons]

theorem reversedAll_eq_some : ∀ {es es' : List RegularExpression}, reversedAll es = some es' →
    List.Forall₂ (fun e e' => reversed e = some e') es es' := by
  intro es
  induction es with
  | nil =>
    intro es' h
    obtain rfl := Option.some.inj h
    exact .nil
  | cons e es ih =>
    intro es' h
    obtain ⟨r, hr, h⟩ := Option.bind_eq_some_iff.1 h
    obtain ⟨rs, hrs, rfl⟩ := Option.map_eq_some_iff.1 h
    exact .cons hr (ih hrs)

theorem map_language_reversedAll {es es' : List RegularExpression}
    (h : reversedAll es = some es')
    (ih : ∀ e ∈ es, ∀ e', reversed e = some e' → language B e' = (language A e).reverse) :
    es'.map (language B) = (es.map (language A)).map Language.reverse := by
  have hall := reversedAll_eq_some h
  clear h
  induction hall with
  | nil => rfl
  | cons he _ ihall =>
    obtain ⟨hhead, htail⟩ := List.forall_mem_cons.1 ih
    simp only [List.map_cons, hhead _ he, ihall htail]

theorem Proper.language_reversed (he : Proper atoms e)
    (hatoms : ∀ forward reverse, atoms forward (some reverse) →
      B reverse (some forward) = (A forward (some reverse)).reverse) :
    ∀ e', reversed e = some e' → language B e' = (language A e).reverse := by
  induction he with
  | epsilon =>
    intro e' h
    obtain rfl := Option.some.inj h
    exact Language.reverse_one.symm
  | @atom forward reverse hatom =>
    intro e' h
    obtain ⟨r, rfl, rfl⟩ := Option.map_eq_some_iff.1 h
    exact hatoms forward r hatom
  | @concat parts _ ih =>
    intro e' h
    obtain ⟨es, hes, rfl⟩ := Option.map_eq_some_iff.1 h
    rw [language_concat, List.map_reverse, map_language_reversedAll hes ih, language,
      languages_eq_map, reverse_prod]
  | @union branches _ _ ih =>
    intro e' h
    obtain ⟨es, hes, rfl⟩ := Option.map_eq_some_iff.1 h
    rw [language_union, map_language_reversedAll hes ih, language, languages_eq_map, reverse_sum]
  | star _ ih =>
    intro e' h
    obtain ⟨e, he, rfl⟩ := Option.map_eq_some_iff.1 h
    rw [language_star, ih e he, language, Language.reverse_kstar]

/-- **A reversed expression denotes the reversed language**, if its atoms do. -/
theorem Built.language_reversed (he : Built atoms e)
    (hatoms : ∀ forward reverse, atoms forward (some reverse) →
      B reverse (some forward) = (A forward (some reverse)).reverse)
    (h : reversed e = some e') : language B e' = (language A e).reverse := by
  obtain rfl | hproper := he.proper
  · obtain rfl := Option.some.inj h
    exact Language.reverse_zero.symm
  · exact hproper.language_reversed hatoms e' h

/-! ### Reversing twice -/

/-- The atoms of the reversed expressions. -/
def Flipped (atoms : String → Option String → Prop) (forward : String) (reverse : Option String) :
    Prop :=
  ∃ text, reverse = some text ∧ atoms text (some forward)

theorem Built.empty : Built atoms .empty := by
  have h : Built atoms (OcEarley.union []) := .union (by simp)
  exact h

theorem Built.epsilon : Built atoms .epsilon := by
  have h : Built atoms (OcEarley.concat []) := .concat (by simp)
  exact h

theorem built_reversedAll {es es' : List RegularExpression} (h : reversedAll es = some es')
    (ih : ∀ e ∈ es, ∀ e', reversed e = some e' → Built (Flipped atoms) e') :
    ∀ e' ∈ es', Built (Flipped atoms) e' := by
  have hall := reversedAll_eq_some h
  clear h
  induction hall with
  | nil => simp
  | cons he _ ihall =>
    obtain ⟨hhead, htail⟩ := List.forall_mem_cons.1 ih
    exact List.forall_mem_cons.2 ⟨hhead _ he, ihall htail⟩

theorem Proper.flipped (he : Proper atoms e) :
    ∀ e', reversed e = some e' → Built (Flipped atoms) e' := by
  induction he with
  | epsilon =>
    intro e' h
    obtain rfl := Option.some.inj h
    exact .epsilon
  | @atom forward reverse hatom =>
    intro e' h
    obtain ⟨r, rfl, rfl⟩ := Option.map_eq_some_iff.1 h
    exact .atom ⟨forward, rfl, hatom⟩
  | concat _ ih =>
    intro e' h
    obtain ⟨es, hes, rfl⟩ := Option.map_eq_some_iff.1 h
    exact .concat fun e he => built_reversedAll hes ih e (List.mem_reverse.1 he)
  | union _ _ ih =>
    intro e' h
    obtain ⟨es, hes, rfl⟩ := Option.map_eq_some_iff.1 h
    exact .union (built_reversedAll hes ih)
  | star _ ih =>
    intro e' h
    obtain ⟨e, he, rfl⟩ := Option.map_eq_some_iff.1 h
    exact .star (ih e he)

theorem Built.flipped (he : Built atoms e) (h : reversed e = some e') :
    Built (Flipped atoms) e' := by
  obtain rfl | hproper := he.proper
  · obtain rfl := Option.some.inj h
    exact .empty
  · exact hproper.flipped e' h

theorem Built.mono {atoms' : String → Option String → Prop} (he : Built atoms e)
    (h : ∀ forward reverse, atoms forward reverse → atoms' forward reverse) : Built atoms' e := by
  induction he with
  | atom hatom => exact .atom (h _ _ hatom)
  | concat _ ih => exact .concat ih
  | union _ ih => exact .union ih
  | star _ ih => exact .star ih

theorem flipped_flipped {forward : String} {reverse : Option String}
    (h : Flipped (Flipped atoms) forward reverse) : atoms forward reverse := by
  obtain ⟨text, rfl, back, hback, hatom⟩ := h
  cases hback
  exact hatom

theorem exists_reversedAll {es : List RegularExpression}
    (ih : ∀ e ∈ es, ∃ e', reversed e = some e') : ∃ es', reversedAll es = some es' := by
  induction es with
  | nil => exact ⟨[], rfl⟩
  | cons e es ihes =>
    obtain ⟨⟨e', he⟩, htail⟩ := List.forall_mem_cons.1 ih
    obtain ⟨es', hes⟩ := ihes htail
    exact ⟨e' :: es', by simp [reversedAll, he, hes]⟩

theorem Proper.exists_reversed (he : Proper atoms e)
    (hatoms : ∀ forward reverse, atoms forward reverse → reverse.isSome = true) :
    ∃ e', reversed e = some e' := by
  induction he with
  | epsilon => exact ⟨_, rfl⟩
  | atom h =>
    obtain ⟨text, rfl⟩ := Option.isSome_iff_exists.1 (hatoms _ _ h)
    exact ⟨_, rfl⟩
  | concat _ ih =>
    obtain ⟨es, hes⟩ := exists_reversedAll ih
    exact ⟨_, Option.map_eq_some_iff.2 ⟨es, hes, rfl⟩⟩
  | union _ _ ih =>
    obtain ⟨es, hes⟩ := exists_reversedAll ih
    exact ⟨_, Option.map_eq_some_iff.2 ⟨es, hes, rfl⟩⟩
  | star _ ih =>
    obtain ⟨e, he⟩ := ih
    exact ⟨_, Option.map_eq_some_iff.2 ⟨e, he, rfl⟩⟩

/-- **Reversing twice gives the language back**, whatever the reverse patterns denote. -/
theorem Built.reversed_twice (he : Built atoms e) (h : reversed e = some e')
    (R : String → Language α) :
    ∃ e'', reversed e' = some e'' ∧
      language (fun forward _ => R forward) e'' = language (fun forward _ => R forward) e := by
  have hflipped := he.flipped h
  obtain ⟨e'', he''⟩ : ∃ e'', reversed e' = some e'' := by
    obtain rfl | hproper := hflipped.proper
    · exact ⟨_, rfl⟩
    · refine hproper.exists_reversed ?_
      rintro forward _ ⟨text, rfl, -⟩
      rfl
  -- In between every atom stands for its reverse text read backwards.
  have hfirst : language (fun _ reverse => (reverse.elim 0 R).reverse) e' =
      (language (fun forward _ => R forward) e).reverse :=
    he.language_reversed (fun _ _ _ => rfl) h
  have hsecond : language (fun forward _ => R forward) e'' =
      (language (fun _ reverse => (reverse.elim 0 R).reverse) e').reverse :=
    hflipped.language_reversed (fun _ _ _ => (Language.reverse_reverse _).symm) he''
  rw [hfirst, Language.reverse_reverse] at hsecond
  exact ⟨e'', he'', hsecond⟩

end RegularExpression

/-! ### The expressions over the terminals of a lowered schema -/

open GrammarBuilder

namespace Grammar

/-- The atoms of the expressions over the terminals. -/
def Atoms (g : Grammar) (escape : String → String) (forward : String) (reverse : Option String) :
    Prop :=
  ∃ t ∈ g.terminals, forward = t.forwardPattern escape ∧ reverse = t.reversePattern escape

variable {g : Grammar} {escape : String → String} {R : String → Language UInt8}

theorem reverse_singleton (bytes : List UInt8) :
    ({bytes} : Language UInt8).reverse = {bytes.reverse} := by
  ext x
  exact List.reverse_eq_iff

/-- The reverse pattern of a literal. -/
theorem literal_reverse (hescape : ∀ s, R (escape s) = {utf8Bytes s}) {t : RegularTerminal}
    {bytes : List UInt8} (hkind : t.kind = .literal bytes) {reverse : String}
    (h : t.reversePattern escape = some reverse) :
    R reverse = (R (t.forwardPattern escape)).reverse := by
  rw [RegularTerminal.reversePattern, hkind] at h
  rw [RegularTerminal.forwardPattern, hkind]
  dsimp only at h ⊢
  split at h
  · next hascii =>
    obtain rfl := Option.some.inj h
    have hreverse : isAscii bytes.reverse = true := (isAscii_reverse bytes).trans hascii
    rw [hescape, hescape, utf8Bytes_fromUtf8Lossy hreverse, utf8Bytes_fromUtf8Lossy hascii,
      reverse_singleton]
  · cases h

/-- The pattern of `null` is not its own reverse. -/
theorem null_ne_reverse (hnull : R JsonPattern.null = {utf8Bytes JsonPattern.null}) :
    R JsonPattern.null ≠ (R JsonPattern.null).reverse := by
  rw [hnull, reverse_singleton]
  intro h
  have hmem : utf8Bytes JsonPattern.null ∈ ({utf8Bytes JsonPattern.null} : Language UInt8) := rfl
  rw [h] at hmem
  have hne : utf8Bytes JsonPattern.null ≠ (utf8Bytes JsonPattern.null).reverse := by decide
  exact hne hmem

/-- **Reversal over the terminals of a lowered schema.**  Reversing an expression twice gives its
language back.  Reversing it once gives the reversed language, for every expression over the
terminals, exactly when no node of the schema is `null`. -/
theorem reversal_exact (hescape : ∀ s, R (escape s) = {utf8Bytes s})
    (hnull : R JsonPattern.null = {utf8Bytes JsonPattern.null}) {arena : SchemaArena}
    {limits : CompileLimits} (hlower : lower arena limits = .ok g) :
    (∀ e e', RegularExpression.Built (g.Atoms escape) e → e.reversed = some e' →
      ∃ e'', e'.reversed = some e'' ∧
        e''.language (fun forward _ => R forward) = e.language (fun forward _ => R forward)) ∧
    ((∀ e e', RegularExpression.Built (g.Atoms escape) e → e.reversed = some e' →
      e'.language (fun forward _ => R forward) =
        (e.language fun forward _ => R forward).reverse) ↔
      ∀ node ∈ arena.nodes, node.kind ≠ .null) := by
  obtain ⟨hkinds, hnulls⟩ := lower_kinds hlower
  refine ⟨fun e e' he h => he.reversed_twice h R, fun h node hnode hkind => ?_,
    fun h e e' he hrev => ?_⟩
  · -- The atom of `null` is reversed to itself.
    obtain ⟨t, ht, htkind⟩ := hnulls node hnode hkind
    have hatom : g.Atoms escape JsonPattern.null (some JsonPattern.null) :=
      ⟨t, ht, by rw [RegularTerminal.forwardPattern, htkind],
        by rw [RegularTerminal.reversePattern, htkind]⟩
    exact null_ne_reverse hnull (h _ _ (.atom hatom) rfl)
  · refine he.language_reversed ?_ hrev
    rintro _ reverse ⟨t, ht, rfl, hreverse⟩
    obtain ⟨node, hnode, hkind⟩ := hkinds t ht
    have hne := h node hnode
    generalize node.kind = nodeKind at hkind hne
    generalize htkind : t.kind = kind at hkind
    cases hkind with
    | word _ _ => exact literal_reverse hescape htkind hreverse.symm
    | value _ => exact literal_reverse hescape htkind hreverse.symm
    | null => exact absurd rfl hne
    | scalar _ =>
      rw [RegularTerminal.reversePattern, htkind] at hreverse
      cases hreverse

theorem utf8Language_escape (s : String) : patternLanguage (Pattern.escape s) = {utf8Bytes s} :=
  patternLanguage_escape s

/-- The number twelve or null, as an enumeration. -/
def twelveOrNull : SchemaArena := ⟨0, [⟨0, .root, .enum [⟨"12"⟩, ⟨"null"⟩]⟩]⟩

theorem reversal_exact_twelveOrNull :
    ∃ g, lower twelveOrNull .default = .ok g ∧
      ∀ e e', RegularExpression.Built (g.Atoms Pattern.escape) e → e.reversed = some e' →
        e'.language (fun forward _ => patternLanguage forward) =
          (e.language fun forward _ => patternLanguage forward).reverse := by
  have hescape : JsonPattern.null = Pattern.escape JsonPattern.null := by decide +kernel
  have hnull : patternLanguage JsonPattern.null = {utf8Bytes JsonPattern.null} := by
    rw [hescape, utf8Language_escape, ← hescape]
  have hok : (lower twelveOrNull .default).isOk = true := by decide +kernel
  cases hlower : lower twelveOrNull .default with
  | error e =>
    rw [hlower] at hok
    cases hok
  | ok g =>
    exact ⟨g, rfl, (reversal_exact utf8Language_escape hnull hlower).2.2 (by simp [twelveOrNull])⟩

end Grammar

end OcEarley

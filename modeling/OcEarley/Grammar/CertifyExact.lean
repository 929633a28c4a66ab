import OcEarley.Formal.Kleene
import OcEarley.Grammar.Certify
import OcEarley.Grammar.LowerArray
import OcEarley.Grammar.Reversal

/-!
# Certified components are exact

The expression that a component is solved to denotes the language that the grammar generates.  Both
orientations are treated at once: `turn` reads a language forwards or backwards, and a linear system
for the turned languages has them as its least solution.
-/

namespace OcEarley

open OcEarley.RegularExpression

/-! ### The languages that a grammar generates -/

namespace Grammar

variable (g : Grammar) (R : String → Language UInt8)

/-- The byte strings of a terminal, where `R` says what a pattern matches. -/
def terminalLanguage (t : ℕ) : Language UInt8 :=
  (g.terminals[t]?.map fun found => found.kind.language R).getD 0

/-- The byte strings that a nonterminal generates. -/
def language (A : ℕ) : Language UInt8 :=
  {x | Yields g.Rule (g.terminalLanguage R) [.nonterminal A] x}

/-- What a symbol stands for. -/
def symbol (s : GrammarSymbol) : Language UInt8 :=
  symbolLanguage (g.terminalLanguage R) (g.language R) s

variable {g R}

theorem prod_le_language {A : ℕ} {γ : List GrammarSymbol} (h : g.Rule A γ) :
    (γ.map (g.symbol R)).prod ≤ g.language R A := by
  intro x hx
  have hyields : Yields g.Rule (g.terminalLanguage R) γ x := .of_mem_prod hx
  exact Yields.of_production h hyields

/-- The generated languages are below every solution of the productions. -/
theorem language_le {M : ℕ → Language UInt8} (hM : ∀ A γ, g.Rule A γ →
    (γ.map (symbolLanguage (g.terminalLanguage R) M)).prod ≤ M A) (A : ℕ) :
    g.language R A ≤ M A := by
  intro x hx
  have hprod := Yields.mem_prod hM (show Yields _ _ [.nonterminal A] x from hx)
  rwa [List.map_singleton, List.prod_singleton] at hprod

/-- The productions of a nonterminal leave nothing out. -/
theorem mem_language_iff {A : ℕ} {x : List UInt8} :
    x ∈ g.language R A ↔ ∃ p ∈ g.productionsFor A, x ∈ (p.rhs.map (g.symbol R)).prod := by
  change Yields g.Rule (g.terminalLanguage R) [.nonterminal A] x ↔ _
  rw [yields_nonterminal_iff]
  constructor
  · rintro ⟨γ, ⟨p, hp, hlhs, rfl⟩, h⟩
    exact ⟨p, List.mem_filter.2 ⟨hp, by simpa using hlhs⟩, h.mem_prod fun _ _ => prod_le_language⟩
  · rintro ⟨p, hp, hx⟩
    obtain ⟨hp, hlhs⟩ := List.mem_filter.1 hp
    exact ⟨p.rhs, ⟨p, hp, by simpa using hlhs, rfl⟩, .of_mem_prod hx⟩

end Grammar

/-! ### Both orientations -/

/-- The language, read backwards in a reversed system. -/
def turn (reversed : Bool) (L : Language UInt8) : Language UInt8 :=
  if reversed then L.reverse else L

section Turn

variable {reversed : Bool} {L L' : Language UInt8}

@[simp] theorem turn_turn : turn reversed (turn reversed L) = L := by
  cases reversed <;> simp [turn]

theorem turn_mono (h : L ≤ L') : turn reversed L ≤ turn reversed L' := by
  cases reversed with
  | false => exact h
  | true => exact fun x hx => h hx

theorem turn_le_iff : turn reversed L ≤ L' ↔ L ≤ turn reversed L' := by
  constructor <;> intro h <;> simpa using @turn_mono reversed _ _ h

/-- A right-hand side with the nonterminal at the end, or at the front in a reversed system. -/
def joined (reversed : Bool) (β : List GrammarSymbol) (B : ℕ) : List GrammarSymbol :=
  if reversed then .nonterminal B :: β else β ++ [.nonterminal B]

theorem turn_prod_joined (f : GrammarSymbol → Language UInt8) (β : List GrammarSymbol) (B : ℕ) :
    turn reversed ((joined reversed β B).map f).prod =
      turn reversed (β.map f).prod * turn reversed (f (.nonterminal B)) := by
  cases reversed <;> simp [turn, joined]

end Turn

/-- What an atom stands for. -/
def valuation (R : String → Language UInt8) (reversed : Bool) (forward : String)
    (reverse : Option String) : Language UInt8 :=
  if reversed then (reverse.elim 0 R).reverse else R forward

/-- The atoms of the expressions of a system. -/
def systemAtoms (escape : String → String) (g : Grammar) (reversed : Bool) :
    String → Option String → Prop :=
  if reversed then Flipped (g.Atoms escape) else g.Atoms escape

section Certify

variable {escape : String → String} {g : Grammar} {R : String → Language UInt8}
  {analysis : SccAnalysis} {component : Scc} {reversed : Bool}

/-- The expression is built from the terminals and denotes the language. -/
def Expresses (escape : String → String) (g : Grammar) (R : String → Language UInt8)
    (reversed : Bool) (e : RegularExpression) (L : Language UInt8) : Prop :=
  Built (systemAtoms escape g reversed) e ∧ e.language (valuation R reversed) = L

/-- A run that returns. -/
abbrev Succeeds {α : Type} (m : Except CertificateFailureReason α) (Q : α → Prop) : Prop :=
  Result.wp (fun _ => False) m Q

/-- A run that returns just when the condition holds, and does not panic. -/
abbrev SucceedsIff {α : Type} (C : Prop) (m : Except CertificateFailureReason α) (Q : α → Prop) :
    Prop :=
  Result.wp (fun reason => reason ≠ .panicked ∧ ¬ C) m fun a => Q a ∧ C

theorem SucceedsIff.congr {α : Type} {C C' : Prop} {m : Except CertificateFailureReason α}
    {Q : α → Prop} (h : SucceedsIff C m Q) (hC : C ↔ C') : SucceedsIff C' m Q :=
  propext hC ▸ h

theorem orient_succeedsIff {e : RegularExpression} {L : Language UInt8}
    (h : Expresses escape g R false e L) :
    SucceedsIff (reversed = true → e.reversed.isSome = true) (orient reversed e) fun e' =>
      Expresses escape g R reversed e' (turn reversed L) := by
  obtain ⟨hbuilt, rfl⟩ := h
  cases reversed with
  | false => exact ⟨⟨hbuilt, rfl⟩, fun h => Bool.noConfusion h⟩
  | true =>
    refine Result.wp_unwrap.2 ⟨fun e' he' => ⟨⟨hbuilt.flipped he', ?_⟩, fun _ => by rw [he']; rfl⟩,
      fun hnone => ⟨by simp, by simp [hnone]⟩⟩
    exact hbuilt.language_reversed (fun _ _ _ => rfl) he'

/-- The literals are texts, and an escaped text matches itself. -/
structure Escapes (escape : String → String) (g : Grammar)
    (R : String → Language UInt8) : Prop where
  escape : ∀ s, R (escape s) = {utf8Bytes s}
  literal : ∀ t ∈ g.terminals, ∀ bytes, t.kind = .literal bytes → ∃ s, bytes = utf8Bytes s

theorem Escapes.forward (h : Escapes escape g R) {t : RegularTerminal} (ht : t ∈ g.terminals) :
    R (t.forwardPattern escape) = t.kind.language R := by
  rw [RegularTerminal.forwardPattern]
  cases hkind : t.kind with
  | literal bytes =>
    obtain ⟨s, rfl⟩ := h.literal t ht bytes hkind
    simp only [fromUtf8Lossy_utf8Bytes, h.escape, RegularTerminalKind.language]
  | pattern forward reverse => rfl

theorem Expresses.atom (h : Escapes escape g R) {id : ℕ} {t : RegularTerminal}
    (ht : g.terminals[id]? = some t) :
    Expresses escape g R false (.atom (t.forwardPattern escape) (t.reversePattern escape))
      (g.terminalLanguage R id) := by
  have hmem := List.mem_of_getElem? ht
  refine ⟨.atom ⟨t, hmem, rfl, rfl⟩, ?_⟩
  rw [RegularExpression.language, Grammar.terminalLanguage, ht]
  exact h.forward hmem

/-- What has been solved so far is right. -/
structure Solved (escape : String → String) (g : Grammar) (R : String → Language UInt8)
    (expressions : List (Option RegularExpression)) : Prop where
  length : expressions.length = g.nonterminals.length
  sound : ∀ {A : ℕ} {e : RegularExpression}, expressions[A]? = some (some e) →
    Expresses escape g R false e (g.language R A)

/-- The symbols of a right-hand side are in the range of the analysis too. -/
def InRange (g : Grammar) (analysis : SccAnalysis) (rhs : List GrammarSymbol) : Prop :=
  analysis.componentOf.length = g.nonterminals.length ∧ ∀ s ∈ rhs, g.SymbolInRange s

variable {expressions : List (Option RegularExpression)} {rhs : List GrammarSymbol}

theorem InRange.owner (h : InRange g analysis rhs) {A : ℕ} (hA : .nonterminal A ∈ rhs) :
    ∃ owner, analysis.componentOf[A]? = some owner :=
  ⟨_, List.getElem?_eq_getElem (h.1 ▸ h.2 _ hA)⟩

/-- The symbol is a nonterminal of the component. -/
def IsRecursive (analysis : SccAnalysis) (component : Scc) (s : GrammarSymbol) : Prop :=
  ∃ A, s = .nonterminal A ∧ analysis.componentOf[A]? = some component.id

/-- The symbol has an expression, and one that can be reversed where it is to be. -/
def Expressible (escape : String → String) (g : Grammar)
    (expressions : List (Option RegularExpression)) (reversed : Bool) : GrammarSymbol → Prop
  | .terminal t => reversed = true → ∀ terminal, g.terminals[t]? = some terminal →
      (terminal.reversePattern escape).isSome = true
  | .nonterminal A => ∃ e, expressions[A]? = some (some e) ∧
      (reversed = true → e.reversed.isSome = true)

theorem symbolExpression_succeedsIff (hescape : Escapes escape g R)
    (hsolved : Solved escape g R expressions) (hrange : InRange g analysis rhs) {s : GrammarSymbol}
    (hs : s ∈ rhs) (hrec : ¬ IsRecursive analysis component s) :
    SucceedsIff (Expressible escape g expressions reversed s)
      (symbolExpression escape g analysis component expressions reversed s)
      fun e => Expresses escape g R reversed e (turn reversed (g.symbol R s)) := by
  cases s with
  | terminal id =>
    have hid : id < g.terminals.length := hrange.2 _ hs
    have ht := List.getElem?_eq_getElem hid
    rw [symbolExpression, ht]
    refine Result.wp_bind.2 (Result.wp_unwrap_some.2 ?_)
    refine (orient_succeedsIff (.atom hescape ht)).congr ?_
    simp [Expressible, RegularExpression.reversed, ht]
  | nonterminal A =>
    obtain ⟨owner, howner⟩ := hrange.owner hs
    have hA : A < expressions.length := hsolved.length ▸ hrange.2 _ hs
    have hget := List.getElem?_eq_getElem hA
    have hne : owner ≠ component.id := by
      rintro rfl
      exact hrec ⟨A, rfl, howner⟩
    rw [symbolExpression, howner, hget]
    simp only [SucceedsIff, Result.wp_bind, Result.wp_unwrap_some, Result.wp_require]
    refine ⟨fun _ => ?_, fun hnot => absurd hne hnot⟩
    cases he : expressions[A] with
    | none => exact ⟨by simp, by simp [Expressible, hget, he]⟩
    | some e =>
      have hexpression := hget.trans (congrArg some he)
      refine (orient_succeedsIff (hsolved.sound hexpression)).congr ?_
      simp [Expressible, hexpression]

theorem Expresses.concat {l : List GrammarSymbol} {es : List RegularExpression}
    (h : List.Forall₂ (fun s e => Expresses escape g R reversed e (turn reversed (g.symbol R s)))
      l es) :
    Expresses escape g R reversed (OcEarley.concat es)
      (l.map fun s => turn reversed (g.symbol R s)).prod := by
  have hparts : (∀ e ∈ es, Built (systemAtoms escape g reversed) e) ∧
      es.map (RegularExpression.language (valuation R reversed)) =
        l.map fun s => turn reversed (g.symbol R s) := by
    induction h with
    | nil => exact ⟨by simp, rfl⟩
    | cons he _ ih =>
      exact ⟨List.forall_mem_cons.2 ⟨he.1, ih.1⟩, by rw [List.map_cons, List.map_cons, ih.2, he.2]⟩
  exact ⟨.concat hparts.1, by rw [language_concat, hparts.2]⟩

/-- **The expression of a right-hand side.** -/
theorem rhsExpression_succeedsIff (hescape : Escapes escape g R)
    (hsolved : Solved escape g R expressions) (hrange : InRange g analysis rhs)
    (hrec : ∀ s ∈ rhs, ¬ IsRecursive analysis component s) :
    SucceedsIff (∀ s ∈ rhs, Expressible escape g expressions reversed s)
      (rhsExpression escape g analysis component rhs expressions reversed)
      fun e => Expresses escape g R reversed e (turn reversed (rhs.map (g.symbol R)).prod) := by
  have hmem : ∀ s, s ∈ (if reversed then rhs.reverse else rhs) ↔ s ∈ rhs := by
    intro s
    cases reversed with
    | false => rfl
    | true => exact List.mem_reverse
  have hsymbols : ∀ s ∈ (if reversed then rhs.reverse else rhs),
      Result.wp (fun reason => reason ≠ .panicked ∧
          ¬ ∀ s ∈ rhs, Expressible escape g expressions reversed s)
        (symbolExpression escape g analysis component expressions reversed s)
        fun e => Expresses escape g R reversed e (turn reversed (g.symbol R s)) ∧
          Expressible escape g expressions reversed s := by
    intro s hs
    have hs := (hmem s).1 hs
    refine Result.wp_weaken
      (symbolExpression_succeedsIff hescape hsolved hrange hs (hrec s hs)) fun reason hreason => ?_
    exact ⟨hreason.1, fun hall => hreason.2 (hall s hs)⟩
  refine Result.wp_bind.2 (Result.wp_mono (Result.wp_mapM hsymbols) fun es hes => ?_)
  refine Result.wp_pure.2 ⟨?_, fun s hs => ?_⟩
  swap
  · obtain ⟨e, -, -, hexpressible⟩ := exists_of_forall₂_left hes ((hmem s).2 hs)
    exact hexpressible
  have hconcat := Expresses.concat (hes.imp fun s e h => h.1)
  cases reversed with
  | false => exact hconcat
  | true =>
    have hturn : (rhs.reverse.map fun s => turn true (g.symbol R s)).prod =
        turn true (rhs.map (g.symbol R)).prod := by
      rw [turn, if_pos rfl, reverse_prod, List.map_map, List.map_reverse]
      rfl
    exact hturn ▸ hconcat

/-! ### Orientation -/

/-- No symbol of the right-hand side is, or one at the end that the orientation says. -/
def Linear (analysis : SccAnalysis) (component : Scc) (reversed : Bool) (rhs : List GrammarSymbol) :
    Prop :=
  (∀ s ∈ rhs, ¬ IsRecursive analysis component s) ∨
    ∃ β B, rhs = joined reversed β B ∧ IsRecursive analysis component (.nonterminal B) ∧
      ∀ s ∈ β, ¬ IsRecursive analysis component s

/-- All right-hand sides of the component are linear. -/
def AllLinear (g : Grammar) (analysis : SccAnalysis) (component : Scc) (reversed : Bool) : Prop :=
  ∀ A ∈ component.members, ∀ p ∈ g.productionsFor A, Linear analysis component reversed p.rhs

/-- The orientation says which of two conditions hold; without one, both do. -/
def Leaning (orientation : LinearOrientation) (right left : Prop) : Prop :=
  (orientation ≠ .left ↔ right) ∧ (orientation ≠ .right ↔ left)

/-- A run that finds out which of two conditions hold, and fails if neither does. -/
abbrev Leans (right left : Prop) (m : Except CertificateFailureReason LinearOrientation) : Prop :=
  Result.wp (fun reason => reason ≠ .panicked ∧ ¬ right ∧ ¬ left) m
    fun orientation => Leaning orientation right left

/-- **Rule for a search for the orientation.** -/
theorem leans_foldlM {β : Type}
    {f : LinearOrientation → β → Except CertificateFailureReason LinearOrientation}
    {P Q : β → Prop} {l : List β} (hf : ∀ b ∈ l, ∀ {orientation right left},
      Leaning orientation right left → Leans (right ∧ P b) (left ∧ Q b) (f orientation b))
    {orientation : LinearOrientation} {right left : Prop} (h : Leaning orientation right left) :
    Leans (right ∧ ∀ b ∈ l, P b) (left ∧ ∀ b ∈ l, Q b) (l.foldlM f orientation) := by
  induction l generalizing orientation right left with
  | nil => exact Result.wp_pure.2 (by simpa using h)
  | cons b l ih =>
    obtain ⟨hb, hl⟩ := List.forall_mem_cons.1 hf
    have hcons : ∀ {C : Prop} {P : β → Prop}, (C ∧ ∀ c ∈ b :: l, P c) ↔ (C ∧ P b) ∧
        ∀ c ∈ l, P c := by
      simp [and_assoc]
    rw [Leans, hcons, hcons, List.foldlM_cons]
    refine Result.wp_bind.2 (Result.wp_mono (Result.wp_weaken (hb h) fun reason hreason => ?_)
      fun orientation' h' => ih hl h')
    exact ⟨hreason.1, fun hall => hreason.2.1 hall.1, fun hall => hreason.2.2 hall.1⟩

theorem isRecursiveSymbol_succeeds (hrange : InRange g analysis rhs) {s : GrammarSymbol}
    (hs : s ∈ rhs) :
    Succeeds (isRecursiveSymbol analysis component s)
      fun flag => flag = true ↔ IsRecursive analysis component s := by
  cases s with
  | terminal id =>
    refine Result.wp_pure.2 ⟨fun h => Bool.noConfusion h, ?_⟩
    rintro ⟨A, hA, -⟩
    cases hA
  | nonterminal A =>
    obtain ⟨owner, howner⟩ := hrange.owner hs
    rw [isRecursiveSymbol, howner]
    refine Result.wp_bind.2 (Result.wp_unwrap_some.2 ?_)
    simp only [Result.wp_pure, decide_eq_true_iff]
    constructor
    · rintro rfl
      exact ⟨A, rfl, howner⟩
    · rintro ⟨B, hB, hcomponent⟩
      cases hB
      exact Option.some.inj (howner.symm.trans hcomponent)

/-- The positions of the flags that are set. -/
theorem mem_positions {flags : List Bool} {i : ℕ} :
    i ∈ (flags.zipIdx.filter fun entry => entry.1).map (fun entry => entry.2) ↔
      flags[i]? = some true := by
  simp only [List.mem_map, List.mem_filter, Prod.exists, List.mem_zipIdx_iff_getElem?]
  constructor
  · rintro ⟨flag, j, ⟨hj, rfl⟩, rfl⟩
    exact hj
  · exact fun h => ⟨true, i, ⟨h, rfl⟩, rfl⟩

/-- What the positions of a right-hand side say. -/
structure Positions (analysis : SccAnalysis) (component : Scc) (rhs : List GrammarSymbol)
    (positions : List ℕ) : Prop where
  mem_iff : ∀ i, i ∈ positions ↔ ∃ s, rhs[i]? = some s ∧ IsRecursive analysis component s
  nodup : positions.Nodup

theorem positions_of_flags {flags : List Bool}
    (h : List.Forall₂ (fun s flag => flag = true ↔ IsRecursive analysis component s) rhs flags) :
    Positions analysis component rhs
      ((flags.zipIdx.filter fun entry => entry.1).map fun entry => entry.2) where
  mem_iff := fun i => by
    rw [mem_positions]
    constructor
    · intro hi
      obtain ⟨s, hs⟩ : ∃ s, rhs[i]? = some s := by
        have hlt := (List.getElem?_eq_some_iff.1 hi).1
        exact ⟨_, List.getElem?_eq_getElem (h.length_eq ▸ hlt)⟩
      exact ⟨s, hs, (forall₂_getElem? h hs hi).1 rfl⟩
    · rintro ⟨s, hs, hrec⟩
      obtain ⟨flag, hflag⟩ : ∃ flag, flags[i]? = some flag := by
        have hlt := (List.getElem?_eq_some_iff.1 hs).1
        exact ⟨_, List.getElem?_eq_getElem (h.length_eq ▸ hlt)⟩
      rw [hflag, (forall₂_getElem? h hs hflag).2 hrec]
  nodup := by
    have hrange := List.nodup_range' (s := 0) (n := flags.length)
    rw [← List.zipIdx_map_snd 0 flags] at hrange
    exact hrange.sublist (List.filter_sublist.map _)

/-- The one member of a linear right-hand side stands at the end. -/
theorem Linear.position (h : Linear analysis component reversed rhs) {i : ℕ} {s : GrammarSymbol}
    (hs : rhs[i]? = some s) (hrec : IsRecursive analysis component s) :
    if reversed then i = 0 else i + 1 = rhs.length := by
  obtain hnone | ⟨β, B, rfl, -, hβ⟩ := h
  · exact absurd hrec (hnone s (List.mem_of_getElem? hs))
  · cases reversed with
    | true =>
      cases i with
      | zero => rfl
      | succ i => exact absurd hrec (hβ s (List.mem_of_getElem? hs))
    | false =>
      change (β ++ [.nonterminal B])[i]? = some s at hs
      change i + 1 = (β ++ [Symbol.nonterminal B]).length
      have hlt := (List.getElem?_eq_some_iff.1 hs).1
      rw [List.length_append, List.length_singleton] at hlt ⊢
      by_contra hne
      rw [List.getElem?_append_left (by omega)] at hs
      exact hβ s (List.mem_of_getElem? hs) hrec

/-- A right-hand side with one member is linear if that stands at the end. -/
theorem linear_iff {position : ℕ} {s : GrammarSymbol} (hs : rhs[position]? = some s)
    (hrec : IsRecursive analysis component s) (honly : ∀ i s, rhs[i]? = some s → i ≠ position →
      ¬ IsRecursive analysis component s) :
    Linear analysis component reversed rhs ↔
      if reversed then position = 0 else position + 1 = rhs.length := by
  refine ⟨fun h => h.position hs hrec, fun h => ?_⟩
  obtain ⟨B, rfl, hB⟩ := hrec
  cases reversed with
  | true =>
    obtain rfl : position = 0 := h
    obtain ⟨β, rfl⟩ : ∃ β, rhs = .nonterminal B :: β := by
      cases rhs with
      | nil => cases hs
      | cons s β => exact ⟨β, by rw [Option.some.inj hs]⟩
    refine .inr ⟨β, B, rfl, ⟨B, rfl, hB⟩, fun s hs => ?_⟩
    obtain ⟨i, hi⟩ := List.mem_iff_getElem?.1 hs
    exact honly (i + 1) s hi i.succ_ne_zero
  | false =>
    have hlast : position + 1 = rhs.length := h
    obtain ⟨β, last, rfl⟩ :=
      (List.eq_nil_or_concat rhs).resolve_left fun hnil => by simp [hnil] at hs
    simp only [List.concat_eq_append, List.length_append, List.length_singleton,
      Nat.add_right_cancel_iff] at hlast hs honly ⊢
    subst hlast
    rw [List.getElem?_concat_length] at hs
    obtain rfl := Option.some.inj hs
    refine .inr ⟨β, B, rfl, ⟨B, rfl, hB⟩, fun s hs => ?_⟩
    obtain ⟨i, hi⟩ := List.mem_iff_getElem?.1 hs
    have hlt := (List.getElem?_eq_some_iff.1 hi).1
    exact honly i s (List.getElem?_append_left hlt ▸ hi) hlt.ne

/-- A right-hand side with two members is linear in no way. -/
theorem Positions.not_linear {positions : List ℕ} (h : Positions analysis component rhs positions)
    (hlength : ¬ positions.length ≤ 1) : ¬ Linear analysis component reversed rhs := by
  intro hlinear
  rcases positions with _ | ⟨i, _ | ⟨j, rest⟩⟩
  · exact hlength (Nat.zero_le 1)
  · exact hlength le_rfl
  · obtain ⟨s, hs, hrec⟩ := (h.mem_iff i).1 (by simp)
    obtain ⟨s', hs', hrec'⟩ := (h.mem_iff j).1 (by simp)
    have hi := hlinear.position hs hrec
    have hj := hlinear.position hs' hrec'
    have hne : i ≠ j := fun hij => (List.nodup_cons.1 h.nodup).1 (by simp [hij])
    cases reversed with
    | true => exact hne (hi.trans hj.symm)
    | false => exact hne (Nat.add_right_cancel (hi.trans hj.symm))

/-- **The orientation of a production**, from the positions of its recursive symbols. -/
theorem productionOrientation_leans {positions : List ℕ}
    (h : Positions analysis component rhs positions) :
    Leans (Linear analysis component false rhs) (Linear analysis component true rhs)
      (productionOrientation rhs positions) := by
  refine Result.wp_bind.2 (Result.wp_require.2 ⟨fun hlength => ?_, fun hlength =>
    ⟨by simp, h.not_linear hlength, h.not_linear hlength⟩⟩)
  cases positions with
  | nil =>
    have hnone : ∀ s ∈ rhs, ¬ IsRecursive analysis component s := by
      intro s hs hrec
      obtain ⟨i, hi⟩ := List.mem_iff_getElem?.1 hs
      exact List.not_mem_nil ((h.mem_iff i).2 ⟨s, hi, hrec⟩)
    exact Result.wp_pure.2 ⟨iff_of_true (by decide) (.inl hnone),
      iff_of_true (by decide) (.inl hnone)⟩
  | cons position rest =>
    obtain rfl : rest = [] := by
      rw [List.length_cons] at hlength
      exact List.length_eq_zero_iff.1 (by omega)
    obtain ⟨s, hs, hrec⟩ := (h.mem_iff position).1 List.mem_cons_self
    have hlinear : ∀ {reversed}, Linear analysis component reversed rhs ↔
        if reversed then position = 0 else position + 1 = rhs.length :=
      linear_iff hs hrec fun i s hi hne hrec =>
        hne (List.mem_singleton.1 ((h.mem_iff i).2 ⟨s, hi, hrec⟩))
    have hlt := (List.getElem?_eq_some_iff.1 hs).1
    rw [hlinear, hlinear]
    simp only [List.head?_cons, Bool.false_eq_true, if_false, if_true]
    split
    · next hone => exact ⟨by simp; omega, by simp; omega⟩
    · next hone =>
      split
      · next hzero => exact ⟨by simp; omega, by simp [hzero]⟩
      · next hzero =>
        split
        · next hlast => exact ⟨by simp [hlast], by simp [hzero]⟩
        · next hlast => exact ⟨by simp, hlast, hzero⟩

theorem orientProduction_leans {production : Production} {orientation : LinearOrientation}
    {right left : Prop} (hrange : InRange g analysis production.rhs)
    (h : Leaning orientation right left) :
    Leans (right ∧ Linear analysis component false production.rhs)
      (left ∧ Linear analysis component true production.rhs)
      (orientProduction analysis component orientation production) := by
  refine Result.wp_bind.2 (Result.wp_mono (Result.wp_mapM fun s hs =>
    Result.wp_weaken (isRecursiveSymbol_succeeds hrange hs) fun _ hfalse => hfalse.elim)
      fun flags hflags => ?_)
  refine Result.wp_bind.2 (Result.wp_mono (Result.wp_weaken
    (productionOrientation_leans (positions_of_flags hflags)) fun reason hreason =>
      ⟨hreason.1, fun hall => hreason.2.1 hall.2, fun hall => hreason.2.2 hall.2⟩)
    fun found hfound => ?_)
  generalize Linear analysis component false production.rhs = right' at hfound ⊢
  generalize Linear analysis component true production.rhs = left' at hfound ⊢
  obtain ⟨hright, hleft⟩ := h
  obtain ⟨hright', hleft'⟩ := hfound
  split
  · next hneutral =>
    subst hneutral
    exact Result.wp_pure.2 ⟨by simp [hright, ← hright'], by simp [hleft, ← hleft']⟩
  · next hfound =>
    refine Result.wp_bind.2
      (Result.wp_require.2 ⟨fun hkeep => Result.wp_pure.2 ?_, fun hdiffer => ?_⟩)
    · rw [Leaning, ← hright, ← hleft, ← hright', ← hleft']
      cases orientation <;> cases found <;> simp_all
    · rw [← hright, ← hleft, ← hright', ← hleft']
      cases orientation <;> cases found <;> simp_all

/-- **The orientation of a component** is that of all its productions. -/
theorem componentOrientation_spec
    (hrange : ∀ A ∈ component.members, ∀ p ∈ g.productionsFor A, InRange g analysis p.rhs) :
    Result.wp (fun reason => reason ≠ .panicked ∧ ¬ AllLinear g analysis component false ∧
        ¬ AllLinear g analysis component true)
      (componentOrientation g analysis component) fun orientation =>
        orientation = .right ∧ AllLinear g analysis component false ∨
          orientation = .left ∧ AllLinear g analysis component true ∧
            ¬ AllLinear g analysis component false := by
  have hproduction : ∀ A ∈ component.members, ∀ p ∈ g.productionsFor A, ∀ {orientation right left},
      Leaning orientation right left → Leans (right ∧ Linear analysis component false p.rhs)
        (left ∧ Linear analysis component true p.rhs)
        (orientProduction analysis component orientation p) :=
    fun A hA p hp _ _ _ h => orientProduction_leans (hrange A hA p hp) h
  have hneutral : Leaning .neutral True True := by simp [Leaning]
  have hloop : Leans (True ∧ AllLinear g analysis component false)
      (True ∧ AllLinear g analysis component true)
      (component.members.foldlM (fun orientation member =>
        (g.productionsFor member).foldlM (orientProduction analysis component) orientation)
          .neutral) :=
    leans_foldlM (fun A hA _ _ _ h => leans_foldlM (hproduction A hA) h) hneutral
  rw [Leans, true_and, true_and] at hloop
  refine Result.wp_bind.2 (Result.wp_mono hloop ?_)
  rintro orientation ⟨hright, hleft⟩
  refine Result.wp_pure.2 ?_
  cases orientation with
  | neutral => exact .inl ⟨rfl, hright.1 (by decide)⟩
  | right => exact .inl ⟨rfl, hright.1 (by decide)⟩
  | left => exact .inr ⟨rfl, hleft.1 (by decide), fun hall => hright.2 hall rfl⟩

/-! ### The edges -/

/-- Where the edge of a right-hand side leads and what stands on it; the exit
comes after the members. -/
def IsEdge (analysis : SccAnalysis) (component : Scc) (reversed : Bool) (rhs : List GrammarSymbol)
    (target : ℕ) (β : List GrammarSymbol) : Prop :=
  (target = component.members.length ∧ β = rhs ∧ ∀ s ∈ rhs, ¬ IsRecursive analysis component s) ∨
    ∃ B, component.members[target]? = some B ∧ rhs = joined reversed β B ∧
      IsRecursive analysis component (.nonterminal B) ∧ ∀ s ∈ β, ¬ IsRecursive analysis component s

theorem recursivePosition_succeeds (hrange : InRange g analysis rhs) :
    Succeeds (recursivePosition analysis component rhs) fun position =>
      (position = none → ∀ s ∈ rhs, ¬ IsRecursive analysis component s) ∧
      ∀ i, position = some i → ∃ s, rhs[i]? = some s ∧ IsRecursive analysis component s := by
  induction rhs with
  | nil => exact Result.wp_pure.2 ⟨by simp, by simp⟩
  | cons symbol rhs ih =>
    have hrest : InRange g analysis rhs :=
      ⟨hrange.1, fun s hs => hrange.2 s (List.mem_cons_of_mem _ hs)⟩
    refine Result.wp_bind.2 (Result.wp_mono
      (isRecursiveSymbol_succeeds hrange List.mem_cons_self) fun here hhere => ?_)
    cases here with
    | true =>
      refine Result.wp_pure.2 ⟨fun h => (by cases h), fun i hi => ?_⟩
      obtain rfl := Option.some.inj hi
      exact ⟨symbol, rfl, hhere.1 rfl⟩
    | false =>
      refine Result.wp_bind.2 (Result.wp_mono (ih hrest) ?_)
      rintro position ⟨hnone, hsome⟩
      refine Result.wp_pure.2 ⟨fun h => ?_, fun i hi => ?_⟩
      · refine List.forall_mem_cons.2 ⟨fun hrec => ?_, hnone (Option.map_eq_none_iff.1 h)⟩
        exact Bool.false_ne_true (hhere.2 hrec)
      · obtain ⟨j, hj, rfl⟩ := Option.map_eq_some_iff.1 hi
        exact hsome j hj

/-- The one recursive symbol of a linear right-hand side. -/
theorem joint_of_recursive {β : List GrammarSymbol} {B i : ℕ} {s : GrammarSymbol}
    (hβ : ∀ s ∈ β, ¬ IsRecursive analysis component s) (hs : (joined reversed β B)[i]? = some s)
    (hrec : IsRecursive analysis component s) :
    s = .nonterminal B ∧ (if reversed then (joined reversed β B).drop (i + 1)
      else (joined reversed β B).take i) = β := by
  cases reversed with
  | true =>
    cases i with
    | zero => exact ⟨(Option.some.inj hs).symm, rfl⟩
    | succ i => exact absurd hrec (hβ s (List.mem_of_getElem? hs))
  | false =>
    change (β ++ [.nonterminal B])[i]? = some s at hs
    rcases lt_trichotomy i β.length with hlt | rfl | hgt
    · rw [List.getElem?_append_left hlt] at hs
      exact absurd hrec (hβ s (List.mem_of_getElem? hs))
    · rw [List.getElem?_concat_length] at hs
      exact ⟨(Option.some.inj hs).symm, by simp [joined]⟩
    · rw [List.getElem?_eq_none (by simp; omega)] at hs
      cases hs

/-- The edge of a linear right-hand side. -/
theorem edgeOf_succeeds (hrange : InRange g analysis rhs)
    (hmembers : ∀ A, analysis.componentOf[A]? = some component.id → A ∈ component.members)
    (hlinear : Linear analysis component reversed rhs) :
    Succeeds (edgeOf analysis component reversed rhs) fun edge =>
      IsEdge analysis component reversed rhs edge.1 edge.2 := by
  refine Result.wp_bind.2 (Result.wp_mono (recursivePosition_succeeds hrange) ?_)
  rintro position ⟨hnone, hsome⟩
  cases position with
  | none => exact Result.wp_pure.2 (.inl ⟨rfl, rfl, hnone rfl⟩)
  | some i =>
    obtain ⟨s, hs, hrec⟩ := hsome i rfl
    obtain hnone | ⟨β, B, rfl, hB, hβ⟩ := hlinear
    · exact absurd hrec (hnone s (List.mem_of_getElem? hs))
    · obtain ⟨rfl, hcut⟩ := joint_of_recursive hβ hs hrec
      obtain ⟨A, hA, hcomponent⟩ := hB
      cases hA
      have hmem := hmembers B hcomponent
      obtain ⟨index, hindex⟩ := Option.isSome_iff_exists.1 (List.isSome_idxOf?.2 hmem)
      obtain ⟨hlt, hget, -⟩ := List.idxOf?_eq_some_iff.1 hindex
      simp only [hs, hindex]
      refine Result.wp_bind.2
        (Result.wp_unwrap_some.2 (Result.wp_pure.2 (.inr ⟨B, ?_, ?_, ?_, ?_⟩)))
      · exact List.getElem?_eq_some_iff.2 ⟨hlt, hget⟩
      · rw [hcut]
      · exact hrec
      · rwa [hcut]

end Certify

end OcEarley

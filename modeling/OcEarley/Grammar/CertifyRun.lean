import OcEarley.Grammar.Components
import OcEarley.Grammar.Elimination

/-!
# Certification is exact

A component is solved once those that precede it are, and then all its members have an expression of
what they generate, or none has one.  Which of both it is, and for which reason a component is
certified, is seen from its right-hand sides (`Certifiable`).  The loop makes progress because among
the components that are left one is preceded by none of them.
-/

namespace OcEarley

open OcEarley.RegularExpression

variable {escape : String → String} {g : Grammar} {R : String → Language UInt8}
  {analysis : SccAnalysis} {component : Scc}
  {expressions expressions' : List (Option RegularExpression)}

/-! ### One component -/

/-- The expressions of the members have been recorded. -/
structure Recorded (escape : String → String) (g : Grammar) (R : String → Language UInt8)
    (members : List ℕ) (expressions expressions' : List (Option RegularExpression)) : Prop where
  solved : Solved escape g R expressions'
  mem : ∀ A ∈ members, ∃ e, expressions'[A]? = some (some e)
  notMem : ∀ A ∉ members, expressions'[A]? = expressions[A]?

theorem setExpression_recorded (hsolved : Solved escape g R expressions) {A : ℕ}
    (hA : A < g.nonterminals.length) {e : RegularExpression}
    (he : Expresses escape g R false e (g.language R A)) :
    Method.wp (fun _ => False) (setExpression A e)
      (fun _ expressions' => Recorded escape g R [A] expressions expressions') expressions := by
  have hlt : A < expressions.length := hsolved.length ▸ hA
  refine Method.wp_bind.2 (Method.wp_get.2 (Method.wp_bind.2 (Method.wp_require.2
    ⟨fun _ => ?_, fun hnot => hnot hlt⟩)))
  refine ⟨⟨(List.length_set ..).trans hsolved.length, fun {B e'} hB => ?_⟩, fun B hB => ?_,
    fun B hB => ?_⟩
  · by_cases hBA : B = A
    · subst hBA
      rw [List.getElem?_set_self hlt] at hB
      obtain rfl := Option.some.inj (Option.some.inj hB)
      exact he
    · rw [List.getElem?_set_ne (Ne.symm hBA)] at hB
      exact hsolved.sound hB
  · obtain rfl := List.mem_singleton.1 hB
    exact ⟨e, List.getElem?_set_self hlt⟩
  · exact List.getElem?_set_ne fun hAB => hB (List.mem_singleton.2 hAB.symm)

/-- An expression of a reversed system is turned back. -/
theorem orient_back {reversed : Bool} {e : RegularExpression} {L : Language UInt8}
    (h : Expresses escape g R reversed e (turn reversed L)) :
    Succeeds (orient reversed e) fun e' => Expresses escape g R false e' L := by
  obtain ⟨hbuilt, hlanguage⟩ := h
  cases reversed with
  | false => exact ⟨hbuilt, hlanguage⟩
  | true =>
    obtain ⟨e', he'⟩ : ∃ e', e.reversed = some e' := by
      obtain rfl | hproper := hbuilt.proper
      · exact ⟨_, rfl⟩
      · refine hproper.exists_reversed ?_
        rintro forward _ ⟨text, rfl, -⟩
        rfl
    rw [orient, if_pos rfl, he']
    refine Result.wp_unwrap_some.2
      ⟨(hbuilt.flipped he').mono fun _ _ => flipped_flipped, ?_⟩
    have hback : e'.language (valuation R false) = (e.language (valuation R true)).reverse :=
      hbuilt.language_reversed (fun _ _ _ => (Language.reverse_reverse _).symm) he'
    rw [hback, hlanguage]
    exact Language.reverse_reverse L

/-- The solved members are recorded one after the other. -/
theorem record_recorded {reversed : Bool} {members : List ℕ} {solved : List RegularExpression}
    (h : List.Forall₂ (fun A e => Expresses escape g R reversed e (turn reversed (g.language R A)))
      members solved) (hmembers : ∀ A ∈ members, A < g.nonterminals.length)
    (hsolved : Solved escape g R expressions) :
    Method.wp (fun _ => False) ((members.zip solved).forM fun entry => do
        let expression ← certifying (orient reversed entry.2)
        setExpression entry.1 expression)
      (fun _ expressions' => Recorded escape g R members expressions expressions') expressions := by
  induction h generalizing expressions with
  | nil => exact ⟨hsolved, by simp, fun _ _ => rfl⟩
  | @cons A e members solved he _ ih =>
    obtain ⟨hA, hrest⟩ := List.forall_mem_cons.1 hmembers
    obtain ⟨e', he', hexpresses⟩ := Result.exists_of_wp (orient_back he)
    change Method.wp _ ((certifying (orient reversed e) >>= _) >>= fun _ => List.forM _ _) _ _
    rw [he']
    refine Method.wp_bind.2 (Method.wp_bind.2 ?_)
    change Method.wp _ (setExpression A e') _ expressions
    refine Method.wp_mono (setExpression_recorded hsolved hA hexpresses) fun _ expressions₁ h₁ => ?_
    refine Method.wp_mono (ih hrest h₁.solved) fun _ expressions₂ h₂ => ?_
    refine ⟨h₂.solved, List.forall_mem_cons.2 ⟨?_, h₂.mem⟩, fun B hB => ?_⟩
    · by_cases hrepeat : A ∈ members
      · exact h₂.mem A hrepeat
      · rw [h₂.notMem A hrepeat]
        exact h₁.mem A List.mem_cons_self
    · obtain ⟨hBA, hrest⟩ := not_or.1 (List.mem_cons.not.1 hB)
      rw [h₂.notMem B hrest, h₁.notMem B fun hmem => hBA (List.mem_singleton.1 hmem)]

/-- What a component is certified as.  The other symbols of its right-hand sides have expressions,
and it is without recursion or its right-hand sides are linear; being right-linear comes first.  In
a left-linear component the expressions have to be reversed. -/
inductive Certifiable (escape : String → String) (g : Grammar) (analysis : SccAnalysis)
    (component : Scc) (expressions : List (Option RegularExpression)) :
    RegularCertificateKind → Prop
  | acyclic (hrecursive : component.recursive = false)
    (hlabelled : AllLabelled escape g analysis component expressions false) :
    Certifiable escape g analysis component expressions .acyclic
  | rightLinear (hrecursive : component.recursive = true)
    (hlinear : AllLinear g analysis component false)
    (hlabelled : AllLabelled escape g analysis component expressions false) :
    Certifiable escape g analysis component expressions .rightLinear
  | leftLinear (hrecursive : component.recursive = true)
    (hright : ¬ AllLinear g analysis component false)
    (hlinear : AllLinear g analysis component true)
    (hlabelled : AllLabelled escape g analysis component expressions true) :
    Certifiable escape g analysis component expressions .leftLinear

theorem Certifiable.labelled {kind : RegularCertificateKind}
    (h : Certifiable escape g analysis component expressions kind) :
    ∃ reversed, AllLabelled escape g analysis component expressions reversed := by
  cases h with
  | acyclic _ hlabelled => exact ⟨false, hlabelled⟩
  | rightLinear _ _ hlabelled => exact ⟨false, hlabelled⟩
  | leftLinear _ _ _ hlabelled => exact ⟨true, hlabelled⟩

/-- What certifying a component does: all members are recorded, or nothing is. -/
def Settled (escape : String → String) (g : Grammar) (R : String → Language UInt8)
    (analysis : SccAnalysis) (component : Scc) (expressions : List (Option RegularExpression)) :
    EStateM.Result CertificateFailureReason (List (Option RegularExpression))
      RegularCertificateKind → Prop
  | .ok kind expressions' => Recorded escape g R component.members expressions expressions' ∧
      ∀ kind', Certifiable escape g analysis component expressions kind' ↔ kind = kind'
  | .error reason expressions' => reason ≠ .panicked ∧ expressions' = expressions ∧
      ∀ kind', ¬ Certifiable escape g analysis component expressions kind'

theorem settled_certifying_bind {α : Type} {m : Except CertificateFailureReason α}
    {E : CertificateFailureReason → Prop} {Q : α → Prop} {f : α → Certifying RegularCertificateKind}
    (hm : Result.wp E m Q) (hE : ∀ reason, E reason → reason ≠ .panicked ∧
      ∀ kind, ¬ Certifiable escape g analysis component expressions kind)
    (hf : ∀ a, Q a → Settled escape g R analysis component expressions (f a expressions)) :
    Settled escape g R analysis component expressions ((certifying m >>= f) expressions) := by
  cases m with
  | ok a => exact hf a hm
  | error reason =>
    obtain ⟨hreason, hnot⟩ := hE reason hm
    exact ⟨hreason, rfl, hnot⟩

theorem settled_of_wp {m : Certifying Unit} {kind : RegularCertificateKind}
    (hkind : ∀ kind', Certifiable escape g analysis component expressions kind' ↔ kind = kind')
    (h : Method.wp (fun _ => False) m
      (fun _ expressions' => Recorded escape g R component.members expressions expressions')
      expressions) :
    Settled escape g R analysis component expressions ((m >>= fun _ => pure kind) expressions) := by
  rw [Method.bind_apply]
  unfold Method.wp at h
  cases hm : m expressions with
  | ok u expressions' =>
    rw [hm] at h
    exact ⟨h, hkind⟩
  | error reason expressions' =>
    rw [hm] at h
    exact h.elim

theorem Classified.inRange (h : Classified g analysis) (hg : g.WellFormed) {A : ℕ} {p : Production}
    (hp : p ∈ g.productionsFor A) : InRange g analysis p.rhs :=
  ⟨h.length, hg.rhs_inRange p (mem_productionsFor.1 hp).1⟩

theorem Classified.mem_members (h : Classified g analysis) (hc : component ∈ analysis.components)
    (A : ℕ) : A ∈ component.members ↔ analysis.componentOf[A]? = some component.id := by
  obtain ⟨i, hi⟩ := List.mem_iff_getElem?.1 hc
  rw [h.mem_iff hi, h.id hi]

theorem Classified.lt_of_mem (h : Classified g analysis) (hc : component ∈ analysis.components)
    {A : ℕ} (hA : A ∈ component.members) : A < g.nonterminals.length :=
  h.length ▸ (List.getElem?_eq_some_iff.1 ((h.mem_members hc A).1 hA)).1

/-- The union of the right-hand sides of a nonterminal. -/
theorem Expresses.productions {A : ℕ} {es : List RegularExpression}
    (h : List.Forall₂ (fun (p : Production) e =>
      Expresses escape g R false e (p.rhs.map (g.symbol R)).prod) (g.productionsFor A) es) :
    Expresses escape g R false (OcEarley.union es) (g.language R A) := by
  have hsum : g.language R A =
      ((g.productionsFor A).map fun p => (p.rhs.map (g.symbol R)).prod).sum := by
    ext x
    rw [Grammar.mem_language_iff, mem_sum]
  rw [hsum]
  generalize g.productionsFor A = productions at h
  have hbranches : (∀ e ∈ es, Built (systemAtoms escape g false) e) ∧
      es.map (language (valuation R false)) = productions.map fun p =>
        (p.rhs.map (g.symbol R)).prod := by
    induction h with
    | nil => exact ⟨by simp, rfl⟩
    | cons he _ ih =>
      exact ⟨List.forall_mem_cons.2 ⟨he.1, ih.1⟩, by rw [List.map_cons, List.map_cons, ih.2, he.2]⟩
  exact ⟨.union hbranches.1, by rw [language_union, hbranches.2]⟩

/-- Nothing in a component without recursion is a member. -/
theorem Classified.not_isRecursive (h : Classified g analysis)
    (hc : component ∈ analysis.components)
    (hfalse : component.recursive = false) {A : ℕ} (hA : A ∈ component.members) {p : Production}
    (hp : p ∈ g.productionsFor A) : ∀ s ∈ p.rhs, ¬ IsRecursive analysis component s := by
  rintro s hs ⟨B, rfl, hB⟩
  obtain ⟨C, hmembers, hself⟩ := h.single component hc hfalse
  have hBC := (h.mem_members hc B).2 hB
  rw [hmembers, List.mem_singleton] at hA hBC
  subst hA hBC
  obtain ⟨hp, hlhs⟩ := mem_productionsFor.1 hp
  exact hself ⟨p, hp, hlhs, hs⟩

/-- The branches of a component without recursion. -/
theorem branches_succeedsIff (hescape : Escapes escape g R) (hg : g.WellFormed)
    (h : Classified g analysis) (hc : component ∈ analysis.components)
    (hsolved : Solved escape g R expressions) (hfalse : component.recursive = false) {A : ℕ}
    (hmembers : component.members = [A]) :
    SucceedsIff (AllLabelled escape g analysis component expressions false)
      ((g.productionsFor A).mapM fun production =>
        rhsExpression escape g analysis component production.rhs expressions false)
      (List.Forall₂ (fun p e => Expresses escape g R false e (p.rhs.map (g.symbol R)).prod)
        (g.productionsFor A)) := by
  have hA : A ∈ component.members := by rw [hmembers]; exact List.mem_cons_self
  have hiff : AllLabelled escape g analysis component expressions false ↔ ∀ p ∈ g.productionsFor A,
      Labelled escape g analysis component expressions false p.rhs := by
    rw [AllLabelled, hmembers, List.forall_mem_singleton]
  have hbranch : ∀ p ∈ g.productionsFor A,
      Result.wp (fun reason => reason ≠ .panicked ∧
          ¬ AllLabelled escape g analysis component expressions false)
        (rhsExpression escape g analysis component p.rhs expressions false)
        fun e => Expresses escape g R false e (p.rhs.map (g.symbol R)).prod ∧
          Labelled escape g analysis component expressions false p.rhs := by
    intro p hp
    have hnone := h.not_isRecursive hc hfalse hA hp
    refine Result.wp_mono (Result.wp_weaken
      (rhsExpression_succeedsIff hescape hsolved (h.inRange hg hp) hnone)
      fun reason hreason => ⟨hreason.1, fun hall => hreason.2 fun s hs => ?_⟩) fun e he => ?_
    · exact hall A hA p hp s hs (hnone s hs)
    · exact ⟨he.1, fun s hs _ => he.2 s hs⟩
  refine Result.wp_mono (Result.wp_mapM hbranch) fun es hes => ⟨hes.imp fun p e he => he.1, ?_⟩
  rw [hiff]
  intro p hp
  obtain ⟨e, -, -, hlabelled⟩ := exists_of_forall₂_left hes hp
  exact hlabelled

/-- **A component is certified with the languages of its members**, or none of them is recorded. -/
theorem certifyComponent_settled (hescape : Escapes escape g R) (hg : g.WellFormed)
    (h : Classified g analysis) (hc : component ∈ analysis.components)
    (hsolved : Solved escape g R expressions) :
    Settled escape g R analysis component expressions
      (certifyComponent escape g analysis component expressions) := by
  have hlt : ∀ A ∈ component.members, A < g.nonterminals.length := fun A hA => h.lt_of_mem hc hA
  unfold certifyComponent
  split
  · next hfalse =>
    obtain ⟨A, hmembers, -⟩ := h.single component hc hfalse
    have hget : component.members[0]? = some A := by rw [hmembers]; rfl
    rw [hget]
    change Settled _ _ _ _ _ _ ((certifying _ >>= _) expressions)
    refine settled_certifying_bind
      (branches_succeedsIff hescape hg h hc hsolved hfalse hmembers) ?_ ?_
    · rintro reason ⟨hreason, hnot⟩
      refine ⟨hreason, fun kind hkind => ?_⟩
      cases hkind with
      | acyclic _ hlabelled => exact hnot hlabelled
      | rightLinear htrue _ _ => exact Bool.false_ne_true (hfalse.symm.trans htrue)
      | leftLinear htrue _ _ _ => exact Bool.false_ne_true (hfalse.symm.trans htrue)
    · rintro es ⟨hes, hlabelled⟩
      refine settled_of_wp (fun kind => ⟨fun hkind => ?_, ?_⟩) ?_
      · cases hkind with
        | acyclic _ _ => rfl
        | rightLinear htrue _ _ => exact absurd (hfalse.symm.trans htrue) Bool.false_ne_true
        | leftLinear htrue _ _ _ => exact absurd (hfalse.symm.trans htrue) Bool.false_ne_true
      · rintro rfl
        exact .acyclic hfalse hlabelled
      · rw [hmembers] at hlt ⊢
        exact setExpression_recorded hsolved (hlt A List.mem_cons_self) (.productions hes)
  · next hrecursive =>
    have htrue : component.recursive = true := by simpa using hrecursive
    have hrange : ∀ A ∈ component.members, ∀ p ∈ g.productionsFor A, InRange g analysis p.rhs :=
      fun A _ p hp => h.inRange hg hp
    refine settled_certifying_bind (componentOrientation_spec hrange) ?_
      fun orientation hlinear => ?_
    · rintro reason ⟨hreason, hright, hleft⟩
      refine ⟨hreason, fun kind hkind => ?_⟩
      cases hkind with
      | acyclic hfalse _ => exact hrecursive hfalse
      | rightLinear _ hlinear _ => exact hright hlinear
      | leftLinear _ _ hlinear _ => exact hleft hlinear
    change Settled _ _ _ _ _ _ ((certifying _ >>= _) expressions)
    -- The kind is settled with the orientation.
    have hkind : ∀ kind, Certifiable escape g analysis component expressions kind ↔
        (if decide (orientation = .left) then RegularCertificateKind.leftLinear else .rightLinear) =
            kind ∧
          AllLabelled escape g analysis component expressions (decide (orientation = .left)) := by
      intro kind
      obtain ⟨rfl, hright⟩ | ⟨rfl, hleft, hright⟩ := hlinear
      · refine ⟨fun hkind => ?_, ?_⟩
        · cases hkind with
          | acyclic hfalse _ => exact absurd hfalse hrecursive
          | rightLinear _ _ hlabelled => exact ⟨rfl, hlabelled⟩
          | leftLinear _ hnot _ _ => exact absurd hright hnot
        · rintro ⟨rfl, hlabelled⟩
          exact .rightLinear htrue hright hlabelled
      · refine ⟨fun hkind => ?_, ?_⟩
        · cases hkind with
          | acyclic hfalse _ => exact absurd hfalse hrecursive
          | rightLinear _ hlinear _ => exact absurd hlinear hright
          | leftLinear _ _ _ hlabelled => exact ⟨rfl, hlabelled⟩
        · rintro ⟨rfl, hlabelled⟩
          exact .leftLinear htrue hright hleft hlabelled
    have hall : AllLinear g analysis component (decide (orientation = .left)) := by
      obtain ⟨rfl, hright⟩ | ⟨rfl, hleft, -⟩ := hlinear
      · exact hright
      · exact hleft
    have hsystem : System g analysis component (decide (orientation = .left)) :=
      ⟨hrange, hall, fun A hA => (h.mem_members hc A).2 hA, h.nodup component hc⟩
    refine settled_certifying_bind (solveLinearComponent_succeedsIff hescape hsolved hsystem) ?_ ?_
    · rintro reason ⟨hreason, hnot⟩
      exact ⟨hreason, fun kind hcertifiable => hnot ((hkind kind).1 hcertifiable).2⟩
    · rintro solved ⟨hes, hlabelled⟩
      refine settled_of_wp (fun kind => ?_) (record_recorded hes hlt hsolved)
      rw [hkind, and_iff_left hlabelled]

/-! ### The components that a component needs -/

/-- The symbol is a nonterminal of another component. -/
def LeadsTo (analysis : SccAnalysis) (component : Scc) (s : GrammarSymbol) (j : ℕ) : Prop :=
  ∃ B, s = .nonterminal B ∧ analysis.componentOf[B]? = some j ∧ j ≠ component.id

/-- A right-hand side of the component mentions another component. -/
def External (g : Grammar) (analysis : SccAnalysis) (component : Scc) (j : ℕ) : Prop :=
  ∃ A ∈ component.members, ∃ p ∈ g.productionsFor A, ∃ s ∈ p.rhs, LeadsTo analysis component s j

/-- Rule for a loop that collects. -/
theorem wp_collect {β : Type} {f : List ℕ → β → Except CompileError (List ℕ)} {P : β → ℕ → Prop}
    {l : List β} (hf : ∀ b ∈ l, ∀ found, Result.wp (fun _ => False) (f found b) fun found' =>
      ∀ j, j ∈ found' ↔ j ∈ found ∨ P b j) (found : List ℕ) :
    Result.wp (fun _ => False) (l.foldlM f found) fun found' =>
      ∀ j, j ∈ found' ↔ j ∈ found ∨ ∃ b ∈ l, P b j := by
  induction l generalizing found with
  | nil => exact Result.wp_pure.2 fun j => by simp
  | cons b l ih =>
    obtain ⟨hb, hl⟩ := List.forall_mem_cons.1 hf
    rw [List.foldlM_cons]
    refine Result.wp_bind.2 (Result.wp_mono (hb found) fun found₁ h₁ => ?_)
    refine Result.wp_mono (ih hl found₁) fun found₂ h₂ j => ?_
    rw [h₂, h₁, or_assoc]
    simp

theorem externalSymbol_wp {rhs : List GrammarSymbol} (hrange : InRange g analysis rhs)
    {s : GrammarSymbol} (hs : s ∈ rhs) (found : List ℕ) :
    Result.wp (fun _ => False) (externalSymbol analysis component found s) fun found' =>
      ∀ j, j ∈ found' ↔ j ∈ found ∨ LeadsTo analysis component s j := by
  cases s with
  | terminal t =>
    refine Result.wp_pure.2 fun j => ⟨.inl, fun hj => hj.resolve_right ?_⟩
    rintro ⟨B, hB, -⟩
    cases hB
  | nonterminal B =>
    obtain ⟨owner, howner⟩ := hrange.owner hs
    refine Result.wp_bind.2 ((wp_vecGet howner).2 (Result.wp_pure.2 fun j => ?_))
    have hleads : LeadsTo analysis component (.nonterminal B) j ↔ owner = j ∧ j ≠ component.id := by
      simp [LeadsTo, howner]
    rw [hleads]
    split
    · next hne =>
      rw [List.mem_append, List.mem_singleton]
      constructor
      · rintro (hj | rfl)
        · exact .inl hj
        · exact .inr ⟨rfl, hne⟩
      · rintro (hj | ⟨rfl, -⟩)
        · exact .inl hj
        · exact .inr rfl
    · next heq =>
      refine ⟨.inl, fun hj => hj.resolve_right ?_⟩
      rintro ⟨rfl, hne⟩
      exact heq hne

/-- **The components that a component needs.** -/
theorem externalComponents_wp (hg : g.WellFormed) (h : Classified g analysis) :
    Result.wp (fun _ => False) (externalComponents g analysis component) fun dependencies =>
      ∀ j, j ∈ dependencies ↔ External g analysis component j := by
  have hproduction : ∀ A ∈ component.members, ∀ p ∈ g.productionsFor A, ∀ found,
      Result.wp (fun _ => False) (p.rhs.foldlM (externalSymbol analysis component) found)
        fun found' => ∀ j, j ∈ found' ↔ j ∈ found ∨ ∃ s ∈ p.rhs, LeadsTo analysis component s j :=
    fun A _ p hp => wp_collect fun s hs => externalSymbol_wp (h.inRange hg hp) hs
  refine Result.wp_bind.2 (Result.wp_mono
    (wp_collect (fun A hA => wp_collect (hproduction A hA)) []) fun found hfound => ?_)
  refine Result.wp_pure.2 fun j => ?_
  rw [mem_sortDedup, hfound, or_iff_right List.not_mem_nil]
  rfl

theorem External.precedes (h : Classified g analysis) (hc : component ∈ analysis.components) {j : ℕ}
    (hj : External g analysis component j) : Precedes g analysis j component.id := by
  obtain ⟨A, hA, p, hp, s, hs, B, rfl, hB, hne⟩ := hj
  obtain ⟨hp, hlhs⟩ := mem_productionsFor.1 hp
  exact ⟨hne, A, B, (h.mem_members hc A).1 hA, hB, .single ⟨p, hp, hlhs, hs⟩⟩

/-- Only the expressions of the components that it needs matter for what a
component is certified as. -/
theorem certifiable_congr (hg : g.WellFormed) (h : Classified g analysis)
    {expressions' : List (Option RegularExpression)}
    (heq : ∀ j B : ℕ, External g analysis component j → analysis.componentOf[B]? = some j →
      expressions'[B]? = expressions[B]?) (kind : RegularCertificateKind) :
    Certifiable escape g analysis component expressions kind ↔
      Certifiable escape g analysis component expressions' kind := by
  have hlabelled : ∀ reversed, AllLabelled escape g analysis component expressions reversed ↔
      AllLabelled escape g analysis component expressions' reversed := by
    intro reversed
    refine forall₂_congr fun A hA => forall₂_congr fun p hp => forall₃_congr fun s hs hrec => ?_
    cases s with
    | terminal t => rfl
    | nonterminal B =>
      obtain ⟨j, hj⟩ := (h.inRange hg hp).owner hs
      have hne : j ≠ component.id := by
        rintro rfl
        exact hrec ⟨B, rfl, hj⟩
      rw [Expressible, Expressible, heq j B ⟨A, hA, p, hp, _, hs, B, rfl, hj, hne⟩ hj]
  constructor
  · intro hkind
    cases hkind with
    | acyclic hfalse hall => exact .acyclic hfalse ((hlabelled _).1 hall)
    | rightLinear htrue hlinear hall => exact .rightLinear htrue hlinear ((hlabelled _).1 hall)
    | leftLinear htrue hright hlinear hall =>
      exact .leftLinear htrue hright hlinear ((hlabelled _).1 hall)
  · intro hkind
    cases hkind with
    | acyclic hfalse hall => exact .acyclic hfalse ((hlabelled _).2 hall)
    | rightLinear htrue hlinear hall => exact .rightLinear htrue hlinear ((hlabelled _).2 hall)
    | leftLinear htrue hright hlinear hall =>
      exact .leftLinear htrue hright hlinear ((hlabelled _).2 hall)

/-! ### One visit -/

/-- The outcome is what the component is certified as. -/
def Judged (escape : String → String) (g : Grammar) (analysis : SccAnalysis) (component : Scc)
    (expressions : List (Option RegularExpression)) (outcome : CertificateOutcome) : Prop :=
  ∀ kind, outcome = .ok kind ↔ Certifiable escape g analysis component expressions kind

/-- The invariant of the loop: a component has either all its members recorded or none of them, and
what is recorded is right.  A component that is done with needs only such ones, and is judged. -/
structure Certification.Invariant (escape : String → String) (g : Grammar)
    (R : String → Language UInt8) (analysis : SccAnalysis) (state : Certification) : Prop where
  outcomes : state.outcomes.length = analysis.components.length
  remaining : state.remaining = state.outcomes.count none
  solved : Solved escape g R state.expressions
  recorded : ∀ {i : ℕ} {c : Scc}, analysis.components[i]? = some c → ∀ A ∈ c.members,
    ∃ e, state.expressions[A]? = some e ∧
      (e.isSome = true ↔ ∃ kind, state.outcomes[i]? = some (some (.ok kind)))
  judged : ∀ {i : ℕ} {c : Scc} {outcome : CertificateOutcome}, analysis.components[i]? = some c →
    state.outcomes[i]? = some (some outcome) →
      (∀ j, External g analysis c j → state.outcomes[j]? ≠ some none) ∧
        Judged escape g analysis c state.expressions outcome

section Run

variable {state : Certification} {i : ℕ}

/-- **A component is done with.** -/
theorem settle_wp (hg : g.WellFormed) (h : Classified g analysis)
    (hstate : state.Invariant escape g R analysis)
    (hi : analysis.components[i]? = some component) (hnone : state.outcomes[i]? = some none)
    (hneeds : ∀ j, External g analysis component j → state.outcomes[j]? ≠ some none)
    {outcome : CertificateOutcome} {expressions' : List (Option RegularExpression)}
    (hjudged : Judged escape g analysis component state.expressions outcome)
    (hsolved : Solved escape g R expressions')
    (hmem : ∀ A ∈ component.members, ∃ e, expressions'[A]? = some e ∧
      (e.isSome = true ↔ ∃ kind, outcome = .ok kind))
    (hnotMem : ∀ A ∉ component.members, expressions'[A]? = state.expressions[A]?) :
    Result.wp (fun _ => False) (settle component state outcome expressions') fun state' =>
      state'.Invariant escape g R analysis ∧ state'.progress = true ∧
        state'.remaining < state.remaining := by
  obtain rfl : component.id = i := h.id hi
  obtain ⟨hlt, hget⟩ := List.getElem?_eq_some_iff.1 hnone
  have hpos : 0 < state.remaining := by
    rw [hstate.remaining]
    exact List.count_pos_iff.2 (List.mem_of_getElem? hnone)
  refine Result.wp_bind.2 ((wp_vecSet hlt).2 (Result.wp_bind.2
    (Result.wp_require.2 ⟨fun _ => ?_, fun hnot => hnot hpos⟩)))
  -- Nothing that is done with needs this component.
  have hkept : ∀ {c : Scc} {j : ℕ}, analysis.components[j]? = some c →
      (∀ k, External g analysis c k → state.outcomes[k]? ≠ some none) →
      (∀ k, External g analysis c k →
        (state.outcomes.set component.id (some outcome))[k]? ≠ some none) ∧
        ∀ kind, Certifiable escape g analysis c state.expressions kind ↔
          Certifiable escape g analysis c expressions' kind := by
    intro c j hj hdone
    have hne : ∀ k, External g analysis c k → k ≠ component.id := by
      rintro k hk rfl
      exact hdone _ hk hnone
    refine ⟨fun k hk => ?_, certifiable_congr hg h fun k B hk hB => hnotMem B fun hmem => ?_⟩
    · rw [List.getElem?_set_ne (hne k hk).symm]
      exact hdone k hk
    · exact hne k hk (Option.some.inj (hB.symm.trans ((h.mem_iff hi B).1 hmem)))
  refine Result.wp_pure.2 ⟨⟨?_, ?_, hsolved, fun {j c} hj A hA => ?_,
    fun {j c outcome'} hj hdone => ?_⟩,
    rfl, by dsimp only; omega⟩
  · exact (List.length_set ..).trans hstate.outcomes
  · have hcount := List.count_set (a := some outcome) (b := none) hlt
    simp only [hget, beq_self_eq_true, if_true] at hcount
    dsimp only
    rw [hcount, hstate.remaining]
    simp
  · dsimp only
    by_cases hji : j = component.id
    · subst hji
      obtain rfl := Option.some.inj (hi.symm.trans hj)
      obtain ⟨e, he, hiff⟩ := hmem A hA
      refine ⟨e, he, hiff.trans ?_⟩
      rw [List.getElem?_set_self hlt]
      simp
    · have hA' : A ∉ component.members := by
        intro hmem
        have hfirst := (h.mem_iff hi A).1 hmem
        exact hji (Option.some.inj (((h.mem_iff hj A).1 hA).symm.trans hfirst))
      rw [hnotMem A hA', List.getElem?_set_ne (Ne.symm hji)]
      exact hstate.recorded hj A hA
  · dsimp only at hdone ⊢
    by_cases hji : j = component.id
    · subst hji
      obtain rfl := Option.some.inj (hi.symm.trans hj)
      rw [List.getElem?_set_self hlt] at hdone
      obtain rfl := Option.some.inj (Option.some.inj hdone)
      obtain ⟨hdone, hcertifiable⟩ := hkept hj hneeds
      exact ⟨hdone, fun kind => (hjudged kind).trans (hcertifiable kind)⟩
    · rw [List.getElem?_set_ne (Ne.symm hji)] at hdone
      obtain ⟨hbefore, hjudged'⟩ := hstate.judged hj hdone
      obtain ⟨hdone, hcertifiable⟩ := hkept hj hbefore
      exact ⟨hdone, fun kind => (hjudged' kind).trans (hcertifiable kind)⟩

/-- All that the component needs is done with. -/
def Ready (g : Grammar) (analysis : SccAnalysis) (component : Scc) (state : Certification) : Prop :=
  state.outcomes[component.id]? = some none ∧
    ∀ j, External g analysis component j → state.outcomes[j]? ≠ some none

/-- A component that needs one that is refused is certified as nothing. -/
theorem not_certifiable_of_isRefused (h : Classified g analysis)
    (hstate : state.Invariant escape g R analysis) {j : ℕ} {status : Option CertificateOutcome}
    (hj : External g analysis component j) (hstatus : state.outcomes[j]? = some status)
    (hrefused : isRefused status = true) (kind : RegularCertificateKind) :
    ¬ Certifiable escape g analysis component state.expressions kind := by
  intro hkind
  obtain ⟨A, hA, p, hp, s, hs, B, rfl, hB, hne⟩ := hj
  obtain ⟨reversed, hlabelled⟩ := hkind.labelled
  have hrec : ¬ IsRecursive analysis component (.nonterminal B) := by
    rintro ⟨B', hB', hcomponent⟩
    cases hB'
    exact hne (Option.some.inj (hB.symm.trans hcomponent))
  obtain ⟨e, he, -⟩ := hlabelled A hA p hp _ hs hrec
  obtain ⟨c, hc⟩ := h.owner hB
  obtain ⟨e', he', hiff⟩ := hstate.recorded hc B ((h.mem_iff hc B).2 hB)
  obtain rfl := Option.some.inj (he.symm.trans he')
  obtain ⟨kind', hkind'⟩ := hiff.1 rfl
  obtain rfl := Option.some.inj (hstatus.symm.trans hkind')
  cases hrefused

/-- **A visit settles a component that is ready**, and changes nothing otherwise. -/
theorem visitComponent_wp (hescape : Escapes escape g R) (hg : g.WellFormed)
    (h : Classified g analysis) (hi : analysis.components[i]? = some component)
    (hstate : state.Invariant escape g R analysis) :
    Result.wp (fun _ => False) (visitComponent escape g analysis component state) fun state' =>
      state'.Invariant escape g R analysis ∧
        (state' = state ∧ ¬ Ready g analysis component state ∨
          state'.progress = true ∧ state'.remaining < state.remaining) := by
  obtain rfl : component.id = i := h.id hi
  have hc := List.mem_of_getElem? hi
  have hlt : component.id < state.outcomes.length :=
    hstate.outcomes ▸ (List.getElem?_eq_some_iff.1 hi).1
  have hget := List.getElem?_eq_getElem hlt
  refine Result.wp_bind.2 ((wp_vecGet hget).2 ?_)
  split
  -- a component that has been settled is left alone
  · next hsome =>
    refine Result.wp_pure.2 ⟨hstate, .inl ⟨rfl, fun hready => ?_⟩⟩
    rw [Option.some.inj (hget.symm.trans hready.1)] at hsome
    cases hsome
  · next hnone =>
    have hnone : state.outcomes[component.id]? = some none := by
      rw [hget, Option.not_isSome_iff_eq_none.1 hnone]
    refine Result.wp_bind.2
      (Result.wp_mono (externalComponents_wp hg h) fun dependencies hdeps => ?_)
    have hstatuses : Result.wp (fun _ => False) (dependencies.mapM (vecGet state.outcomes))
        (List.Forall₂ (fun j status => state.outcomes[j]? = some status) dependencies) := by
      refine Result.wp_mapM fun j hj => ?_
      obtain ⟨A, -, p, -, s, -, B, -, hB, -⟩ := (hdeps j).1 hj
      obtain ⟨c, hc⟩ := h.owner hB
      have hj := List.getElem?_eq_getElem
        (hstate.outcomes ▸ (List.getElem?_eq_some_iff.1 hc).1 : j < state.outcomes.length)
      exact (wp_vecGet hj).2 hj
    refine Result.wp_bind.2 (Result.wp_mono hstatuses fun statuses hstatuses => ?_)
    split
    · next hwaiting =>
      obtain ⟨status, hstatus, hisNone⟩ := List.any_eq_true.1 hwaiting
      obtain rfl := Option.isNone_iff_eq_none.1 hisNone
      obtain ⟨j, hj, hjnone⟩ := exists_of_forall₂_left hstatuses.flip hstatus
      exact Result.wp_pure.2 ⟨hstate, .inl ⟨rfl, fun hready => hready.2 j ((hdeps j).1 hj) hjnone⟩⟩
    · next hwaiting =>
      -- all that it needs is settled, so now it is: refused with what it needs, or certified
      have hneeds : ∀ j, External g analysis component j → state.outcomes[j]? ≠ some none := by
        intro j hj hjnone
        obtain ⟨status, hmem, hstatus⟩ := exists_of_forall₂_left hstatuses ((hdeps j).2 hj)
        obtain rfl := Option.some.inj (hstatus.symm.trans hjnone)
        exact hwaiting (List.any_eq_true.2 ⟨none, hmem, rfl⟩)
      have hunrecorded : ∀ A ∈ component.members, state.expressions[A]? = some none := by
        intro A hA
        obtain ⟨e, he, hiff⟩ := hstate.recorded hi A hA
        cases e with
        | none => exact he
        | some e =>
          obtain ⟨kind, hkind⟩ := hiff.1 rfl
          rw [hnone] at hkind
          cases hkind
      split
      · next hrefused =>
        have hjudged : Judged escape g analysis component state.expressions
            (.error .uncertifiedDependency) := by
          refine fun kind => ⟨fun hok => (by cases hok), fun hkind => ?_⟩
          obtain ⟨status, hmem, hstatus⟩ := List.any_eq_true.1 hrefused
          obtain ⟨j, hj, hjstatus⟩ := exists_of_forall₂_left hstatuses.flip hmem
          exact absurd hkind
            (not_certifiable_of_isRefused h hstate ((hdeps j).1 hj) hjstatus hstatus kind)
        refine Result.wp_mono (settle_wp hg h hstate hi hnone hneeds hjudged hstate.solved
          (fun A hA => ⟨none, hunrecorded A hA, by simp⟩) fun _ _ => rfl) ?_
        exact fun state' hstate' => ⟨hstate'.1, .inr hstate'.2⟩
      · have hsettled := certifyComponent_settled hescape hg h hc hstate.solved
        cases hrun : certifyComponent escape g analysis component state.expressions with
        | ok kind expressions' =>
          rw [hrun] at hsettled
          obtain ⟨hrecorded, hkind⟩ := hsettled
          have hjudged : Judged escape g analysis component state.expressions (.ok kind) := by
            intro kind'
            rw [hkind, Except.ok.injEq]
          refine Result.wp_mono (settle_wp hg h hstate hi hnone hneeds hjudged hrecorded.solved
            (fun A hA => ?_) hrecorded.notMem) fun state' hstate' => ⟨hstate'.1, .inr hstate'.2⟩
          obtain ⟨e, he⟩ := hrecorded.mem A hA
          exact ⟨some e, he, by simp⟩
        | error reason expressions' =>
          rw [hrun] at hsettled
          obtain ⟨hreason, rfl, hnot⟩ := hsettled
          have hjudged : Judged escape g analysis component state.expressions (.error reason) :=
            fun kind => ⟨fun hok => (by cases hok), fun hkind => absurd hkind (hnot kind)⟩
          rw [reported, if_neg hreason]
          refine Result.wp_mono (settle_wp hg h hstate hi hnone hneeds hjudged hstate.solved
            (fun A hA => ⟨none, hunrecorded A hA, by simp⟩) fun _ _ => rfl) ?_
          exact fun state' hstate' => ⟨hstate'.1, .inr hstate'.2⟩

/-- **A pass settles a component**, the first one that is preceded by none of those left. -/
theorem pass_wp (hescape : Escapes escape g R) (hg : g.WellFormed) (h : Classified g analysis)
    (hstate : state.Invariant escape g R analysis) (hleft : state.remaining ≠ 0) :
    Result.wp (fun _ => False) (analysis.components.foldlM
        (fun state component => visitComponent escape g analysis component state)
        { state with progress := false }) fun state' =>
      state'.Invariant escape g R analysis ∧ state'.progress = true ∧
        state'.remaining < state.remaining := by
  have hpos : 0 < state.outcomes.count none :=
    hstate.remaining ▸ Nat.pos_of_ne_zero hleft
  obtain ⟨i, hi⟩ := List.mem_iff_getElem?.1 (List.count_pos_iff.1 hpos)
  obtain ⟨first, hfirst, hmin⟩ := h.exists_minimal
    (P := fun i => state.outcomes[i]? = some none)
    (fun i hi => hstate.outcomes ▸ (List.getElem?_eq_some_iff.1 hi).1) hi
  obtain ⟨c, hc⟩ : ∃ c, analysis.components[first]? = some c :=
    ⟨_, List.getElem?_eq_getElem (hstate.outcomes ▸ (List.getElem?_eq_some_iff.1 hfirst).1)⟩
  have hready : Ready g analysis c { state with progress := false } := by
    refine ⟨(h.id hc).symm ▸ hfirst, fun j hj hnone => hmin j hnone ?_⟩
    have hprecedes := hj.precedes h (List.mem_of_getElem? hc)
    rwa [h.id hc] at hprecedes
  have hloop := Result.wp_foldlM (E := fun _ : CompileError => False)
    (f := fun state component => visitComponent escape g analysis component state)
    (I := fun done rest (state' : Certification) => done ++ rest = analysis.components ∧
      state'.Invariant escape g R analysis ∧
      (state' = { state with progress := false } ∧ c ∉ done ∨
        state'.progress = true ∧ state'.remaining < state.remaining))
    ?_ [] analysis.components { state with progress := false }
    ⟨rfl, { hstate with }, .inl ⟨rfl, List.not_mem_nil⟩⟩
  · refine Result.wp_mono hloop ?_
    rintro state' ⟨-, hstate', ⟨-, hnot⟩ | hprogress⟩
    · exact absurd (List.mem_of_getElem? hc) hnot
    · exact ⟨hstate', hprogress⟩
  · rintro done component rest state' ⟨hall, hstate', hcase⟩
    obtain ⟨k, hk⟩ : ∃ k, analysis.components[k]? = some component :=
      List.mem_iff_getElem?.1 (hall ▸ by simp)
    refine Result.wp_mono (visitComponent_wp hescape hg h hk hstate') ?_
    rintro state'' ⟨hstate'', ⟨rfl, hnot⟩ | ⟨hprogress, hless⟩⟩
    · refine ⟨by simpa using hall, hstate', hcase.imp_left ?_⟩
      rintro ⟨rfl, hdone⟩
      refine ⟨rfl, fun hmem => ?_⟩
      rcases List.mem_append.1 hmem with hmem | hmem
      · exact hdone hmem
      · exact hnot (List.mem_singleton.1 hmem ▸ hready)
    · refine ⟨by simpa using hall, hstate'', .inr ⟨hprogress, ?_⟩⟩
      rcases hcase with ⟨rfl, -⟩ | ⟨-, hbefore⟩
      · exact hless
      · exact hless.trans hbefore

/-- **The loop settles every component.** -/
theorem certifyLoop_wp (hescape : Escapes escape g R) (hg : g.WellFormed)
    (h : Classified g analysis)
    {fuel : ℕ} (hstate : state.Invariant escape g R analysis) (hfuel : state.remaining ≤ fuel) :
    Result.wp (fun _ => False) (certifyLoop escape g analysis fuel state) fun state' =>
      state'.Invariant escape g R analysis ∧ state'.remaining = 0 := by
  induction fuel generalizing state with
  | zero =>
    have hzero := Nat.le_zero.1 hfuel
    rw [certifyLoop, if_pos hzero]
    exact ⟨hstate, hzero⟩
  | succ fuel ih =>
    rw [certifyLoop]
    split
    · next hzero => exact ⟨hstate, hzero⟩
    · next hleft =>
      refine Result.wp_bind.2 (Result.wp_mono (pass_wp hescape hg h hstate hleft) ?_)
      rintro state' ⟨hstate', hprogress, hless⟩
      refine Result.wp_bind.2 (Result.wp_require.2 ⟨fun _ => ?_, fun hnot => hnot hprogress⟩)
      exact ih hstate' (by omega)

end Run

/-! ### The analysis -/

/-- The loop begins with nothing recorded. -/
theorem certification_initial (h : Classified g analysis) :
    Certification.Invariant escape g R analysis {
      outcomes := List.replicate analysis.components.length none
      expressions := List.replicate g.nonterminals.length none
      remaining := analysis.components.length
      progress := false } where
  outcomes := List.length_replicate
  remaining := by simp
  solved := {
    length := List.length_replicate
    sound := fun {A e} he => by
      have hmem := List.mem_of_getElem? he
      simp [List.mem_replicate] at hmem }
  recorded := fun {i c} hc A hA => by
    have hlt := h.lt_of_mem (List.mem_of_getElem? hc) hA
    refine ⟨none, List.getElem?_replicate_of_lt hlt, ?_⟩
    have hi := (List.getElem?_eq_some_iff.1 hc).1
    rw [List.getElem?_replicate_of_lt hi]
    simp
  judged := fun {i c outcome} _ houtcome => by
    have hmem := List.mem_of_getElem? houtcome
    simp [List.mem_replicate] at hmem

/-- The certificate of an outcome. -/
def IsCertificate (entry : Option CertificateOutcome × ℕ) (certificate : SccCertificate) : Prop :=
  certificate.scc = entry.2 ∧
    (∀ kind, certificate.kind = some kind ↔ entry.1 = some (.ok kind)) ∧
    (certificate.failureReason.isSome = true ↔ certificate.kind = none)

theorem certificateOf_wp {entry : Option CertificateOutcome × ℕ} (hsome : entry.1.isSome = true)
    (hid : entry.2 ≤ u32Max) :
    Result.wp (fun _ => False) (certificateOf entry) (IsCertificate entry) := by
  obtain ⟨outcome, i⟩ := entry
  obtain ⟨outcome, rfl⟩ := Option.isSome_iff_exists.1 hsome
  refine Result.wp_bind.2 (Result.wp_unwrap_some.2 (Result.wp_bind.2 ((wp_toU32 hid).2 ?_)))
  cases outcome with
  | ok kind => exact Result.wp_pure.2 ⟨rfl, by simp, by simp⟩
  | error reason => exact Result.wp_pure.2 ⟨rfl, by simp, by simp⟩

/-- The certificate of a nonterminal's component, and the nonterminal's expression. -/
structure Certified (result : RegularAnalysis) (A i : ℕ) (certificate : SccCertificate)
    (e : Option RegularExpression) : Prop where
  component : result.sccs.componentOf[A]? = some i
  recorded : result.certificates[i]? = some certificate
  scc : certificate.scc = i
  expression : result.expressions[A]? = some e
  isSome_iff : e.isSome = true ↔ certificate.kind.isSome = true

/-- What the analysis of a grammar says is right. -/
structure RegularAnalysis.Exact (escape : String → String) (g : Grammar)
    (R : String → Language UInt8) (result : RegularAnalysis) : Prop where
  sccs : analyzeSccs g = .ok result.sccs
  classified : Classified g result.sccs
  certificates : result.certificates.length = result.sccs.components.length
  solved : Solved escape g R result.expressions
  reason : ∀ certificate ∈ result.certificates,
    certificate.failureReason.isSome = true ↔ certificate.kind = none
  certified : ∀ A < g.nonterminals.length, ∃ i certificate e, Certified result A i certificate e
  certifiable : ∀ {i : ℕ} {c : Scc}, result.sccs.components[i]? = some c →
    ∃ certificate, result.certificates[i]? = some certificate ∧ ∀ kind,
      certificate.kind = some kind ↔ Certifiable escape g result.sccs c result.expressions kind
  whole : result.expressions[g.start]? = some result.wholeLanguage

/-- **The analysis succeeds and is right.** -/
theorem exists_certifyRegular (hg : g.WellFormed) (hescape : Escapes escape g R) :
    ∃ result, certifyRegular escape g = .ok result ∧ result.Exact escape g R := by
  obtain ⟨analysis, hanalysis, h⟩ := analyzeSccs_classified hg
  obtain ⟨state, hloop, hstate, hzero⟩ := Result.exists_of_wp
    (certifyLoop_wp hescape hg h (certification_initial (R := R) h) le_rfl)
  -- the loop ends with nothing left, so that every component has an outcome to report
  have hsettled : ∀ outcome ∈ state.outcomes, outcome ≠ none := by
    rintro outcome houtcome rfl
    exact (List.count_pos_iff.2 houtcome).ne' (hstate.remaining.symm.trans hzero)
  have hcertificates : Result.wp (fun _ => False) (state.outcomes.zipIdx.mapM certificateOf)
      (List.Forall₂ IsCertificate state.outcomes.zipIdx) := by
    refine Result.wp_mapM fun entry hentry => ?_
    have hget := List.mem_zipIdx_iff_getElem?.1 hentry
    refine certificateOf_wp
      (Option.isSome_iff_ne_none.2 (hsettled _ (List.mem_of_getElem? hget))) ?_
    have hlt := (List.getElem?_eq_some_iff.1 hget).1
    have hcount := h.length_le.trans hg.nonterminals_length
    rw [hstate.outcomes] at hlt
    omega
  obtain ⟨certificates, hmapM, hall⟩ := Result.exists_of_wp hcertificates
  have hlength : certificates.length = analysis.components.length := by
    rw [← hall.length_eq, List.length_zipIdx, hstate.outcomes]
  have hcertificate : ∀ {i : ℕ} {c : Scc}, analysis.components[i]? = some c →
      ∃ outcome certificate, state.outcomes[i]? = some (some outcome) ∧
        certificates[i]? = some certificate ∧ certificate.scc = i ∧
          ∀ kind, certificate.kind = some kind ↔ outcome = .ok kind := by
    intro i c hc
    have hlt := (List.getElem?_eq_some_iff.1 hc).1
    have houtcome := List.getElem?_eq_getElem (hstate.outcomes ▸ hlt : i < state.outcomes.length)
    obtain ⟨outcome, hsome⟩ := Option.ne_none_iff_exists'.1
      (hsettled _ (List.mem_of_getElem? houtcome))
    rw [hsome] at houtcome
    have hcertificate := List.getElem?_eq_getElem (hlength ▸ hlt : i < certificates.length)
    have hzip : state.outcomes.zipIdx[i]? = some (some outcome, i) := by
      rw [List.getElem?_zipIdx, houtcome, Option.map_some, Nat.zero_add]
    obtain ⟨hid, hkind, -⟩ := forall₂_getElem? hall hzip hcertificate
    refine ⟨outcome, _, houtcome, hcertificate, hid, fun kind => ?_⟩
    rw [hkind, Option.some.injEq]
  obtain ⟨wholeLanguage, hstart⟩ : ∃ e, state.expressions[g.start]? = some e :=
    ⟨_, List.getElem?_eq_getElem (hstate.solved.length ▸ hg.start_lt)⟩
  refine ⟨⟨analysis, certificates, state.expressions, wholeLanguage⟩, ?_, {
    sccs := hanalysis
    classified := h
    certificates := hlength
    solved := hstate.solved
    reason := fun certificate hcertificate => ?_
    certified := fun A hA => ?_
    certifiable := fun {i c} hc => ?_
    whole := hstart }⟩
  · refine Result.bind_eq_ok.2 ⟨analysis, hanalysis, Result.bind_eq_ok.2 ⟨state, hloop, ?_⟩⟩
    refine Result.bind_eq_ok.2 ⟨certificates, hmapM, Result.bind_eq_ok.2 ⟨wholeLanguage, ?_, rfl⟩⟩
    exact vecGet_of hstart
  · obtain ⟨entry, -, -, -, hreason⟩ := exists_of_forall₂_left hall.flip hcertificate
    exact hreason
  · obtain ⟨i, hi⟩ : ∃ i, analysis.componentOf[A]? = some i :=
      ⟨_, List.getElem?_eq_getElem (h.length ▸ hA)⟩
    obtain ⟨c, hc⟩ := h.owner hi
    obtain ⟨e, he, hiff⟩ := hstate.recorded hc A ((h.mem_iff hc A).2 hi)
    obtain ⟨outcome, certificate, houtcome, hcertificate, hid, hkind⟩ := hcertificate hc
    refine ⟨i, certificate, e, hi, hcertificate, hid, he, ?_⟩
    rw [hiff, houtcome, Option.isSome_iff_exists]
    simp [hkind]
  · obtain ⟨outcome, certificate, houtcome, hcertificate, -, hkind⟩ := hcertificate hc
    refine ⟨certificate, hcertificate, fun kind => ?_⟩
    rw [hkind]
    exact (hstate.judged hc houtcome).2 kind

/-- **Certification is exact.**  It succeeds, every component is either certified or has a reason,
and a nonterminal has an expression just when its component is certified; the expression denotes the
language that the nonterminal generates. -/
theorem certifyRegular_exact (hg : g.WellFormed) (hescape : Escapes escape g R) :
    ∃ result, certifyRegular escape g = .ok result ∧ analyzeSccs g = .ok result.sccs ∧
      result.certificates.length = result.sccs.components.length ∧
      result.expressions.length = g.nonterminals.length ∧
      (∀ certificate ∈ result.certificates,
        certificate.failureReason.isSome = true ↔ certificate.kind = none) ∧
      (∀ A < g.nonterminals.length, ∃ i certificate e, result.sccs.componentOf[A]? = some i ∧
        result.certificates[i]? = some certificate ∧ certificate.scc = i ∧
        result.expressions[A]? = some e ∧ (e.isSome = true ↔ certificate.kind.isSome = true) ∧
        ∀ expression, e = some expression →
          expression.language (fun forward _ => R forward) = g.language R A) ∧
      result.expressions[g.start]? = some result.wholeLanguage := by
  obtain ⟨result, hresult, hexact⟩ := exists_certifyRegular hg hescape
  refine ⟨result, hresult, hexact.sccs, hexact.certificates, hexact.solved.length, hexact.reason,
    fun A hA => ?_, hexact.whole⟩
  obtain ⟨i, certificate, e, hA⟩ := hexact.certified A hA
  refine ⟨i, certificate, e, hA.component, hA.recorded, hA.scc, hA.expression, hA.isSome_iff, ?_⟩
  rintro expression rfl
  exact (hexact.solved.sound hA.expression).2

/-- **Which components are certified, and as what**: those whose other symbols have expressions and
that are without recursion, right-linear or left-linear. -/
theorem certified_iff_certifiable (hg : g.WellFormed) (hescape : Escapes escape g R)
    {result : RegularAnalysis} (hresult : certifyRegular escape g = .ok result) {i : ℕ} {c : Scc}
    (hc : result.sccs.components[i]? = some c) :
    ∃ certificate, result.certificates[i]? = some certificate ∧ ∀ kind,
      certificate.kind = some kind ↔
        Certifiable escape g result.sccs c result.expressions kind := by
  obtain ⟨result', hresult', hexact⟩ := exists_certifyRegular hg hescape
  obtain rfl := Except.ok.inj (hresult.symm.trans hresult')
  exact hexact.certifiable hc

/-- `S → a` and `S → S b`. -/
def leftGrammar : Grammar where
  start := 0
  nonterminals := [⟨0, "S", .root⟩]
  terminals := [⟨0, .literal (utf8Bytes "a"), .root⟩, ⟨1, .literal (utf8Bytes "b"), .root⟩]
  productions := [⟨0, 0, [.terminal 0], .root⟩, ⟨1, 0, [.nonterminal 0, .terminal 1], .root⟩]

theorem leftGrammar_wellFormed : leftGrammar.WellFormed :=
  .of_ids (by decide) rfl rfl rfl (by decide) (by decide) (by decide) (by decide) (by decide)
    (by decide)

theorem leftGrammar_escapes : Escapes Pattern.escape leftGrammar patternLanguage where
  escape := patternLanguage_escape
  literal := by
    simp only [leftGrammar, List.forall_mem_cons]
    refine ⟨fun bytes h => ⟨"a", ?_⟩, fun bytes h => ⟨"b", ?_⟩, by simp⟩
    · exact (RegularTerminalKind.literal.inj h).symm
    · exact (RegularTerminalKind.literal.inj h).symm

theorem certifyRegular_exact_left :
    ∃ result expression, certifyRegular Pattern.escape leftGrammar = .ok result ∧
      result.wholeLanguage = some expression ∧
      expression.language (fun forward _ => patternLanguage forward) =
        leftGrammar.language patternLanguage 0 := by
  obtain ⟨result, hresult, -, -, -, -, hall, hwhole⟩ :=
    certifyRegular_exact leftGrammar_wellFormed leftGrammar_escapes
  obtain ⟨i, certificate, e, -, -, -, he, -, hlanguage⟩ := hall 0 (by decide)
  obtain rfl : e = result.wholeLanguage := Option.some.inj (he.symm.trans hwhole)
  have hsome : ((certifyRegular Pattern.escape leftGrammar).toOption.bind
      RegularAnalysis.wholeLanguage).isSome = true := by decide +kernel
  rw [hresult] at hsome
  obtain ⟨expression, hexpression⟩ := Option.isSome_iff_exists.1 hsome
  exact ⟨result, expression, hresult, hexpression, hlanguage expression hexpression⟩

end OcEarley

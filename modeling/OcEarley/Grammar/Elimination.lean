import OcEarley.Grammar.CertifyExact

/-!
# Elimination

The matrix of a linear system, while it is filled and while its members are eliminated: an entry
denotes the walks from one state to another through the members that are eliminated already.
-/

namespace OcEarley

open OcEarley.RegularExpression

variable {escape : String → String} {g : Grammar} {R : String → Language UInt8} {reversed : Bool}
  {n source target pivot : ℕ} {edges : List (List RegularExpression)} {M : ℕ → ℕ → Language UInt8}
  {E : CertificateFailureReason → Prop}

/-- The entries denote the languages. -/
def Entries (escape : String → String) (g : Grammar) (R : String → Language UInt8)
    (reversed : Bool) (n : ℕ) (edges : List (List RegularExpression))
    (M : ℕ → ℕ → Language UInt8) : Prop :=
  ∀ s < n, ∃ row, edges[s]? = some row ∧ ∀ t < n, ∃ e, row[t]? = some e ∧
    Expresses escape g R reversed e (M s t)

theorem Entries.congr {M' : ℕ → ℕ → Language UInt8} (h : Entries escape g R reversed n edges M)
    (hM : ∀ s < n, ∀ t < n, M s t = M' s t) : Entries escape g R reversed n edges M' := by
  intro s hs
  obtain ⟨row, hrow, hentries⟩ := h s hs
  refine ⟨row, hrow, fun t ht => ?_⟩
  obtain ⟨e, he, hexpresses⟩ := hentries t ht
  exact ⟨e, he, hM s hs t ht ▸ hexpresses⟩

theorem Expresses.empty : Expresses escape g R reversed .empty 0 := ⟨.empty, rfl⟩

theorem entries_replicate :
    Entries escape g R reversed n (List.replicate n (List.replicate n .empty)) fun _ _ => 0 :=
  fun _ hs => ⟨_, List.getElem?_replicate_of_lt hs, fun _ ht =>
    ⟨_, List.getElem?_replicate_of_lt ht, .empty⟩⟩

theorem edgeAt_wp (h : Entries escape g R reversed n edges M) (hs : source < n)
    (ht : target < n) :
    Result.wp E (edgeAt edges source target) fun e =>
      Expresses escape g R reversed e (M source target) := by
  obtain ⟨row, hrow, hentries⟩ := h source hs
  obtain ⟨e, he, hexpresses⟩ := hentries target ht
  rw [edgeAt, hrow]
  refine Result.wp_bind.2 (Result.wp_unwrap_some.2 ?_)
  rw [he]
  exact Result.wp_unwrap_some.2 hexpresses

theorem Expresses.union {e e' : RegularExpression} {L L' : Language UInt8}
    (h : Expresses escape g R reversed e L) (h' : Expresses escape g R reversed e' L') :
    Expresses escape g R reversed (OcEarley.union [e, e']) (L + L') := by
  refine ⟨.union ?_, ?_⟩
  · simp [h.1, h'.1]
  · rw [language_union]
    simp [h.2, h'.2]

/-- **A branch is added to one entry.** -/
theorem addBranch_wp (h : Entries escape g R reversed n edges M) (hs : source < n)
    (ht : target < n) {label : RegularExpression} {L : Language UInt8}
    (hlabel : Expresses escape g R reversed label L) :
    Result.wp E (addBranch edges source target label) fun edges' =>
      Entries escape g R reversed n edges' fun s t =>
        M s t + if s = source ∧ t = target then L else 0 := by
  obtain ⟨row, hrow, hentries⟩ := h source hs
  obtain ⟨e, he, hexpresses⟩ := hentries target ht
  rw [addBranch, hrow]
  refine Result.wp_bind.2 (Result.wp_unwrap_some.2 ?_)
  rw [he]
  refine Result.wp_bind.2 (Result.wp_unwrap_some.2 (Result.wp_pure.2 fun s hs' => ?_))
  by_cases hss : s = source
  · subst hss
    refine ⟨_, List.getElem?_set_self (List.getElem?_eq_some_iff.1 hrow).1, fun t ht' => ?_⟩
    by_cases htt : t = target
    · subst htt
      refine ⟨_, List.getElem?_set_self (List.getElem?_eq_some_iff.1 he).1, ?_⟩
      dsimp only
      rw [if_pos ⟨rfl, rfl⟩]
      exact hexpresses.union hlabel
    · obtain ⟨e', he', hexpresses'⟩ := hentries t ht'
      refine ⟨e', by rw [List.getElem?_set_ne (Ne.symm htt), he'], ?_⟩
      dsimp only
      rw [if_neg fun hst => htt hst.2, add_zero]
      exact hexpresses'
  · obtain ⟨row', hrow', hentries'⟩ := h s hs'
    refine ⟨row', by rw [List.getElem?_set_ne (Ne.symm hss), hrow'], fun t ht' => ?_⟩
    obtain ⟨e', he', hexpresses'⟩ := hentries' t ht'
    refine ⟨e', he', ?_⟩
    dsimp only
    rw [if_neg fun hst => hss hst.1, add_zero]
    exact hexpresses'

/-! ### One pivot -/

theorem Expresses.star {e : RegularExpression} {L : Language UInt8}
    (h : Expresses escape g R reversed e L) :
    Expresses escape g R reversed (OcEarley.star e) (KStar.kstar L) :=
  ⟨.star h.1, by rw [language_star, h.2]⟩

theorem Expresses.path {e₁ e₂ e₃ : RegularExpression} {L₁ L₂ L₃ : Language UInt8}
    (h₁ : Expresses escape g R reversed e₁ L₁) (h₂ : Expresses escape g R reversed e₂ L₂)
    (h₃ : Expresses escape g R reversed e₃ L₃) :
    Expresses escape g R reversed (OcEarley.concat [e₁, e₂, e₃]) (L₁ * L₂ * L₃) := by
  refine ⟨.concat ?_, ?_⟩
  · simp [h₁.1, h₂.1, h₃.1]
  · rw [RegularExpression.language_concat]
    simp [h₁.2, h₂.2, h₃.2, mul_assoc]

theorem Expresses.eq_zero {L : Language UInt8}
    (h : Expresses escape g R reversed .empty L) : L = 0 :=
  h.2.symm

/-- The walks from one source through the pivot. -/
theorem passPivot_wp (h : Entries escape g R reversed n edges M) (hs : source < n)
    {entering loop : RegularExpression} {outgoing : List RegularExpression}
    {I K : Language UInt8} {O : ℕ → Language UInt8}
    (hentering : Expresses escape g R reversed entering I)
    (hloop : Expresses escape g R reversed loop K)
    (houtgoing : ∀ t < n, ∃ e, outgoing[t]? = some e ∧ Expresses escape g R reversed e (O t)) :
    Result.wp E (passPivot n entering loop outgoing source edges) fun edges' =>
      Entries escape g R reversed n edges' fun s t =>
        M s t + if s = source then I * K * O t else 0 := by
  unfold passPivot
  split
  -- without an edge into the pivot there is nothing to add
  · next hempty =>
    subst hempty
    obtain rfl := hentering.eq_zero
    exact Result.wp_pure.2 (h.congr fun s _ t _ => by simp)
  · have hrule := Result.wp_foldlM (E := E)
      (f := fun (edges : List (List RegularExpression)) target => do
        let leaving ← Result.unwrap outgoing[target]? CertificateFailureReason.panicked
        if leaving = .empty then pure edges
        else addBranch edges source target (OcEarley.concat [entering, loop, leaving]))
      (I := fun done rest edges => done ++ rest = List.range n ∧
        Entries escape g R reversed n edges fun s t =>
          M s t + if s = source ∧ t ∈ done then I * K * O t else 0) ?_ [] (List.range n) edges
      ⟨rfl, h.congr fun s _ t _ => by simp⟩
    · refine Result.wp_mono hrule ?_
      rintro edges' ⟨hdone, hedges'⟩
      refine hedges'.congr fun s _ t ht => ?_
      have hmem : t ∈ List.range n := List.mem_range.2 ht
      simp [hmem]
    · rintro done t rest edges ⟨hall, hedges⟩
      have ht : t < n := List.mem_range.1 (hall ▸ by simp)
      -- every target is passed once, so that its product is added once
      have hnew : t ∉ done := by
        intro hmem
        have hnodup := List.nodup_range (n := n)
        rw [← hall, List.nodup_append] at hnodup
        exact hnodup.2.2 t hmem t List.mem_cons_self rfl
      obtain ⟨leaving, hleaving, hO⟩ := houtgoing t ht
      rw [hleaving]
      refine Result.wp_bind.2 (Result.wp_unwrap_some.2 ?_)
      split
      · next hempty =>
        subst hempty
        have hzero := hO.eq_zero
        refine Result.wp_pure.2 ⟨by simpa using hall, hedges.congr fun s _ t' _ => ?_⟩
        by_cases htt : t' = t
        · subst htt
          simp [hzero]
        · simp [htt]
      · refine Result.wp_mono (addBranch_wp hedges hs ht (hentering.path hloop hO)) ?_
        intro edges' hedges'
        refine ⟨by simpa using hall, hedges'.congr fun s _ t' _ => ?_⟩
        by_cases htt : t' = t
        · subst htt
          simp [hnew]
        · simp [htt]

/-- **One pivot.**  Its row and its column are read before any entry changes. -/
theorem eliminate_wp (h : Entries escape g R reversed n edges M) (hpivot : pivot < n) :
    Result.wp E (eliminate n edges pivot) fun edges' =>
      Entries escape g R reversed n edges' fun s t =>
        M s t + M s pivot * KStar.kstar (M pivot pivot) * M pivot t := by
  -- the column is read before any row is changed
  have hincoming : Result.wp E ((List.range n).mapM fun source => edgeAt edges source pivot)
      (List.Forall₂ (fun s e => Expresses escape g R reversed e (M s pivot)) (List.range n)) :=
    Result.wp_mapM fun s hs => edgeAt_wp h (List.mem_range.1 hs) hpivot
  refine Result.wp_bind.2 (Result.wp_mono hincoming fun incoming hcolumn => ?_)
  obtain ⟨outgoing, houtgoing, hrow⟩ := h pivot hpivot
  rw [houtgoing]
  refine Result.wp_bind.2 (Result.wp_unwrap_some.2 ?_)
  refine Result.wp_bind.2 (Result.wp_mono (edgeAt_wp h hpivot hpivot) fun here hhere => ?_)
  -- row by row, the ways through the pivot are added
  have hrule := Result.wp_foldlM (E := E)
    (f := fun (edges : List (List RegularExpression)) source => do
      let entering ← Result.unwrap incoming[source]? CertificateFailureReason.panicked
      passPivot n entering (OcEarley.star here) outgoing source edges)
    (I := fun done rest edges => done ++ rest = List.range n ∧
      Entries escape g R reversed n edges fun s t =>
        M s t + if s ∈ done then M s pivot * KStar.kstar (M pivot pivot) * M pivot t else 0)
    ?_ [] (List.range n) edges ⟨rfl, h.congr fun s _ t _ => by simp⟩
  · refine Result.wp_mono hrule ?_
    rintro edges' ⟨hdone, hedges'⟩
    refine hedges'.congr fun s hs t _ => ?_
    have hmem : s ∈ List.range n := List.mem_range.2 hs
    simp [hmem]
  · rintro done s rest edges ⟨hall, hedges⟩
    have hs : s < n := List.mem_range.1 (hall ▸ by simp)
    have hnew : s ∉ done := by
      intro hmem
      have hnodup := List.nodup_range (n := n)
      rw [← hall, List.nodup_append] at hnodup
      exact hnodup.2.2 s hmem s List.mem_cons_self rfl
    have hlt : s < incoming.length := by
      rw [← hcolumn.length_eq, List.length_range]
      exact hs
    have hentering := List.getElem?_eq_getElem hlt
    have hI := forall₂_getElem? hcolumn (List.getElem?_range hs) hentering
    rw [hentering]
    refine Result.wp_bind.2 (Result.wp_unwrap_some.2 ?_)
    refine Result.wp_mono (passPivot_wp hedges hs hI hhere.star hrow) fun edges' hedges' => ?_
    refine ⟨by simpa using hall, hedges'.congr fun s' _ t _ => ?_⟩
    by_cases hss : s' = s
    · subst hss
      simp [hnew]
    · simp [hss]

/-- **All pivots**: in the end the entries denote the walks through the members. -/
theorem eliminateAll_wp {m : ℕ} (h : Entries escape g R reversed n edges M) (hm : m ≤ n) :
    Result.wp E ((List.range m).foldlM (eliminate n) edges) fun edges' =>
      Entries escape g R reversed n edges' (walks M (· < m)) := by
  induction m with
  | zero =>
    refine Result.wp_pure.2 (h.congr fun s _ t _ => le_antisymm le_walks ?_)
    exact walks_le (X := fun s => M s t) (fun _ => le_rfl) fun _ _ hk =>
      absurd hk (Nat.not_lt_zero _)
  | succ m ih =>
    rw [List.range_succ, List.foldlM_append]
    refine Result.wp_bind.2 (Result.wp_mono (ih (Nat.le_of_succ_le hm)) fun edges' hedges' => ?_)
    rw [List.foldlM_cons]
    refine Result.wp_bind.2 (Result.wp_mono (eliminate_wp hedges' hm) fun edges'' hedges'' => ?_)
    refine Result.wp_pure.2 (hedges''.congr fun s _ t _ => ?_)
    exact (walks_insert fun i => Nat.lt_succ_iff_lt_or_eq).symm

/-! ### The system of a component -/

section System

variable {analysis : SccAnalysis} {component : Scc}
  {expressions : List (Option RegularExpression)}

/-- The labels of the edges to a state that come from the productions. -/
def labels (g : Grammar) (R : String → Language UInt8) (analysis : SccAnalysis) (component : Scc)
    (reversed : Bool) (productions : List Production) (target : ℕ) : Language UInt8 :=
  {x | ∃ p ∈ productions, ∃ β, edgeOf analysis component reversed p.rhs = .ok (target, β) ∧
    x ∈ turn reversed (β.map (g.symbol R)).prod}

/-- What is needed of a component to make a system of it. -/
structure System (g : Grammar) (analysis : SccAnalysis) (component : Scc)
    (reversed : Bool) : Prop where
  inRange : ∀ A ∈ component.members, ∀ p ∈ g.productionsFor A, InRange g analysis p.rhs
  linear : AllLinear g analysis component reversed
  mem_members : ∀ A, analysis.componentOf[A]? = some component.id → A ∈ component.members
  nodup : component.members.Nodup

theorem System.edge (h : System g analysis component reversed) {A : ℕ} (hA : A ∈ component.members)
    {p : Production} (hp : p ∈ g.productionsFor A) :
    ∃ edge, edgeOf analysis component reversed p.rhs = .ok edge ∧
      IsEdge analysis component reversed p.rhs edge.1 edge.2 :=
  Result.exists_of_wp (edgeOf_succeeds (h.inRange A hA p hp) h.mem_members (h.linear A hA p hp))

theorem IsEdge.le_length {rhs β : List GrammarSymbol}
    (h : IsEdge analysis component reversed rhs target β) : target ≤ component.members.length := by
  rcases h with ⟨rfl, -⟩ | ⟨B, hB, -⟩
  · exact le_rfl
  · exact (List.getElem?_eq_some_iff.1 hB).1.le

theorem labels_cons (p : Production) (productions : List Production) (target : ℕ) :
    labels g R analysis component reversed (p :: productions) target =
      labels g R analysis component reversed [p] target +
        labels g R analysis component reversed productions target := by
  ext x
  rw [Language.mem_add]
  constructor
  · rintro ⟨q, hq, h⟩
    rcases List.mem_cons.1 hq with rfl | hq
    · exact .inl ⟨q, List.mem_cons_self, h⟩
    · exact .inr ⟨q, hq, h⟩
  · rintro (⟨q, hq, h⟩ | ⟨q, hq, h⟩)
    · exact ⟨q, List.mem_singleton.1 hq ▸ List.mem_cons_self, h⟩
    · exact ⟨q, List.mem_cons_of_mem _ hq, h⟩

/-- The symbols on the edge are those of the right-hand side that are no members. -/
theorem IsEdge.mem_iff {rhs β : List GrammarSymbol}
    (h : IsEdge analysis component reversed rhs target β) (s : GrammarSymbol) :
    s ∈ β ↔ s ∈ rhs ∧ ¬ IsRecursive analysis component s := by
  rcases h with ⟨-, rfl, hnone⟩ | ⟨B, -, rfl, hB, hβ⟩
  · exact ⟨fun hs => ⟨hs, hnone s hs⟩, fun hs => hs.1⟩
  · have hmem : s ∈ joined reversed β B ↔ s = .nonterminal B ∨ s ∈ β := by
      cases reversed <;> simp [joined, or_comm]
    rw [hmem]
    refine ⟨fun hs => ⟨.inr hs, hβ s hs⟩, ?_⟩
    rintro ⟨rfl | hs, hrec⟩
    · exact absurd hB hrec
    · exact hs

/-- All symbols of a right-hand side that are no members have an expression. -/
def Labelled (escape : String → String) (g : Grammar) (analysis : SccAnalysis) (component : Scc)
    (expressions : List (Option RegularExpression)) (reversed : Bool) (rhs : List GrammarSymbol) :
    Prop :=
  ∀ s ∈ rhs, ¬ IsRecursive analysis component s → Expressible escape g expressions reversed s

/-- The edge of a production is added. -/
theorem addProductionEdge_succeedsIff (hescape : Escapes escape g R)
    (hsolved : Solved escape g R expressions) (hsystem : System g analysis component reversed)
    {A : ℕ} (hA : A ∈ component.members) {p : Production} (hp : p ∈ g.productionsFor A)
    (hn : n = component.members.length + 1) (h : Entries escape g R reversed n edges M)
    (hs : source < n) :
    SucceedsIff (Labelled escape g analysis component expressions reversed p.rhs)
      (addProductionEdge escape g analysis component expressions reversed source edges p)
      fun edges' => Entries escape g R reversed n edges' fun s t =>
        M s t + if s = source then labels g R analysis component reversed [p] t else 0 := by
  obtain ⟨⟨target', β'⟩, hedge, hIs⟩ := hsystem.edge hA hp
  dsimp only at hIs
  have hrange := hsystem.inRange A hA p hp
  have hβ : InRange g analysis β' := ⟨hrange.1, fun s hs => hrange.2 s ((hIs.mem_iff s).1 hs).1⟩
  -- the label leaves out the recursive symbol, so that all of its symbols need expressions
  have hlabelled : (∀ s ∈ β', Expressible escape g expressions reversed s) ↔
      Labelled escape g analysis component expressions reversed p.rhs :=
    ⟨fun h s hs hrec => h s ((hIs.mem_iff s).2 ⟨hs, hrec⟩), fun h s hs =>
      h s ((hIs.mem_iff s).1 hs).1 ((hIs.mem_iff s).1 hs).2⟩
  have hlabel := (rhsExpression_succeedsIff hescape hsolved hβ fun s hs =>
    ((hIs.mem_iff s).1 hs).2).congr hlabelled
  rw [addProductionEdge, hedge]
  refine Result.wp_bind.2 ?_
  change Result.wp _ (_ >>= _) _
  refine Result.wp_bind.2 (Result.wp_mono hlabel ?_)
  rintro label ⟨hlabel, hall⟩
  have ht : target' < n := hn ▸ Nat.lt_succ_of_le hIs.le_length
  refine Result.wp_mono (addBranch_wp h hs ht hlabel) fun edges' hedges' => ⟨?_, hall⟩
  refine hedges'.congr fun s _ t _ => ?_
  have hlabels : labels g R analysis component reversed [p] t =
      if t = target' then turn reversed (β'.map (g.symbol R)).prod else 0 := by
    ext x
    split
    · next htt =>
      subst htt
      constructor
      · rintro ⟨q, hq, β, hqedge, hx⟩
        obtain rfl := List.mem_singleton.1 hq
        rw [hedge] at hqedge
        cases hqedge
        exact hx
      · exact fun hx => ⟨p, List.mem_cons_self, β', hedge, hx⟩
    · next htt =>
      constructor
      · rintro ⟨q, hq, β, hqedge, -⟩
        obtain rfl := List.mem_singleton.1 hq
        rw [hedge] at hqedge
        cases hqedge
        exact absurd rfl htt
      · exact fun hx => absurd hx (Language.notMem_zero x)
  rw [hlabels]
  by_cases hss : s = source <;> simp [hss]

/-- The edges of productions are added one after the other. -/
theorem addProductionEdges_succeedsIff (hescape : Escapes escape g R)
    (hsolved : Solved escape g R expressions) (hsystem : System g analysis component reversed)
    {A : ℕ} (hA : A ∈ component.members) {productions : List Production}
    (hsub : ∀ p ∈ productions, p ∈ g.productionsFor A)
    (hn : n = component.members.length + 1) (h : Entries escape g R reversed n edges M)
    (hs : source < n) :
    SucceedsIff (∀ p ∈ productions,
        Labelled escape g analysis component expressions reversed p.rhs)
      (productions.foldlM
        (addProductionEdge escape g analysis component expressions reversed source) edges)
      fun edges' => Entries escape g R reversed n edges' fun s t =>
        M s t + if s = source then labels g R analysis component reversed productions t else 0 := by
  induction productions generalizing edges M with
  | nil =>
    refine Result.wp_pure.2 ⟨h.congr fun s _ t _ => ?_, List.forall_mem_nil _⟩
    have hnone : labels g R analysis component reversed [] t = 0 := by
      ext x
      refine ⟨?_, fun hx => absurd hx (Language.notMem_zero x)⟩
      rintro ⟨p, hp, -⟩
      exact absurd hp List.not_mem_nil
    simp [hnone]
  | cons p productions ih =>
    obtain ⟨hp, hrest⟩ := List.forall_mem_cons.1 hsub
    rw [List.foldlM_cons, List.forall_mem_cons]
    refine Result.wp_bind.2 (Result.wp_mono (Result.wp_weaken
      (addProductionEdge_succeedsIff hescape hsolved hsystem hA hp hn h hs)
      fun reason hreason => ⟨hreason.1, fun hall => hreason.2 hall.1⟩) ?_)
    rintro edges' ⟨hedges', hfirst⟩
    refine Result.wp_mono (Result.wp_weaken (ih hrest hedges')
      fun reason hreason => ⟨hreason.1, fun hall => hreason.2 hall.2⟩) ?_
    rintro edges'' ⟨hedges'', hothers⟩
    refine ⟨hedges''.congr fun s _ t _ => ?_, hfirst, hothers⟩
    by_cases hss : s = source
    · simp only [hss, if_true]
      rw [labels_cons p productions, add_assoc]
    · simp [hss]

/-- The matrix that the productions of a component fill. -/
def systemEdges (g : Grammar) (R : String → Language UInt8) (analysis : SccAnalysis)
    (component : Scc) (reversed : Bool) (s t : ℕ) : Language UInt8 :=
  (component.members[s]?.map fun A =>
    labels g R analysis component reversed (g.productionsFor A) t).getD 0

theorem systemEdges_eq {A s : ℕ} (hs : component.members[s]? = some A) (t : ℕ) :
    systemEdges g R analysis component reversed s t =
      labels g R analysis component reversed (g.productionsFor A) t := by
  rw [systemEdges, hs]
  rfl

/-- All right-hand sides of the component are labelled. -/
def AllLabelled (escape : String → String) (g : Grammar) (analysis : SccAnalysis) (component : Scc)
    (expressions : List (Option RegularExpression)) (reversed : Bool) : Prop :=
  ∀ A ∈ component.members, ∀ p ∈ g.productionsFor A,
    Labelled escape g analysis component expressions reversed p.rhs

/-- **The matrix of a component**, filled member by member. -/
theorem fill_succeedsIff (hescape : Escapes escape g R)
    (hsolved : Solved escape g R expressions) (hsystem : System g analysis component reversed)
    (hn : n = component.members.length + 1) :
    SucceedsIff (AllLabelled escape g analysis component expressions reversed)
      (component.members.zipIdx.foldlM (fun edges entry =>
        (g.productionsFor entry.1).foldlM
          (addProductionEdge escape g analysis component expressions reversed entry.2) edges)
        (List.replicate n (List.replicate n .empty)))
      fun edges => Entries escape g R reversed n edges
        (systemEdges g R analysis component reversed) := by
  -- row by row: the rows of the members that are done have their edges, the others none
  have hloop := Result.wp_foldlM
    (E := fun reason => reason ≠ CertificateFailureReason.panicked ∧
      ¬ AllLabelled escape g analysis component expressions reversed)
    (f := fun (edges : List (List RegularExpression)) (entry : ℕ × ℕ) =>
      (g.productionsFor entry.1).foldlM
        (addProductionEdge escape g analysis component expressions reversed entry.2) edges)
    (I := fun done rest edges => done ++ rest = component.members.zipIdx ∧
      (Entries escape g R reversed n edges fun s t =>
        if s < done.length then systemEdges g R analysis component reversed s t else 0) ∧
      ∀ entry ∈ done, ∀ p ∈ g.productionsFor entry.1,
        Labelled escape g analysis component expressions reversed p.rhs)
    ?_ [] component.members.zipIdx (List.replicate n (List.replicate n .empty))
    ⟨rfl, entries_replicate.congr fun s _ t _ => by simp, List.forall_mem_nil _⟩
  · refine Result.wp_mono hloop ?_
    rintro edges ⟨-, hedges, hlabelled⟩
    refine ⟨hedges.congr fun s _ t _ => ?_, fun A hA => ?_⟩
    · rw [List.nil_append, List.length_zipIdx]
      split
      · rfl
      · next hlast =>
        rw [systemEdges, List.getElem?_eq_none (not_lt.1 hlast)]
        rfl
    · obtain ⟨i, hi⟩ := List.mem_iff_getElem?.1 hA
      exact hlabelled (A, i) (List.mem_zipIdx_iff_getElem?.2 hi)
  · rintro done ⟨A, source⟩ rest edges ⟨hall, hedges, hlabelled⟩
    obtain ⟨rfl, hget⟩ := getElem?_of_zipIdx_eq hall.symm
    dsimp only at hget ⊢
    have hA := List.mem_of_getElem? hget
    have hlt : done.length < n := hn ▸
      ((List.getElem?_eq_some_iff.1 hget).1.trans (Nat.lt_succ_self _))
    refine Result.wp_mono (Result.wp_weaken (addProductionEdges_succeedsIff hescape hsolved hsystem
      hA (fun p hp => hp) hn hedges hlt) fun reason hreason =>
        ⟨hreason.1, fun h => hreason.2 (h A hA)⟩) ?_
    rintro edges' ⟨hedges', hmember⟩
    refine ⟨by simpa using hall, hedges'.congr fun s _ t _ => ?_, ?_⟩
    · rcases lt_trichotomy s done.length with hlt | rfl | hgt
      · simp [hlt, hlt.ne, hlt.trans (Nat.lt_succ_self _)]
      · simp [systemEdges_eq hget]
      · have hnot : ¬ s < done.length + 1 := not_lt.2 hgt
        simp [hgt.ne', hgt.le, hnot]
    · rw [List.forall_mem_append, List.forall_mem_singleton]
      exact ⟨hlabelled, hmember⟩

/-! ### The least solution -/

/-- What a member stands for, as the system reads it. -/
def solution (g : Grammar) (R : String → Language UInt8) (component : Scc) (reversed : Bool)
    (s : ℕ) : Language UInt8 :=
  (component.members[s]?.map fun A => turn reversed (g.language R A)).getD 0

theorem solution_eq {A s : ℕ} (hs : component.members[s]? = some A) :
    solution g R component reversed s = turn reversed (g.language R A) := by
  rw [solution, hs]
  rfl

/-- A right-hand side, by its edge. -/
theorem IsEdge.turn_prod {rhs β : List GrammarSymbol}
    (h : IsEdge analysis component reversed rhs target β) (f : GrammarSymbol → Language UInt8) :
    turn reversed (rhs.map f).prod =
      turn reversed (β.map f).prod * (component.members[target]?.map fun B =>
        turn reversed (f (.nonterminal B))).getD 1 := by
  rcases h with ⟨rfl, rfl, -⟩ | ⟨B, hB, rfl, -⟩
  · rw [List.getElem?_eq_none le_rfl]
    exact (mul_one _).symm
  · rw [turn_prod_joined, hB]
    rfl

theorem System.edge_eq (h : System g analysis component reversed) {A : ℕ}
    (hA : A ∈ component.members) {p : Production} (hp : p ∈ g.productionsFor A)
    {β : List GrammarSymbol} (hedge : edgeOf analysis component reversed p.rhs = .ok (target, β)) :
    IsEdge analysis component reversed p.rhs target β := by
  obtain ⟨edge, hfound, hIs⟩ := h.edge hA hp
  obtain rfl := Except.ok.inj (hfound.symm.trans hedge)
  exact hIs

theorem mem_productionsFor {A : ℕ} {p : Production} :
    p ∈ g.productionsFor A ↔ p ∈ g.productions ∧ p.lhs = A := by
  simp [Grammar.productionsFor]

/-- An edge, and what its target stands for, are in the language of the member. -/
theorem labels_mul_le (h : System g analysis component reversed) {A : ℕ}
    (hA : A ∈ component.members) (target : ℕ) :
    labels g R analysis component reversed (g.productionsFor A) target *
        (component.members[target]?.map fun B => turn reversed (g.language R B)).getD 1 ≤
      turn reversed (g.language R A) := by
  intro x hx
  obtain ⟨y, ⟨p, hp, β, hedge, hy⟩, z, hz, rfl⟩ := Language.mem_mul.1 hx
  have hIs := h.edge_eq hA hp hedge
  have hprod : y ++ z ∈ turn reversed (p.rhs.map (g.symbol R)).prod := by
    rw [hIs.turn_prod]
    exact Language.append_mem_mul hy hz
  obtain ⟨hmem, hlhs⟩ := mem_productionsFor.1 hp
  exact turn_mono (Grammar.prod_le_language ⟨p, hmem, hlhs, rfl⟩) hprod

theorem prod_map_mono {f f' : GrammarSymbol → Language UInt8} {l : List GrammarSymbol}
    (h : ∀ s ∈ l, f s ≤ f' s) : (l.map f).prod ≤ (l.map f').prod := by
  induction l with
  | nil => exact le_rfl
  | cons s l ih =>
    obtain ⟨hs, hl⟩ := List.forall_mem_cons.1 h
    rw [List.map_cons, List.map_cons, List.prod_cons, List.prod_cons]
    gcongr
    exact ih hl

/-- The generated words that a solution has wherever the nonterminal is a member. -/
def within (g : Grammar) (R : String → Language UInt8) (component : Scc) (reversed : Bool)
    (Y : ℕ → Language UInt8) (C : ℕ) : Language UInt8 :=
  {x | x ∈ g.language R C ∧ ∀ k, component.members[k]? = some C → x ∈ turn reversed (Y k)}

theorem within_le {Y : ℕ → Language UInt8} (C : ℕ) :
    within g R component reversed Y C ≤ g.language R C := fun _ hx => hx.1

theorem within_le_turn {Y : ℕ → Language UInt8} {C k : ℕ} (hk : component.members[k]? = some C) :
    within g R component reversed Y C ≤ turn reversed (Y k) := fun _ hx => hx.2 k hk

/-- **Every solution of the system is above the generated languages.** -/
theorem solution_le (h : System g analysis component reversed) {Y : ℕ → Language UInt8}
    (hexit : ∀ s < component.members.length,
      systemEdges g R analysis component reversed s component.members.length ≤ Y s)
    (hstep : ∀ s k, s < component.members.length → k < component.members.length →
      systemEdges g R analysis component reversed s k * Y k ≤ Y s)
    {A s : ℕ} (hs : component.members[s]? = some A) : turn reversed (g.language R A) ≤ Y s := by
  -- What is within the solution is closed under the productions.
  have hclosed : ∀ C γ, g.Rule C γ →
      (γ.map (symbolLanguage (g.terminalLanguage R) (within g R component reversed Y))).prod ≤
        within g R component reversed Y C := by
    rintro C γ ⟨p, hp, hlhs, rfl⟩ x hx
    have hbelow : ∀ s, symbolLanguage (g.terminalLanguage R) (within g R component reversed Y) s ≤
        g.symbol R s := by
      rintro (t | B)
      · exact le_rfl
      · exact within_le B
    refine ⟨Grammar.prod_le_language ⟨p, hp, hlhs, rfl⟩ (prod_map_mono (fun s _ => hbelow s) hx),
      fun k hk => ?_⟩
    have hC := List.mem_of_getElem? hk
    have hlt := (List.getElem?_eq_some_iff.1 hk).1
    have hpC : p ∈ g.productionsFor C := mem_productionsFor.2 ⟨hp, hlhs⟩
    obtain ⟨⟨target, β⟩, hedge, hIs⟩ := h.edge hC hpC
    dsimp only at hIs
    have hlabel : turn reversed
        (β.map (symbolLanguage (g.terminalLanguage R) (within g R component reversed Y))).prod ≤
          systemEdges g R analysis component reversed k target := by
      rw [systemEdges_eq hk]
      exact fun y hy => ⟨p, hpC, β, hedge, turn_mono (prod_map_mono fun s _ => hbelow s) hy⟩
    refine turn_le_iff.1 ?_ hx
    rw [hIs.turn_prod]
    rcases hIs with ⟨rfl, -, -⟩ | ⟨B, hB, -, -⟩
    · rw [List.getElem?_eq_none le_rfl, Option.map_none, Option.getD_none, mul_one]
      exact hlabel.trans (hexit k hlt)
    · rw [hB, Option.map_some, Option.getD_some]
      refine le_trans ?_ (hstep k target hlt (List.getElem?_eq_some_iff.1 hB).1)
      gcongr
      exact turn_le_iff.2 (within_le_turn hB)
  exact turn_le_iff.2 ((Grammar.language_le hclosed A).trans (within_le_turn hs))

/-- **The walks to the exit are the languages of the members.** -/
theorem walks_systemEdges (h : System g analysis component reversed) {A s : ℕ}
    (hs : component.members[s]? = some A) :
    walks (systemEdges g R analysis component reversed) (· < component.members.length) s
      component.members.length = turn reversed (g.language R A) := by
  rw [← solution_eq (g := g) (R := R) hs]
  have hget : ∀ {s}, s < component.members.length → ∃ A, component.members[s]? = some A :=
    fun hs => ⟨_, List.getElem?_eq_getElem hs⟩
  refine walks_eq_of_least (fun s hs => ?_) (fun s k hs hk => ?_) (fun Y hexit hstep s hs => ?_)
    (List.getElem?_eq_some_iff.1 hs).1
  · obtain ⟨A, hA⟩ := hget hs
    have hle := labels_mul_le (R := R) h (List.mem_of_getElem? hA) component.members.length
    rw [List.getElem?_eq_none le_rfl, Option.map_none, Option.getD_none, mul_one] at hle
    rwa [systemEdges_eq hA, solution_eq hA]
  · obtain ⟨A, hA⟩ := hget hs
    obtain ⟨B, hB⟩ := hget hk
    have hle := labels_mul_le (R := R) h (List.mem_of_getElem? hA) k
    rw [hB, Option.map_some, Option.getD_some] at hle
    rwa [systemEdges_eq hA, solution_eq hA, solution_eq hB]
  · obtain ⟨A, hA⟩ := hget hs
    rw [solution_eq hA]
    exact solution_le h hexit hstep hA

/-- **What a component is solved to.** -/
theorem solveLinearComponent_succeedsIff (hescape : Escapes escape g R)
    (hsolved : Solved escape g R expressions) (hsystem : System g analysis component reversed) :
    SucceedsIff (AllLabelled escape g analysis component expressions reversed)
      (solveLinearComponent escape g analysis component expressions reversed)
      (List.Forall₂ (fun A e => Expresses escape g R reversed e (turn reversed (g.language R A)))
        component.members) := by
  refine Result.wp_bind.2 (Result.wp_mono (fill_succeedsIff hescape hsolved hsystem rfl) ?_)
  rintro edges ⟨hedges, hlabelled⟩
  refine Result.wp_bind.2 (Result.wp_mono
    (eliminateAll_wp hedges (Nat.le_succ _)) fun edges' hedges' => ?_)
  have hentries : ∀ s ∈ List.range component.members.length,
      Succeeds (edgeAt edges' s component.members.length) fun e =>
        ∀ A, component.members[s]? = some A →
          Expresses escape g R reversed e (turn reversed (g.language R A)) := by
    intro s hs
    have hlt := List.mem_range.1 hs
    refine Result.wp_mono (edgeAt_wp hedges' (hlt.trans (Nat.lt_succ_self _))
      (Nat.lt_succ_self _)) fun e he A hA => ?_
    rwa [walks_systemEdges hsystem hA] at he
  refine Result.wp_weaken (Result.wp_mono (Result.wp_mapM hentries) fun es hes => ⟨?_, hlabelled⟩)
    fun _ hfalse => hfalse.elim
  refine List.forall₂_iff_get.2 ⟨by rw [← hes.length_eq, List.length_range], fun i hi hi' => ?_⟩
  have hget := List.getElem?_eq_getElem hi
  exact forall₂_getElem? hes (List.getElem?_range hi) (List.getElem?_eq_getElem hi') _ hget

end System

end OcEarley

import Mathlib.Order.WellFoundedSet
import OcEarley.Grammar.SccExact

/-!
# The order of the components

What the analysis of a grammar says of its components (`Classified`): they are the classes of
mutually dependent nonterminals, so that no component depends on itself through others.  Among any
of them there is one that depends on none of the others (`Classified.exists_minimal`).
-/

namespace OcEarley

open Relation

variable {g : Grammar} {analysis : SccAnalysis}

/-- A production of the one nonterminal mentions the other. -/
def Grammar.DependsOn (g : Grammar) (A B : ℕ) : Prop :=
  ∃ p ∈ g.productions, p.lhs = A ∧ .nonterminal B ∈ p.rhs

/-- The analysis has the classes of mutually dependent nonterminals for components. -/
structure Classified (g : Grammar) (analysis : SccAnalysis) : Prop where
  length : analysis.componentOf.length = g.nonterminals.length
  length_le : analysis.components.length ≤ g.nonterminals.length
  id : ∀ {i : ℕ} {c : Scc}, analysis.components[i]? = some c → c.id = i
  mem_iff : ∀ {i : ℕ} {c : Scc}, analysis.components[i]? = some c →
    ∀ A, A ∈ c.members ↔ analysis.componentOf[A]? = some i
  owner : ∀ {A i : ℕ}, analysis.componentOf[A]? = some i → ∃ c, analysis.components[i]? = some c
  nodup : ∀ c ∈ analysis.components, c.members.Nodup
  single : ∀ c ∈ analysis.components, c.recursive = false →
    ∃ A, c.members = [A] ∧ ¬ g.DependsOn A A
  same : ∀ {A B i j : ℕ}, analysis.componentOf[A]? = some i → analysis.componentOf[B]? = some j →
    (Mutual g.DependsOn A B ↔ i = j)

theorem isRecursive_eq_false {graph : List (List ℕ)} {members : List ℕ} (hne : members ≠ [])
    (h : isRecursive graph members = false) : ∃ A, members = [A] ∧ ¬ Edge graph A A := by
  obtain ⟨A, members, rfl⟩ := List.exists_cons_of_ne_nil hne
  rw [isRecursive, Bool.or_eq_false_iff, decide_eq_false_iff_not, decide_eq_false_iff_not,
    List.length_cons, List.headD_cons] at h
  refine ⟨A, by rw [List.length_eq_zero_iff.1 (show members.length = 0 by omega)], ?_⟩
  rintro ⟨edges, hedges, hA⟩
  exact h.2 (by rwa [hedges])

/-- **The analysis of a grammar classifies its nonterminals.** -/
theorem analyzeSccs_classified (hg : g.WellFormed) :
    ∃ analysis, analyzeSccs g = .ok analysis ∧ Classified g analysis := by
  have hwp : Result.wp (fun _ => False) (dependencyGraph g) _ := dependencyGraph_wp hg
  obtain ⟨graph, hgraph, hnodes, hedges⟩ := Result.exists_of_wp hwp
  have hlen : graph.length ≤ u32Max + 1 := hnodes ▸ hg.nonterminals_length
  have hrange : ∀ v w, Edge graph v w → w < graph.length := by
    intro v w hvw
    obtain ⟨p, hp, -, hw⟩ := (hedges v w).1 hvw
    exact hnodes ▸ hg.rhs_inRange p hp _ hw
  obtain ⟨search, hsearch, hcomponents⟩ := Result.exists_of_wp (searches_wp hlen hrange)
  obtain ⟨analysis, hanalysis, hreports⟩ := Result.exists_of_wp (reports_wp hlen hcomponents)
  refine ⟨analysis, Result.bind_eq_ok.2 ⟨graph, hgraph,
    Result.bind_eq_ok.2 ⟨search, hsearch, hanalysis⟩⟩, ?_⟩
  have hdepends : Edge graph = g.DependsOn := funext fun A => funext fun B => propext (hedges A B)
  rw [hdepends] at hcomponents
  have hmem : ∀ c, c ∈ sortByKey (fun members : List ℕ => members.headD 0) search.components ↔
      c ∈ search.components := fun c => mem_sortByKey
  have hstrict := hcomponents.strict
  generalize sortByKey (fun members : List ℕ => members.headD 0) search.components = sorted at *
  have hne : ∀ c ∈ sorted, c ≠ [] := fun c hc => hcomponents.ne_nil c ((hmem c).1 hc)
  have hcount := length_le_of_strict hne
    (fun c hc v hv => (hcomponents.mem_closed v).2 ⟨c, (hmem c).1 hc, hv⟩) hstrict
  -- A component of the analysis is one of the sorted ones.
  have hget : ∀ {i : ℕ} {c : Scc}, analysis.components[i]? = some c →
      c.id = i ∧ sorted[i]? = some c.members ∧ c.recursive = isRecursive graph c.members := by
    intro i c hc
    rw [hreports.components, List.getElem?_map, List.getElem?_zipIdx] at hc
    cases hi : sorted[i]? with
    | none => simp [hi] at hc
    | some members =>
      rw [hi] at hc
      obtain rfl := Option.some.inj hc
      exact ⟨Nat.zero_add i, rfl, rfl⟩
  have hset : ∀ {i A : ℕ} {members : List ℕ}, sorted[i]? = some members → A ∈ members →
      analysis.componentOf[A]? = some i := fun hi hA =>
    hreports.componentOf (_, _) (List.mem_zipIdx_iff_getElem?.2 hi) _ hA
  have howner : ∀ {A i : ℕ}, analysis.componentOf[A]? = some i →
      ∃ members, sorted[i]? = some members ∧ A ∈ members := by
    intro A i hi
    have hA : A < graph.length := hreports.length ▸ (List.getElem?_eq_some_iff.1 hi).1
    obtain ⟨members, hmembers, hmemA⟩ := (hcomponents.mem_closed A).1 hA
    obtain ⟨j, hj⟩ := List.mem_iff_getElem?.1 ((hmem members).2 hmembers)
    obtain rfl := Option.some.inj (hi.symm.trans (hset hj hmemA))
    exact ⟨members, hj, hmemA⟩
  have hcomponent : ∀ c ∈ analysis.components, c.members ∈ search.components ∧
      c.recursive = isRecursive graph c.members := by
    intro c hc
    obtain ⟨i, hi⟩ := List.mem_iff_getElem?.1 hc
    obtain ⟨-, hsorted, hrec⟩ := hget hi
    exact ⟨(hmem _).1 (List.mem_of_getElem? hsorted), hrec⟩
  exact {
    length := hreports.length.trans hnodes
    length_le := by
      rw [hreports.components, List.length_map, List.length_zipIdx, ← hnodes]
      exact hcount
    id := fun hc => (hget hc).1
    mem_iff := fun hc A => by
      obtain ⟨-, hsorted, -⟩ := hget hc
      refine ⟨hset hsorted, fun hi => ?_⟩
      obtain ⟨members, hmembers, hA⟩ := howner hi
      rwa [← Option.some.inj (hmembers.symm.trans hsorted)]
    owner := fun hi => by
      obtain ⟨members, hmembers, -⟩ := howner hi
      rw [hreports.components, List.getElem?_map, List.getElem?_zipIdx, hmembers]
      exact ⟨_, rfl⟩
    nodup := fun c hc => (hcomponents.ascending _ (hcomponent c hc).1).imp fun h => h.ne
    single := fun c hc hfalse => by
      obtain ⟨hmember, hrec⟩ := hcomponent c hc
      rw [← hdepends]
      exact isRecursive_eq_false (hcomponents.ne_nil _ hmember) (hrec.symm.trans hfalse)
    same := fun {A B i j} hi hj => by
      obtain ⟨members, hmembers, hA⟩ := howner hi
      have hclass := hcomponents.classes members ((hmem _).1 (List.mem_of_getElem? hmembers)) A hA B
      rw [hclass]
      constructor
      · exact fun hB => Option.some.inj ((hset hmembers hB).symm.trans hj)
      · rintro rfl
        obtain ⟨members', hmembers', hB⟩ := howner hj
        rwa [Option.some.inj (hmembers.symm.trans hmembers')] }

/-! ### One that comes first -/

/-- A nonterminal of the second component leads to one of the first. -/
def Precedes (g : Grammar) (analysis : SccAnalysis) (j i : ℕ) : Prop :=
  j ≠ i ∧ ∃ A B, analysis.componentOf[A]? = some i ∧ analysis.componentOf[B]? = some j ∧
    ReflTransGen g.DependsOn A B

namespace Classified

theorem precedes_trans (h : Classified g analysis) {i j k : ℕ}
    (hkj : Precedes g analysis k j) (hji : Precedes g analysis j i) : Precedes g analysis k i := by
  obtain ⟨hne, B, C, hB, hC, hBC⟩ := hkj
  obtain ⟨-, A, B', hA, hB', hAB⟩ := hji
  have hBB := (h.same hB' hB).2 rfl
  refine ⟨?_, A, C, hA, hC, (hAB.trans hBB.1).trans hBC⟩
  rintro rfl
  -- A way back would make one component of both.
  have hCA := (h.same hC hA).2 rfl
  exact hne ((h.same hC hB').1 ⟨hCA.1.trans hAB, hBB.1.trans hBC⟩)

/-- **Among any components one is preceded by none of them.** -/
theorem exists_minimal (h : Classified g analysis) {P : ℕ → Prop}
    (hP : ∀ i, P i → i < analysis.components.length) {i : ℕ} (hi : P i) :
    ∃ j, P j ∧ ∀ k, P k → ¬ Precedes g analysis k j := by
  have : IsTrans ℕ (Precedes g analysis) := ⟨fun _ _ _ hij hjk => h.precedes_trans hij hjk⟩
  have : Std.Irrefl (Precedes g analysis) := ⟨fun _ hself => hself.1 rfl⟩
  have : IsStrictOrder ℕ (Precedes g analysis) := {}
  have hfinite : Set.Finite {i | P i} := (Set.finite_lt_nat _).subset hP
  have hwf := hfinite.wellFoundedOn (r := Precedes g analysis)
  obtain ⟨⟨j, hj⟩, -, hmin⟩ := hwf.has_min Set.univ ⟨⟨i, hi⟩, trivial⟩
  exact ⟨j, hj, fun k hk => hmin ⟨k, hk⟩ trivial⟩

end Classified

end OcEarley

import OcEarley.Formal.Yield

/-!
# Grammars in blocks

Some nonterminals of a grammar are its outer ones, and each of the others belongs to the block of an
outer one.  If a production mentions outer nonterminals and those of its own block only, the outer
nonterminals generate the least solution of the equations in which every block says what its outer
nonterminal generates when the outer ones stand for given languages.

* `Blocks.language_eq` : what the outer nonterminals generate solves the equations;
* `Blocks.language_le` : it is below every solution.
-/

namespace OcEarley

variable {N T α : Type*} (outer : N → Prop) [DecidablePred outer]

/-- The outer nonterminals are read as terminals. -/
def openOuter : Symbol T N → Symbol (N ⊕ T) N
  | .terminal t => .terminal (.inr t)
  | .nonterminal A => if outer A then .terminal (.inl A) else .nonterminal A

variable (R : N → List (Symbol T N) → Prop) (owner : N → N)

/-- The productions of a block, with the outer nonterminals of their right-hand
sides read as terminals. -/
def BlockRule (C A : N) (γ : List (Symbol (N ⊕ T) N)) : Prop :=
  ∃ β, R A β ∧ owner A = C ∧ β.map (openOuter outer) = γ

/-- What a nonterminal generates. -/
def derivedLanguage (L : T → Language α) (A : N) : Language α :=
  {x | Yields R L [.nonterminal A] x}

/-- What a block generates when the outer nonterminals stand for the languages `M`. -/
def blockLanguage (L : T → Language α) (M : N → Language α) (C A : N) : Language α :=
  {x | Yields (BlockRule outer R owner C) (Sum.elim M L) [.nonterminal A] x}

/-- Productions mention outer nonterminals and those of their own block. -/
structure Blocks : Prop where
  owner_eq : ∀ A, outer A → owner A = A
  rhs_mem : ∀ A γ, R A γ → ∀ B, .nonterminal B ∈ γ → outer B ∨ owner B = owner A

variable {outer R owner} {L : T → Language α} {M : N → Language α}

theorem symbolLanguage_openOuter (K : N → Language α) (s : Symbol T N) :
    symbolLanguage (Sum.elim M L) K (openOuter outer s) =
      symbolLanguage L (fun A => if outer A then M A else K A) s := by
  cases s with
  | terminal t => rfl
  | nonterminal A => by_cases hA : outer A <;> simp [openOuter, symbolLanguage, hA]

theorem map_symbolLanguage_openOuter (K : N → Language α) (β : List (Symbol T N)) :
    (β.map (openOuter outer)).map (symbolLanguage (Sum.elim M L) K) =
      β.map (symbolLanguage L fun A => if outer A then M A else K A) := by
  rw [List.map_map]
  exact List.map_congr_left fun s _ => symbolLanguage_openOuter K s

/-- Blocks generate more when the outer nonterminals stand for more. -/
theorem blockLanguage_mono {M' : N → Language α} (hM : ∀ A, M A ≤ M' A) (C A : N) :
    blockLanguage outer R owner L M C A ≤ blockLanguage outer R owner L M' C A := by
  intro x hx
  refine Yields.mono (fun _ _ h => h) (fun t => ?_) hx
  cases t with
  | inl A => exact hM A
  | inr t => exact le_rfl

theorem prod_le_blockLanguage {A : N} {β : List (Symbol T N)} (h : R A β) :
    (β.map (symbolLanguage L fun B =>
        if outer B then M B else blockLanguage outer R owner L M (owner A) B)).prod ≤
      blockLanguage outer R owner L M (owner A) A := by
  intro x hx
  rw [← map_symbolLanguage_openOuter] at hx
  exact .of_production ⟨β, h, rfl, rfl⟩ (.of_mem_prod hx)

namespace Blocks

/-- **Least solution.**  What the outer nonterminals generate is below every solution. -/
theorem language_le (h : Blocks outer R owner)
    (hM : ∀ C, outer C → blockLanguage outer R owner L M C C ≤ M C) {C : N} (hC : outer C) :
    derivedLanguage R L C ≤ M C := by
  intro x hx
  -- the other nonterminals stand for what their blocks generate
  set K : N → Language α := fun A =>
    if outer A then M A else blockLanguage outer R owner L M (owner A) A with hK
  have hclosed : ∀ A β, R A β → (β.map (symbolLanguage L K)).prod ≤ K A := by
    intro A β hβ
    have hmap : β.map (symbolLanguage L K) = β.map (symbolLanguage L fun B =>
        if outer B then M B else blockLanguage outer R owner L M (owner A) B) := by
      refine List.map_congr_left fun s hs => ?_
      cases s with
      | terminal t => rfl
      | nonterminal B =>
        by_cases hB : outer B
        · simp [symbolLanguage, hK, hB]
        · have howner := (h.rhs_mem A β hβ B hs).resolve_left hB
          simp [symbolLanguage, hK, hB, howner]
    rw [hmap]
    refine (prod_le_blockLanguage hβ).trans ?_
    by_cases hA : outer A
    · rw [h.owner_eq A hA, hK]
      simpa [hA] using hM A hA
    · simp [hK, hA]
  have hmem := Yields.mem_prod hclosed hx
  rw [List.map_singleton, List.prod_singleton] at hmem
  have hKC : K C = M C := if_pos hC
  exact hKC ▸ hmem

/-- What a block generates is generated. -/
theorem blockLanguage_le (C A : N) :
    blockLanguage outer R owner L (derivedLanguage R L) C A ≤ derivedLanguage R L A := by
  intro x hx
  have hclosed : ∀ B γ, BlockRule outer R owner C B γ →
      (γ.map (symbolLanguage (Sum.elim (derivedLanguage R L) L) (derivedLanguage R L))).prod ≤
        derivedLanguage R L B := by
    rintro B _ ⟨β, hβ, -, rfl⟩ y hy
    rw [map_symbolLanguage_openOuter] at hy
    simp only [ite_self] at hy
    exact .of_production hβ (.of_mem_prod hy)
  have hmem := Yields.mem_prod hclosed hx
  rwa [List.map_singleton, List.prod_singleton] at hmem

/-- **Solution.**  What an outer nonterminal generates is what its block generates when the outer
nonterminals stand for what they generate. -/
theorem language_eq (h : Blocks outer R owner) {C : N} (hC : outer C) :
    blockLanguage outer R owner L (derivedLanguage R L) C C = derivedLanguage R L C := by
  refine le_antisymm (blockLanguage_le C C) fun x hx => ?_
  -- one round of the equations, started from the derived languages, is a solution as well
  exact h.language_le (M := fun A => blockLanguage outer R owner L (derivedLanguage R L) A A)
    (fun A _ => blockLanguage_mono (fun B => blockLanguage_le B B) A A) hC hx

end Blocks

end OcEarley

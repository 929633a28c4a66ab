import Mathlib.Logic.Relation
import OcEarley.Formal.Yield

/-!
# Useful nonterminals

A nonterminal is productive when it derives some terminal string, and it is reached from another
one when it stands in a right-hand side of it, in any number of steps.

* `exists_sentence_iff_productive`, `isProductive_iff` : productivity of symbol strings and of the
  productions of a nonterminal, and `IsProductive.induction` : it is the least closed set;
* `Yields.restrict` : a derivation uses only productions between nonterminals of a set that is
  closed under productive productions;
* `Yields.transport` : derivations of a grammar go over to one that simulates its productions;
* `occursIn_of_reaches` : a production of a reached nonterminal occurs in the derivation of a
  sentence, when everything that is reached is productive.
-/

namespace OcEarley

variable {N T α N' T' α' : Type*}

/-- The nonterminal derives some terminal string. -/
def IsProductive (R : N → List (Symbol T N) → Prop) (A : N) : Prop :=
  ∃ w, Sentence R [.nonterminal A] w

/-- `B` stands in a right-hand side of `A`. -/
def Mentions (R : N → List (Symbol T N) → Prop) (A B : N) : Prop :=
  ∃ γ, R A γ ∧ .nonterminal B ∈ γ

/-- `B` is reached from `A` through the productions. -/
def Reaches (R : N → List (Symbol T N) → Prop) : N → N → Prop :=
  Relation.ReflTransGen (Mentions R)

/-! ### Productive nonterminals -/

section Productive

variable {R : N → List (Symbol T N) → Prop} {L : T → Language α} {A : N}
  {β : List (Symbol T N)} {x : List α}

/-- The nonterminals of a symbol string that derives something satisfy every predicate that is
closed under the productions. -/
theorem Yields.induction {P : N → Prop}
    (hP : ∀ A γ, R A γ → (∀ B, .nonterminal B ∈ γ → P B) → P A) (h : Yields R L β x) :
    ∀ B, .nonterminal B ∈ β → P B := by
  induction h with
  | nil => exact fun B hB => absurd hB List.not_mem_nil
  | terminal _ _ ih =>
    intro B hB
    rcases List.mem_cons.1 hB with hB | hB
    · cases hB
    · exact ih B hB
  | nonterminal hA _ _ ih₁ ih₂ =>
    intro B hB
    rcases List.mem_cons.1 hB with hB | hB
    · cases hB
      exact hP _ _ hA ih₁
    · exact ih₂ B hB

/-- The productive nonterminals are the least set closed under the productions. -/
theorem IsProductive.induction {P : N → Prop}
    (hP : ∀ A γ, R A γ → (∀ B, .nonterminal B ∈ γ → P B) → P A) (h : IsProductive R A) : P A := by
  obtain ⟨w, hw⟩ := h
  exact Yields.induction hP hw A (List.mem_singleton.2 rfl)

theorem exists_sentence_iff_productive :
    (∃ w, Sentence R β w) ↔ ∀ B, .nonterminal B ∈ β → IsProductive R B := by
  constructor
  · rintro ⟨w, hw⟩ B hB
    obtain ⟨β₁, β₂, rfl⟩ := List.append_of_mem hB
    obtain ⟨u, v, -, -, hv⟩ := yields_append_iff.1 hw
    obtain ⟨u', v', -, hu', -⟩ := yields_cons_iff.1 hv
    exact ⟨u', hu'⟩
  · intro h
    induction β with
    | nil => exact ⟨[], .nil⟩
    | cons s β ih =>
      obtain ⟨v, hv⟩ := ih fun B hB => h B (List.mem_cons_of_mem _ hB)
      cases s with
      | terminal t => exact ⟨[t] ++ v, .terminal (mem_selfLanguage.2 rfl) hv⟩
      | nonterminal B =>
        obtain ⟨u, hu⟩ := h B List.mem_cons_self
        exact ⟨u ++ v, hu.append hv⟩

theorem isProductive_iff :
    IsProductive R A ↔ ∃ γ, R A γ ∧ ∀ B, .nonterminal B ∈ γ → IsProductive R B := by
  constructor
  · rintro ⟨w, hw⟩
    obtain ⟨γ, hA, hγ⟩ := yields_nonterminal_iff.1 hw
    exact ⟨γ, hA, exists_sentence_iff_productive.1 ⟨w, hγ⟩⟩
  · rintro ⟨γ, hA, hγ⟩
    obtain ⟨w, hw⟩ := exists_sentence_iff_productive.2 hγ
    exact ⟨w, .of_production hA hw⟩

theorem Yields.isProductive (h : Yields R L β x) : ∀ B, .nonterminal B ∈ β → IsProductive R B :=
  Yields.induction (fun _ _ hA hγ => isProductive_iff.2 ⟨_, hA, hγ⟩) h

end Productive

/-! ### Derivations in another grammar -/

section Transport

variable {R : N → List (Symbol T N) → Prop} {L : T → Language α} {β : List (Symbol T N)}
  {x : List α}

/-- A derivation from symbols of a set that is closed under the productive productions uses
productions between nonterminals of the set only. -/
theorem Yields.restrict {P : N → Prop}
    (hP : ∀ A γ, P A → R A γ → (∀ B, .nonterminal B ∈ γ → IsProductive R B) →
      ∀ B, .nonterminal B ∈ γ → P B)
    (h : Yields R L β x) (hβ : ∀ B, .nonterminal B ∈ β → P B) :
    Yields (fun A γ => R A γ ∧ P A ∧ ∀ B, .nonterminal B ∈ γ → P B) L β x := by
  induction h with
  | nil => exact .nil
  | terminal ht _ ih => exact .terminal ht (ih fun B hB => hβ B (List.mem_cons_of_mem _ hB))
  | nonterminal hA hγ _ ih₁ ih₂ =>
    have hPA := hβ _ List.mem_cons_self
    have hPγ := hP _ _ hPA hA hγ.isProductive
    exact .nonterminal ⟨hA, hPA, hPγ⟩ (ih₁ hPγ) (ih₂ fun B hB => hβ B (List.mem_cons_of_mem _ hB))

/-- Symbols related by a renaming of the nonterminals and of the terminals. -/
inductive SymbolRel (ν : N → N' → Prop) (τ : T → T' → Prop) : Symbol T N → Symbol T' N' → Prop
  | nonterminal {A : N} {A' : N'} : ν A A' → SymbolRel ν τ (.nonterminal A) (.nonterminal A')
  | terminal {t : T} {t' : T'} : τ t t' → SymbolRel ν τ (.terminal t) (.terminal t')

theorem SymbolRel.flip {ν : N → N' → Prop} {τ : T → T' → Prop} {s : Symbol T N}
    {s' : Symbol T' N'} (h : SymbolRel ν τ s s') :
    SymbolRel (fun A' A => ν A A') (fun t' t => τ t t') s' s := by
  cases h with
  | nonterminal h => exact .nonterminal h
  | terminal h => exact .terminal h

/-- When every production is simulated, and every word of a terminal has a related word, every
derivation is simulated. -/
theorem Yields.transport {R' : N' → List (Symbol T' N') → Prop} {L' : T' → Language α'}
    {ν : N → N' → Prop} {τ : T → T' → Prop} {σ : α → α' → Prop}
    (hR : ∀ A A' γ, ν A A' → R A γ → ∃ γ', R' A' γ' ∧ List.Forall₂ (SymbolRel ν τ) γ γ')
    (hL : ∀ t t' u, τ t t' → u ∈ L t → ∃ u' ∈ L' t', List.Forall₂ σ u u')
    (h : Yields R L β x) {β' : List (Symbol T' N')} (hβ : List.Forall₂ (SymbolRel ν τ) β β') :
    ∃ x', List.Forall₂ σ x x' ∧ Yields R' L' β' x' := by
  induction h generalizing β' with
  | nil =>
    obtain rfl := List.forall₂_nil_left_iff.1 hβ
    exact ⟨[], .nil, .nil⟩
  | terminal hu _ ih =>
    obtain ⟨_, β'', ht, hβ'', rfl⟩ := List.forall₂_cons_left_iff.1 hβ
    cases ht with | terminal ht => ?_
    obtain ⟨u', hu', hσ⟩ := hL _ _ _ ht hu
    obtain ⟨v', hσ', hv'⟩ := ih hβ''
    exact ⟨u' ++ v', List.rel_append hσ hσ', .terminal hu' hv'⟩
  | nonterminal hA _ _ ih₁ ih₂ =>
    obtain ⟨_, β'', hν, hβ'', rfl⟩ := List.forall₂_cons_left_iff.1 hβ
    cases hν with | nonterminal hν => ?_
    obtain ⟨γ', hA', hγ'⟩ := hR _ _ _ hν hA
    obtain ⟨u', hσ, hu'⟩ := ih₁ hγ'
    obtain ⟨v', hσ', hv'⟩ := ih₂ hβ''
    exact ⟨u' ++ v', List.rel_append hσ hσ', .nonterminal hA' hu' hv'⟩

/-- `Yields.transport` for sentences. -/
theorem Sentence.transport {R' : N' → List (Symbol T' N') → Prop} {ν : N → N' → Prop}
    {τ : T → T' → Prop} {w : List T}
    (hR : ∀ A A' γ, ν A A' → R A γ → ∃ γ', R' A' γ' ∧ List.Forall₂ (SymbolRel ν τ) γ γ')
    (h : Sentence R β w) {β' : List (Symbol T' N')} (hβ : List.Forall₂ (SymbolRel ν τ) β β') :
    ∃ w', List.Forall₂ τ w w' ∧ Sentence R' β' w' := by
  refine Yields.transport hR (fun t t' u ht hu => ?_) h hβ
  obtain rfl := mem_selfLanguage.1 hu
  exact ⟨[t'], mem_selfLanguage.2 rfl, .cons ht .nil⟩

end Transport

/-! ### What occurs in a derivation -/

/-- One step of a derivation. -/
inductive Rewrites (R : N → List (Symbol T N) → Prop) :
    List (Symbol T N) → List (Symbol T N) → Prop
  | step {A : N} {γ : List (Symbol T N)} (α β : List (Symbol T N)) :
      R A γ → Rewrites R (α ++ .nonterminal A :: β) (α ++ γ ++ β)

/-- The production occurs in a derivation of some sentence from `S`. -/
def OccursIn (R : N → List (Symbol T N) → Prop) (S A : N) (γ : List (Symbol T N)) : Prop :=
  ∃ α β w, Relation.ReflTransGen (Rewrites R) [.nonterminal S] (α ++ .nonterminal A :: β) ∧
    R A γ ∧ Sentence R (α ++ γ ++ β) w

section Occurs

variable {R : N → List (Symbol T N) → Prop} {S A : N} {β β' γ : List (Symbol T N)} {w : List T}
  {t : T}

theorem Rewrites.sentence (h : Rewrites R β β') (hw : Sentence R β' w) : Sentence R β w := by
  obtain ⟨α, β, hA⟩ := h
  obtain ⟨u, v, rfl, hu, hv⟩ := yields_append_iff.1 hw
  obtain ⟨u₁, u₂, rfl, hu₁, hu₂⟩ := yields_append_iff.1 hu
  rw [List.append_assoc]
  exact hu₁.append (.nonterminal hA hu₂ hv)

theorem sentence_of_rewrites (h : Relation.ReflTransGen (Rewrites R) β β')
    (hw : Sentence R β' w) : Sentence R β w := by
  induction h with
  | refl => exact hw
  | tail _ hstep ih => exact ih (hstep.sentence hw)

/-- The terminals of a symbol string are in its sentences. -/
theorem Sentence.terminal_mem (hw : Sentence R β w) (ht : .terminal t ∈ β) : t ∈ w := by
  obtain ⟨β₁, β₂, rfl⟩ := List.append_of_mem ht
  obtain ⟨u, v, rfl, -, hv⟩ := yields_append_iff.1 hw
  obtain ⟨v₁, v₂, rfl, hv₁, -⟩ := yields_terminal_cons_iff.1 hv
  obtain rfl := mem_selfLanguage.1 hv₁
  simp

/-- A terminal of a sentence stands in the symbol string or in a production. -/
theorem Sentence.mem_terminal (hw : Sentence R β w) (ht : t ∈ w) :
    .terminal t ∈ β ∨ ∃ A γ, R A γ ∧ .terminal t ∈ γ := by
  unfold Sentence at hw
  induction hw with
  | nil => cases ht
  | terminal hu _ ih =>
    obtain rfl := mem_selfLanguage.1 hu
    rcases List.mem_append.1 ht with ht | ht
    · exact .inl (List.mem_singleton.1 ht ▸ List.mem_cons_self)
    · exact (ih ht).imp_left (List.mem_cons_of_mem _)
  | nonterminal hA _ _ ih₁ ih₂ =>
    rcases List.mem_append.1 ht with ht | ht
    · exact .inr ((ih₁ ht).elim (fun ht => ⟨_, _, hA, ht⟩) id)
    · exact (ih₂ ht).imp_left (List.mem_cons_of_mem _)

/-- A reached nonterminal stands in a sentential form all whose other symbols are productive. -/
theorem exists_rewrites_of_reaches (hall : ∀ B, Reaches R S B → IsProductive R B)
    (h : Reaches R S A) :
    ∃ α β, Relation.ReflTransGen (Rewrites R) [.nonterminal S] (α ++ .nonterminal A :: β) ∧
      ∀ B, .nonterminal B ∈ α ++ β → IsProductive R B := by
  induction h with
  | refl => exact ⟨[], [], .refl, fun B hB => absurd hB List.not_mem_nil⟩
  | @tail A B hSA hstep ih =>
    obtain ⟨α, β, hform, hprod⟩ := ih
    obtain ⟨γ, hA, hB⟩ := hstep
    obtain ⟨γ₁, γ₂, rfl⟩ := List.append_of_mem hB
    refine ⟨α ++ γ₁, γ₂ ++ β, hform.tail ?_, fun C hC => ?_⟩
    · have := Rewrites.step α β hA
      simpa using this
    · have hmention : ∀ C, .nonterminal C ∈ γ₁ ++ γ₂ → IsProductive R C := fun C hC =>
        hall C (hSA.tail ⟨_, hA, by
          rcases List.mem_append.1 hC with hC | hC
          · exact List.mem_append_left _ hC
          · exact List.mem_append_right _ (List.mem_cons_of_mem _ hC)⟩)
      simp only [List.mem_append] at hC hprod hmention
      rcases hC with (hC | hC) | hC | hC
      · exact hprod C (.inl hC)
      · exact hmention C (.inl hC)
      · exact hmention C (.inr hC)
      · exact hprod C (.inr hC)

/-- A production of a reached nonterminal occurs in the derivation of a sentence. -/
theorem occursIn_of_reaches (hall : ∀ B, Reaches R S B → IsProductive R B) (h : Reaches R S A)
    (hA : R A γ) : OccursIn R S A γ := by
  obtain ⟨α, β, hform, hprod⟩ := exists_rewrites_of_reaches hall h
  obtain ⟨w, hw⟩ := exists_sentence_iff_productive.2 fun B (hB : .nonterminal B ∈ α ++ γ ++ β) => by
    simp only [List.mem_append] at hB hprod
    rcases hB with (hB | hB) | hB
    · exact hprod B (.inl hB)
    · exact hall B (h.tail ⟨γ, hA, hB⟩)
    · exact hprod B (.inr hB)
  exact ⟨α, β, w, hform, hA, hw⟩

/-- The terminals of a production that occurs in the derivation of a sentence are in a sentence. -/
theorem OccursIn.exists_sentence (h : OccursIn R S A γ) (ht : .terminal t ∈ γ) :
    ∃ w, Sentence R [.nonterminal S] w ∧ t ∈ w := by
  obtain ⟨α, β, w, hform, hA, hw⟩ := h
  refine ⟨w, sentence_of_rewrites (hform.tail (.step α β hA)) hw, hw.terminal_mem ?_⟩
  simp [ht]

end Occurs

end OcEarley

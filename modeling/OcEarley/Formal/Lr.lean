import OcEarley.Formal.Yield

/-!
# LR items

A grammar with named productions and an augmented production, and the part of LR theory that does
not depend on lookaheads: the items that are valid after a string of symbols (`Valid`), that such a
string can be completed to a sentence (`Valid.viable`), and derivations that count their productions
(`Derives`).
-/

namespace OcEarley

variable {N T P : Type*}

/-! ### Derivations that are counted -/

/-- The symbol string derives the terminal string by `n` productions. -/
inductive Derives (R : N → List (Symbol T N) → Prop) : ℕ → List (Symbol T N) → List T → Prop
  | nil : Derives R 0 [] []
  | terminal {n : ℕ} {t : T} {β : List (Symbol T N)} {v : List T} (h : Derives R n β v) :
    Derives R n (.terminal t :: β) (t :: v)
  | nonterminal {m n : ℕ} {A : N} {γ β : List (Symbol T N)} {u v : List T} (hA : R A γ)
    (hγ : Derives R m γ u) (hβ : Derives R n β v) :
    Derives R (m + 1 + n) (.nonterminal A :: β) (u ++ v)

namespace Derives

variable {R : N → List (Symbol T N) → Prop} {m n : ℕ} {β γ : List (Symbol T N)} {u v w : List T}

theorem sentence (h : Derives R n β w) : Sentence R β w := by
  induction h with
  | nil => exact .nil
  | terminal h ih => exact Yields.terminal (mem_selfLanguage.2 rfl) ih
  | nonterminal hA hγ hβ ih₁ ih₂ => exact .nonterminal hA ih₁ ih₂

theorem exists_of_sentence (h : Sentence R β w) : ∃ n, Derives R n β w := by
  unfold Sentence at h
  induction h with
  | nil => exact ⟨0, .nil⟩
  | @terminal t u v β ht h ih =>
    obtain ⟨n, hn⟩ := ih
    obtain rfl := mem_selfLanguage.1 ht
    exact ⟨n, .terminal hn⟩
  | nonterminal hA hγ hβ ih₁ ih₂ =>
    obtain ⟨m, hm⟩ := ih₁
    obtain ⟨n, hn⟩ := ih₂
    exact ⟨_, .nonterminal hA hm hn⟩

theorem append (hβ : Derives R m β u) (hγ : Derives R n γ v) :
    Derives R (m + n) (β ++ γ) (u ++ v) := by
  induction hβ with
  | nil =>
    rw [Nat.zero_add]
    exact hγ
  | terminal h ih => exact .terminal ih
  | nonterminal hA h₁ h₂ ih₁ ih₂ =>
    rw [List.cons_append, List.append_assoc, Nat.add_assoc]
    exact .nonterminal hA h₁ ih₂

theorem of_append (h : Derives R n (β ++ γ) w) :
    ∃ m k u v, n = m + k ∧ w = u ++ v ∧ Derives R m β u ∧ Derives R k γ v := by
  induction β generalizing n w with
  | nil => exact ⟨0, n, [], w, (Nat.zero_add n).symm, rfl, .nil, h⟩
  | cons X β ih =>
    cases h with
    | terminal h =>
      obtain ⟨m, k, u, v, rfl, rfl, hu, hv⟩ := ih h
      exact ⟨m, k, _, v, rfl, rfl, .terminal hu, hv⟩
    | nonterminal hA h₁ h₂ =>
      obtain ⟨m, k, u, v, rfl, rfl, hu, hv⟩ := ih h₂
      exact ⟨_, k, _, v, (Nat.add_assoc _ _ _).symm, (List.append_assoc _ _ _).symm,
        .nonterminal hA h₁ hu, hv⟩

/-- One production is used for a nonterminal. -/
theorem of_rule {A : N} (hA : R A γ) (h : Derives R n γ w) :
    Derives R (n + 1) [.nonterminal A] w := by
  simpa using Derives.nonterminal hA h .nil

end Derives

/-! ### Items -/

/-- A grammar with named productions.  The augmented production is not among `prods`. -/
structure LrGrammar (N T P : Type*) where
  lhs : P → N
  rhs : P → List (Symbol T N)
  prods : Set P
  aug : P
  start : N
  rhs_aug : rhs aug = [.nonterminal start]
  aug_notMem : aug ∉ prods

namespace LrGrammar

variable (G : LrGrammar N T P)

/-- The productions as a relation. -/
def Rule (A : N) (γ : List (Symbol T N)) : Prop := ∃ p ∈ G.prods, G.lhs p = A ∧ G.rhs p = γ

/-- The symbols of a production from a dot on. -/
def rest (p : P) (k : ℕ) : List (Symbol T N) := (G.rhs p).drop k

/-- What stands behind a dot derives some terminal string. -/
def Productive : Prop :=
  ∀ p, p = G.aug ∨ p ∈ G.prods → ∀ k, ∃ w, Sentence G.Rule (G.rest p k) w

/-- The items that are valid after a string of symbols. -/
inductive Valid : List (Symbol T N) → P → ℕ → Prop
  | init : Valid [] G.aug 0
  | close {γ : List (Symbol T N)} {p p' : P} {k : ℕ} (h : Valid γ p k)
    (hnext : (G.rhs p)[k]? = some (.nonterminal (G.lhs p'))) (hp' : p' ∈ G.prods) : Valid γ p' 0
  | move {γ : List (Symbol T N)} {p : P} {k : ℕ} {X : Symbol T N} (h : Valid γ p k)
    (hnext : (G.rhs p)[k]? = some X) : Valid (γ ++ [X]) p (k + 1)

variable {G} {γ : List (Symbol T N)} {p p' : P} {k : ℕ} {X : Symbol T N}

theorem rest_eq_cons (h : (G.rhs p)[k]? = some X) : G.rest p k = X :: G.rest p (k + 1) := by
  obtain ⟨hlt, rfl⟩ := List.getElem?_eq_some_iff.1 h
  exact List.drop_eq_getElem_cons hlt

theorem getElem?_of_rest {β : List (Symbol T N)} (h : G.rest p k = X :: β) :
    (G.rhs p)[k]? = some X ∧ G.rest p (k + 1) = β := by
  constructor
  · rw [← List.head?_drop]
    change (G.rest p k).head? = _
    rw [h, List.head?_cons]
  · have := congrArg List.tail h
    rwa [rest, List.tail_drop] at this

namespace Valid

theorem mem (h : G.Valid γ p k) : p = G.aug ∨ p ∈ G.prods := by
  induction h with
  | init => exact .inl rfl
  | close h hnext hp' ih => exact .inr hp'
  | move h hnext ih => exact ih

theorem le_length (h : G.Valid γ p k) : k ≤ (G.rhs p).length := by
  cases h with
  | init => exact Nat.zero_le _
  | close h hnext hp' => exact Nat.zero_le _
  | move h hnext => exact (List.getElem?_eq_some_iff.1 hnext).1

/-- The symbols before the dot are the last ones of the string. -/
theorem exists_start (h : G.Valid γ p k) :
    ∃ δ, γ = δ ++ (G.rhs p).take k ∧ G.Valid δ p 0 := by
  induction h with
  | init => exact ⟨[], by simp, .init⟩
  | close h hnext hp' ih => exact ⟨_, by simp, .close h hnext hp'⟩
  | @move γ p k X h hnext ih =>
    obtain ⟨δ, rfl, hδ⟩ := ih
    refine ⟨δ, ?_, hδ⟩
    obtain ⟨hlt, rfl⟩ := List.getElem?_eq_some_iff.1 hnext
    rw [List.append_assoc, List.take_append_getElem hlt]

/-- Where an item with the dot at its start comes from. -/
theorem of_zero (h : G.Valid γ p 0) :
    (γ = [] ∧ p = G.aug) ∨
      ∃ p' k', G.Valid γ p' k' ∧ (G.rhs p')[k']? = some (.nonterminal (G.lhs p)) := by
  cases h with
  | init => exact .inl ⟨rfl, rfl⟩
  | close h hnext hp' => exact .inr ⟨_, _, h, hnext⟩

theorem aug_eq_nil (h : G.Valid γ G.aug 0) : γ = [] := by
  generalize hk : (0 : ℕ) = k at h
  generalize hp : G.aug = p at h
  cases h with
  | init => rfl
  | close h hnext hp' => exact absurd (hp ▸ hp') G.aug_notMem
  | move h hnext => cases hk

/-- **Viable prefixes.**  What follows a valid item can be completed to a sentence: the rest of its
production, and then some string that depends on the item only. -/
theorem viable (hprod : G.Productive) (h : G.Valid γ p k) :
    ∃ y c, ∀ m x n v, Derives G.Rule m γ x → Derives G.Rule n (G.rest p k) v →
      Derives G.Rule (m + n + c) [.nonterminal G.start] (x ++ v ++ y) := by
  induction h with
  | init =>
    refine ⟨[], 0, fun m x n v hx hv => ?_⟩
    cases hx
    rw [rest, G.rhs_aug] at hv
    simpa using hv
  | @close γ p p' k h hnext hp' ih =>
    obtain ⟨y, c, ih⟩ := ih
    obtain ⟨z, hz⟩ := hprod p h.mem (k + 1)
    obtain ⟨l, hz⟩ := Derives.exists_of_sentence hz
    refine ⟨z ++ y, l + 1 + c, fun m x n v hx hv => ?_⟩
    have hrest : Derives G.Rule (n + 1 + l) (G.rest p k) (v ++ z) := by
      rw [rest_eq_cons hnext]
      exact .nonterminal ⟨p', hp', rfl, rfl⟩ hv hz
    have := ih m x _ _ hx hrest
    rw [show m + n + (l + 1 + c) = m + (n + 1 + l) + c by omega]
    simpa using this
  | @move γ p k X h hnext ih =>
    obtain ⟨y, c, ih⟩ := ih
    refine ⟨y, c, fun m x n v hx hv => ?_⟩
    obtain ⟨m₁, m₂, x₁, x₂, rfl, rfl, hγ, hX⟩ := hx.of_append
    have hrest : Derives G.Rule (m₂ + n) (G.rest p k) (x₂ ++ v) := by
      rw [rest_eq_cons hnext]
      exact hX.append hv
    have := ih m₁ x₁ _ _ hγ hrest
    rw [Nat.add_assoc m₁]
    simpa using this

end Valid

end LrGrammar

end OcEarley

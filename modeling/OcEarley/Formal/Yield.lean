import Mathlib.Computability.ContextFreeGrammar
import Mathlib.Computability.Language
import Mathlib.Order.CompletePartialOrder

/-!
# Context-free derivations over terminal languages

A grammar is given by its productions `R : N → List (Symbol T N) → Prop`, and every terminal `t`
stands for a language `L t`.  `Yields R L β x` says that the symbol string `β` derives the word
`x`; it is stated on derivation trees, one constructor for each kind of first symbol.

* `Yields.append`, `yields_append_iff` : derivations of a concatenation;
* `Yields.mem_prod` : the derived languages are below every solution of the productions;
* `yields_iff_sentence` : a word is derived iff it splits into words of the terminals of a
  sentence, that is, of a terminal string derived when every terminal stands for itself.
-/

namespace OcEarley

variable {N T α : Type*}

/-- The symbol string derives the word, terminals standing for their languages. -/
inductive Yields (R : N → List (Symbol T N) → Prop) (L : T → Language α) :
    List (Symbol T N) → List α → Prop
  | nil : Yields R L [] []
  | terminal {t : T} {u v : List α} {β : List (Symbol T N)} :
      u ∈ L t → Yields R L β v → Yields R L (.terminal t :: β) (u ++ v)
  | nonterminal {A : N} {γ β : List (Symbol T N)} {u v : List α} :
      R A γ → Yields R L γ u → Yields R L β v → Yields R L (.nonterminal A :: β) (u ++ v)

namespace Yields

variable {R : N → List (Symbol T N) → Prop} {L : T → Language α}
  {β γ : List (Symbol T N)} {u v x : List α}

theorem append (hβ : Yields R L β u) (hγ : Yields R L γ v) : Yields R L (β ++ γ) (u ++ v) := by
  induction hβ with
  | nil => exact hγ
  | terminal ht _ ih => rw [List.cons_append, List.append_assoc]; exact .terminal ht ih
  | nonterminal hA h _ _ ih =>
    rw [List.cons_append, List.append_assoc]; exact .nonterminal hA h ih

theorem of_terminal {t : T} (h : u ∈ L t) : Yields R L [.terminal t] u := by
  simpa using Yields.terminal (R := R) h .nil

theorem of_production {A : N} (hA : R A γ) (h : Yields R L γ u) :
    Yields R L [.nonterminal A] u := by
  simpa using Yields.nonterminal hA h .nil

/-- Derivations only grow with the productions and the terminal languages. -/
theorem mono {R' : N → List (Symbol T N) → Prop} {L' : T → Language α}
    (hR : ∀ A γ, R A γ → R' A γ) (hL : ∀ t, L t ≤ L' t) (h : Yields R L β x) :
    Yields R' L' β x := by
  induction h with
  | nil => exact .nil
  | terminal ht _ ih => exact .terminal (hL _ ht) ih
  | nonterminal hA _ _ ih₁ ih₂ => exact .nonterminal (hR _ _ hA) ih₁ ih₂

end Yields

section Split

variable {R : N → List (Symbol T N) → Prop} {L : T → Language α}
  {β γ : List (Symbol T N)} {x : List α}

@[simp] theorem yields_nil_iff : Yields R L [] x ↔ x = [] :=
  ⟨fun h => by cases h; rfl, fun h => h ▸ .nil⟩

theorem yields_terminal_cons_iff {t : T} :
    Yields R L (.terminal t :: β) x ↔ ∃ u v, x = u ++ v ∧ u ∈ L t ∧ Yields R L β v :=
  ⟨fun h => by cases h with | terminal ht hβ => exact ⟨_, _, rfl, ht, hβ⟩,
    fun ⟨_, _, hx, ht, hβ⟩ => hx ▸ .terminal ht hβ⟩

theorem yields_nonterminal_cons_iff {A : N} :
    Yields R L (.nonterminal A :: β) x ↔
      ∃ γ u v, x = u ++ v ∧ R A γ ∧ Yields R L γ u ∧ Yields R L β v :=
  ⟨fun h => by cases h with | nonterminal hA hγ hβ => exact ⟨_, _, _, rfl, hA, hγ, hβ⟩,
    fun ⟨_, _, _, hx, hA, hγ, hβ⟩ => hx ▸ .nonterminal hA hγ hβ⟩

theorem yields_nonterminal_iff {A : N} :
    Yields R L [.nonterminal A] x ↔ ∃ γ, R A γ ∧ Yields R L γ x := by
  rw [yields_nonterminal_cons_iff]
  constructor
  · rintro ⟨γ, u, v, rfl, hA, hγ, hv⟩
    rw [yields_nil_iff] at hv
    subst hv
    exact ⟨γ, hA, by simpa using hγ⟩
  · rintro ⟨γ, hA, hγ⟩
    exact ⟨γ, x, [], by simp, hA, hγ, .nil⟩

theorem yields_terminal_iff {t : T} : Yields R L [.terminal t] x ↔ x ∈ L t := by
  rw [yields_terminal_cons_iff]
  constructor
  · rintro ⟨u, v, rfl, ht, hv⟩
    rw [yields_nil_iff] at hv
    subst hv
    simpa using ht
  · exact fun h => ⟨x, [], by simp, h, .nil⟩

theorem yields_append_iff :
    Yields R L (β ++ γ) x ↔ ∃ u v, x = u ++ v ∧ Yields R L β u ∧ Yields R L γ v := by
  constructor
  · induction β generalizing x with
    | nil => exact fun h => ⟨[], x, rfl, .nil, h⟩
    | cons s β ih =>
      intro h
      cases h with
      | terminal ht h =>
        obtain ⟨u, v, rfl, hu, hv⟩ := ih h
        exact ⟨_, v, (List.append_assoc _ _ _).symm, .terminal ht hu, hv⟩
      | nonterminal hA hγ h =>
        obtain ⟨u, v, rfl, hu, hv⟩ := ih h
        exact ⟨_, v, (List.append_assoc _ _ _).symm, .nonterminal hA hγ hu, hv⟩
  · rintro ⟨u, v, rfl, hu, hv⟩
    exact hu.append hv

theorem yields_cons_iff {s : Symbol T N} :
    Yields R L (s :: β) x ↔ ∃ u v, x = u ++ v ∧ Yields R L [s] u ∧ Yields R L β v :=
  yields_append_iff (β := [s])

end Split

/-! ### Solutions -/

/-- The language of a symbol, when the nonterminals stand for languages too. -/
def symbolLanguage (L : T → Language α) (M : N → Language α) : Symbol T N → Language α
  | .terminal t => L t
  | .nonterminal A => M A

/-- The derived languages are contained in every assignment of languages to the nonterminals that
is closed under the productions. -/
theorem Yields.mem_prod {R : N → List (Symbol T N) → Prop} {L : T → Language α}
    {M : N → Language α} (hM : ∀ A γ, R A γ → (γ.map (symbolLanguage L M)).prod ≤ M A)
    {β : List (Symbol T N)} {x : List α} (h : Yields R L β x) :
    x ∈ (β.map (symbolLanguage L M)).prod := by
  induction h with
  | nil => simp
  | terminal ht _ ih => simpa [symbolLanguage] using Language.append_mem_mul ht ih
  | nonterminal hA _ _ ih₁ ih₂ =>
    simpa [symbolLanguage] using Language.append_mem_mul (hM _ _ hA ih₁) ih₂

/-- The derived languages are closed under the productions. -/
theorem Yields.of_mem_prod {R : N → List (Symbol T N) → Prop} {L : T → Language α}
    {β : List (Symbol T N)} {x : List α}
    (h : x ∈ (β.map (symbolLanguage L fun A => {y | Yields R L [.nonterminal A] y})).prod) :
    Yields R L β x := by
  induction β generalizing x with
  | nil =>
    obtain rfl : x = [] := by simpa using h
    exact .nil
  | cons s β ih =>
    rw [List.map_cons, List.prod_cons] at h
    obtain ⟨u, hu, v, hv, rfl⟩ := Language.mem_mul.1 h
    have hs : Yields R L [s] u := by
      cases s with
      | terminal t => exact .of_terminal hu
      | nonterminal A => exact hu
    exact hs.append (ih hv)

/-! ### Sentences -/

/-- Every terminal stands for itself. -/
def selfLanguage (t : T) : Language T := {[t]}

@[simp] theorem mem_selfLanguage {t : T} {w : List T} : w ∈ selfLanguage t ↔ w = [t] := Iff.rfl

/-- `w` is a terminal string derived from `β`. -/
def Sentence (R : N → List (Symbol T N) → Prop) (β : List (Symbol T N)) (w : List T) : Prop :=
  Yields R selfLanguage β w

variable {R : N → List (Symbol T N) → Prop} {L : T → Language α} {β : List (Symbol T N)}

/-- A word is derived iff it can be split into consecutive words of the
terminals of a sentence. -/
theorem yields_iff_sentence {x : List α} :
    Yields R L β x ↔ ∃ w, Sentence R β w ∧ x ∈ (w.map L).prod := by
  constructor
  · intro h
    induction h with
    | nil => exact ⟨[], .nil, by simp⟩
    | @terminal t u v β ht _ ih =>
      obtain ⟨w, hw, hv⟩ := ih
      exact ⟨t :: w, .terminal (mem_selfLanguage.2 rfl) hw, by
        simpa using Language.append_mem_mul ht hv⟩
    | @nonterminal A γ β u v hA _ _ ih₁ ih₂ =>
      obtain ⟨w₁, h₁, hu⟩ := ih₁
      obtain ⟨w₂, h₂, hv⟩ := ih₂
      exact ⟨w₁ ++ w₂, .nonterminal hA h₁ h₂, by simpa using Language.append_mem_mul hu hv⟩
  · rintro ⟨w, hw, hx⟩
    unfold Sentence at hw
    induction hw generalizing x with
    | nil => simp at hx; exact yields_nil_iff.2 hx
    | terminal ht _ ih =>
      obtain rfl := mem_selfLanguage.1 ht
      simp only [List.singleton_append, List.map_cons, List.prod_cons, Language.mem_mul] at hx
      obtain ⟨u, hu, v, hv, rfl⟩ := hx
      exact .terminal hu (ih hv)
    | nonterminal hA _ _ ih₁ ih₂ =>
      simp only [List.map_append, List.prod_append, Language.mem_mul] at hx
      obtain ⟨u, hu, v, hv, rfl⟩ := hx
      exact .nonterminal hA (ih₁ hu) (ih₂ hv)

end OcEarley

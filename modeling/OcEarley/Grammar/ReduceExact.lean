import OcEarley.Grammar.CertifyExact
import OcEarley.Grammar.Useless

/-!
# Reducing preserves the language

A nonterminal that is kept generates what it did, whatever the terminals are read as
(`Reduced.language_eq`), and where every terminal has a word, so has every symbol of the reduced
grammar (`Reduced.inhabited`).
-/

namespace OcEarley

namespace Grammar

variable {g g' : Grammar} {ν τ π : List ℕ} {R : String → Language UInt8}

/-- Every symbol of the grammar has a word. -/
def Inhabited (g : Grammar) (R : String → Language UInt8) : Prop :=
  ∀ s, g.SymbolInRange s → ∃ x, x ∈ g.symbol R s

theorem Image.terminalLanguage_eq (h : Image g g' ν τ π) {i t : ℕ} (ht : Renamed τ i t) :
    g'.terminalLanguage R i = g.terminalLanguage R t := by
  obtain ⟨found, hfound, hnew⟩ := h.terminals ht
  rw [terminalLanguage, terminalLanguage, hfound, hnew]
  rfl

theorem Image.prod_terminalLanguage_eq (h : Image g g' ν τ π) {w' w : List ℕ}
    (hw : List.Forall₂ (Renamed τ) w' w) :
    (w'.map (g'.terminalLanguage R)).prod = (w.map (g.terminalLanguage R)).prod := by
  induction hw with
  | nil => rfl
  | cons ht _ ih => rw [List.map_cons, List.map_cons, List.prod_cons, List.prod_cons, ih,
      h.terminalLanguage_eq ht]

/-- **What is kept generates what it did.** -/
theorem Reduced.language_eq (h : Reduced g g' ν τ π) {A' A : ℕ} (hA : Renamed ν A' A) :
    g'.language R A' = g.language R A := by
  have hsymbol : List.Forall₂ (SymbolRel (Renamed ν) (Renamed τ)) [.nonterminal A']
      [.nonterminal A] :=
    .cons (.nonterminal hA) .nil
  funext x
  refine propext (yields_iff_sentence.trans (Iff.trans ?_ yields_iff_sentence.symm))
  constructor
  · rintro ⟨w', hw', hx⟩
    obtain ⟨w, hw, hsentence⟩ := h.toImage.sentence hsymbol hw'
    exact ⟨w, hsentence, h.prod_terminalLanguage_eq hw ▸ hx⟩
  · rintro ⟨w, hw, hx⟩
    -- the nonterminal is kept, and with it all that the derivation uses
    obtain ⟨w', hw', hsentence⟩ := h.sentence hsymbol (fun B hB => by
      cases List.mem_singleton.1 hB
      exact (h.mem_nonterminals A).1 (List.mem_of_getElem? hA)) hw
    exact ⟨w', hsentence, (h.prod_terminalLanguage_eq hw').symm ▸ hx⟩

theorem Reduced.language_start (h : Reduced g g' ν τ π) :
    g'.language R g'.start = g.language R g.start :=
  h.language_eq h.start

/-- A sentence has words where its terminals do. -/
theorem exists_mem_of_sentence {β : List GrammarSymbol} {w : List ℕ}
    (hg : g.WellFormed) (hβ : ∀ s ∈ β, g.SymbolInRange s)
    (hterminals : ∀ t ∈ g.terminals, ∃ x, x ∈ t.kind.language R) (h : Sentence g.Rule β w) :
    ∃ x, Yields g.Rule (g.terminalLanguage R) β x := by
  unfold Sentence at h
  induction h with
  | nil => exact ⟨[], .nil⟩
  | @terminal t u v β _ _ ih =>
    obtain ⟨y, hy⟩ := ih fun s hs => hβ s (List.mem_cons_of_mem _ hs)
    have hlt : t < g.terminals.length := hβ _ List.mem_cons_self
    obtain ⟨x, hx⟩ := hterminals _ (List.getElem_mem hlt)
    refine ⟨x ++ y, .terminal ?_ hy⟩
    rw [terminalLanguage, List.getElem?_eq_getElem hlt]
    exact hx
  | nonterminal hA _ _ ih₁ ih₂ =>
    obtain ⟨y, hy⟩ := ih₂ fun s hs => hβ s (List.mem_cons_of_mem _ hs)
    obtain ⟨p, hp, hlhs, rfl⟩ := hA
    obtain ⟨x, hx⟩ := ih₁ fun s hs => hg.rhs_inRange p hp s hs
    exact ⟨x ++ y, .nonterminal ⟨p, hp, hlhs, rfl⟩ hx hy⟩

/-- **Every symbol of a reduced grammar has a word.** -/
theorem Reduced.inhabited (hg : g.WellFormed) (h : Reduced g g' ν τ π)
    (hterminals : ∀ t ∈ g'.terminals, ∃ x, x ∈ t.kind.language R) : g'.Inhabited R := by
  intro s hs
  cases s with
  | terminal t =>
    have hlt : t < g'.terminals.length := hs
    obtain ⟨x, hx⟩ := hterminals _ (List.getElem_mem hlt)
    refine ⟨x, ?_⟩
    change x ∈ g'.terminalLanguage R t
    rw [terminalLanguage, List.getElem?_eq_getElem hlt]
    exact hx
  | nonterminal A' =>
    obtain ⟨A, hA⟩ := h.exists_renamed hs
    obtain ⟨w, hw⟩ := h.isProductive hA
    refine exists_mem_of_sentence (h.toImage.wellFormed hg) (fun s' hs' => ?_) hterminals hw
    obtain rfl := List.mem_singleton.1 hs'
    exact hs

/-- A nonterminal with a word is productive. -/
theorem isProductive_of_mem_language {A : ℕ} {x : List UInt8} (h : x ∈ g.language R A) :
    IsProductive g.Rule A := by
  obtain ⟨w, hw, -⟩ := yields_iff_sentence.1 h
  exact ⟨w, hw⟩

end Grammar

end OcEarley

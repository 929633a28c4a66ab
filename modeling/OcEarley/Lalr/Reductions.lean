import Mathlib.Data.Nat.Digits.Defs
import OcEarley.Lalr.Frame
import OcEarley.Lalr.Table

/-!
# Reductions of the recognizer

`actionAfterReductions` settles the stack on a lookahead, or exceeds the limit on its height
(`Built.wp_settles`).  Its loop ends since no stack comes back, and there are only
finitely many of bounded height (`length_le_of_nodup`).
-/

namespace OcEarley

open Method

/-! ### Stacks of bounded height -/

/-- Lists without repetitions, of bounded length and with bounded elements: there are not many. -/
theorem length_le_of_nodup {seen : List (List ℕ)} {Q H : ℕ} (hQ : 0 < Q) (hnodup : seen.Nodup)
    (hlen : ∀ l ∈ seen, l.length ≤ H) (hlt : ∀ l ∈ seen, ∀ q ∈ l, q < Q) :
    seen.length ≤ (Q + 1) ^ H := by
  -- a list is the number with its elements, moved up by one, as digits
  let code (l : List ℕ) : ℕ := Nat.ofDigits (Q + 1) (l.map (· + 1))
  have hdigits : ∀ l ∈ seen, ∀ d ∈ l.map (· + 1), d < Q + 1 := by
    intro l hl d hd
    obtain ⟨q, hq, rfl⟩ := List.mem_map.1 hd
    exact Nat.succ_lt_succ (hlt l hl q hq)
  have hinj : ∀ l ∈ seen, ∀ l' ∈ seen, code l = code l' → l = l' := by
    intro l hl l' hl' h
    have hback : ∀ l ∈ seen, Nat.digits (Q + 1) (code l) = l.map (· + 1) := fun l hl =>
      Nat.digits_ofDigits (Q + 1) (by omega) _ (hdigits l hl) fun hne => by
        rw [List.getLast_map]
        exact Nat.succ_ne_zero _
    refine List.map_injective_iff.2 (add_left_injective 1) ?_
    exact (hback l hl).symm.trans ((congrArg _ h).trans (hback l' hl'))
  calc seen.length = (seen.map code).length := (List.length_map code).symm
    _ ≤ (List.range ((Q + 1) ^ H)).length := by
        refine ((hnodup.map_on fun l hl l' hl' => hinj l hl l' hl').subperm ?_).length_le
        intro c hc
        obtain ⟨l, hl, rfl⟩ := List.mem_map.1 hc
        refine List.mem_range.2
          ((Nat.ofDigits_lt_base_pow_length (by omega) (hdigits l hl)).trans_le ?_)
        exact Nat.pow_le_pow_right (by omega) (by simpa using hlen l hl)
    _ = (Q + 1) ^ H := List.length_range

/-! ### One reduction -/

namespace CompiledLalr.Built

open LrAutomaton LalrRecognizer

variable {g : ResidualGrammar} {merged : List (List Lr1Item)} {compiled : CompiledLalr}
  {s : LalrRecognizer} {w : List ℕ} {γ : List GrammarSymbol} {σ τ : List ℕ} {q p : ℕ} {a : Option ℕ}

/-- Every state on a stack is a state of the table. -/
theorem lt_of_mem (hB : Built g merged compiled)
    (h : (compiled.table.automaton merged).Spells γ σ) :
    ∀ q ∈ σ, q < compiled.table.actions.length := by
  induction h with
  | nil =>
    intro q hq
    obtain rfl := List.mem_singleton.1 hq
    exact hB.state_lt hB.describes.init_item
  | @snoc γ q q' σ X h hnext ih =>
    intro r hr
    rcases List.mem_cons.1 hr with rfl | hr
    · obtain ⟨p, k, a, hitem⟩ := (h.snoc hnext).exists_any_item hB.describes
      exact hB.state_lt hitem
    · exact ih r hr

/-- The error of reductions on a lookahead that lead to a stack above the limit. -/
def TooHigh (A : LrAutomaton ℕ ℕ ℕ ℕ) (G : LrGrammar ℕ ℕ ℕ) (a : Option ℕ) (σ : List ℕ) (limit : ℕ)
    (e : RuntimeError) : Prop :=
  e.IsLimit ∧ ∃ n τ, A.Reduces G a n σ τ ∧ limit < τ.length

theorem wp_reduce (hB : Built g merged compiled) (hprod : g.lrGrammar.Productive)
    (hs : s.compiled = compiled) (h : (compiled.table.automaton merged).Spells γ (q :: σ))
    (haction : findAction compiled.table q (lookaheadOf a) = some (.reduce p)) :
    wp (TooHigh (compiled.table.automaton merged) g.lrGrammar a (q :: σ) s.limits.maxParseStack)
      (reduce p (q :: σ)) (fun τ s' =>
        (compiled.table.automaton merged).Reduction g.lrGrammar a (q :: σ) τ ∧
          τ.length ≤ s.limits.maxParseStack ∧ SameButStats s s') s := by
  subst hs
  have haction : (s.compiled.table.automaton merged).action q a = some (.reduce p) :=
    automaton_action_eq_reduce.2 haction
  obtain ⟨b, τ, q', hpop, hgoto⟩ := h.exists_reduction hB.describes hprod haction
  obtain ⟨production, hproduction, hlhs, hrhs⟩ := hB.production (hB.describes.of_reduce haction).1
  rw [← hrhs] at hpop
  have hlt : production.rhs.length < (q :: σ).length := by
    by_contra hle
    rw [List.drop_eq_nil_of_le (not_lt.1 hle)] at hpop
    cases hpop
  have hgoto' : findGoto s.compiled.table b production.lhs = some q' := by
    rw [hlhs]
    exact hgoto
  simp only [reduce, wp_bind, wp_get, hproduction, wp_unwrap_some, wp_require, hpop,
    List.head?_cons, hgoto', enforceRuntimeLimit, modifyStats, wp_modify, wp_pure]
  have hred : (s.compiled.table.automaton merged).Reduction g.lrGrammar a (q :: σ) (q' :: b :: τ) :=
    .mk haction (hrhs ▸ hpop) hgoto
  refine ⟨fun _ => ⟨fun hlimit => ⟨hred, hlimit, _, rfl⟩, fun hnot => ⟨trivial, ?_⟩⟩,
    fun hnot => absurd hlt hnot⟩
  exact ⟨1, _, .step hred .refl, not_le.1 hnot⟩

/-- The loop, when the stacks of `seen` came before this one and the fuel is
enough for all others. -/
theorem wp_reductionLoop (hB : Built g merged compiled) (hprod : g.lrGrammar.Productive)
    (hw : (compiled.table.automaton merged).Shifted g.lrGrammar w σ) {H fuel : ℕ} :
    ∀ {s : LalrRecognizer} {τ : List ℕ} {seen : List (List ℕ)}, s.compiled = compiled →
      s.limits.maxParseStack ≤ H → (τ :: seen).Nodup →
      (∀ υ ∈ τ :: seen, υ.length ≤ H ∧
        (∃ n, (compiled.table.automaton merged).Reduces g.lrGrammar a n σ υ) ∧
        ∃ n, (compiled.table.automaton merged).Reduces g.lrGrammar a n υ τ) →
      (compiled.table.actions.length + 1) ^ H < seen.length + fuel →
      wp (TooHigh (compiled.table.automaton merged) g.lrGrammar a σ s.limits.maxParseStack)
        (reductionLoop (lookaheadOf a) fuel τ) (fun r s' => ∃ q υ,
          r = (findAction compiled.table q (lookaheadOf a), q :: υ) ∧
            (compiled.table.automaton merged).Settles g.lrGrammar a σ q υ ∧
              SameButStats s s') s := by
  obtain ⟨γ, m, hγ, -⟩ := hw.exists_spells hB.describes
  have hspells : ∀ {n υ}, (compiled.table.automaton merged).Reduces g.lrGrammar a n σ υ →
      ∃ δ, (compiled.table.automaton merged).Spells δ υ := fun h =>
    (hγ.reduces hB.describes h).imp fun _ h => h.1
  induction fuel with
  | zero =>
    intro s τ seen _ _ hnodup hseen hfuel
    exfalso
    have hQ : 0 < compiled.table.actions.length := hB.state_lt hB.describes.init_item
    have hcard := length_le_of_nodup hQ hnodup (fun υ hυ => (hseen υ hυ).1) fun υ hυ => by
      obtain ⟨-, ⟨n, hn⟩, -⟩ := hseen υ hυ
      obtain ⟨δ, hδ⟩ := hspells hn
      exact hB.lt_of_mem hδ
    rw [List.length_cons] at hcard
    omega
  | succ fuel ih =>
    intro s τ seen hs hH hnodup hseen hfuel
    obtain ⟨-, ⟨n, hn⟩, -⟩ := hseen τ List.mem_cons_self
    obtain ⟨δ, hδ⟩ := hspells hn
    obtain ⟨q, υ, rfl⟩ := List.exists_cons_of_ne_nil hδ.ne_nil
    simp only [reductionLoop, wp_bind, wp_get, List.head?_cons, wp_unwrap_some]
    rw [hs]
    have hdone : (∀ p, findAction compiled.table q (lookaheadOf a) ≠ some (.reduce p)) →
        (compiled.table.automaton merged).Settles g.lrGrammar a σ q υ := fun h =>
      ⟨⟨n, hn⟩, fun p hp => h p (automaton_action_eq_reduce.1 hp)⟩
    split
    · next p haction =>
      rw [wp_bind]
      refine wp_mono (wp_weaken (hB.wp_reduce hprod hs hδ haction) ?_) ?_
      · rintro e ⟨hlimit, k, τ, hτ, hlt⟩
        exact ⟨hlimit, _, τ, hn.trans hτ, hlt⟩
      rintro τ s₁ ⟨hred, hlen, hsame⟩
      have hnew : ∀ υ' ∈ (q :: υ) :: seen, ∃ k,
          (compiled.table.automaton merged).Reduces g.lrGrammar a (k + 1) υ' τ := by
        intro υ' hυ'
        obtain ⟨-, -, k, hk⟩ := hseen υ' hυ'
        exact ⟨k, hk.trans (.step hred .refl)⟩
      obtain ⟨k, hk⟩ := hnew _ List.mem_cons_self
      have hτ : ∃ n, (compiled.table.automaton merged).Reduces g.lrGrammar a n σ τ :=
        ⟨_, hn.trans (.step hred .refl)⟩
      -- the new stack did not come before, or it would reduce to itself
      have hnotMem : τ ∉ (q :: υ) :: seen := fun hmem => by
        obtain ⟨k, hk⟩ := hnew τ hmem
        obtain ⟨n, hn⟩ := hτ
        exact absurd (hw.reduces_eq_zero hB.describes hprod hn hk) (Nat.succ_ne_zero k)
      obtain ⟨stats, rfl⟩ := hsame
      refine wp_mono (ih (s := { s with stats := stats }) hs hH
        (List.nodup_cons.2 ⟨hnotMem, hnodup⟩)
        ?_ (by rw [List.length_cons]; omega)) ?_
      · intro υ' hυ'
        rcases List.mem_cons.1 hυ' with rfl | hυ'
        · exact ⟨hlen.trans hH, hτ, 0, .refl⟩
        · obtain ⟨hlen', hσ, -⟩ := hseen υ' hυ'
          exact ⟨hlen', hσ, (hnew υ' hυ').imp' (· + 1) fun _ h => h⟩
      · rintro r s₂ ⟨q', υ', hr, hsettles, hsame⟩
        exact ⟨q', υ', hr, hsettles, SameButStats.trans ⟨stats, rfl⟩ hsame⟩
    · next action haction =>
      rw [wp_pure]
      exact ⟨q, υ, rfl, hdone fun p hp => haction p hp, .refl s⟩

/-- **Reductions end.**  The stack settles on the lookahead, unless it gets too high. -/
theorem wp_settles (hB : Built g merged compiled) (hprod : g.lrGrammar.Productive)
    (hs : s.compiled = compiled) (hw : (compiled.table.automaton merged).Shifted g.lrGrammar w σ) :
    wp (TooHigh (compiled.table.automaton merged) g.lrGrammar a σ s.limits.maxParseStack)
      (actionAfterReductions σ (lookaheadOf a)) (fun r s' => ∃ q τ,
        r = (findAction compiled.table q (lookaheadOf a), q :: τ) ∧
          (compiled.table.automaton merged).Settles g.lrGrammar a σ q τ ∧ SameButStats s s') s := by
  simp only [actionAfterReductions, wp_bind, wp_get]
  refine hB.wp_reductionLoop hprod hw hs (le_max_right σ.length _) (List.nodup_singleton σ) ?_ ?_
  · intro υ hυ
    obtain rfl := List.mem_singleton.1 hυ
    exact ⟨le_max_left _ _, ⟨0, .refl⟩, 0, .refl⟩
  · rw [reductionFuel, hs, List.length_nil, Nat.zero_add]
    exact Nat.lt_succ_self _

theorem wp_actionAfterReductions (hB : Built g merged compiled) (hprod : g.lrGrammar.Productive)
    (hs : s.compiled = compiled) (hw : (compiled.table.automaton merged).Shifted g.lrGrammar w σ) :
    wp RuntimeError.IsLimit (actionAfterReductions σ (lookaheadOf a)) (fun r s' => ∃ q τ,
      r = (findAction compiled.table q (lookaheadOf a), q :: τ) ∧
        (compiled.table.automaton merged).Settles g.lrGrammar a σ q τ ∧ SameButStats s s') s :=
  wp_weaken (hB.wp_settles hprod hs hw) fun _ h => h.1

end CompiledLalr.Built

end OcEarley

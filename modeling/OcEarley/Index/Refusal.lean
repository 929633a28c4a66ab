import OcEarley.Index.Exact

/-!
# When a projection refuses a vocabulary

The projection walks over the states that the tokens lead to, the last found first, and stops at
the first state where something is wrong.  It refuses a vocabulary for an ambiguous id exactly if
this walk meets a state where the id is ambiguous (`fromCertifiedDfa_ambiguous_iff`); other states
and other tokens are never looked at.
-/

namespace OcEarley

namespace ByteDfa

variable {σ : Type} [DecidableEq σ] {dfa : ByteDfa σ} {vocabulary : Vocabulary}

/-- The states that the walk has seen and those that are still to come, as long as
nothing has been wrong. -/
inductive WalksTo (dfa : ByteDfa σ) (vocabulary : Vocabulary) : List σ → List σ → Prop
  | start {s : σ} (hs : dfa.startState = some s) : WalksTo dfa vocabulary [s] [s]
  | visit {seen stack : List σ} {s : σ} (h : WalksTo dfa vocabulary seen (stack ++ [s]))
    (hambiguous : ∀ t, ¬dfa.AmbiguousAt vocabulary s t) (hstuck : ¬dfa.StuckAt vocabulary s) :
    WalksTo dfa vocabulary (seen ++ dfa.freshTargets s seen vocabulary.tokens.entries)
      (stack ++ dfa.freshTargets s seen vocabulary.tokens.entries)

/-- The walk comes to a state where a token id leads to two states. -/
def MeetsAmbiguous (dfa : ByteDfa σ) (vocabulary : Vocabulary) : Prop :=
  ∃ seen stack s t, dfa.WalksTo vocabulary seen (stack ++ [s]) ∧ dfa.AmbiguousAt vocabulary s t

omit [DecidableEq σ] in
theorem AmbiguousAt.not_stuck {s : σ} {t : ℕ} (h : dfa.AmbiguousAt vocabulary s t) :
    ¬dfa.StuckAt vocabulary s := by
  obtain ⟨entry, hentry, -, -, -, -, s₁, -, h₁, -⟩ := h
  exact fun hstuck => hstuck.2 entry hentry s₁ h₁

theorem projectStates_snoc {policy : ProjectionPolicy} {p : Projection σ} {stack : List σ} {s : σ}
    (h : p.nextStates = stack ++ [s]) (fuel : ℕ) :
    dfa.projectStates vocabulary policy (fuel + 1) p =
      dfa.projectState vocabulary policy { p with nextStates := stack } s >>=
        dfa.projectStates vocabulary policy fuel := by
  have hlast : p.nextStates.getLast? = some s := by rw [h, List.getLast?_concat]
  have hdrop : p.nextStates.dropLast = stack := by rw [h, List.dropLast_concat]
  conv_lhs => unfold projectStates
  rw [hlast]
  dsimp only
  rw [hdrop]

/-- The variables of the loop over the states, along with what has been popped. -/
structure OnWalk (dfa : ByteDfa σ) (vocabulary : Vocabulary) (popped : List σ) (p : Projection σ) :
    Prop where
  inv : p.Invariant dfa vocabulary popped fun s e => s ∈ popped ∧ e ∈ vocabulary.tokens.entries
  walks : dfa.WalksTo vocabulary p.seen p.nextStates

/-- One state: the walk goes on, or something is wrong with the state. -/
theorem OnWalk.projectState {popped nextStates : List σ} {p : Projection σ} {c : σ}
    (hinj : Function.Injective dfa.stableStateId) (h : dfa.OnWalk vocabulary popped p)
    (hnext : p.nextStates = nextStates ++ [c]) (policy : ProjectionPolicy) :
    Result.wp (dfa.FailsAt vocabulary policy c)
      (dfa.projectState vocabulary policy { p with nextStates } c) fun p' =>
        dfa.OnWalk vocabulary (popped ++ [c]) p' ∧ (∀ t, ¬dfa.AmbiguousAt vocabulary c t) ∧
          p'.seen = p.seen ++ dfa.freshTargets c p.seen vocabulary.tokens.entries ∧
          p'.nextStates =
            nextStates ++ dfa.freshTargets c p.seen vocabulary.tokens.entries := by
  refine Result.wp_mono (projectState_wp hinj h.inv hnext)
    fun p' ⟨hinv, hambiguous, hstuck, hseen, hnew⟩ => ?_
  refine ⟨⟨hinv, ?_⟩, hambiguous, hseen, hnew⟩
  rw [hseen, hnew]
  exact .visit (hnext ▸ h.walks) hambiguous hstuck

variable {policy : ProjectionPolicy}

/-- An ambiguous id is reported for a state of the walk. -/
theorem meetsAmbiguous_of_projectStates (hinj : Function.Injective dfa.stableStateId) {t : ℕ}
    (fuel : ℕ) (popped : List σ) (p : Projection σ) (h : dfa.OnWalk vocabulary popped p)
    (hrun : dfa.projectStates vocabulary policy fuel p = .error (.ambiguousTokenId t)) :
    dfa.MeetsAmbiguous vocabulary := by
  induction fuel generalizing popped p with
  | zero =>
    unfold projectStates at hrun
    cases hlast : p.nextStates.getLast? with
    | none =>
      rw [hlast] at hrun
      cases hrun
    | some c =>
      rw [hlast] at hrun
      cases hrun
  | succ fuel ih =>
    unfold projectStates at hrun
    cases hlast : p.nextStates.getLast? with
    | none =>
      rw [hlast] at hrun
      cases hrun
    | some c =>
      rw [hlast] at hrun
      have hnext : p.nextStates = p.nextStates.dropLast ++ [c] :=
        (List.dropLast_append_getLast? c hlast).symm
      have hstate := h.projectState hinj hnext policy
      rcases Result.bind_eq_error.1 hrun with herr | ⟨p', hp', hrest⟩
      · -- the state has just been popped
        rcases Result.wp_error hstate herr with ⟨t', -, hambiguous⟩ | ⟨heq, -⟩
        · exact ⟨p.seen, _, c, t', hnext ▸ h.walks, hambiguous⟩
        · cases heq
      · exact ih _ p' (Result.wp_ok hstate hp').1 hrest

/-- The loop follows the walk. -/
theorem WalksTo.projectStates (hinj : Function.Injective dfa.stableStateId)
    {states seen stack : List σ} (hstates : ∀ s w, dfa.Reached vocabulary s w → s ∈ states) {s₀ : σ}
    (hs₀ : dfa.startState = some s₀) {fuel : ℕ} (hfuel : states.length ≤ fuel)
    (h : dfa.WalksTo vocabulary seen stack) (policy : ProjectionPolicy) : ∃ fuel' popped p,
      dfa.projectStates vocabulary policy fuel ⟨∅, [], [s₀], [s₀], ∅⟩ =
        dfa.projectStates vocabulary policy fuel' p ∧
      dfa.OnWalk vocabulary popped p ∧ p.seen = seen ∧ p.nextStates = stack ∧
        states.length ≤ popped.length + fuel' := by
  induction h with
  | start hs =>
    obtain rfl := Option.some.inj (hs.symm.trans hs₀)
    exact ⟨fuel, [], _, rfl, ⟨.init hs, .start hs⟩, rfl, rfl, by simpa using hfuel⟩
  | @visit seen stack s h hambiguous hstuck ih =>
    obtain ⟨fuel', popped, p, hrun, hwalk, hseen, hstack, hle⟩ := ih
    have hpos : fuel' ≠ 0 := by
      rintro rfl
      -- a state that is still to come is one of those the fuel is for
      have hsub : p.seen ⊆ states := fun x hx => by
        obtain ⟨w, hw⟩ := hwalk.inv.reached x hx
        exact hstates x w hw
      have hlen := (hwalk.inv.nodup.subperm hsub).length_le
      rw [hwalk.inv.perm.length_eq, hstack] at hlen
      simp at hlen
      omega
    obtain ⟨fuel', rfl⟩ := Nat.exists_eq_succ_of_ne_zero hpos
    have hstate := hwalk.projectState hinj hstack policy
    cases hp' : dfa.projectState vocabulary policy { p with nextStates := stack } s with
    | error e =>
      rcases Result.wp_error hstate hp' with ⟨t, -, hbad⟩ | ⟨-, hbad⟩
      · exact absurd hbad (hambiguous t)
      · exact absurd hbad hstuck
    | ok p' =>
      obtain ⟨hwalk', -, hseen', hstack'⟩ := Result.wp_ok hstate hp'
      refine ⟨fuel', popped ++ [s], p', ?_, hwalk', hseen ▸ hseen', hseen ▸ hstack', by simp; omega⟩
      rw [hrun, projectStates_snoc hstack, hp']
      rfl

/-- The loop stops at an ambiguous state of the walk. -/
theorem MeetsAmbiguous.projectStates (hinj : Function.Injective dfa.stableStateId) {states : List σ}
    (hstates : ∀ s w, dfa.Reached vocabulary s w → s ∈ states) {s₀ : σ}
    (hs₀ : dfa.startState = some s₀) {fuel : ℕ} (hfuel : states.length ≤ fuel)
    (h : dfa.MeetsAmbiguous vocabulary) (policy : ProjectionPolicy) :
    ∃ t, dfa.projectStates vocabulary policy fuel ⟨∅, [], [s₀], [s₀], ∅⟩ =
      .error (.ambiguousTokenId t) := by
  obtain ⟨seen, stack, s, t, hwalks, hambiguous⟩ := h
  obtain ⟨fuel', popped, p, hrun, hwalk, hseen, hstack, hle⟩ :=
    hwalks.projectStates hinj hstates hs₀ hfuel policy
  have hstate := hwalk.projectState hinj hstack policy
  cases fuel' with
  | zero =>
    have hsub : p.seen ⊆ states := fun x hx => by
      obtain ⟨w, hw⟩ := hwalk.inv.reached x hx
      exact hstates x w hw
    have hlen := (hwalk.inv.nodup.subperm hsub).length_le
    rw [hwalk.inv.perm.length_eq, hstack] at hlen
    simp at hlen
    omega
  | succ fuel' =>
    rw [hrun, projectStates_snoc hstack]
    cases hp' : dfa.projectState vocabulary policy { p with nextStates := stack } s with
    | error e =>
      rcases Result.wp_error hstate hp' with ⟨t', rfl, -⟩ | ⟨-, hbad⟩
      · exact ⟨t', rfl⟩
      · exact absurd hbad hambiguous.not_stuck
    | ok p' => exact absurd hambiguous ((Result.wp_ok hstate hp').2.1 t)

end ByteDfa

/-! ### Certified DFAs -/

section Certified

variable {dfa : CompiledByteDfa} {vocabulary : Vocabulary}

theorem ByteDfa.WalksTo.reached {seen stack : List ℕ}
    (h : dfa.byteDfa.WalksTo vocabulary seen stack) :
    ∀ s ∈ stack, ∃ w, dfa.byteDfa.Reached vocabulary s w := by
  have hinj : Function.Injective dfa.byteDfa.stableStateId := fun _ _ => id
  obtain ⟨fuel', popped, p, -, hwalk, rfl, rfl, -⟩ := h.projectStates hinj
    (fun s w (h : dfa.byteDfa.Reached vocabulary s w) => lt_of_reached h) rfl le_rfl .exact
  exact fun s hs => hwalk.inv.reached s (hwalk.inv.perm.mem_iff.2 (List.mem_append_right _ hs))

/-- The projection refuses a vocabulary for an ambiguous id exactly if its walk meets one. -/
theorem fromCertifiedDfa_ambiguous_iff (hlive : dfa.LiveExact) (hids : vocabulary.IdsInRange) :
    (∃ t, Index.fromCertifiedDfa dfa vocabulary = .error (.ambiguousTokenId t)) ↔
      dfa.byteDfa.MeetsAmbiguous vocabulary := by
  have hinj : Function.Injective dfa.byteDfa.stableStateId := fun _ _ => id
  have hstates : ∀ s w, dfa.byteDfa.Reached vocabulary s w → s ∈ List.range (dfa.stateCount + 1) :=
    fun s w h => lt_of_reached h
  obtain ⟨width, hwidth⟩ : ∃ width, vocabularyWidth vocabulary = .ok width :=
    (Result.exists_of_wp (ByteDfa.vocabularyWidth_wp hids (Q := fun _ => True)
      fun _ => trivial)).imp fun _ h => h.1
  constructor
  · rintro ⟨t, ht⟩
    have hproject : dfa.byteDfa.projectByteDfa (dfa.stateCount + 1) vocabulary .exact =
        .error (.ambiguousTokenId t) := by
      unfold Index.fromCertifiedDfa at ht
      split at ht
      · cases ht
      · next e he =>
        obtain rfl := Except.error.inj ht
        exact he
    unfold ByteDfa.projectByteDfa at hproject
    rw [hwidth] at hproject
    rcases Result.bind_eq_error.1 hproject with h | ⟨_, -, hproject⟩
    · cases h
    rcases Result.bind_eq_error.1 hproject with h | ⟨_, hs, hproject⟩
    · cases h
    obtain rfl := Option.some.inj (Result.unwrap_eq_ok.1 hs)
    dsimp only at hproject
    split at hproject
    · cases hproject
    -- neither the width nor the start fails so, only the walk
    rcases Result.bind_eq_error.1 hproject with hrun | ⟨_, -, h⟩
    · exact ByteDfa.meetsAmbiguous_of_projectStates hinj _ [] _ ⟨.init rfl, .start rfl⟩ hrun
    · cases h
  · intro h
    obtain ⟨t, ht⟩ : ∃ t, dfa.byteDfa.projectStates vocabulary .exact (dfa.stateCount + 1)
        ⟨∅, [], [CompiledByteDfa.startState], [CompiledByteDfa.startState], ∅⟩ =
          .error (.ambiguousTokenId t) := h.projectStates hinj hstates rfl (by simp) .exact
    obtain ⟨seen, stack, s, t', hwalks, hambiguous⟩ := h
    obtain ⟨w, hw⟩ := hwalks.reached s (by simp)
    -- a start state that is not live takes no token, so nothing would be ambiguous there
    have hstart : dfa.isLive CompiledByteDfa.startState = true := by
      by_contra hnot
      rw [Bool.not_eq_true] at hnot
      obtain rfl := reached_of_start hlive hnot hw
      obtain ⟨_, -, _, -, -, -, s₁, -, h₁, -⟩ := hambiguous
      exact not_takes_of_start hlive hnot _ _ h₁
    refine ⟨t, ?_⟩
    have hproject : dfa.byteDfa.projectByteDfa (dfa.stateCount + 1) vocabulary .exact =
        .error (.ambiguousTokenId t) := by
      unfold ByteDfa.projectByteDfa
      rw [hwidth]
      refine Result.bind_eq_error.2 (.inr ⟨_, rfl, ?_⟩)
      refine Result.bind_eq_error.2 (.inr ⟨_, rfl, ?_⟩)
      dsimp only
      rw [if_neg fun hexit => hexit.2.1 hstart]
      exact Result.bind_eq_error.2 (.inl ht)
    unfold Index.fromCertifiedDfa
    split
    · next fields hfields => cases hproject.symm.trans hfields
    · next e he =>
      obtain rfl := Except.error.inj (hproject.symm.trans he)
      rfl

/-- The projection never looks for empty tokens. -/
theorem fromCertifiedDfa_ne_empty (hlive : dfa.LiveExact) (hids : vocabulary.IdsInRange) :
    Index.fromCertifiedDfa dfa vocabulary ≠ .error .emptyTokenDisallowed := by
  intro h
  obtain ⟨⟨s, w, -, ⟨t, ht, -⟩ | ⟨hincompatible, -⟩⟩, -⟩ :=
    Result.wp_error (fromCertifiedDfa_wp hlive hids) h
  · cases ht
  · cases hincompatible

end Certified

end OcEarley

import OcEarley.Index.Exact

/-!
# Stranded guides

Whether a state goes on is decided for each byte string of the vocabulary, and its row is filled
for each token id.  A byte string without ids counts for the one and not for the other, so a guide
is left with nothing to choose where such byte strings are the only way on
(`neverStranded_iff`).
-/

namespace OcEarley

namespace Index

/-- The states that allowed token ids lead to. -/
inductive Reaches (index : Index) : ℕ → Prop
  | initial : Reaches index index.initialState
  | step {s s' t : ℕ} : Reaches index s → index.nextState s t = some s' → Reaches index s'

/-- From no reachable state every way is barred. -/
def NeverStranded (index : Index) : Prop := ∀ s, index.Reaches s → ∃ t, index.Allows s t

end Index

/-- The states that byte strings with a token id lead to through live states. -/
inductive ByteDfa.ReachedById {σ : Type} (dfa : ByteDfa σ) (vocabulary : Vocabulary) : σ → Prop
  | start {s : σ} : dfa.startState = some s → ReachedById dfa vocabulary s
  | step {s s' : σ} {entry : Σ _ : List UInt8, List ℕ} : ReachedById dfa vocabulary s →
      entry ∈ vocabulary.tokens.entries → entry.2 ≠ [] → dfa.Takes s entry.1 s' →
      ReachedById dfa vocabulary s'

/-- The state is not accepting, and all byte strings that go on from it lack a token id. -/
def ByteDfa.OnlyUnnumberedAt {σ : Type} (dfa : ByteDfa σ) (vocabulary : Vocabulary) (s : σ) :
    Prop :=
  dfa.isAccepting s = false ∧
    (∃ entry ∈ vocabulary.tokens.entries, entry.2 = [] ∧ ∃ s', dfa.Takes s entry.1 s') ∧
      ∀ entry ∈ vocabulary.tokens.entries, entry.2 ≠ [] → ∀ s', ¬dfa.Takes s entry.1 s'

theorem ByteDfa.ReachedById.reached {σ : Type} {dfa : ByteDfa σ} {vocabulary : Vocabulary} {s : σ}
    (h : dfa.ReachedById vocabulary s) : ∃ w, dfa.Reached vocabulary s w := by
  induction h with
  | start hs => exact ⟨[], .start hs⟩
  | step _ hentry _ htakes ih =>
    obtain ⟨w, hw⟩ := ih
    exact ⟨_, hw.step hentry htakes⟩

section Certified

variable {dfa : CompiledByteDfa} {vocabulary : Vocabulary} {index : Index}

theorem exists_entry_of_mem_ids {token : List UInt8} {t : ℕ} (h : t ∈ vocabulary.ids token) :
    ∃ entry ∈ vocabulary.tokens.entries, entry.1 = token ∧ entry.2 ≠ [] := by
  obtain ⟨entry, hentry, htoken, ht⟩ := Vocabulary.mem_ids.1 h
  exact ⟨entry, hentry, htoken, List.ne_nil_of_mem ht⟩

theorem exists_mem_ids {entry : Σ _ : List UInt8, List ℕ}
    (hentry : entry ∈ vocabulary.tokens.entries) (hne : entry.2 ≠ []) :
    ∃ t ∈ vocabulary.ids entry.1, t ≠ vocabulary.eosTokenId := by
  obtain ⟨t, ht⟩ := List.exists_mem_of_ne_nil _ hne
  exact ⟨t, Vocabulary.mem_ids.2 ⟨entry, hentry, rfl, ht⟩,
    fun heq => vocabulary.eos_notMem entry hentry (heq ▸ ht)⟩

/-- The states of the index are those that byte strings with an id lead to. -/
theorem reaches_iff (hproj : dfa.byteDfa.IsProjection vocabulary index)
    (hinitial : index.initialState = CompiledByteDfa.startState) {s : ℕ} :
    index.Reaches s ↔ dfa.byteDfa.ReachedById vocabulary s := by
  constructor
  · intro h
    induction h with
    | initial => exact .start (congrArg some hinitial.symm)
    | @step s s' t _ hnext ih =>
      obtain ⟨w, hw⟩ := ih.reached
      have ht : t ≠ index.eosTokenId := by
        rintro rfl
        rw [Index.nextState, if_pos rfl] at hnext
        cases hnext
      rw [Index.nextState_eq ht, hproj.row_iff hw] at hnext
      obtain ⟨token, hid, htakes⟩ | ⟨heos, -⟩ := hnext
      · obtain ⟨entry, hentry, rfl, hne⟩ := exists_entry_of_mem_ids hid
        exact ih.step hentry hne htakes
      · exact absurd (heos.trans hproj.eos.symm) ht
  · intro h
    induction h with
    | start hs =>
      obtain rfl := Option.some.inj hs
      exact hinitial ▸ .initial
    | @step s s' entry hs hentry hne htakes ih =>
      obtain ⟨w, hw⟩ := hs.reached
      obtain ⟨t, hid, ht⟩ := exists_mem_ids hentry hne
      refine ih.step (t := t) ?_
      rw [Index.nextState_eq (hproj.eos ▸ ht), hproj.row_iff hw]
      exact .inl ⟨entry.1, hid, htakes⟩

/-- The state has an empty row exactly when only byte strings without an id go on from it. -/
theorem not_allows_iff (hproj : dfa.byteDfa.IsProjection vocabulary index) {s : ℕ}
    {w : List UInt8} (hs : dfa.byteDfa.Reached vocabulary s w)
    (hstuck : ¬dfa.byteDfa.StuckAt vocabulary s) :
    (¬∃ t, index.Allows s t) ↔ dfa.byteDfa.OnlyUnnumberedAt vocabulary s := by
  simp only [Index.allows_iff, hproj.row_iff hs]
  constructor
  · intro hnone
    have hacc : dfa.isAccepting s = false := by
      by_contra hacc
      exact hnone ⟨_, _, .inr ⟨rfl, (Bool.not_eq_false _).mp hacc, rfl⟩⟩
    have hnumbered : ∀ entry ∈ vocabulary.tokens.entries, entry.2 ≠ [] →
        ∀ s', ¬dfa.byteDfa.Takes s entry.1 s' := fun entry hentry hne s' htakes => by
      obtain ⟨t, hid, -⟩ := exists_mem_ids hentry hne
      exact hnone ⟨t, s', .inl ⟨entry.1, hid, htakes⟩⟩
    refine ⟨hacc, ?_, hnumbered⟩
    -- The projection saw some byte string go on, and it has no id.
    by_contra hempty
    refine hstuck ⟨hacc, fun entry hentry s' htakes => ?_⟩
    by_cases hne : entry.2 = []
    · exact hempty ⟨entry, hentry, hne, s', htakes⟩
    · exact hnumbered entry hentry hne s' htakes
  · rintro ⟨hacc, -, hnumbered⟩ ⟨t, x, ⟨token, hid, htakes⟩ | ⟨-, hacc', -⟩⟩
    · obtain ⟨entry, hentry, rfl, hne⟩ := exists_entry_of_mem_ids hid
      exact hnumbered entry hentry hne x htakes
    · exact Bool.noConfusion (hacc'.symm.trans hacc)

/-- A guide is never stranded exactly when byte strings without a token id are nowhere the only
way on. -/
theorem neverStranded_iff (dfa : CompiledByteDfa) (hlive : dfa.LiveExact)
    (hstart : dfa.isLive CompiledByteDfa.startState = true) (vocabulary : Vocabulary)
    (hids : vocabulary.IdsInRange) (index : Index)
    (hindex : Index.fromCertifiedDfa dfa vocabulary = .ok index) :
    index.NeverStranded ↔ ∀ s, dfa.byteDfa.ReachedById vocabulary s →
      ¬dfa.byteDfa.OnlyUnnumberedAt vocabulary s := by
  obtain ⟨hproj, hinitial, hok⟩ := Result.wp_ok (fromCertifiedDfa_wp hlive hids) hindex
  unfold Index.NeverStranded
  simp only [reaches_iff hproj hinitial]
  refine forall_congr' fun s => imp_congr_right fun hs => ?_
  obtain ⟨w, hw⟩ := hs.reached
  rw [← not_allows_iff hproj hw (hok hstart s w hw).2, not_not]

end Certified

/-- The row of the state after `a` is missing, although the projection went on from it. -/
theorem fromCertifiedDfa_unnumbered :
    ∃ index, Index.fromCertifiedDfa abDfa unnumberedVocabulary = .ok index ∧
      index.nextState index.initialState 0 = some 1 ∧ index.allowedTokens 1 = none :=
  ⟨_, rfl, rfl, rfl⟩

theorem neverStranded_iff_unnumbered :
    ∃ index, Index.fromCertifiedDfa abDfa unnumberedVocabulary = .ok index ∧
      (index.NeverStranded ↔ ∀ s, abDfa.byteDfa.ReachedById unnumberedVocabulary s →
        ¬abDfa.byteDfa.OnlyUnnumberedAt unnumberedVocabulary s) := by
  obtain ⟨index, hindex, -⟩ := fromCertifiedDfa_unnumbered
  exact ⟨index, hindex, neverStranded_iff abDfa abDfa_liveExact rfl unnumberedVocabulary
    unnumberedVocabulary_idsInRange index hindex⟩

/-- After `a` the only way on is `b`, which has no token id. -/
theorem stranded :
    ¬∀ (dfa : CompiledByteDfa) (vocabulary : Vocabulary) (index : Index), dfa.LiveExact →
      dfa.isLive CompiledByteDfa.startState = true → vocabulary.IdsInRange →
        Index.fromCertifiedDfa dfa vocabulary = .ok index → index.NeverStranded := by
  intro h
  obtain ⟨index, hindex, hnext, hnone⟩ := fromCertifiedDfa_unnumbered
  have hnever := h abDfa unnumberedVocabulary index abDfa_liveExact rfl
    unnumberedVocabulary_idsInRange hindex
  obtain ⟨t, row, hrow, -⟩ := hnever 1 (Index.Reaches.initial.step hnext)
  rw [hnone] at hrow
  cases hrow

end OcEarley

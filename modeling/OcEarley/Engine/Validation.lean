import OcEarley.Engine.Committed
import OcEarley.Engine.MaskExact
import OcEarley.Index.Refusal
import OcEarley.Vocabulary.Exact

/-!
# Vocabularies and backends

Both compilers of vocabularies are to refuse empty tokens and ambiguous ids.  The derived vocabulary
of a parser is checked as a whole; the projection of an automaton comes upon ambiguous ids only
where its walk goes, and takes an empty token for one that leads nowhere.  `validates_alike_iff`
says for which schemas and vocabularies this makes no difference.
-/

namespace OcEarley

open Method

/-! ### The mask of an index -/

namespace MaskQuery

variable {q : MaskQuery}

/-- Every token of a row gets its bit. -/
theorem enableAll_eq_ok {tokens : List ℕ} (h : ∀ t ∈ tokens, t / 32 < q.destination.length) :
    ∃ q', tokens.forM enable q = .ok () q' ∧
      ∀ v, BitSet q'.destination v ↔ BitSet q.destination v ∨ v ∈ tokens := by
  induction tokens generalizing q with
  | nil => exact ⟨q, rfl, fun v => by simp⟩
  | cons t tokens ih =>
    obtain ⟨ht, htokens⟩ := List.forall_mem_cons.1 h
    obtain ⟨q₁, hq₁, hdestination⟩ : ∃ q₁, enable t q = .ok () q₁ ∧
        q₁.destination = maskBit t q.destination := by
      unfold enable
      rw [bind_of_ok get_apply, bind_of_ok (require_of ht), bind_of_ok modify_apply]
      exact ⟨_, rfl, rfl⟩
    obtain ⟨q', hq', hbits⟩ := ih (q := q₁) fun t' ht' => by
      rw [hdestination, length_maskBit]
      exact htokens t' ht'
    refine ⟨q', ?_, fun v => ?_⟩
    · change (enable t >>= fun _ => tokens.forM enable) q = _
      rw [bind_of_ok hq₁]
      exact hq'
    · rw [hbits, hdestination, bitSet_maskBit, List.mem_cons, or_assoc, and_iff_left ht]

end MaskQuery

namespace Guide

variable {g : Guide} {destination mask : List ℕ}

/-- The mask over an index shows the row of the state. -/
theorem freshMask_dfa {index : Index} {state : ℕ} (hruntime : g.runtime = .dfa index state)
    (hfits : g.FitsMask) (hunfinished : g.finished = false)
    (hlen : g.maskWords ≤ destination.length) : ∃ mask, g.freshMask destination = .ok mask ∧
      ∀ v, BitSet mask v ↔ v ∈ (index.allowedTokens state).getD [] := by
  have hq := MaskQuery.fillMask_of_none (q := ⟨{ g with cachedMask := none }, destination⟩) hlen rfl
  have hstarted : (MaskQuery.started ⟨{ g with cachedMask := none }, destination⟩).destination =
      List.replicate destination.length 0 := rfl
  have hrow : ∀ t ∈ (index.allowedTokens state).getD [], t / 32 <
      (MaskQuery.started ⟨{ g with cachedMask := none }, destination⟩).destination.length := by
    intro t ht
    rw [hstarted, List.length_replicate]
    exact (hfits.dfa index state hruntime state t ht).trans_le hlen
  obtain ⟨q', hq', hbits⟩ := MaskQuery.enableAll_eq_ok hrow
  have hcompute : MaskQuery.computeUnfinished
      (MaskQuery.started ⟨{ g with cachedMask := none }, destination⟩) = .ok () q' := by
    unfold MaskQuery.computeUnfinished MaskQuery.compute
    rw [bind_of_ok get_apply]
    have hfinished : (MaskQuery.started
        ⟨{ g with cachedMask := none }, destination⟩).guide.finished = false := hunfinished
    have hstate : (MaskQuery.started
        ⟨{ g with cachedMask := none }, destination⟩).guide.runtime = .dfa index state := hruntime
    rw [hfinished, if_neg Bool.false_ne_true, bind_of_ok get_apply, hstate]
    exact hq'
  refine ⟨q'.destination, ?_, fun v => ?_⟩
  · unfold freshMask fillMask
    rw [hq, bind_of_ok hcompute]
    rfl
  · rw [hbits, hstarted, or_iff_right]
    exact bitSet_replicate

/-- A mask of the guide shows the token. -/
def Enables (g : Guide) (token : ℕ) : Prop :=
  ∃ destination mask, valueOf (fillMask destination g) = .ok mask ∧ BitSet mask token

end Guide

/-! ### What the compilers refuse -/

section Refusal

variable {vocabulary : Vocabulary} {limits : CompileLimits} {prepared : PreparedGrammar}
  {backend : PreparedBackend} {policy : BackendPolicy} {dfa : CompiledByteDfa}

/-- The vocabulary is refused for an empty token or for an id of two byte strings. -/
def Refuses {α : Type} (result : Except Error α) : Prop :=
  result = .error .emptyTokenDisallowed ∨ ∃ t, result = .error (.ambiguousTokenId t)

/-- The vocabulary is not stopped by a limit. -/
def WithinLimits (vocabulary : Vocabulary) (limits : CompileLimits) : Prop :=
  ∀ e, DerivedVocabulary.build vocabulary limits = .error e → ¬e.IsLimit

theorem not_clean_of_refused {e : Error} (h : DerivedVocabulary.Refused
    (fun b => ∃ entry ∈ vocabulary.tokens.entries, entry.1 = b)
    (fun b id => id ∈ vocabulary.ids b) e) (he : ¬e.IsLimit) :
    ¬vocabulary.Clean ∧ (e = .emptyTokenDisallowed ∨ ∃ t, e = .ambiguousTokenId t) := by
  cases h with
  | limit h => exact absurd h he
  | empty h =>
    obtain ⟨entry, hentry, hnil⟩ := h
    exact ⟨fun hclean => hclean.ne_nil entry hentry hnil, .inl rfl⟩
  | ambiguous h h' hne => exact ⟨fun hclean => hne (hclean.unique _ _ _ h h'), .inr ⟨_, rfl⟩⟩

/-- A parser's vocabulary is refused exactly if it is not clean. -/
theorem refuses_withVocabulary (hlimits : WithinLimits vocabulary limits) {made : CompiledBackend} :
    Refuses (CompiledSchema.withVocabulary made vocabulary limits) ↔ ¬vocabulary.Clean := by
  have hwp := DerivedVocabulary.build_wp vocabulary limits
  unfold CompiledSchema.withVocabulary Refuses
  split
  · next derived hbuild =>
    have hclean := Result.wp_ok hwp hbuild
    refine iff_of_false ?_ (not_not.2 hclean)
    rintro (h | ⟨t, h⟩) <;> cases h
  · next e he =>
    obtain ⟨hclean, hkind⟩ := not_clean_of_refused (Result.wp_error hwp he) (hlimits e he)
    refine iff_of_true ?_ hclean
    rcases hkind with rfl | ⟨t, rfl⟩
    · exact .inl rfl
    · exact .inr ⟨t, rfl⟩

theorem refuses_structural (hlimits : WithinLimits vocabulary limits)
    (hbackend : ∀ dfa, backend ≠ .dfa dfa) :
    Refuses (CompiledSchema.ofPrepared backend vocabulary limits) ↔ ¬vocabulary.Clean := by
  cases backend with
  | dfa dfa => exact absurd rfl (hbackend dfa)
  | lalr lalr => exact refuses_withVocabulary hlimits
  | earley earley => exact refuses_withVocabulary hlimits

/-- An automaton's vocabulary is refused exactly if the walk meets an ambiguous id. -/
theorem refuses_dfa (hlive : dfa.LiveExact) (hids : vocabulary.IdsInRange) :
    Refuses (CompiledSchema.ofPrepared (.dfa dfa) vocabulary limits) ↔
      dfa.byteDfa.MeetsAmbiguous vocabulary := by
  rw [← fromCertifiedDfa_ambiguous_iff hlive hids]
  have hempty := fromCertifiedDfa_ne_empty hlive hids
  cases hindex : Index.fromCertifiedDfa dfa vocabulary with
  | ok index =>
    obtain ⟨compiled, hok⟩ : ∃ compiled,
        CompiledSchema.ofPrepared (.dfa dfa) vocabulary limits = .ok compiled :=
      ⟨_, Result.bind_eq_ok.2 ⟨index, hindex, rfl⟩⟩
    rw [hok]
    refine iff_of_false ?_ ?_
    · rintro (h | ⟨t, h⟩) <;> cases h
    · rintro ⟨t, h⟩
      cases h
  | error e =>
    have herror : CompiledSchema.ofPrepared (.dfa dfa) vocabulary limits = .error e :=
      Result.bind_eq_error.2 (.inl hindex)
    rw [herror]
    constructor
    · rintro (h | ⟨t, h⟩)
      · obtain rfl : e = .emptyTokenDisallowed := Except.error.inj h
        exact absurd hindex hempty
      · exact ⟨t, congrArg _ (Except.error.inj h)⟩
    · rintro ⟨t, h⟩
      exact .inr ⟨t, congrArg _ (Except.error.inj h)⟩

theorem not_clean_of_meetsAmbiguous (h : dfa.byteDfa.MeetsAmbiguous vocabulary) :
    ¬vocabulary.Clean := by
  obtain ⟨-, -, s, t, -, entry, hentry, entry', hentry', ht, ht', s₁, s₂, h₁, h₂, hne⟩ := h
  intro hclean
  have heq := hclean.unique t entry.1 entry'.1 (Vocabulary.mem_ids.2 ⟨entry, hentry, rfl, ht⟩)
    (Vocabulary.mem_ids.2 ⟨entry', hentry', rfl, ht'⟩)
  rw [heq] at h₁
  exact hne (h₁.unique h₂)

/-! ### The choice of a backend -/

theorem earleyBackend_ne_dfa {residual : ResidualGrammar}
    (h : PreparedGrammar.earleyBackend residual limits = .ok backend) : backend ≠ .dfa dfa := by
  obtain ⟨_, -, h⟩ := Result.bind_eq_ok.1 h
  obtain rfl := Result.pure_eq_ok.1 h
  exact fun h => nomatch h

theorem structuralBackend_ne_dfa (h : prepared.structuralBackend limits policy = .ok backend) :
    backend ≠ .dfa dfa := by
  obtain ⟨residual, -, h⟩ := Result.bind_eq_ok.1 h
  split at h
  · exact earleyBackend_ne_dfa h
  split at h
  · obtain ⟨_, -, h⟩ := Result.bind_eq_ok.1 h
    obtain rfl := Result.pure_eq_ok.1 h
    intro hdfa
    cases hdfa
  · cases h
  · split at h
    · obtain rfl := Result.pure_eq_ok.1 h
      intro hdfa
      cases hdfa
    · exact earleyBackend_ne_dfa h
  · exact earleyBackend_ne_dfa h

/-- An automaton is chosen only where there is one. -/
theorem dfa_of_backend (h : prepared.backend limits policy = .ok (.dfa dfa)) :
    prepared.dfa = some dfa := by
  unfold PreparedGrammar.backend at h
  split at h
  · cases h
  · next hdfa =>
    obtain ⟨⟩ := Result.pure_eq_ok.1 h
    exact hdfa
  · next hdfa =>
    obtain ⟨⟩ := Result.pure_eq_ok.1 h
    exact hdfa
  · exact absurd rfl (structuralBackend_ne_dfa h)

theorem compileWithPolicy_eq (h : prepared.backend limits policy = .ok backend) :
    CompiledSchema.compileWithPolicy prepared vocabulary limits policy =
      CompiledSchema.ofPrepared backend vocabulary limits := by
  unfold CompiledSchema.compileWithPolicy
  rw [h]
  rfl

theorem compileWithPolicy_eq_ok {compiled : CompiledSchema}
    (h : CompiledSchema.compileWithPolicy prepared vocabulary limits policy = .ok compiled) :
    ∃ backend, prepared.backend limits policy = .ok backend ∧
      CompiledSchema.ofPrepared backend vocabulary limits = .ok compiled := by
  obtain ⟨backend, hbackend, h⟩ := Result.bind_eq_ok.1 h
  cases hrun : prepared.backend limits policy with
  | error e =>
    rw [hrun] at hbackend
    cases hbackend
  | ok backend' =>
    rw [hrun] at hbackend
    obtain rfl := Except.ok.inj hbackend
    exact ⟨backend', rfl, h⟩

/-! ### Backends that agree -/

variable (prepared vocabulary limits) in
/-- The backends agree on whether the vocabulary is refused, and no guide enables an empty token. -/
structure ValidatesAlike : Prop where
  refuses : ∀ policy policy' backend backend', prepared.backend limits policy = .ok backend →
    prepared.backend limits policy' = .ok backend' →
      (Refuses (CompiledSchema.compileWithPolicy prepared vocabulary limits policy) ↔
        Refuses (CompiledSchema.compileWithPolicy prepared vocabulary limits policy'))
  progress : ∀ policy compiled maxRollback runtimeLimits generation (g : Guide) ops token,
    CompiledSchema.compileWithPolicy prepared vocabulary limits policy = .ok compiled →
      Guide.fromCompiled compiled maxRollback runtimeLimits generation = .ok g →
        token ≠ vocabulary.eosTokenId → (g.after ops).Enables token → token ∉ vocabulary.ids []

variable (prepared limits) in
/-- A policy makes a parser of the schema. -/
def HasParser : Prop :=
  ∃ policy backend, prepared.backend limits policy = .ok backend ∧ ∀ dfa, backend ≠ .dfa dfa

variable (prepared vocabulary limits) in
/-- The projection notices what is wrong with the vocabulary: its walk meets an ambiguous id if
there is a parser that would refuse the vocabulary, and no empty token gets into an index. -/
structure Notices (dfa : CompiledByteDfa) : Prop where
  ambiguous : HasParser limits prepared → dfa.byteDfa.MeetsAmbiguous vocabulary
  empty : dfa.isLive CompiledByteDfa.startState = true → dfa.byteDfa.Projectable vocabulary →
    ∀ t, t ∉ vocabulary.ids []

theorem Vocabulary.Clean.notMem_ids_nil (h : vocabulary.Clean) (t : ℕ) : t ∉ vocabulary.ids [] := by
  rw [Vocabulary.mem_ids]
  rintro ⟨entry, hentry, hnil, -⟩
  exact h.ne_nil entry hentry hnil

/-- The two ways in which a backend finds out that a vocabulary is not clean. -/
def FindsFault (vocabulary : Vocabulary) (backend : PreparedBackend) : Prop :=
  (∃ dfa, backend = .dfa dfa ∧ dfa.byteDfa.MeetsAmbiguous vocabulary) ∨
    (∀ dfa, backend ≠ .dfa dfa) ∧ ¬vocabulary.Clean

theorem FindsFault.not_clean (h : FindsFault vocabulary backend) : ¬vocabulary.Clean := by
  rcases h with ⟨dfa, -, hmeets⟩ | ⟨-, hnot⟩
  · exact not_clean_of_meetsAmbiguous hmeets
  · exact hnot

theorem backend_auto (h : prepared.dfa = some dfa) :
    prepared.backend limits .auto = .ok (.dfa dfa) := by
  unfold PreparedGrammar.backend
  rw [h]
  rfl

theorem refuses_iff (hlive : ∀ dfa, prepared.dfa = some dfa → dfa.LiveExact)
    (hids : vocabulary.IdsInRange) (hlimits : WithinLimits vocabulary limits)
    (h : prepared.backend limits policy = .ok backend) :
    Refuses (CompiledSchema.compileWithPolicy prepared vocabulary limits policy) ↔
      FindsFault vocabulary backend := by
  unfold FindsFault
  rw [compileWithPolicy_eq h]
  cases backend with
  | dfa dfa =>
    rw [refuses_dfa (hlive dfa (dfa_of_backend h)) hids]
    constructor
    · exact fun hmeets => .inl ⟨dfa, rfl, hmeets⟩
    · rintro (⟨dfa', heq, hmeets⟩ | ⟨hne, -⟩)
      · cases heq
        exact hmeets
      · exact absurd rfl (hne dfa)
  | lalr lalr =>
    have hne : ∀ dfa, PreparedBackend.lalr lalr ≠ .dfa dfa := fun _ h => nomatch h
    rw [refuses_structural hlimits hne]
    exact ⟨fun hclean => .inr ⟨hne, hclean⟩, fun h => h.elim (fun ⟨dfa, heq, _⟩ => nomatch heq)
      And.right⟩
  | earley earley =>
    have hne : ∀ dfa, PreparedBackend.earley earley ≠ .dfa dfa := fun _ h => nomatch h
    rw [refuses_structural hlimits hne]
    exact ⟨fun hclean => .inr ⟨hne, hclean⟩, fun h => h.elim (fun ⟨dfa, heq, _⟩ => nomatch heq)
      And.right⟩

/-- In a state of an index a token other than the end of the sequence is enabled only if tokens
lead to live states. -/
theorem live_of_enables {index : Index} (hlive : dfa.LiveExact) (hids : vocabulary.IdsInRange)
    (hindex : Index.fromCertifiedDfa dfa vocabulary = .ok index) {state t : ℕ}
    (ht : t ≠ vocabulary.eosTokenId) (hmem : t ∈ (index.allowedTokens state).getD []) :
    dfa.isLive CompiledByteDfa.startState = true := by
  obtain ⟨hproj, -⟩ := Result.wp_ok (fromCertifiedDfa_wp hlive hids) hindex
  have hallows : index.Allows state t := by
    cases hrow : index.allowedTokens state with
    | none =>
      rw [hrow] at hmem
      exact absurd hmem List.not_mem_nil
    | some row =>
      rw [hrow] at hmem
      exact ⟨row, hrow, hmem⟩
  obtain ⟨x, hx⟩ := Index.allows_iff.1 hallows
  obtain ⟨c, w, hw, -, ⟨entry, -, -, s', htakes, -⟩ | ⟨heos, -⟩⟩ := (hproj.rows state t x).1 hx
  · by_contra hnot
    rw [Bool.not_eq_true] at hnot
    obtain rfl := reached_of_start hlive hnot hw
    exact not_takes_of_start hlive hnot _ _ htakes
  · exact absurd heos ht

/-- The fresh guide over an index enables the empty token wherever the start state is live. -/
theorem enables_empty {index : Index} {compiled : CompiledSchema} {g : Guide}
    (hlive : dfa.LiveExact)
    (hids : vocabulary.IdsInRange) (hindex : Index.fromCertifiedDfa dfa vocabulary = .ok index)
    (hstart : dfa.isLive CompiledByteDfa.startState = true)
    (hbackend : compiled.backend = .dfa index)
    (hguide : Guide.fromCompiled compiled 0 .default 0 = .ok g) {t : ℕ}
    (ht : t ∈ vocabulary.ids []) : g.Enables t := by
  have hstarted := (Guide.Fresh.fromCompiled hguide).started
  obtain ⟨hproj, hinitial, -⟩ := Result.wp_ok (fromCertifiedDfa_wp hlive hids) hindex
  have hg := hguide
  obtain ⟨-, -, hg⟩ := Result.bind_eq_ok.1 hg
  rw [hbackend] at hg
  obtain rfl := Result.pure_eq_ok.1 hg
  have hlen : (index.vocabSize + 31) / 32 ≤
      (List.replicate ((index.vocabSize + 31) / 32) 0 : List ℕ).length := by simp
  obtain ⟨mask, hmask, hbits⟩ := Guide.freshMask_dfa rfl hstarted.fits rfl hlen
  refine ⟨_, mask, (Guide.valueOf_fillMask hstarted.mask _).trans hmask, (hbits t).2 ?_⟩
  have hrow : target index.transitions index.initialState t = some CompiledByteDfa.startState := by
    rw [hinitial]
    exact (hproj.row_iff (.start rfl)).2 (.inl ⟨[], ht, rfl, hstart⟩)
  obtain ⟨row, hmem, hrow⟩ := Index.allows_iff.2 ⟨_, hrow⟩
  rw [Option.mem_def.1 hmem]
  exact hrow

/-- The masks of the guides, given that the projection notices what is wrong. -/
theorem notMem_ids_nil_of_enables (hlive : ∀ dfa, prepared.dfa = some dfa → dfa.LiveExact)
    (hids : vocabulary.IdsInRange)
    (hnotices : vocabulary.Clean ∨ ∀ dfa, prepared.dfa = some dfa →
      Notices vocabulary limits prepared dfa)
    {compiled : CompiledSchema} {maxRollback generation : ℕ} {runtimeLimits : RuntimeLimits}
    {g : Guide} {ops : List GuideOp} {token : ℕ}
    (hcompiled : CompiledSchema.compileWithPolicy prepared vocabulary limits policy = .ok compiled)
    (hguide : Guide.fromCompiled compiled maxRollback runtimeLimits generation = .ok g)
    (htoken : token ≠ vocabulary.eosTokenId) (henables : (g.after ops).Enables token) :
    token ∉ vocabulary.ids [] := by
  rcases hnotices with hclean | hnotices
  · exact hclean.notMem_ids_nil token
  obtain ⟨backend, hbackend, hmade⟩ := compileWithPolicy_eq_ok hcompiled
  have hstarted := (Guide.Fresh.fromCompiled hguide).started
  have hreplayed := hstarted.replayed.after hstarted ops
  cases CompiledSchema.ofPrepared_eq_ok hmade with
  | structural _ _ hbuild _ =>
    have hclean := Result.wp_ok (DerivedVocabulary.build_wp vocabulary limits) hbuild
    exact Vocabulary.Clean.notMem_ids_nil hclean token
  | @dfa dfa index hprepared hindex hindexed =>
    subst hprepared
    have hdfa := dfa_of_backend hbackend
    obtain ⟨destination, mask, hmask, hbit⟩ := henables
    -- the guide is still one over the index
    have hruntime : ∃ state, (g.after ops).runtime = .dfa index state := by
      obtain ⟨-, -, hg⟩ := Result.bind_eq_ok.1 hguide
      rw [hindexed] at hg
      obtain rfl := Result.pure_eq_ok.1 hg
      have hext := (hreplayed.runtime_extends hstarted).2
      generalize (Guide.after _ ops).runtime = runtime at hext
      cases hext
      exact ⟨_, rfl⟩
    obtain ⟨state, hstate⟩ := hruntime
    have hsound := hreplayed.sound hstarted
    rw [Guide.valueOf_fillMask hsound.mask] at hmask
    have hlen : (g.after ops).maskWords ≤ destination.length := by
      by_contra hlen
      rw [Guide.freshMask_of_lt hlen] at hmask
      cases hmask
    by_cases hfinished : (g.after ops).finished = true
    · rw [Guide.freshMask_of_finished hfinished hmask] at hbit
      exact absurd hbit bitSet_replicate
    obtain ⟨mask', hmask', hbits⟩ := Guide.freshMask_dfa hstate hsound.fits
      ((Bool.not_eq_true _).mp hfinished) hlen
    obtain rfl := Except.ok.inj (hmask'.symm.trans hmask)
    have hstart := live_of_enables (hlive dfa hdfa) hids hindex htoken ((hbits token).1 hbit)
    have hprojectable := (fromCertifiedDfa_isOk_iff (hlive dfa hdfa) hids).1 ⟨index, hindex⟩ hstart
    exact (hnotices dfa hdfa).empty hstart hprojectable token

/-- **Where the backends validate vocabularies alike.**  They agree, and no guide enables a token
that consumes no byte, exactly if the vocabulary is clean or the projection, if there is an
automaton, notices what is wrong. -/
theorem validates_alike_iff (prepared : PreparedGrammar) (vocabulary : Vocabulary)
    (limits : CompileLimits) (hlive : ∀ dfa, prepared.dfa = some dfa → dfa.LiveExact)
    (hids : vocabulary.IdsInRange) (hlimits : WithinLimits vocabulary limits) :
    ValidatesAlike vocabulary limits prepared ↔
      vocabulary.Clean ∨ ∀ dfa, prepared.dfa = some dfa →
        Notices vocabulary limits prepared dfa := by
  constructor
  · intro h
    by_cases hclean : vocabulary.Clean
    · exact .inl hclean
    refine .inr fun dfa hdfa => ⟨?_, fun hstart hprojectable t ht => ?_⟩
    -- a parser refuses the vocabulary, and so then does the automaton: it meets the fault
    · rintro ⟨policy, backend, hbackend, hne⟩
      have hrefuses := (refuses_iff hlive hids hlimits hbackend).2 (.inr ⟨hne, hclean⟩)
      have hauto := (h.refuses _ _ _ _ hbackend (backend_auto hdfa)).1 hrefuses
      rcases (refuses_iff hlive hids hlimits (backend_auto hdfa)).1 hauto with
        ⟨dfa', heq, hmeets⟩ | ⟨hne', -⟩
      · cases heq
        exact hmeets
      · exact absurd rfl (hne' dfa)
    -- an empty token on a row of the start state would enable an advance without progress
    · obtain ⟨index, hindex⟩ := (fromCertifiedDfa_isOk_iff (hlive dfa hdfa) hids).2 fun _ =>
        hprojectable
      obtain ⟨compiled, hcompiled, hbackend⟩ : ∃ compiled,
          CompiledSchema.compileWithPolicy prepared vocabulary limits .auto = .ok compiled ∧
            compiled.backend = .dfa index := by
        rw [compileWithPolicy_eq (backend_auto hdfa)]
        exact ⟨_, Result.bind_eq_ok.2 ⟨index, hindex, rfl⟩, rfl⟩
      obtain ⟨g, hguide⟩ : ∃ g, Guide.fromCompiled compiled 0 .default 0 = .ok g := by
        unfold Guide.fromCompiled
        rw [hbackend]
        exact ⟨_, rfl⟩
      have henables := enables_empty (hlive dfa hdfa) hids hindex hstart hbackend hguide ht
      have heos : t ≠ vocabulary.eosTokenId := fun heq => vocabulary.eos_notMem_ids [] (heq ▸ ht)
      exact h.progress .auto compiled 0 .default 0 g [] t hcompiled hguide heos henables ht
  · intro h
    refine ⟨fun policy policy' backend backend' hb hb' => ?_, fun policy compiled maxRollback
      runtimeLimits generation g ops token hcompiled hguide htoken henables =>
        notMem_ids_nil_of_enables hlive hids h hcompiled hguide htoken henables⟩
    rw [refuses_iff hlive hids hlimits hb, refuses_iff hlive hids hlimits hb']
    by_cases hclean : vocabulary.Clean
    · exact iff_of_false (fun h => h.not_clean hclean) fun h => h.not_clean hclean
    by_cases hparser : HasParser limits prepared
    · -- the automaton finds out what a parser would
      have hall : ∀ policy backend, prepared.backend limits policy = .ok backend →
          FindsFault vocabulary backend := by
        intro policy backend hb
        by_cases hdfa : ∃ dfa, backend = .dfa dfa
        · obtain ⟨dfa, rfl⟩ := hdfa
          have hnotices := h.resolve_left hclean dfa (dfa_of_backend hb)
          exact .inl ⟨dfa, rfl, hnotices.ambiguous hparser⟩
        · exact .inr ⟨fun dfa heq => hdfa ⟨dfa, heq⟩, hclean⟩
      exact iff_of_true (hall _ _ hb) (hall _ _ hb')
    · -- every policy that succeeds gives the automaton
      have hdfa : ∀ policy backend, prepared.backend limits policy = .ok backend →
          ∃ dfa, backend = .dfa dfa ∧ prepared.dfa = some dfa := by
        intro policy backend hb
        by_contra hnone
        refine hparser ⟨policy, backend, hb, fun dfa heq => hnone ⟨dfa, heq, ?_⟩⟩
        exact dfa_of_backend (heq ▸ hb)
      obtain ⟨dfa, rfl, hd⟩ := hdfa _ _ hb
      obtain ⟨dfa', rfl, hd'⟩ := hdfa _ _ hb'
      obtain rfl := Option.some.inj (hd.symm.trans hd')
      exact Iff.rfl

end Refusal

/-! ### The backends of `{"const": 1}` -/

theorem oneDfa_liveExact : oneDfa.LiveExact := by
  have h : ∀ state < oneDfa.stateCount, oneDfa.isLive state = true ∧
      oneDfa.acceptsFrom state (([49] : List UInt8).drop state) = true := by decide
  exact fun state hstate => iff_of_true (h state hstate).1 ⟨_, (h state hstate).2⟩

/-- The residual grammar whose only terminal is the automaton of `1`. -/
def oneResidual : ResidualGrammar where
  start := 0
  nonterminals := [{ id := 0, original := 0, name := "root", provenance := .root }]
  terminals := [.dfa oneDfa]
  terminalProvenance := [.root]
  productions := [{ id := 0, original := 0, lhs := 0, rhs := [.terminal 0], provenance := .root }]
  productionsByLhs := [[0]]
  nullable := [false]
  productiveSuffixes := [[true, true]]
  collapsedNonterminals := 1
  collapsedRegions := 1
  terminalDfaStates := 2
  terminalDfaBytes := 0

/-- What is prepared for the document `{"const": 1}`. -/
def onePrepared : PreparedGrammar where
  location := Provenance.root.location
  dfa := some oneDfa
  residual := .ok oneResidual

/-- The tokens `1` and the empty byte string. -/
def emptyTokenVocabulary : Vocabulary where
  eosTokenId := 2
  tokens := ⟨[⟨[49], [0]⟩, ⟨[], [1]⟩], (by decide : [[(49 : UInt8)], []].Nodup)⟩
  eos_notMem := by decide
  nodup_ids := by decide

theorem build_emptyTokenVocabulary :
    DerivedVocabulary.build emptyTokenVocabulary .default = .error .emptyTokenDisallowed := by
  decide +kernel

theorem emptyTokenVocabulary_idsInRange : emptyTokenVocabulary.IdsInRange := by
  unfold Vocabulary.IdsInRange
  decide

theorem onePrepared_liveExact : ∀ dfa, onePrepared.dfa = some dfa → dfa.LiveExact := by
  intro dfa hdfa
  obtain rfl := Option.some.inj hdfa
  exact oneDfa_liveExact

theorem emptyTokenVocabulary_withinLimits : WithinLimits emptyTokenVocabulary .default := by
  intro e he
  obtain rfl := Except.error.inj (build_emptyTokenVocabulary.symm.trans he)
  exact id

theorem validates_alike_iff_onePrepared : ValidatesAlike emptyTokenVocabulary .default onePrepared ↔
    emptyTokenVocabulary.Clean ∨ ∀ dfa, onePrepared.dfa = some dfa →
      Notices emptyTokenVocabulary .default onePrepared dfa :=
  validates_alike_iff onePrepared emptyTokenVocabulary .default onePrepared_liveExact
    emptyTokenVocabulary_idsInRange emptyTokenVocabulary_withinLimits

/-- The parser refuses the empty token, the automaton accepts it. -/
theorem validates_differently : ¬∀ (prepared : PreparedGrammar) (vocabulary : Vocabulary)
    (limits : CompileLimits), (∀ dfa, prepared.dfa = some dfa → dfa.LiveExact) →
      vocabulary.IdsInRange → WithinLimits vocabulary limits →
        ValidatesAlike vocabulary limits prepared := by
  intro h
  have halike := h onePrepared emptyTokenVocabulary .default onePrepared_liveExact
    emptyTokenVocabulary_idsInRange emptyTokenVocabulary_withinLimits
  obtain ⟨earley, hearley⟩ : ∃ earley,
      onePrepared.backend .default .forceEarley = .ok (.earley earley) := ⟨_, rfl⟩
  have hne : ∀ dfa, PreparedBackend.earley earley ≠ .dfa dfa := fun _ h => nomatch h
  have hrefuses : Refuses
      (CompiledSchema.compileWithPolicy onePrepared emptyTokenVocabulary .default
        .forceEarley) := by
    rw [compileWithPolicy_eq hearley, refuses_structural emptyTokenVocabulary_withinLimits hne]
    exact fun hclean => hclean.ne_nil ⟨[], [1]⟩ (by decide) rfl
  have hauto : onePrepared.backend .default .auto = .ok (.dfa oneDfa) := rfl
  obtain ⟨compiled, hcompiled⟩ : ∃ compiled, CompiledSchema.compileWithPolicy onePrepared
      emptyTokenVocabulary .default .auto = .ok compiled := ⟨_, rfl⟩
  rcases (halike.refuses _ _ _ _ hearley hauto).1 hrefuses with heq | ⟨t, heq⟩
  · cases heq.symm.trans hcompiled
  · cases heq.symm.trans hcompiled

end OcEarley

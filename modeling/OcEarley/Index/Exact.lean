import OcEarley.Index.Project

/-!
# What an index holds

A state is reached when tokens lead to it from the start through live states.  The projection
visits the states reached and no others (`projectByteDfa_wp`), fails only where a token id is
ambiguous or no token goes on, and its rows say where the token ids lead.
-/

namespace OcEarley

/-! ### Rows -/

namespace Index

variable {index : Index}

theorem nextState_eq {s t : ℕ} (ht : t ≠ index.eosTokenId) :
    index.nextState s t = target index.transitions s t := by
  rw [nextState, if_neg ht, target]

/-- The token id is in the row of the state. -/
def Allows (index : Index) (s t : ℕ) : Prop := ∃ row ∈ index.allowedTokens s, t ∈ row

theorem allows_iff {s t : ℕ} : index.Allows s t ↔ ∃ x, target index.transitions s t = some x := by
  unfold Allows allowedTokens target
  cases index.transitions.lookup s with
  | none => simp
  | some row =>
    simp only [Option.map_some, Option.mem_some_iff, exists_eq_left', Option.bind_some]
    rw [← AList.mem_keys, ← AList.lookup_isSome, Option.isSome_iff_exists]

end Index

namespace ByteDfa

/-- Entering the token ids of a token: the row grows by them, unless one of them leads elsewhere. -/
theorem addTransitions_wp (state next : ℕ) (ids : List ℕ) (rows : TransitionRows) :
    Result.wp (fun e => ∃ t ∈ ids, e = .ambiguousTokenId t ∧
        ∃ x, target rows state t = some x ∧ x ≠ next)
      (ids.foldlM (addTransition state next) rows) fun rows' =>
        ∀ s t x, target rows' s t = some x ↔
          target rows s t = some x ∨ s = state ∧ t ∈ ids ∧ x = next := by
  have h := Result.wp_foldlM (f := addTransition state next)
    (E := fun e => ∃ t ∈ ids, e = .ambiguousTokenId t ∧
      ∃ x, target rows state t = some x ∧ x ≠ next)
    (I := fun done rest rows' => done ++ rest = ids ∧ ∀ s t x, target rows' s t = some x ↔
      target rows s t = some x ∨ s = state ∧ t ∈ done ∧ x = next)
    (fun done t rest rows' hI => ?_) [] ids rows ⟨rfl, by simp⟩
  · exact Result.wp_mono h fun rows' hI => hI.2
  · obtain ⟨hids, hrows⟩ := hI
    have hmem : t ∈ ids := hids ▸ by simp
    unfold addTransition
    rw [Result.wp_bind, Result.wp_require]
    have hrow : ∀ x, ((rows'.lookup state).getD ∅).lookup t = some x ↔
        target rows' state t = some x := by
      intro x
      unfold target
      cases rows'.lookup state <;> simp
    refine ⟨fun hsame => ⟨by simp [hids], fun s t' x => ?_⟩, fun hother => ?_⟩
    · rw [target_insert]
      by_cases hst : s = state ∧ t' = t
      · obtain ⟨rfl, rfl⟩ := hst
        rw [if_pos ⟨rfl, rfl⟩]
        constructor
        · rintro ⟨⟩
          exact .inr ⟨rfl, by simp, rfl⟩
        · rintro (hx | ⟨-, -, rfl⟩)
          · rw [hsame x ((hrow x).2 ((hrows s t' x).2 (.inl hx)))]
          · rfl
      · rw [if_neg hst, hrows, List.mem_append, List.mem_singleton]
        refine or_congr_right (and_congr_right fun hs => and_congr_left fun _ => ?_)
        exact ⟨.inl, fun h => h.resolve_right fun ht => hst ⟨hs, ht⟩⟩
    · push Not at hother
      obtain ⟨x, hx, hne⟩ := hother
      refine ⟨t, hmem, rfl, x, ?_, hne⟩
      exact ((hrows state t x).1 ((hrow x).1 hx)).resolve_right fun h => hne h.2.2

/-! ### States reached -/

section Reached

variable {σ : Type} (dfa : ByteDfa σ)

/-- The token leads from `s` to the live state `s'`. -/
def Takes (s : σ) (token : List UInt8) (s' : σ) : Prop :=
  dfa.followToken s token = some s' ∧ dfa.isLive s' = true

variable {dfa} in
theorem Takes.unique {s s₁ s₂ : σ} {token : List UInt8} (h₁ : dfa.Takes s token s₁)
    (h₂ : dfa.Takes s token s₂) : s₁ = s₂ :=
  Option.some.inj (h₁.1.symm.trans h₂.1)

/-- The state is reached from the start by tokens through live states, which together are `w`. -/
inductive Reached (vocabulary : Vocabulary) : σ → List UInt8 → Prop
  | start {s : σ} : dfa.startState = some s → Reached vocabulary s []
  | step {s s' : σ} {w : List UInt8} {entry : Σ _ : List UInt8, List ℕ} :
      Reached vocabulary s w → entry ∈ vocabulary.tokens.entries → dfa.Takes s entry.1 s' →
      Reached vocabulary s' (w ++ entry.1)

/-- Two byte strings of the token id lead to different live states. -/
def AmbiguousAt (vocabulary : Vocabulary) (s : σ) (tokenId : ℕ) : Prop :=
  ∃ entry ∈ vocabulary.tokens.entries, ∃ entry' ∈ vocabulary.tokens.entries,
    tokenId ∈ entry.2 ∧ tokenId ∈ entry'.2 ∧ ∃ s₁ s₂, dfa.Takes s entry.1 s₁ ∧
      dfa.Takes s entry'.1 s₂ ∧ s₁ ≠ s₂

/-- The state is not accepting, and no token leads from it to a live state. -/
def StuckAt (vocabulary : Vocabulary) (s : σ) : Prop :=
  dfa.isAccepting s = false ∧
    ∀ entry ∈ vocabulary.tokens.entries, ∀ s', ¬dfa.Takes s entry.1 s'

/-- What is wrong with a state that the projection fails at. -/
def FailsAt (vocabulary : Vocabulary) (policy : ProjectionPolicy) (s : σ) (e : Error) : Prop :=
  (∃ t, e = .ambiguousTokenId t ∧ dfa.AmbiguousAt vocabulary s t) ∨
    e = .incompatibleVocabulary policy.label (dfa.stableStateId s) (dfa.missingTokens policy s) ∧
      dfa.StuckAt vocabulary s

/-- The errors of the projection and what they mean. -/
def ProjectionFailure (vocabulary : Vocabulary) (policy : ProjectionPolicy) (e : Error) : Prop :=
  ∃ s w, dfa.Reached vocabulary s w ∧
    ((∃ t, e = .ambiguousTokenId t ∧ dfa.AmbiguousAt vocabulary s t) ∨
      e = .incompatibleVocabulary policy.label (dfa.stableStateId s) (dfa.missingTokens policy s) ∧
        dfa.StuckAt vocabulary s)

variable {dfa} in
theorem FailsAt.failure {vocabulary : Vocabulary} {policy : ProjectionPolicy} {s : σ} {e : Error}
    {w : List UInt8} (h : dfa.FailsAt vocabulary policy s e) (hs : dfa.Reached vocabulary s w) :
    dfa.ProjectionFailure vocabulary policy e := ⟨s, w, hs, h⟩

variable [DecidableEq σ]

/-- The live state that a token leads to, unless it has been seen. -/
def freshTarget (seen : List σ) (s : σ) (token : List UInt8) : List σ :=
  match dfa.followToken s token with
  | some next => if dfa.isLive next ∧ next ∉ seen then [next] else []
  | none => []

/-- The live states that the tokens lead to one after the other, less those that have been seen. -/
def freshTargets (s : σ) : List σ → List (Σ _ : List UInt8, List ℕ) → List σ
  | _, [] => []
  | seen, entry :: entries =>
    dfa.freshTarget seen s entry.1 ++
      freshTargets s (seen ++ dfa.freshTarget seen s entry.1) entries

variable {dfa} in
theorem freshTargets_snoc {s : σ} {seen : List σ} {entries : List (Σ _ : List UInt8, List ℕ)}
    {entry : Σ _ : List UInt8, List ℕ} : dfa.freshTargets s seen (entries ++ [entry]) =
      dfa.freshTargets s seen entries ++
        dfa.freshTarget (seen ++ dfa.freshTargets s seen entries) s entry.1 := by
  induction entries generalizing seen with
  | nil => simp [freshTargets]
  | cons e entries ih =>
    rw [List.cons_append, freshTargets, freshTargets, ih, List.append_assoc, List.append_assoc]

end Reached

/-! ### The loops -/

section Loops

variable {σ : Type} [DecidableEq σ] {dfa : ByteDfa σ}

variable (dfa) in
/-- `popped` are the states taken off the stack, and `D` the states and the entries of the
vocabulary that were followed from them. -/
structure Projection.Invariant (vocabulary : Vocabulary) (popped : List σ)
    (D : σ → (Σ _ : List UInt8, List ℕ) → Prop) (p : Projection σ) : Prop where
  perm : p.seen.Perm (popped ++ p.nextStates)
  nodup : p.seen.Nodup
  start : ∀ s, dfa.startState = some s → s ∈ p.seen
  reached : ∀ s ∈ p.seen, ∃ w, dfa.Reached vocabulary s w
  closed : ∀ c entry s', D c entry → dfa.Takes c entry.1 s' → s' ∈ p.seen
  rows : ∀ s t x, target p.transitions s t = some x ↔ ∃ c entry s', D c entry ∧
    dfa.stableStateId c = s ∧ t ∈ entry.2 ∧ dfa.Takes c entry.1 s' ∧ dfa.stableStateId s' = x
  cache : ∀ s live, p.liveCache.lookup s = some live → live = dfa.isLive s
  finals : ∀ x, x ∈ p.finalStates ↔
    ∃ c ∈ popped, dfa.isAccepting c = true ∧ dfa.stableStateId c = x

theorem Projection.Invariant.init {vocabulary : Vocabulary} {s₀ : σ}
    (hs : dfa.startState = some s₀) :
    Projection.Invariant dfa vocabulary []
      (fun s e => s ∈ ([] : List σ) ∧ e ∈ vocabulary.tokens.entries)
      ⟨∅, [], [s₀], [s₀], ∅⟩ where
  perm := List.Perm.refl _
  nodup := List.nodup_singleton s₀
  start s h := List.mem_singleton.2 (Option.some.inj (h.symm.trans hs))
  reached s h := ⟨[], List.mem_singleton.1 h ▸ .start hs⟩
  closed _ _ _ hD := absurd hD.1 List.not_mem_nil
  rows := by simp
  cache := by simp
  finals := by simp

theorem cachedLive_spec {liveCache : AList fun _ : σ => Bool}
    (hcache : ∀ s live, liveCache.lookup s = some live → live = dfa.isLive s) (state : σ) :
    (dfa.cachedLive liveCache state).1 = dfa.isLive state ∧
      ∀ s live, (dfa.cachedLive liveCache state).2.lookup s = some live → live = dfa.isLive s := by
  unfold cachedLive
  cases hlookup : liveCache.lookup state with
  | some live => exact ⟨hcache state live hlookup, hcache⟩
  | none =>
    refine ⟨rfl, fun s live h => ?_⟩
    by_cases hs : s = state
    · subst hs
      rw [AList.lookup_insert] at h
      exact (Option.some.inj h).symm
    · rw [AList.lookup_insert_ne hs] at h
      exact hcache s live h

variable {vocabulary : Vocabulary} {popped : List σ}
  {D : σ → (Σ _ : List UInt8, List ℕ) → Prop} {p : Projection σ}

/-- A token that leads to no live state changes nothing but the cache. -/
theorem Projection.Invariant.not_takes (h : p.Invariant dfa vocabulary popped D)
    {c : σ} {entry : Σ _ : List UInt8, List ℕ} (hnot : ∀ s', ¬dfa.Takes c entry.1 s')
    {liveCache : AList fun _ : σ => Bool}
    (hcache : ∀ s live, liveCache.lookup s = some live → live = dfa.isLive s) :
    Projection.Invariant dfa vocabulary popped (fun s e => D s e ∨ s = c ∧ e = entry)
      { p with liveCache } where
  perm := h.perm
  nodup := h.nodup
  start := h.start
  reached := h.reached
  closed := by
    rintro s e s' (hD | ⟨rfl, rfl⟩) htakes
    · exact h.closed s e s' hD htakes
    · exact absurd htakes (hnot s')
  rows := by
    intro s t x
    rw [h.rows]
    refine exists_congr fun s => exists_congr fun e => exists_congr fun s' => ?_
    refine ⟨fun ⟨hD, hrest⟩ => ⟨.inl hD, hrest⟩, fun ⟨hD, hs, ht, htakes, hx⟩ => ?_⟩
    rcases hD with hD | ⟨rfl, rfl⟩
    · exact ⟨hD, hs, ht, htakes, hx⟩
    · exact absurd htakes (hnot s')
  cache := hcache
  finals := h.finals

/-- A token that leads to a live state, once its row is entered and its target is pushed. -/
theorem Projection.Invariant.takes (h : p.Invariant dfa vocabulary popped D)
    {c next : σ} {entry : Σ _ : List UInt8, List ℕ} (hc : c ∈ p.seen)
    (hentry : entry ∈ vocabulary.tokens.entries) (htakes : dfa.Takes c entry.1 next)
    {rows : TransitionRows} (hrows : ∀ s t x, target rows s t = some x ↔
      target p.transitions s t = some x ∨
        s = dfa.stableStateId c ∧ t ∈ entry.2 ∧ x = dfa.stableStateId next)
    {liveCache : AList fun _ : σ => Bool}
    (hcache : ∀ s live, liveCache.lookup s = some live → live = dfa.isLive s)
    {seen nextStates : List σ} (hseen : ∀ s, s ∈ seen ↔ s ∈ p.seen ∨ s = next)
    (hnodup : seen.Nodup) (hperm : seen.Perm (popped ++ nextStates)) :
    Projection.Invariant dfa vocabulary popped (fun s e => D s e ∨ s = c ∧ e = entry)
      { p with transitions := rows, liveCache, seen, nextStates } where
  perm := hperm
  nodup := hnodup
  start s hs := (hseen s).2 (.inl (h.start s hs))
  reached := by
    intro s hs
    rcases (hseen s).1 hs with hs | rfl
    · exact h.reached s hs
    · obtain ⟨w, hw⟩ := h.reached c hc
      exact ⟨_, hw.step hentry htakes⟩
  closed := by
    rintro s e s' (hD | ⟨rfl, rfl⟩) htakes'
    · exact (hseen s').2 (.inl (h.closed s e s' hD htakes'))
    · exact (hseen s').2 (.inr (htakes'.unique htakes))
  rows := by
    intro s t x
    rw [hrows, h.rows]
    constructor
    · rintro (⟨c', e, s', hD, hrest⟩ | ⟨rfl, ht, rfl⟩)
      · exact ⟨c', e, s', .inl hD, hrest⟩
      · exact ⟨c, entry, next, .inr ⟨rfl, rfl⟩, rfl, ht, htakes, rfl⟩
    · rintro ⟨c', e, s', hD | ⟨rfl, rfl⟩, hs, ht, htakes', hx⟩
      · exact .inl ⟨c', e, s', hD, hs, ht, htakes', hx⟩
      · exact .inr ⟨hs.symm, ht, by rw [← hx, htakes'.unique htakes]⟩
  cache := hcache
  finals := h.finals

theorem projectToken_wp (hinj : Function.Injective dfa.stableStateId)
    (h : p.Invariant dfa vocabulary popped D) {policy : ProjectionPolicy} {c : σ} {flag : Bool}
    {entry : Σ _ : List UInt8, List ℕ} (hc : c ∈ p.seen)
    (hentry : entry ∈ vocabulary.tokens.entries)
    (hD : ∀ e, D c e → e ∈ vocabulary.tokens.entries) :
    Result.wp (dfa.FailsAt vocabulary policy c) (dfa.projectToken c (p, flag) entry)
      fun acc => acc.1.Invariant dfa vocabulary popped (fun s e => D s e ∨ s = c ∧ e = entry) ∧
        acc.1.seen = p.seen ++ dfa.freshTarget p.seen c entry.1 ∧
          acc.1.nextStates = p.nextStates ++ dfa.freshTarget p.seen c entry.1 ∧
            (acc.2 = true ↔ flag = true ∨ ∃ s', dfa.Takes c entry.1 s') := by
  unfold projectToken freshTarget
  cases hfollow : dfa.followToken c entry.1 with
  | none =>
    have hnot : ∀ s', ¬dfa.Takes c entry.1 s' := fun s' ht => by
      rw [Takes, hfollow] at ht
      cases ht.1
    exact ⟨h.not_takes hnot h.cache, (List.append_nil _).symm, (List.append_nil _).symm,
      by simp [hnot]⟩
  | some next =>
    obtain ⟨hlive, hcache⟩ := cachedLive_spec h.cache next
    dsimp only
    rw [hlive]
    split
    · next hnext =>
      have htakes : dfa.Takes c entry.1 next := ⟨hfollow, hnext⟩
      have hflag : true = true ↔ flag = true ∨ ∃ s', dfa.Takes c entry.1 s' :=
        iff_of_true rfl (.inr ⟨next, htakes⟩)
      rw [Result.wp_bind]
      have hids := addTransitions_wp (dfa.stableStateId c) (dfa.stableStateId next) entry.2
        p.transitions
      cases hrun : entry.2.foldlM
        (addTransition (dfa.stableStateId c) (dfa.stableStateId next)) p.transitions with
      | error e =>
        -- The id has led to another state before.
        obtain ⟨t, ht, rfl, x, hx, hne⟩ := Result.wp_error hids hrun
        obtain ⟨c', e', s', hD', hc', ht', htakes', rfl⟩ := (h.rows _ t x).1 hx
        obtain rfl := hinj hc'
        exact .inl ⟨t, rfl, e', hD e' hD', entry, hentry, ht', ht, s', next, htakes',
          htakes, fun heq => hne (heq ▸ rfl)⟩
      | ok rows =>
        have hrows := Result.wp_ok hids hrun
        change Result.wp _ (if next ∈ p.seen then _ else _) _
        split
        · next hmem =>
          have hnil : (if dfa.isLive next = true ∧ next ∉ p.seen then [next] else []) = [] :=
            if_neg fun h => h.2 hmem
          rw [hnil]
          exact ⟨h.takes hc hentry htakes hrows hcache
            (fun s => ⟨.inl, fun hs => hs.elim id fun hs => hs ▸ hmem⟩) h.nodup h.perm,
            (List.append_nil _).symm, (List.append_nil _).symm, hflag⟩
        · next hmem =>
          rw [if_pos ⟨hnext, hmem⟩]
          refine ⟨h.takes hc hentry htakes hrows hcache (fun s => by simp) ?_ ?_, rfl, rfl, hflag⟩
          · exact h.nodup.append (List.nodup_singleton _) (by simpa using hmem)
          · rw [← List.append_assoc]
            exact h.perm.append_right _
    · next hnext =>
      have hnot : ∀ s', ¬dfa.Takes c entry.1 s' := fun s' ht =>
        hnext (Option.some.inj (hfollow.symm.trans ht.1) ▸ ht.2)
      rw [if_neg fun h => hnext h.1]
      exact ⟨h.not_takes hnot hcache, (List.append_nil _).symm, (List.append_nil _).symm,
        by simp [hnot]⟩

theorem mem_insertNew {states : List ℕ} {state x : ℕ} :
    x ∈ insertNew states state ↔ x ∈ states ∨ x = state := by
  unfold insertNew
  split
  · next h => exact ⟨.inl, fun hx => hx.elim id fun hx => hx ▸ h⟩
  · simp

/-- The state is popped, and its final flag is entered. -/
theorem Projection.Invariant.pop (h : p.Invariant dfa vocabulary popped D) {c : σ}
    {nextStates : List σ} (hnext : p.nextStates = nextStates ++ [c]) :
    Projection.Invariant dfa vocabulary (popped ++ [c]) D { p with
      nextStates
      finalStates := if dfa.isAccepting c then insertNew p.finalStates (dfa.stableStateId c)
        else p.finalStates } where
  perm := by
    refine h.perm.trans ?_
    rw [hnext, List.append_assoc]
    exact (List.perm_append_comm).append_left _
  nodup := h.nodup
  start := h.start
  reached := h.reached
  closed := h.closed
  rows := h.rows
  cache := h.cache
  finals := by
    intro x
    simp only [List.mem_append, List.mem_singleton, or_and_right, exists_or, exists_eq_left,
      ← h.finals]
    split
    · next hc => rw [mem_insertNew, hc, eq_comm (a := x)]; simp
    · next hc => simp [hc]

/-- In a state whose rows were entered, a token id leads to one state only. -/
theorem Projection.Invariant.not_ambiguous (hinj : Function.Injective dfa.stableStateId)
    (h : p.Invariant dfa vocabulary popped D) {s : σ}
    (hs : ∀ entry ∈ vocabulary.tokens.entries, D s entry) (t : ℕ) :
    ¬dfa.AmbiguousAt vocabulary s t := by
  rintro ⟨entry, hentry, entry', hentry', ht, ht', s₁, s₂, h₁, h₂, hne⟩
  have hrow₁ := (h.rows _ t _).2 ⟨s, entry, s₁, hs entry hentry, rfl, ht, h₁, rfl⟩
  have hrow₂ := (h.rows _ t _).2 ⟨s, entry', s₂, hs entry' hentry', rfl, ht', h₂, rfl⟩
  exact hne (hinj (Option.some.inj (hrow₁.symm.trans hrow₂)))

theorem projectState_wp (hinj : Function.Injective dfa.stableStateId)
    {policy : ProjectionPolicy} {c : σ} {nextStates : List σ}
    (h : p.Invariant dfa vocabulary popped
      fun s e => s ∈ popped ∧ e ∈ vocabulary.tokens.entries)
    (hnext : p.nextStates = nextStates ++ [c]) :
    Result.wp (dfa.FailsAt vocabulary policy c)
      (dfa.projectState vocabulary policy { p with nextStates } c) fun p' =>
        p'.Invariant dfa vocabulary (popped ++ [c])
          (fun s e => s ∈ popped ++ [c] ∧ e ∈ vocabulary.tokens.entries) ∧
            (∀ t, ¬dfa.AmbiguousAt vocabulary c t) ∧ ¬dfa.StuckAt vocabulary c ∧
              p'.seen = p.seen ++ dfa.freshTargets c p.seen vocabulary.tokens.entries ∧
              p'.nextStates =
                nextStates ++ dfa.freshTargets c p.seen vocabulary.tokens.entries := by
  set entries := vocabulary.tokens.entries with hentries
  have hpop := h.pop hnext
  have hseen : c ∈ p.seen := h.perm.mem_iff.2 (by simp [hnext])
  unfold projectState
  set q : Projection σ := { p with
    nextStates
    finalStates := if dfa.isAccepting c then insertNew p.finalStates (dfa.stableStateId c)
      else p.finalStates } with hq
  have hstart : (if dfa.isAccepting c = true then
      { p with nextStates, finalStates := insertNew p.finalStates (dfa.stableStateId c) }
      else { p with nextStates } : Projection σ) = q := by
    rw [hq]
    split <;> rfl
  dsimp only
  rw [hstart, Result.wp_bind]
  -- the loop over the tokens: rows and flag say what is so of the tokens that are done
  have hloop := Result.wp_foldlM (E := dfa.FailsAt vocabulary policy c)
    (f := dfa.projectToken c)
    (I := fun done rest acc => done ++ rest = entries ∧ c ∈ acc.1.seen ∧
      acc.1.Invariant dfa vocabulary (popped ++ [c])
        (fun s e => s ∈ popped ∧ e ∈ entries ∨ s = c ∧ e ∈ done) ∧
      (acc.2 = true ↔ dfa.isAccepting c = true ∨ ∃ e ∈ done, ∃ s', dfa.Takes c e.1 s') ∧
      acc.1.seen = p.seen ++ dfa.freshTargets c p.seen done ∧
      acc.1.nextStates = nextStates ++ dfa.freshTargets c p.seen done)
    (fun done e rest acc hI => ?_) [] entries (q, dfa.isAccepting c)
    ⟨rfl, hseen, by simpa using hpop, by simp, (List.append_nil _).symm, (List.append_nil _).symm⟩
  · refine Result.wp_mono hloop fun acc ⟨_, _, hinv, hflag, hseen', hnext'⟩ => ?_
    rw [Result.wp_bind, Result.wp_require]
    refine ⟨fun hvalid => ⟨?_, ?_, fun hstuck => ?_, hseen', hnext'⟩, fun hvalid => ?_⟩
    -- with all tokens done, `c` is as complete as the states that were popped before
    · have hD : (fun s e => s ∈ popped ++ [c] ∧ e ∈ entries) =
          fun s e => s ∈ popped ∧ e ∈ entries ∨ s = c ∧ e ∈ entries := by
        funext s e
        simp [or_and_right]
      rw [hD]
      exact hinv
    · exact hinv.not_ambiguous hinj fun entry hentry => .inr ⟨rfl, hentry⟩
    · rw [hstuck.1, Bool.or_false] at hvalid
      obtain hacc | ⟨e, he, s', hs'⟩ := hflag.1 hvalid
      · rw [hstuck.1] at hacc
        cases hacc
      · exact hstuck.2 e he s' hs'
    · rw [Bool.not_eq_true, Bool.or_eq_false_iff] at hvalid
      refine .inr ⟨rfl, hvalid.2, fun e he s' hs' => ?_⟩
      rw [hflag.2 (.inr ⟨e, he, s', hs'⟩)] at hvalid
      cases hvalid.1
  · obtain ⟨hdone, hmem, hinv, hflag, hseen', hnext'⟩ := hI
    refine Result.wp_mono (projectToken_wp hinj hinv hmem (hentries ▸ hdone ▸ by simp)
      fun e he => ?_) fun acc' ⟨hinv', hsub, hnew, hflag'⟩ => ?_
    · rcases he with he | ⟨-, he⟩
      · exact he.2
      · exact hentries ▸ hdone ▸ List.mem_append_left _ he
    · refine ⟨by simp [hdone], hsub ▸ List.mem_append_left _ hmem, ?_, ?_, ?_, ?_⟩
      · have hD : (fun s e' => s ∈ popped ∧ e' ∈ entries ∨ s = c ∧ e' ∈ done ++ [e]) =
            fun s e' => (s ∈ popped ∧ e' ∈ entries ∨ s = c ∧ e' ∈ done) ∨ s = c ∧ e' = e := by
          funext s e'
          simp [and_or_left, or_assoc]
        rw [hD]
        exact hinv'
      · rw [hflag', hflag]
        simp [or_and_right, exists_or, or_assoc]
      · rw [hsub, hseen', freshTargets_snoc, List.append_assoc]
      · rw [hnew, hseen', hnext', freshTargets_snoc, List.append_assoc]

/-- With an empty stack every state that was seen has been popped. -/
theorem Projection.Invariant.finish
    (h : p.Invariant dfa vocabulary popped
      fun s e => s ∈ popped ∧ e ∈ vocabulary.tokens.entries)
    (hnil : p.nextStates = []) (hstuck : ∀ s ∈ popped, ¬dfa.StuckAt vocabulary s) :
    p.Invariant dfa vocabulary p.seen
        (fun s e => s ∈ p.seen ∧ e ∈ vocabulary.tokens.entries) ∧
      ∀ s ∈ p.seen, ¬dfa.StuckAt vocabulary s := by
  have hperm : p.seen.Perm popped := by simpa [hnil] using h.perm
  have hmem : ∀ s, s ∈ p.seen ↔ s ∈ popped := fun s => hperm.mem_iff
  refine ⟨?_, fun s hs => hstuck s ((hmem s).1 hs)⟩
  constructor
  · simp [hnil]
  · exact h.nodup
  · exact h.start
  · exact h.reached
  · intro c e s' hD
    exact h.closed c e s' ⟨(hmem c).1 hD.1, hD.2⟩
  · simp only [hmem]
    exact h.rows
  · exact h.cache
  · simp only [hmem]
    exact h.finals

/-- The fuel covers the states that may still be popped, all of them in `states`. -/
theorem projectStates_wp (hinj : Function.Injective dfa.stableStateId)
    (policy : ProjectionPolicy) {states : List σ}
    (hstates : ∀ s w, dfa.Reached vocabulary s w → s ∈ states) (fuel : ℕ) (popped : List σ)
    (p : Projection σ)
    (h : p.Invariant dfa vocabulary popped
      fun s e => s ∈ popped ∧ e ∈ vocabulary.tokens.entries)
    (hstuck : ∀ s ∈ popped, ¬dfa.StuckAt vocabulary s)
    (hfuel : states.length ≤ popped.length + fuel) :
    Result.wp (dfa.ProjectionFailure vocabulary policy)
      (dfa.projectStates vocabulary policy fuel p) fun p' =>
        p'.Invariant dfa vocabulary p'.seen
          (fun s e => s ∈ p'.seen ∧ e ∈ vocabulary.tokens.entries) ∧
        ∀ s ∈ p'.seen, ¬dfa.StuckAt vocabulary s := by
  induction fuel generalizing popped p with
  | zero =>
    have hsub : p.seen ⊆ states := fun s hs => by
      obtain ⟨w, hw⟩ := h.reached s hs
      exact hstates s w hw
    have hlen := (h.nodup.subperm hsub).length_le
    rw [h.perm.length_eq, List.length_append] at hlen
    have hnil : p.nextStates = [] := List.length_eq_zero_iff.1 (by omega)
    unfold projectStates
    rw [hnil]
    exact h.finish hnil hstuck
  | succ fuel ih =>
    unfold projectStates
    cases hlast : p.nextStates.getLast? with
    | none => exact h.finish (List.getLast?_eq_none_iff.1 hlast) hstuck
    | some c =>
      have hnext : p.nextStates = p.nextStates.dropLast ++ [c] :=
        (List.dropLast_append_getLast? c hlast).symm
      dsimp only
      rw [Result.wp_bind]
      obtain ⟨w, hw⟩ := h.reached c
        (h.perm.mem_iff.2 (List.mem_append_right _ (List.mem_of_getLast? hlast)))
      refine Result.wp_mono (Result.wp_weaken (projectState_wp hinj h hnext)
        fun e he => he.failure hw) ?_
      rintro p' ⟨hinv, -, hc, -⟩
      refine ih (popped ++ [c]) p' hinv (fun s hs => ?_) ?_
      · rcases List.mem_append.1 hs with hs | hs
        · exact hstuck s hs
        · exact List.mem_singleton.1 hs ▸ hc
      · rw [List.length_append, List.length_singleton]
        omega

/-- The states that were seen are the states reached. -/
theorem Projection.Invariant.mem_seen_iff
    (h : p.Invariant dfa vocabulary p.seen
      fun s e => s ∈ p.seen ∧ e ∈ vocabulary.tokens.entries) {s : σ} :
    s ∈ p.seen ↔ ∃ w, dfa.Reached vocabulary s w := by
  refine ⟨h.reached s, ?_⟩
  rintro ⟨w, hw⟩
  induction hw with
  | start hs => exact h.start _ hs
  | step _ hentry htakes ih => exact h.closed _ _ _ ⟨ih, hentry⟩ htakes

theorem target_addEosTransitions (eosTokenId : ℕ) (finalStates : List ℕ) (rows : TransitionRows)
    (s t : ℕ) : target (addEosTransitions eosTokenId finalStates rows) s t =
      if s ∈ finalStates ∧ t = eosTokenId then some s else target rows s t := by
  unfold addEosTransitions
  induction finalStates generalizing rows with
  | nil => simp
  | cons state finalStates ih =>
    rw [List.foldl_cons, ih, target_insert]
    by_cases ht : t = eosTokenId
    · by_cases hs : s = state
      · subst hs
        simp [ht]
      · simp [ht, hs]
    · simp [ht]

variable (dfa) (vocabulary) in
/-- The rows and the final states are those of the states reached. -/
structure IsProjection (index : Index) : Prop where
  eos : index.eosTokenId = vocabulary.eosTokenId
  rows : ∀ s t x, target index.transitions s t = some x ↔ ∃ c w, dfa.Reached vocabulary c w ∧
    dfa.stableStateId c = s ∧ ((∃ entry ∈ vocabulary.tokens.entries, t ∈ entry.2 ∧
      ∃ s', dfa.Takes c entry.1 s' ∧ dfa.stableStateId s' = x) ∨
        t = vocabulary.eosTokenId ∧ dfa.isAccepting c = true ∧ x = s)
  finals : ∀ s, s ∈ index.finalStates ↔
    ∃ c w, dfa.Reached vocabulary c w ∧ dfa.isAccepting c = true ∧ dfa.stableStateId c = s

theorem Projection.Invariant.isProjection
    (h : p.Invariant dfa vocabulary p.seen
      fun s e => s ∈ p.seen ∧ e ∈ vocabulary.tokens.entries) {index : Index}
    (heos : index.eosTokenId = vocabulary.eosTokenId)
    (hfinals : index.finalStates = p.finalStates.toFinset)
    (hrows : index.transitions =
      addEosTransitions vocabulary.eosTokenId p.finalStates p.transitions) :
    dfa.IsProjection vocabulary index where
  eos := heos
  rows := by
    intro s t x
    rw [hrows, target_addEosTransitions]
    split
    · next heos =>
      obtain ⟨hfinal, rfl⟩ := heos
      constructor
      · rintro ⟨⟩
        obtain ⟨c, hc, hacc, hstable⟩ := (h.finals s).1 hfinal
        obtain ⟨w, hw⟩ := h.reached c hc
        exact ⟨c, w, hw, hstable, .inr ⟨rfl, hacc, rfl⟩⟩
      · rintro ⟨c, w, hw, hstable, ⟨entry, hentry, hid, -⟩ | ⟨-, -, rfl⟩⟩
        · exact absurd hid (vocabulary.eos_notMem entry hentry)
        · rfl
    · next heos =>
      rw [h.rows]
      constructor
      · rintro ⟨c, entry, s', ⟨hc, hentry⟩, hstable, hid, htakes, rfl⟩
        obtain ⟨w, hw⟩ := h.reached c hc
        exact ⟨c, w, hw, hstable, .inl ⟨entry, hentry, hid, s', htakes, rfl⟩⟩
      · rintro ⟨c, w, hw, hstable, ⟨entry, hentry, hid, s', htakes, rfl⟩ | ⟨rfl, hacc, rfl⟩⟩
        · exact ⟨c, entry, s', ⟨h.mem_seen_iff.2 ⟨w, hw⟩, hentry⟩, hstable, hid, htakes, rfl⟩
        · exact absurd ⟨(h.finals _).2 ⟨c, h.mem_seen_iff.2 ⟨w, hw⟩, hacc, hstable⟩, rfl⟩ heos
  finals := by
    intro s
    rw [hfinals, List.mem_toFinset, h.finals]
    constructor
    · rintro ⟨c, hc, hacc, hstable⟩
      obtain ⟨w, hw⟩ := h.reached c hc
      exact ⟨c, w, hw, hacc, hstable⟩
    · rintro ⟨c, w, hw, hacc, hstable⟩
      exact ⟨c, h.mem_seen_iff.2 ⟨w, hw⟩, hacc, hstable⟩

/-- Nothing is wrong with any state that is reached. -/
def Projectable (dfa : ByteDfa σ) (vocabulary : Vocabulary) : Prop :=
  ∀ s w, dfa.Reached vocabulary s w →
    (∀ t, ¬dfa.AmbiguousAt vocabulary s t) ∧ ¬dfa.StuckAt vocabulary s

theorem vocabularyWidth_wp (hids : vocabulary.IdsInRange) {E : Error → Prop} {Q : ℕ → Prop}
    (hQ : ∀ width, Q width) : Result.wp E (vocabularyWidth vocabulary) Q := by
  have hmax : (vocabulary.tokens.entries.flatMap Sigma.snd).foldl max vocabulary.eosTokenId ≤
      u32Max := by
    have hbound : ∀ (ids : List ℕ) (m : ℕ), (∀ t ∈ ids, t ≤ u32Max) → m ≤ u32Max →
        ids.foldl max m ≤ u32Max := by
      intro ids
      induction ids with
      | nil => exact fun _ _ hm => hm
      | cons t ids ih =>
        exact fun m hids hm => ih _ (fun t' ht' => hids t' (List.mem_cons_of_mem _ ht'))
          (max_le hm (hids t List.mem_cons_self))
    refine hbound _ _ (fun t ht => ?_) hids.1
    obtain ⟨entry, hentry, ht⟩ := List.mem_flatMap.1 ht
    exact hids.2 entry hentry t ht
  unfold vocabularyWidth
  rw [Result.wp_bind, Result.wp_require]
  exact ⟨fun _ => hQ _, fun hnot => absurd (show _ + 1 ≤ usizeMax by
    unfold u32Max at hmax
    unfold usizeMax
    omega) hnot⟩

end Loops

end ByteDfa

/-! ### Certified DFAs -/

section Certified

variable {dfa : CompiledByteDfa} {vocabulary : Vocabulary}

theorem acceptsFrom_of_followToken {s s' : ℕ} {token w : List UInt8}
    (h : dfa.byteDfa.followToken s token = some s') :
    dfa.acceptsFrom s (token ++ w) = dfa.acceptsFrom s' w := by
  induction token generalizing s with
  | nil =>
    obtain rfl := Option.some.inj h
    rfl
  | cons b token ih =>
    simp only [ByteDfa.followToken] at h
    split at h
    · cases h
    · next hdead =>
      rw [List.cons_append, CompiledByteDfa.acceptsFrom]
      have hdead' : dfa.isDead (dfa.nextState s b) = false := (Bool.not_eq_true _).mp hdead
      rw [hdead']
      exact ih h

/-- A state that a token leads to exists, unless the token is empty. -/
theorem lt_of_followToken {s s' : ℕ} {token : List UInt8}
    (h : dfa.byteDfa.followToken s token = some s') : s' = s ∨ s' < dfa.stateCount := by
  induction token generalizing s with
  | nil => exact .inl (Option.some.inj h).symm
  | cons b token ih =>
    simp only [ByteDfa.followToken] at h
    split at h
    · cases h
    · next hdead =>
      have hlt : dfa.nextState s b < dfa.stateCount :=
        CompiledByteDfa.lt_of_isDead_eq_false ((Bool.not_eq_true _).mp hdead)
      exact .inr ((ih h).elim (fun heq => heq ▸ hlt) id)

theorem lt_of_reached {s : ℕ} {w : List UInt8} (h : dfa.byteDfa.Reached vocabulary s w) :
    s ∈ List.range (dfa.stateCount + 1) := by
  rw [List.mem_range]
  induction h with
  | start hs =>
    obtain rfl := Option.some.inj hs
    exact Nat.succ_pos _
  | step _ _ htakes ih =>
    exact (lt_of_followToken htakes.1).elim (fun heq => heq ▸ ih) fun h => by omega

/-- A state accepts what completes the bytes read on the way to it. -/
theorem acceptsFrom_of_reached {s : ℕ} {w : List UInt8} (h : dfa.byteDfa.Reached vocabulary s w)
    (v : List UInt8) : dfa.accepts (w ++ v) = dfa.acceptsFrom s v := by
  induction h generalizing v with
  | start hs =>
    obtain rfl := Option.some.inj hs
    rfl
  | step _ _ htakes ih => rw [List.append_assoc, ih, acceptsFrom_of_followToken htakes.1]

/-- The DFA accepts the bytes read on the way to a state exactly when the state is accepting. -/
theorem accepts_of_reached {s : ℕ} {w : List UInt8} (h : dfa.byteDfa.Reached vocabulary s w) :
    dfa.accepts w = dfa.isAccepting s := by
  have hw := acceptsFrom_of_reached h []
  rwa [List.append_nil] at hw

/-- Without a live start state there is nowhere to go. -/
theorem not_takes_of_start (hlive : dfa.LiveExact)
    (hstart : dfa.isLive CompiledByteDfa.startState = false) (token : List UInt8) (s : ℕ) :
    ¬dfa.byteDfa.Takes CompiledByteDfa.startState token s := by
  rintro ⟨hfollow, hs⟩
  rcases lt_of_followToken hfollow with rfl | hlt
  · exact Bool.noConfusion (hs.symm.trans hstart)
  · obtain ⟨w, hw⟩ := (hlive s hlt).1 hs
    have hzero : CompiledByteDfa.startState < dfa.stateCount := Nat.zero_lt_of_lt hlt
    have haccept := (acceptsFrom_of_followToken (w := w) hfollow).trans hw
    have := (hlive _ hzero).2 ⟨_, haccept⟩
    rw [hstart] at this
    cases this

theorem reached_of_start (hlive : dfa.LiveExact)
    (hstart : dfa.isLive CompiledByteDfa.startState = false) {s : ℕ} {w : List UInt8}
    (h : dfa.byteDfa.Reached vocabulary s w) : s = CompiledByteDfa.startState := by
  induction h with
  | start hs => exact (Option.some.inj hs).symm
  | step _ _ htakes ih =>
    subst ih
    exact absurd htakes (not_takes_of_start hlive hstart _ _)

/-- Without a live start state the projection can only fail where it does not look. -/
theorem ByteDfa.ProjectionFailure.live (hlive : dfa.LiveExact) {e : Error}
    (h : dfa.byteDfa.ProjectionFailure vocabulary .exact e)
    (hstart : ¬(dfa.isLive CompiledByteDfa.startState = false ∧
      dfa.isAccepting CompiledByteDfa.startState = false)) :
    dfa.isLive CompiledByteDfa.startState = true := by
  by_contra hnot
  rw [Bool.not_eq_true] at hnot
  obtain ⟨s, w, hw, hfail⟩ := h
  obtain rfl := reached_of_start hlive hnot hw
  obtain ⟨t, -, entry, -, _, -, -, -, s₁, -, h₁, -⟩ | ⟨-, hacc, -⟩ := hfail
  · exact not_takes_of_start hlive hnot _ _ h₁
  · exact hstart ⟨hnot, hacc⟩

/-- With a live start state every state reached is visited; without one the index is empty. -/
theorem fromCertifiedDfa_wp (hlive : dfa.LiveExact) (hids : vocabulary.IdsInRange) :
    Result.wp (fun e => dfa.byteDfa.ProjectionFailure vocabulary .exact e ∧
        dfa.isLive CompiledByteDfa.startState = true)
      (Index.fromCertifiedDfa dfa vocabulary) fun index =>
        dfa.byteDfa.IsProjection vocabulary index ∧
          index.initialState = CompiledByteDfa.startState ∧
            (dfa.isLive CompiledByteDfa.startState = true →
              dfa.byteDfa.Projectable vocabulary) := by
  have hinj : Function.Injective dfa.byteDfa.stableStateId := fun _ _ => id
  refine Index.wp_fromCertifiedDfa ?_
  unfold ByteDfa.projectByteDfa
  rw [Result.wp_bind]
  refine ByteDfa.vocabularyWidth_wp hids fun width => ?_
  dsimp only
  rw [Result.wp_bind]
  change Result.wp _ (if _ then _ else _) _
  split
  -- a start state that is neither live nor accepting: nothing is reached by tokens
  · next hexit =>
    obtain ⟨-, hnot, hacc⟩ := hexit
    have hnot' : dfa.isLive CompiledByteDfa.startState = false := (Bool.not_eq_true _).mp hnot
    have hacc' : dfa.isAccepting CompiledByteDfa.startState = false :=
      (Bool.not_eq_true _).mp hacc
    have hno : ∀ {s w token s'}, dfa.byteDfa.Reached vocabulary s w →
        ¬dfa.byteDfa.Takes s token s' := fun hw htakes => by
      obtain rfl := reached_of_start hlive hnot' hw
      exact not_takes_of_start hlive hnot' _ _ htakes
    have hfinal : ∀ {s w}, dfa.byteDfa.Reached vocabulary s w →
        ¬dfa.byteDfa.isAccepting s = true := fun hw hs => by
      obtain rfl := reached_of_start hlive hnot' hw
      exact hacc hs
    intro index hinitial hfinals hrows heos
    refine ⟨⟨heos, fun s t x => ?_, fun s => ?_⟩, hinitial, fun h => absurd h hnot⟩
    · refine iff_of_false (by simp [hrows]) ?_
      rintro ⟨c, w, hw, -, ⟨_, -, -, s', htakes, -⟩ | ⟨-, hs, -⟩⟩
      · exact hno hw htakes
      · exact hfinal hw hs
    · refine iff_of_false (by simp [hfinals]) ?_
      rintro ⟨c, w, hw, hs, -⟩
      exact hfinal hw hs
  · next hexit =>
    rw [Result.wp_bind]
    -- otherwise the walk visits all that is reached, or meets a fault
    have hstates := ByteDfa.projectStates_wp hinj .exact
      (fun s w (h : dfa.byteDfa.Reached vocabulary s w) => lt_of_reached h) (dfa.stateCount + 1) []
      ⟨∅, [], [CompiledByteDfa.startState], [CompiledByteDfa.startState], ∅⟩ (.init rfl) (by simp)
      (by simp)
    cases hrun : dfa.byteDfa.projectStates vocabulary .exact (dfa.stateCount + 1)
      ⟨∅, [], [CompiledByteDfa.startState], [CompiledByteDfa.startState], ∅⟩ with
    | error e =>
      have hfail := Result.wp_error hstates hrun
      refine ⟨hfail, hfail.live hlive fun hnot => hexit ⟨rfl, ?_, ?_⟩⟩
      · exact (Bool.not_eq_true _).mpr hnot.1
      · exact (Bool.not_eq_true _).mpr hnot.2
    | ok p =>
      obtain ⟨hinv, hstuck⟩ := Result.wp_ok hstates hrun
      intro index hinitial hfinals hrows heos
      refine ⟨hinv.isProjection heos hfinals hrows, hinitial, fun _ s w hw => ?_⟩
      have hs := hinv.mem_seen_iff.2 ⟨w, hw⟩
      exact ⟨hinv.not_ambiguous hinj fun entry hentry => ⟨hs, hentry⟩, hstuck s hs⟩

/-- The projection succeeds exactly when nothing is wrong with any state reached, or there is
nothing to reach. -/
theorem fromCertifiedDfa_isOk_iff (hlive : dfa.LiveExact) (hids : vocabulary.IdsInRange) :
    (∃ index, Index.fromCertifiedDfa dfa vocabulary = .ok index) ↔
      (dfa.isLive CompiledByteDfa.startState = true → dfa.byteDfa.Projectable vocabulary) := by
  have hwp := fromCertifiedDfa_wp hlive hids
  constructor
  · rintro ⟨index, hindex⟩
    exact (Result.wp_ok hwp hindex).2.2
  · intro h
    cases hrun : Index.fromCertifiedDfa dfa vocabulary with
    | ok index => exact ⟨index, rfl⟩
    | error e =>
      obtain ⟨⟨s, w, hw, hfail⟩, hstart⟩ := Result.wp_error hwp hrun
      obtain ⟨hamb, hstuck⟩ := h hstart s w hw
      obtain ⟨t, -, ht⟩ | ⟨-, hs⟩ := hfail
      · exact absurd ht (hamb t)
      · exact absurd hs hstuck

/-! ### The order of the tokens -/

section Order

variable {vocabulary' : Vocabulary}
  (hentries : ∀ entry, entry ∈ vocabulary'.tokens.entries ↔ entry ∈ vocabulary.tokens.entries)

include hentries in
theorem reached_congr {s : ℕ} {w : List UInt8} (h : dfa.byteDfa.Reached vocabulary' s w) :
    dfa.byteDfa.Reached vocabulary s w := by
  induction h with
  | start hs => exact .start hs
  | step _ hentry htakes ih => exact ih.step ((hentries _).1 hentry) htakes

include hentries in
theorem reached_iff {s : ℕ} {w : List UInt8} :
    dfa.byteDfa.Reached vocabulary' s w ↔ dfa.byteDfa.Reached vocabulary s w :=
  ⟨reached_congr hentries, reached_congr fun entry => (hentries entry).symm⟩

include hentries in
theorem projectable_iff :
    dfa.byteDfa.Projectable vocabulary' ↔ dfa.byteDfa.Projectable vocabulary := by
  unfold ByteDfa.Projectable ByteDfa.AmbiguousAt ByteDfa.StuckAt
  simp only [reached_iff hentries, hentries]

include hentries in
theorem ByteDfa.IsProjection.congr (heos : vocabulary'.eosTokenId = vocabulary.eosTokenId)
    {index : Index} (h : dfa.byteDfa.IsProjection vocabulary' index) :
    dfa.byteDfa.IsProjection vocabulary index where
  eos := h.eos.trans heos
  rows := by
    have hrows := h.rows
    simp only [reached_iff hentries, hentries, heos] at hrows
    exact hrows
  finals := by
    have hfinals := h.finals
    simp only [reached_iff hentries] at hfinals
    exact hfinals

end Order

/-- Two indexes of the same projection have the same rows and final states. -/
theorem ByteDfa.IsProjection.ext {index index' : Index}
    (h : dfa.byteDfa.IsProjection vocabulary index)
    (h' : dfa.byteDfa.IsProjection vocabulary index') :
    (∀ s t, target index.transitions s t = target index'.transitions s t) ∧
      ∀ s, index.isFinalState s = index'.isFinalState s := by
  constructor
  · intro s t
    refine Option.ext fun x => ?_
    rw [h.rows, h'.rows]
  · intro s
    unfold Index.isFinalState
    rw [decide_eq_decide, h.finals, h'.finals]

/-- What the rows of a state reached say. -/
theorem ByteDfa.IsProjection.row_iff {index : Index} (h : dfa.byteDfa.IsProjection vocabulary index)
    {s : ℕ} {w : List UInt8} (hs : dfa.byteDfa.Reached vocabulary s w) {t x : ℕ} :
    target index.transitions s t = some x ↔
      (∃ token, t ∈ vocabulary.ids token ∧ dfa.byteDfa.Takes s token x) ∨
        t = vocabulary.eosTokenId ∧ dfa.isAccepting s = true ∧ x = s := by
  rw [h.rows]
  constructor
  · rintro ⟨c, -, -, rfl, ⟨entry, hentry, hid, s', htakes, rfl⟩ | heos⟩
    · exact .inl ⟨entry.1, Vocabulary.mem_ids.2 ⟨entry, hentry, rfl, hid⟩, htakes⟩
    · exact .inr heos
  · rintro (⟨token, hid, htakes⟩ | heos)
    · obtain ⟨entry, hentry, rfl, hmem⟩ := Vocabulary.mem_ids.1 hid
      exact ⟨s, w, hs, rfl, .inl ⟨entry, hentry, hmem, x, htakes, rfl⟩⟩
    · exact ⟨s, w, hs, rfl, .inr heos⟩

/-- The projection fails only where a token id is ambiguous or no token goes on.  Otherwise the
rows and the final states of the index are those of the DFA, whatever the order of the tokens. -/
structure CompiledByteDfa.ProjectsExactly (dfa : CompiledByteDfa) (vocabulary : Vocabulary) :
    Prop where
  failure : ∀ e, Index.fromCertifiedDfa dfa vocabulary = .error e →
    dfa.byteDfa.ProjectionFailure vocabulary .exact e
  initial : ∀ index, Index.fromCertifiedDfa dfa vocabulary = .ok index →
    index.initialState = CompiledByteDfa.startState
  row : ∀ index, Index.fromCertifiedDfa dfa vocabulary = .ok index →
    ∀ s w, dfa.byteDfa.Reached vocabulary s w → ∀ t, t ≠ vocabulary.eosTokenId →
      (∀ s', index.nextState s t = some s' ↔
        ∃ token, t ∈ vocabulary.ids token ∧ dfa.byteDfa.Takes s token s') ∧
      (index.Allows s t ↔ ∃ token s', t ∈ vocabulary.ids token ∧ dfa.byteDfa.Takes s token s')
  eos : ∀ index, Index.fromCertifiedDfa dfa vocabulary = .ok index →
    ∀ s w, dfa.byteDfa.Reached vocabulary s w →
      (index.Allows s vocabulary.eosTokenId ↔ dfa.isAccepting s = true)
  final : ∀ index, Index.fromCertifiedDfa dfa vocabulary = .ok index →
    ∀ s w, dfa.byteDfa.Reached vocabulary s w →
      (index.isFinalState s = true ↔ dfa.accepts w = true)
  order : ∀ vocabulary' : Vocabulary, vocabulary'.eosTokenId = vocabulary.eosTokenId →
    vocabulary'.tokens.entries.Perm vocabulary.tokens.entries →
      ((∃ index', Index.fromCertifiedDfa dfa vocabulary' = .ok index') ↔
        ∃ index, Index.fromCertifiedDfa dfa vocabulary = .ok index) ∧
      ∀ index index', Index.fromCertifiedDfa dfa vocabulary = .ok index →
        Index.fromCertifiedDfa dfa vocabulary' = .ok index' →
          index.initialState = index'.initialState ∧
          (∀ s t, target index.transitions s t = target index'.transitions s t) ∧
            ∀ s, index.isFinalState s = index'.isFinalState s

theorem fromCertifiedDfa_exact (dfa : CompiledByteDfa) (hlive : dfa.LiveExact)
    (vocabulary : Vocabulary) (hids : vocabulary.IdsInRange) :
    dfa.ProjectsExactly vocabulary := by
  have hwp := fromCertifiedDfa_wp hlive hids
  constructor
  case failure => exact fun e he => (Result.wp_error hwp he).1
  case initial => exact fun index hindex => (Result.wp_ok hwp hindex).2.1
  case row =>
    intro index hindex s w hs t ht
    obtain ⟨hproj, -⟩ := Result.wp_ok hwp hindex
    have hrow : ∀ x, target index.transitions s t = some x ↔
        ∃ token, t ∈ vocabulary.ids token ∧ dfa.byteDfa.Takes s token x := fun x => by
      rw [hproj.row_iff hs, or_iff_left fun heos => ht heos.1]
    refine ⟨fun s' => ?_, ?_⟩
    · rw [Index.nextState_eq (hproj.eos ▸ ht), hrow]
    · rw [Index.allows_iff, exists_comm]
      simp only [hrow]
  case eos =>
    intro index hindex s w hs
    obtain ⟨hproj, -⟩ := Result.wp_ok hwp hindex
    rw [Index.allows_iff]
    simp only [hproj.row_iff hs, vocabulary.eos_notMem_ids, false_and, exists_false, false_or,
      true_and, exists_and_left, exists_eq, and_true]
  case final =>
    intro index hindex s w hs
    obtain ⟨hproj, -⟩ := Result.wp_ok hwp hindex
    rw [Index.isFinalState, decide_eq_true_iff, hproj.finals, accepts_of_reached hs]
    constructor
    · rintro ⟨c, -, -, hacc, rfl⟩
      exact hacc
    · exact fun hacc => ⟨s, w, hs, hacc, rfl⟩
  case order =>
    intro vocabulary' heos hperm
    have hentries : ∀ entry, entry ∈ vocabulary'.tokens.entries ↔
        entry ∈ vocabulary.tokens.entries := fun entry => hperm.mem_iff
    have hids' : vocabulary'.IdsInRange :=
      ⟨heos ▸ hids.1, fun entry h => hids.2 entry ((hentries entry).1 h)⟩
    have hwp' := fromCertifiedDfa_wp hlive hids'
    refine ⟨?_, fun index index' hindex hindex' => ?_⟩
    · rw [fromCertifiedDfa_isOk_iff hlive hids, fromCertifiedDfa_isOk_iff hlive hids',
        projectable_iff hentries]
    · obtain ⟨hproj, hinitial, -⟩ := Result.wp_ok hwp hindex
      obtain ⟨hproj', hinitial', -⟩ := Result.wp_ok hwp' hindex'
      exact ⟨hinitial.trans hinitial'.symm, hproj.ext (hproj'.congr hentries heos)⟩

end Certified

/-! ### The DFA of `ab` -/

/-- The automaton of `ab`. -/
def abDfa : CompiledByteDfa where
  transitions := [fun b => if b = 97 then 1 else deadDfaState,
    fun b => if b = 98 then 2 else deadDfaState, fun _ => deadDfaState]
  accepting := [false, false, true]
  live := [true, true, true]
  nfaStates := 0
  nfaTransitions := 0
  memoryBytes := 0

theorem abDfa_liveExact : abDfa.LiveExact := by
  have h : ∀ state < abDfa.stateCount, abDfa.isLive state = true ∧
      abDfa.acceptsFrom state ([97, 98].drop state) = true := by decide
  exact fun state hstate => iff_of_true (h state hstate).1 ⟨_, (h state hstate).2⟩

/-- The byte strings `a` and `b`, of which `b` has no token id. -/
def unnumberedVocabulary : Vocabulary where
  eosTokenId := 1
  tokens := ⟨[⟨[97], [0]⟩, ⟨[98], []⟩], (by decide : [[(97 : UInt8)], [98]].Nodup)⟩
  eos_notMem := by decide
  nodup_ids := by decide

theorem unnumberedVocabulary_idsInRange : unnumberedVocabulary.IdsInRange := by
  unfold Vocabulary.IdsInRange
  decide

theorem fromCertifiedDfa_exact_abDfa : abDfa.ProjectsExactly unnumberedVocabulary :=
  fromCertifiedDfa_exact abDfa abDfa_liveExact unnumberedVocabulary
    unnumberedVocabulary_idsInRange

end OcEarley

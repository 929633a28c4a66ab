import OcEarley.Engine.Agreement
import OcEarley.Engine.Validation

/-!
# What a guide generates

A guide of a compiled document generates texts of the document: the committed tokens spell the
beginning of one, the sequence ends after a whole one only, and apart from the limits the guide goes
on with exactly the tokens that some text goes on with (`guide_generates`).  So every text that the
vocabulary spells can be generated (`guide_completes`).  Over an index the tokens are those of the
projection (`GuideRuntime.Reads.dfa`), over a parser they are bytes that it consumes.
-/

namespace OcEarley

open Method

/-! ### Tokens of an automaton -/

section Automaton

variable {dfa : CompiledByteDfa} {vocabulary : Vocabulary} {K : Language UInt8} {s : ℕ}
  {x token w : List UInt8}

theorem lt_stateCount_of_reached (hpos : 0 < dfa.stateCount)
    (h : dfa.byteDfa.Reached vocabulary s x) : s < dfa.stateCount := by
  induction h with
  | start hs =>
    obtain rfl := Option.some.inj hs
    exact hpos
  | step _ _ htakes ih => exact (lt_of_followToken htakes.1).elim (fun heq => heq ▸ ih) id

theorem exists_followToken (h : dfa.acceptsFrom s (token ++ w) = true) :
    ∃ s', dfa.byteDfa.followToken s token = some s' ∧ dfa.acceptsFrom s' w = true := by
  induction token generalizing s with
  | nil => exact ⟨s, rfl, h⟩
  | cons byte token ih =>
    rw [List.cons_append, CompiledByteDfa.acceptsFrom] at h
    split at h
    · cases h
    · next halive =>
      obtain ⟨s', hfollow, haccepts⟩ := ih h
      refine ⟨s', ?_, haccepts⟩
      rw [ByteDfa.followToken, ← hfollow]
      exact if_neg halive

/-- A token is taken iff some word of the language goes on with it. -/
theorem exists_takes_iff (haccepts : dfa.Accepts K) (hs : dfa.byteDfa.Reached vocabulary s x) :
    (∃ s', dfa.byteDfa.Takes s token s') ↔ Viable K (x ++ token) := by
  have hviable : Viable K (x ++ token) ↔ ∃ w, dfa.acceptsFrom s (token ++ w) = true := by
    refine exists_congr fun w => ?_
    rw [← haccepts.accepts_iff, List.append_assoc, acceptsFrom_of_reached hs]
  -- a live flag is right for a state that exists
  have hlive : ∀ s', dfa.byteDfa.followToken s token = some s' →
      (dfa.isLive s' = true ↔ ∃ w, dfa.acceptsFrom s' w = true) := by
    intro s' hfollow
    refine haccepts.live s' ?_
    rcases lt_of_followToken hfollow with rfl | hlt
    · exact lt_stateCount_of_reached haccepts.stateCount_pos hs
    · exact hlt
  rw [hviable]
  constructor
  · rintro ⟨s', hfollow, hs'⟩
    obtain ⟨w, hw⟩ := (hlive s' hfollow).1 hs'
    exact ⟨w, (acceptsFrom_of_followToken hfollow).trans hw⟩
  · rintro ⟨w, hw⟩
    obtain ⟨s', hfollow, haccept⟩ := exists_followToken hw
    exact ⟨s', hfollow, (hlive s' hfollow).2 ⟨w, haccept⟩⟩

end Automaton

/-! ### Bytes of a parser -/

namespace RecognizerState

variable {r s t : RecognizerState} {K : Language UInt8} {x chunk : List UInt8} {e : RuntimeError}

/-- What has been consumed begins a word. -/
theorem Decides.viable (hr : r.Decides K) (hstart : Viable K []) (hx : r.Consumes x s) :
    Viable K x := by
  rcases List.eq_nil_or_concat' x with rfl | ⟨x, byte, rfl⟩
  · exact hstart
  · obtain ⟨t, ht, u, hbyte, rfl⟩ := consumes_append.1 hx
    -- the byte has been consumed, so that its position fits
    have hlen : r.usesTables = true → x.length + 1 ≤ u32Max := by
      intro htables
      simpa using hx.length_le htables
    exact (wp_ok (hr.advance byte ht hlen) hbyte).1 rfl

/-- A chunk that is refused, limits apart, goes on with no word. -/
theorem Decides.not_viable (hr : r.Decides K) (hcol : r.HasColumn) (hx : r.Consumes x s)
    (hlen : x.length + chunk.length ≤ u32Max) (hviable : Viable K x)
    (h : tryAdvanceBytes chunk s = .ok .rejected t ∨ tryAdvanceBytes chunk s = .error e t)
    (he : ¬ e.IsLimit) : ¬ Viable K (x ++ chunk) := by
  have hloop := hr.wp_advanceLoop (hx.extends.hasColumn hcol) chunk (.refl s) hx hlen hviable
  rcases h with hrejected | herror
  · obtain ⟨-, -, houtcome⟩ | ⟨hnot, -⟩ := wp_ok hloop hrejected
    · exact absurd houtcome.symm t.outcome_ne_rejected
    · exact hnot
  · exact absurd (wp_error hloop herror) he

end RecognizerState

/-! ### Runtimes -/

namespace GuideRuntime

/-- The probe of `is_accepting`, if it makes one, exceeds no limit. -/
def AcceptanceFits : GuideRuntime → Prop
  | .dfa .. => True
  | .structural recognizer => recognizer.AcceptanceFits

/-- The runtime has read the bytes of the tokens, in search of a word of the language. -/
inductive Reads (vocabulary : Vocabulary) (K : Language UInt8) : GuideRuntime → List UInt8 → Prop
  | dfa {dfa : CompiledByteDfa} {index : Index} {state : ℕ} {x : List UInt8}
    (haccepts : dfa.Accepts K) (hindex : dfa.byteDfa.IsProjection vocabulary index)
    (hstate : dfa.byteDfa.Reached vocabulary state x) : Reads vocabulary K (.dfa index state) x
  | structural {r s : RecognizerState} {x : List UInt8} (hr : r.Decides K) (hcol : r.HasColumn)
    (hx : r.Consumes x s) : Reads vocabulary K (.structural s) x

variable {vocabulary : Vocabulary} {K : Language UInt8} {runtime : GuideRuntime} {x : List UInt8}

theorem Reads.viable (h : runtime.Reads vocabulary K x) (hstart : Viable K []) : Viable K x := by
  cases h with
  | dfa haccepts _ hstate =>
    cases hstate with
    | start => exact hstart
    | step hreached _ htakes => exact (exists_takes_iff haccepts hreached).1 ⟨_, htakes⟩
  | structural hr _ hx => exact hr.viable hstart hx

end GuideRuntime

/-- The token ends a word, or some word goes on with its bytes. -/
def Vocabulary.Continues (vocabulary : Vocabulary) (K : Language UInt8) (x : List UInt8)
    (token : ℕ) :
    Prop :=
  token = vocabulary.eosTokenId ∧ x ∈ K ∨
    ∃ bytes, token ∈ vocabulary.ids bytes ∧ Viable K (x ++ bytes)

namespace Guide

variable {vocabulary : Vocabulary} {K : Language UInt8} {g g' : Guide} {x : List UInt8} {token : ℕ}
  {destination mask : List ℕ}

theorem acceptanceFits_of_isAccepting (h : g.isAccepting = true) : g.runtime.AcceptanceFits := by
  unfold isAccepting at h
  split at h
  · cases h
  · cases hruntime : g.runtime with
    | dfa index state => trivial
    | structural recognizer =>
      rw [hruntime] at h
      exact RecognizerState.acceptanceFits_of_isAccepting h

theorem isAccepting_iff (h : g.runtime.Reads vocabulary K x) (hopen : g.finished = false)
    (hfits : g.runtime.AcceptanceFits) : g.isAccepting = true ↔ x ∈ K := by
  unfold isAccepting
  rw [hopen, if_neg Bool.false_ne_true]
  generalize g.runtime = runtime at h hfits
  cases h with
  | @dfa dfa index state x haccepts hindex hstate =>
    rw [← haccepts.accepts_iff, accepts_of_reached hstate]
    dsimp only
    rw [Index.isFinalState, decide_eq_true_iff, hindex.finals]
    constructor
    · rintro ⟨c, -, -, hacc, rfl⟩
      exact hacc
    · exact fun hacc => ⟨state, x, hstate, hacc, rfl⟩
  | structural hr _ hx => exact hr.accepting hx hfits

/-- What the step of a runtime over a token comes to. -/
inductive RuntimeStep (vocabulary : Vocabulary) (K : Language UInt8) (x : List UInt8) (token : ℕ)
    (g : Guide) : EStateM.Result RuntimeError Guide Unit → Prop
  | moved {runtime : GuideRuntime} {bytes : List UInt8} (hids : token ∈ vocabulary.ids bytes)
    (h : runtime.Reads vocabulary K (x ++ bytes))
    (hall : ∀ bytes, token ∈ vocabulary.ids bytes → Viable K (x ++ bytes) →
      runtime.Reads vocabulary K (x ++ bytes)) :
    RuntimeStep vocabulary K x token g (.ok () { g with runtime := runtime })
  | refused {e : RuntimeError} {u : Guide}
    (h : ¬ e.IsLimit → ∀ bytes, token ∈ vocabulary.ids bytes →
      x.length + bytes.length ≤ u32Max → ¬ Viable K (x ++ bytes)) :
    RuntimeStep vocabulary K x token g (.error e u)

theorem runtimeStep_dfa {index : Index} {state : ℕ} (hruntime : g.runtime = .dfa index state)
    (hindex : index.eosTokenId = vocabulary.eosTokenId) (htoken : token ≠ vocabulary.eosTokenId)
    (h : (GuideRuntime.dfa index state).Reads vocabulary K x) (known : Option (List UInt8)) :
    RuntimeStep vocabulary K x token g (advanceRuntime token known g) := by
  unfold advanceRuntime
  rw [get_bind_apply, hruntime]
  dsimp only
  cases h with
  | @dfa dfa _ _ _ haccepts hprojection hstate =>
    have hrow : ∀ next, index.nextState state token = some next ↔
        ∃ bytes, token ∈ vocabulary.ids bytes ∧ dfa.byteDfa.Takes state bytes next := by
      intro next
      rw [Index.nextState_eq (hindex ▸ htoken), hprojection.row_iff hstate,
        or_iff_left fun hend => htoken hend.1]
    cases hnext : index.nextState state token with
    | none =>
      -- a byte string of the token that some word goes on with would have a target
      refine .refused fun _ bytes hids _ hviable => ?_
      obtain ⟨next, htakes⟩ := (exists_takes_iff haccepts hstate).2 hviable
      cases hnext.symm.trans ((hrow next).2 ⟨bytes, hids, htakes⟩)
    | some next =>
      have hreads : ∀ bytes, token ∈ vocabulary.ids bytes → dfa.byteDfa.Takes state bytes next →
          (GuideRuntime.dfa index next).Reads vocabulary K (x ++ bytes) := by
        intro bytes hids htakes
        obtain ⟨entry, hentry, rfl, -⟩ := Vocabulary.mem_ids.1 hids
        exact .dfa haccepts hprojection (.step hstate hentry htakes)
      obtain ⟨bytes, hids, htakes⟩ := (hrow next).1 hnext
      refine .moved hids (hreads bytes hids htakes) fun bytes' hids' hviable => ?_
      -- whatever the byte string, the row has one target
      obtain ⟨next', htakes'⟩ := (exists_takes_iff haccepts hstate).2 hviable
      obtain rfl := Option.some.inj (hnext.symm.trans ((hrow next').2 ⟨bytes', hids', htakes'⟩))
      exact hreads bytes' hids' htakes'

theorem runtimeStep_structural {s : RecognizerState} (hruntime : g.runtime = .structural s)
    (hids : ∀ bytes, g.tokenBytes token = some bytes ↔ token ∈ vocabulary.ids bytes)
    (hviable : Viable K x) (h : (GuideRuntime.structural s).Reads vocabulary K x) :
    RuntimeStep vocabulary K x token g (advanceRuntime token (g.tokenBytes token) g) := by
  unfold advanceRuntime
  rw [get_bind_apply, hruntime]
  dsimp only
  cases h with
  | structural hr hcol hx =>
    cases hbytes : g.tokenBytes token with
    | none =>
      refine .refused fun _ bytes hmem => ?_
      cases hbytes.symm.trans ((hids bytes).2 hmem)
    | some bytes =>
      have hmem : token ∈ vocabulary.ids bytes := (hids bytes).1 hbytes
      -- the token has no other bytes
      have hrefused : ∀ {e : RuntimeError} {u : Guide}, (¬ e.IsLimit →
          x.length + bytes.length ≤ u32Max → ¬ Viable K (x ++ bytes)) →
            RuntimeStep vocabulary K x token g (.error e u) := by
        intro e u h
        refine .refused fun he bytes' hmem' => ?_
        obtain rfl := Option.some.inj (hbytes.symm.trans ((hids bytes').2 hmem'))
        exact h he
      rw [bind_of_ok (unwrap_eq_ok.2 ⟨rfl, rfl⟩)]
      rcases RecognizerState.tryAdvanceBytes_spec (hx.extends.hasColumn hcol) bytes with
        ⟨t, ht⟩ | hrejected | ⟨e, herror⟩
      · rw [bind_of_ok (onRecognizer_eq_ok g (RecognizerState.tryAdvanceBytes_of_consumes ht)),
          require_of t.outcome_ne_rejected]
        have hreads : (GuideRuntime.structural t).Reads vocabulary K (x ++ bytes) :=
          .structural hr hcol (RecognizerState.consumes_append.2 ⟨s, hx, ht⟩)
        refine .moved hmem hreads fun bytes' hmem' _ => ?_
        obtain rfl := Option.some.inj (hbytes.symm.trans ((hids bytes').2 hmem'))
        exact hreads
      · rw [bind_of_ok (onRecognizer_eq_ok g hrejected), require_of_not (by simp)]
        exact hrefused fun he hlen => hr.not_viable hcol hx hlen hviable (.inl hrejected) he
      · rw [bind_of_error (onRecognizer_eq_error g herror)]
        exact hrefused fun he hlen => hr.not_viable hcol hx hlen hviable (.inr herror) he

/-- **The step of a runtime.**  It moves over the bytes of the token, or, limits apart, no word of
the language goes on with them. -/
theorem runtimeStep (h : g.runtime.Reads vocabulary K x) (hmade : g.MadeFor vocabulary)
    (hviable : Viable K x) (htoken : token ≠ g.eosTokenId) :
    RuntimeStep vocabulary K x token g (advanceRuntime token (g.tokenBytes token) g) := by
  cases hmade with
  | dfa hruntime _ heos hindex =>
    exact runtimeStep_dfa hruntime hindex (heos ▸ htoken) (hruntime ▸ h) _
  | structural hruntime hvocabulary _ hderived =>
    refine runtimeStep_structural hruntime (fun bytes => ?_) hviable (hruntime ▸ h)
    rw [tokenBytes, hvocabulary, Option.bind_some, hderived.sharedBytes_iff]

/-- The guide has committed tokens with the bytes `x`, and ended the sequence after a word only. -/
structure Generates (vocabulary : Vocabulary) (K : Language UInt8) (g : Guide) (x : List UInt8) :
    Prop where
  spells : vocabulary.Spells (g.committedTokenIds.filter (· ≠ vocabulary.eosTokenId)) x
  reads : g.runtime.Reads vocabulary K x
  whole : g.finished = true → x ∈ K

theorem Generates.of_core (h : g.Generates vocabulary K x) (hcore : SameCore g g') :
    g'.Generates vocabulary K x where
  spells := hcore.committedTokenIds ▸ h.spells
  reads := hcore.runtime ▸ h.reads
  whole := fun hfinished => h.whole (hcore.finished ▸ hfinished)

/-- What advancing over a token comes to. -/
inductive GenerationStep (vocabulary : Vocabulary) (K : Language UInt8) (x : List UInt8) (token : ℕ)
    (g : Guide) : EStateM.Result RuntimeError Guide Unit → Prop
  | ended {g' : Guide} (heos : token = vocabulary.eosTokenId) (hmem : x ∈ K)
    (h : g'.Generates vocabulary K x) (hfinished : g'.finished = true) :
    GenerationStep vocabulary K x token g (.ok () g')
  | moved {g' : Guide} {bytes : List UInt8} (hids : token ∈ vocabulary.ids bytes)
    (h : g'.Generates vocabulary K (x ++ bytes)) (hopen : g'.finished = false)
    (hall : ∀ bytes, token ∈ vocabulary.ids bytes → Viable K (x ++ bytes) →
      g'.Generates vocabulary K (x ++ bytes)) : GenerationStep vocabulary K x token g (.ok () g')
  | refused {e : RuntimeError} {g' : Guide} (h : g.finished = false → ¬ e.IsLimit →
      (token = vocabulary.eosTokenId → g.isAccepting = false) ∧
        ∀ bytes, token ∈ vocabulary.ids bytes → x.length + bytes.length ≤ u32Max →
          ¬ Viable K (x ++ bytes)) : GenerationStep vocabulary K x token g (.error e g')

/-- The guide may commit one more token. -/
structure HasRoom (g : Guide) : Prop where
  opened : g.finished = false
  size : g.committedTokenIds.length + 1 ≤ usizeMax
  limit : g.committedTokenIds.length + 1 ≤ g.limits.maxCommittedTokens

theorem advance_of_not_hasRoom (token : ℕ) (h : ¬ g.HasRoom) :
    ∃ e, advance token g = .error e g ∧ (g.finished = false → e.IsLimit) := by
  unfold advance enforceRuntimeLimit
  rw [get_bind_apply]
  by_cases hopen : g.finished = false
  swap
  · exact ⟨_, bind_of_error (require_of_not hopen), fun h => absurd h hopen⟩
  rw [bind_of_ok (require_of hopen)]
  by_cases hsize : g.committedTokenIds.length + 1 ≤ usizeMax
  swap
  · exact ⟨_, bind_of_error (require_of_not hsize), fun _ => trivial⟩
  rw [bind_of_ok (require_of hsize)]
  by_cases hlimit : g.committedTokenIds.length + 1 ≤ g.limits.maxCommittedTokens
  swap
  · exact ⟨_, bind_of_error (require_of_not hlimit), fun _ => trivial⟩
  exact absurd ⟨hopen, hsize, hlimit⟩ h

theorem advance_eos (h : g.HasRoom) : advance g.eosTokenId g = (do
    Method.require (g.isAccepting = true) .eosNotAccepting
    modify fun g => { g with finished := true }
    commit g.checkpoint g.eosTokenId [] : Method RuntimeError Guide Unit) g := by
  unfold advance enforceRuntimeLimit
  rw [get_bind_apply, bind_of_ok (require_of h.opened), bind_of_ok (require_of h.size),
    bind_of_ok (require_of h.limit)]
  dsimp only
  rw [if_pos rfl]

theorem advance_known (h : g.HasRoom) (htoken : token ≠ g.eosTokenId)
    (hknown : ∀ r, g.runtime = .structural r → (g.tokenBytes token).isSome = true) :
    advance token g = (do
      advanceRuntime token (g.tokenBytes token)
      commit g.checkpoint token ((g.tokenBytes token).getD []) :
        Method RuntimeError Guide Unit) g := by
  unfold advance enforceRuntimeLimit
  rw [get_bind_apply, bind_of_ok (require_of h.opened), bind_of_ok (require_of h.size),
    bind_of_ok (require_of h.limit)]
  dsimp only
  rw [if_neg htoken]
  cases hruntime : g.runtime with
  | dfa index state => rfl
  | structural r => exact bind_of_ok (require_of (hknown r hruntime))

theorem advance_unknown {r : RecognizerState} (h : g.HasRoom) (htoken : token ≠ g.eosTokenId)
    (hruntime : g.runtime = .structural r) (hunknown : ¬ (g.tokenBytes token).isSome = true) :
    advance token g = .error (.unknownTokenId token) g := by
  unfold advance enforceRuntimeLimit
  rw [get_bind_apply, bind_of_ok (require_of h.opened), bind_of_ok (require_of h.size),
    bind_of_ok (require_of h.limit)]
  dsimp only
  rw [if_neg htoken, hruntime]
  exact bind_of_error (require_of_not hunknown)

theorem generationStep_eos (hg : g.Generates vocabulary K x) (hroom : g.HasRoom)
    (heos : g.eosTokenId = vocabulary.eosTokenId) :
    GenerationStep vocabulary K x g.eosTokenId g (advance g.eosTokenId g) := by
  rw [advance_eos hroom]
  by_cases hacc : g.isAccepting = true
  · rw [bind_of_ok (require_of hacc), bind_of_ok modify_apply]
    obtain ⟨g', hcommit, -, hruntime, hids, -, hfinished, -⟩ :=
      commit_eq_ok g.checkpoint g.eosTokenId [] { g with finished := true }
    have hmem : x ∈ K :=
      (isAccepting_iff hg.reads hroom.opened (acceptanceFits_of_isAccepting hacc)).1 hacc
    rw [hcommit]
    refine .ended heos hmem ⟨?_, ?_, fun _ => hmem⟩ hfinished
    · rw [hids, heos, filter_ne_snoc_eq]
      exact hg.spells
    · rw [hruntime]
      exact hg.reads
  · rw [bind_of_error (require_of_not hacc)]
    refine .refused fun _ _ => ⟨fun _ => Bool.eq_false_iff.2 hacc, fun bytes hids => ?_⟩
    exact absurd hids (heos ▸ vocabulary.eos_notMem_ids bytes)

theorem generationStep_known (hg : g.Generates vocabulary K x) (hmade : g.MadeFor vocabulary)
    (hstart : Viable K []) (hroom : g.HasRoom) (htoken : token ≠ g.eosTokenId)
    (hknown : ∀ r, g.runtime = .structural r → (g.tokenBytes token).isSome = true) :
    GenerationStep vocabulary K x token g (advance token g) := by
  have hne : token ≠ vocabulary.eosTokenId := hmade.eosTokenId ▸ htoken
  rw [advance_known hroom htoken hknown]
  -- the runtime moves first, and what it has read is committed then
  have hstep := runtimeStep hg.reads hmade (hg.reads.viable hstart) htoken
  generalize hresult : advanceRuntime token (g.tokenBytes token) g = result at hstep
  cases hstep with
  | @moved runtime bytes hids h hall =>
    rw [bind_of_ok hresult]
    obtain ⟨g', hcommit, -, hruntime, hcommitted, -, hfinished, -⟩ := commit_eq_ok g.checkpoint
      token ((g.tokenBytes token).getD []) { g with runtime := runtime }
    rw [hcommit]
    have hopen : g'.finished = false := hfinished.trans hroom.opened
    have hgenerates : ∀ bytes, token ∈ vocabulary.ids bytes →
        runtime.Reads vocabulary K (x ++ bytes) → g'.Generates vocabulary K (x ++ bytes) := by
      intro bytes hids h
      refine ⟨?_, hruntime ▸ h, fun h => absurd (hopen.symm.trans h) Bool.false_ne_true⟩
      rw [hcommitted, filter_ne_snoc_ne hne]
      exact hg.spells.snoc hids
    exact .moved hids (hgenerates bytes hids h) hopen fun bytes hids hviable =>
      hgenerates bytes hids (hall bytes hids hviable)
  | refused h =>
    rw [bind_of_error hresult]
    exact .refused fun _ he => ⟨fun heos => absurd heos hne, h he⟩

/-- **The step of a guide.**  It ends the sequence after a word, or goes on with bytes of the token,
or, limits apart, the language allows for neither. -/
theorem generationStep (hg : g.Generates vocabulary K x) (hmade : g.MadeFor vocabulary)
    (hstart : Viable K []) (token : ℕ) :
    GenerationStep vocabulary K x token g (advance token g) := by
  by_cases hroom : g.HasRoom
  swap
  · obtain ⟨e, herror, hlimit⟩ := advance_of_not_hasRoom token hroom
    rw [herror]
    exact .refused fun hopen he => absurd (hlimit hopen) he
  by_cases htoken : token = g.eosTokenId
  · subst htoken
    exact generationStep_eos hg hroom hmade.eosTokenId
  by_cases hknown : (g.tokenBytes token).isSome = true
  · exact generationStep_known hg hmade hstart hroom htoken fun _ _ => hknown
  cases hmade with
  | dfa hruntime hvocabulary heos hindex =>
    -- a guide over an index does not ask for the bytes
    refine generationStep_known hg (.dfa hruntime hvocabulary heos hindex) hstart hroom htoken ?_
    intro r hstructural
    cases hruntime.symm.trans hstructural
  | structural hruntime hvocabulary heos hderived =>
    rw [advance_unknown hroom htoken hruntime hknown]
    refine .refused fun _ _ => ⟨fun hend => absurd (hend.trans heos.symm) htoken,
      fun bytes hids => ?_⟩
    rw [tokenBytes, hvocabulary, Option.bind_some, (hderived.sharedBytes_iff token bytes).2 hids]
      at hknown
    exact absurd rfl hknown

/-- The guide is accepting after a whole word. -/
theorem Generates.isAccepting_iff (hx : g.Generates vocabulary K x) (hmade : g.MadeFor vocabulary)
    (hopen : g.finished = false) (hfits : g.ProbesFit) : g.isAccepting = true ↔ x ∈ K := by
  refine Guide.isAccepting_iff hx.reads hopen ?_
  cases hmade with
  | dfa hruntime _ _ _ =>
    rw [hruntime]
    trivial
  | structural hruntime hvocabulary _ _ =>
    rw [hruntime]
    exact (hfits _ _ hruntime hvocabulary).1

/-- The guide advances over the tokens that the language continues with. -/
theorem Generates.advances_iff (hx : g.Generates vocabulary K x) (hmade : g.MadeFor vocabulary)
    (hstart : Viable K []) (hopen : g.finished = false) (hfits : g.ProbesFit)
    (hlen : ∀ bytes, token ∈ vocabulary.ids bytes → x.length + bytes.length ≤ u32Max)
    (hlimit : ∀ e, valueOf (advance token g) = .error e → ¬ e.IsLimit) :
    (∃ g', advance token g = .ok () g') ↔ vocabulary.Continues K x token := by
  have hstep := generationStep hx hmade hstart token
  generalize advance token g = result at hstep hlimit
  cases hstep with
  | @ended g' heos hmem _ _ => exact iff_of_true ⟨g', rfl⟩ (.inl ⟨heos, hmem⟩)
  | @moved g' bytes hids h _ _ =>
    exact iff_of_true ⟨g', rfl⟩ (.inr ⟨bytes, hids, h.reads.viable hstart⟩)
  | @refused e g' h =>
    obtain ⟨hend, hmore⟩ := h hopen (hlimit e rfl)
    refine iff_of_false (by rintro ⟨g'', hok⟩; cases hok) ?_
    rintro (⟨heos, hmem⟩ | ⟨bytes, hids, hviable⟩)
    · exact Bool.false_ne_true
        ((hend heos).symm.trans ((hx.isAccepting_iff hmade hopen hfits).2 hmem))
    · exact hmore bytes hids (hlen bytes hids) hviable

/-- The mask over an index shows the row of the state. -/
theorem bitSet_iff_allows {index : Index} {state : ℕ} (hruntime : g.runtime = .dfa index state)
    (hfits : g.FitsMask) (hopen : g.finished = false) (h : g.freshMask destination = .ok mask) :
    BitSet mask token ↔ index.Allows state token := by
  have hlen : g.maskWords ≤ destination.length := by
    by_contra hlen
    rw [freshMask_of_lt hlen] at h
    cases h
  obtain ⟨mask', hmask, hbits⟩ := freshMask_dfa hruntime hfits hopen hlen
  obtain rfl := Except.ok.inj (hmask.symm.trans h)
  rw [hbits]
  unfold Index.Allows
  cases index.allowedTokens state with
  | none => simp
  | some row => simp

/-- A structural guide goes on where it is live, so it allows what its mask shows. -/
theorem allows_iff_isLive {r : RecognizerState} {derived : DerivedVocabulary}
    (hvocabulary : g.vocabulary = some derived) (heos : g.eosTokenId = vocabulary.eosTokenId)
    (hderived : derived.Represents vocabulary)
    (hlive : ∀ bytes t, derived.sharedBytes token = some bytes → r.Consumes bytes t →
      t.isLive = true) :
    g.Allows r token ↔ (r.isAccepting = true ∧ token = derived.eosTokenId) ∨
      ∃ bytes t, derived.sharedBytes token = some bytes ∧ r.Consumes bytes t ∧ t.isLive = true := by
  unfold Allows
  rw [heos, hderived.eosTokenId, hvocabulary, Option.bind_some]
  split
  · next htoken =>
    refine ⟨fun hacc => .inl ⟨hacc, htoken⟩, ?_⟩
    rintro (⟨hacc, -⟩ | ⟨bytes, t, hbytes, -⟩)
    · exact hacc
    · -- the end of the sequence has no bytes
      rw [htoken, hderived.sharedBytes_iff] at hbytes
      exact absurd hbytes (vocabulary.eos_notMem_ids bytes)
  · next htoken =>
    constructor
    · rintro ⟨bytes, t, hbytes, ht⟩
      exact .inr ⟨bytes, t, hbytes, ht, hlive bytes t hbytes ht⟩
    · rintro (⟨-, hend⟩ | ⟨bytes, t, hbytes, ht, -⟩)
      · exact absurd hend htoken
      · exact ⟨bytes, t, hbytes, ht⟩

/-- The row of a state holds the tokens that the language continues with. -/
theorem allows_iff_continues {dfa : CompiledByteDfa} {index : Index} {state : ℕ}
    (haccepts : dfa.Accepts K) (hprojection : dfa.byteDfa.IsProjection vocabulary index)
    (hstate : dfa.byteDfa.Reached vocabulary state x) :
    index.Allows state token ↔ vocabulary.Continues K x token := by
  rw [Index.allows_iff]
  simp only [hprojection.row_iff hstate]
  unfold Vocabulary.Continues
  rw [← haccepts.accepts_iff, accepts_of_reached hstate]
  constructor
  · rintro ⟨s', ⟨bytes, hids, htakes⟩ | ⟨htoken, hacc, -⟩⟩
    · exact .inr ⟨bytes, hids, (exists_takes_iff haccepts hstate).1 ⟨s', htakes⟩⟩
    · exact .inl ⟨htoken, hacc⟩
  · rintro (⟨htoken, hacc⟩ | ⟨bytes, hids, hviable⟩)
    · exact ⟨state, .inr ⟨htoken, hacc, rfl⟩⟩
    · obtain ⟨s', htakes⟩ := (exists_takes_iff haccepts hstate).2 hviable
      exact ⟨s', .inl ⟨bytes, hids, htakes⟩⟩

/-- A mask shows the tokens that the language continues with. -/
theorem Generates.bitSet_iff (hx : g.Generates vocabulary K x) (hmade : g.MadeFor vocabulary)
    (hstart : Viable K []) (hopen : g.finished = false) (hfits : g.ProbesFit)
    (hlen : ∀ bytes, token ∈ vocabulary.ids bytes → x.length + bytes.length ≤ u32Max)
    (hlimit : ∀ e, valueOf (advance token g) = .error e → ¬ e.IsLimit)
    (hwidth : g.FitsMask) (hmask : g.freshMask destination = .ok mask) :
    BitSet mask token ↔ vocabulary.Continues K x token := by
  have hadvances := hx.advances_iff hmade hstart hopen hfits hlen hlimit
  have hreads := hx.reads
  cases hmade with
  | @dfa index state hruntime _ _ _ =>
    rw [hruntime] at hreads
    cases hreads with
    | dfa haccepts hprojection hstate =>
      rw [bitSet_iff_allows hruntime hwidth hopen hmask]
      exact allows_iff_continues haccepts hprojection hstate
  | @structural r derived hruntime hvocabulary heos hderived =>
    rw [hruntime] at hreads
    cases hreads with
    | @structural first _ _ hr hcol hconsumed =>
      have hcol' := hconsumed.extends.hasColumn hcol
      have hlive : ∀ bytes t, derived.sharedBytes token = some bytes → r.Consumes bytes t →
          t.isLive = true := by
        intro bytes t hbytes ht
        have hall := RecognizerState.consumes_append.2 ⟨r, hconsumed, ht⟩
        exact (hr.live hall ((hfits r derived hruntime hvocabulary).2 token bytes t hbytes ht)).2
          (hr.viable hstart hall)
      -- what the walk finds can be advanced over, and the language continues with that
      rw [freshMask_structural hruntime hvocabulary hcol' hopen hmask, MaskWalk.finds_iff hderived,
        ← allows_iff_isLive hvocabulary heos hderived hlive, ← hadvances]
      have hmoves := moves_advance hruntime hcol' token
      generalize advance token g = result at hmoves hlimit
      cases hmoves with
      | @refused e g' h =>
        exact iff_of_false (h hopen (hlimit e rfl)) (by rintro ⟨g'', hok⟩; cases hok)
      | @moved g' t bytes hallows _ _ => exact iff_of_true hallows ⟨g', rfl⟩

/-- A guide that advances over tokens, one after the other. -/
theorem Replays.generates {initial : Guide} {tokens : List ℕ} (hmade : initial.MadeFor vocabulary)
    (hcol : initial.runtime.HasColumn) (hstart : Viable K [])
    (h : initial.Generates vocabulary K []) (hreplays : initial.Replays tokens g) :
    ∃ x, g.Generates vocabulary K x := by
  induction tokens using List.reverseRecOn generalizing g with
  | nil =>
    obtain rfl := hreplays
    exact ⟨[], h⟩
  | append_singleton tokens token ih =>
    obtain ⟨t, ht, u, hadvance, rfl⟩ := replays_append.1 hreplays
    obtain ⟨x, hx⟩ := ih ht
    have hahead := ht.ahead hcol
    have hstep := generationStep hx (hmade.of_setting hahead.toSameSetting hahead.runtime)
      hstart token
    rw [hadvance] at hstep
    cases hstep with
    | ended _ _ h _ => exact ⟨x, h⟩
    | moved _ h _ _ => exact ⟨_, h⟩

/-- No call of `advance` exceeds a limit on the way over the tokens. -/
def AdvancesWithin (g : Guide) (tokens : List ℕ) : Prop :=
  ∀ n token g' e, tokens[n]? = some token → g.Replays (tokens.take n) g' →
    valueOf (advance token g') = .error e → ¬ e.IsLimit

theorem AdvancesWithin.head {tokens : List ℕ} (h : g.AdvancesWithin (token :: tokens)) :
    ∀ e, valueOf (advance token g) = .error e → ¬ e.IsLimit :=
  fun e herror => h 0 token g e rfl rfl herror

theorem AdvancesWithin.tail {tokens : List ℕ} (h : g.AdvancesWithin (token :: tokens))
    (hadvance : advance token g = .ok () g') : g'.AdvancesWithin tokens :=
  fun n token' t e hn hreplays herror => h (n + 1) token' t e hn ⟨g', hadvance, hreplays⟩ herror

/-- The guide advances over tokens that spell the beginning of a word, and ends the sequence after a
whole one. -/
theorem Generates.replays {ids : List ℕ} {tokens : List (List UInt8)}
    (htokens : List.Forall₂ (fun id token => id ∈ vocabulary.ids token) ids tokens)
    (hmade : g.MadeFor vocabulary) (hcol : g.runtime.HasColumn) (hstart : Viable K [])
    (hg : g.Generates vocabulary K x) (hopen : g.finished = false) (hmem : x ++ tokens.flatten ∈ K)
    (hlen : (x ++ tokens.flatten).length ≤ u32Max)
    (hwithin : g.AdvancesWithin (ids ++ [vocabulary.eosTokenId]))
    (hfits : ∀ g', g.Replays ids g' → g'.runtime.AcceptanceFits) :
    ∃ g', g.Replays (ids ++ [vocabulary.eosTokenId]) g' ∧ g'.finished = true := by
  induction htokens generalizing g x with
  | nil =>
    rw [List.flatten_nil, List.append_nil] at hmem
    have hstep := generationStep hg hmade hstart vocabulary.eosTokenId
    have hlimit := hwithin.head
    generalize hresult : advance vocabulary.eosTokenId g = result at hstep hlimit
    cases hstep with
    | @ended g' _ _ _ hfinished => exact ⟨g', ⟨g', hresult, rfl⟩, hfinished⟩
    | @moved g' bytes hids _ _ _ => exact absurd hids (vocabulary.eos_notMem_ids bytes)
    | @refused e g' h =>
      have hacc := (Guide.isAccepting_iff hg.reads hopen (hfits g rfl)).2 hmem
      have hnot := (h hopen (hlimit e rfl)).1 rfl
      exact absurd (hnot.symm.trans hacc) Bool.false_ne_true
  | @cons id token ids tokens hid _ ih =>
    rw [List.flatten_cons, ← List.append_assoc] at hmem hlen
    have hviable : Viable K (x ++ token) := ⟨tokens.flatten, hmem⟩
    have hstep := generationStep hg hmade hstart id
    have hlimit := hwithin.head
    generalize hresult : advance id g = result at hstep hlimit
    cases hstep with
    | ended heos _ _ _ => exact absurd (heos ▸ hid) (vocabulary.eos_notMem_ids token)
    | @moved g' bytes _ _ hopen' hall =>
      have hadvanced := advanced_of_ok hcol hresult
      obtain ⟨g'', hreplays, hfinished⟩ := ih
        (hmade.of_setting hadvanced.toSameSetting hadvanced.runtime)
        (hadvanced.runtime.hasColumn hcol) (hall token hid hviable) hopen' hmem hlen
        (hwithin.tail hresult) fun t ht => hfits t ⟨g', hresult, ht⟩
      exact ⟨g'', ⟨g', hresult, hreplays⟩, hfinished⟩
    | @refused e g' h =>
      have hshort : x.length + token.length ≤ u32Max := by
        rw [List.length_append, List.length_append] at hlen
        omega
      exact absurd hviable ((h hopen (hlimit e rfl)).2 token hid hshort)

end Guide

/-! ### Guides of a document -/

section Document

variable {ν σ : Type} [DecidableEq σ] {library : RegexLibrary ν σ} {S : RegexSyntax UInt8}
  {escape : String → String} {R : String → Language UInt8} {root : JsonValue}
  {limits : CompileLimits}
  {arena : SchemaArena} {edges : List ReferenceEdge} {vocabulary : Vocabulary}
  {policy : BackendPolicy}
  {compiled : CompiledSchema} {maxRollback generation : ℕ} {runtimeLimits : RuntimeLimits}
  {initial : Guide} {prepared : PreparedGrammar} {backend : PreparedBackend} {K : Language UInt8}

theorem Guide.finished_fromCompiled
    (h : Guide.fromCompiled compiled maxRollback runtimeLimits generation = .ok initial) :
    initial.finished = false := by
  obtain ⟨-, -, h⟩ := Result.bind_eq_ok.1 h
  split at h
  · obtain rfl := Result.pure_eq_ok.1 h
    rfl
  · obtain ⟨_, -, h⟩ := Result.bind_eq_ok.1 h
    obtain ⟨_, -, h⟩ := Result.bind_eq_ok.1 h
    obtain rfl := Result.pure_eq_ok.1 h
    rfl

/-- Nothing has been generated yet. -/
theorem PreparedGrammar.StandsFor.generates (h : prepared.StandsFor K)
    (hoffers : prepared.Offers limits backend)
    (hmade : CompiledSchema.ofPrepared backend vocabulary limits = .ok compiled)
    (hids : vocabulary.IdsInRange)
    (hguide : Guide.fromCompiled compiled maxRollback runtimeLimits generation = .ok initial) :
    initial.Generates vocabulary K [] := by
  have hcommitted := (Guide.Fresh.fromCompiled hguide).started.committedTokenIds
  have hdecides : ∀ r, compiled.recognizer runtimeLimits generation = .ok r → r.Decides K :=
    fun _ hr => h.decides hoffers hmade hr
  obtain ⟨-, -, hguide⟩ := Result.bind_eq_ok.1 hguide
  cases CompiledSchema.ofPrepared_eq_ok hmade with
  | @dfa dfa index hprepared hindex hbackend =>
    subst hprepared
    rw [hbackend] at hguide
    obtain rfl := Result.pure_eq_ok.1 hguide
    cases hoffers with
    | dfa hdfa =>
      have haccepts := h.dfa _ hdfa
      obtain ⟨hprojection, hinitial, -⟩ :=
        Result.wp_ok (fromCertifiedDfa_wp haccepts.live hids) hindex
      refine ⟨Vocabulary.spells_nil, .dfa haccepts hprojection ?_, fun h => (by cases h)⟩
      exact hinitial ▸ .start rfl
  | structural _ hbackend _ _ =>
    split at hguide
    · next index hindex => exact absurd hindex (hbackend index)
    · obtain ⟨derived, -, hguide⟩ := Result.bind_eq_ok.1 hguide
      obtain ⟨recognizer, hr, hguide⟩ := Result.bind_eq_ok.1 hguide
      obtain rfl := Result.pure_eq_ok.1 hguide
      have hnothing : recognizer.Consumes [] recognizer := rfl
      exact ⟨Vocabulary.spells_nil, .structural (hdecides _ hr)
        (CompiledSchema.fresh_of_recognizer hr).hasColumn hnothing, fun h => (by cases h)⟩

/-- **A guide generates texts of the document.**  After any operations the committed tokens spell
the beginning of a text, and a whole one if the sequence has ended.  Before that the guide is
accepting iff they spell a whole one, and the tokens that it advances over, and shows in its masks,
are those that end a text or that some text goes on with, limits apart. -/
theorem guide_generates (hlibrary : library.Exact S) (hread : PatternsRead S escape R)
    (hkeys : root.DistinctKeys) (hnormalized : normalizeSchema root limits = .ok (arena, edges))
    (hsatisfiable : ∃ x, x ∈ arena.meaning R arena.root) (hids : vocabulary.IdsInRange)
    (hcompiled : compileDocument library escape root vocabulary limits policy = .ok compiled)
    (hinitial : Guide.fromCompiled compiled maxRollback runtimeLimits generation = .ok initial)
    (ops : List GuideOp) :
    ∃ x, vocabulary.Spells
        ((initial.after ops).committedTokenIds.filter (· ≠ vocabulary.eosTokenId)) x ∧
      Viable (arena.meaning R arena.root) x ∧
      ((initial.after ops).finished = true → x ∈ arena.meaning R arena.root) ∧
      ((initial.after ops).finished = false → (initial.after ops).ProbesFit →
        ((initial.after ops).isAccepting = true ↔ x ∈ arena.meaning R arena.root) ∧
        ∀ token, (∀ bytes, token ∈ vocabulary.ids bytes → x.length + bytes.length ≤ u32Max) →
          (∀ e, valueOf (Guide.advance token (initial.after ops)) = .error e → ¬ e.IsLimit) →
          ((∃ g, Guide.advance token (initial.after ops) = .ok () g) ↔
            vocabulary.Continues (arena.meaning R arena.root) x token) ∧
          ∀ destination mask, valueOf (Guide.fillMask destination (initial.after ops)) = .ok mask →
            (BitSet mask token ↔ vocabulary.Continues (arena.meaning R arena.root) x token)) := by
  obtain ⟨prepared, backend, hstands, hoffers, hmade⟩ := standsFor_of_compileDocument hlibrary hread
    hkeys hnormalized hsatisfiable hcompiled
  have hstarted := (Guide.Fresh.fromCompiled hinitial).started
  have hmadeFor := Guide.madeFor_fromCompiled hmade hinitial
  have hreplayed := hstarted.replayed.after hstarted ops
  generalize initial.after ops = g at *
  -- whatever the operations were, the guide is where its committed tokens lead
  obtain ⟨r, hreplays, hcore⟩ := hreplayed.replays
  have hfirst := hstands.generates hoffers hmade hids hinitial
  obtain ⟨x, hx⟩ := hreplays.generates hmadeFor hstarted.column hsatisfiable hfirst
  replace hx := hx.of_core hcore
  have hmadeFor := hmadeFor.of_setting (hreplayed.runtime_extends hstarted).1
    (hreplayed.runtime_extends hstarted).2
  refine ⟨x, hx.spells, hx.reads.viable hsatisfiable, hx.whole, fun hopen hfits => ?_⟩
  have haccepting := hx.isAccepting_iff hmadeFor hopen hfits
  refine ⟨haccepting, fun token hlen hlimit => ?_⟩
  have hadvances := hx.advances_iff hmadeFor hsatisfiable hopen hfits hlen hlimit
  refine ⟨hadvances, fun destination mask hmask => ?_⟩
  rw [Guide.valueOf_fillMask hreplayed.mask] at hmask
  exact hx.bitSet_iff hmadeFor hsatisfiable hopen hfits hlen hlimit
    (hreplayed.sound hstarted).fits hmask

/-- **A guide can generate every text of the document.**  It advances over any tokens that spell a
text, and over the end of the sequence then, unless a limit is exceeded on the way. -/
theorem guide_completes (hlibrary : library.Exact S) (hread : PatternsRead S escape R)
    (hkeys : root.DistinctKeys) (hnormalized : normalizeSchema root limits = .ok (arena, edges))
    (hids : vocabulary.IdsInRange)
    (hcompiled : compileDocument library escape root vocabulary limits policy = .ok compiled)
    (hinitial : Guide.fromCompiled compiled maxRollback runtimeLimits generation = .ok initial)
    {ids : List ℕ} {x : List UInt8} (hspells : vocabulary.Spells ids x)
    (hmem : x ∈ arena.meaning R arena.root) (hlength : x.length ≤ u32Max)
    (hwithin : initial.AdvancesWithin (ids ++ [vocabulary.eosTokenId]))
    (hfits : ∀ g, initial.Replays ids g → g.runtime.AcceptanceFits) :
    ∃ g, initial.Replays (ids ++ [vocabulary.eosTokenId]) g ∧ g.finished = true := by
  have hsatisfiable : ∃ x, x ∈ arena.meaning R arena.root := ⟨x, hmem⟩
  obtain ⟨prepared, backend, hstands, hoffers, hmade⟩ := standsFor_of_compileDocument hlibrary hread
    hkeys hnormalized hsatisfiable hcompiled
  obtain ⟨tokens, htokens, rfl⟩ := hspells
  exact (hstands.generates hoffers hmade hids hinitial).replays htokens
    (Guide.madeFor_fromCompiled hmade hinitial) (Guide.Fresh.fromCompiled hinitial).started.column
    hsatisfiable (Guide.finished_fromCompiled hinitial) hmem hlength hwithin hfits

/-- What a guide has committed after the token `1` and the end of the sequence, and
whether it has finished. -/
def oneGenerated (policy : BackendPolicy) : Option (List ℕ × Bool) := do
  let compiled ←
    (compileDocument oneLibrary Pattern.escape oneDocument oneVocabulary .default policy).toOption
  let initial ← (Guide.fromCompiled compiled 0 .default 0).toOption
  let g := initial.after [.advance 0, .advance 1]
  pure (g.committedTokenIds, g.finished)

/-- Both tokens are committed, and what they spell is the text of the document. -/
theorem guide_generates_one : ∃ compiled initial,
    compileDocument oneLibrary Pattern.escape oneDocument oneVocabulary .default .forceEarley =
      .ok compiled ∧ Guide.fromCompiled compiled 0 .default 0 = .ok initial ∧
    (initial.after [.advance 0, .advance 1]).committedTokenIds = [0, 1] ∧
    ∃ arena edges x, normalizeSchema oneDocument .default = .ok (arena, edges) ∧
      oneVocabulary.Spells ([0, 1].filter (· ≠ oneVocabulary.eosTokenId)) x ∧
      x ∈ arena.meaning patternLanguage arena.root := by
  have hok : oneGenerated .forceEarley = some ([0, 1], true) := by decide +kernel
  unfold oneGenerated at hok
  simp only [Option.bind_eq_bind, Option.bind_eq_some_iff, Result.toOption_eq_some,
    Option.pure_def, Option.some.injEq, Prod.mk.injEq] at hok
  obtain ⟨compiled, hcompiled, initial, hinitial, hcommitted, hfinished⟩ := hok
  obtain ⟨arena, edges, hnormalized, hmeaning⟩ := exists_oneArena
  have hids : oneVocabulary.IdsInRange := by
    unfold Vocabulary.IdsInRange
    decide
  obtain ⟨x, hspells, -, hwhole, -⟩ := guide_generates oneLibrary_exact patternsRead
    oneDocument_distinctKeys hnormalized ⟨_, hmeaning.ge rfl⟩ hids hcompiled hinitial
    [.advance 0, .advance 1]
  rw [hcommitted] at hspells
  exact ⟨compiled, initial, hcompiled, hinitial, hcommitted, arena, edges, x, hnormalized, hspells,
    hwhole hfinished⟩

/-- Where the guide is after the token, if it advances over it. -/
def Guide.afterToken (token : ℕ) (g : Guide) : Option Guide :=
  (Method.valueOf (Guide.advance token g)).toOption.map fun _ => stateOf (Guide.advance token g)

theorem Guide.afterToken_eq_some {token : ℕ} {g g' : Guide} :
    Guide.afterToken token g = some g' ↔ Guide.advance token g = .ok () g' := by
  unfold Guide.afterToken
  cases Guide.advance token g with
  | ok u t =>
    constructor
    · intro h
      exact congrArg _ (Option.some.inj h)
    · intro h
      exact congrArg some (EStateM.Result.ok.inj h).2
  | error e t =>
    constructor
    · intro h
      cases h
    · intro h
      cases h

/-- The guide of the document after the token `1`, and after the end of the sequence. -/
def oneReplay (policy : BackendPolicy) : Option (Guide × Guide) := do
  let compiled ←
    (compileDocument oneLibrary Pattern.escape oneDocument oneVocabulary .default policy).toOption
  let initial ← (Guide.fromCompiled compiled 0 .default 0).toOption
  let g ← Guide.afterToken 0 initial
  guard (g.isAccepting = true)
  let g' ← Guide.afterToken 1 g
  pure (g, g')

/-- The guide generates `1` from its token. -/
theorem guide_completes_one : ∃ compiled initial g,
    compileDocument oneLibrary Pattern.escape oneDocument oneVocabulary .default .forceEarley =
      .ok compiled ∧ Guide.fromCompiled compiled 0 .default 0 = .ok initial ∧
    initial.Replays ([0] ++ [oneVocabulary.eosTokenId]) g ∧ g.finished = true := by
  have hok : (oneReplay .forceEarley).isSome = true := by decide +kernel
  obtain ⟨⟨g, g'⟩, hok⟩ := Option.isSome_iff_exists.1 hok
  unfold oneReplay at hok
  simp only [Option.bind_eq_bind, Option.bind_eq_some_iff, Option.guard_eq_some',
    Result.toOption_eq_some, Guide.afterToken_eq_some, Option.pure_def, Option.some.injEq,
    Prod.mk.injEq] at hok
  obtain ⟨compiled, hcompiled, initial, hinitial, t, ht, _, hacc, t', ht', rfl, rfl⟩ := hok
  obtain ⟨arena, edges, hnormalized, hmeaning⟩ := exists_oneArena
  have hids : oneVocabulary.IdsInRange := by
    unfold Vocabulary.IdsInRange
    decide
  have hspells : oneVocabulary.Spells [0] [49] := ⟨[[49]], by decide, rfl⟩
  have hfirst : ∀ u, initial.Replays [0] u → u = t := by
    rintro u ⟨v, hv, rfl⟩
    exact (EStateM.Result.ok.inj (hv.symm.trans ht)).2
  have hwithin : initial.AdvancesWithin ([0] ++ [oneVocabulary.eosTokenId]) := by
    intro n token u e hn hreplays herror
    rcases n with _ | _ | n
    · obtain rfl := Option.some.inj hn
      obtain rfl : initial = u := hreplays
      rw [ht] at herror
      cases herror
    · obtain rfl := Option.some.inj hn
      obtain rfl := hfirst u hreplays
      have hend : Guide.advance oneVocabulary.eosTokenId u = .ok () t' := ht'
      rw [hend] at herror
      cases herror
    · cases hn
  obtain ⟨u, hu, hfinished⟩ := guide_completes oneLibrary_exact patternsRead
    oneDocument_distinctKeys hnormalized hids hcompiled hinitial hspells (hmeaning.ge rfl)
    (by decide) hwithin fun u hu => hfirst u hu ▸ Guide.acceptanceFits_of_isAccepting hacc
  exact ⟨compiled, initial, u, hcompiled, hinitial, hu, hfinished⟩

end Document

end OcEarley

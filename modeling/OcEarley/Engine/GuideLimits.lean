import OcEarley.Engine.Limits
import OcEarley.Lalr.Exact

/-!
# Guides under higher limits

A walk over the token trie that succeeds writes the same mask under higher limits if no probe made
at a token exceeds a limit (`relaxed_fillStructuralMask`), and a guide advances under higher limits
over whatever it advances over (`Guide.Replays.relaxed`).  Together: a limit never changes an answer
as long as the probes fit (`limits_only_fail`).
-/

namespace OcEarley

open Method

/-! ### The walk -/

namespace MaskWalk

variable {trie : TokenTrie} {higher limits : RuntimeLimits} {generation fuel fuel' visited : ℕ}
  {r s t : RecognizerState} {w w' w₁ : MaskWalk} {stack stack' : List TrieFrame} {frame : TrieFrame}
  {node : TrieNode}

/-- The second walk is at the same recognizer with higher limits, and has written the same mask. -/
def Relaxed (higher : RuntimeLimits) (generation : ℕ) (w w' : MaskWalk) : Prop :=
  RecognizerState.Relaxed higher generation w.recognizer w'.recognizer ∧
    w'.destination = w.destination

/-- The probes made for the token ids of the trie exceed no limit. -/
structure Fits (trie : TokenTrie) (r : RecognizerState) : Prop where
  ids_le : ∀ node ∈ trie.nodes, node.tokenStart + node.tokenLen ≤ trie.terminalIds.length
  liveness : ∀ bytes n node t, trie.Reaches bytes n → trie.nodes[n]? = some node →
    trie.idsOf node ≠ [] → r.Consumes bytes t → t.LivenessFits

theorem follows_modifyStats (f g : MaskStats → MaskStats) :
    Follows RuntimeError.IsLimit (Relaxed higher generation) (modifyStats f) (modifyStats g) :=
  follows_modify fun _ _ h => h

theorem follows_enable (token : ℕ) :
    Follows RuntimeError.IsLimit (Relaxed higher generation) (enable token) (enable token) := by
  refine follows_bind (follows_get_bind ?_) fun _ => follows_modifyStats _ _
  rintro w w' ⟨-, hdest⟩
  rw [hdest]
  exact follows_bind (follows_require _ _) fun _ => follows_modify fun _ _ ⟨hrec, hdest⟩ =>
    ⟨hrec, congrArg (maskBit token) hdest⟩

/-- A node without token ids. -/
theorem emit_of_nil (hids : trie.idsOf node = [])
    (hle : node.tokenStart + node.tokenLen ≤ trie.terminalIds.length) (w : MaskWalk) :
    emit trie node w = .ok () w := by
  unfold emit
  rw [bind_of_ok get_apply]
  split
  · rw [bind_of_ok (require_of hle)]
    change (trie.idsOf node).forM enable w = _
    rw [hids]
    rfl
  · rfl

theorem agrees_emit (hle : node.tokenStart + node.tokenLen ≤ trie.terminalIds.length)
    (hfits : trie.idsOf node ≠ [] → w.recognizer.LivenessFits)
    (h : Relaxed higher generation w w') :
    Agrees RuntimeError.IsLimit (Relaxed higher generation) (emit trie node w)
      (emit trie node w') := by
  by_cases hids : trie.idsOf node = []
  · rw [emit_of_nil hids hle, emit_of_nil hids hle]
    exact .ok h
  · have hlive : w'.recognizer.isLive = w.recognizer.isLive := by
      rw [h.1.2]
      exact RecognizerState.isLive_relax h.1.1 (hfits hids)
    unfold emit
    rw [get_bind_apply, get_bind_apply, hlive]
    split
    · exact follows_bind (follows_require _ _) (fun _ => follows_forM follows_enable _) _ _ h
    · exact .ok h

/-- The frame with the checkpoint of the recognizer with higher limits. -/
def relaxFrame (higher : RuntimeLimits) (generation : ℕ) (t : RecognizerState) (frame : TrieFrame) :
    TrieFrame :=
  { frame with checkpoint := (t.relax higher generation).checkpoint }

theorem agrees_emitFrame (hle : node.tokenStart + node.tokenLen ≤ trie.terminalIds.length)
    (t : RecognizerState)
    (hfits : frame.emitted = false → trie.idsOf node ≠ [] → w.recognizer.LivenessFits)
    (h : Relaxed higher generation w w') :
    Agrees RuntimeError.IsLimit (Relaxed higher generation) (emitFrame trie frame node w)
      (emitFrame trie (relaxFrame higher generation t frame) node w') := by
  unfold emitFrame
  change Agrees _ _ _ ((if frame.emitted then _ else _ : Method RuntimeError MaskWalk Unit) w')
  cases hemitted : frame.emitted with
  | true => exact .ok h
  | false => exact agrees_emit hle (hfits hemitted) h

theorem mem_edgesOf {i : ℕ} {edge : TrieEdge} (hi : i < node.edgeLen)
    (hedge : trie.edges[node.edgeStart + i]? = some edge) : edge ∈ trie.edgesOf node := by
  refine List.mem_of_getElem? (i := i) ?_
  rw [TokenTrie.edgesOf, List.getElem?_take_of_lt hi, List.getElem?_drop]
  exact hedge

/-- What visiting an edge does under higher limits. -/
theorem relaxed_descend (hwithin : limits.Within higher) (ht : t.HasColumn)
    (hlimits : t.limits.Within higher) (hframe : frame.checkpoint = t.checkpoint)
    (hext : t.Extends w.recognizer) (h : Relaxed higher generation w w')
    {child : Option TrieFrame} (hok : descend trie limits visited frame node w = .ok child w₁) :
    ∃ edge w₁', trie.edges[node.edgeStart + frame.nextEdge]? = some edge ∧
      Relaxed higher generation w₁ w₁' ∧
      ((child = none ∧ w₁.recognizer = t ∧ descend trie higher visited
          (relaxFrame higher generation t frame) node w' = .ok none w₁') ∨
        ∃ u, t.Consumes [edge.byte] u ∧ w₁.recognizer = u ∧
          child = some ⟨edge.child, 0, false, u.checkpoint⟩ ∧
          descend trie higher visited (relaxFrame higher generation t frame) node w' =
            .ok (some (relaxFrame higher generation u ⟨edge.child, 0, false, u.checkpoint⟩))
              w₁') := by
  obtain ⟨edge, hedge, hlimit⟩ : ∃ edge, trie.edges[node.edgeStart + frame.nextEdge]? = some edge ∧
      saturatingAdd visited 1 ≤ limits.maxMaskTrieEdges := by
    obtain ⟨edge, _, hedge, hrest⟩ := bind_eq_ok.1 hok
    obtain ⟨_, _, hlimit, -⟩ := bind_eq_ok.1 hrest
    exact ⟨edge, (unwrap_eq_ok.1 hedge).1, (require_eq_ok.1 hlimit).1⟩
  have hedge' : trie.edges[node.edgeStart + (relaxFrame higher generation t frame).nextEdge]? =
      some edge := hedge
  have hlimit' := hlimit.trans hwithin.maxMaskTrieEdges
  have hcol' := RecognizerState.hasColumn_relax ht higher generation
  have hext' : (t.relax higher generation).Extends w'.recognizer := by
    rw [h.1.2]
    exact hext.relax higher generation
  have hadv : t.Advances higher generation [edge.byte] := RecognizerState.advances_relax ht hlimits
  -- the byte is taken or rejected alike; under the lower limits the walk has not failed
  rcases hadv with ⟨hu, hu'⟩ | ⟨hrej, hrej'⟩ | ⟨herr, -⟩ | ⟨-, herr⟩
  · next u =>
    obtain ⟨w₂, hrec, hdest, hchild⟩ := descend_of_consumes hedge hlimit ht hframe hext hu
    obtain ⟨w₂', hrec', hdest', hchild'⟩ :=
      descend_of_consumes hedge' hlimit' hcol' rfl hext' hu'
    rw [hchild] at hok
    obtain ⟨rfl, rfl⟩ := EStateM.Result.ok.inj hok
    refine ⟨edge, w₂', hedge, ⟨?_, ?_⟩, .inr ⟨u, hu, hrec, rfl, hchild'⟩⟩
    · exact ⟨hrec ▸ hu.extends.limits_eq ▸ hlimits, hrec ▸ hrec'⟩
    · rw [hdest', hdest, h.2]
  · obtain ⟨w₂, hrec, hdest, hnone⟩ := descend_of_rejected hedge hlimit ht hframe hext hrej
    obtain ⟨w₂', hrec', hdest', hnone'⟩ :=
      descend_of_rejected hedge' hlimit' hcol' rfl hext' hrej'
    rw [hnone] at hok
    obtain ⟨rfl, rfl⟩ := EStateM.Result.ok.inj hok
    refine ⟨edge, w₂', hedge, ⟨⟨hrec ▸ hlimits, hrec ▸ hrec'⟩, ?_⟩, .inl ⟨rfl, hrec, hnone'⟩⟩
    rw [hdest', hdest, h.2]
  · obtain ⟨w₂, -, herror⟩ := descend_of_error hedge hlimit ht hframe hext herr
    rw [herror] at hok
    cases hok
  · obtain ⟨w₂, -, herror⟩ := descend_of_error hedge hlimit ht hframe hext herr
    rw [herror] at hok
    cases hok

/-! ### The loop -/

/-- The frames of the two walks belong together; each comes with the recognizer of its checkpoint,
which has consumed the bytes that lead to its node. -/
inductive Paired (trie : TokenTrie) (higher : RuntimeLimits) (generation : ℕ)
    (r : RecognizerState) :
    RecognizerState → List TrieFrame → List TrieFrame → Prop
  | nil {s : RecognizerState} : Paired trie higher generation r s [] []
  | cons {s t : RecognizerState} {frame : TrieFrame} {stack stack' : List TrieFrame}
    {bytes : List UInt8} (ht : t.HasColumn) (hreaches : trie.Reaches bytes frame.node)
    (hconsumes : r.Consumes bytes t) (hframe : frame.checkpoint = t.checkpoint)
    (hext : t.Extends s) (hfresh : frame.emitted = false → s = t)
    (hrest : Paired trie higher generation r t stack stack') :
    Paired trie higher generation r s (frame :: stack)
      (relaxFrame higher generation t frame :: stack')

theorem relaxed_loop (hwithin : limits.Within higher) (hr : r.limits.Within higher)
    (hfits : Fits trie r) (hfuel : fuel ≤ fuel')
    (hstack : Paired trie higher generation r w.recognizer stack stack')
    (h : Relaxed higher generation w w') {u : Unit}
    (hok : loop trie limits fuel visited stack w = .ok u w₁) :
    ∃ w₁', loop trie higher fuel' visited stack' w' = .ok u w₁' ∧
      Relaxed higher generation w₁ w₁' := by
  induction fuel generalizing fuel' visited stack stack' w w' with
  | zero =>
    cases hstack with
    | nil =>
      obtain ⟨rfl, rfl⟩ := EStateM.Result.ok.inj hok
      exact ⟨w', by cases fuel' <;> rfl, h⟩
    | cons => cases hok
  | succ fuel ih =>
    obtain ⟨fuel', rfl⟩ : ∃ k, fuel' = k + 1 := ⟨fuel' - 1, by omega⟩
    cases hstack with
    | nil =>
      obtain ⟨rfl, rfl⟩ := EStateM.Result.ok.inj hok
      exact ⟨w', rfl, h⟩
    | @cons _ t frame stack stack' bytes ht hreaches hconsumes hframe hext hfresh hrest =>
      have hlimits : t.limits.Within higher := hconsumes.extends.limits_eq ▸ hr
      unfold loop at hok ⊢
      obtain ⟨w₂, hstats, hrec₂, hdest₂⟩ := modifyStats_eq_ok w fun stats =>
        { stats with peakStackDepth := max stats.peakStackDepth (stack.length + 1) }
      obtain ⟨w₂', hstats', hrec₂', hdest₂'⟩ := modifyStats_eq_ok w' fun stats =>
        { stats with peakStackDepth := max stats.peakStackDepth (stack'.length + 1) }
      rw [bind_of_ok hstats] at hok
      rw [bind_of_ok hstats']
      have h₂ : Relaxed higher generation w₂ w₂' := by
        unfold Relaxed
        rw [hrec₂, hrec₂', hdest₂, hdest₂']
        exact h
      obtain ⟨node, _, hget, hok⟩ := bind_eq_ok.1 hok
      obtain ⟨hnode, rfl⟩ := unwrap_eq_ok.1 hget
      have hnode' : trie.nodes[(relaxFrame higher generation t frame).node]? = some node := hnode
      rw [bind_of_ok (unwrap_eq_ok.2 ⟨hnode', rfl⟩)]
      obtain ⟨_, w₃, hemit, hok⟩ := bind_eq_ok.1 hok
      -- only for a fresh frame is the recognizer asked, and then it is that of the frame
      obtain ⟨w₃', hemit', h₃⟩ : ∃ w₃',
        emitFrame trie (relaxFrame higher generation t frame) node w₂' =
          .ok () w₃' ∧ Relaxed higher generation w₃ w₃' := by
        have hagrees := agrees_emitFrame (hfits.ids_le node (List.mem_of_getElem? hnode)) t
          (fun hemitted hids => by
            rw [hrec₂, hfresh hemitted]
            exact hfits.liveness bytes frame.node node t hreaches hnode hids hconsumes) h₂
        rw [hemit] at hagrees
        exact hagrees.of_ok
      have hrec₃ := (moves_emitFrame node).of_ok hemit
      have hext₃ : t.Extends w₃.recognizer := by
        rw [show w₃.recognizer = _ from hrec₃, hrec₂]
        exact hext
      rw [bind_of_ok hemit']
      change (if node.edgeLen ≤ frame.nextEdge then _ else _ :
        Method RuntimeError MaskWalk Unit) _ = _
        at hok
      change ∃ w₁', (if node.edgeLen ≤ frame.nextEdge then _ else _ :
        Method RuntimeError MaskWalk Unit) _ = _ ∧ _
      split at hok
      · next hle =>
        -- the frame is done, and both recognizers go back to where they were
        have hext' : (t.relax higher generation).Extends w₃'.recognizer := by
          rw [h₃.1.2]
          exact hext₃.relax higher generation
        rw [hframe, bind_of_ok (restore_eq_ok ht hext₃)] at hok
        rw [if_pos hle]
        have hback : onRecognizer (RecognizerState.restore
            (relaxFrame higher generation t frame).checkpoint) w₃' = _ :=
          restore_eq_ok (RecognizerState.hasColumn_relax ht higher generation) hext'
        rw [bind_of_ok hback]
        exact ih (w := { w₃ with recognizer := t }) (by omega) hrest ⟨⟨hlimits, rfl⟩, h₃.2⟩ hok
      · next hlt =>
        rw [if_neg hlt]
        obtain ⟨child, w₄, hchild, hok⟩ := bind_eq_ok.1 hok
        obtain ⟨edge, w₄', hedge, h₄, hcases⟩ :=
          relaxed_descend hwithin ht hlimits hframe hext₃ h₃ hchild
        rcases hcases with ⟨rfl, hrec₄, hchild'⟩ | ⟨u, hu, hrec₄, rfl, hchild'⟩
        · rw [bind_of_ok hchild']
          refine ih (by omega) ?_ h₄ hok
          exact .cons ht hreaches hconsumes hframe (hrec₄ ▸ .refl t)
            (fun hf => absurd hf (by simp)) hrest
        · rw [bind_of_ok hchild']
          refine ih (by omega) ?_ h₄ hok
          have hedge := mem_edgesOf (Nat.lt_of_not_le hlt) hedge
          refine .cons (hu.extends.hasColumn ht) (hreaches.step hnode hedge)
            (RecognizerState.consumes_append.2 ⟨t, hconsumes, hu⟩) rfl (hrec₄ ▸ .refl u)
            (fun _ => hrec₄) ?_
          exact .cons ht hreaches hconsumes hframe hu.extends (fun hf => absurd hf (by simp)) hrest

/-! ### The whole walk -/

theorem relaxed_fill {vocabulary : DerivedVocabulary} (hwithin : limits.Within higher)
    (hcol : w.recognizer.HasColumn) (haccept : w.recognizer.AcceptanceFits)
    (hfits : Fits vocabulary.trie w.recognizer) (h : Relaxed higher generation w w') {u : Unit}
    (hok : fill vocabulary limits w = .ok u w₁) :
    ∃ w₁', fill vocabulary higher w' = .ok u w₁' ∧ Relaxed higher generation w₁ w₁' := by
  have hr := h.1.1
  unfold fill at hok ⊢
  rw [get_bind_apply] at hok
  rw [get_bind_apply]
  obtain ⟨_, w₂, heos, hok⟩ := bind_eq_ok.1 hok
  have hrec₂ := (moves_enableEos vocabulary).of_ok heos
  obtain ⟨w₂', heos', h₂⟩ : ∃ w₂', enableEos vocabulary w' = .ok () w₂' ∧
      Relaxed higher generation w₂ w₂' := by
    have hagrees : Agrees RuntimeError.IsLimit (Relaxed higher generation) (enableEos vocabulary w)
        (enableEos vocabulary w') := by
      unfold enableEos
      rw [get_bind_apply, get_bind_apply]
      have hsame : w'.recognizer.isAccepting = w.recognizer.isAccepting := by
        rw [h.1.2]
        exact RecognizerState.isAccepting_relax hr haccept
      rw [hsame]
      split
      · exact follows_enable _ _ _ h
      · exact .ok h
    rw [heos] at hagrees
    exact hagrees.of_ok
  rw [bind_of_ok heos']
  have hstack : Paired vocabulary.trie higher generation w.recognizer w₂.recognizer
      [⟨0, 0, false, w.recognizer.checkpoint⟩]
      [⟨0, 0, false, w'.recognizer.checkpoint⟩] := by
    rw [h.1.2]
    exact .cons hcol .root rfl rfl (hrec₂ ▸ .refl _) (fun _ => hrec₂) .nil
  have hedges := hwithin.maxMaskTrieEdges
  exact relaxed_loop hwithin hr hfits (by omega) hstack h₂ hok

end MaskWalk

/-- **A mask under higher limits.** -/
theorem relaxed_fillStructuralMask {vocabulary : DerivedVocabulary} {limits higher : RuntimeLimits}
    {generation : ℕ} {w w' w₁ : MaskWalk} (hwithin : limits.Within higher)
    (hcol : w.recognizer.HasColumn) (haccept : w.recognizer.AcceptanceFits)
    (hfits : MaskWalk.Fits vocabulary.trie w.recognizer)
    (h : MaskWalk.Relaxed higher generation w w')
    {u : Unit} (hok : fillStructuralMask vocabulary limits w = .ok u w₁) :
    ∃ w₁', fillStructuralMask vocabulary higher w' = .ok u w₁' ∧
      MaskWalk.Relaxed higher generation w₁ w₁' := by
  have hback := (MaskWalk.fill_spec vocabulary limits hcol).1
  have hcol' : w'.recognizer.HasColumn := by
    rw [h.1.2]
    exact RecognizerState.hasColumn_relax hcol higher generation
  have hback' := (MaskWalk.fill_spec vocabulary higher hcol').1
  unfold fillStructuralMask at hok ⊢
  cases hfill : MaskWalk.fill vocabulary limits w with
  | error e w₂ =>
    rw [hfill] at hok
    obtain ⟨_, _, _, hthrow⟩ := bind_eq_ok.1 hok
    exact absurd hthrow (by simp)
  | ok v w₂ =>
    obtain ⟨w₂', hfill', h₂⟩ := MaskWalk.relaxed_fill hwithin hcol haccept hfits h hfill
    rw [hfill] at hok hback
    rw [hfill'] at hback' ⊢
    rw [stateOf_ok] at hback hback'
    change MaskWalk.onRecognizer (RecognizerState.restore w.recognizer.checkpoint) w₂ = _ at hok
    rw [MaskWalk.restore_eq_ok hcol hback] at hok
    obtain ⟨rfl, rfl⟩ := EStateM.Result.ok.inj hok
    exact ⟨_, MaskWalk.restore_eq_ok hcol' hback', ⟨⟨h.1.1, h.1.2⟩, h₂.2⟩⟩

/-! ### Guides -/

namespace GuideRuntime

variable {higher : RuntimeLimits} {generation : ℕ}

/-- The runtime with other limits. -/
def relax (higher : RuntimeLimits) (generation : ℕ) : GuideRuntime → GuideRuntime
  | .dfa index state => .dfa index state
  | .structural recognizer => .structural (recognizer.relax higher generation)

/-- No limit of the runtime is higher. -/
def Within (higher : RuntimeLimits) : GuideRuntime → Prop
  | .dfa .. => True
  | .structural recognizer => recognizer.limits.Within higher

end GuideRuntime

namespace Guide

variable {higher : RuntimeLimits} {generation : ℕ} {g g' g₁ : Guide}
  {tokens destination mask : List ℕ}

/-- The second guide is where the first one is, with higher limits. -/
structure Relaxed (higher : RuntimeLimits) (generation : ℕ) (g g' : Guide) : Prop where
  column : g.runtime.HasColumn
  within : g.runtime.Within higher
  limits : g.limits.Within higher
  runtime : g'.runtime = g.runtime.relax higher generation
  limits_eq : g'.limits = higher
  vocabulary : g'.vocabulary = g.vocabulary
  eosTokenId : g'.eosTokenId = g.eosTokenId
  maskWords : g'.maskWords = g.maskWords
  finished : g'.finished = g.finished
  committedTokenIds : g'.committedTokenIds = g.committedTokenIds

/-- An answer that is yes is right. -/
theorem Relaxed.isAccepting (h : Relaxed higher generation g g') (hacc : g.isAccepting = true) :
    g'.isAccepting = true := by
  unfold Guide.isAccepting at hacc ⊢
  rw [h.finished, h.runtime]
  cases hfinished : g.finished with
  | true =>
    rw [hfinished] at hacc
    exact hacc
  | false =>
    rw [hfinished] at hacc
    have hwithin := h.within
    cases hruntime : g.runtime with
    | dfa index state =>
      rw [hruntime] at hacc
      exact hacc
    | structural recognizer =>
      rw [hruntime] at hacc hwithin
      exact (RecognizerState.isAccepting_relax hwithin
        (RecognizerState.acceptanceFits_of_isAccepting hacc)).trans hacc

theorem follows_commit (before before' : GuideCheckpoint) (token : ℕ) (bytes : List UInt8) :
    Follows (fun _ => True) (Relaxed higher generation) (commit before token bytes)
      (commit before' token bytes) := by
  have hretain : Follows (fun _ => True) (Relaxed higher generation) (retainCheckpoint before)
      (retainCheckpoint before') := by
    refine follows_modify fun g g' h => ?_
    have hkeep : ∀ (g g' : Guide) (history history' : List GuideCheckpoint),
        Relaxed higher generation g g' →
        Relaxed higher generation { g with history := history } { g' with history := history' } :=
      fun _ _ _ _ h => { h with }
    split
    · split
      · exact h
      · exact hkeep g g' g.history _ h
    · split
      · exact hkeep g g' _ g'.history h
      · exact hkeep g g' _ _ h
  refine follows_bind hretain fun _ => follows_bind (follows_modify fun g g' h => ?_) fun _ =>
    follows_modify fun g g' h => { h with }
  exact { h with committedTokenIds := congrArg (· ++ [token]) h.committedTokenIds }

theorem follows_advanceRuntime (token : ℕ) (bytes : Option (List UInt8)) :
    Follows (fun _ => True) (Relaxed higher generation) (advanceRuntime token bytes)
      (advanceRuntime token bytes) := by
  intro g g' h
  unfold advanceRuntime
  rw [get_bind_apply, get_bind_apply, h.runtime]
  have hcol := h.column
  have hwithin := h.within
  cases hruntime : g.runtime with
  | dfa index state =>
    refine follows_bind (follows_unwrap _ _) (fun next => follows_modify fun g g' h => ?_) g g' h
    exact { h with column := trivial, within := trivial, runtime := rfl }
  | structural recognizer =>
    rw [hruntime] at hcol hwithin
    cases bytes with
    | none => exact .stop trivial
    | some bytes =>
      dsimp only [GuideRuntime.relax]
      rw [bind_of_ok (unwrap_eq_ok.2 ⟨rfl, rfl⟩), bind_of_ok (unwrap_eq_ok.2 ⟨rfl, rfl⟩)]
      have hadv : recognizer.Advances higher generation bytes :=
        RecognizerState.advances_relax hcol hwithin
      rcases hadv with ⟨ht, ht'⟩ | ⟨hrej, -⟩ | ⟨herr, -⟩ | ⟨-, herr⟩
      · next t =>
        rw [bind_of_ok (onRecognizer_eq_ok g (RecognizerState.tryAdvanceBytes_of_consumes ht)),
          bind_of_ok (onRecognizer_eq_ok g' (RecognizerState.tryAdvanceBytes_of_consumes ht')),
          require_of (RecognizerState.outcome_ne_rejected _),
          require_of (RecognizerState.outcome_ne_rejected _)]
        refine .ok { h with column := ?_, within := ?_, runtime := rfl }
        · exact ht.extends.hasColumn hcol
        · change t.limits.Within higher
          rw [ht.extends.limits_eq]
          exact hwithin
      · rw [bind_of_ok (onRecognizer_eq_ok g hrej), require_of_not (by simp)]
        exact .stop trivial
      · rw [bind_of_error (onRecognizer_eq_error g herr)]
        exact .stop trivial
      · rw [bind_of_error (onRecognizer_eq_error g herr)]
        exact .stop trivial

/-- **A token that is advanced over is advanced over under higher limits.** -/
theorem follows_advance (token : ℕ) :
    Follows (fun _ => True) (Relaxed higher generation) (advance token) (advance token) := by
  refine follows_get_bind fun g g' h => ?_
  rw [h.finished, h.committedTokenIds, h.limits_eq, h.eosTokenId, h.vocabulary]
  refine follows_bind (follows_require _ _) fun _ =>
    follows_bind (follows_check id trivial) fun _ => follows_bind
      (follows_check (fun hle => hle.trans h.limits.maxCommittedTokens) trivial) fun _ => ?_
  dsimp only
  split
  · refine follows_bind (follows_check h.isAccepting trivial) fun _ =>
      follows_bind (follows_modify fun g g' h => ?_) fun _ => follows_commit _ _ _ _
    exact { h with finished := rfl }
  · rw [h.runtime]
    cases g.runtime with
    | dfa index state =>
      exact follows_bind (follows_advanceRuntime _ _) fun _ => follows_commit _ _ _ _
    | structural recognizer =>
      exact follows_bind (follows_require _ _) fun _ => follows_bind (follows_advanceRuntime _ _)
        fun _ => follows_commit _ _ _ _

theorem Replays.relaxed (h : Relaxed higher generation g g') (hreplays : g.Replays tokens g₁) :
    ∃ g₁', g'.Replays tokens g₁' ∧ Relaxed higher generation g₁ g₁' := by
  induction tokens generalizing g g' with
  | nil => exact ⟨g', rfl, hreplays ▸ h⟩
  | cons token tokens ih =>
    obtain ⟨t, ht, hreplays⟩ := hreplays
    have hagrees := follows_advance token g g' h
    rw [ht] at hagrees
    obtain ⟨t', ht', h⟩ := hagrees.of_ok
    obtain ⟨g₁', hrest, h⟩ := ih h hreplays
    exact ⟨g₁', ⟨t', ht', hrest⟩, h⟩

/-! ### Mask queries -/

/-- The probes that a mask query may make exceed no limit: that of `is_accepting` where the guide
is, and those of `is_live` after each token that is not rejected. -/
def ProbesFit (g : Guide) : Prop :=
  ∀ recognizer vocabulary, g.runtime = .structural recognizer → g.vocabulary = some vocabulary →
    recognizer.AcceptanceFits ∧ ∀ token bytes t, vocabulary.sharedBytes token = some bytes →
      recognizer.Consumes bytes t → t.LivenessFits

/-- The derived vocabulary of the guide has been built. -/
def VocabularyBuilt (g : Guide) : Prop :=
  ∀ derived, g.vocabulary = some derived →
    ∃ tokens limits, DerivedVocabulary.build tokens limits = .ok derived

end Guide

theorem MaskWalk.fits_of_probesFit {vocabulary : DerivedVocabulary} {tokens : Vocabulary}
    {limits : CompileLimits} {r : RecognizerState}
    (hbuild : DerivedVocabulary.build tokens limits = .ok vocabulary)
    (hfits : ∀ token bytes t, vocabulary.sharedBytes token = some bytes → r.Consumes bytes t →
      t.LivenessFits) : MaskWalk.Fits vocabulary.trie r := by
  have hspec := DerivedVocabulary.build_spec hbuild
  refine ⟨fun node hnode => ?_, fun bytes n node t hreaches hnode hids hconsumes => ?_⟩
  · obtain ⟨n, hn⟩ := List.getElem?_of_mem hnode
    exact DerivedVocabulary.ids_le_of_build hbuild hn
  · obtain ⟨token, hmem⟩ := List.exists_mem_of_ne_nil _ hids
    have hbytes := (hspec.mem_ids bytes n node hreaches hnode token).1 hmem
    exact hfits token bytes t ((hspec.sharedBytes_iff token bytes).2 hbytes) hconsumes

namespace MaskQuery

variable {higher : RuntimeLimits} {generation : ℕ} {q q' : MaskQuery}

/-- The second query is for the same mask, with higher limits. -/
structure Relaxed (higher : RuntimeLimits) (generation : ℕ) (q q' : MaskQuery) : Prop where
  guide : Guide.Relaxed higher generation q.guide q'.guide
  destination : q'.destination = q.destination

theorem follows_enable (token : ℕ) :
    Follows (fun _ => True) (Relaxed higher generation) (enable token) (enable token) := by
  refine follows_get_bind fun q q' h => ?_
  rw [h.destination]
  refine follows_bind (follows_require _ _) fun _ => follows_bind (follows_modify fun q q' h => ?_)
    fun _ => follows_modify fun q q' h => ⟨{ h.guide with }, h.destination⟩
  exact ⟨h.guide, congrArg (maskBit token) h.destination⟩

theorem agrees_walkOrClear {recognizer : RecognizerState} {vocabulary : DerivedVocabulary}
    (hruntime : q.guide.runtime = .structural recognizer) (haccept : recognizer.AcceptanceFits)
    (hfits : MaskWalk.Fits vocabulary.trie recognizer) (h : Relaxed higher generation q q') :
    Agrees (fun _ => True) (Relaxed higher generation) (walkOrClear recognizer vocabulary q)
      (walkOrClear (recognizer.relax higher generation) vocabulary q') := by
  have hcol := h.guide.column
  have hwithin := h.guide.within
  rw [hruntime] at hcol hwithin
  change recognizer.HasColumn at hcol
  change recognizer.limits.Within higher at hwithin
  unfold walkOrClear onWalk zoom
  rw [h.guide.limits_eq, h.destination]
  cases hwalk : fillStructuralMask vocabulary q.guide.limits
      ⟨recognizer, q.destination, q.guide.maskStats⟩ with
  | error e w => exact .stop trivial
  | ok u w =>
    have hwalks : MaskWalk.Relaxed higher generation ⟨recognizer, q.destination, q.guide.maskStats⟩
        ⟨recognizer.relax higher generation, q.destination, q'.guide.maskStats⟩ :=
      ⟨⟨hwithin, rfl⟩, rfl⟩
    have hback := (fillStructuralMask_spec vocabulary q.guide.limits
      (w := ⟨recognizer, q.destination, q.guide.maskStats⟩) hcol).1
    obtain ⟨w', hwalk', hrec, hdest⟩ :=
      relaxed_fillStructuralMask h.guide.limits hcol haccept hfits hwalks hwalk
    rw [hwalk, stateOf_ok] at hback
    rw [hwalk']
    refine .ok ⟨{ h.guide with column := ?_, within := hrec.1, runtime := ?_ }, hdest⟩
    · change w.recognizer.HasColumn
      rw [hback]
      exact hcol
    · exact congrArg GuideRuntime.structural hrec.2

theorem agrees_computeUnfinished (hbuilt : q.guide.VocabularyBuilt) (hfits : q.guide.ProbesFit)
    (h : Relaxed higher generation q q') :
    Agrees (fun _ => True) (Relaxed higher generation) (computeUnfinished q)
      (computeUnfinished q') := by
  unfold computeUnfinished compute
  rw [get_bind_apply, get_bind_apply, h.guide.finished]
  split
  · exact .ok h
  · rw [get_bind_apply, get_bind_apply, h.guide.runtime, h.guide.vocabulary]
    cases hruntime : q.guide.runtime with
    | dfa index state => exact follows_forM follows_enable _ q q' h
    | structural recognizer =>
      cases hvocabulary : q.guide.vocabulary with
      | none => exact .stop trivial
      | some vocabulary =>
        obtain ⟨tokens, limits, hbuild⟩ := hbuilt vocabulary hvocabulary
        obtain ⟨haccept, hlive⟩ := hfits recognizer vocabulary hruntime hvocabulary
        exact agrees_walkOrClear hruntime haccept (MaskWalk.fits_of_probesFit hbuild hlive) h

end MaskQuery

namespace Guide

variable {higher : RuntimeLimits} {generation : ℕ} {g g' : Guide} {destination mask : List ℕ}

/-- **A mask is the same under higher limits.** -/
theorem Relaxed.freshMask (h : Relaxed higher generation g g') (hbuilt : g.VocabularyBuilt)
    (hfits : g.ProbesFit) (hmask : g.freshMask destination = .ok mask) :
    g'.freshMask destination = .ok mask := by
  by_cases hlen : g.maskWords ≤ destination.length
  swap
  · rw [freshMask_of_lt hlen] at hmask
    cases hmask
  have hlen' : g'.maskWords ≤ destination.length := h.maskWords ▸ hlen
  unfold Guide.freshMask fillMask at hmask ⊢
  have hq := MaskQuery.fillMask_of_none (q := ⟨{ g with cachedMask := none }, destination⟩) hlen rfl
  have hq' := MaskQuery.fillMask_of_none
    (q := ⟨{ g' with cachedMask := none }, destination⟩) hlen' rfl
  rw [hq] at hmask
  rw [hq']
  have hstarted : MaskQuery.Relaxed higher generation
      (MaskQuery.started ⟨{ g with cachedMask := none }, destination⟩)
      (MaskQuery.started ⟨{ g' with cachedMask := none }, destination⟩) := ⟨{ h with }, rfl⟩
  have hremember : Follows (fun _ => True) (MaskQuery.Relaxed higher generation)
      MaskQuery.rememberMask MaskQuery.rememberMask :=
    follows_modify fun q q' h => ⟨{ h.guide with }, h.destination⟩
  have hagrees := agrees_bind (MaskQuery.agrees_computeUnfinished hbuilt hfits hstarted)
    fun _ => hremember
  generalize (MaskQuery.computeUnfinished >>= fun _ => MaskQuery.rememberMask) _ = x
    at hagrees hmask
  generalize (MaskQuery.computeUnfinished >>= fun _ => MaskQuery.rememberMask) _ = y at hagrees ⊢
  cases hagrees with
  | stop => cases hmask
  | ok h =>
    obtain rfl := Except.ok.inj hmask
    exact congrArg Except.ok h.destination
  | error => cases hmask

/-- **Guides made within some limits are made within higher ones.** -/
theorem fromCompiled_relaxed {compiled : CompiledSchema} {maxRollback generation : ℕ}
    {limits : RuntimeLimits} (hwithin : limits.Within higher)
    (h : fromCompiled compiled maxRollback limits generation = .ok g) (generation' : ℕ) :
    ∃ g', fromCompiled compiled maxRollback higher generation' = .ok g' ∧
      Relaxed higher generation' g g' ∧ g.VocabularyBuilt := by
  obtain ⟨_, hrollback, h⟩ := Result.bind_eq_ok.1 h
  have hrollback : validateRollbackLimit maxRollback higher = .ok () :=
    Result.require_eq_ok.2 ((Result.require_eq_ok.1 hrollback).trans hwithin.maxCheckpointHistory)
  split at h
  · next index hbackend =>
    have hg := Result.pure_eq_ok.1 h
    refine ⟨{ g with limits := higher }, Result.bind_eq_ok.2 ⟨(), hrollback, ?_⟩, ?_, ?_⟩
    · rw [hbackend, ← hg]
      rfl
    · subst hg
      exact ⟨trivial, trivial, hwithin, rfl, rfl, rfl, rfl, rfl, rfl, rfl⟩
    · subst hg
      exact nofun
  · next hnot =>
    obtain ⟨vocabulary, hvocabulary, h⟩ := Result.bind_eq_ok.1 h
    obtain ⟨recognizer, hrecognizer, h⟩ := Result.bind_eq_ok.1 h
    have hg := Result.pure_eq_ok.1 h
    obtain ⟨hlimits, hrelax⟩ := CompiledSchema.recognizer_relax hrecognizer hwithin generation'
    refine ⟨{ g with
      runtime := .structural (recognizer.relax higher generation')
      initial := .structural (recognizer.relax higher generation').checkpoint 0 0 false
      limits := higher }, Result.bind_eq_ok.2 ⟨(), hrollback, ?_⟩, ?_, ?_⟩
    · subst hg
      split
      · next index hbackend => exact absurd hbackend (hnot index)
      · exact Result.bind_eq_ok.2 ⟨vocabulary, hvocabulary, Result.bind_eq_ok.2 ⟨_, hrelax, rfl⟩⟩
    · subst hg
      refine ⟨?_, ?_, hwithin, rfl, rfl, rfl, rfl, rfl, rfl, rfl⟩
      · exact (CompiledSchema.fresh_of_recognizer hrecognizer).hasColumn
      · change recognizer.limits.Within higher
        rw [hlimits]
        exact hwithin
    · subst hg
      intro derived hderived
      obtain rfl := Option.some.inj hderived
      exact compiled.vocabulary_built vocabulary (Result.unwrap_eq_ok.1 hvocabulary)

end Guide

/-- **Limits only fail.**  Under higher limits a fresh recognizer consumes whatever it consumes
within its limits, and where no probe exceeds a limit it is accepting and live in the same cases; a
later chunk of bytes gets the same answer, or exceeds a limit.  So does a guide after any
operations: the guide with higher limits gets to where it is, and if the probes fit, every mask
that is filled is the same. -/
theorem limits_only_fail {limits unbounded : RuntimeLimits} (hwithin : limits.Within unbounded) :
    (∀ r : RecognizerState, r.Fresh → r.limits = limits → ∀ generation,
      (r.relax unbounded generation).Fresh ∧ ∀ x s, r.Consumes x s →
        ∃ s', (r.relax unbounded generation).Consumes x s' ∧
          (s.AcceptanceFits → s'.isAccepting = s.isAccepting) ∧
          (s.LivenessFits → s'.isLive = s.isLive) ∧
          ∀ bytes, (∀ t, s.Consumes bytes t → t.AcceptanceFits) →
            (∃ e : RuntimeError, e.IsLimit ∧
              valueOf (RecognizerState.tryAdvanceBytes bytes s) = .error e) ∨
            valueOf (RecognizerState.tryAdvanceBytes bytes s) =
              valueOf (RecognizerState.tryAdvanceBytes bytes s')) ∧
    ∀ compiled maxRollback generation g,
      Guide.fromCompiled compiled maxRollback limits generation = .ok g → ∀ generation',
      ∃ g', Guide.fromCompiled compiled maxRollback unbounded generation' = .ok g' ∧
        ∀ ops, ∃ h, g'.Replays (g.after ops).committedTokenIds h ∧
          ((g.after ops).ProbesFit → ∀ destination mask,
            valueOf (Guide.fillMask destination (g.after ops)) = .ok mask →
            valueOf (Guide.fillMask destination h) = .ok mask) := by
  refine ⟨?_, ?_⟩
  · rintro r hr rfl generation
    refine ⟨hr.relax hwithin generation, fun x s hs => ?_⟩
    have hlimits : s.limits.Within unbounded := hs.extends.limits_eq ▸ hwithin
    refine ⟨_, hs.relax hwithin, RecognizerState.isAccepting_relax hlimits,
      RecognizerState.isLive_relax hlimits, fun bytes hfits => ?_⟩
    exact (RecognizerState.advances_relax (hs.extends.hasColumn hr.hasColumn) hlimits).valueOf
      hlimits hfits
  · intro compiled maxRollback generation g hg generation'
    obtain ⟨g', hg', hrelaxed, hbuilt⟩ := Guide.fromCompiled_relaxed hwithin hg generation'
    refine ⟨g', hg', fun ops => ?_⟩
    have hstarted := (Guide.Fresh.fromCompiled hg).started
    have h := hstarted.replayed.after hstarted ops
    generalize g.after ops = after at h
    -- the tokens that are committed can be replayed, and so under the higher limits too
    obtain ⟨r, hr, hcore⟩ := h.replays
    obtain ⟨r', hr', hsame⟩ := hr.relaxed hrelaxed
    refine ⟨r', hr', fun hfits destination mask hmask => ?_⟩
    have hsound := hr.sound hstarted.toSound
    have hsound' := hr'.sound (Guide.Fresh.fromCompiled hg').started.toSound
    rw [Guide.valueOf_fillMask h.mask, Guide.freshMask_congr hcore hsound.fits] at hmask
    rw [Guide.valueOf_fillMask hsound'.mask]
    refine hsame.freshMask ?_ ?_ hmask
    · intro derived hderived
      exact hbuilt derived ((hr.ahead hstarted.column).vocabulary ▸ hderived)
    · intro recognizer vocabulary hruntime hvocabulary
      exact hfits recognizer vocabulary (hcore.runtime.trans hruntime)
        (hcore.vocabulary.trans hvocabulary)

/-! ### A limit that is not reported -/

namespace rightRecursive

/-- A recognizer with room for so many states. -/
def narrow (height : ℕ) : RecognizerState :=
  .lalr (rightRecursiveLalr.recognizer { RuntimeLimits.default with maxParseStack := height } 1)

/-- The recognizer after `a`. -/
def narrowAfter (height : ℕ) : RecognizerState :=
  stateOf (RecognizerState.advanceByte 97 (narrow height))

theorem within_narrow {height : ℕ} (h : height ≤ 1000000) :
    RuntimeLimits.Within { RuntimeLimits.default with maxParseStack := height } .default :=
  ⟨le_rfl, h, le_rfl, le_rfl, le_rfl, le_rfl, le_rfl, le_rfl, le_rfl, le_rfl⟩

theorem consumes_narrow {height : ℕ}
    (h : valueOf (RecognizerState.advanceByte 97 (narrow height)) = .ok true) :
    (narrow height).Consumes [97] (narrowAfter height) :=
  ⟨_, valueOf_eq_ok.1 h, rfl⟩

end rightRecursive

/-- After `a` the reduction of the empty rest exceeds a limit of two states: the recognizer answers
that it is not accepting, and the call that consumes `a` answers that it is live. -/
theorem acceptance_absorbs_limit :
    ¬ ∀ limits unbounded : RuntimeLimits, limits.Within unbounded → ∀ r : RecognizerState, r.Fresh →
      r.limits = limits → ∀ generation x s, r.Consumes x s →
        ∃ s', (r.relax unbounded generation).Consumes x s' ∧ s'.isAccepting = s.isAccepting ∧
          s'.isLive = s.isLive ∧ ∀ bytes,
            (∃ e : RuntimeError, e.IsLimit ∧
              valueOf (RecognizerState.tryAdvanceBytes bytes s) = .error e) ∨
            valueOf (RecognizerState.tryAdvanceBytes bytes s) =
              valueOf (RecognizerState.tryAdvanceBytes bytes s') := by
  intro hclaim
  have two_le : 2 ≤ 1000000 := by decide
  obtain ⟨s', hs', hacc, -, -⟩ := hclaim _ _ (rightRecursive.within_narrow two_le)
    (rightRecursive.narrow 2) (.lalr _ _ _) rfl 1 [97] _
    (rightRecursive.consumes_narrow (by decide +kernel))
  have hwide : (rightRecursive.narrow 1000000).Consumes [97] _ :=
    rightRecursive.consumes_narrow (by decide +kernel)
  obtain rfl := hwide.unique hs'
  revert hacc
  decide +kernel

theorem limits_only_fail_rightRecursive :
    ∃ s', (RecognizerState.relax .default 2 (rightRecursive.narrow 3)).Consumes [97] s' ∧
      s'.isAccepting = true := by
  have three_le : 3 ≤ 1000000 := by decide
  have h := ((limits_only_fail (rightRecursive.within_narrow three_le)).1
    (rightRecursive.narrow 3) (.lalr _ _ _) rfl 2).2 [97] _
    (rightRecursive.consumes_narrow (by decide +kernel))
  obtain ⟨s', hs', hacc, -⟩ := h
  have hyes : (rightRecursive.narrowAfter 3).isAccepting = true := by decide +kernel
  exact ⟨s', hs', (hacc (RecognizerState.acceptanceFits_of_isAccepting hyes)).trans hyes⟩

end OcEarley

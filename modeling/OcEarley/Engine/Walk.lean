import OcEarley.Engine.Guide
import OcEarley.Engine.Transaction
import OcEarley.Vocabulary.Trie

/-!
# The walk over the token trie

The walk moves one recognizer up and down the trie.  Three facts about it: on every path, the
failing ones included, the recognizer extends the one it started with, so its checkpoint can be
restored (`extends_fill`); a walk that succeeds has set exactly the bits of the tokens that it
finds (`fill_spec`); and the mask depends neither on the statistics nor on the room behind the
words of the vocabulary (`alike_fill`).
-/

namespace OcEarley

open Method

/-! ### Bits -/

/-- The bit of a token is set in a mask. -/
def BitSet (destination : List ℕ) (token : ℕ) : Prop :=
  ∃ word, destination[token / 32]? = some word ∧ word.testBit (token % 32) = true

theorem length_maskBit {token : ℕ} {destination : List ℕ} :
    (maskBit token destination).length = destination.length := by
  simp [maskBit]

theorem bitSet_replicate {n token : ℕ} : ¬ BitSet (List.replicate n 0) token := by
  rintro ⟨word, hword, hbit⟩
  obtain rfl := List.eq_of_mem_replicate (List.mem_of_getElem? hword)
  simp at hbit

theorem bitSet_maskBit {token other : ℕ} {destination : List ℕ} :
    BitSet (maskBit token destination) other ↔
      BitSet destination other ∨ other = token ∧ token / 32 < destination.length := by
  unfold BitSet maskBit
  by_cases hword : token / 32 = other / 32
  · have hbit : token % 32 = other % 32 ↔ other = token := by omega
    rw [hword, List.getElem?_modify_eq]
    cases hget : destination[other / 32]? with
    | none =>
      have := List.getElem?_eq_none_iff.1 hget
      simp
      omega
    | some word =>
      have hlt := (List.getElem?_eq_some_iff.1 hget).1
      simp [Nat.testBit_or, Nat.one_shiftLeft, Nat.testBit_two_pow, hbit, hlt]
  · have hne : other ≠ token := by
      rintro rfl
      exact hword rfl
    rw [List.getElem?_modify_ne _ _ hword]
    simp [hne]

namespace RecognizerState

variable {t u : RecognizerState} {bytes : List UInt8}

/-- A chunk that is rejected cannot be consumed. -/
theorem not_consumes_of_rejected {s : RecognizerState}
    (h : tryAdvanceBytes bytes t = .ok .rejected s) : ¬ t.Consumes bytes u := by
  intro hu
  rw [tryAdvanceBytes_of_consumes hu] at h
  exact u.outcome_ne_rejected (EStateM.Result.ok.inj h).1

end RecognizerState

namespace MaskWalk

variable {trie : TokenTrie} {limits : RuntimeLimits} {w w' : MaskWalk} {t : RecognizerState}

/-! ### The pieces of the walk -/

/-- The recognizer is untouched. -/
def SameRecognizer (w w' : MaskWalk) : Prop := w'.recognizer = w.recognizer

instance : Std.Refl SameRecognizer := ⟨fun _ => rfl⟩

instance : IsTrans MaskWalk SameRecognizer := ⟨fun _ _ _ h h' => Eq.trans h' h⟩

theorem moves_enable (token : ℕ) : Moves SameRecognizer (enable token) :=
  moves_bind (moves_bind moves_get fun _ => moves_bind (moves_require _) fun _ =>
    moves_modify fun _ => rfl) fun _ => moves_modify fun _ => rfl

theorem moves_emit (node : TrieNode) : Moves SameRecognizer (emit trie node) := by
  refine moves_bind moves_get fun self => ?_
  split
  · exact moves_bind (moves_require _) fun _ => moves_forM moves_enable _
  · exact moves_pure _

theorem modifyStats_eq_ok (w : MaskWalk) (f : MaskStats → MaskStats) :
    ∃ w', modifyStats f w = .ok () w' ∧ w'.recognizer = w.recognizer ∧
      w'.destination = w.destination :=
  ⟨_, rfl, rfl, rfl⟩

theorem enable_eq_ok {token : ℕ} {u : Unit} (h : enable token w = .ok u w') :
    token / 32 < w.destination.length ∧ w'.destination = maskBit token w.destination := by
  simp only [enable, setMaskBit, modifyStats, bind_eq_ok, get_eq_ok, require_eq_ok,
    modify_eq_ok] at h
  obtain ⟨_, _, ⟨_, _, ⟨rfl, rfl⟩, _, _, ⟨hlt, rfl⟩, rfl⟩, rfl⟩ := h
  exact ⟨hlt, rfl⟩

theorem enableAll_eq_ok {tokens : List ℕ} {u : PUnit} (h : tokens.forM enable w = .ok u w') :
    ∀ v, BitSet w'.destination v ↔ BitSet w.destination v ∨ v ∈ tokens := by
  induction tokens generalizing w with
  | nil =>
    obtain ⟨-, rfl⟩ := pure_eq_ok.1 h
    simp
  | cons token tokens ih =>
    obtain ⟨_, w₁, h₁, h⟩ := bind_eq_ok.1 h
    obtain ⟨hlt, hdest⟩ := enable_eq_ok h₁
    intro v
    rw [ih h v, hdest, bitSet_maskBit, List.mem_cons, or_assoc]
    simp [hlt]

theorem emit_eq_ok {node : TrieNode} {u : Unit} (h : emit trie node w = .ok u w') :
    ∀ v, BitSet w'.destination v ↔
      BitSet w.destination v ∨ w.recognizer.isLive = true ∧ v ∈ trie.idsOf node := by
  obtain ⟨_, _, hget, hrest⟩ := bind_eq_ok.1 h
  obtain ⟨rfl, rfl⟩ := get_eq_ok.1 hget
  split at hrest
  · next hlive =>
    obtain ⟨_, _, hreq, hall⟩ := bind_eq_ok.1 hrest
    obtain ⟨-, rfl⟩ := require_eq_ok.1 hreq
    have hbits := enableAll_eq_ok hall
    unfold TokenTrie.idsOf
    simpa only [hlive, true_and] using hbits
  · next hlive =>
    obtain ⟨-, rfl⟩ := pure_eq_ok.1 hrest
    simp [hlive]

theorem onRecognizer_eq_ok {α : Type} {m : Method RuntimeError RecognizerState α} {a : α}
    (h : m w.recognizer = .ok a t) : onRecognizer m w = .ok a { w with recognizer := t } :=
  zoom_eq_ok h

theorem onRecognizer_eq_error {α : Type} {m : Method RuntimeError RecognizerState α}
    {e : RuntimeError} (h : m w.recognizer = .error e t) :
    onRecognizer m w = .error e { w with recognizer := t } :=
  zoom_eq_error h

/-- A checkpoint is restored wherever its recognizer has been extended to. -/
theorem restore_eq_ok (ht : t.HasColumn) (hext : t.Extends w.recognizer) :
    onRecognizer (RecognizerState.restore t.checkpoint) w = .ok () { w with recognizer := t } :=
  onRecognizer_eq_ok (RecognizerState.restore_of_extends ht hext)

/-- What visiting an edge does. -/
inductive Descends (trie : TokenTrie) (t : RecognizerState) (frame : TrieFrame) (node : TrieNode)
    (w : MaskWalk) : EStateM.Result RuntimeError MaskWalk (Option TrieFrame) → Prop
  | error {e : RuntimeError} {w' : MaskWalk} (hext : t.Extends w'.recognizer) :
    Descends trie t frame node w (.error e w')
  | rejected {edge : TrieEdge} {w' : MaskWalk}
    (hedge : trie.edges[node.edgeStart + frame.nextEdge]? = some edge)
    (hrec : w'.recognizer = t) (hdest : w'.destination = w.destination)
    (hnot : ∀ u, ¬ t.Consumes [edge.byte] u) : Descends trie t frame node w (.ok none w')
  | child {edge : TrieEdge} {u : RecognizerState} {w' : MaskWalk}
    (hedge : trie.edges[node.edgeStart + frame.nextEdge]? = some edge)
    (hrec : w'.recognizer = u) (hdest : w'.destination = w.destination)
    (hu : t.Consumes [edge.byte] u) :
    Descends trie t frame node w (.ok (some ⟨edge.child, 0, false, u.checkpoint⟩) w')

theorem Descends.extends {frame : TrieFrame} {node : TrieNode}
    {result : EStateM.Result RuntimeError MaskWalk (Option TrieFrame)}
    (h : Descends trie t frame node w result) : t.Extends (stateOf result).recognizer := by
  cases h with
  | error hext => exact hext
  | rejected hedge hrec hdest hnot =>
    rw [stateOf_ok, hrec]
    exact .refl t
  | child hedge hrec hdest hu =>
    rw [stateOf_ok, hrec]
    exact hu.extends

section Edge

variable {visited : ℕ} {frame : TrieFrame} {node : TrieNode} {edge : TrieEdge}
  {u : RecognizerState} (hedge : trie.edges[node.edgeStart + frame.nextEdge]? = some edge)
  (hlimit : saturatingAdd visited 1 ≤ limits.maxMaskTrieEdges) (ht : t.HasColumn)
  (hframe : frame.checkpoint = t.checkpoint) (hext : t.Extends w.recognizer)
include hedge hlimit ht hframe hext

/-- The recognizer is the one of the frame again when it tries the byte. -/
theorem descend_apply : ∃ w₁ : MaskWalk, w₁.recognizer = t ∧ w₁.destination = w.destination ∧
    descend trie limits visited frame node w =
      (onRecognizer (RecognizerState.tryAdvanceBytes [edge.byte]) >>= fun advance =>
        if advance = .rejected then do
          modifyStats fun stats =>
            { stats with trieEdgesPruned := saturatingAdd stats.trieEdgesPruned 1 }
          pure none
        else do
          let self ← get
          pure (some ⟨edge.child, 0, false, self.recognizer.checkpoint⟩)) w₁ := by
  obtain ⟨w₁, hstats, hrec, hdest⟩ := modifyStats_eq_ok w fun stats =>
    { stats with trieEdgesVisited := saturatingAdd stats.trieEdgesVisited 1 }
  refine ⟨{ w₁ with recognizer := t }, rfl, hdest, ?_⟩
  unfold descend enforceRuntimeLimit
  rw [bind_of_ok (unwrap_eq_ok.2 ⟨hedge, rfl⟩), bind_of_ok (require_of hlimit), bind_of_ok hstats,
    hframe, bind_of_ok (restore_eq_ok ht (hrec ▸ hext))]

theorem descend_of_consumes (hu : t.Consumes [edge.byte] u) : ∃ w₁ : MaskWalk,
    w₁.recognizer = u ∧ w₁.destination = w.destination ∧
      descend trie limits visited frame node w =
        .ok (some ⟨edge.child, 0, false, u.checkpoint⟩) w₁ := by
  obtain ⟨w₁, rfl, hdest, happly⟩ := descend_apply hedge hlimit ht hframe hext
  refine ⟨{ w₁ with recognizer := u }, rfl, hdest, ?_⟩
  rw [happly, bind_of_ok (onRecognizer_eq_ok (RecognizerState.tryAdvanceBytes_of_consumes hu)),
    if_neg u.outcome_ne_rejected]
  rfl

theorem descend_of_rejected
    (hrejected : RecognizerState.tryAdvanceBytes [edge.byte] t = .ok .rejected t) :
    ∃ w₁ : MaskWalk, w₁.recognizer = t ∧ w₁.destination = w.destination ∧
      descend trie limits visited frame node w = .ok none w₁ := by
  obtain ⟨w₁, rfl, hdest, happly⟩ := descend_apply hedge hlimit ht hframe hext
  obtain ⟨w₂, hstats, hrec₂, hdest₂⟩ := modifyStats_eq_ok w₁ fun stats =>
    { stats with trieEdgesPruned := saturatingAdd stats.trieEdgesPruned 1 }
  refine ⟨w₂, hrec₂, hdest₂.trans hdest, ?_⟩
  rw [happly, bind_of_ok (onRecognizer_eq_ok hrejected), if_pos rfl, bind_of_ok hstats]
  rfl

theorem descend_of_error {e : RuntimeError}
    (herror : RecognizerState.tryAdvanceBytes [edge.byte] t = .error e t) :
    ∃ w₁ : MaskWalk, w₁.recognizer = t ∧
      descend trie limits visited frame node w = .error e w₁ := by
  obtain ⟨w₁, rfl, -, happly⟩ := descend_apply hedge hlimit ht hframe hext
  refine ⟨w₁, rfl, ?_⟩
  rw [happly, bind_of_error (onRecognizer_eq_error herror)]

end Edge

theorem descend_spec (trie : TokenTrie) (limits : RuntimeLimits) (visited : ℕ) {frame : TrieFrame}
    (node : TrieNode) (ht : t.HasColumn)
    (hframe : frame.checkpoint = t.checkpoint) (hext : t.Extends w.recognizer) :
    Descends trie t frame node w (descend trie limits visited frame node w) := by
  cases hedge : trie.edges[node.edgeStart + frame.nextEdge]? with
  | none =>
    unfold descend
    rw [hedge]
    exact .error hext
  | some edge =>
    by_cases hlimit : saturatingAdd visited 1 ≤ limits.maxMaskTrieEdges
    · rcases RecognizerState.tryAdvanceBytes_spec ht [edge.byte] with ⟨u, hu⟩ | hrej | ⟨e, herr⟩
      · obtain ⟨w₁, hrec, hdest, hok⟩ := descend_of_consumes hedge hlimit ht hframe hext hu
        rw [hok]
        exact .child hedge hrec hdest hu
      · obtain ⟨w₁, hrec, hdest, hok⟩ := descend_of_rejected hedge hlimit ht hframe hext hrej
        rw [hok]
        exact .rejected hedge hrec hdest fun u => RecognizerState.not_consumes_of_rejected hrej
      · obtain ⟨w₁, hrec, herror⟩ := descend_of_error hedge hlimit ht hframe hext herr
        rw [herror]
        exact .error (hrec ▸ .refl t)
    · unfold descend enforceRuntimeLimit
      rw [bind_of_ok (unwrap_eq_ok.2 ⟨hedge, rfl⟩), bind_of_error (require_of_not hlimit)]
      exact .error hext

/-! ### The loop -/

/-- The tokens found from a node on, with the recognizer that the bytes so far have led to. -/
inductive Finds (trie : TokenTrie) : RecognizerState → ℕ → ℕ → Prop
  | here {t : RecognizerState} {n v : ℕ} {node : TrieNode} (hnode : trie.nodes[n]? = some node)
    (hlive : t.isLive = true) (hv : v ∈ trie.idsOf node) : Finds trie t n v
  | edge {t u : RecognizerState} {n v i : ℕ} {node : TrieNode} {edge : TrieEdge}
    (hnode : trie.nodes[n]? = some node) (hi : i < node.edgeLen)
    (hedge : trie.edges[node.edgeStart + i]? = some edge) (hu : t.Consumes [edge.byte] u)
    (hv : Finds trie u edge.child v) : Finds trie t n v

/-- The tokens still to be found from a frame. -/
inductive Outstanding (trie : TokenTrie) (t : RecognizerState) (frame : TrieFrame) (v : ℕ) : Prop
  | here {node : TrieNode} (hnode : trie.nodes[frame.node]? = some node)
    (hemitted : frame.emitted = false) (hlive : t.isLive = true) (hv : v ∈ trie.idsOf node)
  | edge {u : RecognizerState} {i : ℕ} {node : TrieNode} {edge : TrieEdge}
    (hnode : trie.nodes[frame.node]? = some node) (hnext : frame.nextEdge ≤ i)
    (hi : i < node.edgeLen) (hedge : trie.edges[node.edgeStart + i]? = some edge)
    (hu : t.Consumes [edge.byte] u) (hv : Finds trie u edge.child v)

/-- The stack of frames, each with the recognizer of its checkpoint; all of them go back to `r`, and
`s` is the recognizer now. -/
inductive Stacked (r : RecognizerState) :
    RecognizerState → List TrieFrame → List RecognizerState → Prop
  | nil {s : RecognizerState} (h : r.Extends s) : Stacked r s [] []
  | cons {s t : RecognizerState} {frame : TrieFrame} {stack : List TrieFrame}
    {states : List RecognizerState} (ht : t.HasColumn) (hframe : frame.checkpoint = t.checkpoint)
    (hext : t.Extends s) (hbelow : ∀ f ∈ stack, f.emitted = true)
    (hrest : Stacked r t stack states) : Stacked r s (frame :: stack) (t :: states)

/-- A new frame is still to be emitted. -/
def TopFresh (s : RecognizerState) : List TrieFrame → List RecognizerState → Prop
  | frame :: _, t :: _ => frame.emitted = false → s = t
  | _, _ => True

variable {r s : RecognizerState} {stack : List TrieFrame} {states : List RecognizerState}
  {frame : TrieFrame}

theorem Stacked.mono (h : Stacked r s stack states) (hext : s.Extends t) :
    Stacked r t stack states := by
  cases h with
  | nil h => exact .nil (h.trans hext)
  | cons ht hframe h hbelow hrest => exact .cons ht hframe (h.trans hext) hbelow hrest

theorem Stacked.extends (h : Stacked r s stack states) : r.Extends s := by
  induction h with
  | nil h => exact h
  | cons ht hframe hext hbelow hrest ih => exact ih.trans hext

theorem topFresh_of_emitted (h : ∀ f ∈ stack, f.emitted = true) : TopFresh s stack states := by
  cases stack with
  | nil => trivial
  | cons frame stack =>
    cases states with
    | nil => trivial
    | cons t states =>
      intro hfresh
      rw [h frame List.mem_cons_self] at hfresh
      cases hfresh

/-- The tokens found from a fresh frame are those found from its node. -/
theorem outstanding_fresh {n v : ℕ} {checkpoint : RecognizerCheckpoint} :
    Outstanding trie t ⟨n, 0, false, checkpoint⟩ v ↔ Finds trie t n v := by
  constructor
  · rintro (⟨hnode, -, hlive, hv⟩ | ⟨hnode, -, hi, hedge, hu, hv⟩)
    · exact .here hnode hlive hv
    · exact .edge hnode hi hedge hu hv
  · rintro (⟨hnode, hlive, hv⟩ | ⟨hnode, hi, hedge, hu, hv⟩)
    · exact .here hnode rfl hlive hv
    · exact .edge hnode (Nat.zero_le _) hi hedge hu hv

/-- Emitting a frame and stepping to its edge `i`. -/
theorem outstanding_step {node : TrieNode} {edge : TrieEdge} {v : ℕ}
    (hnode : trie.nodes[frame.node]? = some node) (hlt : frame.nextEdge < node.edgeLen)
    (hedge : trie.edges[node.edgeStart + frame.nextEdge]? = some edge) :
    Outstanding trie t frame v ↔
      (frame.emitted = false ∧ t.isLive = true ∧ v ∈ trie.idsOf node) ∨
      (∃ u, t.Consumes [edge.byte] u ∧ Finds trie u edge.child v) ∨
      Outstanding trie t { frame with emitted := true, nextEdge := frame.nextEdge + 1 } v := by
  constructor
  · rintro (⟨hnode', hemitted, hlive, hv⟩ | @⟨u, i, node', edge', hnode', hnext, hi,
      hedge', hu, hv⟩)
    · obtain rfl := Option.some.inj (hnode.symm.trans hnode')
      exact .inl ⟨hemitted, hlive, hv⟩
    · obtain rfl := Option.some.inj (hnode.symm.trans hnode')
      rcases hnext.eq_or_lt with rfl | hnext
      · obtain rfl := Option.some.inj (hedge.symm.trans hedge')
        exact .inr (.inl ⟨u, hu, hv⟩)
      · exact .inr (.inr (.edge hnode' hnext hi hedge' hu hv))
  · rintro (⟨hemitted, hlive, hv⟩ | ⟨u, hu, hv⟩ | ⟨hnode', hemitted, -, -⟩ |
      ⟨hnode', hnext, hi, hedge', hu, hv⟩)
    · exact .here hnode hemitted hlive hv
    · exact .edge hnode le_rfl hlt hedge hu hv
    · cases hemitted
    · exact .edge hnode' (Nat.le_of_succ_le hnext) hi hedge' hu hv

/-- A frame without further edges. -/
theorem outstanding_last {node : TrieNode} {v : ℕ} (hnode : trie.nodes[frame.node]? = some node)
    (hle : node.edgeLen ≤ frame.nextEdge) :
    Outstanding trie t frame v ↔
      frame.emitted = false ∧ t.isLive = true ∧ v ∈ trie.idsOf node := by
  constructor
  · rintro (⟨hnode', hemitted, hlive, hv⟩ | ⟨hnode', hnext, hi, hedge', hu, hv⟩)
    · obtain rfl := Option.some.inj (hnode.symm.trans hnode')
      exact ⟨hemitted, hlive, hv⟩
    · obtain rfl := Option.some.inj (hnode.symm.trans hnode')
      omega
  · rintro ⟨hemitted, hlive, hv⟩
    exact .here hnode hemitted hlive hv

/-- The tokens still to be found from a stack. -/
def OutstandingIn (trie : TokenTrie) (stack : List TrieFrame) (states : List RecognizerState)
    (v : ℕ) : Prop :=
  ∃ p ∈ states.zip stack, Outstanding trie p.1 p.2 v

theorem outstandingIn_cons {v : ℕ} :
    OutstandingIn trie (frame :: stack) (t :: states) v ↔
      Outstanding trie t frame v ∨ OutstandingIn trie stack states v := by
  simp [OutstandingIn]

theorem moves_emitFrame (node : TrieNode) : Moves SameRecognizer (emitFrame trie frame node) := by
  unfold emitFrame
  split
  · exact moves_pure _
  · exact moves_emit node

theorem emitFrame_eq_ok {node : TrieNode} {u : Unit} (htop : frame.emitted = false →
    w.recognizer = t) (h : emitFrame trie frame node w = .ok u w') :
    ∀ v, BitSet w'.destination v ↔ BitSet w.destination v ∨
      frame.emitted = false ∧ t.isLive = true ∧ v ∈ trie.idsOf node := by
  unfold emitFrame at h
  intro v
  split at h
  · next hemitted =>
    obtain ⟨-, rfl⟩ := pure_eq_ok.1 h
    simp [hemitted]
  · next hemitted =>
    have hemitted := Bool.eq_false_iff.2 hemitted
    rw [emit_eq_ok h v, htop hemitted]
    simp [hemitted]

/-- The recognizer can still go back to `r`, and a successful result satisfies `P`. -/
def Visits {α : Type} (r : RecognizerState) (P : MaskWalk → Prop)
    (result : EStateM.Result RuntimeError MaskWalk α) : Prop :=
  r.Extends (stateOf result).recognizer ∧ ∀ a w', result = .ok a w' → P w'

theorem visits_bind {α β : Type} {P : MaskWalk → Prop} {m : Method RuntimeError MaskWalk α}
    {f : α → Method RuntimeError MaskWalk β} (hm : r.Extends (stateOf (m w)).recognizer)
    (hf : ∀ a w', m w = .ok a w' → Visits r P (f a w')) : Visits r P ((m >>= f) w) := by
  cases hms : m w with
  | ok a w' =>
    rw [bind_of_ok hms]
    exact hf a w' hms
  | error e w' =>
    rw [bind_of_error hms]
    rw [hms] at hm
    exact ⟨hm, fun _ _ h => nomatch h⟩

theorem visits_of_moves {α β : Type} {P : MaskWalk → Prop} {m : Method RuntimeError MaskWalk α}
    {f : α → Method RuntimeError MaskWalk β} (hm : Moves SameRecognizer m)
    (hr : r.Extends w.recognizer)
    (hf : ∀ a w', m w = .ok a w' → w'.recognizer = w.recognizer → Visits r P (f a w')) :
    Visits r P ((m >>= f) w) := by
  have hsame := hm w
  refine visits_bind ?_ fun a w' h => hf a w' h ?_
  · rw [hsame]
    exact hr
  · rw [h] at hsame
    exact hsame

/-- **The loop over the stack.** -/
theorem loop_spec (trie : TokenTrie) (limits : RuntimeLimits) (fuel visited : ℕ)
    {stack : List TrieFrame}
    {states : List RecognizerState} {w : MaskWalk} (hstack : Stacked r w.recognizer stack states)
    (htop : TopFresh w.recognizer stack states) :
    Visits r
      (fun w' => ∀ v, BitSet w'.destination v ↔
        BitSet w.destination v ∨ OutstandingIn trie stack states v)
      (loop trie limits fuel visited stack w) := by
  induction fuel generalizing visited stack states w with
  | zero =>
    cases hstack with
    | nil h =>
      refine ⟨h, fun u w' hok v => ?_⟩
      obtain ⟨-, rfl⟩ := pure_eq_ok.1 hok
      simp [OutstandingIn]
    | cons ht hframe hext hbelow hrest => exact ⟨hrest.extends.trans hext, fun _ _ h => nomatch h⟩
  | succ fuel ih =>
    cases hstack with
    | nil h =>
      refine ⟨h, fun u w' hok v => ?_⟩
      obtain ⟨-, rfl⟩ := pure_eq_ok.1 hok
      simp [OutstandingIn]
    | @cons _ t frame stack states ht hframe hext hbelow hrest =>
      have hr := hrest.extends.trans hext
      obtain ⟨w₁, hstats, hrec₁, hdest₁⟩ := modifyStats_eq_ok w fun stats =>
        { stats with peakStackDepth := max stats.peakStackDepth (stack.length + 1) }
      rw [loop, bind_of_ok hstats]
      refine visits_of_moves (moves_unwrap _ _) (hrec₁ ▸ hr) fun node w₂ hget hrec₂ => ?_
      obtain ⟨hnode, rfl⟩ := unwrap_eq_ok.1 hget
      refine visits_of_moves (moves_emitFrame node) (hrec₁ ▸ hr) fun u w₃ hok hrec₃ => ?_
      have hbits := emitFrame_eq_ok (fun h => hrec₁.trans (htop h)) hok
      have hext₃ : t.Extends w₃.recognizer := by rwa [hrec₃, hrec₁]
      rw [hdest₁] at hbits
      split
      · next hle =>
        -- the frame is done, and the recognizer goes back to where it was
        rw [hframe, bind_of_ok (restore_eq_ok ht hext₃)]
        obtain ⟨hback, hrun⟩ := ih visited (w := { w₃ with recognizer := t }) hrest
          (topFresh_of_emitted hbelow)
        refine ⟨hback, fun u w' hok v => ?_⟩
        rw [hrun u w' hok v, hbits v, outstandingIn_cons, outstanding_last hnode hle, or_assoc]
      · next hlt =>
        have hlt := Nat.lt_of_not_le hlt
        have hdesc := descend_spec trie limits visited node ht hframe hext₃
        generalize hres : descend trie limits visited frame node w₃ = result at hdesc
        refine visits_bind ?_ fun child w₄ hchild => ?_
        · rw [hres]
          exact hrest.extends.trans hdesc.extends
        · rw [hres] at hchild
          subst hchild
          cases hdesc with
          | @rejected edge _ hedge hrec hdest hnot =>
            have hstack : Stacked r w₄.recognizer
                ({ frame with emitted := true, nextEdge := frame.nextEdge + 1 } :: stack)
                (t :: states) := .cons ht hframe (hrec ▸ .refl t) hbelow hrest
            obtain ⟨hback, hrun⟩ := ih (saturatingAdd visited 1) hstack nofun
            refine ⟨hback, fun u w' hok v => ?_⟩
            rw [hrun u w' hok v, hdest, hbits v, outstandingIn_cons, outstandingIn_cons,
              outstanding_step hnode hlt hedge]
            have hnone : ¬ ∃ u, t.Consumes [edge.byte] u ∧ Finds trie u edge.child v :=
              fun ⟨u, hu, _⟩ => hnot u hu
            tauto
          | @child edge u _ hedge hrec hdest hu =>
            have hstack : Stacked r w₄.recognizer
                (⟨edge.child, 0, false, u.checkpoint⟩ ::
                  { frame with emitted := true, nextEdge := frame.nextEdge + 1 } :: stack)
                (u :: t :: states) := by
              refine .cons (hu.extends.hasColumn ht) rfl (hrec ▸ .refl u) ?_
                (.cons ht hframe hu.extends hbelow hrest)
              rintro f (_ | ⟨_, hf⟩)
              · rfl
              · exact hbelow f hf
            obtain ⟨hback, hrun⟩ := ih (saturatingAdd visited 1) hstack fun _ => hrec
            refine ⟨hback, fun _ w' hok v => ?_⟩
            rw [hrun _ w' hok v, hdest, hbits v, outstandingIn_cons, outstandingIn_cons,
              outstandingIn_cons, outstanding_fresh, outstanding_step hnode hlt hedge]
            have hunique : (∃ u, t.Consumes [edge.byte] u ∧ Finds trie u edge.child v) ↔
                Finds trie u edge.child v :=
              ⟨fun ⟨u', hu', hv⟩ => hu.unique hu' ▸ hv, fun hv => ⟨u, hu, hv⟩⟩
            rw [hunique]
            tauto

/-! ### The whole walk -/

theorem enableEos_eq_ok {vocabulary : DerivedVocabulary} {u : Unit}
    (h : enableEos vocabulary w = .ok u w') :
    ∀ v, BitSet w'.destination v ↔ BitSet w.destination v ∨
      w.recognizer.isAccepting = true ∧ v = vocabulary.eosTokenId := by
  obtain ⟨_, _, hget, hrest⟩ := bind_eq_ok.1 h
  obtain ⟨rfl, rfl⟩ := get_eq_ok.1 hget
  intro v
  split at hrest
  · next haccepting =>
    obtain ⟨hlt, hdest⟩ := enable_eq_ok hrest
    rw [hdest, bitSet_maskBit]
    simp [haccepting, hlt]
  · next haccepting =>
    obtain ⟨-, rfl⟩ := pure_eq_ok.1 hrest
    simp [haccepting]

theorem moves_enableEos (vocabulary : DerivedVocabulary) :
    Moves SameRecognizer (enableEos vocabulary) := by
  refine moves_bind moves_get fun self => ?_
  split
  · exact moves_enable _
  · exact moves_pure _

theorem fill_spec (vocabulary : DerivedVocabulary) (limits : RuntimeLimits)
    (hcol : w.recognizer.HasColumn) :
    Visits w.recognizer
      (fun w' => ∀ v, BitSet w'.destination v ↔
        BitSet w.destination v ∨ (w.recognizer.isAccepting = true ∧ v = vocabulary.eosTokenId) ∨
          Finds vocabulary.trie w.recognizer 0 v)
      (fill vocabulary limits w) := by
  refine visits_of_moves moves_get (.refl _) fun self w₁ hget _ => ?_
  obtain ⟨rfl, rfl⟩ := get_eq_ok.1 hget
  refine visits_of_moves (moves_enableEos vocabulary) (.refl _) fun u w₂ heos hrec => ?_
  have hstack : Stacked w₁.recognizer w₂.recognizer
      [⟨0, 0, false, w₁.recognizer.checkpoint⟩] [w₁.recognizer] :=
    .cons hcol rfl (hrec ▸ .refl _) (fun _ h => absurd h List.not_mem_nil) (.nil (.refl _))
  obtain ⟨hback, hrun⟩ := loop_spec vocabulary.trie limits
    (2 * limits.maxMaskTrieEdges + 2) 0 hstack fun _ => hrec
  refine ⟨hback, fun u w' hok v => ?_⟩
  rw [hrun u w' hok v, enableEos_eq_ok heos v, outstandingIn_cons, outstanding_fresh, or_assoc]
  simp [OutstandingIn]

/-! ### The room behind the words of the vocabulary -/

section Room

variable {k a b : ℕ}

/-- The walks are at the same recognizer with the same first `k` words, and the words behind them
are zero. -/
def SameWords (k a b : ℕ) (w w' : MaskWalk) : Prop :=
  w.recognizer = w'.recognizer ∧ ∃ words : List ℕ, words.length = k ∧
    w.destination = words ++ List.replicate a 0 ∧ w'.destination = words ++ List.replicate b 0

theorem maskBit_append {token : ℕ} {xs ys : List ℕ} (h : token / 32 < xs.length) :
    maskBit token (xs ++ ys) = maskBit token xs ++ ys := by
  unfold maskBit
  refine List.ext_getElem? fun i => ?_
  rw [List.getElem?_modify]
  by_cases hi : i < xs.length
  · rw [List.getElem?_append_left hi, List.getElem?_append_left (by simpa using hi),
      List.getElem?_modify]
  · have hle : xs.length ≤ i := Nat.le_of_not_lt hi
    have hne : token / 32 ≠ i := by omega
    rw [List.getElem?_append_right hle, List.getElem?_append_right (by simpa using hle)]
    simp [hne]

theorem alike_modifyStats (f g : MaskStats → MaskStats) (h : SameWords k a b w w') :
    Alike (SameWords k a b) (modifyStats f w) (modifyStats g w') :=
  alike_modify h

theorem alike_enable {token : ℕ} (htoken : token / 32 < k) (h : SameWords k a b w w') :
    Alike (SameWords k a b) (enable token w) (enable token w') := by
  refine alike_bind ?_ fun _ _ _ h => alike_modifyStats _ _ h
  obtain ⟨hrec, words, hlen, hw, hw'⟩ := h
  have hlt : token / 32 < w.destination.length := by
    rw [hw, List.length_append]
    omega
  have hlt' : token / 32 < w'.destination.length := by
    rw [hw', List.length_append]
    omega
  refine alike_get_bind (alike_bind (alike_require ⟨fun _ => hlt', fun _ => hlt⟩
    ⟨hrec, words, hlen, hw, hw'⟩) ?_)
  rintro _ w₁ w₁' ⟨hrec, words, hlen, hw, hw'⟩
  refine alike_modify ⟨hrec, maskBit token words, length_maskBit.trans hlen, ?_, ?_⟩
  · change maskBit token w₁.destination = _
    rw [hw, maskBit_append (hlen ▸ htoken)]
  · change maskBit token w₁'.destination = _
    rw [hw', maskBit_append (hlen ▸ htoken)]

theorem alike_emitFrame (hids : ∀ id ∈ trie.terminalIds, id / 32 < k) (frame : TrieFrame)
    (node : TrieNode) (h : SameWords k a b w w') :
    Alike (SameWords k a b) (emitFrame trie frame node w) (emitFrame trie frame node w') := by
  unfold emitFrame
  split
  · exact alike_pure h
  · refine alike_get_bind ?_
    rw [h.1]
    split
    · refine alike_bind (alike_require Iff.rfl h) fun _ _ _ h => alike_forM ?_ h
      intro token htoken w w' h
      exact alike_enable (hids token (List.mem_of_mem_drop (List.mem_of_mem_take htoken))) h
    · exact alike_pure h

theorem alike_onRecognizer {α : Type} (m : Method RuntimeError RecognizerState α)
    (h : SameWords k a b w w') :
    Alike (SameWords k a b) (onRecognizer m w) (onRecognizer m w') := by
  unfold onRecognizer zoom
  rw [h.1]
  cases m w'.recognizer with
  | ok v s => exact .ok ⟨rfl, h.2⟩
  | error e s => exact .error ⟨rfl, h.2⟩

theorem alike_descend (limits : RuntimeLimits) (visited : ℕ) (frame : TrieFrame) (node : TrieNode)
    (h : SameWords k a b w w') :
    Alike (SameWords k a b) (descend trie limits visited frame node w)
      (descend trie limits visited frame node w') := by
  refine alike_bind (alike_unwrap h) fun edge _ _ h =>
    alike_bind (alike_require Iff.rfl h) fun _ _ _ h =>
      alike_bind (alike_modifyStats _ _ h) fun _ _ _ h =>
        alike_bind (alike_onRecognizer _ h) fun _ _ _ h =>
          alike_bind (alike_onRecognizer _ h) fun advance _ _ h => ?_
  split
  · exact alike_bind (alike_modifyStats _ _ h) fun _ _ _ h => alike_pure h
  · refine alike_get_bind ?_
    rw [h.1]
    exact alike_pure h

theorem alike_loop (hids : ∀ id ∈ trie.terminalIds, id / 32 < k) (limits : RuntimeLimits)
    (fuel visited : ℕ) (stack : List TrieFrame) {w w' : MaskWalk} (h : SameWords k a b w w') :
    Alike (SameWords k a b) (loop trie limits fuel visited stack w)
      (loop trie limits fuel visited stack w') := by
  induction fuel generalizing visited stack w w' with
  | zero =>
    cases stack with
    | nil => exact alike_pure h
    | cons frame stack => exact alike_throw h
  | succ fuel ih =>
    cases stack with
    | nil => exact alike_pure h
    | cons frame stack =>
      refine alike_bind (alike_modifyStats _ _ h) fun _ _ _ h =>
        alike_bind (alike_unwrap h) fun node _ _ h =>
          alike_bind (alike_emitFrame hids frame node h) fun _ _ _ h => ?_
      split
      · exact alike_bind (alike_onRecognizer _ h) fun _ _ _ h => ih _ _ h
      · exact alike_bind (alike_descend limits visited frame node h) fun _ _ _ h => ih _ _ h

theorem alike_fill (limits : RuntimeLimits) {vocabulary : DerivedVocabulary}
    (hids : ∀ id ∈ vocabulary.trie.terminalIds, id / 32 < k)
    (heos : vocabulary.eosTokenId / 32 < k) (h : SameWords k a b w w') :
    Alike (SameWords k a b) (fill vocabulary limits w) (fill vocabulary limits w') := by
  refine alike_get_bind (alike_bind (alike_get_bind ?_) fun _ _ _ h₁ => ?_)
  · rw [h.1]
    split
    · exact alike_enable heos h
    · exact alike_pure h
  · rw [h.1]
    exact alike_loop hids limits _ _ _ h₁

end Room

end MaskWalk

/-- **The walk over the trie.**  The recognizer is back where it was, and the bits are those of the
tokens found. -/
theorem fillStructuralMask_spec (vocabulary : DerivedVocabulary) (limits : RuntimeLimits)
    {w : MaskWalk} (hcol : w.recognizer.HasColumn) :
    (stateOf (fillStructuralMask vocabulary limits w)).recognizer = w.recognizer ∧
    ∀ u w', fillStructuralMask vocabulary limits w = .ok u w' → ∀ v,
      BitSet w'.destination v ↔
        BitSet w.destination v ∨ (w.recognizer.isAccepting = true ∧ v = vocabulary.eosTokenId) ∨
          MaskWalk.Finds vocabulary.trie w.recognizer 0 v := by
  obtain ⟨hback, hrun⟩ := MaskWalk.fill_spec vocabulary limits hcol
  unfold fillStructuralMask
  cases hfill : MaskWalk.fill vocabulary limits w with
  | ok u walk =>
    rw [hfill] at hback
    rw [stateOf_ok] at hback
    simp only [MaskWalk.restore_eq_ok hcol hback]
    refine ⟨rfl, fun u' w' hok => ?_⟩
    obtain ⟨-, rfl⟩ := EStateM.Result.ok.inj hok
    exact hrun u walk hfill
  | error e walk =>
    rw [hfill] at hback
    rw [stateOf_error] at hback
    simp only [bind_of_ok (MaskWalk.restore_eq_ok hcol hback)]
    exact ⟨rfl, fun _ _ h => nomatch h⟩

/-- The walk depends neither on the statistics nor on the room behind the words. -/
theorem alike_fillStructuralMask {vocabulary : DerivedVocabulary} (limits : RuntimeLimits)
    {k a b : ℕ} {w w' : MaskWalk} (hids : ∀ id ∈ vocabulary.trie.terminalIds, id / 32 < k)
    (heos : vocabulary.eosTokenId / 32 < k) (h : MaskWalk.SameWords k a b w w') :
    Alike (MaskWalk.SameWords k a b) (fillStructuralMask vocabulary limits w)
      (fillStructuralMask vocabulary limits w') := by
  have hfill := MaskWalk.alike_fill limits hids heos h
  unfold fillStructuralMask
  rw [h.1]
  cases hw : MaskWalk.fill vocabulary limits w with
  | ok u walk =>
    rw [hw] at hfill
    cases hw' : MaskWalk.fill vocabulary limits w' with
    | ok u' walk' =>
      rw [hw'] at hfill
      exact MaskWalk.alike_onRecognizer _ hfill.stateOf
    | error e' walk' =>
      rw [hw'] at hfill
      cases hfill
  | error e walk =>
    rw [hw] at hfill
    cases hw' : MaskWalk.fill vocabulary limits w' with
    | ok u' walk' =>
      rw [hw'] at hfill
      cases hfill
    | error e' walk' =>
      rw [hw'] at hfill
      cases hfill with
      | error h => exact alike_bind (MaskWalk.alike_onRecognizer _ h) fun _ _ _ h => alike_throw h

end OcEarley

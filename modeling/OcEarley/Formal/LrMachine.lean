import OcEarley.Formal.Lr

/-!
# LR machines

An automaton with one action for each state and lookahead drives a stack of states.  `Describes`
says that its states carry the items they should: closed under prediction, moved along transitions,
generated by these two at the level of cores, and each asking for its action.  Nothing is said about
how exact the lookaheads are.

* `Shifted.of_sentence` : a machine on a prefix of a sentence shifts it all;
* `Shifted.viable` : what has been shifted is a prefix of a sentence;
* `Shifted.accepts_iff` : the machine accepts exactly the sentences;
* `Shifted.reduces_eq_zero` : reductions never come back to the same stack.
-/

namespace OcEarley

variable {N T P Q : Type*}

/-- What an LR machine does on a lookahead. -/
inductive LrAction (P Q : Type*)
  | shift (state : Q)
  | reduce (production : P)
  | accept

/-- The top of a stack is the head of its list. -/
structure LrAutomaton (N T P Q : Type*) where
  init : Q
  item : Q → P → ℕ → Option T → Prop
  action : Q → Option T → Option (LrAction P Q)
  goto : Q → N → Option Q

namespace LrAutomaton

variable (A : LrAutomaton N T P Q) (G : LrGrammar N T P)

/-- The state that a symbol on top of the stack leads to. -/
def Next (q : Q) : Symbol T N → Q → Prop
  | .terminal t, q' => A.action q (some t) = some (.shift q')
  | .nonterminal B, q' => A.goto q B = some q'

/-- The states carry the items they should, and every item has its action. -/
structure Describes : Prop where
  init_item : A.item A.init G.aug 0 none
  closed : ∀ {q p k a p' u}, A.item q p k a → (G.rhs p)[k]? = some (.nonterminal (G.lhs p')) →
    p' ∈ G.prods → Sentence G.Rule (G.rest p (k + 1)) u → A.item q p' 0 (u.head?.or a)
  next_item : ∀ {q p k a X}, A.item q p k a → (G.rhs p)[k]? = some X →
    ∃ q', A.Next q X q' ∧ A.item q' p (k + 1) a
  init_generated : ∀ {V : P → ℕ → Prop}, V G.aug 0 →
    (∀ p k p', V p k → (G.rhs p)[k]? = some (.nonterminal (G.lhs p')) → p' ∈ G.prods → V p' 0) →
    ∀ p k a, A.item A.init p k a → V p k
  next_generated : ∀ {q X q'} {V : P → ℕ → Prop}, A.Next q X q' →
    (∀ p k a, A.item q p k a → (G.rhs p)[k]? = some X → V p (k + 1)) →
    (∀ p k p', V p k → (G.rhs p)[k]? = some (.nonterminal (G.lhs p')) → p' ∈ G.prods → V p' 0) →
    ∀ p k a, A.item q' p k a → V p k
  nonempty : ∀ {q X q'}, A.Next q X q' → ∃ p k a, A.item q p k a ∧ (G.rhs p)[k]? = some X
  reduce : ∀ {q p a}, A.item q p (G.rhs p).length a → p ≠ G.aug → A.action q a = some (.reduce p)
  accept : ∀ {q}, A.item q G.aug 1 none → A.action q none = some .accept
  of_reduce : ∀ {q p a}, A.action q a = some (.reduce p) →
    A.item q p (G.rhs p).length a ∧ p ≠ G.aug
  of_accept : ∀ {q a}, A.action q a = some .accept → a = none ∧ A.item q G.aug 1 none
  of_shift : ∀ {q a q'}, A.action q a = some (.shift q') → ∃ t, a = some t

/-! ### Stacks -/

/-- The states along a string of symbols. -/
inductive Spells : List (Symbol T N) → List Q → Prop
  | nil : Spells [] [A.init]
  | snoc {γ : List (Symbol T N)} {q q' : Q} {σ : List Q} {X : Symbol T N} (h : Spells γ (q :: σ))
    (hnext : A.Next q X q') : Spells (γ ++ [X]) (q' :: q :: σ)

variable {A G} {γ δ : List (Symbol T N)} {q q' : Q} {σ τ : List Q} {p : P} {k : ℕ} {a : Option T}
  {X : Symbol T N}

namespace Spells

theorem length (h : A.Spells γ σ) : σ.length = γ.length + 1 := by
  induction h with
  | nil => rfl
  | snoc h hnext ih => simpa using ih

theorem ne_nil (h : A.Spells γ σ) : σ ≠ [] := by
  cases h <;> simp

theorem of_snoc (h : A.Spells (γ ++ [X]) τ) :
    ∃ q q' σ, τ = q' :: q :: σ ∧ A.Spells γ (q :: σ) ∧ A.Next q X q' := by
  generalize hγ : γ ++ [X] = δ at h
  cases h with
  | nil => simp at hγ
  | snoc h hnext =>
    obtain ⟨rfl, hX⟩ := List.append_inj' hγ rfl
    obtain rfl := List.singleton_inj.1 hX
    exact ⟨_, _, _, rfl, h, hnext⟩

/-- Popping the states of the last symbols. -/
theorem drop (h : A.Spells (γ ++ δ) σ) : A.Spells γ (σ.drop δ.length) := by
  induction δ using List.reverseRecOn generalizing σ with
  | nil => simpa using h
  | append_singleton δ X ih =>
    rw [← List.append_assoc] at h
    obtain ⟨q, q', σ, rfl, h, -⟩ := h.of_snoc
    simpa using ih h

/-- The items of the state on top are valid. -/
theorem valid (hA : A.Describes G) (h : A.Spells γ (q :: σ)) (hitem : A.item q p k a) :
    G.Valid γ p k := by
  generalize hτ : q :: σ = τ at h
  induction h generalizing q σ p k a with
  | nil =>
    obtain ⟨rfl, -⟩ := List.cons.inj hτ
    exact hA.init_generated (V := G.Valid []) .init
      (fun _ _ _ h hnext hp' => h.close hnext hp') _ _ _
      hitem
  | @snoc γ q₀ q' σ₀ X h hnext ih =>
    obtain ⟨rfl, -⟩ := List.cons.inj hτ
    exact hA.next_generated (V := G.Valid (γ ++ [X])) hnext
      (fun _ _ _ hitem hX => (ih hitem rfl).move hX)
      (fun _ _ _ h hnext hp' => h.close hnext hp') _ _ _ hitem

end Spells

theorem Next.unique {q₁ q₂ : Q} (h₁ : A.Next q X q₁) (h₂ : A.Next q X q₂) : q₁ = q₂ := by
  cases X with
  | terminal t => exact LrAction.shift.inj (Option.some.inj (Eq.trans (Eq.symm h₁) h₂))
  | nonterminal B => exact Option.some.inj (Eq.trans (Eq.symm h₁) h₂)

namespace Spells

/-- Every valid item is in the state on top, with some lookahead. -/
theorem exists_item (hA : A.Describes G) (hprod : G.Productive) (h : A.Spells γ (q :: σ))
    (hvalid : G.Valid γ p k) : ∃ a, A.item q p k a := by
  induction hvalid generalizing q σ with
  | init =>
    generalize hγ : ([] : List (Symbol T N)) = γ at h
    generalize hτ : q :: σ = τ at h
    cases h with
    | nil =>
      obtain ⟨rfl, -⟩ := List.cons.inj hτ
      exact ⟨none, hA.init_item⟩
    | snoc h hnext => simp at hγ
  | close hvalid hnext hp' ih =>
    obtain ⟨a, hitem⟩ := ih h
    obtain ⟨u, hu⟩ := hprod _ hvalid.mem _
    exact ⟨_, hA.closed hitem hnext hp' hu⟩
  | move hvalid hX ih =>
    obtain ⟨q₀, q', σ₀, hτ, h, hnext⟩ := h.of_snoc
    obtain ⟨rfl, -⟩ := List.cons.inj hτ
    obtain ⟨a, hitem⟩ := ih h
    obtain ⟨q'', hnext', hitem'⟩ := hA.next_item hitem hX
    exact ⟨a, hnext.unique hnext' ▸ hitem'⟩

/-- A state on a stack has an item whose dot has just passed the symbol of the state. -/
theorem exists_kernel (hA : A.Describes G) (h : A.Spells (γ ++ [X]) (q :: σ)) :
    ∃ p k a, A.item q p (k + 1) a ∧ (G.rhs p)[k]? = some X := by
  obtain ⟨q₀, q', σ₀, hτ, h, hnext⟩ := h.of_snoc
  obtain ⟨rfl, -⟩ := List.cons.inj hτ
  obtain ⟨p, k, a, hitem, hX⟩ := hA.nonempty hnext
  obtain ⟨q'', hnext', hitem'⟩ := hA.next_item hitem hX
  exact ⟨p, k, a, hnext.unique hnext' ▸ hitem', hX⟩

theorem exists_any_item (hA : A.Describes G) (h : A.Spells γ (q :: σ)) :
    ∃ p k a, A.item q p k a := by
  rcases List.eq_nil_or_concat' γ with rfl | ⟨γ, X, rfl⟩
  · generalize hγ : ([] : List (Symbol T N)) = γ at h
    generalize hτ : q :: σ = τ at h
    cases h with
    | nil =>
      obtain ⟨rfl, -⟩ := List.cons.inj hτ
      exact ⟨_, _, _, hA.init_item⟩
    | snoc h hnext => simp at hγ
  · obtain ⟨p, k, a, hitem, -⟩ := h.exists_kernel hA
    exact ⟨p, k + 1, a, hitem⟩

/-- The symbol before the dot of an item is the last one of the stack. -/
theorem getElem?_of_item (hA : A.Describes G) (h : A.Spells (γ ++ [X]) (q :: σ))
    (hitem : A.item q p (k + 1) a) : (G.rhs p)[k]? = some X := by
  have hvalid := h.valid hA hitem
  generalize hδ : γ ++ [X] = δ at hvalid
  generalize hj : k + 1 = j at hvalid
  cases hvalid with
  | init => cases hj
  | close => cases hj
  | move hvalid hnext =>
    obtain ⟨-, hX⟩ := List.append_inj' hδ rfl
    obtain rfl := List.singleton_inj.1 hX
    obtain rfl := Nat.succ.inj hj
    exact hnext

/-- A stack spells one string only. -/
theorem unique (hA : A.Describes G) (h : A.Spells γ σ) (h' : A.Spells δ σ) : γ = δ := by
  induction γ using List.reverseRecOn generalizing δ σ with
  | nil =>
    have hlen := h.length.symm.trans h'.length
    exact (List.length_eq_zero_iff.1 (Nat.succ.inj hlen).symm).symm
  | append_singleton γ X ih =>
    rcases List.eq_nil_or_concat' δ with rfl | ⟨δ, Y, rfl⟩
    · have hlen := h.length.symm.trans h'.length
      simp at hlen
    · obtain ⟨q, q', σ, rfl, hq, -⟩ := h.of_snoc
      obtain ⟨q₁, q₁', σ₁, hτ, hq₁, -⟩ := h'.of_snoc
      obtain ⟨rfl, rfl, rfl⟩ : q' = q₁' ∧ q = q₁ ∧ σ = σ₁ := by simpa using hτ
      obtain ⟨p, k, a, hitem, hX⟩ := h.exists_kernel hA
      have hY := h'.getElem?_of_item hA hitem
      rw [ih hq hq₁, Option.some.inj (hX.symm.trans hY)]

end Spells

/-! ### Reductions -/

/-- One reduction on a lookahead. -/
inductive Reduction (A : LrAutomaton N T P Q) (G : LrGrammar N T P) (a : Option T) :
    List Q → List Q → Prop
  | mk {q q' b : Q} {σ τ : List Q} {p : P} (haction : A.action q a = some (.reduce p))
    (hpop : (q :: σ).drop (G.rhs p).length = b :: τ) (hgoto : A.goto b (G.lhs p) = some q') :
    Reduction A G a (q :: σ) (q' :: b :: τ)

/-- Some reductions on a lookahead. -/
inductive Reduces (A : LrAutomaton N T P Q) (G : LrGrammar N T P) (a : Option T) :
    ℕ → List Q → List Q → Prop
  | refl {σ : List Q} : Reduces A G a 0 σ σ
  | step {n : ℕ} {σ τ υ : List Q} (h : A.Reduction G a σ τ) (hs : Reduces A G a n τ υ) :
    Reduces A G a (n + 1) σ υ

theorem Reduction.unique {υ : List Q} (h : A.Reduction G a σ τ) (h' : A.Reduction G a σ υ) :
    τ = υ := by
  cases h with
  | mk haction hpop hgoto =>
    cases h' with
    | mk haction' hpop' hgoto' =>
      obtain rfl := LrAction.reduce.inj (Option.some.inj (haction.symm.trans haction'))
      obtain ⟨rfl, rfl⟩ := List.cons.inj (hpop.symm.trans hpop')
      rw [Option.some.inj (hgoto.symm.trans hgoto')]

theorem Reduces.trans {m n : ℕ} {υ : List Q} (h : A.Reduces G a m σ τ) (h' : A.Reduces G a n τ υ) :
    A.Reduces G a (m + n) σ υ := by
  induction h with
  | refl =>
    rw [Nat.zero_add]
    exact h'
  | step h hs ih =>
    rw [Nat.add_right_comm]
    exact .step h (ih h')

/-- A reduction replaces the right-hand side on the stack. -/
theorem Spells.reduction (hA : A.Describes G) (h : A.Spells γ σ) (hred : A.Reduction G a σ τ) :
    ∃ δ, A.Spells δ τ ∧ ∀ n w, Derives G.Rule n γ w → Derives G.Rule (n + 1) δ w := by
  cases hred with
  | @mk q q' b σ τ p haction hpop hgoto =>
    obtain ⟨hitem, haug⟩ := hA.of_reduce haction
    have hvalid := h.valid hA hitem
    obtain ⟨δ, rfl, -⟩ := hvalid.exists_start
    rw [List.take_length] at h
    have hbase := h.drop
    rw [hpop] at hbase
    refine ⟨δ ++ [.nonterminal (G.lhs p)], hbase.snoc (X := .nonterminal (G.lhs p)) hgoto,
      fun n w hw => ?_⟩
    rw [List.take_length] at hw
    obtain ⟨m, k, u, v, rfl, rfl, hu, hv⟩ := hw.of_append
    exact hu.append (hv.of_rule ⟨p, hvalid.mem.resolve_left haug, rfl, rfl⟩)

/-- A reduction that is asked for can be made. -/
theorem Spells.exists_reduction (hA : A.Describes G) (hprod : G.Productive)
    (h : A.Spells γ (q :: σ)) (haction : A.action q a = some (.reduce p)) :
    ∃ b τ q', (q :: σ).drop (G.rhs p).length = b :: τ ∧ A.goto b (G.lhs p) = some q' := by
  obtain ⟨hitem, haug⟩ := hA.of_reduce haction
  obtain ⟨δ, rfl, hzero⟩ := (h.valid hA hitem).exists_start
  rw [List.take_length] at h
  have hbase := h.drop
  obtain ⟨b, τ, hpop⟩ := List.exists_cons_of_ne_nil hbase.ne_nil
  rw [hpop] at hbase
  obtain ⟨p', k', hvalid', hnext⟩ := hzero.of_zero.resolve_left fun h => haug h.2
  obtain ⟨a', hitem'⟩ := hbase.exists_item hA hprod hvalid'
  obtain ⟨q', hgoto, -⟩ := hA.next_item hitem' hnext
  exact ⟨b, τ, q', hpop, hgoto⟩

theorem Spells.reduces {n : ℕ} (hA : A.Describes G) (h : A.Spells γ σ)
    (hred : A.Reduces G a n σ τ) :
    ∃ δ, A.Spells δ τ ∧ ∀ m w, Derives G.Rule m γ w → Derives G.Rule (m + n) δ w := by
  induction hred generalizing γ with
  | refl => exact ⟨γ, h, fun _ _ h => h⟩
  | @step n σ τ υ hred hs ih =>
    obtain ⟨δ, hδ, hderives⟩ := h.reduction hA hred
    obtain ⟨ε, hε, hrest⟩ := ih hδ
    refine ⟨ε, hε, fun m w hw => ?_⟩
    have := hrest _ w (hderives m w hw)
    rwa [Nat.add_assoc, Nat.add_comm 1] at this

/-! ### The machine on a terminal string -/

/-- The stack and the input left, after some steps; the reductions are counted. -/
inductive Steps (A : LrAutomaton N T P Q) (G : LrGrammar N T P) :
    ℕ → List Q × List T → List Q × List T → Prop
  | refl {c : List Q × List T} : Steps A G 0 c c
  | reduce {n : ℕ} {σ τ : List Q} {u : List T} {d : List Q × List T}
    (h : A.Reduction G u.head? σ τ) (hs : Steps A G n (τ, u) d) : Steps A G (n + 1) (σ, u) d
  | shift {n : ℕ} {q q' : Q} {σ : List Q} {t : T} {u : List T} {d : List Q × List T}
    (haction : A.action q (some t) = some (.shift q')) (hs : Steps A G n (q' :: q :: σ, u) d) :
    Steps A G n (q :: σ, t :: u) d

theorem Steps.trans {m n : ℕ} {c d e : List Q × List T} (h : A.Steps G m c d)
    (h' : A.Steps G n d e) : A.Steps G (m + n) c e := by
  induction h with
  | refl =>
    rw [Nat.zero_add]
    exact h'
  | reduce h hs ih =>
    rw [Nat.add_right_comm]
    exact .reduce h (ih h')
  | shift haction hs ih => exact .shift haction (ih h')

/-- **Simulation.**  The machine follows a derivation of what stands behind the dot of an item. -/
theorem Describes.simulate (hA : A.Describes G) {n : ℕ} {β : List (Symbol T N)} {u : List T}
    (h : Derives G.Rule n β u) {q : Q} {σ : List Q} {p : P} {k : ℕ} {v : List T}
    (hitem : A.item q p k v.head?) (hrest : G.rest p k = β) (hk : k ≤ (G.rhs p).length) :
    ∃ q' τ, A.Steps G n (q :: σ, u ++ v) (q' :: τ, v) ∧ A.item q' p (G.rhs p).length v.head? ∧
      (q' :: τ).drop β.length = q :: σ := by
  induction h generalizing q σ p k v with
  | nil =>
    obtain rfl : k = (G.rhs p).length := le_antisymm hk (List.drop_eq_nil_iff.1 hrest)
    exact ⟨q, σ, .refl, hitem, rfl⟩
  | @terminal n t β u h ih =>
    obtain ⟨hnext, hrest⟩ := LrGrammar.getElem?_of_rest hrest
    obtain ⟨q₁, haction, hitem₁⟩ := hA.next_item hitem hnext
    obtain ⟨q', τ, hsteps, hlast, hdrop⟩ := ih (σ := q :: σ) hitem₁ hrest
      (List.getElem?_eq_some_iff.1 hnext).1
    refine ⟨q', τ, .shift haction hsteps, hlast, ?_⟩
    rw [List.length_cons, ← List.drop_drop, hdrop]
    rfl
  | @nonterminal m n B γ β u₁ u₂ hB hγ hβ ih₁ ih₂ =>
    obtain ⟨p', hp', rfl, rfl⟩ := hB
    obtain ⟨hnext, hrest⟩ := LrGrammar.getElem?_of_rest hrest
    -- the lookahead of the prediction is the terminal that comes next
    have hstart : A.item q p' 0 (u₂ ++ v).head? := by
      rw [List.head?_append]
      exact hA.closed hitem hnext hp' (hrest ▸ hβ.sentence)
    obtain ⟨q₁, τ₁, hsteps₁, hlast₁, hdrop₁⟩ := ih₁ (σ := σ) hstart rfl (Nat.zero_le _)
    have haug : p' ≠ G.aug := fun h => G.aug_notMem (h ▸ hp')
    obtain ⟨q₂, hgoto, hitem₂⟩ := hA.next_item hitem hnext
    have hred : A.Reduction G (u₂ ++ v).head? (q₁ :: τ₁) (q₂ :: q :: σ) :=
      .mk (hA.reduce hlast₁ haug) hdrop₁ hgoto
    obtain ⟨q', τ, hsteps₂, hlast₂, hdrop₂⟩ := ih₂ (σ := q :: σ) hitem₂ hrest
      (List.getElem?_eq_some_iff.1 hnext).1
    refine ⟨q', τ, ?_, hlast₂, ?_⟩
    · rw [List.append_assoc, Nat.add_assoc, Nat.add_comm 1]
      exact hsteps₁.trans (.reduce hred hsteps₂)
    · rw [List.length_cons, ← List.drop_drop, hdrop₂]
      rfl

/-- The machine has accepted. -/
def Accepted (A : LrAutomaton N T P Q) (c : List Q × List T) : Prop :=
  ∃ q σ, c = (q :: σ, []) ∧ A.action q none = some .accept

/-- A sentence is accepted by as many reductions as its derivation has productions. -/
theorem Describes.exists_accepted (hA : A.Describes G) {n : ℕ} {w : List T}
    (h : Derives G.Rule n [.nonterminal G.start] w) :
    ∃ d, A.Steps G n ([A.init], w) d ∧ A.Accepted d := by
  have hrest : G.rest G.aug 0 = [.nonterminal G.start] := G.rhs_aug
  obtain ⟨q', τ, hsteps, hitem, -⟩ := hA.simulate (v := []) h hA.init_item hrest (Nat.zero_le _)
  rw [List.append_nil] at hsteps
  refine ⟨_, hsteps, q', τ, rfl, hA.accept ?_⟩
  rwa [G.rhs_aug] at hitem

/-- The machine is deterministic. -/
theorem Steps.unique {m n : ℕ} {c d d' : List Q × List T} (h : A.Steps G m c d)
    (h' : A.Steps G n c d') (hd : A.Accepted d) (hd' : A.Accepted d') : m = n := by
  induction h generalizing n with
  | refl =>
    obtain ⟨q, σ, rfl, haccept⟩ := hd
    cases h' with
    | refl => rfl
    | reduce h hs =>
      cases h with
      | mk haction =>
        rw [List.head?_nil, haccept] at haction
        cases haction
  | @reduce m σ τ u d hred hs ih =>
    cases h' with
    | refl =>
      obtain ⟨q, σ, hc, haccept⟩ := hd'
      obtain ⟨rfl, rfl⟩ := Prod.mk.inj hc
      cases hred with
      | mk haction =>
        rw [List.head?_nil, haccept] at haction
        cases haction
    | reduce hred' hs' =>
      rw [hred.unique hred'] at ih
      rw [ih hs' hd]
    | shift haction hs' =>
      cases hred with
      | mk haction' =>
        rw [List.head?_cons, haction] at haction'
        cases haction'
  | @shift m q q' σ t u d haction hs ih =>
    cases h' with
    | refl =>
      obtain ⟨q, σ, hc, -⟩ := hd'
      cases (Prod.mk.inj hc).2
    | reduce hred' hs' =>
      cases hred' with
      | mk haction' =>
        rw [List.head?_cons, haction] at haction'
        cases haction'
    | shift haction' hs' =>
      obtain rfl := LrAction.shift.inj (Option.some.inj (haction.symm.trans haction'))
      exact ih hs' hd

/-! ### Stacks between two terminals -/

/-- All reductions on a lookahead have been made. -/
def Settles (A : LrAutomaton N T P Q) (G : LrGrammar N T P) (a : Option T) (σ : List Q) (q : Q)
    (τ : List Q) : Prop :=
  (∃ n, A.Reduces G a n σ (q :: τ)) ∧ ∀ p, A.action q a ≠ some (.reduce p)

/-- The stack right after the terminals have been shifted. -/
inductive Shifted (A : LrAutomaton N T P Q) (G : LrGrammar N T P) : List T → List Q → Prop
  | nil : Shifted A G [] [A.init]
  | snoc {w : List T} {t : T} {σ τ : List Q} {q q' : Q} (h : Shifted A G w σ)
    (hsettles : A.Settles G (some t) σ q τ) (haction : A.action q (some t) = some (.shift q')) :
    Shifted A G (w ++ [t]) (q' :: q :: τ)

variable {w z : List T} {t : T}

theorem Settles.unique {q₁ q₂ : Q} {τ₁ τ₂ : List Q} (h₁ : A.Settles G a σ q₁ τ₁)
    (h₂ : A.Settles G a σ q₂ τ₂) : q₁ = q₂ ∧ τ₁ = τ₂ := by
  obtain ⟨⟨m, hm⟩, hend₁⟩ := h₁
  obtain ⟨⟨n, hn⟩, hend₂⟩ := h₂
  generalize hυ : q₁ :: τ₁ = υ at hm
  induction hm generalizing n with
  | refl =>
    cases hn with
    | refl => exact List.cons.inj hυ
    | step hred hs =>
      rw [← hυ] at hred
      cases hred with
      | mk haction => exact absurd haction (hend₁ _)
  | step hred hs ih =>
    cases hn with
    | refl =>
      cases hred with
      | mk haction => exact absurd haction (hend₂ _)
    | step hred' hs' =>
      rw [hred.unique hred'] at ih
      exact ih _ hs' hυ

/-- What is left of an accepting run when the next terminal has been shifted. -/
theorem Steps.exists_shift {n : ℕ} {d : List Q × List T} (h : A.Steps G n (σ, t :: z) d)
    (hd : A.Accepted d) :
    ∃ q τ q' m, A.Settles G (some t) σ q τ ∧ A.action q (some t) = some (.shift q') ∧
      A.Steps G m (q' :: q :: τ, z) d := by
  generalize hc : (σ, t :: z) = c at h
  induction h generalizing σ with
  | refl =>
    obtain ⟨q, τ, rfl, -⟩ := hd
    cases (Prod.mk.inj hc).2
  | reduce hred hs ih =>
    obtain ⟨rfl, rfl⟩ := Prod.mk.inj hc
    obtain ⟨q, τ, q', m, ⟨⟨j, hj⟩, hend⟩, haction, hsteps⟩ := ih hd rfl
    exact ⟨q, τ, q', m, ⟨⟨j + 1, .step hred hj⟩, hend⟩, haction, hsteps⟩
  | shift haction hs ih =>
    obtain ⟨rfl, hcons⟩ := Prod.mk.inj hc
    obtain ⟨rfl, rfl⟩ := List.cons.inj hcons
    refine ⟨_, _, _, _, ⟨⟨0, .refl⟩, fun p hp => ?_⟩, haction, hs⟩
    rw [haction] at hp
    cases hp

/-- What is left of an accepting run at the end of the input. -/
theorem Steps.settles {n : ℕ} {d : List Q × List T} (h : A.Steps G n (σ, []) d)
    (hd : A.Accepted d) : ∃ q τ, A.Settles G none σ q τ ∧ A.action q none = some .accept := by
  generalize hc : (σ, ([] : List T)) = c at h
  induction h generalizing σ with
  | refl =>
    obtain ⟨q, τ, rfl, haccept⟩ := hd
    obtain ⟨rfl, -⟩ := Prod.mk.inj hc
    refine ⟨q, τ, ⟨⟨0, .refl⟩, fun p hp => ?_⟩, haccept⟩
    rw [haccept] at hp
    cases hp
  | reduce hred hs ih =>
    obtain ⟨rfl, rfl⟩ := Prod.mk.inj hc
    obtain ⟨q, τ, ⟨⟨j, hj⟩, hend⟩, haction⟩ := ih hd rfl
    exact ⟨q, τ, ⟨⟨j + 1, .step hred hj⟩, hend⟩, haction⟩
  | shift haction hs ih => cases (Prod.mk.inj hc).2

namespace Shifted

theorem unique (h : A.Shifted G w σ) (h' : A.Shifted G w τ) : σ = τ := by
  induction h generalizing τ with
  | nil =>
    generalize hw : ([] : List T) = w at h'
    cases h' with
    | nil => rfl
    | snoc => simp at hw
  | @snoc w t σ υ q q' h hsettles haction ih =>
    generalize hw : w ++ [t] = w' at h'
    cases h' with
    | nil => simp at hw
    | snoc h' hsettles' haction' =>
      obtain ⟨rfl, ht⟩ := List.append_inj' hw rfl
      obtain rfl := List.singleton_inj.1 ht
      obtain rfl := ih h'
      obtain ⟨rfl, rfl⟩ := hsettles.unique hsettles'
      rw [LrAction.shift.inj (Option.some.inj (haction.symm.trans haction'))]

/-- The stack before the last terminal was shifted. -/
theorem of_snoc (h : A.Shifted G (w ++ [t]) σ) :
    ∃ υ q τ q', σ = q' :: q :: τ ∧ A.Shifted G w υ ∧ A.Settles G (some t) υ q τ ∧
      A.action q (some t) = some (.shift q') := by
  generalize hv : w ++ [t] = v at h
  cases h with
  | nil => simp at hv
  | snoc h hsettles haction =>
    obtain ⟨rfl, ht⟩ := List.append_inj' hv rfl
    obtain rfl := List.singleton_inj.1 ht
    exact ⟨_, _, _, _, rfl, h, hsettles, haction⟩

/-- The stack spells a string that derives what has been shifted. -/
theorem exists_spells (hA : A.Describes G) (h : A.Shifted G w σ) :
    ∃ γ n, A.Spells γ σ ∧ Derives G.Rule n γ w := by
  induction h with
  | nil => exact ⟨[], 0, .nil, .nil⟩
  | @snoc w t σ τ q q' h hsettles haction ih =>
    obtain ⟨γ, m, hγ, hw⟩ := ih
    obtain ⟨⟨n, hn⟩, -⟩ := hsettles
    obtain ⟨δ, hδ, hderives⟩ := hγ.reduces hA hn
    exact ⟨δ ++ [.terminal t], _, hδ.snoc (X := .terminal t) haction,
      (hderives m w hw).append (.terminal .nil)⟩

/-- **What has been shifted is a prefix of a sentence.** -/
theorem viable (hA : A.Describes G) (hprod : G.Productive) (h : A.Shifted G w σ) :
    ∃ z, Sentence G.Rule [.nonterminal G.start] (w ++ z) := by
  obtain ⟨γ, m, hγ, hw⟩ := h.exists_spells hA
  obtain ⟨q, σ, rfl⟩ := List.exists_cons_of_ne_nil hγ.ne_nil
  obtain ⟨p, k, a, hitem⟩ := hγ.exists_any_item hA
  have hvalid := hγ.valid hA hitem
  obtain ⟨y, c, hviable⟩ := hvalid.viable hprod
  obtain ⟨v, hv⟩ := hprod p hvalid.mem k
  obtain ⟨n, hv⟩ := Derives.exists_of_sentence hv
  refine ⟨v ++ y, ?_⟩
  have := (hviable m w n v hw hv).sentence
  rwa [List.append_assoc] at this

/-- A machine on a sentence gets to every prefix, and from there to acceptance. -/
theorem of_steps {n : ℕ} {d : List Q × List T} (h : A.Shifted G w σ)
    (hsteps : A.Steps G n (σ, z) d) (hd : A.Accepted d) (u v : List T) (hz : z = u ++ v) :
    ∃ τ m, A.Shifted G (w ++ u) τ ∧ A.Steps G m (τ, v) d := by
  induction u generalizing w σ z n with
  | nil =>
    subst hz
    rw [List.append_nil]
    exact ⟨σ, n, h, hsteps⟩
  | cons t u ih =>
    subst hz
    obtain ⟨q, τ, q', m, hsettles, haction, hrest⟩ := hsteps.exists_shift hd
    have := ih (h.snoc hsettles haction) hrest rfl
    rwa [List.append_assoc, List.singleton_append] at this

/-- **A prefix of a sentence is shifted.** -/
theorem of_sentence (hA : A.Describes G)
    (h : Sentence G.Rule [.nonterminal G.start] (w ++ z)) : ∃ σ, A.Shifted G w σ := by
  obtain ⟨n, h⟩ := Derives.exists_of_sentence h
  obtain ⟨d, hsteps, hd⟩ := hA.exists_accepted h
  obtain ⟨τ, m, hτ, -⟩ := Shifted.nil.of_steps hsteps hd w z rfl
  exact ⟨τ, by simpa using hτ⟩

/-- **Acceptance.**  The end of the input is accepted exactly after a sentence. -/
theorem accepts_iff (hA : A.Describes G) (h : A.Shifted G w σ) :
    (∃ q τ, A.Settles G none σ q τ ∧ A.action q none = some .accept) ↔
      Sentence G.Rule [.nonterminal G.start] w := by
  constructor
  · rintro ⟨q, τ, ⟨⟨n, hn⟩, -⟩, haction⟩
    obtain ⟨γ, m, hγ, hw⟩ := h.exists_spells hA
    obtain ⟨δ, hδ, hderives⟩ := hγ.reduces hA hn
    obtain ⟨ε, hε, haug⟩ := (hδ.valid hA (hA.of_accept haction).2).exists_start
    rw [haug.aug_eq_nil, List.nil_append, G.rhs_aug] at hε
    have := (hderives m w hw).sentence
    rwa [hε] at this
  · intro hw
    obtain ⟨n, hw⟩ := Derives.exists_of_sentence hw
    obtain ⟨d, hsteps, hd⟩ := hA.exists_accepted hw
    obtain ⟨τ, m, hτ, hrest⟩ := Shifted.nil.of_steps hsteps hd w [] (List.append_nil w).symm
    rw [List.nil_append] at hτ
    obtain rfl := h.unique hτ
    exact hrest.settles hd

/-- **Reductions never come back to a stack**: the string that it spells would have two derivations
of what was shifted, and so would a sentence; but the machine counts productions. -/
theorem reduces_eq_zero (hA : A.Describes G) (hprod : G.Productive) (h : A.Shifted G w σ) {m n : ℕ}
    (hm : A.Reduces G a m σ τ) (hn : A.Reduces G a n τ τ) : n = 0 := by
  obtain ⟨γ, k, hγ, hw⟩ := h.exists_spells hA
  obtain ⟨δ, hδ, hderives⟩ := hγ.reduces hA hm
  obtain ⟨ε, hε, hagain⟩ := hδ.reduces hA hn
  obtain rfl := hδ.unique hA hε
  have hδw := hderives k w hw
  obtain ⟨q, σ', rfl⟩ := List.exists_cons_of_ne_nil hδ.ne_nil
  obtain ⟨p, j, b, hitem⟩ := hδ.exists_any_item hA
  have hvalid := hδ.valid hA hitem
  obtain ⟨y, c, hviable⟩ := hvalid.viable hprod
  obtain ⟨v, hv⟩ := hprod p hvalid.mem j
  obtain ⟨l, hv⟩ := Derives.exists_of_sentence hv
  obtain ⟨d, hsteps, hd⟩ := hA.exists_accepted (hviable _ w l v hδw hv)
  obtain ⟨d', hsteps', hd'⟩ := hA.exists_accepted (hviable _ w l v (hagain _ w hδw) hv)
  have := hsteps.unique hsteps' hd hd'
  omega

end Shifted

end LrAutomaton

end OcEarley

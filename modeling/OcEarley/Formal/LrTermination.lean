import Mathlib.Data.Fintype.Pigeonhole
import Mathlib.Data.Set.Finite.Lemmas
import Mathlib.Data.Set.Finite.List
import OcEarley.Formal.LrMachine

/-!
# Reductions of an LR machine end

A stack that goes on reducing forever on some lookahead, a wrong one included, would push a state
again and again without ever popping it, with nothing read in between.  A sentence can then be led
through any number of these rounds, so that the machine, which is deterministic, would never get to
the end of it (`not_above_self`).  Hence the reductions on a lookahead are bounded
(`Shifted.exists_reduces_le`).
-/

namespace OcEarley

variable {N T P Q : Type*}

namespace LrAutomaton

variable {A : LrAutomaton N T P Q} {G : LrGrammar N T P} {γ δ ε : List (Symbol T N)} {q q' : Q}
  {σ τ υ ρ : List Q} {p : P} {k m n : ℕ} {a : Option T} {X : Symbol T N} {w x y z : List T}

/-! ### Reductions are deterministic -/

theorem Reduces.unique (h : A.Reduces G a n σ τ) (h' : A.Reduces G a n σ υ) : τ = υ := by
  induction h with
  | refl =>
    cases h'
    rfl
  | step hred hs ih =>
    cases h' with
    | step hred' hs' =>
      rw [hred.unique hred'] at ih
      exact ih hs'

/-- A reduction adds at most one state. -/
theorem Reduces.length_le (h : A.Reduces G a n σ τ) : τ.length ≤ σ.length + n := by
  induction h with
  | refl => exact le_rfl
  | step hred _ ih =>
    cases hred with
    | mk _ hpop _ =>
      have hlen := congrArg List.length hpop
      rw [List.length_drop] at hlen
      simp only [List.length_cons] at hlen ih ⊢
      omega

/-- The stack after the first reductions. -/
theorem Reduces.split (h : A.Reduces G a (m + n) σ τ) :
    ∃ υ, A.Reduces G a m σ υ ∧ A.Reduces G a n υ τ := by
  induction m generalizing σ with
  | zero =>
    rw [Nat.zero_add] at h
    exact ⟨σ, .refl, h⟩
  | succ m ih =>
    rw [Nat.succ_add] at h
    cases h with
    | step hred hs =>
      obtain ⟨υ, hυ, hs⟩ := ih hs
      exact ⟨υ, .step hred hυ, hs⟩

/-- A stack that settles has no other reductions. -/
theorem Reduces.le_of_settled (h : A.Reduces G a n σ (q :: τ))
    (hend : ∀ p, A.action q a ≠ some (.reduce p)) (h' : A.Reduces G a m σ υ) : m ≤ n := by
  by_contra hlt
  obtain ⟨k, rfl⟩ : ∃ k, m = n + (k + 1) := ⟨m - n - 1, by omega⟩
  obtain ⟨υ', hυ', hs⟩ := h'.split
  rw [← h.unique hυ'] at hs
  cases hs with
  | step hred _ =>
    cases hred with
    | mk haction => exact hend _ haction

/-! ### States above a state -/

/-- The state on top, when `ρ` stands above `q`. -/
def topOf (q : Q) (ρ : List Q) : Q := ρ.headD q

/-- The states along a string of symbols above a state. -/
inductive Above (A : LrAutomaton N T P Q) (q : Q) : List (Symbol T N) → List Q → Prop
  | nil : Above A q [] []
  | snoc {δ : List (Symbol T N)} {ρ : List Q} {X : Symbol T N} {q' : Q} (h : Above A q δ ρ)
    (hnext : A.Next (topOf q ρ) X q') : Above A q (δ ++ [X]) (q' :: ρ)

theorem append_eq_topOf_cons (q : Q) (ρ σ : List Q) : ∃ τ, ρ ++ q :: σ = topOf q ρ :: τ := by
  cases ρ with
  | nil => exact ⟨σ, rfl⟩
  | cons q' ρ => exact ⟨ρ ++ q :: σ, rfl⟩

theorem topOf_append (q : Q) (ρ τ : List Q) : topOf q (τ ++ ρ) = topOf (topOf q ρ) τ := by
  cases τ <;> rfl

namespace Above

theorem length (h : A.Above q δ ρ) : ρ.length = δ.length := by
  induction h with
  | nil => rfl
  | snoc _ _ ih => simp [ih]

theorem of_snoc (h : A.Above q (δ ++ [X]) ρ) :
    ∃ q' ρ', ρ = q' :: ρ' ∧ A.Above q δ ρ' ∧ A.Next (topOf q ρ') X q' := by
  generalize hδ : δ ++ [X] = ε at h
  cases h with
  | nil => simp at hδ
  | snoc h hnext =>
    obtain ⟨rfl, hX⟩ := List.append_inj' hδ rfl
    obtain rfl := List.singleton_inj.1 hX
    exact ⟨_, _, rfl, h, hnext⟩

/-- Popping the states of the last symbols. -/
theorem drop (h : A.Above q (δ ++ ε) ρ) : A.Above q δ (ρ.drop ε.length) := by
  induction ε using List.reverseRecOn generalizing ρ with
  | nil => simpa using h
  | append_singleton ε X ih =>
    rw [← List.append_assoc] at h
    obtain ⟨q', ρ', rfl, h, -⟩ := h.of_snoc
    simpa using ih h

theorem append (h : A.Above q δ ρ) (h' : A.Above (topOf q ρ) ε τ) :
    A.Above q (δ ++ ε) (τ ++ ρ) := by
  induction h' with
  | nil => simpa using h
  | snoc _ hnext ih =>
    rw [← List.append_assoc]
    exact ih.snoc (topOf_append q ρ _ ▸ hnext)

/-- What stands above the top of a stack goes on with its string. -/
theorem spells (h : A.Above q δ ρ) (hγ : A.Spells γ (q :: σ)) :
    A.Spells (γ ++ δ) (ρ ++ q :: σ) := by
  induction h with
  | nil => simpa using hγ
  | @snoc δ ρ X q' h hnext ih =>
    obtain ⟨τ, hτ⟩ := append_eq_topOf_cons q ρ σ
    rw [hτ] at ih
    rw [← List.append_assoc, List.cons_append, hτ]
    exact ih.snoc hnext

/-- Rounds from a state back to it. -/
theorem rounds (h : A.Above q δ ρ) (htop : topOf q ρ = q) (m : ℕ) :
    A.Above q (List.replicate m δ).flatten (List.replicate m ρ).flatten ∧
      topOf q (List.replicate m ρ).flatten = q := by
  induction m with
  | zero => exact ⟨.nil, rfl⟩
  | succ m ih =>
    rw [List.replicate_succ', List.flatten_append, List.flatten_singleton, List.replicate_succ,
      List.flatten_cons, topOf_append, ih.2]
    exact ⟨ih.1.append (ih.2.symm ▸ h), htop⟩

/-- A reduction above a state that stays on the stack. -/
theorem reduction (hA : A.Describes G) (h : A.Above q δ ρ) (hγ : A.Spells γ (q :: σ))
    (hnull : ∃ n, Derives G.Rule n δ []) (hred : A.Reduction G a (ρ ++ q :: σ) τ)
    (hlen : (q :: σ).length < τ.length) :
    ∃ δ' ρ', τ = ρ' ++ q :: σ ∧ A.Above q δ' ρ' ∧ ∃ n, Derives G.Rule n δ' [] := by
  obtain ⟨n, hnull⟩ := hnull
  have hspells := h.spells hγ
  generalize hτ : ρ ++ q :: σ = τ₀ at hred hspells
  cases hred with
  | @mk top q' b σ₀ τ₁ p haction hpop hgoto =>
    obtain ⟨hitem, haug⟩ := hA.of_reduce haction
    have hvalid := hspells.valid hA hitem
    obtain ⟨ε, hε, -⟩ := hvalid.exists_start
    rw [List.take_length] at hε
    -- the right-hand side stands above the state
    have hle : (G.rhs p).length ≤ δ.length := by
      have hdrop := congrArg List.length hpop
      have hwhole := congrArg List.length hτ
      rw [List.length_drop] at hdrop
      rw [List.length_append, h.length] at hwhole
      simp only [List.length_cons] at hdrop hwhole hlen
      omega
    obtain ⟨δ', rfl⟩ : ∃ δ', δ = δ' ++ G.rhs p := by
      have hsuffix : δ <:+ ε ++ G.rhs p := ⟨γ, hε⟩
      exact (List.suffix_of_suffix_length_le (List.suffix_append ε _) hsuffix hle).imp
        fun _ h => h.symm
    have hbase := h.drop
    obtain ⟨j, l, u, v, -, huv, hu, hv⟩ := hnull.of_append
    obtain ⟨rfl, rfl⟩ := List.append_eq_nil_iff.1 huv.symm
    have hρ : b :: τ₁ = ρ.drop (G.rhs p).length ++ q :: σ := by
      rw [← hpop, ← hτ, List.drop_append_of_le_length]
      rw [h.length, List.length_append]
      omega
    obtain ⟨τ₂, hτ₂⟩ := append_eq_topOf_cons q (ρ.drop (G.rhs p).length) σ
    rw [hτ₂] at hρ
    obtain ⟨rfl, rfl⟩ := List.cons.inj hρ
    refine ⟨δ' ++ [.nonterminal (G.lhs p)], q' :: ρ.drop (G.rhs p).length, ?_,
      hbase.snoc (X := .nonterminal (G.lhs p)) hgoto, j + (l + 1), ?_⟩
    · rw [List.cons_append, hτ₂]
    · exact hu.append (hv.of_rule ⟨p, hvalid.mem.resolve_left haug, rfl, rfl⟩)

end Above

/-! ### Sentences through a viable prefix -/

/-- A symbol string has one stack. -/
theorem Spells.stack_unique (h : A.Spells γ σ) (h' : A.Spells γ τ) : σ = τ := by
  induction h generalizing τ with
  | nil =>
    generalize hδ : ([] : List (Symbol T N)) = δ at h'
    cases h' with
    | nil => rfl
    | snoc => simp at hδ
  | snoc h hnext ih =>
    obtain ⟨q₁, q₁', τ₁, rfl, h₁, hnext₁⟩ := h'.of_snoc
    obtain ⟨rfl, rfl⟩ := List.cons.inj (ih h₁)
    rw [hnext.unique hnext₁]

/-- The machine reads what a symbol derives, when it stands behind the dot of an item. -/
theorem Describes.exists_steps_symbol (hA : A.Describes G) (hitem : A.item q p k y.head?)
    (hX : (G.rhs p)[k]? = some X) (hx : Sentence G.Rule [X] x)
    (hz : Sentence G.Rule (G.rest p (k + 1)) z) :
    ∃ n q', A.Steps G n (q :: σ, x ++ (z ++ y)) (q' :: q :: σ, z ++ y) ∧ A.Next q X q' ∧
      A.item q' p (k + 1) y.head? := by
  obtain ⟨q', hnext, hitem'⟩ := hA.next_item hitem hX
  cases X with
  | terminal t =>
    obtain rfl : x = [t] := mem_selfLanguage.1 (yields_terminal_iff.1 hx)
    exact ⟨0, q', .shift hnext .refl, hnext, hitem'⟩
  | nonterminal B =>
    obtain ⟨β, ⟨p', hp', rfl, rfl⟩, hβ⟩ := yields_nonterminal_iff.1 hx
    obtain ⟨m, hm⟩ := Derives.exists_of_sentence hβ
    have hstart : A.item q p' 0 (z ++ y).head? := by
      rw [List.head?_append]
      exact hA.closed hitem hX hp' hz
    obtain ⟨q₁, τ, hsteps, hlast, hdrop⟩ := hA.simulate (σ := σ) hm hstart rfl (Nat.zero_le _)
    have haug : p' ≠ G.aug := fun h => G.aug_notMem (h ▸ hp')
    exact ⟨m + 1, q', hsteps.trans (.reduce (.mk (hA.reduce hlast haug) hdrop hnext) .refl), hnext,
      hitem'⟩

/-- Whatever a viable prefix derives, the machine gets to its stack on some sentence. -/
theorem Describes.exists_steps (hA : A.Describes G) (hprod : G.Productive) (h : G.Valid γ p k) :
    ∃ y, ∀ x z, Sentence G.Rule γ x → Sentence G.Rule (G.rest p k) z →
      Sentence G.Rule [.nonterminal G.start] (x ++ (z ++ y)) ∧
      ∃ n q σ, A.Steps G n ([A.init], x ++ (z ++ y)) (q :: σ, z ++ y) ∧ A.Spells γ (q :: σ) ∧
        A.item q p k y.head? := by
  induction h with
  | init =>
    refine ⟨[], fun x z hx hz => ?_⟩
    obtain rfl := yields_nil_iff.1 hx
    rw [LrGrammar.rest, G.rhs_aug] at hz
    exact ⟨by simpa using hz, 0, A.init, [], .refl, .nil, hA.init_item⟩
  | @close γ p p' k h hnext hp' ih =>
    obtain ⟨y, ih⟩ := ih
    obtain ⟨u, hu⟩ := hprod p h.mem (k + 1)
    refine ⟨u ++ y, fun x z hx hz => ?_⟩
    have hrest : Sentence G.Rule (G.rest p k) (z ++ u) := by
      rw [LrGrammar.rest_eq_cons hnext]
      exact .nonterminal ⟨p', hp', rfl, rfl⟩ hz hu
    obtain ⟨hsentence, n, q, σ, hsteps, hspells, hitem⟩ := ih x (z ++ u) hx hrest
    rw [List.append_assoc] at hsentence hsteps
    refine ⟨hsentence, n, q, σ, hsteps, hspells, ?_⟩
    rw [List.head?_append]
    exact hA.closed hitem hnext hp' hu
  | @move γ p k X h hnext ih =>
    obtain ⟨y, ih⟩ := ih
    refine ⟨y, fun x z hx hz => ?_⟩
    obtain ⟨x₁, x₂, rfl, hx₁, hx₂⟩ := yields_append_iff.1 hx
    have hrest : Sentence G.Rule (G.rest p k) (x₂ ++ z) := by
      rw [LrGrammar.rest_eq_cons hnext]
      exact Yields.append (β := [X]) hx₂ hz
    obtain ⟨hsentence, n, q, σ, hsteps, hspells, hitem⟩ := ih x₁ (x₂ ++ z) hx₁ hrest
    obtain ⟨m, q', hsteps', hnext', hitem'⟩ := hA.exists_steps_symbol (σ := σ) hitem hnext hx₂ hz
    rw [List.append_assoc] at hsentence hsteps
    rw [List.append_assoc]
    exact ⟨hsentence, n + m, q', q :: σ, hsteps.trans hsteps', hspells.snoc hnext', hitem'⟩

/-! ### Reductions between two terminals -/

theorem Steps.length_le {c d : List Q × List T} (h : A.Steps G n c d) :
    d.2.length ≤ c.2.length := by
  induction h with
  | refl => exact le_rfl
  | reduce _ _ ih => exact ih
  | shift _ _ ih => exact ih.trans (Nat.le_succ _)

/-- When the machine has read a string, some reductions are left on what comes next. -/
theorem Steps.exists_reduces {σ₀ : List Q} (h : A.Steps G n (σ, x ++ z) (τ, z))
    (hw : A.Shifted G w σ₀) (hred : A.Reduces G (x ++ z).head? m σ₀ σ) :
    ∃ υ r, A.Shifted G (w ++ x) υ ∧ A.Reduces G z.head? r υ τ := by
  generalize hc : (σ, x ++ z) = c at h
  generalize hd : (τ, z) = d at h
  induction h generalizing σ x w σ₀ m with
  | refl =>
    obtain ⟨rfl, hx⟩ := Prod.mk.inj (hc.trans hd.symm)
    obtain rfl : x = [] := by simpa using hx
    rw [List.append_nil]
    exact ⟨σ₀, m, hw, hred⟩
  | reduce h hs ih =>
    obtain ⟨rfl, rfl⟩ := Prod.mk.inj hc
    exact ih hw (hred.trans (.step h .refl)) rfl hd
  | @shift _ q q' σ' t u d haction hs ih =>
    obtain ⟨rfl, hx⟩ := Prod.mk.inj hc
    cases x with
    | nil =>
      have hlen := hs.length_le
      rw [← hd] at hlen
      have := congrArg List.length hx
      simp only [List.nil_append, List.length_cons] at this hlen
      omega
    | cons t' x =>
      obtain ⟨rfl, rfl⟩ := List.cons.inj hx
      have hsettles : A.Settles G (some t') σ₀ q σ' :=
        ⟨⟨m, hred⟩, fun p hp => by rw [haction] at hp; cases hp⟩
      have := ih (hw.snoc hsettles haction) .refl rfl hd
      rwa [List.append_assoc, List.singleton_append] at this

/-- An accepting run makes all reductions on what comes next, and goes on. -/
theorem Steps.exists_settled {d : List Q × List T} (h : A.Steps G n (σ, z) d) (hd : A.Accepted d) :
    ∃ r q τ, A.Reduces G z.head? r σ (q :: τ) ∧ (∀ p, A.action q z.head? ≠ some (.reduce p)) ∧
      A.action q z.head? ≠ none := by
  cases z with
  | nil =>
    obtain ⟨q, τ, ⟨⟨r, hr⟩, hend⟩, haction⟩ := h.settles hd
    exact ⟨r, q, τ, hr, hend, by rw [List.head?_nil, haction]; exact Option.some_ne_none _⟩
  | cons t z =>
    obtain ⟨q, τ, q', m, ⟨⟨r, hr⟩, hend⟩, haction, -⟩ := h.exists_shift hd
    exact ⟨r, q, τ, hr, hend, by rw [List.head?_cons, haction]; exact Option.some_ne_none _⟩

/-- The state on top of a stack on the way has an action. -/
theorem Reduces.action_ne_none (h : A.Reduces G a n σ (q' :: τ))
    (hend : ∀ p, A.action q' a ≠ some (.reduce p)) (hne : A.action q' a ≠ none)
    (h' : A.Reduces G a m σ (q :: υ)) : A.action q a ≠ none := by
  obtain ⟨k, rfl⟩ := Nat.exists_eq_add_of_le (h.le_of_settled hend h')
  obtain ⟨υ', hυ', hs⟩ := h.split
  rw [← h'.unique hυ'] at hs
  cases hs with
  | refl => exact hne
  | step hred _ =>
    cases hred with
    | mk haction =>
      rw [haction]
      exact Option.some_ne_none _

/-- **No empty rounds.**  A state never stands above itself with nothing read in between: the
sentences that pass through any number of rounds would all begin with the same reductions. -/
theorem not_above_self (hA : A.Describes G) (hprod : G.Productive)
    (hactions : ∀ q, {a | A.action q a ≠ none}.Finite) (hγ : A.Spells γ (q :: σ))
    (hw : Sentence G.Rule γ w) (h : A.Above q δ ρ) (hne : ρ ≠ []) (htop : topOf q ρ = q)
    (hnull : Sentence G.Rule δ []) : False := by
  obtain ⟨p, k, a, hitem⟩ := hγ.exists_any_item hA
  obtain ⟨v, hv⟩ := hprod p (hγ.valid hA hitem).mem k
  -- the stack after `m` rounds, and a sentence that leads the machine to it
  let stack (m : ℕ) : List Q := (List.replicate m ρ).flatten ++ q :: σ
  have hnulls : ∀ m, Sentence G.Rule (List.replicate m δ).flatten [] := by
    intro m
    induction m with
    | zero => exact .nil
    | succ m ih =>
      rw [List.replicate_succ, List.flatten_cons]
      exact Yields.append hnull ih
  have hsentence : ∀ m, ∃ z, Sentence G.Rule [.nonterminal G.start] (w ++ z) ∧
      ∃ n, A.Steps G n ([A.init], w ++ z) (stack m, z) := by
    intro m
    obtain ⟨habove, htop'⟩ := h.rounds htop m
    have hspells := habove.spells hγ
    obtain ⟨τ, hτ⟩ := append_eq_topOf_cons q (List.replicate m ρ).flatten σ
    rw [htop'] at hτ
    rw [hτ] at hspells
    obtain ⟨y, hy⟩ := hA.exists_steps hprod (hspells.valid hA hitem)
    have hprefix : Sentence G.Rule (γ ++ (List.replicate m δ).flatten) w := by
      have := Yields.append hw (hnulls m)
      rwa [List.append_nil] at this
    obtain ⟨hsentence, n, q', σ', hsteps, hspells', -⟩ := hy w v hprefix hv
    rw [← hspells.stack_unique hspells', ← hτ] at hsteps
    exact ⟨v ++ y, hsentence, n, hsteps⟩
  choose z hz n hsteps using hsentence
  -- all of them begin with reductions of one stack
  obtain ⟨υ, -, hυ, -⟩ := (hsteps 0).exists_reduces (m := 0) .nil .refl
  rw [List.nil_append] at hυ
  have hreduces : ∀ m, ∃ r, A.Reduces G (z m).head? r υ (stack m) := by
    intro m
    obtain ⟨υ', r, hυ', hr⟩ := (hsteps m).exists_reduces (m := 0) .nil .refl
    obtain rfl := hυ.unique hυ'
    exact ⟨r, hr⟩
  choose r hr using hreduces
  have hsettled : ∀ m, ∃ l q' τ, A.Reduces G (z m).head? l υ (q' :: τ) ∧
      (∀ p, A.action q' (z m).head? ≠ some (.reduce p)) ∧ A.action q' (z m).head? ≠ none := by
    intro m
    obtain ⟨_, hn⟩ := Derives.exists_of_sentence (hz m)
    obtain ⟨d, haccept, hd⟩ := hA.exists_accepted hn
    obtain ⟨τ, l, hτ, hrest⟩ := Shifted.nil.of_steps haccept hd w (z m) rfl
    obtain rfl := hυ.unique hτ
    exact hrest.exists_settled hd
  have haction : ∀ m, A.action q (z m).head? ≠ none := by
    intro m
    obtain ⟨l, q', τ, hl, hend, hsome⟩ := hsettled m
    obtain ⟨τ', hτ'⟩ := append_eq_topOf_cons q (List.replicate m ρ).flatten σ
    rw [(h.rounds htop m).2] at hτ'
    have hr := hr m
    rw [show stack m = q :: τ' from hτ'] at hr
    exact hl.action_ne_none hend hsome hr
  -- infinitely many of them have the same lookahead, but it allows for finitely many reductions
  have := (hactions q).to_subtype
  obtain ⟨⟨b, hb⟩, hfiber⟩ := Finite.exists_infinite_fiber fun m =>
    (⟨(z m).head?, haction m⟩ : {a | A.action q a ≠ none})
  have hhead : ∀ m ∈ Set.preimage
      (fun m => (⟨(z m).head?, haction m⟩ : {a | A.action q a ≠ none})) {⟨b, hb⟩},
      (z m).head? = b := fun m hm => congrArg Subtype.val hm
  obtain ⟨⟨m₀, hm₀⟩⟩ := hfiber.nonempty
  obtain ⟨l, q', τ, hl, hend, -⟩ := hsettled m₀
  rw [hhead m₀ hm₀] at hl hend
  have hle : ∀ m, (z m).head? = b → r m < l + 1 := fun m hm =>
    Nat.lt_succ_of_le (hl.le_of_settled hend (hm ▸ hr m))
  obtain ⟨⟨i, hi⟩, ⟨j, hj⟩, hij, heq⟩ := Finite.exists_ne_map_eq_of_infinite fun m :
      Set.preimage (fun m => (⟨(z m).head?, haction m⟩ : {a | A.action q a ≠ none})) {⟨b, hb⟩} =>
    (⟨r m, hle m (hhead m m.2)⟩ : Fin (l + 1))
  have hri : A.Reduces G b (r i) υ (stack i) := hhead i hi ▸ hr i
  have hrj : A.Reduces G b (r j) υ (stack j) := hhead j hj ▸ hr j
  have hlen := congrArg List.length (hri.unique (Fin.mk.inj heq ▸ hrj))
  have hpos := List.length_pos_iff.2 hne
  simp only [stack, List.length_append, List.length_flatten, List.map_replicate,
    List.sum_replicate_nat, add_left_inj] at hlen
  exact hij (Subtype.ext (Nat.eq_of_mul_eq_mul_right hpos hlen))

/-! ### Reductions are bounded -/

/-- The states that stand on some stack. -/
def reachableStates (A : LrAutomaton N T P Q) : Set Q := {q | ∃ γ σ, A.Spells γ σ ∧ q ∈ σ}

/-- Stacks that grow above one that is never popped again. -/
theorem exists_above (hA : A.Describes G) (hγ : A.Spells γ (q :: σ)) {f : ℕ → List Q} {i : ℕ}
    (hstep : ∀ n, A.Reduction G a (f n) (f (n + 1))) (hi : f i = q :: σ)
    (hlast : ∀ j, i < j → (f i).length < (f j).length) (n : ℕ) :
    ∃ δ ρ, f (i + n) = ρ ++ q :: σ ∧ A.Above q δ ρ ∧ ∃ m, Derives G.Rule m δ [] := by
  induction n with
  | zero => exact ⟨[], [], hi, .nil, 0, .nil⟩
  | succ n ih =>
    obtain ⟨δ, ρ, hρ, habove, hnull⟩ := ih
    have hred := hstep (i + n)
    have hlen := hlast (i + n + 1) (by omega)
    rw [hρ] at hred
    rw [hi] at hlen
    exact habove.reduction hA hγ hnull hred hlen

/-- **Reductions end**, on every lookahead: their number is bounded. -/
theorem Shifted.exists_reduces_le (hA : A.Describes G) (hprod : G.Productive)
    (hactions : ∀ q, {a | A.action q a ≠ none}.Finite) (hstates : A.reachableStates.Finite)
    (h : A.Shifted G w σ) (a : Option T) : ∃ N, ∀ n τ, A.Reduces G a n σ τ → n ≤ N := by
  by_contra hunbounded
  simp only [not_exists, not_forall, not_le] at hunbounded
  have hall : ∀ n, ∃ τ, A.Reduces G a n σ τ := by
    intro n
    obtain ⟨m, τ, hm, hlt⟩ := hunbounded n
    obtain ⟨k, rfl⟩ := Nat.exists_eq_add_of_le hlt.le
    obtain ⟨υ, hυ, -⟩ := hm.split
    exact ⟨υ, hυ⟩
  choose f hf using hall
  have hstep : ∀ n, A.Reduction G a (f n) (f (n + 1)) := by
    intro n
    obtain ⟨υ, hυ, hs⟩ := (hf (n + 1)).split
    rw [← (hf n).unique hυ] at hs
    cases hs with
    | step hred hs =>
      cases hs
      exact hred
  obtain ⟨γ, l, hγ, hw⟩ := h.exists_spells hA
  have hspells : ∀ n, ∃ δ, A.Spells δ (f n) ∧ Sentence G.Rule δ w := by
    intro n
    obtain ⟨δ, hδ, hderives⟩ := hγ.reduces hA (hf n)
    exact ⟨δ, hδ, (hderives l w hw).sentence⟩
  -- no stack comes back
  have hinj : Function.Injective f := by
    suffices hlt : ∀ i j, i < j → f i ≠ f j by
      intro i j hij
      by_contra hne
      rcases Nat.lt_or_gt_of_ne hne with hlt' | hlt'
      · exact hlt i j hlt' hij
      · exact hlt j i hlt' hij.symm
    intro i j hij heq
    obtain ⟨k, rfl⟩ := Nat.exists_eq_add_of_lt hij
    have hj := hf (i + k + 1)
    rw [Nat.add_assoc] at hj heq
    obtain ⟨υ, hυ, hs⟩ := hj.split
    rw [← (hf i).unique hυ, ← heq] at hs
    exact absurd (h.reduces_eq_zero hA hprod (hf i) hs) (Nat.succ_ne_zero k)
  -- only finitely many stacks have bounded height
  have hbounded : ∀ H, {n | (f n).length ≤ H}.Finite := by
    intro H
    have hlists : {υ : List Q | υ.length ≤ H ∧ ∀ q ∈ υ, q ∈ A.reachableStates}.Finite := by
      have := hstates.to_subtype
      refine ((List.finite_length_le A.reachableStates H).image (List.map Subtype.val)).subset ?_
      rintro υ ⟨hlen, hmem⟩
      exact ⟨υ.attach.map fun q => ⟨q.1, hmem q.1 q.2⟩, by simpa using hlen, by simp⟩
    refine (hlists.preimage hinj.injOn).subset fun n hn => ⟨hn, fun q hq => ?_⟩
    obtain ⟨δ, hδ, -⟩ := hspells n
    exact ⟨δ, f n, hδ, hq⟩
  -- so again and again there is a last time at some height
  have hlast : {i | ∀ j, i < j → (f i).length < (f j).length}.Infinite := by
    refine Set.infinite_of_not_bddAbove fun ⟨N, hN⟩ => ?_
    obtain ⟨i, hi, hmax⟩ := Set.exists_max_image _ id (hbounded (f (N + 1)).length)
      ⟨N + 1, le_refl (f (N + 1)).length⟩
    have hN' : N + 1 ≤ i := hmax (N + 1) (le_refl (f (N + 1)).length)
    have hmem : i ∈ {i | ∀ j, i < j → (f i).length < (f j).length} := by
      intro j hij
      by_contra hle
      have hji : j ≤ i := hmax j ((not_lt.1 hle).trans hi)
      omega
    have := hN hmem
    omega
  have htop : ∀ i, ∃ q τ, f i = q :: τ := by
    intro i
    obtain ⟨δ, hδ, -⟩ := hspells i
    exact List.exists_cons_of_ne_nil hδ.ne_nil
  choose top under htop using htop
  have hreach : ∀ i, top i ∈ A.reachableStates := by
    intro i
    obtain ⟨δ, hδ, -⟩ := hspells i
    exact ⟨δ, f i, hδ, by rw [htop i]; exact List.mem_cons_self⟩
  obtain ⟨i, hi, j, hj, hne, heq⟩ :=
    hlast.exists_ne_map_eq_of_mapsTo (fun i _ => hreach i) hstates
  -- two of these times have the same state on top
  have hround : ∀ i j, i < j → (∀ j, i < j → (f i).length < (f j).length) → top i = top j →
      False := by
    intro i j hij hlast heq
    obtain ⟨k, rfl⟩ := Nat.exists_eq_add_of_lt hij
    obtain ⟨δ, hδ, hw⟩ := hspells i
    rw [htop i] at hδ
    obtain ⟨ε, ρ, hρ, habove, m, hnull⟩ := exists_above hA hδ hstep (htop i) hlast (k + 1)
    have hlen := hlast _ hij
    rw [Nat.add_assoc, hρ, htop i, List.length_append] at hlen
    obtain ⟨τ, hτ⟩ := append_eq_topOf_cons (top i) ρ (under i)
    rw [← hρ, ← Nat.add_assoc, htop] at hτ
    exact not_above_self hA hprod hactions hδ hw habove
      (List.length_pos_iff.1 (by simpa using hlen)) ((List.cons.inj hτ).1.symm.trans heq.symm)
      hnull.sentence
  rcases Nat.lt_or_gt_of_ne hne with hij | hij
  · exact hround i j hij hi heq
  · exact hround j i hij hj heq.symm

end LrAutomaton

end OcEarley

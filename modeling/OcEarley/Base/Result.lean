import Mathlib.Data.List.Basic

/-!
# Functions that may fail

`Except` as the `Result` of the source: taking a successful run apart, the invariant rule of a
loop that stops at the first error, and weakest preconditions for the runs that have to be shown
to succeed.
-/

namespace OcEarley

variable {ε α β : Type}

namespace Result

theorem bind_eq_ok {x : Except ε α} {f : α → Except ε β} {b : β} :
    (x >>= f) = .ok b ↔ ∃ a, x = .ok a ∧ f a = .ok b := by
  cases x with
  | error e =>
    constructor
    · exact fun h => nomatch h
    · rintro ⟨_, ⟨⟩, -⟩
  | ok a =>
    constructor
    · exact fun h => ⟨a, rfl, h⟩
    · rintro ⟨_, ⟨rfl⟩, h⟩
      exact h

theorem bind_eq_error {x : Except ε α} {f : α → Except ε β} {e : ε} :
    (x >>= f) = .error e ↔ x = .error e ∨ ∃ a, x = .ok a ∧ f a = .error e := by
  cases x with
  | error e' =>
    change Except.error e' = .error e ↔ _
    constructor
    · exact fun h => .inl (congrArg _ (Except.error.inj h))
    · rintro (h | ⟨_, ⟨⟩, -⟩)
      exact congrArg _ (Except.error.inj h)
  | ok a =>
    constructor
    · exact fun h => .inr ⟨a, rfl, h⟩
    · rintro (⟨⟨⟩⟩ | ⟨_, ⟨rfl⟩, h⟩)
      exact h

@[simp] theorem pure_eq_ok {a b : α} : (pure a : Except ε α) = .ok b ↔ a = b := by
  change Except.ok a = .ok b ↔ _
  simp

@[simp] theorem throw_eq_ok {e : ε} {b : α} : (throw e : Except ε α) = .ok b ↔ False := by
  change Except.error e = .ok b ↔ _
  simp

theorem mapError_eq_ok {ε' : Type*} {m : Except ε α} {f : ε → ε'} {a : α} :
    m.mapError f = .ok a ↔ m = .ok a := by
  cases m <;> simp [Except.mapError]

/-- Fail with `e` unless `p` holds. -/
def require (p : Prop) [Decidable p] (e : ε) : Except ε Unit := if p then pure () else throw e

@[simp] theorem require_eq_ok {p : Prop} [Decidable p] {e : ε} {u : Unit} :
    require p e = .ok u ↔ p := by
  unfold require
  by_cases h : p <;> simp [h]

@[simp] theorem require_eq_error {p : Prop} [Decidable p] {e e' : ε} :
    require p e = .error e' ↔ ¬ p ∧ e = e' := by
  unfold require
  by_cases h : p
  · simp only [h, if_true, not_true_eq_false, false_and, iff_false]
    exact nofun
  · simp only [h, if_false, not_false_eq_true, true_and]
    exact ⟨Except.error.inj, congrArg _⟩

/-- The value of an option; `none` fails with `e`. -/
def unwrap (o : Option α) (e : ε) : Except ε α :=
  match o with
  | some a => pure a
  | none => throw e

@[simp] theorem unwrap_eq_ok {o : Option α} {e : ε} {a : α} :
    unwrap o e = .ok a ↔ o = some a := by
  cases o <;> simp [unwrap]

@[simp] theorem pure_bind_eq {a : α} {f : α → Except ε β} : (pure a >>= f) = f a := rfl

theorem toOption_eq_some {x : Except ε α} {a : α} : x.toOption = some a ↔ x = .ok a := by
  cases x <;> simp [Except.toOption]

/-- A map whose steps return the values of a function when they succeed. -/
theorem mapM_eq_map {f : α → Except ε β} {g : α → β} (hf : ∀ a b, f a = .ok b → b = g a)
    {l : List α} {r : List β} (h : l.mapM f = .ok r) : r = l.map g := by
  induction l generalizing r with
  | nil => exact (pure_eq_ok.1 h).symm
  | cons a l ih =>
    rw [List.mapM_cons] at h
    obtain ⟨b, hb, h⟩ := bind_eq_ok.1 h
    obtain ⟨bs, hbs, h⟩ := bind_eq_ok.1 h
    rw [← pure_eq_ok.1 h, hf a b hb, ih hbs]
    rfl

theorem allM_eq_all {f : α → Except ε Bool} {p : α → Bool} {l : List α}
    (h : ∀ a ∈ l, f a = .ok (p a)) : l.allM f = .ok (l.all p) := by
  induction l with
  | nil => rfl
  | cons a l ih =>
    have hl := ih fun b hb => h b (List.mem_cons_of_mem _ hb)
    rw [List.allM, h a List.mem_cons_self, List.all_cons]
    cases p a with
    | true => exact hl
    | false => rfl

/-- A loop that keeps the first `false` that it finds. -/
theorem foldlM_all {f : α → Except ε Bool} {p : α → Bool} {l : List α}
    (h : ∀ a ∈ l, f a = .ok (p a)) (safe : Bool) :
    l.foldlM (fun safe a => if safe then f a else pure false) safe = .ok (safe && l.all p) := by
  induction l generalizing safe with
  | nil => simp only [List.foldlM_nil, List.all_nil, Bool.and_true]; rfl
  | cons a l ih =>
    rw [List.forall_mem_cons] at h
    rw [List.foldlM_cons, List.all_cons]
    cases safe with
    | false => exact ih h.2 false
    | true =>
      rw [if_pos rfl, h.1, Bool.true_and]
      exact ih h.2 (p a)

/-- A loop that keeps the first `true` that it finds. -/
theorem foldlM_any {f : α → Except ε Bool} {p : α → Bool} {l : List α}
    (h : ∀ a ∈ l, f a = .ok (p a)) (found : Bool) :
    l.foldlM (fun found a => if found then pure true else f a) found = .ok (found || l.any p) := by
  induction l generalizing found with
  | nil => simp only [List.foldlM_nil, List.any_nil, Bool.or_false]; rfl
  | cons a l ih =>
    rw [List.forall_mem_cons] at h
    rw [List.foldlM_cons, List.any_cons]
    cases found with
    | true => exact ih h.2 true
    | false =>
      rw [if_neg Bool.false_ne_true, h.1, Bool.false_or]
      exact ih h.2 (p a)

theorem filterM_eq_filter {f : α → Except ε Bool} {p : α → Bool} {l : List α}
    (h : ∀ a ∈ l, f a = .ok (p a)) : l.filterM f = .ok (l.filter p) := by
  have haux : ∀ (l kept : List α), (∀ a ∈ l, f a = .ok (p a)) →
      l.filterAuxM f kept = .ok ((l.filter p).reverse ++ kept) := by
    intro l
    induction l with
    | nil => exact fun kept _ => rfl
    | cons a l ih =>
      intro kept h
      rw [List.filterAuxM, h a List.mem_cons_self]
      change l.filterAuxM f (bif p a then a :: kept else kept) = _
      rw [ih _ fun b hb => h b (List.mem_cons_of_mem _ hb)]
      cases hp : p a <;> simp [hp]
  rw [List.filterM, haux l [] h, List.append_nil]
  exact congrArg Except.ok (List.reverse_reverse _)

/-- Rule for a loop over a list that succeeded: `I` relates the elements read so
far to the accumulator. -/
theorem foldlM_induction {f : β → α → Except ε β} {I : List α → β → Prop} {l : List α} {b b' : β}
    (h : l.foldlM f b = .ok b') (h₀ : I [] b)
    (hstep : ∀ p a b b', I p b → f b a = .ok b' → I (p ++ [a]) b') : I l b' := by
  suffices H : ∀ (l p : List α) (b : β), I p b → l.foldlM f b = .ok b' → I (p ++ l) b' from
    H l [] b h₀ h
  intro l
  induction l with
  | nil =>
    intro p b hp h
    cases h
    simpa using hp
  | cons a l ih =>
    intro p b hp h
    rw [List.foldlM_cons] at h
    obtain ⟨b₁, hb, h⟩ := bind_eq_ok.1 h
    simpa using ih (p ++ [a]) b₁ (hstep p a b b₁ hp hb) h

theorem forM_eq_ok {f : α → Except ε Unit} {l : List α} {u : Unit} (h : l.forM f = .ok u) :
    ∀ a ∈ l, f a = .ok () := by
  induction l with
  | nil => exact fun a ha => absurd ha List.not_mem_nil
  | cons b l ih =>
    obtain ⟨⟨⟩, hb, h⟩ := bind_eq_ok.1 h
    intro a ha
    rcases List.mem_cons.1 ha with rfl | ha
    · exact hb
    · exact ih h a ha

theorem forM_eq_error {f : α → Except ε Unit} {l : List α} {e : ε} (h : l.forM f = .error e) :
    ∃ a ∈ l, f a = .error e := by
  induction l with
  | nil => cases h
  | cons a l ih =>
    rcases bind_eq_error.1 h with h | ⟨_, -, h⟩
    · exact ⟨a, List.mem_cons_self, h⟩
    · obtain ⟨b, hb, h⟩ := ih h
      exact ⟨b, List.mem_cons_of_mem _ hb, h⟩

/-! ### Weakest preconditions -/

/-- The result is `.ok` with `Q`, or an error in `E`. -/
def wp (E : ε → Prop) (m : Except ε α) (Q : α → Prop) : Prop :=
  match m with
  | .ok a => Q a
  | .error e => E e

section Wp

variable {E : ε → Prop} {Q : α → Prop}

@[simp] theorem wp_pure {a : α} : wp E (pure a) Q ↔ Q a := Iff.rfl

@[simp] theorem wp_throw {e : ε} : wp E (throw e) Q ↔ E e := Iff.rfl

@[simp] theorem wp_require {p : Prop} [Decidable p] {e : ε} {Q : Unit → Prop} :
    wp E (require p e) Q ↔ (p → Q ()) ∧ (¬ p → E e) := by
  unfold require
  by_cases h : p <;> simp [h]

theorem wp_unwrap {o : Option α} {e : ε} :
    wp E (unwrap o e) Q ↔ (∀ a, o = some a → Q a) ∧ (o = none → E e) := by
  cases o <;> simp [unwrap]

@[simp] theorem wp_unwrap_some {a : α} {e : ε} : wp E (unwrap (some a) e) Q ↔ Q a := Iff.rfl

@[simp] theorem wp_bind {m : Except ε β} {f : β → Except ε α} :
    wp E (m >>= f) Q ↔ wp E m fun b => wp E (f b) Q := by
  cases m <;> exact Iff.rfl

theorem wp_mono {m : Except ε α} {Q' : α → Prop} (h : wp E m Q) (hQ : ∀ a, Q a → Q' a) :
    wp E m Q' := by
  cases m with
  | ok a => exact hQ a h
  | error e => exact h

theorem wp_weaken {E' : ε → Prop} {m : Except ε α} (h : wp E m Q) (hE : ∀ e, E e → E' e) :
    wp E' m Q := by
  cases m with
  | ok a => exact h
  | error e => exact hE e h

/-- Rule for a loop over a list: `I` relates the elements read so far and those still to come to
the accumulator. -/
theorem wp_foldlM {γ : Type} {f : γ → β → Except ε γ} {I : List β → List β → γ → Prop}
    (hf : ∀ p b l c, I p (b :: l) c → wp E (f c b) (I (p ++ [b]) l)) :
    ∀ (p l : List β) (c : γ), I p l c → wp E (l.foldlM f c) (I (p ++ l) [])
  | p, [], _, h => by simpa using h
  | p, b :: l, c, h => by
    rw [List.foldlM_cons, wp_bind]
    refine wp_mono (hf p b l c h) fun c' h' => ?_
    simpa using wp_foldlM hf (p ++ [b]) l c' h'

/-- Rule for a map over a list. -/
theorem wp_mapM {f : β → Except ε α} {R : β → α → Prop} {l : List β}
    (h : ∀ b ∈ l, wp E (f b) (R b)) : wp E (l.mapM f) (List.Forall₂ R l) := by
  induction l with
  | nil => exact .nil
  | cons b l ih =>
    rw [List.mapM_cons, wp_bind]
    refine wp_mono (h b List.mem_cons_self) fun a ha => ?_
    rw [wp_bind]
    exact wp_mono (ih fun b hb => h b (List.mem_cons_of_mem _ hb)) fun r hr => .cons ha hr

theorem wp_forM {f : β → Except ε Unit} {l : List β} (h : ∀ b ∈ l, wp E (f b) fun _ => True) :
    wp E (l.forM f) fun _ => True := by
  induction l with
  | nil => trivial
  | cons b l ih =>
    refine wp_bind.2 (wp_mono (h b List.mem_cons_self) fun _ _ => ?_)
    exact ih fun a ha => h a (List.mem_cons_of_mem _ ha)

/-- Only the last step counts, errors apart. -/
theorem wp_last {m : Except ε β} {f : β → Except ε α}
    (hf : ∀ b, m = .ok b → wp (fun _ => True) (f b) Q) :
    wp (fun _ => True) (m >>= f) Q := by
  cases m with
  | ok b => exact hf b rfl
  | error e => trivial

/-- A run with no error left to fail with succeeds. -/
theorem exists_of_wp {m : Except ε α} (h : wp (fun _ => False) m Q) : ∃ a, m = .ok a ∧ Q a := by
  cases m with
  | ok a => exact ⟨a, rfl, h⟩
  | error e => exact h.elim

/-- A run may use its own equation. -/
theorem wp_self {m : Except ε α} (h : wp E m fun a => m = .ok a → Q a) : wp E m Q := by
  cases m with
  | ok a => exact h rfl
  | error e => exact h

theorem wp_ok {m : Except ε α} {a : α} (h : wp E m Q) (hm : m = .ok a) : Q a := by
  subst hm
  exact h

theorem wp_error {m : Except ε α} {e : ε} (h : wp E m Q) (hm : m = .error e) : E e := by
  subst hm
  exact h

end Wp

end Result

end OcEarley

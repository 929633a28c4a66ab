import Mathlib.Order.Defs.Unbundled

/-!
# Methods that may fail half-way

A method on a mutable receiver returns a value or an error, and the receiver keeps whatever was
written to it before the error.  `Method ε σ α` is that reading of `EStateM`.  Several ways to
reason about a method are used throughout:

* `Method.Moves R m` : every path through `m`, the failing ones included, moves the state along
  the relation `R` (frame conditions);
* `Method.wp E m Q s` : the call of `m` on `s` returns with `Q`, or fails with an error in `E`;
* `Method.Keeps E I m s` : whether it returns or fails, the receiver has `I` afterwards;
* `Method.bind_eq_ok` and its relatives, which take a successful run apart step by step.
-/

namespace OcEarley

/-- A method on a receiver of type `σ` which returns `α` or fails with `ε`. -/
abbrev Method (ε σ α : Type) := EStateM ε σ α

namespace Method

variable {ε σ α β : Type}

/-- The receiver after the call, on success and on failure. -/
def stateOf : EStateM.Result ε σ α → σ
  | .ok _ s => s
  | .error _ s => s

@[simp] theorem stateOf_ok (a : α) (s : σ) : stateOf (.ok a s : EStateM.Result ε σ α) = s := rfl

@[simp] theorem stateOf_error (e : ε) (s : σ) :
    stateOf (.error e s : EStateM.Result ε σ α) = s := rfl

/-- What the call returned. -/
def valueOf : EStateM.Result ε σ α → Except ε α
  | .ok a _ => .ok a
  | .error e _ => .error e

theorem valueOf_eq_ok {r : EStateM.Result ε σ α} {a : α} :
    valueOf r = .ok a ↔ r = .ok a (stateOf r) := by
  cases r <;> simp [valueOf, stateOf]

theorem valueOf_eq_error {r : EStateM.Result ε σ α} {e : ε} :
    valueOf r = .error e ↔ r = .error e (stateOf r) := by
  cases r <;> simp [valueOf, stateOf]

/-- Fail with `e` unless `p` holds. -/
def require (p : Prop) [Decidable p] (e : ε) : Method ε σ Unit := if p then pure () else throw e

/-- The value of an option; `none` fails with `e`. -/
def unwrap (o : Option α) (e : ε) : Method ε σ α :=
  match o with
  | some a => pure a
  | none => throw e

/-- A method on a part of the receiver, which `wrap` puts back. -/
def zoom {τ : Type} (wrap : σ → τ) (m : Method ε σ α) (s : σ) : EStateM.Result ε τ α :=
  match m s with
  | .ok a s' => .ok a (wrap s')
  | .error e s' => .error e (wrap s')

/-! ### Successful runs -/

theorem bind_apply {m : Method ε σ α} {f : α → Method ε σ β} {s : σ} :
    (m >>= f) s = match m s with
      | .ok a s' => f a s'
      | .error e s' => .error e s' := rfl

theorem bind_of_ok {m : Method ε σ α} {f : α → Method ε σ β} {s s' : σ} {a : α}
    (h : m s = .ok a s') : (m >>= f) s = f a s' := by
  rw [bind_apply, h]

theorem bind_of_error {m : Method ε σ α} {f : α → Method ε σ β} {s s' : σ} {e : ε}
    (h : m s = .error e s') : (m >>= f) s = .error e s' := by
  rw [bind_apply, h]

theorem modify_apply {f : σ → σ} {s : σ} :
    (modify f : Method ε σ PUnit) s = .ok ⟨⟩ (f s) := rfl

theorem get_bind_apply {f : σ → Method ε σ α} {s : σ} : (get >>= f) s = f s s := rfl

theorem get_apply {s : σ} : (get : Method ε σ σ) s = .ok s s := rfl

theorem bind_eq_ok {m : Method ε σ α} {f : α → Method ε σ β} {s s'' : σ} {b : β} :
    (m >>= f) s = .ok b s'' ↔ ∃ a s', m s = .ok a s' ∧ f a s' = .ok b s'' := by
  change (match m s with | .ok a s => f a s | .error e s => .error e s) = _ ↔ _
  cases h : m s with
  | ok a s' => exact ⟨fun h' => ⟨a, s', rfl, h'⟩, by rintro ⟨_, _, ⟨rfl, rfl⟩, h'⟩; exact h'⟩
  | error e s' => simp

@[simp] theorem pure_eq_ok {a b : α} {s s' : σ} :
    (pure a : Method ε σ α) s = .ok b s' ↔ a = b ∧ s = s' := by
  change EStateM.Result.ok a s = .ok b s' ↔ _
  simp

@[simp] theorem throw_eq_ok {e : ε} {b : α} {s s' : σ} :
    ((throw e : Method ε σ α) s = .ok b s') ↔ False := by
  change EStateM.Result.error e s = .ok b s' ↔ _
  simp

@[simp] theorem get_eq_ok {s s' t : σ} :
    (get : Method ε σ σ) s = .ok t s' ↔ t = s ∧ s' = s := by
  change EStateM.Result.ok s s = .ok t s' ↔ _
  simp [eq_comm]

@[simp] theorem modify_eq_ok {f : σ → σ} {u : PUnit} {s s' : σ} :
    (modify f : Method ε σ PUnit) s = .ok u s' ↔ s' = f s := by
  change EStateM.Result.ok PUnit.unit (f s) = .ok u s' ↔ _
  simp [eq_comm]

@[simp] theorem require_eq_ok {p : Prop} [Decidable p] {e : ε} {u : Unit} {s s' : σ} :
    (require p e : Method ε σ Unit) s = .ok u s' ↔ p ∧ s = s' := by
  unfold require
  by_cases h : p <;> simp [h]

@[simp] theorem unwrap_eq_ok {o : Option α} {e : ε} {a : α} {s s' : σ} :
    (unwrap o e : Method ε σ α) s = .ok a s' ↔ o = some a ∧ s = s' := by
  cases o <;> simp [unwrap]

theorem require_of {p : Prop} [Decidable p] {e : ε} {s : σ} (h : p) :
    (require p e : Method ε σ Unit) s = .ok () s :=
  require_eq_ok.2 ⟨h, rfl⟩

theorem zoom_eq_ok {τ : Type} {wrap : σ → τ} {m : Method ε σ α} {s s' : σ} {a : α}
    (h : m s = .ok a s') : zoom wrap m s = .ok a (wrap s') := by
  unfold zoom
  rw [h]

/-! ### Failing runs -/

theorem bind_eq_error {m : Method ε σ α} {f : α → Method ε σ β} {s s'' : σ} {e : ε} :
    (m >>= f) s = .error e s'' ↔
      m s = .error e s'' ∨ ∃ a s', m s = .ok a s' ∧ f a s' = .error e s'' := by
  change (match m s with | .ok a s => f a s | .error e s => .error e s) = _ ↔ _
  cases h : m s with
  | ok a s' =>
    constructor
    · exact fun h' => .inr ⟨a, s', rfl, h'⟩
    · rintro (h' | ⟨_, _, ⟨rfl, rfl⟩, h'⟩)
      · cases h'
      · exact h'
  | error e s' => simp

@[simp] theorem pure_eq_error {a : α} {e : ε} {s s' : σ} :
    (pure a : Method ε σ α) s = .error e s' ↔ False := by
  change EStateM.Result.ok a s = .error e s' ↔ _
  simp

@[simp] theorem throw_eq_error {e e' : ε} {s s' : σ} :
    ((throw e : Method ε σ α) s = .error e' s') ↔ e = e' ∧ s = s' := by
  change EStateM.Result.error e s = .error e' s' ↔ _
  simp

@[simp] theorem get_eq_error {e : ε} {s s' : σ} :
    (get : Method ε σ σ) s = .error e s' ↔ False := by
  change EStateM.Result.ok s s = .error e s' ↔ _
  simp

@[simp] theorem modify_eq_error {f : σ → σ} {e : ε} {s s' : σ} :
    (modify f : Method ε σ PUnit) s = .error e s' ↔ False := by
  change EStateM.Result.ok PUnit.unit (f s) = .error e s' ↔ _
  simp

@[simp] theorem require_eq_error {p : Prop} [Decidable p] {e e' : ε} {s s' : σ} :
    (require p e : Method ε σ Unit) s = .error e' s' ↔ ¬ p ∧ e = e' ∧ s = s' := by
  unfold require
  by_cases h : p <;> simp [h]

theorem require_of_not {p : Prop} [Decidable p] {e : ε} {s : σ} (h : ¬ p) :
    (require p e : Method ε σ Unit) s = .error e s :=
  require_eq_error.2 ⟨h, rfl, rfl⟩

theorem zoom_eq_error {τ : Type} {wrap : σ → τ} {m : Method ε σ α} {s s' : σ} {e : ε}
    (h : m s = .error e s') : zoom wrap m s = .error e (wrap s') := by
  unfold zoom
  rw [h]

/-! ### Frame conditions -/

/-- Every path through `m` moves the receiver along `R`. -/
def Moves (R : σ → σ → Prop) (m : Method ε σ α) : Prop := ∀ s, R s (stateOf (m s))

section Moves

variable {R : σ → σ → Prop}

theorem Moves.of_ok {m : Method ε σ α} {a : α} {s s' : σ} (h : Moves R m) (hm : m s = .ok a s') :
    R s s' := by
  have := h s
  rwa [hm] at this

theorem Moves.mono {R' : σ → σ → Prop} {m : Method ε σ α} (h : Moves R m)
    (hR : ∀ s s', R s s' → R' s s') : Moves R' m := fun s => hR _ _ (h s)

theorem Moves.of_error {m : Method ε σ α} {e : ε} {s s' : σ} (h : Moves R m)
    (hm : m s = .error e s') : R s s' := by
  have := h s
  rwa [hm] at this

theorem moves_pure [Std.Refl R] (a : α) : Moves R (pure a : Method ε σ α) :=
  fun s => refl_of R s

theorem moves_throw [Std.Refl R] (e : ε) : Moves R (throw e : Method ε σ α) :=
  fun s => refl_of R s

theorem moves_get [Std.Refl R] : Moves R (get : Method ε σ σ) := fun s => refl_of R s

theorem moves_modify {f : σ → σ} (h : ∀ s, R s (f s)) :
    Moves R (modify f : Method ε σ PUnit) := fun s => h s

theorem moves_bind [IsTrans σ R] {m : Method ε σ α}
    {f : α → Method ε σ β} (hm : Moves R m) (hf : ∀ a, Moves R (f a)) : Moves R (m >>= f) := by
  intro s
  have h := hm s
  change R s (stateOf (match m s with | .ok a s => f a s | .error e s => .error e s))
  cases hms : m s with
  | ok a s' => rw [hms] at h; exact trans_of R h (hf a s')
  | error e s' => rw [hms] at h; exact h

theorem moves_require [Std.Refl R] {p : Prop} [Decidable p] (e : ε) :
    Moves R (require p e : Method ε σ Unit) := by
  unfold require
  split
  · exact moves_pure ()
  · exact moves_throw e

theorem moves_unwrap [Std.Refl R] (o : Option α) (e : ε) :
    Moves R (unwrap o e : Method ε σ α) := by
  cases o with
  | none => exact moves_throw e
  | some a => exact moves_pure a

theorem moves_foldlM [Std.Refl R] [IsTrans σ R] {f : β → α → Method ε σ β}
    (hf : ∀ b a, Moves R (f b a)) (l : List α) (b : β) : Moves R (l.foldlM f b) := by
  induction l generalizing b with
  | nil => exact moves_pure b
  | cons a l ih =>
    rw [List.foldlM_cons]
    exact moves_bind (hf b a) ih

theorem moves_forM_of_mem [Std.Refl R] [IsTrans σ R] {f : α → Method ε σ PUnit} {l : List α}
    (hf : ∀ a ∈ l, Moves R (f a)) : Moves R (l.forM f) := by
  induction l with
  | nil => exact moves_pure _
  | cons a l ih =>
    obtain ⟨ha, hl⟩ := List.forall_mem_cons.1 hf
    exact moves_bind ha fun _ => ih hl

theorem moves_forM [Std.Refl R] [IsTrans σ R]
    {f : α → Method ε σ PUnit} (hf : ∀ a, Moves R (f a)) (l : List α) : Moves R (l.forM f) :=
  moves_forM_of_mem fun a _ => hf a

theorem moves_mapM [Std.Refl R] [IsTrans σ R] {f : α → Method ε σ β}
    (hf : ∀ a, Moves R (f a)) (l : List α) : Moves R (l.mapM f) := by
  induction l with
  | nil => exact moves_pure _
  | cons a l ih =>
    rw [List.mapM_cons]
    exact moves_bind (hf a) fun _ => moves_bind ih fun _ => moves_pure _

/-- The relation along which `I` is kept. -/
def Preserves (I : σ → Prop) (s s' : σ) : Prop := I s → I s'

instance (I : σ → Prop) : Std.Refl (Preserves I) := ⟨fun _ => id⟩

instance (I : σ → Prop) : IsTrans σ (Preserves I) := ⟨fun _ _ _ h h' => h' ∘ h⟩

/-- A method that keeps `I`, and another that needs it. -/
theorem stateOf_bind {I J : σ → Prop} {m : Method ε σ α} {f : α → Method ε σ β} {s : σ} (hs : I s)
    (hm : Moves (Preserves I) m) (hIJ : ∀ s, I s → J s) (hf : ∀ a s', I s' → J (stateOf (f a s'))) :
    J (stateOf ((m >>= f) s)) := by
  have h := hm s hs
  rw [bind_apply]
  cases hms : m s with
  | ok a s' =>
    rw [hms] at h
    exact hf a s' h
  | error e s' =>
    rw [hms] at h
    exact hIJ s' h

/-- A method that only reads. -/
theorem stateOf_read_bind {J : σ → Prop} {m : Method ε σ α} {f : α → Method ε σ β}
    {s : σ} (hs : J s) (hm : Moves Eq m) (hf : ∀ a, m s = .ok a s → J (stateOf (f a s))) :
    J (stateOf ((m >>= f) s)) := by
  have h := hm s
  rw [bind_apply]
  cases hms : m s with
  | ok a s' =>
    rw [hms] at h
    obtain rfl : s = s' := h
    exact hf a hms
  | error e s' =>
    rw [hms] at h
    obtain rfl : s = s' := h
    exact hs

/-! The receiver at the head of a method. -/

theorem stateOf_get_bind {f : σ → Method ε σ α} {s : σ} :
    stateOf ((get >>= f) s) = stateOf (f s s) := rfl

theorem stateOf_modify_bind {g : σ → σ} {f : PUnit → Method ε σ α} {s : σ} :
    stateOf ((modify g >>= f) s) = stateOf (f ⟨⟩ (g s)) := rfl

theorem stateOf_require_bind_cases {P : σ → Prop} {p : Prop} [Decidable p] {e : ε}
    {f : Unit → Method ε σ α} {s : σ} (hs : P s) (hf : p → P (stateOf (f () s))) :
    P (stateOf ((require p e >>= f) s)) := by
  unfold require
  split
  · next hp => exact hf hp
  · exact hs

theorem stateOf_require_bind {P : σ → Prop} {p : Prop} [Decidable p] {e : ε}
    {f : Unit → Method ε σ α} {s : σ} (hs : P s) (hf : P (stateOf (f () s))) :
    P (stateOf ((require p e >>= f) s)) :=
  stateOf_require_bind_cases hs fun _ => hf

theorem stateOf_require_bind_of {p : Prop} [Decidable p] {e : ε} {f : Unit → Method ε σ α} {s : σ}
    (hp : p) : stateOf ((require p e >>= f) s) = stateOf (f () s) := by
  unfold require
  rw [if_pos hp]
  rfl

theorem stateOf_require_bind_of_not {p : Prop} [Decidable p] {e : ε} {f : Unit → Method ε σ α}
    {s : σ} (hp : ¬ p) : stateOf ((require p e >>= f) s) = s := by
  unfold require
  rw [if_neg hp]
  rfl

end Moves

/-! ### Methods that check first -/

/-- The method changes nothing when it fails. -/
def Atomic (m : Method ε σ α) : Prop := ∀ s e s', m s = .error e s' → s' = s

theorem atomic_modify (f : σ → σ) : Atomic (modify f : Method ε σ PUnit) :=
  fun _ _ _ h => absurd h (by simp)

theorem atomic_get_bind {f : σ → Method ε σ α} (h : ∀ a, Atomic (f a)) : Atomic (get >>= f) :=
  fun s e s' hs => h s s e s' hs

theorem atomic_require_bind {p : Prop} [Decidable p] {e : ε} {f : Unit → Method ε σ α}
    (h : Atomic (f ())) : Atomic (require p e >>= f) := by
  intro s e' s' hs
  rcases bind_eq_error.1 hs with hs | ⟨u, t, ht, hs⟩
  · exact (require_eq_error.1 hs).2.2.symm
  · obtain rfl := (require_eq_ok.1 ht).2
    exact h _ _ _ hs

theorem Atomic.zoom {τ : Type} {wrap : σ → τ} {m : Method ε σ α} (h : Atomic m) {s : σ} {e : ε}
    {t : τ} (hs : zoom wrap m s = .error e t) : t = wrap s := by
  unfold Method.zoom at hs
  cases hm : m s with
  | ok a s' =>
    rw [hm] at hs
    cases hs
  | error e' s' =>
    rw [hm] at hs
    rw [← (EStateM.Result.error.inj hs).2, h _ _ _ hm]

/-! ### Two runs of a method

The results of two calls are `Alike` if both succeed with the same value or both fail with the same
error, on receivers that `R` relates. -/

/-- The results agree up to the receivers. -/
inductive Alike {τ : Type} (R : σ → τ → Prop) :
    EStateM.Result ε σ α → EStateM.Result ε τ α → Prop
  | ok {a : α} {s : σ} {t : τ} (h : R s t) : Alike R (.ok a s) (.ok a t)
  | error {e : ε} {s : σ} {t : τ} (h : R s t) : Alike R (.error e s) (.error e t)

section Alike

variable {τ : Type} {R : σ → τ → Prop} {s : σ} {t : τ}

theorem Alike.valueOf {x : EStateM.Result ε σ α} {y : EStateM.Result ε τ α} (h : Alike R x y) :
    valueOf x = valueOf y := by
  cases h <;> rfl

theorem Alike.stateOf {x : EStateM.Result ε σ α} {y : EStateM.Result ε τ α} (h : Alike R x y) :
    R (stateOf x) (stateOf y) := by
  cases h <;> assumption

theorem alike_pure {a : α} (h : R s t) :
    Alike R ((pure a : Method ε σ α) s) ((pure a : Method ε τ α) t) := .ok h

theorem alike_throw {e : ε} (h : R s t) :
    Alike R ((throw e : Method ε σ α) s) ((throw e : Method ε τ α) t) := .error h

theorem alike_modify {f : σ → σ} {g : τ → τ} (h : R (f s) (g t)) :
    Alike R ((modify f : Method ε σ PUnit) s) ((modify g : Method ε τ PUnit) t) := .ok h

theorem alike_require {p q : Prop} [Decidable p] [Decidable q] {e : ε} (hpq : p ↔ q) (h : R s t) :
    Alike R ((require p e : Method ε σ Unit) s) ((require q e : Method ε τ Unit) t) := by
  unfold require
  by_cases hp : p
  · rw [if_pos hp, if_pos (hpq.1 hp)]
    exact .ok h
  · rw [if_neg hp, if_neg (hp ∘ hpq.2)]
    exact .error h

theorem alike_unwrap {o : Option α} {e : ε} (h : R s t) :
    Alike R ((unwrap o e : Method ε σ α) s) ((unwrap o e : Method ε τ α) t) := by
  cases o
  · exact .error h
  · exact .ok h

theorem alike_bind {m : Method ε σ α} {m' : Method ε τ α} {f : α → Method ε σ β}
    {f' : α → Method ε τ β} (hm : Alike R (m s) (m' t))
    (hf : ∀ a s t, R s t → Alike R (f a s) (f' a t)) :
    Alike R ((m >>= f) s) ((m' >>= f') t) := by
  rw [bind_apply, bind_apply]
  cases hms : m s with
  | ok a s' =>
    rw [hms] at hm
    cases hmt : m' t with
    | ok b t' =>
      rw [hmt] at hm
      cases hm with
      | ok h => exact hf a s' t' h
    | error e t' =>
      rw [hmt] at hm
      cases hm
  | error e s' =>
    rw [hms] at hm
    cases hmt : m' t with
    | ok b t' =>
      rw [hmt] at hm
      cases hm
    | error e' t' =>
      rw [hmt] at hm
      cases hm with
      | error h => exact .error h

theorem alike_zoom {σ' τ' : Type} {R' : σ' → τ' → Prop} {wrap : σ → σ'} {wrap' : τ → τ'}
    {m : Method ε σ α} {m' : Method ε τ α} (hm : Alike R (m s) (m' t))
    (hwrap : ∀ s t, R s t → R' (wrap s) (wrap' t)) :
    Alike R' (zoom wrap m s) (zoom wrap' m' t) := by
  unfold zoom
  generalize m s = x at hm
  generalize m' t = y at hm
  cases hm with
  | ok h => exact .ok (hwrap _ _ h)
  | error h => exact .error (hwrap _ _ h)

theorem alike_get_bind {f : σ → Method ε σ α} {f' : τ → Method ε τ α}
    (h : Alike R (f s s) (f' t t)) : Alike R ((get >>= f) s) ((get >>= f') t) := h

theorem alike_forM {f : β → Method ε σ PUnit} {f' : β → Method ε τ PUnit} :
    ∀ {l : List β} {s : σ} {t : τ}, (∀ b ∈ l, ∀ s t, R s t → Alike R (f b s) (f' b t)) → R s t →
      Alike R (l.forM f s) (l.forM f' t)
  | [], _, _, _, h => .ok h
  | b :: _, s, t, hf, h =>
    alike_bind (hf b List.mem_cons_self s t h) fun _ _ _ h =>
      alike_forM (fun b hb => hf b (List.mem_cons_of_mem _ hb)) h

end Alike

/-! ### A run under tighter checks

Of two runs the first makes tighter checks than the second.  It stops with an error in `E`, or both
succeed with the same value on receivers that `R` relates, or both fail with the same error. -/

/-- The first result is the second one, or a stop. -/
inductive Agrees {τ : Type} (E : ε → Prop) (R : σ → τ → Prop) :
    EStateM.Result ε σ α → EStateM.Result ε τ α → Prop
  | stop {e : ε} {s : σ} {y : EStateM.Result ε τ α} (h : E e) : Agrees E R (.error e s) y
  | ok {a : α} {s : σ} {t : τ} (h : R s t) : Agrees E R (.ok a s) (.ok a t)
  | error {e : ε} {s : σ} {t : τ} : Agrees E R (.error e s) (.error e t)

/-- On related receivers the results agree. -/
def Follows {τ : Type} (E : ε → Prop) (R : σ → τ → Prop) (m : Method ε σ α) (m' : Method ε τ α) :
    Prop := ∀ s t, R s t → Agrees E R (m s) (m' t)

section Follows

variable {τ : Type} {E : ε → Prop} {R : σ → τ → Prop}

theorem Agrees.mono {R' : σ → τ → Prop} {x : EStateM.Result ε σ α} {y : EStateM.Result ε τ α}
    (h : Agrees E R x y) (hR : ∀ s t, R s t → R' s t) : Agrees E R' x y := by
  cases h with
  | stop h => exact .stop h
  | ok h => exact .ok (hR _ _ h)
  | error => exact .error

theorem Agrees.valueOf {x : EStateM.Result ε σ α} {y : EStateM.Result ε τ α} (h : Agrees E R x y) :
    (∃ e, E e ∧ valueOf x = .error e) ∨ valueOf x = valueOf y := by
  cases h with
  | stop h => exact .inl ⟨_, h, rfl⟩
  | ok h => exact .inr rfl
  | error => exact .inr rfl

theorem Agrees.of_ok {a : α} {s : σ} {y : EStateM.Result ε τ α} (h : Agrees E R (.ok a s) y) :
    ∃ t, y = .ok a t ∧ R s t := by
  cases h with
  | ok h => exact ⟨_, rfl, h⟩

theorem follows_pure (a : α) :
    Follows E R (pure a : Method ε σ α) (pure a : Method ε τ α) := fun _ _ h => .ok h

theorem follows_throw (e : ε) :
    Follows E R (throw e : Method ε σ α) (throw e : Method ε τ α) := fun _ _ _ => .error

theorem follows_modify {f : σ → σ} {g : τ → τ} (h : ∀ s t, R s t → R (f s) (g t)) :
    Follows E R (modify f : Method ε σ PUnit) (modify g : Method ε τ PUnit) :=
  fun s t hst => .ok (h s t hst)

theorem follows_require (p : Prop) [Decidable p] (e : ε) :
    Follows E R (require p e : Method ε σ Unit) (require p e : Method ε τ Unit) := by
  unfold require
  split
  · exact follows_pure ()
  · exact follows_throw e

/-- A check of the first run that is tighter stops with an error in `E`. -/
theorem follows_check {p q : Prop} [Decidable p] [Decidable q] {e e' : ε} (hpq : p → q)
    (he : E e) : Follows E R (require p e : Method ε σ Unit) (require q e' : Method ε τ Unit) := by
  intro s t h
  unfold require
  by_cases hp : p
  · rw [if_pos hp, if_pos (hpq hp)]
    exact .ok h
  · rw [if_neg hp]
    exact .stop he

theorem follows_unwrap (o : Option α) (e : ε) :
    Follows E R (unwrap o e : Method ε σ α) (unwrap o e : Method ε τ α) := by
  cases o with
  | none => exact follows_throw e
  | some a => exact follows_pure a

theorem agrees_bind {m : Method ε σ α} {m' : Method ε τ α} {f : α → Method ε σ β}
    {f' : α → Method ε τ β} {s : σ} {t : τ} (hm : Agrees E R (m s) (m' t))
    (hf : ∀ a, Follows E R (f a) (f' a)) : Agrees E R ((m >>= f) s) ((m' >>= f') t) := by
  rw [bind_apply, bind_apply]
  generalize m s = x at hm
  generalize m' t = y at hm
  cases hm with
  | stop h => exact .stop h
  | @ok a s t h => exact hf a s t h
  | error => exact .error

theorem follows_bind {m : Method ε σ α} {m' : Method ε τ α} {f : α → Method ε σ β}
    {f' : α → Method ε τ β} (hm : Follows E R m m') (hf : ∀ a, Follows E R (f a) (f' a)) :
    Follows E R (m >>= f) (m' >>= f') :=
  fun s t h => agrees_bind (hm s t h) hf

/-- Both runs read their receivers. -/
theorem follows_get_bind {f : σ → Method ε σ α} {f' : τ → Method ε τ α}
    (h : ∀ s t, R s t → Follows E R (f s) (f' t)) : Follows E R (get >>= f) (get >>= f') :=
  fun s t hst => h s t hst s t hst

theorem follows_foldlM {f : β → α → Method ε σ β} {f' : β → α → Method ε τ β}
    (hf : ∀ b a, Follows E R (f b a) (f' b a)) (l : List α) (b : β) :
    Follows E R (l.foldlM f b) (l.foldlM f' b) := by
  induction l generalizing b with
  | nil => exact follows_pure b
  | cons a l ih =>
    rw [List.foldlM_cons, List.foldlM_cons]
    exact follows_bind (hf b a) ih

theorem follows_forM {f : α → Method ε σ PUnit} {f' : α → Method ε τ PUnit}
    (hf : ∀ a, Follows E R (f a) (f' a)) (l : List α) : Follows E R (l.forM f) (l.forM f') := by
  induction l with
  | nil => exact follows_pure _
  | cons a l ih => exact follows_bind (hf a) fun _ => ih

theorem agrees_zoom {σ' τ' : Type} {R' : σ' → τ' → Prop} {wrap : σ → σ'} {wrap' : τ → τ'}
    {m : Method ε σ α} {m' : Method ε τ α} {s : σ} {t : τ} (hm : Agrees E R (m s) (m' t))
    (hwrap : ∀ s t, R s t → R' (wrap s) (wrap' t)) :
    Agrees E R' (zoom wrap m s) (zoom wrap' m' t) := by
  unfold zoom
  generalize m s = x at hm
  generalize m' t = y at hm
  cases hm with
  | stop h => exact .stop h
  | ok h => exact .ok (hwrap _ _ h)
  | error => exact .error

end Follows

/-! ### Weakest preconditions -/

/-- The call returns with `Q`, or fails with an error in `E`. -/
def wp (E : ε → Prop) (m : Method ε σ α) (Q : α → σ → Prop) (s : σ) : Prop :=
  match m s with
  | .ok a s' => Q a s'
  | .error e _ => E e

section Wp

variable {E : ε → Prop} {Q : α → σ → Prop} {s : σ}

@[simp] theorem wp_pure {a : α} : wp E (pure a) Q s ↔ Q a s := Iff.rfl

@[simp] theorem wp_throw {e : ε} : wp E (throw e) Q s ↔ E e := Iff.rfl

@[simp] theorem wp_get {Q : σ → σ → Prop} : wp E get Q s ↔ Q s s := Iff.rfl

@[simp] theorem wp_modify {f : σ → σ} {Q : PUnit → σ → Prop} :
    wp E (modify f) Q s ↔ Q ⟨⟩ (f s) := Iff.rfl

@[simp] theorem wp_require {p : Prop} [Decidable p] {e : ε} {Q : Unit → σ → Prop} :
    wp E (require p e) Q s ↔ (p → Q () s) ∧ (¬ p → E e) := by
  unfold require
  by_cases h : p <;> simp [h]

theorem wp_unwrap {o : Option α} {e : ε} :
    wp E (unwrap o e) Q s ↔ (∀ a, o = some a → Q a s) ∧ (o = none → E e) := by
  cases o <;> simp [unwrap]

@[simp] theorem wp_unwrap_some {a : α} {e : ε} : wp E (unwrap (some a) e) Q s ↔ Q a s := Iff.rfl

@[simp] theorem wp_bind {m : Method ε σ β} {f : β → Method ε σ α} :
    wp E (m >>= f) Q s ↔ wp E m (fun b => wp E (f b) Q) s := by
  change (match (match m s with | .ok a s => f a s | .error e s => .error e s) with
    | .ok a s' => Q a s' | .error e _ => E e) ↔ _
  cases h : m s with
  | ok a s' => simp only [wp, h]
  | error e s' => simp only [wp, h]

theorem wp_mono {m : Method ε σ α} {Q' : α → σ → Prop} (h : wp E m Q s)
    (hQ : ∀ a s', Q a s' → Q' a s') : wp E m Q' s := by
  unfold wp at h ⊢
  cases hm : m s with
  | ok a s' => rw [hm] at h; exact hQ _ _ h
  | error e s' => rw [hm] at h; exact h

theorem wp_and {m : Method ε σ α} {Q' : α → σ → Prop} (h : wp E m Q s) (h' : wp E m Q' s) :
    wp E m (fun a s' => Q a s' ∧ Q' a s') s := by
  unfold wp at h h' ⊢
  cases hm : m s with
  | ok a s' => rw [hm] at h h'; exact ⟨h, h'⟩
  | error e s' => rw [hm] at h; exact h

theorem wp_weaken {E' : ε → Prop} {m : Method ε σ α} (h : wp E m Q s) (hE : ∀ e, E e → E' e) :
    wp E' m Q s := by
  unfold wp at h ⊢
  cases hm : m s with
  | ok a s' => rw [hm] at h; exact h
  | error e s' => rw [hm] at h; exact hE e h

/-- The call itself may be used in what is shown of its result. -/
theorem wp_self {m : Method ε σ α} (h : wp E m (fun a s' => m s = .ok a s' → Q a s') s) :
    wp E m Q s := by
  unfold wp at h ⊢
  cases hm : m s with
  | ok a s' =>
    rw [hm] at h
    exact h rfl
  | error e s' =>
    rw [hm] at h
    exact h

/-- Only the last method counts, errors apart. -/
theorem wp_last {m : Method ε σ β} {f : β → Method ε σ α}
    (hf : ∀ b s, wp (fun _ => True) (f b) Q s) : wp (fun _ => True) (m >>= f) Q s := by
  rw [wp_bind]
  unfold wp
  cases m s with
  | ok b s' => exact hf b s'
  | error e s' => trivial

/-- Rule for a loop over a list: `I` relates the elements still to come to the receiver. -/
theorem wp_forM {f : β → Method ε σ PUnit} {I : List β → σ → Prop}
    (hf : ∀ b l s, I (b :: l) s → wp E (f b) (fun _ => I l) s) :
    ∀ (l : List β) (s : σ), I l s → wp E (l.forM f) (fun _ => I []) s
  | [], _, h => h
  | b :: l, s, h => by
    change wp E (f b >>= fun _ => l.forM f) _ s
    rw [wp_bind]
    exact wp_mono (hf b l s h) fun _ s' h' => wp_forM hf l s' h'

/-- Rule for a loop with an accumulator. -/
theorem wp_foldlM {γ : Type} {f : γ → β → Method ε σ γ} {I : List β → γ → σ → Prop}
    (hf : ∀ b l c s, I (b :: l) c s → wp E (f c b) (fun c' => I l c') s) :
    ∀ (l : List β) (c : γ) (s : σ), I l c s → wp E (l.foldlM f c) (fun c' => I [] c') s
  | [], _, _, h => h
  | b :: l, c, s, h => by
    rw [List.foldlM_cons, wp_bind]
    exact wp_mono (hf b l c s h) fun c' s' h' => wp_foldlM hf l c' s' h'

/-- A call on a part of the receiver. -/
theorem wp_zoom {τ : Type} {wrap : σ → τ} {m : Method ε σ α} {m' : Method ε τ α} {Q : α → τ → Prop}
    (hm : m' (wrap s) = zoom wrap m s) (h : wp E m (fun a s' => Q a (wrap s')) s) :
    wp E m' Q (wrap s) := by
  unfold wp at h ⊢
  rw [hm]
  unfold zoom
  cases hs : m s with
  | ok a s' => rw [hs] at h; exact h
  | error e s' => rw [hs] at h; exact h

theorem wp_ok {m : Method ε σ α} {a : α} {s' : σ} (h : wp E m Q s) (hm : m s = .ok a s') :
    Q a s' := by
  unfold wp at h; rw [hm] at h; exact h

theorem wp_error {m : Method ε σ α} {e : ε} {s' : σ} (h : wp E m Q s) (hm : m s = .error e s') :
    E e := by
  unfold wp at h; rw [hm] at h; exact h

end Wp

/-! ### Invariants -/

/-- However the call ends, `I` holds of the receiver, and an error is in `E`. -/
def Keeps (E : ε → Prop) (I : σ → Prop) (m : Method ε σ α) (s : σ) : Prop :=
  match m s with
  | .ok _ s' => I s'
  | .error e s' => E e ∧ I s'

section Keeps

variable {E : ε → Prop} {I : σ → Prop} {s : σ}

theorem keeps_pure {a : α} (h : I s) : Keeps E I (pure a) s := h

theorem keeps_get_bind {f : σ → Method ε σ α} (h : Keeps E I (f s) s) : Keeps E I (get >>= f) s := h

theorem keeps_modify_bind {g : σ → σ} {f : PUnit → Method ε σ α} (h : Keeps E I (f ⟨⟩) (g s)) :
    Keeps E I (modify g >>= f) s := h

theorem keeps_require_bind {p : Prop} [Decidable p] {e : ε} {f : Unit → Method ε σ α}
    (hf : p → Keeps E I (f ()) s) (he : ¬ p → E e ∧ I s) : Keeps E I (require p e >>= f) s := by
  unfold Keeps
  rw [bind_apply]
  by_cases hp : p
  · rw [require_of hp]
    exact hf hp
  · rw [require_of_not hp]
    exact he hp

/-- What the first method returns with is given by a precondition, and what it leaves behind when it
fails apart from that. -/
theorem keeps_bind {m : Method ε σ β} {f : β → Method ε σ α} {Q : β → σ → Prop} (hm : wp E m Q s)
    (herr : ∀ e s', m s = .error e s' → I s') (hf : ∀ b s', Q b s' → Keeps E I (f b) s') :
    Keeps E I (m >>= f) s := by
  unfold Keeps
  rw [bind_apply]
  cases hms : m s with
  | ok b s' => exact hf b s' (wp_ok hm hms)
  | error e s' => exact ⟨wp_error hm hms, herr e s' hms⟩

theorem Keeps.stateOf {m : Method ε σ α} (h : Keeps E I m s) : I (stateOf (m s)) := by
  unfold Keeps at h
  cases hm : m s with
  | ok a s' =>
    rw [hm] at h
    exact h
  | error e s' =>
    rw [hm] at h
    exact h.2

theorem Keeps.error {m : Method ε σ α} {e : ε} {s' : σ} (h : Keeps E I m s)
    (hm : m s = .error e s') :
    E e := by
  unfold Keeps at h
  rw [hm] at h
  exact h.1

end Keeps

end Method

end OcEarley

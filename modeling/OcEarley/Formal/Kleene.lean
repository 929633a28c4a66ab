import Mathlib.Computability.Language
import Mathlib.Order.CompletePartialOrder

/-!
# Walks over languages

The edges of a graph carry languages, and a walk of one edge or more spells words of them.  When one
more state may be passed, the walks are given by Kleene's formula (`walks_insert`); the walks to an
exit are the least solution of the linear system that the edges stand for (`walks_eq_of_least`).
-/

namespace OcEarley

variable {ι α : Type*}

/-- A walk that spells the word; in between it passes states of `P`. -/
inductive Walk (E : ι → ι → Language α) (P : ι → Prop) : ι → ι → List α → Prop
  | edge {s t : ι} {x : List α} (h : x ∈ E s t) : Walk E P s t x
  | step {s k t : ι} {x y : List α} (h : x ∈ E s k) (hk : P k) (hrest : Walk E P k t y) :
    Walk E P s t (x ++ y)

/-- The words of the walks from one state to another through the allowed states. -/
def walks (E : ι → ι → Language α) (P : ι → Prop) (s t : ι) : Language α :=
  {x | Walk E P s t x}

variable {E : ι → ι → Language α} {P Q : ι → Prop} {s t k : ι}

theorem le_walks : E s t ≤ walks E P s t := fun _ h => Walk.edge h

theorem mul_walks_le (hk : P k) : E s k * walks E P k t ≤ walks E P s t := by
  intro z hz
  obtain ⟨x, hx, y, hy, rfl⟩ := Language.mem_mul.1 hz
  exact Walk.step hx hk hy

/-- The walks are below everything that is closed under the edges. -/
theorem walks_le {X : ι → Language α} (hedge : ∀ s, E s t ≤ X s)
    (hstep : ∀ s k, P k → E s k * X k ≤ X s) : walks E P s t ≤ X s := by
  intro x h
  change Walk E P s t x at h
  induction h with
  | edge h => exact hedge _ h
  | step h hk _ ih => exact hstep _ _ hk (Language.append_mem_mul h (ih hedge))

theorem walks_mono (h : ∀ i, P i → Q i) : walks E P s t ≤ walks E Q s t :=
  walks_le (X := fun s => walks E Q s t) (fun _ => le_walks) fun _ _ hk => mul_walks_le (h _ hk)

/-- Walks are joined at a state that may be passed. -/
theorem walks_mul_walks (hk : P k) : walks E P s k * walks E P k t ≤ walks E P s t := by
  intro z hz
  obtain ⟨x, hx, y, hy, rfl⟩ := Language.mem_mul.1 hz
  change Walk E P s k x at hx
  induction hx with
  | edge h => exact Walk.step h hk hy
  | step h hj _ ih =>
    rw [List.append_assoc]
    exact Walk.step h hj (ih hk hy (Language.append_mem_mul ‹_› hy))

/-- **Kleene's formula**: what is spelt when one more state may be passed. -/
theorem walks_insert (hQ : ∀ i, Q i ↔ P i ∨ i = k) :
    walks E Q s t =
      walks E P s t + walks E P s k * KStar.kstar (walks E P k k) * walks E P k t := by
  have hmono : ∀ s t, walks E P s t ≤ walks E Q s t := fun s t =>
    walks_mono fun i hi => (hQ i).2 (.inl hi)
  have hpass : Q k := (hQ k).2 (.inr rfl)
  refine le_antisymm ?_ (add_le (hmono s t) ?_)
  · -- A walk is extended at its front, by an edge to a state of `P` or to `k`.
    refine walks_le (X := fun s => walks E P s t +
      walks E P s k * KStar.kstar (walks E P k k) * walks E P k t) (fun s => ?_) fun s j hj => ?_
    · exact le_add_right le_walks
    · rw [mul_add, ← mul_assoc, ← mul_assoc]
      rcases (hQ j).1 hj with hj | rfl
      · gcongr <;> exact mul_walks_le hj
      · refine (add_le ?_ ?_).trans le_add_self
        · calc E s j * walks E P j t
              ≤ walks E P s j * 1 * walks E P j t := by
                rw [mul_one]
                gcongr
                exact le_walks
            _ ≤ walks E P s j * KStar.kstar (walks E P j j) * walks E P j t := by
                gcongr
                exact one_le_kstar
        · calc E s j * walks E P j j * KStar.kstar (walks E P j j) * walks E P j t
              ≤ walks E P s j * (walks E P j j * KStar.kstar (walks E P j j)) * walks E P j t := by
                rw [← mul_assoc]
                gcongr
                exact le_walks
            _ ≤ walks E P s j * KStar.kstar (walks E P j j) * walks E P j t := by
                gcongr
                exact mul_kstar_le_kstar
  · -- The loops at `k` are taken one after the other.
    have hloops : walks E P s k * KStar.kstar (walks E P k k) ≤ walks E Q s k := by
      refine mul_kstar_le (hmono s k) ?_
      calc walks E Q s k * walks E P k k ≤ walks E Q s k * walks E Q k k := by
            gcongr
            exact hmono _ _
        _ ≤ walks E Q s k := walks_mul_walks hpass
    calc walks E P s k * KStar.kstar (walks E P k k) * walks E P k t
        ≤ walks E Q s k * walks E Q k t := by
          gcongr
          exact hmono _ _
      _ ≤ walks E Q s t := walks_mul_walks hpass

/-- **The walks to an exit are the least solution of a linear system**: every state stands for the
words of its edge to the exit, and for those of an edge to a state before a word of that state. -/
theorem walks_eq_of_least {X : ι → Language α}
    (hexit : ∀ s, P s → E s t ≤ X s) (hstep : ∀ s k, P s → P k → E s k * X k ≤ X s)
    (hleast : ∀ Y : ι → Language α, (∀ s, P s → E s t ≤ Y s) →
      (∀ s k, P s → P k → E s k * Y k ≤ Y s) → ∀ s, P s → X s ≤ Y s) (hs : P s) :
    walks E P s t = X s := by
  refine le_antisymm ?_ (hleast (fun s => walks E P s t) (fun _ _ => le_walks)
    (fun _ _ _ hk => mul_walks_le hk) s hs)
  intro x h
  change Walk E P s t x at h
  induction h with
  | edge h => exact hexit _ hs h
  | step h hk _ ih => exact hstep _ _ hs hk (Language.append_mem_mul h (ih hexit hleast hk))

end OcEarley

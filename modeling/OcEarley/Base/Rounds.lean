import OcEarley.Base.Result

/-!
# Loops that go on while something changes

`loop { changed = false; for item in items { .. } if !changed { break } }`.  The body returns the
state and says whether anything has changed; a change lowers a measure, and an item that changes
nothing is closed.  In the end all items are (`wp_rounds`).
-/

namespace OcEarley

namespace Rounds

variable {ε σ β : Type} {E : ε → Prop}

/-- The loop, with fuel for as many rounds as may change something. -/
def rounds (body : σ × Bool → β → Except ε (σ × Bool)) (items : List β) (diverged : ε) :
    ℕ → σ → Except ε σ
  | 0, _ => throw diverged
  | fuel + 1, state => do
    let result ← items.foldlM body (state, false)
    if result.2 then rounds body items diverged fuel result.1 else pure result.1

/-- What items do to a state: nothing, since all are closed, or a change for the better. -/
def Progresses (Closed : β → σ → Prop) (measure : σ → ℕ) (items : List β)
    (before after : σ × Bool) :
    Prop :=
  after = before ∧ (∀ b ∈ items, Closed b before.1) ∨
    after.2 = true ∧ measure after.1 < measure before.1

variable {body : σ × Bool → β → Except ε (σ × Bool)} {items : List β} {I : σ → Prop}
  {Closed : β → σ → Prop} {measure : σ → ℕ}

/-- One pass over the items. -/
theorem wp_pass (hbody : ∀ b ∈ items, ∀ before : σ × Bool, I before.1 →
      Result.wp E (body before b) fun after => I after.1 ∧
        Progresses Closed measure [b] before after)
    {before : σ × Bool} (hI : I before.1) :
    Result.wp E (items.foldlM body before) fun after =>
      I after.1 ∧ Progresses Closed measure items before after := by
  induction items generalizing before with
  | nil => exact Result.wp_pure.2 ⟨hI, .inl ⟨rfl, by simp⟩⟩
  | cons b items ih =>
    obtain ⟨hb, hitems⟩ := List.forall_mem_cons.1 hbody
    rw [List.foldlM_cons]
    refine Result.wp_bind.2 (Result.wp_mono (hb before hI) ?_)
    rintro middle ⟨hmiddle, hfirst⟩
    refine Result.wp_mono (ih hitems hmiddle) ?_
    rintro after ⟨hafter, hrest⟩
    refine ⟨hafter, ?_⟩
    rcases hfirst with ⟨rfl, hclosed⟩ | ⟨hchanged, hless⟩
    · rcases hrest with ⟨rfl, hall⟩ | hrest
      · exact .inl ⟨rfl, List.forall_mem_cons.2 ⟨hclosed b List.mem_cons_self, hall⟩⟩
      · exact .inr hrest
    · rcases hrest with ⟨rfl, -⟩ | ⟨hagain, hless'⟩
      · exact .inr ⟨hchanged, hless⟩
      · exact .inr ⟨hagain, Nat.lt_trans hless' hless⟩

/-- **The loop ends with all items closed.** -/
theorem wp_rounds {diverged : ε} (hbody : ∀ b ∈ items, ∀ before : σ × Bool, I before.1 →
      Result.wp E (body before b) fun after => I after.1 ∧
        Progresses Closed measure [b] before after)
    {fuel : ℕ} {state : σ} (hI : I state) (hfuel : measure state < fuel) :
    Result.wp E (rounds body items diverged fuel state) fun result =>
      I result ∧ ∀ b ∈ items, Closed b result := by
  induction fuel generalizing state with
  | zero => exact absurd hfuel (Nat.not_lt_zero _)
  | succ fuel ih =>
    refine Result.wp_bind.2 (Result.wp_mono (wp_pass hbody hI) ?_)
    rintro after ⟨hafter, ⟨rfl, hclosed⟩ | ⟨hchanged, hless⟩⟩
    · exact Result.wp_pure.2 ⟨hafter, hclosed⟩
    · rw [if_pos hchanged]
      exact ih hafter (Nat.lt_of_lt_of_le hless (Nat.le_of_lt_succ hfuel))

end Rounds

end OcEarley

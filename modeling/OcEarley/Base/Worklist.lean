import Mathlib.Data.Finset.Card
import OcEarley.Base.Result

/-!
# Worklists

The loop behind every search of the crate: take an element off the queue, compute its successors,
and push those that were not seen before.  `explore_closed` says that the result is closed under
successors, and `explore_induction` that it holds nothing but what the start leads to.
-/

namespace OcEarley

namespace Worklist

variable {ε α : Type} [DecidableEq α]

/-- Push the successors that were not seen; `check` is given the number of elements seen after
each of them. -/
def visit (check : ℕ → Except ε Unit) (queue seen : List α) :
    List α → Except ε (List α × List α)
  | [] => pure (queue, seen)
  | a :: l =>
    if a ∈ seen then visit check queue seen l
    else do
      check (seen.length + 1)
      visit check (queue ++ [a]) (seen ++ [a]) l

/-- `while let Some(a) = queue.pop_front()`, with fuel for as many elements as may be seen. -/
def explore (step : α → Except ε (List α)) (check : ℕ → Except ε Unit) (diverged : ε) :
    ℕ → List α → List α → Except ε (List α)
  | _, [], seen => pure seen
  | 0, _ :: _, _ => throw diverged
  | fuel + 1, a :: queue, seen => do
    let next ← step a
    let visited ← visit check queue seen next
    explore step check diverged fuel visited.1 visited.2

variable {step : α → Except ε (List α)} {check : ℕ → Except ε Unit} {diverged : ε}
  {queue seen l : List α} {r : List α × List α} {result : List α} {fuel : ℕ}

/-- Everything that is pushed is new, and everything that was asked for has been seen. -/
theorem visit_spec (h : visit check queue seen l = .ok r) :
    (∀ a, a ∈ r.2 ↔ a ∈ seen ∨ a ∈ l) ∧ (∀ a ∈ r.1, a ∈ queue ∨ a ∈ l) ∧
      (∀ a ∈ r.2, a ∈ seen ∨ a ∈ r.1) ∧ ∀ a ∈ queue, a ∈ r.1 := by
  induction l generalizing queue seen with
  | nil =>
    obtain rfl := Result.pure_eq_ok.1 h
    exact ⟨by simp, fun _ => .inl, fun _ => .inl, fun _ => id⟩
  | cons a l ih =>
    rw [visit] at h
    split at h
    · next ha =>
      obtain ⟨h₁, h₂, h₃, h₄⟩ := ih h
      refine ⟨fun b => ?_, fun b hb => ?_, h₃, h₄⟩
      · rw [h₁, List.mem_cons]
        constructor
        · rintro (hb | hb)
          · exact .inl hb
          · exact .inr (.inr hb)
        · rintro (hb | rfl | hb)
          · exact .inl hb
          · exact .inl ha
          · exact .inr hb
      · exact (h₂ b hb).imp_right (List.mem_cons_of_mem _)
    · obtain ⟨-, -, h⟩ := Result.bind_eq_ok.1 h
      obtain ⟨h₁, h₂, h₃, h₄⟩ := ih h
      refine ⟨fun b => by simp [h₁, or_assoc], fun b hb => ?_, fun b hb => ?_, fun b hb =>
        h₄ b (List.mem_append_left _ hb)⟩
      · rcases h₂ b hb with hb | hb
        · rcases List.mem_append.1 hb with hb | hb
          · exact .inl hb
          · exact .inr (List.mem_singleton.1 hb ▸ List.mem_cons_self)
        · exact .inr (List.mem_cons_of_mem _ hb)
      · rcases h₃ b hb with hb | hb
        · rcases List.mem_append.1 hb with hb | hb
          · exact .inl hb
          · exact .inr (h₄ b (List.mem_append_right _ hb))
        · exact .inr hb

/-- The result is closed: every element has successors, and they all are in the result. -/
theorem explore_closed (h : explore step check diverged fuel queue seen = .ok result)
    (hqueue : ∀ a ∈ queue, a ∈ seen)
    (hseen : ∀ a ∈ seen, a ∉ queue → ∃ l, step a = .ok l ∧ ∀ b ∈ l, b ∈ seen) :
    (∀ a ∈ seen, a ∈ result) ∧ ∀ a ∈ result, ∃ l, step a = .ok l ∧ ∀ b ∈ l, b ∈ result := by
  induction fuel generalizing queue seen with
  | zero =>
    cases queue with
    | nil =>
      obtain rfl := Result.pure_eq_ok.1 h
      exact ⟨fun _ => id, fun a ha => hseen a ha List.not_mem_nil⟩
    | cons a queue => cases h
  | succ fuel ih =>
    cases queue with
    | nil =>
      obtain rfl := Result.pure_eq_ok.1 h
      exact ⟨fun _ => id, fun a ha => hseen a ha List.not_mem_nil⟩
    | cons a queue =>
      rw [explore] at h
      obtain ⟨next, hnext, h⟩ := Result.bind_eq_ok.1 h
      obtain ⟨⟨queue', seen'⟩, hvisit, h⟩ := Result.bind_eq_ok.1 h
      obtain ⟨h₁, h₂, h₃, h₄⟩ := visit_spec hvisit
      have hmono : ∀ b ∈ seen, b ∈ seen' := fun b hb => (h₁ b).2 (.inl hb)
      obtain ⟨hsub, hclosed⟩ := ih h
        (fun b hb => (h₁ b).2 ((h₂ b hb).imp_left fun hb => hqueue b (List.mem_cons_of_mem _ hb)))
        (fun b hb hbq => by
          rcases h₃ b hb with hb | hb
          · by_cases hba : b = a
            · exact hba ▸ ⟨next, hnext, fun c hc => (h₁ c).2 (.inr hc)⟩
            · obtain ⟨l, hl, hl'⟩ := hseen b hb (by
                rintro (_ | ⟨_, hbq'⟩)
                · exact hba rfl
                · exact hbq (h₄ b hbq'))
              exact ⟨l, hl, fun c hc => hmono c (hl' c hc)⟩
          · exact absurd hb hbq)
      exact ⟨fun b hb => hsub b (hmono b hb), hclosed⟩

/-- What holds of the start and goes over to successors holds of the result. -/
theorem explore_induction {P : α → Prop}
    (h : explore step check diverged fuel queue seen = .ok result)
    (hqueue : ∀ a ∈ queue, P a) (hseen : ∀ a ∈ seen, P a)
    (hstep : ∀ a l, P a → step a = .ok l → ∀ b ∈ l, P b) : ∀ a ∈ result, P a := by
  induction fuel generalizing queue seen with
  | zero =>
    cases queue with
    | nil => exact Result.pure_eq_ok.1 h ▸ hseen
    | cons a queue => cases h
  | succ fuel ih =>
    cases queue with
    | nil => exact Result.pure_eq_ok.1 h ▸ hseen
    | cons a queue =>
      rw [explore] at h
      obtain ⟨next, hnext, h⟩ := Result.bind_eq_ok.1 h
      obtain ⟨⟨queue', seen'⟩, hvisit, h⟩ := Result.bind_eq_ok.1 h
      obtain ⟨h₁, h₂, -, -⟩ := visit_spec hvisit
      have hnext := hstep a next (hqueue a List.mem_cons_self) hnext
      refine ih h (fun b hb => ?_) (fun b hb => ?_)
      · exact (h₂ b hb).elim (fun hb => hqueue b (List.mem_cons_of_mem _ hb)) (hnext b)
      · exact ((h₁ b).1 hb).elim (hseen b) (hnext b)

/-! ### Searches that fail -/

theorem visit_error {e : ε} (h : visit check queue seen l = .error e) :
    ∃ n, check n = .error e := by
  induction l generalizing queue seen with
  | nil => cases h
  | cons a l ih =>
    rw [visit] at h
    split at h
    · exact ih h
    · rcases Result.bind_eq_error.1 h with h | ⟨_, -, h⟩
      · exact ⟨_, h⟩
      · exact ih h

/-- Every element that is pushed is seen once. -/
theorem visit_nodup (h : visit check queue seen l = .ok r) (hseen : seen.Nodup) :
    r.2.Nodup ∧ r.1.length + seen.length = queue.length + r.2.length := by
  induction l generalizing queue seen with
  | nil =>
    obtain rfl := Result.pure_eq_ok.1 h
    exact ⟨hseen, rfl⟩
  | cons a l ih =>
    rw [visit] at h
    split at h
    · exact ih h hseen
    · next ha =>
      obtain ⟨-, -, h⟩ := Result.bind_eq_ok.1 h
      have hnodup : (seen ++ [a]).Nodup :=
        List.nodup_append.2 ⟨hseen, List.nodup_singleton _, fun b hb c hc => by
          rw [List.mem_singleton.1 hc]
          exact fun hba => ha (hba ▸ hb)⟩
      obtain ⟨hr, hlen⟩ := ih h hnodup
      simp only [List.length_append, List.length_singleton] at hlen
      exact ⟨hr, by omega⟩

/-- With fuel for everything that the start can lead to, a search only fails where a step or a
check does. -/
theorem explore_error {P : α → Prop} {S : Finset α} {e : ε}
    (h : explore step check diverged fuel queue seen = .error e)
    (hqueue : ∀ a ∈ queue, P a) (hstep : ∀ a l, P a → step a = .ok l → ∀ b ∈ l, P b)
    (hS : ∀ a, P a → a ∈ S) (hseen : ∀ a ∈ seen, P a) (hnodup : seen.Nodup)
    (hfuel : queue.length + S.card ≤ fuel + seen.length) :
    (∃ a, P a ∧ step a = .error e) ∨ ∃ n, check n = .error e := by
  induction fuel generalizing queue seen with
  | zero =>
    cases queue with
    | nil => cases h
    | cons a queue =>
      have hle : seen.length ≤ S.card := by
        rw [← List.toFinset_card_of_nodup hnodup]
        exact Finset.card_le_card fun b hb => hS b (hseen b (List.mem_toFinset.1 hb))
      rw [List.length_cons] at hfuel
      omega
  | succ fuel ih =>
    cases queue with
    | nil => cases h
    | cons a queue =>
      rw [explore] at h
      rw [List.forall_mem_cons] at hqueue
      rcases Result.bind_eq_error.1 h with h | ⟨next, hnext, h⟩
      · exact .inl ⟨a, hqueue.1, h⟩
      have hnext := hstep a next hqueue.1 hnext
      rcases Result.bind_eq_error.1 h with h | ⟨⟨queue', seen'⟩, hvisit, h⟩
      · exact .inr (visit_error h)
      obtain ⟨h₁, h₂, -, -⟩ := visit_spec hvisit
      obtain ⟨hnodup', hlen⟩ := visit_nodup hvisit hnodup
      rw [List.length_cons] at hfuel
      refine ih h (fun b hb => ?_) (fun b hb => ?_) hnodup' ?_
      · exact (h₂ b hb).elim (hqueue.2 b) (hnext b)
      · exact ((h₁ b).1 hb).elim (hseen b) (hnext b)
      · dsimp only at hlen ⊢
        omega

/-- Nothing is pushed that the check does not let through. -/
theorem visit_length {bound : ℕ} (hcheck : ∀ n, check n = .ok () → n ≤ bound)
    (h : visit check queue seen l = .ok r) : r.1.length + seen.length = queue.length + r.2.length ∧
      (r.2.length = seen.length ∨ seen.length < r.2.length ∧ r.2.length ≤ bound) := by
  induction l generalizing queue seen with
  | nil =>
    obtain rfl := Result.pure_eq_ok.1 h
    exact ⟨rfl, .inl rfl⟩
  | cons a l ih =>
    rw [visit] at h
    split at h
    · exact ih h
    · obtain ⟨_, hpushed, h⟩ := Result.bind_eq_ok.1 h
      have := hcheck _ hpushed
      obtain ⟨hlen, hbound⟩ := ih h
      simp only [List.length_append, List.length_singleton] at hlen hbound
      omega

/-- With fuel for everything that the check lets through, a search only fails where a step or a
check does. -/
theorem explore_error_of_check {P : α → Prop} {bound : ℕ} {e : ε}
    (h : explore step check diverged fuel queue seen = .error e)
    (hqueue : ∀ a ∈ queue, P a) (hstep : ∀ a l, P a → step a = .ok l → ∀ b ∈ l, P b)
    (hcheck : ∀ n, check n = .ok () → n ≤ bound)
    (hfuel : queue.length + max bound seen.length ≤ fuel + seen.length) :
    (∃ a, P a ∧ step a = .error e) ∨ ∃ n, check n = .error e := by
  induction fuel generalizing queue seen with
  | zero =>
    cases queue with
    | nil => cases h
    | cons a queue =>
      rw [List.length_cons] at hfuel
      omega
  | succ fuel ih =>
    cases queue with
    | nil => cases h
    | cons a queue =>
      rw [explore] at h
      rw [List.forall_mem_cons] at hqueue
      rcases Result.bind_eq_error.1 h with h | ⟨next, hnext, h⟩
      · exact .inl ⟨a, hqueue.1, h⟩
      have hnext := hstep a next hqueue.1 hnext
      rcases Result.bind_eq_error.1 h with h | ⟨⟨queue', seen'⟩, hvisit, h⟩
      · exact .inr (visit_error h)
      obtain ⟨-, h₂, -, -⟩ := visit_spec hvisit
      obtain ⟨hlen, hbound⟩ := visit_length hcheck hvisit
      rw [List.length_cons] at hfuel
      refine ih h (fun b hb => (h₂ b hb).elim (hqueue.2 b) (hnext b)) ?_
      dsimp only at hlen hbound ⊢
      omega

end Worklist

end OcEarley

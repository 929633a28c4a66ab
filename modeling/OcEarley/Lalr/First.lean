import OcEarley.Lalr.Build

/-!
# FIRST sets

The passes of `computeFirst` end when a pass changes nothing, and then the sets are closed under the
productions (`computeFirst_closed`).  Closed sets hold every terminal that a derivation can begin
with, so `firstOfSymbols` finds all lookaheads (`mem_firstOfSymbols`).
-/

namespace OcEarley

namespace TerminalSet

/-- The terminal is in the set. -/
def Has (set : TerminalSet) (terminal : ℕ) : Prop := set.bits[terminal]? = some true

theorem mem_terminals {set : TerminalSet} {terminal : ℕ} :
    terminal ∈ set.terminals ↔ set.Has terminal ∧ terminal ≤ u32Max := by
  unfold terminals Has
  rw [List.mem_filter, List.mem_range, Bool.and_eq_true, decide_eq_true_iff]
  constructor
  · rintro ⟨hlt, hbit, hle⟩
    rw [List.getElem?_eq_getElem hlt] at hbit ⊢
    exact ⟨congrArg some hbit, hle⟩
  · rintro ⟨hbit, hle⟩
    exact ⟨(List.getElem?_eq_some_iff.1 hbit).1, by rw [hbit]; rfl, hle⟩

/-- A terminal that changes nothing was there. -/
theorem insert_eq_ok {set : TerminalSet} {terminal : ℕ} {r : TerminalSet × Bool}
    (h : set.insert terminal = .ok r) :
    r.1.bits.length = set.bits.length ∧ (r.2 = false → r.1 = set ∧ set.Has terminal) := by
  obtain ⟨bit, hbit, h⟩ := Result.bind_eq_ok.1 h
  have hbit := Result.unwrap_eq_ok.1 hbit
  obtain rfl := Result.pure_eq_ok.1 h
  refine ⟨List.length_set, fun hsame => ?_⟩
  obtain rfl : bit = true := by simpa using hsame
  obtain ⟨hlt, hget⟩ := List.getElem?_eq_some_iff.1 hbit
  refine ⟨?_, hbit⟩
  cases set with
  | mk bits epsilon => rw [← hget, List.set_getElem_self]

/-- A union that changes nothing has nothing new. -/
theorem unionWithoutEpsilon_spec (set other : TerminalSet) :
    (set.unionWithoutEpsilon other).1.bits.length = set.bits.length ∧
    ((set.unionWithoutEpsilon other).2 = false → (set.unionWithoutEpsilon other).1 = set ∧
      (other.bits.length = set.bits.length → ∀ terminal, other.Has terminal →
        set.Has terminal)) := by
  unfold unionWithoutEpsilon
  refine ⟨by simp; omega, fun hsame => ?_⟩
  have hbits : set.bits.zipWith (· || ·) other.bits ++
      set.bits.drop other.bits.length = set.bits := by
    simpa using hsame
  refine ⟨by dsimp only; rw [hbits], fun hlen terminal hother => ?_⟩
  have hother : other.bits[terminal]? = some true := hother
  obtain ⟨hlt, hget⟩ := List.getElem?_eq_some_iff.1 hother
  unfold Has
  rw [← hbits, List.getElem?_append_left (by simp; omega)]
  simp [List.getElem?_zipWith, hother, List.getElem?_eq_getElem (hlen ▸ hlt)]

end TerminalSet

namespace FirstPass

variable (grammar : ResidualGrammar)

/-- The set of a nonterminal has a terminal. -/
def Has (first : List TerminalSet) (nonterminal terminal : ℕ) : Prop :=
  ∃ set, first[nonterminal]? = some set ∧ set.Has terminal

/-- The set of the left-hand side has what a right-hand side can begin with. -/
def ClosedRhs (first : List TerminalSet) (lhs : ℕ) : List GrammarSymbol → Prop
  | [] => True
  | .terminal terminal :: _ => Has first lhs terminal
  | .nonterminal nonterminal :: rest =>
    (∀ terminal, Has first nonterminal terminal → Has first lhs terminal) ∧
      (grammar.nullable[nonterminal]? = some true → ClosedRhs first lhs rest)

/-- All sets have the same length. -/
def Even (size : ℕ) (first : List TerminalSet) : Prop := ∀ set ∈ first, set.bits.length = size

variable {grammar} {size : ℕ}

theorem Even.set {first : List TerminalSet} {i : ℕ} {old new : TerminalSet} (h : Even size first)
    (hold : first[i]? = some old) (hlen : new.bits.length = old.bits.length) :
    Even size (first.set i new) := by
  intro s hs
  rcases List.mem_or_eq_of_mem_set hs with hs | rfl
  · exact h s hs
  · rw [hlen]
    exact h old (List.mem_of_getElem? hold)

theorem set_self {first : List TerminalSet} {i : ℕ} {set : TerminalSet} (h : first[i]? = some set) :
    first.set i set = first := by
  obtain ⟨hlt, rfl⟩ := List.getElem?_eq_some_iff.1 h
  exact List.set_getElem_self hlt

/-- What one part of a pass does: it keeps the lengths, and without a change
everything is as before. -/
structure Step (size : ℕ) (pass pass' : FirstPass) : Prop where
  even : Even size pass.first → Even size pass'.first
  same : pass'.changed = false → pass.changed = false ∧ pass'.first = pass.first

theorem Step.trans {a b c : FirstPass} (h : Step size a b) (h' : Step size b c) : Step size a c :=
  ⟨h'.even ∘ h.even, fun hc =>
    have hb := h'.same hc
    ⟨(h.same hb.1).1, hb.2.trans (h.same hb.1).2⟩⟩

theorem rhs_spec (size : ℕ) {lhs : ℕ} {β : List GrammarSymbol} {pass : FirstPass}
    {r : FirstPass × Bool} (h : rhs grammar lhs β pass = .ok r) :
    Step size pass r.1 ∧ (Even size pass.first → r.1.changed = false →
      ClosedRhs grammar pass.first lhs β) := by
  -- along the right-hand side, until a symbol that is not nullable
  induction β generalizing pass with
  | nil =>
    obtain rfl := Result.pure_eq_ok.1 h
    exact ⟨⟨id, fun h => ⟨h, rfl⟩⟩, fun _ _ => trivial⟩
  | cons X β ih =>
    cases X with
    | terminal t =>
      obtain ⟨set, hset, h⟩ := Result.bind_eq_ok.1 h
      have hset := Result.unwrap_eq_ok.1 hset
      obtain ⟨inserted, hinsert, h⟩ := Result.bind_eq_ok.1 h
      obtain rfl := Result.pure_eq_ok.1 h
      obtain ⟨hlen, hsame⟩ := TerminalSet.insert_eq_ok hinsert
      refine ⟨⟨fun he => he.set hset hlen, fun hch => ?_⟩, fun _ hch => ?_⟩
      · obtain ⟨hch, hins⟩ := Bool.or_eq_false_iff.1 hch
        refine ⟨hch, ?_⟩
        dsimp only
        rw [(hsame hins).1, set_self hset]
      · exact ⟨set, hset, (hsame (Bool.or_eq_false_iff.1 hch).2).2⟩
    | nonterminal B =>
      obtain ⟨other, hother, h⟩ := Result.bind_eq_ok.1 h
      have hother := Result.unwrap_eq_ok.1 hother
      obtain ⟨set, hset, h⟩ := Result.bind_eq_ok.1 h
      have hset := Result.unwrap_eq_ok.1 hset
      obtain ⟨nullable, hnullable, h⟩ := Result.bind_eq_ok.1 h
      have hnullable := Result.unwrap_eq_ok.1 hnullable
      obtain ⟨hlen, hsame⟩ := TerminalSet.unionWithoutEpsilon_spec set other
      -- the union changes nothing exactly when the set had all of it
      have hunion : Step size pass ⟨pass.first.set lhs (set.unionWithoutEpsilon other).1,
          pass.changed || (set.unionWithoutEpsilon other).2⟩ := by
        refine ⟨fun he => he.set hset hlen, fun hch => ?_⟩
        obtain ⟨hch, hnew⟩ := Bool.or_eq_false_iff.1 hch
        refine ⟨hch, ?_⟩
        dsimp only
        rw [(hsame hnew).1, set_self hset]
      have hmore : Even size pass.first →
          (pass.changed || (set.unionWithoutEpsilon other).2) = false →
          ∀ terminal, Has pass.first B terminal → Has pass.first lhs terminal := by
        rintro he hch terminal ⟨other', hother', hhas⟩
        obtain rfl : other = other' := Option.some.inj (hother.symm.trans hother')
        refine ⟨set, hset, (hsame (Bool.or_eq_false_iff.1 hch).2).2 ?_ terminal hhas⟩
        rw [he _ (List.mem_of_getElem? hother), he _ (List.mem_of_getElem? hset)]
      cases nullable with
      | true =>
        obtain ⟨hstep, hclosed⟩ := ih h
        refine ⟨hunion.trans hstep, fun he hch => ?_⟩
        obtain ⟨hch', hfirst⟩ := hunion.same (hstep.same hch).1
        have hrest := hclosed (hunion.even he) hch
        rw [hfirst] at hrest
        exact ⟨hmore he (hstep.same hch).1, fun _ => hrest⟩
      | false =>
        obtain rfl := Result.pure_eq_ok.1 h
        refine ⟨hunion, fun he hch => ⟨hmore he hch, fun hnull => ?_⟩⟩
        rw [hnullable] at hnull
        cases hnull

theorem production_spec (size : ℕ) {pass pass' : FirstPass} {p : ResidualProduction}
    (h : production grammar pass p = .ok pass') :
    Step size pass pass' ∧ (Even size pass.first → pass'.changed = false →
      ClosedRhs grammar pass.first p.lhs p.rhs) := by
  obtain ⟨⟨pass₁, nullable⟩, hrhs, h⟩ := Result.bind_eq_ok.1 h
  obtain ⟨hstep, hclosed⟩ := rhs_spec size hrhs
  cases nullable with
  | false =>
    obtain rfl := Result.pure_eq_ok.1 h
    exact ⟨hstep, hclosed⟩
  | true =>
    obtain ⟨set, hset, h⟩ := Result.bind_eq_ok.1 h
    have hset := Result.unwrap_eq_ok.1 hset
    by_cases heps : set.epsilon = true
    · rw [if_pos heps] at h
      obtain rfl := Result.pure_eq_ok.1 h
      exact ⟨hstep, hclosed⟩
    · rw [if_neg heps] at h
      obtain rfl := Result.pure_eq_ok.1 h
      refine ⟨hstep.trans ⟨fun he => he.set hset rfl, fun hch => ?_⟩, fun _ hch => ?_⟩ <;> cases hch

/-- The sets are closed under every production. -/
def Closed (grammar : ResidualGrammar) (first : List TerminalSet) : Prop :=
  ∀ p ∈ grammar.productions, ClosedRhs grammar first p.lhs p.rhs

/-- A pass without a change has found the sets closed. -/
theorem pass_spec {first : List TerminalSet} {pass : FirstPass}
    (h : grammar.productions.foldlM (production grammar) ⟨first, false⟩ = .ok pass)
    (he : Even size first) :
    Even size pass.first ∧ (pass.changed = false → Closed grammar pass.first) := by
  have key := Result.foldlM_induction
    (I := fun (done : List ResidualProduction) (pass : FirstPass) => Even size pass.first ∧
      (pass.changed = false → ∀ p ∈ done, ClosedRhs grammar pass.first p.lhs p.rhs)) h
    ⟨he, fun _ p hp => absurd hp List.not_mem_nil⟩
    (fun done p pass pass' hI hp => by
      obtain ⟨hstep, hclosed⟩ := production_spec size hp
      refine ⟨hstep.even hI.1, fun hch q hq => ?_⟩
      obtain ⟨hch', hsame⟩ := hstep.same hch
      rw [hsame]
      rcases List.mem_append.1 hq with hq | hq
      · exact hI.2 hch' q hq
      · obtain rfl := List.mem_singleton.1 hq
        exact hclosed hI.1 hch)
  exact key

theorem passes_spec (size : ℕ) {fuel : ℕ} {first result : List TerminalSet}
    (h : passes grammar fuel first = .ok result) (he : Even size first) :
    Closed grammar result := by
  induction fuel generalizing first with
  | zero => cases h
  | succ fuel ih =>
    obtain ⟨pass, hpass, h⟩ := Result.bind_eq_ok.1 h
    obtain ⟨he', hclosed⟩ := pass_spec hpass he
    cases hch : pass.changed with
    | true =>
      rw [hch] at h
      exact ih h he'
    | false =>
      rw [hch] at h
      obtain rfl := Result.pure_eq_ok.1 h
      exact hclosed hch

end FirstPass

theorem computeFirst_closed {grammar : ResidualGrammar} {first : List TerminalSet}
    (h : computeFirst grammar = .ok first) : FirstPass.Closed grammar first :=
  FirstPass.passes_spec (64 * ((grammar.terminals.length + 63) / 64)) h fun set hset => by
    rw [(List.mem_replicate.1 hset).2]
    exact List.length_replicate

/-! ### The passes end -/

/-- A union of bits has one more if it is another one. -/
theorem count_or (l l' : List Bool) :
    l.count true + (l.zipWith (· || ·) l' ++ l.drop l'.length != l).toNat ≤
      (l.zipWith (· || ·) l' ++ l.drop l'.length).count true := by
  induction l generalizing l' with
  | nil => simp
  | cons a l ih =>
    cases l' with
    | nil => simp
    | cons b l' =>
      have ih := ih l'
      rw [List.zipWith_cons_cons, List.length_cons, List.drop_succ_cons, List.cons_append,
        List.count_cons, List.count_cons]
      have hne : ∀ (c : Bool) (r : List Bool), (c :: r != a :: l).toNat ≤
          (c != a).toNat + (r != l).toNat := by
        intro c r
        have hle := Bool.toNat_le (c :: r != a :: l)
        by_cases hc : c = a
        · by_cases hr : r = l
          · simp [hc, hr]
          · simp only [bne_iff_ne.2 hr, Bool.toNat_true]
            omega
        · simp only [bne_iff_ne.2 hc, Bool.toNat_true]
          omega
      have := hne (a || b) (l.zipWith (· || ·) l' ++ l.drop l'.length)
      cases a <;> cases b <;> simp at this ih ⊢ <;> omega

namespace TerminalSet

/-- The number of bits that are set. -/
def weight (set : TerminalSet) : ℕ := set.bits.count true + set.epsilon.toNat

theorem weight_le (set : TerminalSet) : set.weight ≤ set.bits.length + 1 :=
  Nat.add_le_add List.count_le_length (Bool.toNat_le _)

theorem wp_insert {set : TerminalSet} {terminal : ℕ} (h : terminal < set.bits.length) :
    Result.wp (fun _ => False) (set.insert terminal) fun r =>
      r.1.bits.length = set.bits.length ∧ set.weight + r.2.toNat = r.1.weight := by
  unfold insert
  rw [List.getElem?_eq_getElem h]
  refine ⟨List.length_set, ?_⟩
  dsimp only [weight]
  rw [List.count_set h]
  cases hbit : set.bits[terminal] with
  | true =>
    have : 0 < set.bits.count true := List.count_pos_iff.2 (hbit ▸ List.getElem_mem h)
    simp
    omega
  | false =>
    simp
    omega

theorem weight_union (set other : TerminalSet) :
    set.weight + (set.unionWithoutEpsilon other).2.toNat ≤
      (set.unionWithoutEpsilon other).1.weight := by
  have := count_or set.bits other.bits
  dsimp only [weight, unionWithoutEpsilon]
  omega

end TerminalSet

namespace FirstPass

variable {grammar : ResidualGrammar} {size : ℕ} {first : List TerminalSet} {pass pass' : FirstPass}

/-- The number of bits that are set in all the sets. -/
def total (first : List TerminalSet) : ℕ := (first.map TerminalSet.weight).sum

theorem total_le (he : Even size first) : total first ≤ first.length * (size + 1) := by
  induction first with
  | nil => exact Nat.zero_le _
  | cons set first ih =>
    obtain ⟨hset, he⟩ := List.forall_mem_cons.1 he
    have hweight := set.weight_le
    rw [hset] at hweight
    rw [List.length_cons, Nat.succ_mul, Nat.add_comm]
    exact Nat.add_le_add hweight (ih he)

/-- What a part of a pass does to the sets: they keep their lengths, and a change makes
one of them larger. -/
structure Grows (size : ℕ) (pass pass' : FirstPass) : Prop where
  length : pass'.first.length = pass.first.length
  even : Even size pass.first → Even size pass'.first
  total : total pass.first + pass'.changed.toNat ≤ total pass'.first + pass.changed.toNat

theorem Grows.refl (size : ℕ) (pass : FirstPass) : Grows size pass pass := ⟨rfl, id, le_rfl⟩

theorem Grows.trans {a b c : FirstPass} (h : Grows size a b) (h' : Grows size b c) :
    Grows size a c :=
  ⟨h'.length.trans h.length, h'.even ∘ h.even, by
    have := h.total
    have := h'.total
    omega⟩

theorem grows_set {i : ℕ} {old new : TerminalSet} {changed : Bool}
    (hold : pass.first[i]? = some old)
    (hlen : new.bits.length = old.bits.length) (hweight : old.weight + changed.toNat ≤ new.weight) :
    Grows size pass ⟨pass.first.set i new, pass.changed || changed⟩ := by
  refine ⟨List.length_set, fun he => he.set hold hlen, ?_⟩
  have hsum := sum_map_modify (g := TerminalSet.weight) (f := fun _ => new) hold
  rw [← List.set_eq_modify] at hsum
  have hor : (pass.changed || changed).toNat ≤ pass.changed.toNat + changed.toNat := by
    cases pass.changed <;> cases changed <;> simp
  dsimp only [FirstPass.total]
  omega

section Total

variable (hnull : grammar.nullable.length = grammar.nonterminals.length)
  (hsize : grammar.terminals.length ≤ size)
include hnull hsize

theorem wp_rhs {lhs : ℕ} {β : List GrammarSymbol} (hlhs : lhs < grammar.nonterminals.length)
    (hβ : ∀ s ∈ β, grammar.SymbolInRange s)
    (hlen : pass.first.length = grammar.nonterminals.length) (he : Even size pass.first) :
    Result.wp (fun _ => False) (rhs grammar lhs β pass) fun r => Grows size pass r.1 := by
  induction β generalizing pass with
  | nil => exact .refl size pass
  | cons X β ih =>
    rw [List.forall_mem_cons] at hβ
    obtain ⟨set, hset⟩ : ∃ set, pass.first[lhs]? = some set :=
      ⟨_, List.getElem?_eq_getElem (hlen ▸ hlhs)⟩
    cases X with
    | terminal t =>
      have ht : t < set.bits.length := by
        rw [he _ (List.mem_of_getElem? hset)]
        exact hβ.1.trans_le hsize
      unfold rhs
      rw [hset, Result.wp_bind, Result.wp_unwrap_some, Result.wp_bind]
      exact Result.wp_mono (TerminalSet.wp_insert ht) fun r hr => grows_set hset hr.1 hr.2.le
    | nonterminal B =>
      have hB : B < grammar.nonterminals.length := hβ.1
      obtain ⟨other, hother⟩ : ∃ other, pass.first[B]? = some other :=
        ⟨_, List.getElem?_eq_getElem (hlen ▸ hB)⟩
      obtain ⟨nullable, hnullable⟩ : ∃ nullable, grammar.nullable[B]? = some nullable :=
        ⟨_, List.getElem?_eq_getElem (hnull ▸ hB)⟩
      have hunion : Grows size pass _ :=
        grows_set hset (TerminalSet.unionWithoutEpsilon_spec _ other).1
          (TerminalSet.weight_union _ other)
      unfold rhs
      rw [hset, hother, hnullable]
      simp only [Result.wp_bind, Result.wp_unwrap_some]
      split
      · exact Result.wp_mono (ih hβ.2 (hunion.length.trans hlen) (hunion.even he)) fun r hr =>
          hunion.trans hr
      · exact hunion

theorem wp_production (hg : grammar.WellFormed) {p : ResidualProduction}
    (hp : p ∈ grammar.productions) (hlen : pass.first.length = grammar.nonterminals.length)
    (he : Even size pass.first) :
    Result.wp (fun _ => False) (production grammar pass p) (Grows size pass) := by
  unfold production
  rw [Result.wp_bind]
  have hlhs := hg.lhs_lt p hp
  refine Result.wp_mono (wp_rhs hnull hsize hlhs (hg.rhs_inRange p hp) hlen he) fun r hr => ?_
  split
  · obtain ⟨set, hset⟩ : ∃ set, r.1.first[p.lhs]? = some set :=
      ⟨_, List.getElem?_eq_getElem ((hr.length.trans hlen) ▸ hlhs)⟩
    dsimp only
    rw [hset, Result.wp_bind, Result.wp_unwrap_some]
    split
    · exact hr
    · next heps =>
      have hweight : set.weight + true.toNat ≤ TerminalSet.weight { set with epsilon := true } := by
        simp [TerminalSet.weight, heps]
      have hgrows : Grows size r.1 ⟨_, r.1.changed || true⟩ := grows_set hset (by rfl) hweight
      rw [Bool.or_true] at hgrows
      exact hr.trans hgrows
  · exact hr

theorem wp_passes (hg : grammar.WellFormed) {fuel : ℕ}
    (hlen : first.length = grammar.nonterminals.length) (he : Even size first)
    (hfuel : grammar.nonterminals.length * (size + 1) < fuel + total first) :
    Result.wp (fun _ => False) (passes grammar fuel first)
      fun result => result.length = grammar.nonterminals.length := by
  induction fuel generalizing first with
  | zero =>
    have := total_le he
    rw [hlen] at this
    omega
  | succ fuel ih =>
    unfold passes
    rw [Result.wp_bind]
    have hpass := Result.wp_foldlM
      (I := fun (_ rest : List ResidualProduction) pass =>
        Grows size ⟨first, false⟩ pass ∧ ∀ p ∈ rest, p ∈ grammar.productions)
      (E := fun _ => False) (f := production grammar) (fun done p rest pass hI => by
        rw [List.forall_mem_cons] at hI
        refine Result.wp_mono (wp_production hnull hsize hg hI.2.1 (hI.1.length.trans hlen)
          (hI.1.even he)) fun pass' hpass' => ⟨hI.1.trans hpass', hI.2.2⟩)
      [] grammar.productions ⟨first, false⟩ ⟨.refl size _, fun _ => id⟩
    refine Result.wp_mono hpass fun pass hpass => ?_
    split
    · next hchanged =>
      have htotal := hpass.1.total
      rw [hchanged] at htotal
      refine ih (hpass.1.length.trans hlen) (hpass.1.even he) ?_
      simp at htotal
      omega
    · exact hpass.1.length.trans hlen

end Total

end FirstPass

/-- **FIRST ends** with one set for each nonterminal. -/
theorem exists_computeFirst {grammar : ResidualGrammar} (hg : grammar.WellFormed) :
    ∃ first, computeFirst grammar = .ok first ∧ first.length = grammar.nonterminals.length := by
  have heven : FirstPass.Even (64 * ((grammar.terminals.length + 63) / 64))
      (List.replicate grammar.nonterminals.length (.new grammar.terminals.length)) := by
    intro set hset
    rw [(List.mem_replicate.1 hset).2]
    exact List.length_replicate
  exact Result.exists_of_wp (FirstPass.wp_passes hg.nullable_length (by omega) hg
    List.length_replicate heven (by omega))

/-! ### Lookaheads -/

section Starts

variable {grammar : ResidualGrammar} {first : List TerminalSet}

/-- A symbol string can begin with the terminal, as far as the sets say. -/
def Starts (grammar : ResidualGrammar) (first : List TerminalSet) (terminal : ℕ) :
    List GrammarSymbol → Prop
  | [] => False
  | .terminal t :: _ => t = terminal
  | .nonterminal A :: rest =>
    FirstPass.Has first A terminal ∨ grammar.nullable[A]? = some true ∧
      Starts grammar first terminal rest

theorem FirstPass.ClosedRhs.has {lhs terminal : ℕ} {β : List GrammarSymbol}
    (h : ClosedRhs grammar first lhs β) (hstart : Starts grammar first terminal β) :
    Has first lhs terminal := by
  induction β with
  | nil => exact hstart.elim
  | cons X β ih =>
    cases X with
    | terminal t =>
      obtain rfl : t = terminal := hstart
      exact h
    | nonterminal A =>
      rcases hstart with hstart | ⟨hnull, hstart⟩
      · exact h.1 terminal hstart
      · exact ih (h.2 hnull) hstart

/-- Closed sets have the first terminal of every sentence. -/
theorem starts_of_sentence (hclosed : FirstPass.Closed grammar first) (hg : grammar.WellFormed)
    (hnull : grammar.NullableExact) {β : List GrammarSymbol} {t : ℕ} {w u : List ℕ}
    (h : Sentence grammar.Rule β w) (hw : w = t :: u) : Starts grammar first t β := by
  unfold Sentence at h
  induction h generalizing u with
  | nil => cases hw
  | terminal ht _ ih =>
    obtain rfl := mem_selfLanguage.1 ht
    exact (List.cons.inj hw).1
  | @nonterminal A γ β v v' hA hγ _ ih₁ ih₂ =>
    obtain ⟨p, hp, rfl, rfl⟩ := hA
    cases v with
    | nil =>
      have hA : grammar.nullable[p.lhs]? = some true :=
        (hnull _ (hg.lhs_lt p hp)).2 (Yields.of_production ⟨p, hp, rfl, rfl⟩ hγ)
      exact .inr ⟨hA, ih₂ hw⟩
    | cons t' v =>
      obtain rfl : t' = t := (List.cons.inj hw).1
      exact .inl ((hclosed p hp).has (ih₁ rfl))

variable {lookahead : Lookahead} {β : List GrammarSymbol} {l : List Lookahead}

theorem mem_firstOfSymbols_of_starts {t : ℕ}
    (h : firstOfSymbols grammar.nullable first lookahead β = .ok l)
    (hstart : Starts grammar first t β) (ht : t ≤ u32Max) : .terminal t ∈ l := by
  induction β generalizing l with
  | nil => exact hstart.elim
  | cons X β ih =>
    cases X with
    | terminal t' =>
      obtain rfl : t' = t := hstart
      obtain rfl := Result.pure_eq_ok.1 h
      exact List.mem_singleton_self _
    | nonterminal A =>
      obtain ⟨set, hset, h⟩ := Result.bind_eq_ok.1 h
      have hset := Result.unwrap_eq_ok.1 hset
      obtain ⟨nullable, hnullable, h⟩ := Result.bind_eq_ok.1 h
      have hnullable := Result.unwrap_eq_ok.1 hnullable
      have hfound : FirstPass.Has first A t →
          Lookahead.terminal t ∈ set.terminals.map Lookahead.terminal := by
        rintro ⟨set', hset', hhas⟩
        obtain rfl : set = set' := Option.some.inj (hset.symm.trans hset')
        exact List.mem_map_of_mem (TerminalSet.mem_terminals.2 ⟨hhas, ht⟩)
      cases nullable with
      | true =>
        obtain ⟨rest, hrest, h⟩ := Result.bind_eq_ok.1 h
        obtain rfl := Result.pure_eq_ok.1 h
        rcases hstart with hstart | ⟨-, hstart⟩
        · exact List.mem_append_left _ (hfound hstart)
        · exact List.mem_append_right _ (ih hrest hstart)
      | false =>
        obtain rfl := Result.pure_eq_ok.1 h
        rcases hstart with hstart | ⟨hnull, -⟩
        · exact hfound hstart
        · rw [hnullable] at hnull
          cases hnull

theorem mem_firstOfSymbols_of_nil (hg : grammar.WellFormed) (hnull : grammar.NullableExact)
    (h : firstOfSymbols grammar.nullable first lookahead β = .ok l)
    (hnil : Sentence grammar.Rule β []) : lookahead ∈ l := by
  induction β generalizing l with
  | nil =>
    obtain rfl := Result.pure_eq_ok.1 h
    exact List.mem_singleton_self _
  | cons X β ih =>
    obtain ⟨u, v, huv, hX, hβ⟩ := yields_cons_iff.1 hnil
    obtain ⟨rfl, rfl⟩ := List.append_eq_nil_iff.1 huv.symm
    cases X with
    | terminal t =>
      exact absurd (mem_selfLanguage.1 (yields_terminal_iff.1 hX)) (List.cons_ne_nil _ _).symm
    | nonterminal A =>
      obtain ⟨set, hset, h⟩ := Result.bind_eq_ok.1 h
      obtain ⟨nullable, hnullable, h⟩ := Result.bind_eq_ok.1 h
      have hnullable := Result.unwrap_eq_ok.1 hnullable
      obtain ⟨-, ⟨p, hp, rfl, -⟩, -⟩ := yields_nonterminal_iff.1 hX
      obtain rfl : true = nullable :=
        Option.some.inj (((hnull _ (hg.lhs_lt p hp)).2 hX).symm.trans hnullable)
      obtain ⟨rest, hrest, h⟩ := Result.bind_eq_ok.1 h
      obtain rfl := Result.pure_eq_ok.1 h
      exact List.mem_append_right _ (ih hrest hβ)

/-- The lookahead of an item: the first terminal of what follows, or the one behind it. -/
def lookaheadOf : Option ℕ → Lookahead
  | some t => .terminal t
  | none => .eof

/-- **FIRST is complete.**  The lookaheads of a tail have the first terminal of
every sentence of it. -/
theorem mem_firstOfSymbols (hclosed : FirstPass.Closed grammar first) (hg : grammar.WellFormed)
    (hnull : grammar.NullableExact) (hterm : grammar.terminals.length ≤ u32Max + 1)
    (hβ : ∀ s ∈ β, grammar.SymbolInRange s) {a : Option ℕ} {u : List ℕ}
    (h : firstOfSymbols grammar.nullable first (lookaheadOf a) β = .ok l)
    (hu : Sentence grammar.Rule β u) : lookaheadOf (u.head?.or a) ∈ l := by
  cases u with
  | nil => exact mem_firstOfSymbols_of_nil hg hnull h hu
  | cons t u =>
    have ht : t < grammar.terminals.length := hg.terminal_lt hβ hu t List.mem_cons_self
    exact mem_firstOfSymbols_of_starts h (starts_of_sentence hclosed hg hnull hu rfl) (by omega)

end Starts

end OcEarley

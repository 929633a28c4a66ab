import OcEarley.Grammar.Collapse
import OcEarley.Grammar.CertifyRun
import OcEarley.Grammar.Reduce

/-!
# What collapsing retains

The nullable flags are exact (`nullableOf_wp`), and the loop over the productions retains what may
become empty next to what is retained (`Retains`).  The new ids are in one-to-one correspondence
with the nonterminals that are retained (`Remap.Exact`).
-/

namespace OcEarley

/-! ### Rounds that set flags -/

/-- Setting a flag leaves fewer that are not set. -/
theorem count_false_set_lt {flags : List Bool} {i : ℕ} (h : flags[i]? = some false) :
    (flags.set i true).count false < flags.count false := by
  obtain ⟨hlt, hget⟩ := List.getElem?_eq_some_iff.1 h
  have hpos : 0 < flags.count false := List.count_pos_iff.2 (List.mem_of_getElem? h)
  rw [List.count_set hlt, hget]
  simp only [beq_self_eq_true, if_true, beq_iff_eq, Bool.true_eq_false, if_false]
  omega

theorem flag_set_iff {flags : List Bool} {i : ℕ} (h : flags[i]? = some false) {j : ℕ} :
    (flags.set i true)[j]? = some true ↔ flags[j]? = some true ∨ j = i := by
  have hlt := (List.getElem?_eq_some_iff.1 h).1
  by_cases hij : i = j
  · subst hij
    simp [List.getElem?_set_self hlt]
  · rw [List.getElem?_set_ne hij]
    simp [Ne.symm hij]

/-! ### Nullable nonterminals -/

/-- The pairs as productions. -/
def PairRule (rules : List (ℕ × List GrammarSymbol)) (A : ℕ) (γ : List GrammarSymbol) : Prop :=
  (A, γ) ∈ rules

/-- The symbol is a nonterminal whose flag is set. -/
def Flagged (flags : List Bool) : GrammarSymbol → Prop
  | .nonterminal A => flags[A]? = some true
  | .terminal _ => False

/-- All ids have a flag. -/
def PairsInRange (count : ℕ) (rules : List (ℕ × List GrammarSymbol)) : Prop :=
  ∀ rule ∈ rules, rule.1 < count ∧ ∀ A, .nonterminal A ∈ rule.2 → A < count

/-- A production with an empty right-hand side has its left-hand side flagged. -/
def EmptyClosed (rule : ℕ × List GrammarSymbol) (flags : List Bool) : Prop :=
  (∀ s ∈ rule.2, Flagged flags s) → flags[rule.1]? = some true

section Nullable

variable {count : ℕ} {rules : List (ℕ × List GrammarSymbol)} {flags : List Bool}
  {rhs β : List GrammarSymbol}

/-- There is a flag for every nonterminal, and those that are set are right. -/
structure NullableSound (count : ℕ) (rules : List (ℕ × List GrammarSymbol)) (flags : List Bool) :
    Prop where
  length : flags.length = count
  sound : ∀ A, flags[A]? = some true → Sentence (PairRule rules) [.nonterminal A] []

theorem NullableSound.sentence (h : NullableSound count rules flags)
    (hrhs : ∀ s ∈ rhs, Flagged flags s) : Sentence (PairRule rules) rhs [] := by
  induction rhs with
  | nil => exact .nil
  | cons s rhs ih =>
    obtain ⟨hs, hrest⟩ := List.forall_mem_cons.1 hrhs
    refine yields_cons_iff.2 ⟨[], [], rfl, ?_, ih hrest⟩
    cases s with
    | terminal t => exact hs.elim
    | nonterminal A => exact h.sound A hs

/-- Closed flags are set for all that derives the empty sentence. -/
theorem flagged_of_sentence (hclosed : ∀ rule ∈ rules, EmptyClosed rule flags) {w : List ℕ}
    (h : Sentence (PairRule rules) β w) (hw : w = []) : ∀ s ∈ β, Flagged flags s := by
  unfold Sentence at h
  induction h with
  | nil => simp
  | terminal ht _ _ =>
    obtain rfl := mem_selfLanguage.1 ht
    cases hw
  | @nonterminal A γ β u v hA _ _ ihγ ihβ =>
    obtain ⟨hu, hv⟩ := List.append_eq_nil_iff.1 hw
    exact List.forall_mem_cons.2 ⟨hclosed (A, γ) hA (ihγ hu), ihβ hv⟩

theorem allM_flagged {m : GrammarSymbol → Except CompileError Bool}
    (hm : m = fun symbol => match symbol with
      | .nonterminal id => vecGet flags id
      | .terminal _ => pure false)
    (hrhs : ∀ A, .nonterminal A ∈ rhs → A < flags.length) :
    Result.wp (fun _ => False) (rhs.allM m) fun empty => empty = true ↔ ∀ s ∈ rhs,
      Flagged flags s := by
  subst hm
  have hall := Result.allM_eq_all (ε := CompileError) (l := rhs)
    (f := fun symbol => match symbol with
      | .nonterminal id => vecGet flags id
      | .terminal _ => pure false)
    (p := fun s => match s with
      | .nonterminal A => decide (flags[A]? = some true)
      | .terminal _ => false) fun s hs => by
    cases s with
    | terminal t => rfl
    | nonterminal A => exact Grammar.vecGet_bool (hrhs A hs)
  rw [hall]
  change rhs.all _ = true ↔ _
  rw [List.all_eq_true]
  refine forall₂_congr fun s _ => ?_
  cases s with
  | terminal t => simp [Flagged]
  | nonterminal A => simp [Flagged]

/-- **A production of a round.** -/
theorem markNullable_wp (hrange : PairsInRange count rules) {rule : ℕ × List GrammarSymbol}
    (hrule : rule ∈ rules) (before : List Bool × Bool)
    (hbefore : NullableSound count rules before.1) :
    Result.wp (fun _ => False) (markNullable before rule) fun after =>
      NullableSound count rules after.1 ∧
        Rounds.Progresses EmptyClosed (List.count false) [rule] before after := by
  obtain ⟨hlhs, hrhs⟩ := hrange rule hrule
  have hlt : rule.1 < before.1.length := hbefore.length ▸ hlhs
  have hget := List.getElem?_eq_getElem hlt
  refine Result.wp_bind.2 ((wp_vecGet hget).2 ?_)
  split
  · next hknown =>
    refine Result.wp_pure.2 ⟨hbefore, .inl ⟨rfl, by simp [EmptyClosed, hget, hknown]⟩⟩
  · next hknown =>
    have hfalse : before.1[rule.1]? = some false := by simpa [hget] using hknown
    refine Result.wp_bind.2 (Result.wp_mono
      (allM_flagged rfl fun A hA => hbefore.length ▸ hrhs A hA) fun empty hempty => ?_)
    cases empty with
    | false =>
      refine Result.wp_pure.2 ⟨hbefore, .inl ⟨rfl, ?_⟩⟩
      have hnot : ¬ ∀ s ∈ rule.2, Flagged before.1 s := fun hall => absurd (hempty.2 hall) (by simp)
      simp [EmptyClosed, hnot]
    | true =>
      refine Result.wp_bind.2 ((wp_vecSet hlt).2 (Result.wp_pure.2 ⟨⟨?_, fun A hA => ?_⟩, ?_⟩))
      · exact (List.length_set ..).trans hbefore.length
      · rcases (flag_set_iff hfalse).1 hA with hA | rfl
        · exact hbefore.sound A hA
        · exact .of_production hrule (hbefore.sentence (hempty.1 rfl))
      · exact .inr ⟨rfl, count_false_set_lt hfalse⟩

/-- **The nullable flags are exact.** -/
theorem nullableOf_wp (hrange : PairsInRange count rules) :
    Result.wp (fun _ => False) (nullableOf count rules) fun flags => flags.length = count ∧
      ∀ A, flags[A]? = some true ↔ Sentence (PairRule rules) [.nonterminal A] [] := by
  have hinit : NullableSound count rules (List.replicate count false) := {
    length := List.length_replicate
    sound := fun A hA => by
      have hmem := List.mem_of_getElem? hA
      simp [List.mem_replicate] at hmem }
  refine Result.wp_mono (Rounds.wp_rounds (fun rule hrule => markNullable_wp hrange hrule)
    hinit (by simp)) ?_
  rintro flags ⟨hsound, hclosed⟩
  refine ⟨hsound.length, fun A => ⟨hsound.sound A, fun hA => ?_⟩⟩
  exact flagged_of_sentence hclosed hA rfl _ List.mem_cons_self

/-- **The flags of the suffixes.** -/
theorem nullableSuffixes_wp (hflags : ∀ A, flags[A]? = some true ↔
      Sentence (PairRule rules) [.nonterminal A] [])
    (hrhs : ∀ A, .nonterminal A ∈ rhs → A < flags.length) :
    Result.wp (fun _ => False) (nullableSuffixes flags rhs)
      (List.Forall₂ (fun β flag => flag = true ↔ Sentence (PairRule rules) β []) rhs.tails) := by
  induction rhs with
  | nil => exact Result.wp_pure.2 (.cons (iff_of_true rfl .nil) .nil)
  | cons s rhs ih =>
    refine Result.wp_bind.2 (Result.wp_mono (ih fun A hA => hrhs A (List.mem_cons_of_mem _ hA)) ?_)
    intro rest hrest
    -- the flag of the rest, which has been found, is at the head of the list
    have hhead : rest.headD false = true ↔ Sentence (PairRule rules) rhs [] := by
      cases rhs with
      | nil =>
        obtain ⟨flag, flags, hflag, -, rfl⟩ := List.forall₂_cons_left_iff.1 hrest
        exact hflag
      | cons s' rhs =>
        obtain ⟨flag, flags, hflag, -, rfl⟩ := List.forall₂_cons_left_iff.1 hrest
        exact hflag
    have hcons : Sentence (PairRule rules) (s :: rhs) [] ↔
        Sentence (PairRule rules) [s] [] ∧ Sentence (PairRule rules) rhs [] := by
      unfold Sentence
      rw [yields_cons_iff]
      constructor
      · rintro ⟨u, v, huv, hu, hv⟩
        obtain ⟨rfl, rfl⟩ := List.append_eq_nil_iff.1 huv.symm
        exact ⟨hu, hv⟩
      · rintro ⟨hs, hrhs⟩
        exact ⟨[], [], rfl, hs, hrhs⟩
    have hcell : ∀ here : Bool, (here = true ↔ Sentence (PairRule rules) (s :: rhs) []) →
        List.Forall₂ (fun β flag => flag = true ↔ Sentence (PairRule rules) β [])
          (s :: rhs).tails (here :: rest) := by
      intro here hhere
      rw [List.tails_cons]
      exact .cons hhere hrest
    split
    · next hnullable =>
      rw [hcons, and_iff_left (hhead.1 hnullable)] at hcell
      cases s with
      | terminal t =>
        refine hcell false (iff_of_false Bool.false_ne_true fun h => ?_)
        exact absurd (mem_selfLanguage.1 (yields_terminal_iff.1 h)) (by simp)
      | nonterminal A =>
        have hget := List.getElem?_eq_getElem (hrhs A List.mem_cons_self)
        refine Result.wp_bind.2 ((wp_vecGet hget).2 (hcell _ ?_))
        rw [← hflags, hget, Option.some.injEq]
    · next hnot =>
      exact hcell false (iff_of_false Bool.false_ne_true fun h => hnot (hhead.2 (hcons.1 h).2))

end Nullable

/-! ### What is retained -/

section Retain

variable {escape : String → String} {g : Grammar} {R : String → Language UInt8}
  {analysis : RegularAnalysis} {nullable retained : List Bool}

/-- A nullable nonterminal is retained. -/
def SymbolKept (nullable : List Bool) (s : GrammarSymbol) (retained : List Bool) : Prop :=
  ∀ B, s = .nonterminal B → nullable[B]? = some true → retained[B]? = some true

/-- So are all in the right-hand side of one that is retained. -/
def ProductionKept (nullable : List Bool) (p : Production) (retained : List Bool) : Prop :=
  retained[p.lhs]? = some true → ∀ s ∈ p.rhs, SymbolKept nullable s retained

/-- What is not retained has an expression, and the start symbol is retained. -/
structure Retention (g : Grammar) (analysis : RegularAnalysis) (retained : List Bool) : Prop where
  length : retained.length = g.nonterminals.length
  start : retained[g.start]? = some true
  dropped : ∀ A : ℕ, retained[A]? = some false → ∃ e, analysis.expressions[A]? = some (some e)

theorem Retention.set (h : Retention g analysis retained) {A : ℕ} (hA : retained[A]? = some false) :
    Retention g analysis (retained.set A true) where
  length := (List.length_set ..).trans h.length
  start := (flag_set_iff hA).2 (.inl h.start)
  dropped := fun B hB => by
    by_cases hAB : A = B
    · subst hAB
      rw [List.getElem?_set_self (List.getElem?_eq_some_iff.1 hA).1] at hB
      cases hB
    · rw [List.getElem?_set_ne hAB] at hB
      exact h.dropped B hB

theorem retainSymbol_wp (hnullable : nullable.length = g.nonterminals.length) {s : GrammarSymbol}
    (hs : g.SymbolInRange s) (before : List Bool × Bool) (hbefore : Retention g analysis before.1) :
    Result.wp (fun _ => False) (retainSymbol nullable before s) fun after =>
      Retention g analysis after.1 ∧
        Rounds.Progresses (SymbolKept nullable) (List.count false) [s] before after := by
  cases s with
  | terminal t =>
    refine Result.wp_pure.2 ⟨hbefore, .inl ⟨rfl, ?_⟩⟩
    simp [SymbolKept]
  | nonterminal B =>
    have hempty := List.getElem?_eq_getElem (show B < nullable.length from hnullable ▸ hs)
    have hlt : B < before.1.length := hbefore.length ▸ hs
    have hget := List.getElem?_eq_getElem hlt
    refine Result.wp_bind.2 ((wp_vecGet hempty).2 ?_)
    split
    · refine Result.wp_bind.2 ((wp_vecGet hget).2 ?_)
      split
      · next hknown =>
        exact Result.wp_pure.2 ⟨hbefore, .inl ⟨rfl, by simp [SymbolKept, hget, hknown]⟩⟩
      · next hknown =>
        have hfalse : before.1[B]? = some false := by simpa [hget] using hknown
        refine Result.wp_bind.2 ((wp_vecSet hlt).2 (Result.wp_pure.2 ⟨hbefore.set hfalse, ?_⟩))
        exact .inr ⟨rfl, count_false_set_lt hfalse⟩
    · next hnot =>
      refine Result.wp_pure.2 ⟨hbefore, .inl ⟨rfl, ?_⟩⟩
      simp [SymbolKept, hempty, hnot]

/-- **A production of a round.** -/
theorem retainProduction_wp (hg : g.WellFormed)
    (hnullable : nullable.length = g.nonterminals.length)
    {p : Production} (hp : p ∈ g.productions) (before : List Bool × Bool)
    (hbefore : Retention g analysis before.1) :
    Result.wp (fun _ => False) (retainProduction nullable before p) fun after =>
      Retention g analysis after.1 ∧
        Rounds.Progresses (ProductionKept nullable) (List.count false) [p] before after := by
  have hget := List.getElem?_eq_getElem
    (show p.lhs < before.1.length from hbefore.length ▸ hg.lhs_lt p hp)
  refine Result.wp_bind.2 ((wp_vecGet hget).2 ?_)
  split
  · refine Result.wp_mono (Rounds.wp_pass (fun s hs =>
      retainSymbol_wp hnullable (hg.rhs_inRange p hp s hs)) hbefore) ?_
    rintro after ⟨hafter, ⟨rfl, hclosed⟩ | hchanged⟩
    · exact ⟨hafter, .inl ⟨rfl, by simpa [ProductionKept] using fun _ => hclosed⟩⟩
    · exact ⟨hafter, .inr hchanged⟩
  · next hdropped =>
    refine Result.wp_pure.2 ⟨hbefore, .inl ⟨rfl, ?_⟩⟩
    simp [ProductionKept, hget, hdropped]

/-- A nonterminal without a certificate has no expression. -/
theorem isUncertified_wp (hanalysis : analysis.Exact escape g R) {A : ℕ}
    (hA : A < g.nonterminals.length) :
    Result.wp (fun _ => False) (isUncertified analysis A) fun keep =>
      keep = false → ∃ e, analysis.expressions[A]? = some (some e) := by
  obtain ⟨i, certificate, e, h⟩ := hanalysis.certified A hA
  refine Result.wp_bind.2
    ((wp_vecGet h.component).2 (Result.wp_bind.2 ((wp_vecGet h.recorded).2 ?_)))
  refine Result.wp_pure.2 fun hsome => ?_
  have hkind : certificate.kind.isSome = true := by
    cases hk : certificate.kind with
    | none => simp [hk] at hsome
    | some kind => rfl
  obtain ⟨e, rfl⟩ := Option.isSome_iff_exists.1 (h.isSome_iff.2 hkind)
  exact ⟨e, h.expression⟩

/-- **What is retained**: the start symbol, what has no expression, and what may become empty next
to what is retained. -/
theorem retainedNonterminals_wp (hg : g.WellFormed) (hanalysis : analysis.Exact escape g R)
    (hnullable : nullable.length = g.nonterminals.length) :
    Result.wp (fun _ => False) (retainedNonterminals g analysis nullable) fun retained =>
      Retention g analysis retained ∧ ∀ p ∈ g.productions, ProductionKept nullable p retained := by
  have hflags : Result.wp (fun _ => False)
      ((List.range g.nonterminals.length).mapM (isUncertified analysis))
      (List.Forall₂ (fun A keep => keep = false → ∃ e, analysis.expressions[A]? = some (some e))
        (List.range g.nonterminals.length)) :=
    Result.wp_mapM fun A hA => isUncertified_wp hanalysis (List.mem_range.1 hA)
  refine Result.wp_bind.2 (Result.wp_mono hflags fun flags hall => ?_)
  have hlength : flags.length = g.nonterminals.length := by
    rw [← hall.length_eq, List.length_range]
  have hstart : g.start < flags.length := hlength ▸ hg.start_lt
  refine Result.wp_bind.2 ((wp_vecSet hstart).2 ?_)
  have hinit : Retention g analysis (flags.set g.start true) := {
    length := (List.length_set ..).trans hlength
    start := List.getElem?_set_self hstart
    dropped := fun A hA => by
      by_cases heq : g.start = A
      · subst heq
        rw [List.getElem?_set_self hstart] at hA
        cases hA
      · rw [List.getElem?_set_ne heq] at hA
        have hlt := hlength ▸ (List.getElem?_eq_some_iff.1 hA).1
        exact forall₂_getElem? hall (List.getElem?_range hlt) hA rfl }
  refine Rounds.wp_rounds (fun p hp => retainProduction_wp hg hnullable hp) hinit ?_
  have hcount := List.count_le_length (a := false) (l := flags.set g.start true)
  rw [List.length_set, hlength] at hcount
  exact Nat.lt_succ_of_le hcount

/-! ### The new ids -/

/-- A retained nonterminal among the first ones and its new id go with each other. -/
structure Remap.Exact (g : Grammar) (retained : List Bool) (count : ℕ) (ids : Remap) : Prop where
  length : ids.remap.length = g.nonterminals.length
  mem_iff : ∀ A id : ℕ, ids.remap[A]? = some (some id) ↔
    ∃ n, ids.nonterminals[id]? = some n ∧ n.original = A
  kept_iff : ∀ A : ℕ, (∃ id, ids.remap[A]? = some (some id)) ↔ A < count ∧ retained[A]? = some true

theorem remapNonterminals_wp (hg : g.WellFormed) (limits : CompileLimits)
    (hretained : retained.length = g.nonterminals.length) :
    Result.wp CompileError.IsLimit (remapNonterminals g limits retained)
      (Remap.Exact g retained g.nonterminals.length) := by
  refine Result.wp_mono (Result.wp_foldlM (I := fun p l ids => p ++ l = g.nonterminals ∧
    Remap.Exact g retained p.length ids) ?_ [] g.nonterminals _ ⟨rfl, ?_⟩) fun ids h => h.2
  · rintro p original l ids ⟨hl, hids⟩
    have hget : g.nonterminals[p.length]? = some original := by simp [← hl]
    have hlt : p.length < g.nonterminals.length := (List.getElem?_eq_some_iff.1 hget).1
    have hid : original.id = p.length := hg.nonterminal_id hget
    have hl' : p ++ [original] ++ l = g.nonterminals := by simpa using hl
    have hflag := List.getElem?_eq_getElem (hretained ▸ hlt : p.length < retained.length)
    rw [remapNonterminal, hid]
    refine Result.wp_bind.2 ((wp_vecGet hflag).2 ?_)
    split
    -- a nonterminal that is not retained gets no id
    · next hdropped =>
      refine Result.wp_pure.2 ⟨hl', hids.length, hids.mem_iff, fun A => ?_⟩
      rw [hids.kept_iff, List.length_append, List.length_singleton]
      refine ⟨fun h => ⟨by omega, h.2⟩, fun h => ⟨Nat.lt_of_le_of_ne (by omega) ?_, h.2⟩⟩
      rintro rfl
      rw [hflag, hdropped] at h
      cases h.2
    -- a retained one gets the next id, and its entry is written over an empty one
    · next hkept =>
      have hnone : ∀ id, ids.remap[p.length]? ≠ some (some id) := fun id h =>
        absurd ((hids.kept_iff _).1 ⟨id, h⟩).1 (lt_irrefl _)
      refine Result.wp_bind.2 (Result.wp_require.2 ⟨fun _ => ?_, fun _ => trivial⟩)
      refine Result.wp_bind.2
        (Result.wp_bind.2 (Result.wp_require.2 ⟨fun _ => ?_, fun _ => trivial⟩))
      have hlt' : p.length < ids.remap.length := hids.length ▸ hlt
      refine Result.wp_bind.2 ((wp_vecSet hlt').2 (Result.wp_pure.2
        ⟨hl', (List.length_set ..).trans hids.length, fun A id => ?_, fun A => ?_⟩))
      · by_cases hA : p.length = A
        · subst hA
          rw [List.getElem?_set_self hlt']
          constructor
          · intro h
            obtain rfl := Option.some.inj (Option.some.inj h)
            exact ⟨_, List.getElem?_concat_length, rfl⟩
          · rintro ⟨n, hn, horiginal⟩
            rcases getElem?_snoc.1 hn with hn | ⟨rfl, rfl⟩
            · exact absurd ((hids.mem_iff _ id).2 ⟨n, hn, horiginal⟩) (hnone id)
            · rfl
        · rw [List.getElem?_set_ne hA, hids.mem_iff]
          constructor
          · rintro ⟨n, hn, horiginal⟩
            exact ⟨n, getElem?_snoc.2 (.inl hn), horiginal⟩
          · rintro ⟨n, hn, horiginal⟩
            rcases getElem?_snoc.1 hn with hn | ⟨rfl, rfl⟩
            · exact ⟨n, hn, horiginal⟩
            · exact absurd horiginal hA
      · rw [List.length_append, List.length_singleton]
        by_cases hA : p.length = A
        · subst hA
          rw [List.getElem?_set_self hlt']
          exact iff_of_true ⟨_, rfl⟩ ⟨Nat.lt_succ_self _, by simpa [hflag] using hkept⟩
        · rw [List.getElem?_set_ne hA, hids.kept_iff]
          exact and_congr_left fun _ => ⟨fun h => by omega, fun h => by omega⟩
  · refine ⟨List.length_replicate, fun A id => ?_, fun A => ?_⟩
    · simp [List.getElem?_replicate]
    · simp [List.getElem?_replicate]

theorem Remap.Exact.injective {ids : Remap} {count : ℕ} (h : Remap.Exact g retained count ids)
    {A B id : ℕ} (hA : ids.remap[A]? = some (some id))
    (hB : ids.remap[B]? = some (some id)) : A = B := by
  obtain ⟨n, hn, rfl⟩ := (h.mem_iff A id).1 hA
  obtain ⟨n', hn', rfl⟩ := (h.mem_iff B id).1 hB
  rw [Option.some.inj (hn.symm.trans hn')]

end Retain

end OcEarley

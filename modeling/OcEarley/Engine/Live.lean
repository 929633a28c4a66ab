import OcEarley.Engine.Limits
import OcEarley.Lalr.Exact

/-!
# Consumed bytes leave the recognizer live

A recognizer that has consumed a byte is live, the limits apart: after an Earley byte this is what
`advance_byte` returns, and the tables of an LALR recognizer are those of a grammar in which
everything that was shifted can be completed (`RecognizerState.isLive_of_consumes`).
-/

namespace OcEarley

open Method

namespace LalrRecognizer

variable {g : ResidualGrammar} {merged : List (List Lr1Item)} {compiled : CompiledLalr}
  {w : List ℕ} {u v x : List UInt8} {s s' : LalrRecognizer}

/-- Whatever has been consumed can be completed, and the probes find out how. -/
theorem Consumed.isLive (hB : compiled.Built g merged) (hg : g.WellFormed) (hprod : g.Productive)
    (hterm : g.TerminalsExact) (hsafe : g.PrefixSafe) (hfits : g.terminals.length ≤ u32Max + 1)
    (hs : s.compiled = compiled) (h : Consumed (compiled.table.automaton merged) g w v u s)
    (hlen : v.length ≤ u32Max) (hacc : s.AcceptanceFits) (hlive : s.LivenessFits) :
    s.isLive = true := by
  unfold LalrRecognizer.isLive
  rcases h.candidates with ⟨rfl, hnil⟩ | ⟨hu, hne, -⟩
  swap
  · rw [if_pos (by simpa using hne)]
  rw [hnil, if_neg (by simp)]
  cases haccepting : s.isAccepting with
  | true => rfl
  | false =>
    obtain ⟨z, hz⟩ := h.exists_mem_language hB.describes hterm hg hprod (Nat.zero_le _)
    have hz' : z ≠ [] := by
      rintro rfl
      rw [List.append_nil] at hz
      have := (h.isAccepting_iff hB hg hprod hterm hsafe hs hlen (hacc hnil)).2 hz
      rw [haccepting] at this
      cases this
    -- some terminal can be shifted, and the probe finds its candidate
    obtain ⟨t, stack, shift, r, y', hshifts, hword, -, -⟩ :=
      h.exists_shifts hB.describes hterm hsafe (y := z) hlen (by simpa using hz')
        (by simpa using hz)
    obtain ⟨terminal, hterminal⟩ : ∃ terminal, g.terminals[t]? = some terminal := by
      rcases hget : g.terminals[t]? with _ | terminal
      · rw [ResidualGrammar.terminalLanguage, hget] at hword
        exact absurd hword (Language.notMem_zero _)
      · exact ⟨terminal, rfl⟩
    have hwp := hB.wp_startCandidates (ResidualGrammar.lrGrammar_productive hg hprod) hfits
      hs h.shifted
    have hprobe := hlive hnil haccepting
    cases hstart : startCandidates s with
    | error e s₁ => exact absurd (wp_error hwp hstart) (hprobe e (by rw [hstart]; rfl))
    | ok a s₁ =>
      obtain ⟨-, htracks⟩ := wp_ok hwp hstart
      obtain ⟨c, hc, -⟩ := htracks.complete hshifts hterminal rfl
      simpa using List.ne_nil_of_mem hc

/-! ### Positions -/

/-- A byte that is consumed has a position. -/
theorem bytePosition_of_advanceByte {byte : UInt8} (h : advanceByte byte s = .ok true s') :
    s'.bytePosition = s.bytePosition + 1 ∧ s.bytePosition + 1 ≤ u32Max := by
  have hfinish : ∀ (n : ℕ) (s : LalrRecognizer), wp (fun _ => True) (finishByte n)
      (fun answer s' => answer = true → s'.bytePosition = n ∧ n ≤ u32Max) s := by
    intro n s
    rw [finishByte, wp_bind, wp_require]
    exact ⟨fun hn _ => ⟨rfl, hn⟩, fun _ => trivial⟩
  have hread : ∀ (n : ℕ) (s : LalrRecognizer), wp (fun _ => True) (readByte byte n)
      (fun answer s' => answer = true → s'.bytePosition = n ∧ n ≤ u32Max) s := by
    intro n s
    refine wp_last fun self s => wp_last fun _ s => wp_last fun advanced s => wp_last fun _ s => ?_
    split
    · exact wp_last fun _ s => hfinish n s
    · refine wp_last fun _ s => ?_
      split
      · intro hanswer
        cases hanswer
      · exact hfinish n s
  rw [advanceByte_apply] at h
  obtain ⟨_, s₁, -, h⟩ := bind_eq_ok.1 h
  obtain ⟨_, s₂, -, h⟩ := bind_eq_ok.1 h
  have hposition := wp_ok (hread _ s₂) h
  exact hposition rfl

theorem consume_position {answer : Bool} (h : consume x s = .ok answer s')
    (hanswer : answer = true) :
    x = [] ∨ s.bytePosition + x.length ≤ u32Max := by
  subst hanswer
  induction x generalizing s with
  | nil => exact .inl rfl
  | cons byte x ih =>
    obtain ⟨consumed, s₁, hbyte, h⟩ := bind_eq_ok.1 h
    cases consumed with
    | false => cases h
    | true =>
      obtain ⟨hposition, hle⟩ := bytePosition_of_advanceByte hbyte
      rw [List.length_cons]
      rcases ih h with rfl | hrest
      · exact .inr hle
      · rw [hposition] at hrest
        exact .inr (by omega)

/-- Where there are no terminals, not even a first byte is consumed. -/
theorem consume_ne_true (hterminals : s.compiled.grammar.terminals = [])
    (hcandidates : s.candidates = []) (hx : x ≠ []) : consume x s ≠ .ok true s' := by
  obtain ⟨byte, x, rfl⟩ := List.exists_cons_of_ne_nil hx
  intro h
  have hwp : wp (fun _ => True) (advanceByte byte) (fun answer _ => answer = false) s := by
    simp only [advanceByte, startCandidates, enforceRuntimeLimit, wp_bind, wp_get, wp_require,
      wp_modify, wp_pure, hcandidates, hterminals, List.isEmpty_nil, if_true, List.length_nil,
      List.range_zero, List.foldlM_nil, List.getLast?_nil, implies_true, and_true]
  obtain ⟨consumed, t, hbyte, h⟩ := bind_eq_ok.1 h
  have hfalse := wp_ok hwp hbyte
  subst hfalse
  cases h

end LalrRecognizer

/-! ### All backends -/

/-- The tables have been built, free of conflicts, for a grammar as it is prepared for them.  The
grammar of a document that nothing satisfies is not productive, but it has no terminals. -/
def CompiledLalr.Prepared (compiled : CompiledLalr) : Prop :=
  compiled.grammar.terminals = [] ∨
    ∃ (g : ResidualGrammar) (limits : CompileLimits), CompiledLalr.build g limits = .ok compiled ∧
      compiled.isUsable = true ∧ g.WellFormed ∧ g.IndexExact ∧ g.NullableExact ∧ g.Productive ∧
      g.TerminalsExact ∧ g.terminals.length ≤ u32Max + 1

namespace RecognizerState

variable {r s t : RecognizerState} {x : List UInt8}

/-- The tables of the recognizer have been built. -/
def Prepared : RecognizerState → Prop
  | .lalr recognizer => recognizer.compiled.Prepared
  | _ => True

theorem consume_of_consumes {a : LalrRecognizer} (h : (RecognizerState.lalr a).Consumes x t) :
    ∃ b, t = .lalr b ∧ LalrRecognizer.consume x a = .ok true b := by
  induction x generalizing a with
  | nil => exact ⟨a, h.symm, rfl⟩
  | cons byte x ih =>
    obtain ⟨u, hu, h⟩ := h
    change zoom _ _ a = _ at hu
    unfold zoom at hu
    cases hbyte : LalrRecognizer.advanceByte byte a with
    | error e a' =>
      rw [hbyte] at hu
      cases hu
    | ok consumed a' =>
      rw [hbyte] at hu
      obtain ⟨rfl, rfl⟩ := EStateM.Result.ok.inj hu
      obtain ⟨b, rfl, hb⟩ := ih h
      refine ⟨b, rfl, ?_⟩
      rw [LalrRecognizer.consume, bind_of_ok hbyte]
      exact hb

/-- A byte that an Earley recognizer consumes leaves it live. -/
theorem isLive_of_advanceByte_earley {byte : UInt8} {a b : EarleyRecognizer}
    (h : EarleyRecognizer.advanceByte byte a = .ok true b) : b.isLive = true := by
  have hwp : wp (fun _ => True) (EarleyRecognizer.advanceByte byte)
      (fun answer s => answer = true → s.isLive = true) a := by
    refine wp_last fun self s => wp_last fun _ s => wp_last fun _ s => wp_last fun _ s =>
      wp_last fun _ s => wp_last fun _ s => wp_last fun _ s => wp_last fun _ s =>
        wp_last fun _ s => wp_last fun _ s => wp_last fun _ s => ?_
    exact id
  exact wp_ok hwp h rfl

/-- **Consumed bytes leave the recognizer live.** -/
theorem isLive_of_consumes (hr : r.Fresh) (hprepared : r.Prepared) (hx : x ≠ [])
    (h : r.Consumes x s) (hfits : s.LivenessFits) (hdfa : ∀ a, r ≠ .dfa a) : s.isLive = true := by
  cases hr with
  | dfa dfa limits generation => exact absurd rfl (hdfa _)
  | lalr compiled limits generation =>
    obtain ⟨s, rfl, hconsume⟩ := consume_of_consumes h
    rcases hprepared with hterminals |
      ⟨g, compileLimits, hbuild, husable, hg, hindex, hnull, hprod, hterm, hcount⟩
    · exact absurd hconsume (LalrRecognizer.consume_ne_true hterminals rfl hx)
    obtain ⟨hconf, hsafe⟩ := Bool.and_eq_true_iff.1 husable
    obtain ⟨merged, hB⟩ :=
      CompiledLalr.build_built hbuild (List.isEmpty_iff.1 hconf) hg hindex hnull hcount
    have hsafe : g.PrefixSafe := lexicalSafety_spec (by rw [hB.lexicalSafe, hsafe])
    have hlen : x.length ≤ u32Max := by
      rcases LalrRecognizer.consume_position hconsume rfl with rfl | hlen
      · exact Nat.zero_le _
      · exact (Nat.le_add_left _ _).trans hlen
    have hstart := LalrRecognizer.consumed_start hterm merged compiled limits generation
    have hwp := hstart.wp_consume hB hg hprod hterm hsafe hcount x rfl hlen
    obtain ⟨hs, htrue, -⟩ := wp_ok hwp hconsume
    obtain ⟨w, v, u, heq, h⟩ := htrue rfl
    have hv : v.length ≤ u32Max := by
      have := congrArg List.length heq
      simp only [List.length_append, List.length_nil, Nat.zero_add] at this
      omega
    exact h.isLive hB hg hprod hterm hsafe hcount hs hv hfits.1 hfits.2
  | earley hfresh =>
    obtain ⟨x, byte, rfl⟩ := (List.eq_nil_or_concat' x).resolve_left hx
    obtain ⟨t, ht, u, hu, rfl⟩ := consumes_append.1 h
    have hext := ht.extends
    cases hext with
    | @earley _ a =>
      change zoom _ _ a = _ at hu
      unfold zoom at hu
      cases hbyte : EarleyRecognizer.advanceByte byte a with
      | error e b =>
        rw [hbyte] at hu
        cases hu
      | ok consumed b =>
        rw [hbyte] at hu
        obtain ⟨rfl, rfl⟩ := EStateM.Result.ok.inj hu
        exact isLive_of_advanceByte_earley hbyte

end RecognizerState

end OcEarley

import OcEarley.Grammar.LowerArray
import OcEarley.Schema.Canonical

/-!
# Objects are lowered exactly

A rule is a production in which the bytes of a literal stand for its terminal.  The productions of
an object are known as rules, and what they generate is the least solution of the rules: the member
states generate the members that are still to come, in the order of the keys.
-/

namespace OcEarley

open GrammarBuilder
open ArrayConstraints (separated separated_zero separated_succ lowerComma_returns IsComma)

/-- A production with the bytes of its literals. -/
abbrev TextRule := ℕ × List (Symbol (List UInt8) ℕ)

/-! ### Productions as rules -/

namespace GrammarBuilder

variable {b b' b'' : GrammarBuilder} {provenance : Provenance}

/-- The symbol, where the bytes stand for the terminal of a literal. -/
inductive ReadsAs (b : GrammarBuilder) : GrammarSymbol → Symbol (List UInt8) ℕ → Prop
  | literal {id : ℕ} {bytes : List UInt8} : b.IsLiteral id bytes →
      ReadsAs b (.terminal id) (.terminal bytes)
  | nonterminal (A : ℕ) : ReadsAs b (.nonterminal A) (.nonterminal A)

theorem ReadsAs.mono (hb : b.terminals <+: b'.terminals) {s : GrammarSymbol}
    {t : Symbol (List UInt8) ℕ} (h : b.ReadsAs s t) : b'.ReadsAs s t := by
  cases h with
  | literal hid => exact .literal (hid.mono hb)
  | nonterminal A => exact .nonterminal A

/-- The productions are the rules. -/
def AreRules (b : GrammarBuilder) (new : List Production) (rules : List TextRule) : Prop :=
  List.Forall₂ (fun q r => q.lhs = r.1 ∧ List.Forall₂ b.ReadsAs q.rhs r.2) new rules

theorem AreRules.mono (hb : b.terminals <+: b'.terminals) {new : List Production}
    {rules : List TextRule} (h : b.AreRules new rules) : b'.AreRules new rules :=
  h.imp fun _ _ hq => ⟨hq.1, hq.2.imp fun _ _ hs => hs.mono hb⟩

/-- A call that adds the rules. -/
def AddsRules (b : GrammarBuilder) (rules : List TextRule) (b' : GrammarBuilder) : Prop :=
  ∃ new, Adds b new b' ∧ b'.AreRules new rules

theorem AddsRules.refl (hb : b.CacheSound) : AddsRules b [] b := ⟨[], .refl hb, .nil⟩

theorem AddsRules.trans {rules rules' : List TextRule} (h : AddsRules b rules b')
    (h' : AddsRules b' rules' b'') : AddsRules b (rules ++ rules') b'' := by
  obtain ⟨new, hadds, hnew⟩ := h
  obtain ⟨new', hadds', hnew'⟩ := h'
  exact ⟨new ++ new', hadds.trans hadds', List.rel_append (hnew.mono hadds'.terminals) hnew'⟩

theorem AddsRules.cacheSound {rules : List TextRule} (h : AddsRules b rules b') :
    b'.CacheSound := by
  obtain ⟨_, hadds, -⟩ := h
  exact hadds.cacheSound

theorem AddsRules.terminals {rules : List TextRule} (h : AddsRules b rules b') :
    b.terminals <+: b'.terminals := by
  obtain ⟨_, hadds, -⟩ := h
  exact hadds.terminals

theorem AddsRules.nonterminals {rules : List TextRule} (h : AddsRules b rules b') :
    b'.nonterminals = b.nonterminals := by
  obtain ⟨_, hadds, -⟩ := h
  exact hadds.nonterminals

theorem Adds.rules (h : Adds b [] b') : AddsRules b [] b' := ⟨[], h, .nil⟩

theorem addLiteral_rules {bytes : List UInt8} (hb : b.CacheSound) :
    Returns (addLiteral bytes provenance)
      (fun id b' => AddsRules b [] b' ∧ b'.ReadsAs (.terminal id) (.terminal bytes)) b :=
  Method.wp_mono (addLiteral_adds hb) fun _ _ ⟨hadds, hid⟩ => ⟨hadds.rules, .literal hid⟩

theorem addProduction_rules {lhs : ℕ} {rhs : List GrammarSymbol}
    {γ : List (Symbol (List UInt8) ℕ)} (hb : b.CacheSound)
    (hrhs : List.Forall₂ b.ReadsAs rhs γ) :
    Returns (addProduction lhs rhs provenance)
      (fun _ b' => AddsRules b [(lhs, γ)] b') b := by
  refine Method.wp_mono (addProduction_adds hb) fun id b' hadds => ⟨_, hadds, ?_⟩
  exact .cons ⟨rfl, hrhs.imp fun _ _ hs => hs.mono hadds.terminals⟩ .nil

/-- The symbols before an item or a member. -/
def commaText (index : ℕ) : List (Symbol (List UInt8) ℕ) :=
  if index = 0 then [] else [.terminal [44]]

theorem lowerComma_rules (hb : b.CacheSound) {index : ℕ} :
    Returns (lowerComma provenance index)
      (fun comma b' => AddsRules b [] b' ∧ List.Forall₂ b'.ReadsAs comma (commaText index)) b := by
  refine Method.wp_mono (lowerComma_returns hb) ?_
  rintro comma b' ⟨hadds, hcomma⟩
  refine ⟨hadds.rules, ?_⟩
  unfold IsComma at hcomma
  unfold commaText
  split at hcomma
  · next h0 =>
    rw [if_pos h0, hcomma]
    exact .nil
  · next h0 =>
    obtain ⟨id, hid, rfl⟩ := hcomma
    rw [if_neg h0]
    exact .cons (.literal hid) .nil

end GrammarBuilder

/-! ### What rules generate -/

section Rules

variable {n : ℕ} {b : GrammarBuilder} {new : List Production} {rules : List TextRule}
  {pattern : String → Language UInt8} {L M : ℕ → Language UInt8}

/-- The strings of a right-hand side, where the nonterminals below `n` stand for `L` and the others
for `M`. -/
def ruleLanguage (n : ℕ) (L M : ℕ → Language UInt8) (γ : List (Symbol (List UInt8) ℕ)) :
    Language UInt8 :=
  (γ.map (symbolLanguage (fun bytes => {bytes}) fun A => if A < n then L A else M A)).prod

theorem ruleLanguage_eq {rhs : List GrammarSymbol} {γ : List (Symbol (List UInt8) ℕ)}
    (h : List.Forall₂ b.ReadsAs rhs γ) :
    ((rhs.map (openSymbol n)).map (symbolLanguage (openLanguage pattern b.terminals L) M)).prod =
      ruleLanguage n L M γ := by
  unfold ruleLanguage
  induction h with
  | nil => rfl
  | @cons s t rhs γ hs _ ih =>
    have hsymbol : symbolLanguage (openLanguage pattern b.terminals L) M (openSymbol n s) =
        symbolLanguage (fun bytes => {bytes}) (fun A => if A < n then L A else M A) t := by
      cases hs with
      | literal hid => exact openLanguage_literal (L := L) hid
      | nonterminal A =>
        by_cases hlt : A < n <;> simp [openSymbol, symbolLanguage, openLanguage, hlt]
    rw [List.map_cons, List.map_cons, List.map_cons, List.prod_cons, List.prod_cons, ih, hsymbol]

variable (n b new pattern L) in
/-- What the productions generate from a nonterminal. -/
def generated (A : ℕ) : Language UInt8 :=
  {x | Yields (OpenRule n new) (openLanguage pattern b.terminals L) [.nonterminal A] x}

/-- What is generated solves the rules. -/
theorem ruleLanguage_le_generated (h : b.AreRules new rules) {A : ℕ}
    {γ : List (Symbol (List UInt8) ℕ)} (hr : (A, γ) ∈ rules) :
    ruleLanguage n L (generated n b new pattern L) γ ≤ generated n b new pattern L A := by
  intro x hx
  obtain ⟨i, hi, hget⟩ := List.getElem_of_mem hr
  have hlen := h.length_eq
  have hq := (List.forall₂_iff_get.1 h).2 i (by omega) hi
  simp only [List.get_eq_getElem, hget] at hq
  rw [← ruleLanguage_eq hq.2] at hx
  exact .of_production ⟨_, List.getElem_mem (by omega), hq.1, rfl⟩ (.of_mem_prod hx)

/-- What is generated is the least solution of the rules. -/
theorem generated_le (h : b.AreRules new rules)
    (hM : ∀ A γ, (A, γ) ∈ rules → ruleLanguage n L M γ ≤ M A) (A : ℕ) :
    generated n b new pattern L A ≤ M A := by
  intro x hx
  have hmem : x ∈ ([.nonterminal A].map
      (symbolLanguage (openLanguage pattern b.terminals L) M)).prod := Yields.mem_prod ?_ hx
  · rw [List.map_singleton, List.prod_singleton] at hmem
    exact hmem
  · rintro B _ ⟨q, hq, rfl, rfl⟩
    obtain ⟨i, hi, hget⟩ := List.getElem_of_mem hq
    have hlen := h.length_eq
    have hr := (List.forall₂_iff_get.1 h).2 i hi (by omega)
    simp only [List.get_eq_getElem, hget] at hr
    rw [ruleLanguage_eq hr.2, hr.1]
    exact hM _ _ (List.getElem_mem _)

end Rules

/-! ### The rules of an object -/

namespace ObjectConstraints

variable (schemaNonterminals : List ℕ) (object : ObjectConstraints) (first : ℕ)

/-- The nonterminal of the members from `index` on; `emitted` says whether
one stands before them. -/
def memberState (first index : ℕ) (emitted : Bool) : ℕ :=
  first + 2 * index + if emitted then 1 else 0

/-- The symbols of a member that is present. -/
def memberSymbols (name : String) (id : ℕ) : List (Symbol (List UInt8) ℕ) :=
  [.terminal (utf8Bytes (jsonString name)), .terminal [58],
    .nonterminal (schemaNonterminals.getD id 0)]

/-- The rules of a member in one of its two states. -/
def memberRules (entry : (String × ℕ) × ℕ) (emitted : Bool) : List TextRule :=
  (if object.required.contains entry.1.1 then []
    else [(memberState first entry.2 emitted,
      [.nonterminal (memberState first (entry.2 + 1) emitted)])]) ++
  [(memberState first entry.2 emitted,
    commaText (if emitted then 1 else 0) ++ memberSymbols schemaNonterminals entry.1.1 entry.1.2 ++
      [.nonterminal (memberState first (entry.2 + 1) true)])]

/-- The rules of the members. -/
def membersRules (entries : List ((String × ℕ) × ℕ)) : List TextRule :=
  entries.flatMap fun entry => memberRules schemaNonterminals object first entry false ++
    memberRules schemaNonterminals object first entry true

/-- The rules of an object. -/
def rules (lhs : ℕ) : List TextRule :=
  [(memberState first object.properties.length false, []),
    (memberState first object.properties.length true, [])] ++
  membersRules schemaNonterminals object first object.properties.zipIdx ++
  [(lhs, [.terminal [123], .nonterminal (memberState first 0 false), .terminal [125]])]

/-- The states of the members, as the builder numbers them. -/
def memberStates (first count : ℕ) : List (ℕ × ℕ) :=
  (List.range count).map fun index => (memberState first index false, memberState first index true)

variable {schemaNonterminals object first} {b : GrammarBuilder} {provenance : Provenance}

theorem memberStates_get {index count : ℕ} (h : index < count) :
    (memberStates first count)[index]? =
      some (memberState first index false, memberState first index true) := by
  simp [memberStates, h]

/-- Two states for every member are added, with consecutive ids. -/
theorem addMembers_returns {name name' : ℕ → String} (l : List ℕ) (hb : b.CacheSound) :
    Returns (l.mapM fun index => do
        let absent ← addNonterminal (name index) provenance
        let present ← addNonterminal (name' index) provenance
        pure (absent, present))
      (fun members b' => members = memberStates b.nonterminals.length l.length ∧
        b'.nonterminals.length = b.nonterminals.length + 2 * l.length ∧
        b'.CacheSound ∧ b'.terminals = b.terminals ∧ b'.productions = b.productions) b := by
  induction l generalizing b with
  | nil => exact ⟨rfl, rfl, hb, rfl, rfl⟩
  | cons index l ih =>
    rw [List.mapM_cons]
    simp only [Returns, Method.wp_bind]
    refine Method.wp_mono addNonterminal_returns ?_
    rintro absent b₁ ⟨rfl, hb₁⟩
    rw [Method.wp_bind]
    refine Method.wp_mono addNonterminal_returns ?_
    rintro present b₂ ⟨rfl, hb₂⟩
    have hcache : b₂.CacheSound := hb₂ ▸ hb₁ ▸ hb
    rw [Method.wp_pure, Method.wp_bind]
    refine Method.wp_mono (ih hcache) ?_
    rintro members b' ⟨rfl, hlen, h⟩
    subst hb₂ hb₁
    simp only [List.length_append, List.length_singleton] at hlen h ⊢
    refine ⟨?_, by rw [hlen, List.length_cons]; omega, h⟩
    rw [memberStates, memberStates, List.length_cons, List.range_succ_eq_map, List.map_cons,
      List.map_map]
    refine congrArg (_ :: ·) (List.map_congr_left fun i _ => ?_)
    simp only [memberState, Function.comp]
    congr 1 <;> omega

theorem lowerAbsent_rules (hb : b.CacheSound) {required : Bool} {current next : ℕ} :
    Returns (lowerAbsent required provenance current next)
      (fun _ b' => AddsRules b
        (if required then [] else [(current, [.nonterminal next])]) b') b := by
  unfold Returns lowerAbsent
  split
  · exact .refl hb
  · rw [Method.wp_bind]
    exact addProduction_rules hb (.cons (.nonterminal next) .nil)

/-- Both states of a member have its rules, and the schema of the member has a nonterminal. -/
theorem lowerMember_rules (hb : b.CacheSound) {count : ℕ} {entry : (String × ℕ) × ℕ}
    (hentry : entry.2 < count) {emitted : Bool} :
    Returns (lowerMember schemaNonterminals object provenance (memberStates first (count + 1))
        entry emitted)
      (fun _ b' => entry.1.2 < schemaNonterminals.length ∧
        AddsRules b (memberRules schemaNonterminals object first entry emitted) b') b := by
  have hpick : ∀ index, (if emitted then (memberState first index false, memberState first index
      true).2 else (memberState first index false, memberState first index true).1) =
      memberState first index emitted := by
    intro index
    cases emitted <;> rfl
  simp only [Returns, lowerMember, memberStates_get (show entry.2 < count + 1 by omega),
    memberStates_get (show entry.2 + 1 < count + 1 by omega), Method.wp_bind,
    Method.wp_unwrap_some, hpick]
  refine Method.wp_mono (lowerAbsent_rules hb) fun _ b₁ hadds₁ => ?_
  rw [Method.wp_bind]
  refine Method.wp_mono (lowerComma_rules hadds₁.cacheSound) ?_
  rintro comma b₂ ⟨hadds₂, hcomma⟩
  rw [Method.wp_bind]
  refine Method.wp_mono (addLiteral_rules hadds₂.cacheSound) ?_
  rintro key b₃ ⟨hadds₃, hkey⟩
  rw [Method.wp_bind]
  refine Method.wp_mono (addLiteral_rules hadds₃.cacheSound) ?_
  rintro colon b₄ ⟨hadds₄, hcolon⟩
  rw [Method.wp_bind, Method.wp_unwrap]
  refine ⟨fun A hA => ?_, fun _ => trivial⟩
  have hlt := (List.getElem?_eq_some_iff.1 hA).1
  have hvalue : A = schemaNonterminals.getD entry.1.2 0 := by simp [hA]
  have hrhs : List.Forall₂ b₄.ReadsAs
      (comma ++ [.terminal key, .terminal colon, .nonterminal A,
        .nonterminal (memberState first (entry.2 + 1) true)])
      (commaText (if emitted then 1 else 0) ++
        memberSymbols schemaNonterminals entry.1.1 entry.1.2 ++
        [.nonterminal (memberState first (entry.2 + 1) true)]) := by
    rw [List.append_assoc]
    refine List.rel_append (hcomma.imp fun _ _ hs => hs.mono (hadds₃.trans hadds₄).terminals) ?_
    exact .cons (hkey.mono hadds₄.terminals) (.cons hcolon (.cons (hvalue ▸ .nonterminal A)
      (.cons (.nonterminal _) .nil)))
  rw [Method.wp_bind]
  refine Method.wp_mono (addProduction_rules hadds₄.cacheSound hrhs) fun id b₅ hadds₅ => ?_
  exact ⟨hlt, by simpa [memberRules] using (((hadds₁.trans hadds₂).trans hadds₃).trans
    hadds₄).trans hadds₅⟩

theorem lowerMembers_rules (hb : b.CacheSound) {count : ℕ} (l : List ((String × ℕ) × ℕ))
    (hl : ∀ entry ∈ l, entry.2 < count) :
    Returns (l.forM fun entry => do
        lowerMember schemaNonterminals object provenance
          (memberStates first (count + 1)) entry false
        lowerMember schemaNonterminals object provenance
          (memberStates first (count + 1)) entry true)
      (fun _ b' => (∀ entry ∈ l, entry.1.2 < schemaNonterminals.length) ∧
        AddsRules b (membersRules schemaNonterminals object first l) b') b := by
  induction l generalizing b with
  | nil => exact ⟨by simp, .refl hb⟩
  | cons entry l ih =>
    have hentry := hl entry List.mem_cons_self
    change Method.wp _ (_ >>= fun _ => l.forM _) _ b
    rw [Method.wp_bind, Method.wp_bind]
    refine Method.wp_mono (lowerMember_rules hb hentry) fun _ b₁ ⟨hlt, hadds₁⟩ => ?_
    refine Method.wp_mono (lowerMember_rules hadds₁.cacheSound hentry) fun _ b₂ ⟨_, hadds₂⟩ => ?_
    refine Method.wp_mono (ih hadds₂.cacheSound fun e he => hl e (List.mem_cons_of_mem _ he)) ?_
    rintro - b₃ ⟨hrest, hadds₃⟩
    exact ⟨List.forall_mem_cons.2 ⟨hlt, hrest⟩, (hadds₁.trans hadds₂).trans hadds₃⟩

/-! ### Choosing members -/

/-- The text of a member: the encoding of its name, a colon and the text of its value. -/
def memberText (member : String × List UInt8) : List UInt8 :=
  utf8Bytes (jsonString member.1) ++ 58 :: member.2

variable (schemaNonterminals object) in
/-- `es` are members for some of the properties, in their order, with every
required one among them. -/
inductive Selects (L : ℕ → Language UInt8) :
    List (String × ℕ) → List (String × List UInt8) → Prop
  | nil : Selects L [] []
  | absent {name : String} {id : ℕ} {l : List (String × ℕ)} {es : List (String × List UInt8)} :
      name ∉ object.required → Selects L l es → Selects L ((name, id) :: l) es
  | present {name : String} {id A : ℕ} {v : List UInt8} {l : List (String × ℕ)}
      {es : List (String × List UInt8)} : schemaNonterminals[id]? = some A → v ∈ L A →
      Selects L l es → Selects L ((name, id) :: l) ((name, v) :: es)

variable (schemaNonterminals) in
/-- The member is declared, and its value is a string of the schema of its property. -/
def Declared (L : ℕ → Language UInt8) (l : List (String × ℕ)) (member : String × List UInt8) :
    Prop :=
  ∃ id A, (member.1, id) ∈ l ∧ schemaNonterminals[id]? = some A ∧ member.2 ∈ L A

section Selects

variable {L : ℕ → Language UInt8} {l : List (String × ℕ)} {es : List (String × List UInt8)}

theorem Declared.cons {entry : String × ℕ} {member : String × List UInt8}
    (h : Declared schemaNonterminals L l member) :
    Declared schemaNonterminals L (entry :: l) member := by
  obtain ⟨id, A, hmem, h⟩ := h
  exact ⟨id, A, List.mem_cons_of_mem _ hmem, h⟩

theorem Declared.name_mem {member : String × List UInt8}
    (h : Declared schemaNonterminals L l member) : member.1 ∈ l.map Prod.fst := by
  obtain ⟨id, A, hmem, -⟩ := h
  exact List.mem_map.2 ⟨_, hmem, rfl⟩

/-- The members that may be chosen: in the order of the keys, declared, and with every required
property among them. -/
theorem selects_iff (hl : (l.map Prod.fst).Pairwise (· < ·)) :
    Selects schemaNonterminals object L l es ↔
      (es.map Prod.fst).Pairwise (· < ·) ∧ (∀ e ∈ es, Declared schemaNonterminals L l e) ∧
        ∀ name ∈ l.map Prod.fst, name ∈ object.required → name ∈ es.map Prod.fst := by
  constructor
  · intro h
    induction h with
    | nil => simp
    | @absent name id l es hname _ ih =>
      rw [List.map_cons, List.pairwise_cons] at hl
      obtain ⟨hsorted, hdecl, hreq⟩ := ih hl.2
      refine ⟨hsorted, fun e he => (hdecl e he).cons, ?_⟩
      rw [List.map_cons, List.forall_mem_cons]
      exact ⟨fun h => absurd h hname, hreq⟩
    | @present name id A v l es hA hv _ ih =>
      rw [List.map_cons, List.pairwise_cons] at hl
      obtain ⟨hsorted, hdecl, hreq⟩ := ih hl.2
      refine ⟨?_, ?_, ?_⟩
      · rw [List.map_cons, List.pairwise_cons]
        refine ⟨fun key hkey => ?_, hsorted⟩
        obtain ⟨e, he, rfl⟩ := List.mem_map.1 hkey
        exact hl.1 _ (hdecl e he).name_mem
      · rw [List.forall_mem_cons]
        exact ⟨⟨id, A, List.mem_cons_self, hA, hv⟩, fun e he => (hdecl e he).cons⟩
      · rw [List.map_cons, List.map_cons, List.forall_mem_cons]
        exact ⟨fun _ => List.mem_cons_self, fun key hkey h =>
          List.mem_cons_of_mem _ (hreq key hkey h)⟩
  · rintro ⟨hsorted, hdecl, hreq⟩
    induction l generalizing es with
    | nil =>
      cases es with
      | nil => exact .nil
      | cons e es =>
        obtain ⟨_, _, hmem, -⟩ := hdecl e List.mem_cons_self
        cases hmem
    | cons entry l ih =>
      obtain ⟨name, id⟩ := entry
      rw [List.map_cons, List.pairwise_cons] at hl
      rw [List.map_cons, List.forall_mem_cons] at hreq
      -- A declared member other than the head comes after it.
      have htail : ∀ e : String × List UInt8, e.1 ≠ name →
          Declared schemaNonterminals L ((name, id) :: l) e →
            Declared schemaNonterminals L l e := by
        rintro e hne ⟨id', A, hmem, h⟩
        rcases List.mem_cons.1 hmem with heq | hmem
        · exact absurd (congrArg Prod.fst heq) hne
        · exact ⟨id', A, hmem, h⟩
      by_cases hname : name ∈ es.map Prod.fst
      · cases es with
        | nil => cases hname
        | cons e es =>
          rw [List.map_cons, List.pairwise_cons] at hsorted
          rw [List.forall_mem_cons] at hdecl
          have hhead : e.1 = name := by
            rcases List.mem_cons.1 hname with h | h
            · exact h.symm
            by_contra hne
            exact lt_asymm (hl.1 _ (htail e hne hdecl.1).name_mem) (hsorted.1 _ h)
          have hafter : ∀ e' ∈ es, e'.1 ≠ name := fun e' he' heq => by
            have hlt := hsorted.1 _ (List.mem_map_of_mem (f := Prod.fst) he')
            rw [heq, hhead] at hlt
            exact lt_irrefl _ hlt
          have hrest := ih hl.2 hsorted.2 (fun e' he' => htail e' (hafter e' he') (hdecl.2 e' he'))
            fun key hkey h => (List.mem_cons.1 (hreq.2 key hkey h)).resolve_left fun heq => by
              have hlt := hl.1 _ hkey
              rw [heq, hhead] at hlt
              exact lt_irrefl _ hlt
          obtain ⟨id', A, hmem, hA, hv⟩ := hdecl.1
          rcases List.mem_cons.1 hmem with heq | hmem
          · obtain ⟨_, v⟩ := e
            obtain ⟨rfl, rfl⟩ := Prod.mk.inj heq
            exact .present hA hv hrest
          · have hlt := hl.1 _ (List.mem_map_of_mem (f := Prod.fst) hmem)
            rw [hhead] at hlt
            exact absurd hlt (lt_irrefl _)
      · refine .absent (fun h => hname (hreq.1 h)) (ih hl.2 hsorted (fun e he => ?_) hreq.2)
        exact htail e (fun heq => hname (heq ▸ List.mem_map_of_mem he)) (hdecl e he)

/-- Members can be chosen unless a required property has no values. -/
theorem exists_selects (h : ∀ entry ∈ l, entry.1 ∈ object.required →
    ∃ A v, schemaNonterminals[entry.2]? = some A ∧ v ∈ L A) :
    ∃ es, Selects schemaNonterminals object L l es := by
  induction l with
  | nil => exact ⟨[], .nil⟩
  | cons entry l ih =>
    obtain ⟨name, id⟩ := entry
    rw [List.forall_mem_cons] at h
    obtain ⟨es, hes⟩ := ih h.2
    by_cases hname : name ∈ object.required
    · obtain ⟨A, v, hA, hv⟩ := h.1 hname
      exact ⟨_, .present hA hv hes⟩
    · exact ⟨es, .absent hname hes⟩

end Selects

/-! ### What the members generate -/

section Generated

variable {n lhs i : ℕ} {emitted : Bool} {new : List Production} {pattern : String → Language UInt8}
  {L M : ℕ → Language UInt8}

theorem mem_memberRules {entry : (String × ℕ) × ℕ} {A : ℕ} {γ : List (Symbol (List UInt8) ℕ)} :
    (A, γ) ∈ memberRules schemaNonterminals object first entry emitted ↔
      A = memberState first entry.2 emitted ∧
        (entry.1.1 ∉ object.required ∧
          γ = [.nonterminal (memberState first (entry.2 + 1) emitted)] ∨
          γ = commaText (if emitted then 1 else 0) ++
            memberSymbols schemaNonterminals entry.1.1 entry.1.2 ++
            [.nonterminal (memberState first (entry.2 + 1) true)]) := by
  by_cases hname : entry.1.1 ∈ object.required <;> simp [memberRules, hname, and_or_left]

theorem mem_rules {A : ℕ} {γ : List (Symbol (List UInt8) ℕ)} :
    (A, γ) ∈ rules schemaNonterminals object first lhs ↔
      (∃ emitted, A = memberState first object.properties.length emitted ∧ γ = []) ∨
      (∃ name id i emitted, object.properties[i]? = some (name, id) ∧
        (A, γ) ∈ memberRules schemaNonterminals object first ((name, id), i) emitted) ∨
      (A = lhs ∧
        γ = [.terminal [123], .nonterminal (memberState first 0 false), .terminal [125]]) := by
  have hmembers : (A, γ) ∈ membersRules schemaNonterminals object first object.properties.zipIdx ↔
      ∃ name id i emitted, object.properties[i]? = some (name, id) ∧
        (A, γ) ∈ memberRules schemaNonterminals object first ((name, id), i) emitted := by
    simp only [membersRules, List.mem_flatMap, List.mem_append]
    constructor
    · rintro ⟨⟨⟨name, id⟩, i⟩, hentry, h | h⟩
      · exact ⟨name, id, i, false, List.mk_mem_zipIdx_iff_getElem?.1 hentry, h⟩
      · exact ⟨name, id, i, true, List.mk_mem_zipIdx_iff_getElem?.1 hentry, h⟩
    · rintro ⟨name, id, i, emitted, hentry, h⟩
      refine ⟨((name, id), i), List.mk_mem_zipIdx_iff_getElem?.2 hentry, ?_⟩
      cases emitted
      · exact .inl h
      · exact .inr h
  simp only [rules, List.mem_append, hmembers, List.mem_cons, List.not_mem_nil, or_false,
    Prod.mk.injEq, Bool.exists_bool, or_assoc]

theorem memberState_injective {j : ℕ} {emitted' : Bool}
    (h : memberState first i emitted = memberState first j emitted') :
    i = j ∧ emitted = emitted' := by
  unfold memberState at h
  cases emitted <;> cases emitted' <;> simp at h ⊢ <;> omega

theorem le_memberState : first ≤ memberState first i emitted := by
  unfold memberState
  omega

theorem mem_singleton_mul {u x : List UInt8} {K : Language UInt8} :
    x ∈ ({u} : Language UInt8) * K ↔ ∃ y ∈ K, x = u ++ y := by
  rw [Language.mem_mul]
  constructor
  · rintro ⟨_, rfl, y, hy, rfl⟩
    exact ⟨y, hy, rfl⟩
  · rintro ⟨y, hy, rfl⟩
    exact ⟨u, rfl, y, hy, rfl⟩

/-- The strings of a member that is present and what follows it. -/
theorem mem_ruleLanguage_member {name : String} {id A B k : ℕ}
    (hA : schemaNonterminals[id]? = some A) (hlt : A < n) (hB : n ≤ B) {x : List UInt8} :
    x ∈ ruleLanguage n L M
        (commaText k ++ memberSymbols schemaNonterminals name id ++ [.nonterminal B]) ↔
      ∃ v ∈ L A, ∃ y ∈ M B, x = (if k = 0 then memberText (name, v)
        else 44 :: memberText (name, v)) ++ y := by
  have hget : schemaNonterminals.getD id 0 = A := by simp [hA]
  have hmember : ∀ z, z ∈ ruleLanguage n L M (memberSymbols schemaNonterminals name id ++
      [.nonterminal B]) ↔ ∃ v ∈ L A, ∃ y ∈ M B, z = memberText (name, v) ++ y := by
    intro z
    simp only [ruleLanguage, memberSymbols, List.cons_append, List.nil_append, List.map_cons,
      List.map_nil, List.prod_cons, List.prod_nil, mul_one, symbolLanguage, hget, if_pos hlt,
      if_neg (not_lt.2 hB), mem_singleton_mul]
    constructor
    · rintro ⟨u, ⟨w, hw, hu⟩, hz⟩
      obtain ⟨v, hv, y, hy, rfl⟩ := Language.mem_mul.1 hw
      exact ⟨v, hv, y, hy, by simp [hz, hu, memberText]⟩
    · rintro ⟨v, hv, y, hy, hz⟩
      have hw : v ++ y ∈ L A * M B := Language.append_mem_mul hv hy
      refine ⟨[58] ++ (v ++ y), ⟨v ++ y, hw, rfl⟩, ?_⟩
      rw [hz, memberText, List.append_assoc]
      rfl
  rw [List.append_assoc]
  by_cases h0 : k = 0
  · simp only [commaText, if_pos h0, List.nil_append, hmember]
  · have hcomma : ∀ γ, ruleLanguage n L M (commaText k ++ γ) = {[44]} * ruleLanguage n L M γ := by
      intro γ
      simp [commaText, h0, ruleLanguage, symbolLanguage]
    simp only [hcomma, mem_singleton_mul, hmember, if_neg h0]
    constructor
    · rintro ⟨z, ⟨v, hv, y, hy, hz⟩, hx⟩
      exact ⟨v, hv, y, hy, by rw [hx, hz, List.singleton_append, List.cons_append]⟩
    · rintro ⟨v, hv, y, hy, hx⟩
      exact ⟨memberText (name, v) ++ y, ⟨v, hv, y, hy, rfl⟩,
        by rw [hx, List.singleton_append, List.cons_append]⟩

/-- The strings of the object's own rule. -/
theorem mem_ruleLanguage_object {B : ℕ} (hB : n ≤ B) {x : List UInt8} :
    x ∈ ruleLanguage n L M [.terminal [123], .nonterminal B, .terminal [125]] ↔
      ∃ y ∈ M B, x = [123] ++ y ++ [125] := by
  simp only [ruleLanguage, List.map_cons, List.map_nil, List.prod_cons, List.prod_nil, mul_one,
    symbolLanguage, if_neg (not_lt.2 hB), mem_singleton_mul]
  constructor
  · rintro ⟨_, hz, rfl⟩
    obtain ⟨y, hy, _, rfl, rfl⟩ := Language.mem_mul.1 hz
    exact ⟨y, hy, (List.append_assoc _ _ _).symm⟩
  · rintro ⟨y, hy, rfl⟩
    have hz : y ++ [125] ∈ M B * {[125]} := Language.append_mem_mul hy rfl
    exact ⟨y ++ [125], hz, List.append_assoc _ _ _⟩

theorem ruleLanguage_state {B : ℕ} (hB : n ≤ B) : ruleLanguage n L M [.nonterminal B] = M B := by
  simp [ruleLanguage, symbolLanguage, not_lt.2 hB]

variable (schemaNonterminals object) in
/-- The members from `index` on, where `emitted` says whether one stands before them. -/
def Rest (L : ℕ → Language UInt8) (index : ℕ) (emitted : Bool) : Language UInt8 :=
  {x | ∃ es, Selects schemaNonterminals object L (object.properties.drop index) es ∧
    x = separated (if emitted then 1 else 0) (es.map memberText)}

theorem rest_absent {name : String} {id : ℕ} (hi : object.properties[i]? = some (name, id))
    (hname : name ∉ object.required) :
    Rest schemaNonterminals object L (i + 1) emitted ≤
      Rest schemaNonterminals object L i emitted := by
  rintro x ⟨es, hes, hx⟩
  refine ⟨es, ?_, hx⟩
  rw [List.drop_eq_getElem?_toList_append, hi]
  exact .absent hname hes

theorem rest_present {name : String} {id A : ℕ} {v y : List UInt8}
    (hi : object.properties[i]? = some (name, id)) (hA : schemaNonterminals[id]? = some A)
    (hv : v ∈ L A) (hy : y ∈ Rest schemaNonterminals object L (i + 1) true) :
    (if (if emitted then 1 else 0) = 0 then memberText (name, v) else 44 :: memberText (name, v)) ++
      y ∈ Rest schemaNonterminals object L i emitted := by
  obtain ⟨es, hes, hy⟩ := hy
  refine ⟨(name, v) :: es, ?_, ?_⟩
  · rw [List.drop_eq_getElem?_toList_append, hi]
    exact .present hA hv hes
  · rw [hy, List.map_cons, separated, separated_succ, if_pos rfl, separated_succ]

/-- The members that are still to come, and for the object itself the members between braces,
solve the rules. -/
theorem ruleLanguage_le_rest (hlt : ∀ A ∈ schemaNonterminals, A < n)
    (hrange : ∀ entry ∈ object.properties, entry.2 < schemaNonterminals.length) (hlhs : lhs < n)
    (hM : M = fun A => {x | (A = lhs →
        ∃ y ∈ Rest schemaNonterminals object L 0 false, x = [123] ++ y ++ [125]) ∧
      ∀ i emitted, A = memberState n i emitted → x ∈ Rest schemaNonterminals object L i emitted})
    {A : ℕ} {γ : List (Symbol (List UInt8) ℕ)}
    (hr : (A, γ) ∈ rules schemaNonterminals object n lhs) : ruleLanguage n L M γ ≤ M A := by
  have hstate : ∀ {i emitted}, M (memberState n i emitted) ≤
      Rest schemaNonterminals object L i emitted := by
    intro i emitted x hx
    rw [hM] at hx
    exact hx.2 _ _ rfl
  have hmem : ∀ {i emitted} {K : Language UInt8},
      K ≤ Rest schemaNonterminals object L i emitted → K ≤ M (memberState n i emitted) := by
    intro i emitted K hK x hx
    rw [hM]
    refine ⟨fun heq => ?_, fun j emitted' heq => ?_⟩
    · have : n ≤ memberState n i emitted := le_memberState
      omega
    · obtain ⟨rfl, rfl⟩ := memberState_injective heq
      exact hK hx
  rcases mem_rules.1 hr with ⟨emitted, rfl, rfl⟩ | ⟨name, id, i, emitted, hi, hrule⟩ | ⟨rfl, rfl⟩
  · refine hmem fun x hx => ?_
    obtain rfl : x = [] := hx
    exact ⟨[], by rw [List.drop_length]; exact .nil, rfl⟩
  · obtain ⟨hA, ⟨hname, rfl⟩ | rfl⟩ := mem_memberRules.1 hrule
    · obtain rfl : A = memberState n i emitted := hA
      rw [ruleLanguage_state le_memberState]
      exact hmem (hstate.trans (rest_absent hi hname))
    · obtain rfl : A = memberState n i emitted := hA
      have hid := hrange _ (List.mem_of_getElem? hi)
      have hget := List.getElem?_eq_getElem hid
      refine hmem fun x hx => ?_
      obtain ⟨v, hv, y, hy, rfl⟩ :=
        (mem_ruleLanguage_member hget (hlt _ (List.getElem_mem hid)) le_memberState).1 hx
      exact rest_present hi hget hv (hstate hy)
  · intro x hx
    obtain ⟨y, hy, rfl⟩ := (mem_ruleLanguage_object le_memberState).1 hx
    rw [hM]
    refine ⟨fun _ => ⟨y, hstate hy, rfl⟩, fun i emitted heq => ?_⟩
    have : n ≤ memberState n i emitted := le_memberState
    omega

theorem drop_eq_cons {α : Type} {l l' : List α} {a : α} (h : l.drop i = a :: l') :
    l[i]? = some a ∧ l.drop (i + 1) = l' ∧ i + 1 ≤ l.length := by
  have hi : i < l.length := by
    by_contra hge
    rw [List.drop_eq_nil_of_le (not_lt.1 hge)] at h
    cases h
  rw [List.drop_eq_getElem_cons hi] at h
  obtain ⟨rfl, rfl⟩ := List.cons.inj h
  exact ⟨List.getElem?_eq_getElem hi, rfl, hi⟩

/-- The members that are still to come are generated. -/
theorem rest_le_generated (hlt : ∀ A ∈ schemaNonterminals, A < n)
    (h : b.AreRules new (rules schemaNonterminals object n lhs))
    (hi : i ≤ object.properties.length) :
    Rest schemaNonterminals object L i emitted ≤
      generated n b new pattern L (memberState n i emitted) := by
  rintro x ⟨es, hes, hx⟩
  rw [hx]
  clear hx
  have hclosed := @ruleLanguage_le_generated n b new _ pattern L h
  generalize hl : object.properties.drop i = l at hes
  induction hes generalizing i emitted with
  | nil =>
    have hlen : i = object.properties.length := le_antisymm hi (List.drop_eq_nil_iff.1 hl)
    subst hlen
    exact hclosed (mem_rules.2 (.inl ⟨emitted, rfl, rfl⟩)) rfl
  | @absent name id l es hname _ ih =>
    obtain ⟨hget, hnext, hlt'⟩ := drop_eq_cons hl
    have hrule : (memberState n i emitted, [.nonterminal (memberState n (i + 1) emitted)]) ∈
        rules schemaNonterminals object n lhs :=
      mem_rules.2 (.inr (.inl ⟨name, id, i, emitted, hget,
        mem_memberRules.2 ⟨rfl, .inl ⟨hname, rfl⟩⟩⟩))
    have hrest := @ih (i + 1) emitted hlt' hnext
    rw [← ruleLanguage_state (n := n) (L := L) (M := generated n b new pattern L)
      le_memberState] at hrest
    exact hclosed hrule hrest
  | @present name id A v l es hA hv _ ih =>
    obtain ⟨hget, hnext, hlt'⟩ := drop_eq_cons hl
    have hrule : (memberState n i emitted, commaText (if emitted then 1 else 0) ++
        memberSymbols schemaNonterminals name id ++ [.nonterminal (memberState n (i + 1) true)]) ∈
        rules schemaNonterminals object n lhs :=
      mem_rules.2 (.inr (.inl ⟨name, id, i, emitted, hget, mem_memberRules.2 ⟨rfl, .inr rfl⟩⟩))
    have hrest := @ih (i + 1) true hlt' hnext
    refine hclosed hrule ((mem_ruleLanguage_member hA (hlt A (List.mem_of_getElem? hA))
      le_memberState).2 ⟨v, hv, _, hrest, ?_⟩)
    rw [List.map_cons, separated, separated_succ, if_pos rfl, separated_succ]

end Generated

/-! ### The strings of an object -/

/-- The strings of an object: members for some of the properties, every required one among them,
each once and in the order of the keys, separated by commas and between braces. -/
def language (schemaNonterminals : List ℕ) (object : ObjectConstraints) (L : ℕ → Language UInt8) :
    Language UInt8 :=
  {x | ∃ es : List (String × List UInt8), (es.map Prod.fst).Pairwise (· < ·) ∧
    (∀ e ∈ es, Declared schemaNonterminals L object.properties e) ∧
    (∀ name ∈ object.required, name ∈ es.map Prod.fst) ∧
    x = [123] ++ [44].intercalate (es.map memberText) ++ [125]}

variable {L : ℕ → Language UInt8}

theorem mem_language_iff (hkeys : (object.properties.map Prod.fst).Pairwise (· < ·))
    (hreq : ∀ name ∈ object.required, name ∈ object.properties.map Prod.fst) {x : List UInt8} :
    x ∈ object.language schemaNonterminals L ↔
      ∃ y ∈ Rest schemaNonterminals object L 0 false, x = [123] ++ y ++ [125] := by
  constructor
  · rintro ⟨es, hsorted, hdecl, hes, hx⟩
    refine ⟨_, ⟨es, ?_, rfl⟩, by rw [hx, if_neg Bool.false_ne_true, separated_zero]⟩
    exact (selects_iff hkeys).2 ⟨hsorted, hdecl, fun name _ h => hes name h⟩
  · rintro ⟨y, ⟨es, hes, hy⟩, hx⟩
    obtain ⟨hsorted, hdecl, hes⟩ := (selects_iff hkeys).1 hes
    refine ⟨es, hsorted, hdecl, fun name h => hes name (hreq name h) h, ?_⟩
    rw [hx, hy, if_neg Bool.false_ne_true, separated_zero]

/-- An object has no strings if a required name is not declared. -/
theorem language_eq_zero_of_undeclared {name : String} (hname : name ∈ object.required)
    (h : name ∉ object.properties.map Prod.fst) : object.language schemaNonterminals L = 0 := by
  refine Set.eq_empty_of_forall_notMem ?_
  rintro x ⟨es, -, hdecl, hreq, -⟩
  obtain ⟨e, he, rfl⟩ := List.mem_map.1 (hreq name hname)
  exact h (hdecl e he).name_mem

/-- Otherwise it has none exactly when a required property has no values. -/
theorem language_eq_zero_iff (hkeys : (object.properties.map Prod.fst).Pairwise (· < ·))
    (hrange : ∀ entry ∈ object.properties, entry.2 < schemaNonterminals.length)
    (hreq : ∀ name ∈ object.required, name ∈ object.properties.map Prod.fst) :
    object.language schemaNonterminals L = 0 ↔ ∃ name ∈ object.required, ∃ id A,
      (name, id) ∈ object.properties ∧ schemaNonterminals[id]? = some A ∧ L A = 0 := by
  constructor
  · intro hempty
    by_contra hnone
    obtain ⟨es, hes⟩ : ∃ es, Selects schemaNonterminals object L object.properties es := by
      refine exists_selects ?_
      rintro ⟨name, id⟩ hentry hname
      have hlt : id < schemaNonterminals.length := hrange _ hentry
      have hget := List.getElem?_eq_getElem hlt
      obtain ⟨v, hv⟩ : ∃ v, v ∈ L schemaNonterminals[id] := by
        by_contra hv
        exact hnone ⟨name, hname, id, _, hentry, hget,
          Set.eq_empty_of_forall_notMem fun v h => hv ⟨v, h⟩⟩
      exact ⟨_, v, hget, hv⟩
    have hx := (mem_language_iff (L := L) hkeys hreq).2 ⟨_, ⟨es, hes, rfl⟩, rfl⟩
    rw [hempty] at hx
    exact hx
  · rintro ⟨name, hname, id, A, hentry, hA, hzero⟩
    refine Set.eq_empty_of_forall_notMem ?_
    rintro x ⟨es, -, hdecl, hes, -⟩
    obtain ⟨e, he, rfl⟩ := List.mem_map.1 (hes name hname)
    obtain ⟨id', A', hentry', hA', hv⟩ := hdecl e he
    have hnodup : (object.properties.map Prod.fst).Nodup := hkeys.imp ne_of_lt
    obtain rfl : id = id' := (Prod.mk.inj
      (List.inj_on_of_nodup_map hnodup hentry hentry' rfl)).2
    obtain rfl := Option.some.inj (hA.symm.trans hA')
    rw [hzero] at hv
    exact hv

/-! ### The canonical encoding of an object -/

/-- The bytes of a text. -/
def encode (text : List Char) : List UInt8 := text.flatMap String.utf8EncodeChar

theorem encode_joinComma (texts : List (List Char)) :
    encode (joinComma texts) = [44].intercalate (texts.map encode) := by
  unfold joinComma
  induction texts with
  | nil => rfl
  | cons t texts ih =>
    cases texts with
    | nil => simp
    | cons t' texts =>
      have hcomma : encode [','] = [44] := by decide
      rw [List.intercalate_cons_cons, encode, List.flatMap_append, List.flatMap_append, ← encode,
        ← encode, ← encode, ih, hcomma, List.map_cons, List.map_cons, List.map_cons,
        List.intercalate_cons_cons]

/-- What is written for members, read as members. -/
theorem exists_members {members : List (String × JsonValue)} {texts : List (List Char)}
    (h : List.Forall₂ WritesMember members texts) :
    ∃ es : List (String × List UInt8), texts.map encode = es.map memberText ∧
      List.Forall₂ (fun m e => e.1 = m.1 ∧ ∃ text, Writes m.2 text ∧ e.2 = encode text)
        members es := by
  induction h with
  | nil => exact ⟨[], rfl, .nil⟩
  | @cons m s members texts hm _ ih =>
    obtain ⟨es, htexts, hes⟩ := ih
    obtain ⟨text, htext, hs⟩ := hm
    refine ⟨(m.1, encode text) :: es, ?_, .cons ⟨rfl, text, htext, rfl⟩ hes⟩
    have hcolon : String.utf8EncodeChar ':' = [58] := by decide
    rw [hs, List.map_cons, List.map_cons, htexts, encode, List.flatMap_append,
      List.flatMap_cons, hcolon]
    rfl

/-- The canonical encoding of an object is a string of the object, if its members are. -/
theorem canonicalValue_mem_language {members : List (String × JsonValue)} {c : CanonicalValue}
    (hkeys : (members.map Prod.fst).Nodup) (hc : canonicalValue (.object members) = .ok c)
    (hmembers : ∀ m ∈ members, ∃ c', canonicalValue m.2 = .ok c' ∧
      Declared schemaNonterminals L object.properties (m.1, utf8Bytes c'.json))
    (hreq : ∀ name ∈ object.required, name ∈ members.map Prod.fst) :
    utf8Bytes c.json ∈ object.language schemaNonterminals L := by
  obtain ⟨s, hs, h⟩ := Result.bind_eq_ok.1 hc
  obtain rfl := Result.pure_eq_ok.1 h
  obtain ⟨texts, htexts, hs⟩ := writes_object hs
  obtain ⟨es, hmap, hes⟩ := exists_members htexts
  have hnames : es.map Prod.fst = (sortByKey (fun m => m.1) members).map Prod.fst := by
    clear hmap htexts
    revert hes
    generalize sortByKey (fun m : String × JsonValue => m.1) members = sorted
    intro hes
    induction hes with
    | nil => rfl
    | cons he _ ih => rw [List.map_cons, List.map_cons, he.1, ih]
  have hperm : (sortByKey (fun m : String × JsonValue => m.1) members).Perm members :=
    List.perm_insertionSort _ _
  refine ⟨es, ?_, fun e he => ?_, fun name hname => ?_, ?_⟩
  · rw [hnames]
    have hnodup : ((sortByKey (fun m : String × JsonValue => m.1) members).map Prod.fst).Nodup :=
      (hperm.map Prod.fst).nodup_iff.2 hkeys
    have hle : ((sortByKey (fun m : String × JsonValue => m.1) members).map Prod.fst).Pairwise
        (· ≤ ·) := List.pairwise_map.2 (pairwise_sortByKey _)
    exact (hle.and hnodup).imp fun h => lt_of_le_of_ne h.1 h.2
  · obtain ⟨m, hm, hname, text, htext, he⟩ := exists_of_forall₂_left hes.flip he
    obtain ⟨c', hc', hdecl⟩ := hmembers m (mem_sortByKey.1 hm)
    obtain ⟨text', htext', h'⟩ := Result.bind_eq_ok.1 hc'
    obtain rfl := Result.pure_eq_ok.1 h'
    obtain rfl : text = text' := Except.ok.inj (htext.symm.trans htext')
    have heq : e = (m.1, utf8Bytes (String.ofList text)) := by
      refine Prod.ext hname ?_
      rw [he, utf8Bytes, String.toList_ofList, encode]
    exact heq ▸ hdecl
  · rw [hnames]
    exact ((hperm.map Prod.fst).mem_iff).2 (hreq name hname)
  · have hbrace : String.utf8EncodeChar '\x7b' = [123] := by decide
    have hbrace' : String.utf8EncodeChar '\x7d' = [125] := by decide
    rw [hs, utf8Bytes, String.toList_ofList, List.flatMap_append, List.flatMap_cons, ← encode,
      encode_joinComma, hmap, List.flatMap_singleton, hbrace, hbrace']

variable {lhs schemaId : ℕ}

/-- The call adds nothing if a required name is not declared, and otherwise the
rules of the object. -/
theorem lowerObject_returns (hb : b.CacheSound) :
    Returns (lowerObject schemaNonterminals lhs schemaId object provenance)
      (fun _ b' =>
        (∃ name ∈ object.required, name ∉ object.properties.map Prod.fst) ∧ b' = b ∨
        (∀ name ∈ object.required, name ∈ object.properties.map Prod.fst) ∧
        (∀ entry ∈ object.properties, entry.2 < schemaNonterminals.length) ∧
        b'.nonterminals.length = b.nonterminals.length + 2 * (object.properties.length + 1) ∧
        ∃ new, b'.productions = b.productions ++ new ∧
          b'.AreRules new (rules schemaNonterminals object b.nonterminals.length lhs)) b := by
  -- an object that requires a name it does not declare has no words and adds nothing
  have hany : (object.required.any fun name => (object.properties.lookup name).isNone) = true ↔
      ∃ name ∈ object.required, name ∉ object.properties.map Prod.fst := by
    have hlookup : ∀ name, (object.properties.lookup name).isNone = true ↔
        name ∉ object.properties.map Prod.fst := by
      intro name
      rw [Option.isNone_iff_eq_none, List.lookup_eq_none_iff, List.mem_map, not_exists]
      refine forall_congr' fun entry => ?_
      rw [not_and, bne_iff_ne, ne_comm]
    simp only [List.any_eq_true, hlookup]
  unfold Returns lowerObject
  rw [Method.wp_bind, Method.wp_require]
  refine ⟨fun _ => ?_, fun _ => trivial⟩
  split
  · next hundeclared => exact .inl ⟨hany.1 hundeclared, rfl⟩
  · next hdeclared =>
    have hreq : ∀ name ∈ object.required, name ∈ object.properties.map Prod.fst :=
      fun name hname => by_contra fun h => hdeclared (hany.2 ⟨name, hname, h⟩)
    rw [Method.wp_bind]
    refine Method.wp_mono (addMembers_returns (List.range (object.properties.length + 1)) hb) ?_
    rintro members b₁ ⟨rfl, hlen, hb₁, hterminals, hproductions⟩
    rw [List.length_range] at hlen ⊢
    rw [memberStates_get (Nat.lt_succ_self _), Method.wp_bind, Method.wp_unwrap_some,
      Method.wp_bind]
    refine Method.wp_mono (addProduction_rules hb₁ .nil) fun _ b₂ hadds₂ => ?_
    rw [Method.wp_bind]
    refine Method.wp_mono (addProduction_rules hadds₂.cacheSound .nil) fun _ b₃ hadds₃ => ?_
    rw [Method.wp_bind]
    refine Method.wp_mono (lowerMembers_rules hadds₃.cacheSound _ fun entry hentry =>
      (List.mem_zipIdx' hentry).1) fun _ b₄ ⟨hrange, hadds₄⟩ => ?_
    rw [Method.wp_bind]
    refine Method.wp_mono (addLiteral_rules hadds₄.cacheSound)
      fun opening b₅ ⟨hadds₅, hopening⟩ => ?_
    rw [Method.wp_bind]
    refine Method.wp_mono (addLiteral_rules hadds₅.cacheSound)
      fun closing b₆ ⟨hadds₆, hclosing⟩ => ?_
    rw [memberStates_get (Nat.succ_pos _), Method.wp_bind, Method.wp_unwrap_some, Method.wp_bind]
    refine Method.wp_mono (addProduction_rules hadds₆.cacheSound
      (.cons (hopening.mono hadds₆.terminals) (.cons (.nonterminal _) (.cons hclosing .nil)))) ?_
    intro _ b₇ hadds₇
    -- the two ends of the members, the members, the braces and the production around it all
    have hadds := ((((hadds₂.trans hadds₃).trans hadds₄).trans hadds₅).trans hadds₆).trans hadds₇
    refine .inr ⟨hreq, fun entry hentry => ?_, ?_, ?_⟩
    · obtain ⟨i, hi⟩ := List.getElem?_of_mem hentry
      exact hrange (entry, i) (List.mk_mem_zipIdx_iff_getElem?.2 hi)
    · rw [hadds.nonterminals, hlen]
    · obtain ⟨new, hnew, hrules⟩ := hadds
      refine ⟨new, by rw [hnew.productions, hproductions], ?_⟩
      simpa [rules] using hrules

end ObjectConstraints

open ObjectConstraints

/-- **Object lowering is exact.**  Whatever languages the nonterminals of the nodes stand for, the
productions that the call adds generate from the nonterminal of the object exactly its strings.
There are none exactly when a required name is not declared or a required property has no values;
the canonical encoding of an object whose members fit is among them; and the nonterminals that are
added are two for every property and two for the end. -/
theorem lowerObject_exact {schemaNonterminals : List ℕ} {b b' : GrammarBuilder}
    {lhs schemaId : ℕ} {object : ObjectConstraints} {provenance : Provenance} (hb : b.CacheSound)
    (hlt : ∀ A ∈ schemaNonterminals, A < b.nonterminals.length)
    (hlhs : lhs < b.nonterminals.length)
    (hkeys : (object.properties.map Prod.fst).Pairwise (· < ·))
    (h : lowerObject schemaNonterminals lhs schemaId object provenance b = .ok () b')
    (pattern : String → Language UInt8) (L : ℕ → Language UInt8) :
    (∃ new, b'.productions = b.productions ++ new ∧ ∀ x,
      Yields (OpenRule b.nonterminals.length new) (openLanguage pattern b'.terminals L)
        [.nonterminal lhs] x ↔ x ∈ object.language schemaNonterminals L) ∧
    (object.language schemaNonterminals L = 0 ↔
      (∃ name ∈ object.required, name ∉ object.properties.map Prod.fst) ∨
      ∃ name ∈ object.required, ∃ id A, (name, id) ∈ object.properties ∧
        schemaNonterminals[id]? = some A ∧ L A = 0) ∧
    (∀ members c, (members.map Prod.fst).Nodup → canonicalValue (.object members) = .ok c →
      (∀ m ∈ members, ∃ c', canonicalValue m.2 = .ok c' ∧
        Declared schemaNonterminals L object.properties (m.1, utf8Bytes c'.json)) →
      (∀ name ∈ object.required, name ∈ members.map Prod.fst) →
      utf8Bytes c.json ∈ object.language schemaNonterminals L) ∧
    b'.nonterminals.length ≤ b.nonterminals.length + 2 * (object.properties.length + 1) := by
  refine ⟨?_, ?_, fun members c hnodup hc hmembers hreq =>
    canonicalValue_mem_language hnodup hc hmembers hreq, ?_⟩
  all_goals
    rcases Method.wp_ok (lowerObject_returns hb) h with
      ⟨⟨name, hname, hundeclared⟩, rfl⟩ | ⟨hreq, hrange, hlen, new, hproductions, hrules⟩
  · refine ⟨[], (List.append_nil _).symm, fun x => ⟨fun hx => ?_, fun hx => ?_⟩⟩
    · obtain ⟨γ, ⟨q, hq, -⟩, -⟩ := yields_nonterminal_iff.1 hx
      cases hq
    · rw [language_eq_zero_of_undeclared hname hundeclared] at hx
      exact hx.elim
  · refine ⟨new, hproductions, fun x => ?_⟩
    rw [mem_language_iff hkeys hreq]
    constructor
    · intro hx
      exact (generated_le hrules (fun A γ hr =>
        ruleLanguage_le_rest hlt hrange hlhs rfl hr) lhs hx).1 rfl
    · rintro ⟨y, hy, hx⟩
      -- the braces go around a text of the members, which the first state generates
      have hgen : y ∈ generated b.nonterminals.length b' new pattern L
          (memberState b.nonterminals.length 0 false) :=
        rest_le_generated hlt hrules (Nat.zero_le _) hy
      exact ruleLanguage_le_generated hrules (mem_rules.2 (.inr (.inr ⟨rfl, rfl⟩)))
        ((mem_ruleLanguage_object le_memberState).2 ⟨y, hgen, hx⟩)
  · exact ⟨fun _ => .inl ⟨name, hname, hundeclared⟩, fun _ =>
      language_eq_zero_of_undeclared hname hundeclared⟩
  · rw [language_eq_zero_iff hkeys hrange hreq, or_iff_right]
    rintro ⟨name, hname, hundeclared⟩
    exact hundeclared (hreq name hname)
  · omega
  · omega

/-- An object with a required Boolean and an optional member that has no values. -/
def flagObject : ObjectConstraints :=
  ⟨[("flag", 1), ("none", 2)], ["flag"], .forbidden⟩

theorem lowerObject_exact_flagObject :
    ∃ b' new, lowerObject [0, 1, 2] 0 0 flagObject .root optionalFlagBuilder = .ok () b' ∧
      b'.productions = optionalFlagBuilder.productions ++ new ∧
      (∀ x, Yields (OpenRule 3 new) (openLanguage (fun _ => 0) b'.terminals flagLanguage)
        [.nonterminal 0] x ↔ x ∈ flagObject.language [0, 1, 2] flagLanguage) ∧
      (∃ c, canonicalValue (.object [("flag", .bool true)]) = .ok c ∧
        utf8Bytes c.json ∈ flagObject.language [0, 1, 2] flagLanguage) ∧
      b'.nonterminals.length ≤ 9 := by
  have hok : (Method.valueOf (lowerObject [0, 1, 2] 0 0 flagObject .root
      optionalFlagBuilder)).isOk = true := by decide +kernel
  cases h : lowerObject [0, 1, 2] 0 0 flagObject .root optionalFlagBuilder with
  | error e b' =>
    rw [h] at hok
    cases hok
  | ok _ b' =>
    have hcache : optionalFlagBuilder.CacheSound := new_cacheSound .default
    obtain ⟨⟨new, hnew, hexact⟩, -, hcanonical, hlen⟩ := lowerObject_exact hcache (by decide)
      (by decide) (by decide +kernel) h (fun _ => 0) flagLanguage
    refine ⟨b', new, rfl, hnew, hexact, ?_, hlen⟩
    have hok' : (canonicalValue (.object [("flag", .bool true)])).isOk = true := by decide +kernel
    cases hc : canonicalValue (.object [("flag", .bool true)]) with
    | error e =>
      rw [hc] at hok'
      cases hok'
    | ok c =>
      refine ⟨c, rfl, hcanonical _ c (by decide) hc (fun m hm => ?_) (by decide)⟩
      obtain rfl := List.mem_singleton.1 hm
      exact ⟨⟨"true"⟩, rfl, 1, 1, by decide, rfl, .inl rfl⟩

end OcEarley

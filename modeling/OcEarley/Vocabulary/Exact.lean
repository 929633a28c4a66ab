import OcEarley.Vocabulary.Trie

/-!
# When a vocabulary is refused, and how its tables are laid out

`DerivedVocabulary.build` refuses a vocabulary for an empty token or for an id of two byte strings,
and for nothing else but a limit (`DerivedVocabulary.build_wp`).  In the tables the edges of a node
are in ascending order and lead to later nodes, and the nodes share no entries
(`DerivedVocabulary.Tabulates`).
-/

namespace OcEarley

namespace Vocabulary

/-- Every token has bytes, and no id belongs to two of them. -/
structure Clean (vocabulary : Vocabulary) : Prop where
  ne_nil : ∀ entry ∈ vocabulary.tokens.entries, entry.1 ≠ []
  unique : ∀ id b b', id ∈ vocabulary.ids b → id ∈ vocabulary.ids b' → b = b'

end Vocabulary

namespace DerivedVocabulary

open BuildNode

/-! ### The errors -/

/-- What `build` fails with, for the tokens and their ids. -/
inductive Refused (tokens : List UInt8 → Prop) (ids : List UInt8 → ℕ → Prop) : Error → Prop
  | limit {e : Error} (h : e.IsLimit) : Refused tokens ids e
  | empty (h : tokens []) : Refused tokens ids .emptyTokenDisallowed
  | ambiguous {id : ℕ} {b b' : List UInt8} (h : ids b id) (h' : ids b' id) (hne : b ≠ b') :
    Refused tokens ids (.ambiguousTokenId id)

variable {tokens paths : List UInt8 → Prop} {ids allIds : List UInt8 → ℕ → Prop}
  {limits : CompileLimits}

theorem wp_enforce {E : Error → Prop} {Q : Unit → Prop} {observed limit : ℕ}
    (hE : ∀ e, e.IsLimit → E e) (hQ : Q ()) : Result.wp E (enforce observed limit) Q := by
  unfold enforce
  exact Result.wp_require.2 ⟨fun _ => hQ, fun _ => hE _ trivial⟩

theorem wp_checkedUsize {E : Error → Prop} {Q : Unit → Prop} {value limit : ℕ}
    (hE : ∀ e, e.IsLimit → E e) (hQ : Q ()) : Result.wp E (checkedUsize value limit) Q := by
  unfold checkedUsize
  exact Result.wp_require.2 ⟨fun _ => hQ, fun _ => hE _ trivial⟩

theorem wp_checkedU32 {E : Error → Prop} {Q : ℕ → Prop} {value limit : ℕ}
    (hE : ∀ e, e.IsLimit → E e) (hQ : Q value) : Result.wp E (checkedU32 value limit) Q := by
  unfold checkedU32
  rw [Result.wp_bind, Result.wp_require]
  exact ⟨fun _ => hQ, fun _ => hE _ trivial⟩

theorem countEntries_wp {entries : List (List UInt8 × List ℕ)} {start : Totals}
    (htokens : ∀ entry ∈ entries, tokens entry.1) :
    Result.wp (Refused tokens ids) (entries.foldlM (countEntry limits) start) fun _ => True := by
  have hloop := Result.wp_foldlM (E := Refused tokens ids) (f := countEntry limits)
    (I := fun done rest _ => done ++ rest = entries) (fun done entry rest totals hI => ?_)
    [] entries start rfl
  · exact Result.wp_mono hloop fun _ _ => trivial
  · unfold countEntry
    dsimp only
    rw [Result.wp_bind, Result.wp_require]
    refine ⟨fun _ => ?_, fun hnil => .empty ?_⟩
    · rw [Result.wp_bind]
      refine wp_enforce (fun _ => .limit) ?_
      rw [Result.wp_bind]
      refine wp_checkedUsize (fun _ => .limit) ?_
      rw [Result.wp_bind]
      refine wp_enforce (fun _ => .limit) ?_
      rw [Result.wp_bind]
      refine wp_checkedUsize (fun _ => .limit) ?_
      rw [Result.wp_bind]
      refine wp_enforce (fun _ => .limit) ?_
      simp [← hI]
    · have hentry := htokens entry (hI ▸ by simp)
      rwa [not_not.1 hnil] at hentry

/-- Only a limit stops the steps over the bytes of a token. -/
theorem stepBytes_wp {nodes : List BuildNode} {bytes : List UInt8} (h : Grown paths ids nodes) :
    Result.wp (Refused tokens allIds)
      (bytes.foldlM (stepByte limits) (nodes, 0)) fun _ => True := by
  have hloop := Result.wp_foldlM (E := Refused tokens allIds) (f := stepByte limits)
    (I := fun done rest state => done ++ rest = bytes ∧
      Grown (fun b => paths b ∨ b <+: done) ids state.1 ∧ walk state.1 done = some state.2)
    (fun done byte rest state hI => ?_) [] bytes (nodes, 0) ⟨rfl, h.congr (fun b => ?_) fun _ _ =>
      Iff.rfl, rfl⟩
  · exact Result.wp_mono hloop fun _ _ => trivial
  · obtain ⟨hbytes, hgrown, hwalk⟩ := hI
    have hnext : Result.wp (Refused tokens allIds) (stepByte limits state byte) fun _ => True := by
      unfold stepByte
      rw [List.getElem?_eq_getElem (hgrown.walk_lt hwalk), Result.wp_bind, Result.wp_unwrap_some]
      split
      · trivial
      · dsimp only
        rw [Result.wp_bind]
        exact wp_enforce (fun _ => .limit) trivial
    refine Result.wp_self (Result.wp_mono hnext fun state' _ hok => ?_)
    obtain ⟨hgrown', hwalk'⟩ := stepByte_spec hgrown hwalk hok
    refine ⟨by simp [hbytes], hgrown'.congr (fun b => ?_) fun _ _ => Iff.rfl, hwalk'⟩
    rw [List.prefix_concat_iff, or_assoc, or_comm (a := b <+: done)]
  · simp only [List.prefix_nil, iff_self_or]
    rintro rfl
    exact (h.walk_iff []).1 ⟨0, rfl⟩

theorem addId_wp {bytes : List UInt8} {node id : ℕ} {building : Building}
    (h : building.Holds paths ids) (hlt : id < building.reverse.length)
    (hids : ∀ b i, ids b i → allIds b i) (hid : allIds bytes id) :
    Result.wp (Refused tokens allIds) (addId bytes node building id) fun _ => True := by
  unfold addId
  rw [List.getElem?_eq_getElem hlt, Result.wp_bind, Result.wp_unwrap_some, Result.wp_bind,
    Result.wp_require]
  refine ⟨fun _ => trivial, fun hnot => ?_⟩
  obtain ⟨hnone, hother⟩ := not_or.1 hnot
  obtain ⟨b, hb⟩ := Option.ne_none_iff_exists'.1 hnone
  have hrev := (h.reverse_iff id b).1 (by rw [List.getElem?_eq_getElem hlt, hb])
  exact .ambiguous (hids b id hrev) hid fun heq => hother (heq ▸ hb)

theorem addToken_wp {entry : List UInt8 × List ℕ} {building : Building}
    (h : building.Holds paths ids) (hlt : ∀ id ∈ entry.2, id < building.reverse.length)
    (hids : ∀ b i, ids b i → allIds b i) (hentry : ∀ id ∈ entry.2, allIds entry.1 id) :
    Result.wp (Refused tokens allIds) (addToken limits building entry) fun _ => True := by
  unfold addToken
  rw [Result.wp_bind]
  refine Result.wp_self (Result.wp_mono (stepBytes_wp h.grown) fun state _ hstate => ?_)
  obtain ⟨hgrown, hpath⟩ := stepBytes_spec h.grown hstate
  have hloop := Result.wp_foldlM (E := Refused tokens allIds) (f := addId entry.1 state.2)
    (I := fun done rest b => done ++ rest = sortDedup (fun id : ℕ => id) entry.2 ∧
      b.Holds (fun b => paths b ∨ b <+: entry.1)
        (fun b id => ids b id ∨ b = entry.1 ∧ id ∈ done) ∧
      walk b.nodes entry.1 = some state.2 ∧ b.reverse.length = building.reverse.length)
    (fun done id rest b hI => ?_) [] (sortDedup (fun id : ℕ => id) entry.2)
    { building with nodes := state.1 } ⟨rfl, ⟨hgrown.congr (fun _ => Iff.rfl) fun b id => ?_,
      fun id b => ?_⟩, hpath, rfl⟩
  · exact Result.wp_mono hloop fun _ _ => trivial
  · obtain ⟨hdone, hb, hwalk, hlen⟩ := hI
    have hmem : ∀ i ∈ done ++ [id], i ∈ entry.2 := by
      intro i hi
      have hsorted : i ∈ sortDedup (fun id : ℕ => id) entry.2 := by
        rw [← hdone, List.append_cons]
        exact List.mem_append_left _ hi
      exact mem_sortDedup.1 hsorted
    have hid := hmem id (by simp)
    have hnext : Result.wp (Refused tokens allIds) (addId entry.1 state.2 b id) fun _ => True :=
      addId_wp hb (hlen ▸ hlt id hid) (fun b i hi => ?_) (hentry id hid)
    · refine Result.wp_self (Result.wp_mono hnext fun b' _ hok => ?_)
      obtain ⟨⟨hgrown', hrev'⟩, hwalk', hlen'⟩ := addId_spec hb hwalk hok
      refine ⟨by simp [hdone], ⟨hgrown'.congr (fun _ => Iff.rfl) fun b i => ?_, fun i b => ?_⟩,
        hwalk', hlen'.trans hlen⟩
      · rw [List.mem_append, List.mem_singleton, and_or_left, or_assoc]
      · rw [hrev', List.mem_append, List.mem_singleton, and_or_left, or_assoc]
    · rcases hi with hi | ⟨rfl, hi⟩
      · exact hids b i hi
      · exact hentry i (hmem i (List.mem_append_left _ hi))
  · simp
  · simpa using h.reverse_iff id b

/-- The tokens are added until one of their ids turns out to belong to another token. -/
theorem addTokens_wp {entries : List (List UInt8 × List ℕ)} {size : ℕ}
    (hlt : ∀ entry ∈ entries, ∀ id ∈ entry.2, id < size)
    (hentries : ∀ entry ∈ entries, ∀ id ∈ entry.2, allIds entry.1 id) :
    Result.wp (Refused tokens allIds) (entries.foldlM (addToken limits)
      { nodes := [BuildNode.default], reverse := List.replicate size none }) fun _ => True := by
  have hloop := Result.wp_foldlM (E := Refused tokens allIds) (f := addToken limits)
    (I := fun done rest b => done ++ rest = entries ∧
      (done.foldlM (addToken limits) { nodes := [BuildNode.default],
                                       reverse := List.replicate size none } = .ok b))
    (fun done entry rest b hI => ?_) [] entries
    { nodes := [BuildNode.default], reverse := List.replicate size none } ⟨rfl, rfl⟩
  · exact Result.wp_mono hloop fun _ _ => trivial
  · obtain ⟨hdone, hrun⟩ := hI
    obtain ⟨hb, hlen⟩ := addTokens_spec hrun
    have hmem : ∀ e ∈ done ++ [entry], e ∈ entries := by
      intro e he
      rw [← hdone, List.append_cons]
      exact List.mem_append_left _ he
    have hentry := hmem entry (by simp)
    have hnext : Result.wp (Refused tokens allIds) (addToken limits b entry) fun _ => True :=
      addToken_wp hb (fun id hid => hlen ▸ hlt entry hentry id hid) (fun b i hi => ?_)
        (hentries entry hentry)
    · refine Result.wp_self (Result.wp_mono hnext fun b' _ hok => ⟨by simp [hdone], ?_⟩)
      rw [List.foldlM_append, hrun]
      exact Result.bind_eq_ok.2 ⟨b, rfl, Result.bind_eq_ok.2 ⟨b', hok, rfl⟩⟩
    · obtain ⟨e, he, rfl, hi⟩ := hi
      exact hentries e (hmem e (List.mem_append_left _ he)) i hi

theorem layNodes_wp {built : List BuildNode} {trie : TokenTrie} :
    Result.wp (Refused tokens allIds) (built.foldlM (layNode limits) trie) fun _ => True := by
  have hloop := Result.wp_foldlM (E := Refused tokens allIds) (f := layNode limits)
    (I := fun _ _ _ => True) (fun _ node _ trie _ => ?_) [] built trie trivial
  · exact Result.wp_mono hloop fun _ _ => trivial
  · unfold layNode
    dsimp only
    rw [Result.wp_bind]
    refine wp_checkedU32 (fun _ => .limit) ?_
    rw [Result.wp_bind]
    refine Result.wp_mono (Result.wp_mapM (R := fun _ _ => True) fun entry _ => ?_) fun _ _ => ?_
    · rw [Result.wp_bind]
      exact wp_checkedU32 (fun _ => .limit) trivial
    · rw [Result.wp_bind]
      refine wp_checkedU32 (fun _ => .limit) ?_
      rw [Result.wp_bind]
      refine wp_checkedU32 (fun _ => .limit) ?_
      rw [Result.wp_bind]
      exact wp_checkedU32 (fun _ => .limit) trivial

/-- **Why a vocabulary is refused.** -/
theorem build_wp (vocabulary : Vocabulary) (limits : CompileLimits) :
    Result.wp (Refused (fun b => ∃ entry ∈ vocabulary.tokens.entries, entry.1 = b)
      fun b id => id ∈ vocabulary.ids b) (build vocabulary limits) fun _ => vocabulary.Clean := by
  have hsorted : ∀ entry ∈ sortedEntries vocabulary,
      ∃ e ∈ vocabulary.tokens.entries, e.1 = entry.1 := by
    intro entry hentry
    rw [sortedEntries, mem_sortByKey] at hentry
    obtain ⟨e, he, rfl⟩ := List.mem_map.1 hentry
    exact ⟨e, he, rfl⟩
  unfold build
  rw [Result.wp_bind]
  refine wp_enforce (fun _ => .limit) ?_
  dsimp only
  rw [Result.wp_bind]
  refine Result.wp_self (Result.wp_mono (countEntries_wp hsorted) fun totals _ htotals => ?_)
  obtain ⟨-, hentries⟩ := countEntries_spec htotals
  rw [Result.wp_bind]
  refine wp_checkedUsize (fun _ => .limit) ?_
  rw [Result.wp_bind]
  refine wp_enforce (fun _ => .limit) ?_
  rw [Result.wp_bind]
  refine wp_checkedUsize (fun _ => .limit) ?_
  rw [Result.wp_bind]
  refine Result.wp_self (Result.wp_mono (addTokens_wp
    (fun entry hentry id hid => Nat.lt_succ_of_le ((hentries entry hentry).2 id hid))
    fun entry hentry id hid => mem_sortedEntries.1 ⟨entry, hentry, rfl, hid⟩)
      fun building _ hbuilding => ?_)
  obtain ⟨⟨-, hrev⟩, -⟩ := addTokens_spec hbuilding
  rw [Result.wp_bind]
  refine wp_checkedUsize (fun _ => .limit) ?_
  rw [Result.wp_bind]
  refine wp_enforce (fun _ => .limit) ?_
  rw [Result.wp_bind]
  refine Result.wp_mono layNodes_wp fun trie _ => ⟨fun entry hentry => ?_, fun id b b' h h' => ?_⟩
  · refine (hentries (entry.1, entry.2) ?_).1
    rw [sortedEntries, mem_sortByKey]
    exact List.mem_map.2 ⟨entry, hentry, rfl⟩
  · -- the inverse map has one place for an id
    rw [← mem_sortedEntries, ← hrev] at h h'
    exact Option.some.inj (Option.some.inj (h.symm.trans h'))

/-- The order in which a map is iterated does not matter. -/
theorem build_congr {vocabulary vocabulary' : Vocabulary}
    (heos : vocabulary'.eosTokenId = vocabulary.eosTokenId)
    (hperm : vocabulary'.tokens.entries.Perm vocabulary.tokens.entries) :
    build vocabulary' limits = build vocabulary limits := by
  have hsorted : sortedEntries vocabulary' = sortedEntries vocabulary := by
    refine (sortByKey_eq_iff (κ := List ℕ) ?_).2 (hperm.map _)
    have hkeys := vocabulary'.tokens.nodupKeys
    rw [List.NodupKeys, List.keys] at hkeys
    rw [List.map_map]
    have hinj : Function.Injective fun bytes : List UInt8 => bytes.map UInt8.toNat :=
      List.map_injective_iff.2 fun _ _ => UInt8.toNat_inj.1
    simpa [Function.comp_def] using hkeys.map hinj
  unfold build
  rw [hsorted, heos, hperm.length_eq]

/-! ### Children come later -/

/-- Every edge leads to a later node. -/
def Descends (nodes : List BuildNode) : Prop :=
  ∀ n byte child, step nodes n byte = some child → n < child ∧ child < nodes.length

theorem Descends.stepByte {byte : UInt8} {state state' : List BuildNode × ℕ}
    (h : Descends state.1) (hok : stepByte limits state byte = .ok state') :
    Descends state'.1 := by
  obtain ⟨node, hnode, hok⟩ := Result.bind_eq_ok.1 hok
  have hnode := Result.unwrap_eq_ok.1 hnode
  have hlt := (List.getElem?_eq_some_iff.1 hnode).1
  cases hlookup : node.children.lookup byte with
  | some child =>
    rw [hlookup] at hok
    obtain rfl := Result.pure_eq_ok.1 hok
    exact h
  | none =>
    rw [hlookup] at hok
    obtain ⟨-, -, hok⟩ := Result.bind_eq_ok.1 hok
    obtain rfl := Result.pure_eq_ok.1 hok
    have hnone : step state.1 state.2 byte = none := by
      rw [step, hnode, Option.bind_some, hlookup]
    intro n b child hstep
    change step (addChild state.1 state.2 byte) n b = some child at hstep
    change n < child ∧ child < (addChild state.1 state.2 byte).length
    have hlen : (addChild state.1 state.2 byte).length = state.1.length + 1 := by
      simp [addChild]
    rw [hlen]
    rcases (step_addChild hlt hnone).1 hstep with hstep | ⟨rfl, -, rfl⟩
    · obtain ⟨hn, hchild⟩ := h n b child hstep
      exact ⟨hn, Nat.lt_succ_of_lt hchild⟩
    · exact ⟨hlt, Nat.lt_succ_self _⟩

theorem Descends.addToken {entry : List UInt8 × List ℕ} {building building' : Building}
    (h : Descends building.nodes) (hok : addToken limits building entry = .ok building') :
    Descends building'.nodes := by
  obtain ⟨state, hstate, hok⟩ := Result.bind_eq_ok.1 hok
  have hsteps : Descends state.1 :=
    Result.foldlM_induction (I := fun _ state => Descends state.1) hstate h
      fun _ _ _ _ h hok => h.stepByte hok
  refine Result.foldlM_induction (I := fun _ b => Descends b.nodes) hok hsteps ?_
  intro _ id b b' hb hok
  obtain ⟨_, -, hok⟩ := Result.bind_eq_ok.1 hok
  obtain ⟨_, -, hok⟩ := Result.bind_eq_ok.1 hok
  obtain rfl := Result.pure_eq_ok.1 hok
  intro n byte child hstep
  change step (pushId b.nodes state.2 id) n byte = some child at hstep
  rw [step_pushId] at hstep
  obtain ⟨hn, hchild⟩ := hb n byte child hstep
  exact ⟨hn, by simpa using hchild⟩

theorem descends_addTokens {entries : List (List UInt8 × List ℕ)} {size : ℕ} {building : Building}
    (hok : entries.foldlM (addToken limits)
      { nodes := [BuildNode.default], reverse := List.replicate size none } = .ok building) :
    Descends building.nodes := by
  refine Result.foldlM_induction (I := fun _ b => Descends b.nodes) hok (fun n byte child h => ?_)
    fun _ _ _ _ h hok => h.addToken hok
  cases n with
  | zero => simp [step, BuildNode.default] at h
  | succ n => simp [step] at h

/-! ### The layout of the tables -/

/-- The entries of a node end before those of a later one begin. -/
def Before (node later : TrieNode) : Prop :=
  node.edgeStart + node.edgeLen ≤ later.edgeStart ∧
    node.tokenStart + node.tokenLen ≤ later.tokenStart

/-- Every node has its own entries in the tables, in ascending order. -/
structure Tabulates (trie : TokenTrie) : Prop where
  disjoint : trie.nodes.Pairwise Before
  edges_le : ∀ node ∈ trie.nodes, node.edgeStart + node.edgeLen ≤ trie.edges.length
  ids_le : ∀ node ∈ trie.nodes, node.tokenStart + node.tokenLen ≤ trie.terminalIds.length
  edges : ∀ node ∈ trie.nodes, (trie.edgesOf node).Pairwise fun a b => a.byte < b.byte
  ids : ∀ node ∈ trie.nodes, (trie.idsOf node).Pairwise (· < ·)

theorem pairwise_childEdges (built : BuildNode) :
    (childEdges built).Pairwise fun a b => a.byte < b.byte := by
  unfold childEdges
  rw [List.pairwise_map]
  have hkeys : ((built.children.entries.map fun entry => (entry.1, entry.2)).map
      fun entry : UInt8 × ℕ => entry.1.toNat).Nodup := by
    rw [List.map_map]
    have hnodup := built.children.nodupKeys
    rw [List.NodupKeys, List.keys] at hnodup
    have hinj : Function.Injective UInt8.toNat := fun _ _ => UInt8.toNat_inj.1
    simpa [Function.comp_def] using hnodup.map hinj
  have hsorted : (sortByKey (fun entry : UInt8 × ℕ => entry.1.toNat)
      (built.children.entries.map fun entry => (entry.1, entry.2))).Pairwise
        fun a b => a.1.toNat ≤ b.1.toNat := pairwise_sortByKey _
  have hnodup := hkeys.perm (List.Perm.map _ (List.perm_insertionSort
    (fun a b : UInt8 × ℕ => a.1.toNat ≤ b.1.toNat) _).symm)
  have hne := List.pairwise_map.1 (List.nodup_iff_pairwise_ne.1 hnodup)
  exact (hsorted.and hne).imp fun ⟨hle, hne⟩ => UInt8.lt_iff_toNat_lt.2 (lt_of_le_of_ne hle hne)

theorem pairwise_ownIds (built : BuildNode) : (ownIds built).Pairwise (· < ·) :=
  pairwise_sortDedup (fun _ _ h => h) _

theorem Tabulates.layNode {trie trie' : TokenTrie} {built : BuildNode} (h : Tabulates trie)
    (hok : layNode limits trie built = .ok trie') : Tabulates trie' := by
  obtain rfl := layNode_eq hok
  constructor
  · refine List.pairwise_append.2 ⟨h.disjoint, List.pairwise_singleton _ _,
      fun node hnode new hnew => ?_⟩
    obtain rfl := List.mem_singleton.1 hnew
    exact ⟨h.edges_le node hnode, h.ids_le node hnode⟩
  · intro node hnode
    rw [List.length_append]
    rcases List.mem_append.1 hnode with hnode | hnode
    · exact (h.edges_le node hnode).trans (Nat.le_add_right _ _)
    · obtain rfl := List.mem_singleton.1 hnode
      exact le_rfl
  · intro node hnode
    rw [List.length_append]
    rcases List.mem_append.1 hnode with hnode | hnode
    · exact (h.ids_le node hnode).trans (Nat.le_add_right _ _)
    · obtain rfl := List.mem_singleton.1 hnode
      exact le_rfl
  · intro node hnode
    rcases List.mem_append.1 hnode with hnode | hnode
    · rw [TokenTrie.edgesOf_append (h.edges_le node hnode)]
      exact h.edges node hnode
    · obtain rfl := List.mem_singleton.1 hnode
      rw [edgesOf_laidNode]
      exact pairwise_childEdges built
  · intro node hnode
    rcases List.mem_append.1 hnode with hnode | hnode
    · rw [TokenTrie.idsOf_append (h.ids_le node hnode)]
      exact h.ids node hnode
    · obtain rfl := List.mem_singleton.1 hnode
      rw [idsOf_laidNode]
      exact pairwise_ownIds built

theorem tabulates_layNodes {built : List BuildNode} {trie : TokenTrie}
    (hok : built.foldlM (layNode limits) ⟨[], [], []⟩ = .ok trie) : Tabulates trie :=
  Result.foldlM_induction (I := fun _ trie => Tabulates trie) hok
    ⟨.nil, by simp, by simp, by simp, by simp⟩ fun _ _ _ _ h hok => h.layNode hok

/-! ### The trie of a vocabulary -/

/-- The trie stands for the vocabulary: its paths are the prefixes of the tokens, the node at the
end of a path lists the ids of the byte string, and the tables are in order. -/
structure Exact (d : DerivedVocabulary) (vocabulary : Vocabulary) : Prop where
  reaches_iff : ∀ b, (∃ n, d.trie.Reaches b n) ↔
    b = [] ∨ ∃ entry ∈ vocabulary.tokens.entries, b <+: entry.1
  unique : ∀ b n n', d.trie.Reaches b n → d.trie.Reaches b n' → n = n'
  node : ∀ b n, d.trie.Reaches b n → ∃ node, d.trie.nodes[n]? = some node ∧
    ∀ id, id ∈ d.trie.idsOf node ↔ id ∈ vocabulary.ids b
  child : ∀ n node, d.trie.nodes[n]? = some node → ∀ edge ∈ d.trie.edgesOf node,
    n < edge.child ∧ edge.child < d.trie.nodes.length
  tabulates : Tabulates d.trie
  reverse : ∀ id b, d.reverse[id]? = some (some b) ↔ id ∈ vocabulary.ids b
  id_lt : ∀ id, id = vocabulary.eosTokenId ∨ (∃ b, id ∈ vocabulary.ids b) → id < d.vocabSize
  size_le : d.vocabSize ≤ 32 * d.maskWords

theorem build_exact {vocabulary : Vocabulary} {d : DerivedVocabulary}
    (hok : build vocabulary limits = .ok d) : d.Exact vocabulary := by
  have hrepresents := build_spec hok
  obtain ⟨s⟩ := exists_stages hok
  obtain ⟨⟨hgrown, hrev⟩, -⟩ := addTokens_spec s.added
  obtain ⟨hlen, hshows, -⟩ := layNodes_spec s.laid
  -- the laid-out trie is walked like the tree that was grown token by token
  have hwalk : ∀ b n, d.trie.Reaches b n ↔ walk s.building.nodes b = some n := fun b n =>
    reaches_iff_walk hgrown s.laid
  constructor
  case reaches_iff =>
    intro b
    simp only [hwalk]
    rw [hgrown.walk_iff]
    refine or_congr_right ⟨?_, ?_⟩
    · rintro ⟨entry, hentry, hprefix⟩
      rw [sortedEntries, mem_sortByKey] at hentry
      obtain ⟨e, he, rfl⟩ := List.mem_map.1 hentry
      exact ⟨e, he, hprefix⟩
    · rintro ⟨e, he, hprefix⟩
      refine ⟨(e.1, e.2), ?_, hprefix⟩
      rw [sortedEntries, mem_sortByKey]
      exact List.mem_map.2 ⟨e, he, rfl⟩
  case unique =>
    intro b n n' h h'
    rw [hwalk] at h h'
    exact Option.some.inj (h.symm.trans h')
  case node =>
    intro b n h
    obtain ⟨node, hnode⟩ := hrepresents.exists_node b n h
    exact ⟨node, hnode, hrepresents.mem_ids b n node h hnode⟩
  case child =>
    intro n node hnode edge hedge
    have hn : n < s.building.nodes.length := hlen ▸ (List.getElem?_eq_some_iff.1 hnode).1
    obtain ⟨node', hnode', hsh⟩ := hshows n _ (List.getElem?_eq_getElem hn)
    obtain rfl : node' = node := Option.some.inj (hnode'.symm.trans hnode)
    have hstep : step s.building.nodes n edge.byte = some edge.child := by
      rw [step, List.getElem?_eq_getElem hn, Option.bind_some]
      exact (hsh.mem_edges edge).1 hedge
    rw [hlen]
    exact descends_addTokens s.added n edge.byte edge.child hstep
  case tabulates => exact tabulates_layNodes s.laid
  case reverse =>
    intro id b
    rw [s.reverse, hrev, mem_sortedEntries]
  case id_lt =>
    rintro id (rfl | ⟨b, hid⟩)
    · exact hrepresents.eos_lt
    · exact hrepresents.id_lt b id hid
  case size_le =>
    rw [s.maskWords]
    omega

end DerivedVocabulary

/-- **The token trie.**  Apart from limits, a vocabulary is refused exactly if it has an empty token
or an id of two byte strings; otherwise the trie is exact, and the same however
the vocabulary is iterated. -/
theorem trie_exact (vocabulary : Vocabulary) (limits : CompileLimits)
    (hlimits : ∀ e, DerivedVocabulary.build vocabulary limits = .error e → ¬e.IsLimit) :
    ((∃ e, DerivedVocabulary.build vocabulary limits = .error e) ↔
      (∃ entry ∈ vocabulary.tokens.entries, entry.1 = []) ∨
        ∃ id b b', id ∈ vocabulary.ids b ∧ id ∈ vocabulary.ids b' ∧ b ≠ b') ∧
      ∀ d, DerivedVocabulary.build vocabulary limits = .ok d → d.Exact vocabulary ∧
        ∀ vocabulary' : Vocabulary, vocabulary'.eosTokenId = vocabulary.eosTokenId →
          vocabulary'.tokens.entries.Perm vocabulary.tokens.entries →
            DerivedVocabulary.build vocabulary' limits = .ok d := by
  have hwp := DerivedVocabulary.build_wp vocabulary limits
  refine ⟨⟨?_, ?_⟩, fun d hok => ⟨DerivedVocabulary.build_exact hok, fun vocabulary' heos hperm =>
    (DerivedVocabulary.build_congr heos hperm).trans hok⟩⟩
  · rintro ⟨e, he⟩
    cases Result.wp_error hwp he with
    | limit h => exact absurd h (hlimits e he)
    | empty h => exact .inl h
    | ambiguous h h' hne => exact .inr ⟨_, _, _, h, h', hne⟩
  · intro hbad
    cases hrun : DerivedVocabulary.build vocabulary limits with
    | error e => exact ⟨e, rfl⟩
    | ok d =>
      have hclean := Result.wp_ok hwp hrun
      rcases hbad with ⟨entry, hentry, hnil⟩ | ⟨id, b, b', h, h', hne⟩
      · exact absurd hnil (hclean.ne_nil entry hentry)
      · exact absurd (hclean.unique id b b' h h') hne

/-- The vocabulary `ab` and `a`, with two ids for `ab`. -/
def aliasVocabulary : Vocabulary where
  eosTokenId := 100
  tokens := ⟨[⟨[97, 98], [5, 19]⟩, ⟨[97], [0]⟩], (by decide : [[(97 : UInt8), 98], [97]].Nodup)⟩
  eos_notMem := by decide
  nodup_ids := by decide

theorem trie_exact_aliasVocabulary :
    (∃ e, DerivedVocabulary.build aliasVocabulary .default = .error e) ↔
      (∃ entry ∈ aliasVocabulary.tokens.entries, entry.1 = []) ∨
        ∃ id b b', id ∈ aliasVocabulary.ids b ∧ id ∈ aliasVocabulary.ids b' ∧ b ≠ b' := by
  refine (trie_exact aliasVocabulary .default fun e he => ?_).1
  have hok : (DerivedVocabulary.build aliasVocabulary .default).isOk = true := by decide +kernel
  rw [he] at hok
  cases hok

/-- Without tokens the empty path is there all the same. -/
theorem trie_empty : ¬∀ (vocabulary : Vocabulary) (limits : CompileLimits) (d : DerivedVocabulary)
    (b : List UInt8), DerivedVocabulary.build vocabulary limits = .ok d →
      ((∃ n, d.trie.Reaches b n) ↔ ∃ entry ∈ vocabulary.tokens.entries, b <+: entry.1) := by
  intro h
  cases hrun : DerivedVocabulary.build (Vocabulary.new 0) .default with
  | error e =>
    have hok : (DerivedVocabulary.build (Vocabulary.new 0) .default).isOk = true := by
      decide +kernel
    rw [hrun] at hok
    cases hok
  | ok d =>
    obtain ⟨entry, hentry, -⟩ := (h _ _ d [] hrun).1 ⟨0, .root⟩
    exact absurd hentry List.not_mem_nil

end OcEarley

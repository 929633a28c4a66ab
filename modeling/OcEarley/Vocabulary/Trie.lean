import Mathlib.Data.List.Induction
import OcEarley.Vocabulary.Reverse

/-!
# The trie represents the vocabulary

While the trie is built, every node is reached from the root along one byte string only, and the
nodes that are reached are those of the prefixes of the tokens added so far (`Grown`).  The tables
list the same edges and token ids (`DerivedVocabulary.build_spec`).
-/

namespace OcEarley

/-! ### Growing the trie -/

namespace BuildNode

/-- The child of a node over a byte. -/
def step (nodes : List BuildNode) (node : ℕ) (byte : UInt8) : Option ℕ :=
  nodes[node]?.bind fun n => n.children.lookup byte

/-- The node reached from the root. -/
def walk (nodes : List BuildNode) (bytes : List UInt8) : Option ℕ := bytes.foldlM (step nodes) 0

@[simp] theorem walk_nil {nodes : List BuildNode} : walk nodes [] = some 0 := rfl

theorem walk_snoc {nodes : List BuildNode} {bytes : List UInt8} {byte : UInt8} :
    walk nodes (bytes ++ [byte]) = (walk nodes bytes).bind fun n => step nodes n byte := by
  simp [walk, List.foldlM_append]

/-- The trie after some paths and token ids were added. -/
structure Grown (paths : List UInt8 → Prop) (ids : List UInt8 → ℕ → Prop)
    (nodes : List BuildNode) : Prop where
  pos : 0 < nodes.length
  lt_length : ∀ n byte child, step nodes n byte = some child → child < nodes.length
  walk_inj : ∀ b b' n, walk nodes b = some n → walk nodes b' = some n → b = b'
  walk_iff : ∀ b, (∃ n, walk nodes b = some n) ↔ paths b
  ids_iff : ∀ b n node id, walk nodes b = some n → nodes[n]? = some node →
    (id ∈ node.terminalIds ↔ ids b id)
  paths_of_ids : ∀ b id, ids b id → paths b

variable {paths : List UInt8 → Prop} {ids : List UInt8 → ℕ → Prop} {nodes : List BuildNode}
  {path : List UInt8} {n : ℕ} {byte : UInt8}

theorem grown_default :
    Grown (fun b => b = []) (fun _ _ => False) [BuildNode.default] := by
  have hstep : ∀ n byte, step [BuildNode.default] n byte = none := by
    intro n byte
    cases n with
    | zero => simp [step, BuildNode.default]
    | succ n => simp [step]
  have hwalk : ∀ b n, walk [BuildNode.default] b = some n → b = [] := by
    intro b n h
    rcases List.eq_nil_or_concat' b with rfl | ⟨b, byte, rfl⟩
    · rfl
    · rw [walk_snoc] at h
      obtain ⟨m, -, h⟩ := Option.bind_eq_some_iff.1 h
      rw [hstep] at h
      cases h
  refine ⟨Nat.zero_lt_one, fun n byte child h => ?_, fun b b' n h h' => ?_, fun b => ?_,
    fun b n node id h hnode => ?_, fun _ _ => False.elim⟩
  · rw [hstep] at h
    cases h
  · rw [hwalk b n h, hwalk b' n h']
  · exact ⟨fun ⟨n, h⟩ => hwalk b n h, fun h => ⟨0, h ▸ rfl⟩⟩
  · obtain rfl := hwalk b n h
    obtain rfl := Option.some.inj h
    obtain rfl := Option.some.inj hnode
    simp [BuildNode.default]

theorem Grown.walk_lt (h : Grown paths ids nodes) {b : List UInt8} (hb : walk nodes b = some n) :
    n < nodes.length := by
  rcases List.eq_nil_or_concat' b with rfl | ⟨b, byte, rfl⟩
  · obtain rfl := Option.some.inj hb
    exact h.pos
  · rw [walk_snoc] at hb
    obtain ⟨m, -, hb⟩ := Option.bind_eq_some_iff.1 hb
    exact h.lt_length m byte n hb

/-- The nodes with one more child. -/
def addChild (nodes : List BuildNode) (n : ℕ) (byte : UInt8) : List BuildNode :=
  (nodes ++ [BuildNode.default]).modify n fun node =>
    { node with children := node.children.insert byte nodes.length }

theorem getElem?_addChild (hn : n < nodes.length) {m : ℕ} {node : BuildNode} :
    (addChild nodes n byte)[m]? = some node ↔
      (∃ old, nodes[m]? = some old ∧ node = { old with
        children := (if m = n then old.children.insert byte nodes.length else old.children) }) ∨
      m = nodes.length ∧ node = BuildNode.default := by
  unfold addChild
  rw [List.getElem?_modify]
  rcases Nat.lt_trichotomy m nodes.length with hm | rfl | hm
  · rw [List.getElem?_append_left hm, List.getElem?_eq_getElem hm]
    by_cases hmn : n = m
    · subst hmn
      simp [hm.ne, eq_comm]
    · simp [hmn, Ne.symm hmn, hm.ne, eq_comm]
  · simp [hn.ne, eq_comm]
  · have hnone : (nodes ++ [BuildNode.default])[m]? = none :=
      List.getElem?_eq_none (by simp; omega)
    simp [hnone, List.getElem?_eq_none hm.le, hm.ne']

theorem step_addChild (hn : n < nodes.length) {m child : ℕ} {b : UInt8}
    (hnone : step nodes n byte = none) :
    step (addChild nodes n byte) m b = some child ↔
      step nodes m b = some child ∨ m = n ∧ b = byte ∧ child = nodes.length := by
  simp only [step, Option.bind_eq_some_iff, getElem?_addChild hn]
  constructor
  · rintro ⟨node, ⟨old, hold, rfl⟩ | ⟨-, rfl⟩, hlookup⟩
    · by_cases hmn : m = n
      · rw [if_pos hmn] at hlookup
        by_cases hb : b = byte
        · subst hb
          rw [AList.lookup_insert] at hlookup
          exact .inr ⟨hmn, rfl, (Option.some.inj hlookup).symm⟩
        · rw [AList.lookup_insert_ne hb] at hlookup
          exact .inl ⟨old, hold, hlookup⟩
      · rw [if_neg hmn] at hlookup
        exact .inl ⟨old, hold, hlookup⟩
    · cases hlookup
  · rintro (⟨old, hold, hlookup⟩ | ⟨rfl, rfl, rfl⟩)
    · refine ⟨_, .inl ⟨old, hold, rfl⟩, ?_⟩
      by_cases hmn : m = n
      · subst hmn
        have hb : b ≠ byte := by
          rintro rfl
          rw [step, hold, Option.bind_some, hlookup] at hnone
          cases hnone
        rw [if_pos rfl, AList.lookup_insert_ne hb]
        exact hlookup
      · rw [if_neg hmn]
        exact hlookup
    · refine ⟨_, .inl ⟨_, List.getElem?_eq_getElem hn, rfl⟩, ?_⟩
      rw [if_pos rfl, AList.lookup_insert]

/-- One more child makes one more path. -/
theorem Grown.walk_addChild (h : Grown paths ids nodes) (hpath : walk nodes path = some n)
    (hnone : step nodes n byte = none) {b : List UInt8} {m : ℕ} :
    walk (addChild nodes n byte) b = some m ↔
      walk nodes b = some m ∨ b = path ++ [byte] ∧ m = nodes.length := by
  have hn := h.walk_lt hpath
  induction b using List.reverseRecOn generalizing m with
  | nil => simp
  | append_singleton b x ih =>
    simp only [walk_snoc, Option.bind_eq_some_iff, ih, step_addChild hn hnone]
    constructor
    · rintro ⟨k, hk | ⟨rfl, rfl⟩, hstep | ⟨rfl, rfl, rfl⟩⟩
      · exact .inl ⟨k, hk, hstep⟩
      · exact .inr ⟨by rw [h.walk_inj b path k hk hpath], rfl⟩
      · -- the new node has no children
        simp [step] at hstep
      · exact absurd hn (lt_irrefl _)
    · rintro (⟨k, hk, hstep⟩ | ⟨hb, rfl⟩)
      · exact ⟨k, .inl hk, .inl hstep⟩
      · obtain ⟨rfl, hx⟩ := List.append_inj' hb rfl
        obtain rfl := List.singleton_inj.1 hx
        exact ⟨n, .inl hpath, .inr ⟨rfl, rfl, rfl⟩⟩

theorem Grown.addChild (h : Grown paths ids nodes) (hpath : walk nodes path = some n)
    (hnone : step nodes n byte = none) :
    Grown (fun b => paths b ∨ b = path ++ [byte]) ids (addChild nodes n byte) := by
  have hn := h.walk_lt hpath
  have hnew : walk nodes (path ++ [byte]) = none := by
    rw [walk_snoc, hpath, Option.bind_some, hnone]
  have hids : ∀ id, ¬ ids (path ++ [byte]) id := fun id hid => by
    obtain ⟨m, hm⟩ := (h.walk_iff _).2 (h.paths_of_ids _ id hid)
    rw [hnew] at hm
    cases hm
  have hlen : (BuildNode.addChild nodes n byte).length = nodes.length + 1 := by
    simp [BuildNode.addChild]
  refine ⟨by omega, fun m b child hstep => ?_, fun b b' m hb hb' => ?_, fun b => ?_,
    fun b m node id hb hnode => ?_, fun b id hid => .inl (h.paths_of_ids b id hid)⟩
  · rcases (step_addChild hn hnone).1 hstep with hstep | ⟨-, -, rfl⟩
    · have := h.lt_length m b child hstep
      omega
    · omega
  · rcases (h.walk_addChild hpath hnone).1 hb with hb | ⟨rfl, rfl⟩ <;>
      rcases (h.walk_addChild hpath hnone).1 hb' with hb' | ⟨rfl, hm⟩
    · exact h.walk_inj b b' m hb hb'
    · exact absurd (h.walk_lt hb) (by omega)
    · exact absurd (h.walk_lt hb') (lt_irrefl _)
    · rfl
  · rw [← h.walk_iff]
    simp only [h.walk_addChild hpath hnone]
    constructor
    · rintro ⟨m, hm | ⟨rfl, -⟩⟩
      · exact .inl ⟨m, hm⟩
      · exact .inr rfl
    · rintro (⟨m, hm⟩ | rfl)
      · exact ⟨m, .inl hm⟩
      · exact ⟨_, .inr ⟨rfl, rfl⟩⟩
  · rcases (h.walk_addChild hpath hnone).1 hb with hb | ⟨rfl, rfl⟩
    · rcases (getElem?_addChild hn).1 hnode with ⟨old, hold, rfl⟩ | ⟨rfl, -⟩
      · exact h.ids_iff b m old id hb hold
      · exact absurd (h.walk_lt hb) (lt_irrefl _)
    · rcases (getElem?_addChild hn).1 hnode with ⟨old, hold, -⟩ | ⟨-, rfl⟩
      · rw [List.getElem?_eq_none le_rfl] at hold
        cases hold
      · simp [BuildNode.default, hids]

/-- The nodes with one more token id. -/
def pushId (nodes : List BuildNode) (n id : ℕ) : List BuildNode :=
  nodes.modify n fun node => { node with terminalIds := node.terminalIds ++ [id] }

theorem step_pushId {m id : ℕ} {b : UInt8} : step (pushId nodes n id) m b = step nodes m b := by
  unfold step pushId
  rw [List.getElem?_modify]
  by_cases h : n = m
  · cases nodes[m]? <;> simp [h]
  · cases nodes[m]? <;> simp [h]

theorem walk_pushId {id : ℕ} {b : List UInt8} : walk (pushId nodes n id) b = walk nodes b := by
  unfold walk
  congr 1
  funext m b
  exact step_pushId

theorem Grown.pushId (h : Grown paths ids nodes) (hpath : walk nodes path = some n) (id : ℕ) :
    Grown paths (fun b i => ids b i ∨ b = path ∧ i = id) (pushId nodes n id) := by
  refine ⟨by simpa [BuildNode.pushId] using h.pos, fun m b child hstep => ?_,
    fun b b' m hb hb' => ?_, fun b => ?_, fun b m node i hb hnode => ?_, fun b i hi => ?_⟩
  · rw [step_pushId] at hstep
    simpa [BuildNode.pushId] using h.lt_length m b child hstep
  · rw [walk_pushId] at hb hb'
    exact h.walk_inj b b' m hb hb'
  · simp only [walk_pushId]
    exact h.walk_iff b
  · rw [walk_pushId] at hb
    unfold BuildNode.pushId at hnode
    rw [List.getElem?_modify] at hnode
    obtain ⟨old, hold, rfl⟩ := Option.map_eq_some_iff.1 hnode
    have hold' := h.ids_iff b m old i hb hold
    by_cases hmn : n = m
    · subst hmn
      obtain rfl := h.walk_inj b path n hb hpath
      simp [hold']
    · have hne : b ≠ path := by
        rintro rfl
        exact hmn (Option.some.inj (hpath.symm.trans hb))
      simp [hmn, hold', hne]
  · rcases hi with hi | ⟨rfl, rfl⟩
    · exact h.paths_of_ids b i hi
    · exact (h.walk_iff b).1 ⟨n, hpath⟩

theorem Grown.congr {paths' : List UInt8 → Prop} {ids' : List UInt8 → ℕ → Prop}
    (h : Grown paths ids nodes) (hpaths : ∀ b, paths b ↔ paths' b)
    (hids : ∀ b id, ids b id ↔ ids' b id) : Grown paths' ids' nodes := by
  obtain rfl : paths = paths' := funext fun b => propext (hpaths b)
  obtain rfl : ids = ids' := funext fun b => funext fun id => propext (hids b id)
  exact h

end BuildNode

namespace DerivedVocabulary

open BuildNode

variable {paths : List UInt8 → Prop} {ids : List UInt8 → ℕ → Prop} {limits : CompileLimits}

/-- One byte of a token. -/
theorem stepByte_spec {path : List UInt8} {byte : UInt8} {state state' : List BuildNode × ℕ}
    (h : Grown paths ids state.1) (hpath : walk state.1 path = some state.2)
    (hok : stepByte limits state byte = .ok state') :
    Grown (fun b => paths b ∨ b = path ++ [byte]) ids state'.1 ∧
      walk state'.1 (path ++ [byte]) = some state'.2 := by
  obtain ⟨node, hnode, hok⟩ := Result.bind_eq_ok.1 hok
  have hnode := Result.unwrap_eq_ok.1 hnode
  have hstep : step state.1 state.2 byte = node.children.lookup byte := by
    rw [step, hnode, Option.bind_some]
  cases hlookup : node.children.lookup byte with
  | some child =>
    rw [hlookup] at hok hstep
    obtain rfl := Result.pure_eq_ok.1 hok
    have hwalk : walk state.1 (path ++ [byte]) = some child := by
      rw [walk_snoc, hpath, Option.bind_some, hstep]
    refine ⟨h.congr (fun b => ?_) fun _ _ => Iff.rfl, hwalk⟩
    constructor
    · exact .inl
    · rintro (hb | rfl)
      · exact hb
      · exact (h.walk_iff _).1 ⟨child, hwalk⟩
  | none =>
    rw [hlookup] at hok hstep
    obtain ⟨-, -, hok⟩ := Result.bind_eq_ok.1 hok
    obtain rfl := Result.pure_eq_ok.1 hok
    exact ⟨h.addChild hpath hstep, (h.walk_addChild hpath hstep).2 (.inr ⟨rfl, rfl⟩)⟩

/-- The bytes of a token. -/
theorem stepBytes_spec {nodes : List BuildNode} {bytes : List UInt8}
    {state : List BuildNode × ℕ} (h : Grown paths ids nodes)
    (hok : bytes.foldlM (stepByte limits) (nodes, 0) = .ok state) :
    Grown (fun b => paths b ∨ b <+: bytes) ids state.1 ∧ walk state.1 bytes = some state.2 := by
  refine Result.foldlM_induction
    (I := fun path state => Grown (fun b => paths b ∨ b <+: path) ids state.1 ∧
      walk state.1 path = some state.2) hok ⟨h.congr (fun b => ?_) fun _ _ => Iff.rfl, rfl⟩ ?_
  · simp only [List.prefix_nil, iff_self_or]
    rintro rfl
    exact (h.walk_iff []).1 ⟨0, rfl⟩
  · rintro path byte state state' ⟨hgrown, hpath⟩ hok
    obtain ⟨hgrown', hpath'⟩ := stepByte_spec hgrown hpath hok
    refine ⟨hgrown'.congr (fun b => ?_) fun _ _ => Iff.rfl, hpath'⟩
    rw [List.prefix_concat_iff, or_assoc, or_comm (a := b <+: path)]

/-- The trie and the inverse map agree on the ids added so far. -/
structure Building.Holds (paths : List UInt8 → Prop) (ids : List UInt8 → ℕ → Prop)
    (building : Building) : Prop where
  grown : Grown paths ids building.nodes
  reverse_iff : ∀ id b, building.reverse[id]? = some (some b) ↔ ids b id

/-- One id of a token. -/
theorem addId_spec {bytes : List UInt8} {node id : ℕ} {building building' : Building}
    (h : building.Holds paths ids) (hpath : walk building.nodes bytes = some node)
    (hok : addId bytes node building id = .ok building') :
    building'.Holds paths (fun b i => ids b i ∨ b = bytes ∧ i = id) ∧
      walk building'.nodes bytes = some node ∧
      building'.reverse.length = building.reverse.length := by
  obtain ⟨slot, hslot, hok⟩ := Result.bind_eq_ok.1 hok
  have hslot := Result.unwrap_eq_ok.1 hslot
  obtain ⟨_, hrequire, hok⟩ := Result.bind_eq_ok.1 hok
  have hfree := Result.require_eq_ok.1 hrequire
  clear hrequire
  obtain rfl := Result.pure_eq_ok.1 hok
  refine ⟨⟨h.grown.pushId hpath id, fun i b => ?_⟩, walk_pushId.trans hpath, List.length_set⟩
  have hlt := (List.getElem?_eq_some_iff.1 hslot).1
  by_cases hi : i = id
  · subst hi
    rw [List.getElem?_set_self hlt]
    have hrev := h.reverse_iff i b
    rw [hslot] at hrev
    rcases hfree with rfl | rfl
    · simp only [← hrev]
      simp [eq_comm]
    · simp only [← hrev]
      simp [eq_comm]
  · rw [List.getElem?_set_ne (Ne.symm hi), h.reverse_iff]
    simp [hi]

/-- One token. -/
theorem addToken_spec {entry : List UInt8 × List ℕ} {building building' : Building}
    (h : building.Holds paths ids) (hok : addToken limits building entry = .ok building') :
    building'.Holds (fun b => paths b ∨ b <+: entry.1)
        (fun b id => ids b id ∨ b = entry.1 ∧ id ∈ entry.2) ∧
      building'.reverse.length = building.reverse.length := by
  obtain ⟨state, hstate, hok⟩ := Result.bind_eq_ok.1 hok
  obtain ⟨hgrown, hpath⟩ := stepBytes_spec h.grown hstate
  have key := Result.foldlM_induction
    (I := fun (l : List ℕ) (b : Building) => b.Holds (fun b => paths b ∨ b <+: entry.1)
      (fun b id => ids b id ∨ b = entry.1 ∧ id ∈ l) ∧ walk b.nodes entry.1 = some state.2 ∧
        b.reverse.length = building.reverse.length) hok ?_ ?_
  · obtain ⟨⟨hgrown, hrev⟩, -, hlen⟩ := key
    refine ⟨⟨hgrown.congr (fun _ => Iff.rfl) fun b id => ?_, fun id b => ?_⟩, hlen⟩
    · rw [mem_sortDedup]
    · rw [hrev, mem_sortDedup]
  · refine ⟨⟨hgrown.congr (fun _ => Iff.rfl) fun b id => ?_, fun id b => ?_⟩, hpath, rfl⟩
    · simp
    · simpa using h.reverse_iff id b
  · rintro l id b b' ⟨hb, hwalk, hlen⟩ hok
    obtain ⟨⟨hgrown, hrev⟩, hwalk, hlen'⟩ := addId_spec hb hwalk hok
    refine ⟨⟨hgrown.congr (fun _ => Iff.rfl) fun b i => ?_, fun i b => ?_⟩, hwalk,
      hlen'.trans hlen⟩
    · rw [List.mem_append, List.mem_singleton, and_or_left, or_assoc]
    · rw [hrev, List.mem_append, List.mem_singleton, and_or_left, or_assoc]

/-- All tokens. -/
theorem addTokens_spec {entries : List (List UInt8 × List ℕ)} {size : ℕ} {building : Building}
    (hok : entries.foldlM (addToken limits)
      { nodes := [BuildNode.default], reverse := List.replicate size none } = .ok building) :
    building.Holds (fun b => b = [] ∨ ∃ entry ∈ entries, b <+: entry.1)
        (fun b id => ∃ entry ∈ entries, entry.1 = b ∧ id ∈ entry.2) ∧
      building.reverse.length = size := by
  refine Result.foldlM_induction
    (I := fun (l : List (List UInt8 × List ℕ)) (b : Building) =>
      b.Holds (fun b => b = [] ∨ ∃ entry ∈ l, b <+: entry.1)
        (fun b id => ∃ entry ∈ l, entry.1 = b ∧ id ∈ entry.2) ∧ b.reverse.length = size) hok ?_ ?_
  · refine ⟨⟨grown_default.congr (fun b => by simp) fun b id => by simp, fun id b => ?_⟩, by simp⟩
    simp [List.getElem?_replicate]
  · rintro l entry b b' ⟨hb, hlen⟩ hok
    obtain ⟨⟨hgrown, hrev⟩, hlen'⟩ := addToken_spec hb hok
    have hids : ∀ b id, ((∃ entry ∈ l, entry.1 = b ∧ id ∈ entry.2) ∨ b = entry.1 ∧ id ∈ entry.2) ↔
        ∃ e ∈ l ++ [entry], e.1 = b ∧ id ∈ e.2 := by
      intro b id
      simp only [List.mem_append, List.mem_singleton, or_and_right, exists_or, exists_eq_left]
      exact or_congr Iff.rfl (and_congr eq_comm Iff.rfl)
    refine ⟨⟨hgrown.congr (fun b => ?_) hids, fun id b => (hrev id b).trans (hids b id)⟩,
      hlen'.trans hlen⟩
    simp only [List.mem_append, List.mem_singleton, or_and_right, exists_or, exists_eq_left,
      or_assoc]

/-- Every token id has a place in the inverse map. -/
def Building.InRange (building : Building) : Prop :=
  ∀ node ∈ building.nodes, ∀ id ∈ node.terminalIds, id < building.reverse.length

theorem terminalIds_stepBytes {nodes : List BuildNode} {bytes : List UInt8} {size : ℕ}
    {state : List BuildNode × ℕ} (h : ∀ node ∈ nodes, ∀ id ∈ node.terminalIds, id < size)
    (hok : bytes.foldlM (stepByte limits) (nodes, 0) = .ok state) :
    ∀ node ∈ state.1, ∀ id ∈ node.terminalIds, id < size := by
  refine Result.foldlM_induction
    (I := fun _ state => ∀ node ∈ state.1, ∀ id ∈ node.terminalIds, id < size) hok h ?_
  intro path byte state state' h hok
  obtain ⟨node, -, hok⟩ := Result.bind_eq_ok.1 hok
  split at hok
  · obtain rfl := Result.pure_eq_ok.1 hok
    exact h
  · obtain ⟨-, -, hok⟩ := Result.bind_eq_ok.1 hok
    obtain rfl := Result.pure_eq_ok.1 hok
    intro new hnew id hid
    obtain ⟨i, hi⟩ := List.mem_iff_getElem?.1 hnew
    rw [List.getElem?_modify] at hi
    obtain ⟨old, hold, rfl⟩ := Option.map_eq_some_iff.1 hi
    have hid : id ∈ old.terminalIds := by
      split at hid <;> exact hid
    rcases List.mem_append.1 (List.mem_of_getElem? hold) with hold | hold
    · exact h old hold id hid
    · obtain rfl := List.mem_singleton.1 hold
      exact absurd hid List.not_mem_nil

theorem Building.InRange.addToken {entry : List UInt8 × List ℕ} {building building' : Building}
    (h : building.InRange) (hok : addToken limits building entry = .ok building') :
    building'.InRange := by
  obtain ⟨state, hstate, hok⟩ := Result.bind_eq_ok.1 hok
  refine Result.foldlM_induction (I := fun _ b => Building.InRange b) hok
    (terminalIds_stepBytes h hstate) ?_
  intro ids id b b' h hok
  obtain ⟨slot, hslot, hok⟩ := Result.bind_eq_ok.1 hok
  obtain ⟨-, -, hok⟩ := Result.bind_eq_ok.1 hok
  obtain rfl := Result.pure_eq_ok.1 hok
  have hlt := (List.getElem?_eq_some_iff.1 (Result.unwrap_eq_ok.1 hslot)).1
  intro node hnode i hi
  rw [List.length_set]
  obtain ⟨n, hn⟩ := List.mem_iff_getElem?.1 hnode
  rw [List.getElem?_modify] at hn
  obtain ⟨old, hold, rfl⟩ := Option.map_eq_some_iff.1 hn
  have hold := List.mem_of_getElem? hold
  split at hi
  · rcases List.mem_append.1 hi with hi | hi
    · exact h old hold i hi
    · rwa [List.mem_singleton.1 hi]
  · exact h old hold i hi

theorem inRange_addTokens {entries : List (List UInt8 × List ℕ)} {size : ℕ} {building : Building}
    (hok : entries.foldlM (addToken limits)
      { nodes := [BuildNode.default], reverse := List.replicate size none } = .ok building) :
    building.InRange := by
  refine Result.foldlM_induction (I := fun _ b => Building.InRange b) hok ?_
    fun _ _ _ _ h hok => h.addToken hok
  intro node hnode id hid
  obtain rfl := List.mem_singleton.1 hnode
  exact absurd hid List.not_mem_nil

/-! ### The tables -/

end DerivedVocabulary

namespace TokenTrie

/-- The edges of a node. -/
def edgesOf (trie : TokenTrie) (node : TrieNode) : List TrieEdge :=
  (trie.edges.drop node.edgeStart).take node.edgeLen

/-- The token ids of a node. -/
def idsOf (trie : TokenTrie) (node : TrieNode) : List ℕ :=
  (trie.terminalIds.drop node.tokenStart).take node.tokenLen

/-- The node stands for a node of the trie that was built. -/
structure Shows (trie : TokenTrie) (node : TrieNode) (built : BuildNode) : Prop where
  edges_le : node.edgeStart + node.edgeLen ≤ trie.edges.length
  ids_le : node.tokenStart + node.tokenLen ≤ trie.terminalIds.length
  mem_edges : ∀ edge, edge ∈ trie.edgesOf node ↔
    built.children.lookup edge.byte = some edge.child
  mem_ids : ∀ id, id ∈ trie.idsOf node ↔ id ∈ built.terminalIds

/-! Room at the end does not matter. -/

theorem edgesOf_append {trie : TokenTrie} {node : TrieNode}
    (h : node.edgeStart + node.edgeLen ≤ trie.edges.length) (nodes : List TrieNode)
    (edges : List TrieEdge) (ids : List ℕ) :
    TokenTrie.edgesOf ⟨nodes, trie.edges ++ edges, ids⟩ node = trie.edgesOf node := by
  simp only [edgesOf]
  rw [List.drop_append_of_le_length (by omega), List.take_append_of_le_length]
  rw [List.length_drop]
  omega

theorem idsOf_append {trie : TokenTrie} {node : TrieNode}
    (h : node.tokenStart + node.tokenLen ≤ trie.terminalIds.length) (nodes : List TrieNode)
    (edges : List TrieEdge) (ids : List ℕ) :
    TokenTrie.idsOf ⟨nodes, edges, trie.terminalIds ++ ids⟩ node = trie.idsOf node := by
  simp only [idsOf]
  rw [List.drop_append_of_le_length (by omega), List.take_append_of_le_length]
  rw [List.length_drop]
  omega

theorem Shows.append {trie : TokenTrie} {node : TrieNode} {built : BuildNode}
    (h : trie.Shows node built) (nodes : List TrieNode) (edges : List TrieEdge) (ids : List ℕ) :
    TokenTrie.Shows ⟨nodes, trie.edges ++ edges, trie.terminalIds ++ ids⟩ node built := by
  refine ⟨?_, ?_, fun edge => ?_, fun id => ?_⟩
  · have := h.edges_le
    simp only [List.length_append]
    omega
  · have := h.ids_le
    simp only [List.length_append]
    omega
  · rw [edgesOf_append h.edges_le, h.mem_edges]
  · rw [idsOf_append h.ids_le, h.mem_ids]

end TokenTrie

namespace DerivedVocabulary

theorem checkedU32_eq_ok {value limit v : ℕ} (h : checkedU32 value limit = .ok v) : v = value := by
  obtain ⟨-, -, h⟩ := Result.bind_eq_ok.1 h
  exact (Result.pure_eq_ok.1 h).symm

/-- The edges of a node in the order of their bytes. -/
def childEdges (built : BuildNode) : List TrieEdge :=
  (sortByKey (fun entry : UInt8 × ℕ => entry.1.toNat)
    (built.children.entries.map fun entry => (entry.1, entry.2))).map
      fun entry => { byte := entry.1, child := entry.2 }

theorem mem_childEdges {built : BuildNode} {edge : TrieEdge} :
    edge ∈ childEdges built ↔ built.children.lookup edge.byte = some edge.child := by
  rw [childEdges, ← Option.mem_def, AList.mem_lookup_iff]
  obtain ⟨byte, child⟩ := edge
  simp only [List.mem_map, mem_sortByKey, TrieEdge.mk.injEq]
  constructor
  · rintro ⟨entry, ⟨e, he, rfl⟩, rfl, rfl⟩
    exact he
  · exact fun h => ⟨(byte, child), ⟨⟨byte, child⟩, h, rfl⟩, rfl, rfl⟩

/-- The token ids of a node in ascending order. -/
def ownIds (built : BuildNode) : List ℕ := sortDedup (fun id : ℕ => id) built.terminalIds

/-- The entries of a node behind those of a table. -/
def laidNode (trie : TokenTrie) (built : BuildNode) : TrieNode where
  edgeStart := trie.edges.length
  edgeLen := (childEdges built).length
  tokenStart := trie.terminalIds.length
  tokenLen := (ownIds built).length

theorem layNode_eq {limits : CompileLimits} {trie trie' : TokenTrie} {built : BuildNode}
    (hok : layNode limits trie built = .ok trie') :
    trie' = ⟨trie.nodes ++ [laidNode trie built], trie.edges ++ childEdges built,
      trie.terminalIds ++ ownIds built⟩ := by
  obtain ⟨edgeStart, hes, hok⟩ := Result.bind_eq_ok.1 hok
  obtain ⟨edges, hedges, hok⟩ := Result.bind_eq_ok.1 hok
  obtain ⟨tokenStart, hts, hok⟩ := Result.bind_eq_ok.1 hok
  obtain ⟨edgeLen, hel, hok⟩ := Result.bind_eq_ok.1 hok
  obtain ⟨tokenLen, htl, hok⟩ := Result.bind_eq_ok.1 hok
  obtain rfl := checkedU32_eq_ok hes
  obtain rfl := checkedU32_eq_ok hts
  obtain rfl := checkedU32_eq_ok hel
  obtain rfl := checkedU32_eq_ok htl
  obtain rfl := Result.pure_eq_ok.1 hok
  have hmap : edges = childEdges built := by
    refine Result.mapM_eq_map (fun entry edge hedge => ?_) hedges
    obtain ⟨child, hchild, hedge⟩ := Result.bind_eq_ok.1 hedge
    obtain rfl := checkedU32_eq_ok hchild
    exact (Result.pure_eq_ok.1 hedge).symm
  have hlen : (childEdges built).length = (sortByKey (fun entry : UInt8 × ℕ => entry.1.toNat)
      (built.children.entries.map fun entry => (entry.1, entry.2))).length := List.length_map _
  rw [hmap, laidNode, hlen]
  rfl

theorem edgesOf_laidNode (trie : TokenTrie) (built : BuildNode) (nodes : List TrieNode)
    (ids : List ℕ) : TokenTrie.edgesOf ⟨nodes, trie.edges ++ childEdges built, ids⟩
      (laidNode trie built) = childEdges built := by
  simp [TokenTrie.edgesOf, laidNode]

theorem idsOf_laidNode (trie : TokenTrie) (built : BuildNode) (nodes : List TrieNode)
    (edges : List TrieEdge) : TokenTrie.idsOf ⟨nodes, edges, trie.terminalIds ++ ownIds built⟩
      (laidNode trie built) = ownIds built := by
  simp [TokenTrie.idsOf, laidNode]

/-- The laid out node. -/
theorem layNode_spec {limits : CompileLimits} {trie trie' : TokenTrie} {built : BuildNode}
    (hok : layNode limits trie built = .ok trie') :
    ∃ node edges ids, trie' = ⟨trie.nodes ++ [node], trie.edges ++ edges, trie.terminalIds ++ ids⟩ ∧
      trie'.Shows node built ∧ ∀ id ∈ ids, id ∈ built.terminalIds := by
  obtain rfl := layNode_eq hok
  refine ⟨_, _, _, rfl, ⟨?_, ?_, fun edge => ?_, fun id => ?_⟩, fun id => mem_sortDedup.1⟩
  · simp [laidNode]
  · simp [laidNode]
  · rw [edgesOf_laidNode, mem_childEdges]
  · rw [idsOf_laidNode, ownIds, mem_sortDedup]

/-- All nodes laid out. -/
theorem layNodes_spec {limits : CompileLimits} {built : List BuildNode} {trie : TokenTrie}
    (hok : built.foldlM (layNode limits) ⟨[], [], []⟩ = .ok trie) :
    trie.nodes.length = built.length ∧
      (∀ (i : ℕ) (b : BuildNode), built[i]? = some b →
        ∃ node, trie.nodes[i]? = some node ∧ trie.Shows node b) ∧
      ∀ id ∈ trie.terminalIds, ∃ b ∈ built, id ∈ b.terminalIds := by
  refine Result.foldlM_induction
    (I := fun (l : List BuildNode) (trie : TokenTrie) => trie.nodes.length = l.length ∧
      (∀ (i : ℕ) (b : BuildNode), l[i]? = some b →
        ∃ node, trie.nodes[i]? = some node ∧ trie.Shows node b) ∧
      ∀ id ∈ trie.terminalIds, ∃ b ∈ l, id ∈ b.terminalIds) hok ⟨rfl, by simp, by simp⟩ ?_
  rintro l b trie trie' ⟨hlen, hshows, hids⟩ hok
  obtain ⟨node, edges, ids, rfl, hnew, hnewIds⟩ := layNode_spec hok
  refine ⟨by simp [hlen], fun i c hc => ?_, fun id hid => ?_⟩
  rotate_left
  · rcases List.mem_append.1 hid with hid | hid
    · obtain ⟨c, hc, hid⟩ := hids id hid
      exact ⟨c, List.mem_append_left _ hc, hid⟩
    · exact ⟨b, List.mem_append_right _ (List.mem_singleton_self b), hnewIds id hid⟩
  rcases getElem?_snoc.1 hc with hc | ⟨rfl, rfl⟩
  · obtain ⟨old, hold, hsh⟩ := hshows i c hc
    exact ⟨old, getElem?_snoc.2 (.inl hold), hsh.append _ _ _⟩
  · exact ⟨node, getElem?_snoc.2 (.inr ⟨hlen.symm, rfl⟩), hnew⟩

end DerivedVocabulary

/-! ### What the derived vocabulary stands for -/

namespace TokenTrie

variable {trie : TokenTrie}

/-- The node reached from the root by following edges. -/
inductive Reaches (trie : TokenTrie) : List UInt8 → ℕ → Prop
  | root : Reaches trie [] 0
  | step {bytes : List UInt8} {n : ℕ} {node : TrieNode} {edge : TrieEdge} (h : Reaches trie bytes n)
    (hnode : trie.nodes[n]? = some node) (hedge : edge ∈ trie.edgesOf node) :
    Reaches trie (bytes ++ [edge.byte]) edge.child

end TokenTrie

namespace DerivedVocabulary

open BuildNode

/-- The tables stand for the vocabulary. -/
structure Represents (d : DerivedVocabulary) (vocabulary : Vocabulary) : Prop where
  eosTokenId : d.eosTokenId = vocabulary.eosTokenId
  eos_lt : vocabulary.eosTokenId < d.vocabSize
  id_lt : ∀ bytes, ∀ id ∈ vocabulary.ids bytes, id < d.vocabSize
  maskWords : d.maskWords = (d.vocabSize + 31) / 32
  terminalIds_lt : ∀ id ∈ d.trie.terminalIds, id < d.vocabSize
  sharedBytes_iff : ∀ id bytes, d.sharedBytes id = some bytes ↔ id ∈ vocabulary.ids bytes
  nil_notMem : ∀ id, id ∉ vocabulary.ids []
  exists_reaches : ∀ bytes, ∀ id ∈ vocabulary.ids bytes, ∃ n, d.trie.Reaches bytes n
  exists_node : ∀ bytes n, d.trie.Reaches bytes n → ∃ node, d.trie.nodes[n]? = some node
  mem_ids : ∀ bytes n node, d.trie.Reaches bytes n → d.trie.nodes[n]? = some node → ∀ id,
    id ∈ d.trie.idsOf node ↔ id ∈ vocabulary.ids bytes

theorem mem_sortedEntries {vocabulary : Vocabulary} {bytes : List UInt8} {id : ℕ} :
    (∃ entry ∈ sortedEntries vocabulary, entry.1 = bytes ∧ id ∈ entry.2) ↔
      id ∈ vocabulary.ids bytes := by
  rw [Vocabulary.mem_ids]
  simp only [sortedEntries, mem_sortByKey, List.mem_map]
  constructor
  · rintro ⟨_, ⟨entry, hmem, rfl⟩, h⟩
    exact ⟨entry, hmem, h⟩
  · rintro ⟨entry, hmem, h⟩
    exact ⟨_, ⟨entry, hmem, rfl⟩, h⟩

/-- What the first pass has checked. -/
theorem countEntries_spec {limits : CompileLimits} {entries : List (List UInt8 × List ℕ)}
    {totals start : Totals} (hok : entries.foldlM (countEntry limits) start = .ok totals) :
    start.maxId ≤ totals.maxId ∧ ∀ entry ∈ entries, entry.1 ≠ [] ∧ ∀ id ∈ entry.2,
      id ≤ totals.maxId := by
  refine Result.foldlM_induction
    (I := fun (l : List (List UInt8 × List ℕ)) (t : Totals) => start.maxId ≤ t.maxId ∧
      ∀ entry ∈ l, entry.1 ≠ [] ∧ ∀ id ∈ entry.2, id ≤ t.maxId) hok ⟨le_rfl, by simp⟩ ?_
  rintro l entry t t' ⟨hstart, hl⟩ hok
  obtain ⟨_, hne, hok⟩ := Result.bind_eq_ok.1 hok
  obtain ⟨-, -, hok⟩ := Result.bind_eq_ok.1 hok
  obtain ⟨-, -, hok⟩ := Result.bind_eq_ok.1 hok
  obtain ⟨-, -, hok⟩ := Result.bind_eq_ok.1 hok
  obtain ⟨-, -, hok⟩ := Result.bind_eq_ok.1 hok
  obtain ⟨-, -, hok⟩ := Result.bind_eq_ok.1 hok
  obtain rfl := Result.pure_eq_ok.1 hok
  have hmax : ∀ (ids : List ℕ) m, m ≤ ids.foldl max m ∧ ∀ id ∈ ids, id ≤ ids.foldl max m := by
    intro ids
    induction ids with
    | nil => simp
    | cons i ids ih =>
      intro m
      obtain ⟨hle, hids⟩ := ih (max m i)
      refine ⟨(le_max_left m i).trans hle, fun id hid => ?_⟩
      rcases List.mem_cons.1 hid with rfl | hid
      · exact (le_max_right m id).trans hle
      · exact hids id hid
  refine ⟨hstart.trans (hmax _ _).1, fun e he => ?_⟩
  rcases List.mem_append.1 he with he | he
  · exact ⟨(hl e he).1, fun id hid => ((hl e he).2 id hid).trans (hmax _ _).1⟩
  · obtain rfl := List.mem_singleton.1 he
    exact ⟨Result.require_eq_ok.1 hne, (hmax _ _).2⟩

/-- What a successful construction has gone through. -/
structure Stages (vocabulary : Vocabulary) (limits : CompileLimits) (d : DerivedVocabulary) where
  totals : Totals
  building : Building
  counted : (sortedEntries vocabulary).foldlM (countEntry limits)
    { maxId := vocabulary.eosTokenId, totalTokenBytes := 0, aliasCount := 0 } = .ok totals
  added : (sortedEntries vocabulary).foldlM (addToken limits)
    { nodes := [BuildNode.default], reverse := List.replicate (totals.maxId + 1) none } =
      .ok building
  laid : building.nodes.foldlM (layNode limits) ⟨[], [], []⟩ = .ok d.trie
  reverse : d.reverse = building.reverse
  eosTokenId : d.eosTokenId = vocabulary.eosTokenId
  vocabSize : d.vocabSize = totals.maxId + 1
  maskWords : d.maskWords = (d.vocabSize + 31) / 32

theorem exists_stages {vocabulary : Vocabulary} {limits : CompileLimits} {d : DerivedVocabulary}
    (hok : build vocabulary limits = .ok d) : Nonempty (Stages vocabulary limits d) := by
  obtain ⟨-, -, hok⟩ := Result.bind_eq_ok.1 hok
  obtain ⟨totals, htotals, hok⟩ := Result.bind_eq_ok.1 hok
  obtain ⟨-, -, hok⟩ := Result.bind_eq_ok.1 hok
  obtain ⟨-, -, hok⟩ := Result.bind_eq_ok.1 hok
  obtain ⟨-, -, hok⟩ := Result.bind_eq_ok.1 hok
  obtain ⟨building, hbuilding, hok⟩ := Result.bind_eq_ok.1 hok
  obtain ⟨-, -, hok⟩ := Result.bind_eq_ok.1 hok
  obtain ⟨-, -, hok⟩ := Result.bind_eq_ok.1 hok
  obtain ⟨trie, htrie, hok⟩ := Result.bind_eq_ok.1 hok
  obtain rfl := Result.pure_eq_ok.1 hok
  exact ⟨⟨totals, building, htotals, hbuilding, htrie, rfl, rfl, rfl, rfl⟩⟩

/-- The paths through the tables are the paths through the nodes that were built. -/
theorem reaches_iff_walk {paths : List UInt8 → Prop} {ids : List UInt8 → ℕ → Prop}
    {limits : CompileLimits} {nodes : List BuildNode} {trie : TokenTrie}
    (hgrown : Grown paths ids nodes) (hlaid : nodes.foldlM (layNode limits) ⟨[], [], []⟩ = .ok trie)
    {bytes : List UInt8} {n : ℕ} : trie.Reaches bytes n ↔ walk nodes bytes = some n := by
  obtain ⟨-, hshows, -⟩ := layNodes_spec hlaid
  constructor
  · intro h
    induction h with
    | root => rfl
    | @step bytes n node edge h hnode hedge ih =>
      have hlt := hgrown.walk_lt ih
      obtain ⟨node', hnode', hsh⟩ := hshows n _ (List.getElem?_eq_getElem hlt)
      obtain rfl : node' = node := Option.some.inj (hnode'.symm.trans hnode)
      rw [walk_snoc, ih, Option.bind_some, step, List.getElem?_eq_getElem hlt, Option.bind_some]
      exact (hsh.mem_edges edge).1 hedge
  · intro h
    induction bytes using List.reverseRecOn generalizing n with
    | nil =>
      obtain rfl := Option.some.inj h
      exact .root
    | append_singleton bytes byte ih =>
      rw [walk_snoc] at h
      obtain ⟨m, hm, hstep⟩ := Option.bind_eq_some_iff.1 h
      obtain ⟨b, hb, hlookup⟩ := Option.bind_eq_some_iff.1 hstep
      obtain ⟨node, hnode, hsh⟩ := hshows m b hb
      exact TokenTrie.Reaches.step (ih hm) hnode ((hsh.mem_edges ⟨byte, n⟩).2 hlookup)

/-- **The trie represents the vocabulary.** -/
theorem build_spec {vocabulary : Vocabulary} {limits : CompileLimits} {d : DerivedVocabulary}
    (hok : build vocabulary limits = .ok d) : d.Represents vocabulary := by
  obtain ⟨s⟩ := exists_stages hok
  obtain ⟨heos, hentries⟩ := countEntries_spec s.counted
  obtain ⟨⟨hgrown, hrev⟩, hlen⟩ := addTokens_spec s.added
  obtain ⟨hnodes, hshows, hterminalIds⟩ := layNodes_spec s.laid
  have hlt : ∀ bytes n, d.trie.Reaches bytes n → n < s.building.nodes.length := fun bytes n h =>
    hgrown.walk_lt ((reaches_iff_walk hgrown s.laid).1 h)
  refine ⟨s.eosTokenId, ?_, fun bytes id hid => ?_, s.maskWords, fun id hid => ?_,
    fun id bytes => ?_, fun id hid => ?_, fun bytes id hid => ?_, fun bytes n h => ?_,
    fun bytes n node h hnode id => ?_⟩
  · rw [s.vocabSize]
    exact Nat.lt_succ_of_le heos
  · obtain ⟨entry, hmem, -, hid⟩ := mem_sortedEntries.2 hid
    rw [s.vocabSize]
    exact Nat.lt_succ_of_le ((hentries entry hmem).2 id hid)
  · obtain ⟨node, hnode, hid⟩ := hterminalIds id hid
    have hid' := inRange_addTokens s.added node hnode id hid
    rwa [hlen, ← s.vocabSize] at hid'
  · rw [← mem_sortedEntries, ← hrev, sharedBytes, s.reverse]
    cases s.building.reverse[id]? <;> simp
  · obtain ⟨entry, hmem, hnil, -⟩ := mem_sortedEntries.2 hid
    exact (hentries entry hmem).1 hnil
  · obtain ⟨entry, hmem, rfl, -⟩ := mem_sortedEntries.2 hid
    obtain ⟨n, hn⟩ := (hgrown.walk_iff entry.1).2 (.inr ⟨entry, hmem, List.prefix_refl _⟩)
    exact ⟨n, (reaches_iff_walk hgrown s.laid).2 hn⟩
  · obtain ⟨node, hnode, -⟩ := hshows n _ (List.getElem?_eq_getElem (hlt bytes n h))
    exact ⟨node, hnode⟩
  · obtain ⟨node', hnode', hsh⟩ := hshows n _ (List.getElem?_eq_getElem (hlt bytes n h))
    obtain rfl : node' = node := Option.some.inj (hnode'.symm.trans hnode)
    rw [hsh.mem_ids, hgrown.ids_iff bytes n _ id ((reaches_iff_walk hgrown s.laid).1 h)
      (List.getElem?_eq_getElem (hlt bytes n h)), mem_sortedEntries]

/-- The token ids of a node are there. -/
theorem ids_le_of_build {vocabulary : Vocabulary} {limits : CompileLimits} {d : DerivedVocabulary}
    (hok : build vocabulary limits = .ok d) {n : ℕ} {node : TrieNode}
    (hnode : d.trie.nodes[n]? = some node) :
    node.tokenStart + node.tokenLen ≤ d.trie.terminalIds.length := by
  obtain ⟨s⟩ := exists_stages hok
  obtain ⟨hlen, hshows, -⟩ := layNodes_spec s.laid
  have hn : n < s.building.nodes.length := hlen ▸ (List.getElem?_eq_some_iff.1 hnode).1
  obtain ⟨node', hnode', hsh⟩ := hshows n _ (List.getElem?_eq_getElem hn)
  obtain rfl : node' = node := Option.some.inj (hnode'.symm.trans hnode)
  exact hsh.ids_le

end DerivedVocabulary

end OcEarley

import OcEarley.Grammar.Scc

/-!
# The components are exact

The local variables of `analyzeSccs` are a depth-first search in the sense of `DepthFirst`: the path
is that of the frames, and the numbers and the low links are read off the vectors.  The loop ends
because every turn uses up an edge or a node.
-/

namespace OcEarley

/-- The components that have been closed are classes of mutually reachable nodes, in ascending
order, and have the closed nodes for members. -/
structure ClosedComponents (E : ℕ → ℕ → Prop) (components : List (List ℕ)) (closed : Set ℕ) :
    Prop where
  ne_nil : ∀ c ∈ components, c ≠ []
  ascending : ∀ c ∈ components, c.Pairwise (· < ·)
  classes : ∀ c ∈ components, ∀ v ∈ c, ∀ w, Mutual E v w ↔ w ∈ c
  disjoint : components.Pairwise List.Disjoint
  mem_closed : ∀ v, v ∈ closed ↔ ∃ c ∈ components, v ∈ c

/-- A component is added to those that have been closed. -/
theorem ClosedComponents.add {E : ℕ → ℕ → Prop} {components : List (List ℕ)} {members : List ℕ}
    {closed : Set ℕ} (h : ClosedComponents E components closed) (hne : members ≠ [])
    (hnodup : members.Nodup) (hclasses : ∀ v ∈ members, ∀ w, Mutual E v w ↔ w ∈ members)
    (hnew : ∀ v ∈ members, v ∉ closed) :
    ClosedComponents E (components ++ [sortByKey id members]) (closed ∪ {v | v ∈ members}) where
  ne_nil := by
    simp only [List.mem_append, List.mem_singleton]
    rintro c (hc | rfl)
    · exact h.ne_nil c hc
    · rw [Ne, ← List.length_eq_zero_iff, length_sortByKey, List.length_eq_zero_iff]
      exact hne
  ascending := by
    simp only [List.mem_append, List.mem_singleton]
    rintro c (hc | rfl)
    · exact h.ascending c hc
    · have hperm : (sortByKey id members).Perm members := List.perm_insertionSort _ _
      have hsorted : (sortByKey id members).Pairwise (id · ≤ id ·) := pairwise_sortByKey members
      exact (hsorted.and (hperm.nodup_iff.2 hnodup)).imp fun hab => lt_of_le_of_ne hab.1 hab.2
  classes := by
    simp only [List.mem_append, List.mem_singleton]
    rintro c (hc | rfl) v hv w
    · exact h.classes c hc v hv w
    · rw [mem_sortByKey] at hv ⊢
      exact hclasses v hv w
  disjoint := by
    refine List.pairwise_append.2 ⟨h.disjoint, List.pairwise_singleton _ _, ?_⟩
    intro c hc c' hc' v hv hv'
    obtain rfl := List.mem_singleton.1 hc'
    exact hnew v (mem_sortByKey.1 hv') ((h.mem_closed v).2 ⟨c, hc, hv⟩)
  mem_closed := by
    intro v
    simp only [Set.mem_union, Set.mem_ofPred_eq, h.mem_closed, List.mem_append, List.mem_singleton]
    constructor
    · rintro (⟨c, hc, hv⟩ | hv)
      · exact ⟨c, .inl hc, hv⟩
      · exact ⟨_, .inr rfl, mem_sortByKey.2 hv⟩
    · rintro ⟨c, hc | rfl, hv⟩
      · exact .inl ⟨c, hc, hv⟩
      · exact .inr (mem_sortByKey.1 hv)

namespace Tarjan

/-- The number of a node that has been discovered. -/
def index (search : Tarjan) (v : ℕ) : ℕ := search.indices[v]?.join.getD 0

/-- The low link of a node. -/
def low (search : Tarjan) (v : ℕ) : ℕ := search.lowlink[v]?.getD 0

/-- The node has been discovered. -/
def Seen (search : Tarjan) (v : ℕ) : Prop := ∃ i, search.indices[v]? = some (some i)

/-- How many nodes have not been discovered. -/
def undiscovered (search : Tarjan) : ℕ := search.indices.count none

/-- The local variables are those of a depth-first search along the path. -/
structure Invariant (graph : List (List ℕ)) (search : Tarjan) (path : List ℕ)
    (examined : ℕ → ℕ → Prop) (closed : Set ℕ) : Prop where
  dfs : DepthFirst (Edge graph) search.index search.low examined path search.tarjanStack closed
  indices : search.indices.length = graph.length
  lowlink : search.lowlink.length = graph.length
  onStack : search.onStack.length = graph.length
  seen : ∀ v, search.Seen v ↔ v ∈ search.tarjanStack ∨ v ∈ closed
  mem_stack : ∀ v, search.onStack[v]? = some true ↔ v ∈ search.tarjanStack
  index_lt : ∀ v ∈ search.tarjanStack, search.index v < search.nextIndex
  count : search.nextIndex + search.undiscovered = graph.length
  components : ClosedComponents (Edge graph) search.components closed

/-- The number of edges of a node. -/
def degree (graph : List (List ℕ)) (v : ℕ) : ℕ := (graph[v]?.getD []).length

/-- The edges of the frames that have been used are examined. -/
def Progress (graph : List (List ℕ)) (frames : List (ℕ × ℕ)) (examined : ℕ → ℕ → Prop) : Prop :=
  ∀ f ∈ frames, f.2 ≤ degree graph f.1 ∧ ∀ w ∈ (graph[f.1]?.getD []).take f.2, examined f.1 w

section Invariant

variable {graph : List (List ℕ)} {search : Tarjan} {path rest : List ℕ} {examined : ℕ → ℕ → Prop}
  {closed : Set ℕ} {t node : ℕ}

theorem Progress.mono {frames : List (ℕ × ℕ)} {examined' : ℕ → ℕ → Prop}
    (h : Progress graph frames examined) (hle : ∀ v w, examined v w → examined' v w) :
    Progress graph frames examined' :=
  fun f hf => ⟨(h f hf).1, fun w hw => hle _ _ ((h f hf).2 w hw)⟩

theorem Invariant.lt_of_mem (h : Invariant graph search path examined closed) {v : ℕ}
    (hv : v ∈ search.tarjanStack ∨ v ∈ closed) : v < graph.length := by
  obtain ⟨i, hi⟩ := (h.seen v).2 hv
  exact h.indices ▸ (List.getElem?_eq_some_iff.1 hi).1

theorem Invariant.not_seen (h : Invariant graph search path examined closed)
    (ht : search.indices[t]? = some none) : t ∉ search.tarjanStack ∧ t ∉ closed := by
  have hnot : ¬ search.Seen t := by simp [Seen, ht]
  exact not_or.1 fun hmem => hnot ((h.seen t).2 hmem)

theorem index_eq {i : ℕ} (h : search.indices[t]? = some (some i)) : search.index t = i := by
  rw [index, h]
  rfl

theorem low_eq (hlt : t < search.lowlink.length) : search.low t = search.lowlink[t] := by
  rw [low, List.getElem?_eq_getElem hlt]
  rfl

/-! ### A node is discovered -/

theorem discover_wp (h : Invariant graph search path examined closed)
    (hlen : graph.length ≤ usizeMax) (ht : search.indices[t]? = some none)
    (hedge : ∀ p ∈ path.head?, Edge graph p t) :
    Result.wp (fun _ => False) (search.discover t) fun search' =>
      Invariant graph search' (t :: path) (fun v w => examined v w ∨ path.head? = some v ∧ w = t)
        closed ∧ search'.undiscovered + 1 = search.undiscovered ∧
        ∀ v, search'.Seen v ↔ v = t ∨ search.Seen v := by
  have hlt := (List.getElem?_eq_some_iff.1 ht).1
  obtain ⟨hstack, hclosed⟩ := h.not_seen ht
  have hget : search.indices[t] = none := (List.getElem?_eq_some_iff.1 ht).2
  have hpos : 0 < search.undiscovered := List.count_pos_iff.2 (List.mem_of_getElem? ht)
  have hcount : (search.indices.set t (some search.nextIndex)).count none + 1 =
      search.undiscovered := by
    rw [List.count_set hlt, hget]
    simp only [beq_self_eq_true, if_true]
    have hne : (some search.nextIndex == none) = false := rfl
    rw [hne]
    simp only [Bool.false_eq_true, if_false]
    exact Nat.sub_add_cancel hpos
  have hnext : search.nextIndex + 1 ≤ usizeMax := by
    have := h.count
    omega
  refine Result.wp_bind.2 ((wp_vecSet hlt).2 ?_)
  refine Result.wp_bind.2 ((wp_vecSet (h.lowlink ▸ h.indices ▸ hlt)).2 ?_)
  refine Result.wp_bind.2 (Result.wp_require.2 ⟨fun _ => ?_, fun hnot => hnot hnext⟩)
  -- what is looked up for the nodes on the stack does not change, since `t` is not there
  have hne : ∀ v ∈ search.tarjanStack, v ≠ t := fun v hv heq => hstack (heq ▸ hv)
  have hseen : ∀ v, (∃ i, (search.indices.set t (some search.nextIndex))[v]? = some (some i)) ↔
      v = t ∨ search.Seen v := by
    intro v
    by_cases hv : v = t
    · subst hv
      simp [List.getElem?_set_self hlt]
    · simp [Seen, List.getElem?_set_ne (Ne.symm hv), hv]
  refine Result.wp_bind.2 ((wp_vecSet (h.onStack ▸ h.indices ▸ hlt)).2 ⟨?_, hcount, hseen⟩)
  refine ⟨?_, ?_, ?_, ?_, fun v => ?_, fun v => ?_, fun v hv => ?_, ?_, h.components⟩
  · refine h.dfs.discover hstack hclosed (fun v hv => ?_) (fun v hv => ?_) (fun v hv => ?_) ?_ hedge
    · simp [index, List.getElem?_set_ne (hne v hv).symm]
    · simp [low, List.getElem?_set_ne (hne v hv).symm]
    · have hold := h.index_lt v hv
      simpa [index, List.getElem?_set_ne (hne v hv).symm, List.getElem?_set_self hlt] using hold
    · simp [index, low, List.getElem?_set_self hlt,
        List.getElem?_set_self (h.lowlink ▸ h.indices ▸ hlt : t < search.lowlink.length)]
  · simp [h.indices]
  · simp [h.lowlink]
  · simp [h.onStack]
  · rw [Seen, hseen, h.seen, List.mem_cons, or_assoc]
  · by_cases hv : v = t
    · subst hv
      simp [List.getElem?_set_self (h.onStack ▸ h.indices ▸ hlt : v < search.onStack.length)]
    · simp [List.getElem?_set_ne (Ne.symm hv), hv, h.mem_stack v]
  · rcases List.mem_cons.1 hv with rfl | hv
    · simp [index, List.getElem?_set_self hlt]
    · have hold := h.index_lt v hv
      have hsame : search.index v =
          (search.indices.set t (some search.nextIndex))[v]?.join.getD 0 := by
        simp [index, List.getElem?_set_ne (hne v hv).symm]
      exact (hsame ▸ hold).trans (Nat.lt_succ_self _)
  · have := h.count
    simp only [undiscovered] at this hcount ⊢
    omega

/-! ### An edge is examined -/

theorem wp_lower {i : ℕ} (hlt : node < search.lowlink.length) {Q : Tarjan → Prop} :
    Result.wp (fun _ => False) (search.lower node i) Q ↔
      Q { search with lowlink := search.lowlink.set node (min (search.low node) i) } := by
  rw [low_eq hlt]
  refine Result.wp_bind.trans ((wp_vecGet (List.getElem?_eq_getElem hlt)).trans ?_)
  exact Result.wp_bind.trans (wp_vecSet hlt)

theorem low_set_self {i : ℕ} (hlt : node < search.lowlink.length) :
    low { search with lowlink := search.lowlink.set node i } node = i := by
  simp [low, List.getElem?_set_self hlt]

theorem low_set_ne {i v : ℕ} (hv : v ≠ node) :
    low { search with lowlink := search.lowlink.set node i } v = search.low v := by
  simp [low, List.getElem?_set_ne hv.symm]

/-- A search with other low links. -/
theorem Invariant.of_dfs (h : Invariant graph search path examined closed) {path' : List ℕ}
    {examined' : ℕ → ℕ → Prop} {lowlink : List ℕ} (hlen : lowlink.length = search.lowlink.length)
    (hdfs : DepthFirst (Edge graph) search.index (low { search with lowlink := lowlink }) examined'
      path' search.tarjanStack closed) :
    Invariant graph { search with lowlink := lowlink } path' examined' closed :=
  { h with
    dfs := hdfs
    lowlink := hlen.trans h.lowlink }

theorem Invariant.ne_of_mem (h : Invariant graph search (node :: rest) examined closed) {q : ℕ}
    (hq : q ∈ rest) : q ≠ node := by
  rintro rfl
  exact absurd (h.dfs.index_lt rfl q hq) (lt_irrefl _)

theorem Invariant.node_lt (h : Invariant graph search path examined closed) (hnode : node ∈ path) :
    node < graph.length :=
  h.lt_of_mem (.inl (h.dfs.mem_stack hnode))

/-- The last frame and what it examined before and now. -/
theorem follow_wp (h : Invariant graph search (node :: rest) examined closed)
    (hlen : graph.length ≤ usizeMax) (hedge : Edge graph node t) (ht : t < graph.length)
    (frames : List (ℕ × ℕ)) :
    Result.wp (fun _ => False) (search.follow node t frames) fun result =>
      ∃ examined', (∀ v w, examined v w ∨ v = node ∧ w = t → examined' v w) ∧
        (∀ v, search.Seen v → result.1.Seen v) ∧
        (result.2 = frames ∧ Invariant graph result.1 (node :: rest) examined' closed ∧
            result.1.undiscovered = search.undiscovered ∨
          result.2 = (t, 0) :: frames ∧
            Invariant graph result.1 (t :: node :: rest) examined' closed ∧
            result.1.undiscovered + 1 = search.undiscovered) := by
  have hindices : t < search.indices.length := h.indices ▸ ht
  have honStack : t < search.onStack.length := h.onStack ▸ ht
  have hindex := List.getElem?_eq_getElem hindices
  refine Result.wp_bind.2 ((wp_vecGet hindex).2 ?_)
  -- a new node is discovered; one that has been seen is on the stack or in a closed component
  cases hfound : search.indices[t] with
  | none =>
    rw [hfound] at hindex
    refine Result.wp_bind.2 (Result.wp_mono (discover_wp h hlen hindex ?_) ?_)
    · intro p hp
      obtain rfl := Option.some.inj hp
      exact hedge
    · rintro search' ⟨hinv, hcount, hseen⟩
      refine ⟨_, ?_, fun v hv => (hseen v).2 (.inr hv), .inr ⟨rfl, hinv, hcount⟩⟩
      rintro v w (hvw | ⟨rfl, rfl⟩)
      · exact .inl hvw
      · exact .inr ⟨rfl, rfl⟩
  | some i =>
    rw [hfound] at hindex
    have hseen := (h.seen t).1 ⟨i, hindex⟩
    have hflag := List.getElem?_eq_getElem honStack
    have hnode : node < search.lowlink.length := h.lowlink ▸ h.node_lt List.mem_cons_self
    refine Result.wp_bind.2 ((wp_vecGet hflag).2 ?_)
    cases hon : search.onStack[t] with
    | true =>
      rw [hon] at hflag
      have hstack := (h.mem_stack t).1 hflag
      refine Result.wp_bind.2
        ((wp_lower hnode).2 ⟨_, fun v w hvw => hvw, fun v hv => hv, .inl ⟨rfl, ?_, rfl⟩⟩)
      refine h.of_dfs (List.length_set ..) ?_
      refine h.dfs.examine rfl hedge hseen (fun q hq => low_set_ne (h.ne_of_mem hq))
        (fun _ => ?_) ?_
      · rw [low_set_self hnode, index_eq hindex]
      · exact fun hclosed => absurd hclosed (h.dfs.disjoint t hstack)
    | false =>
      rw [hon] at hflag
      have hstack : t ∉ search.tarjanStack := by
        intro hstack
        rw [(h.mem_stack t).2 hstack] at hflag
        cases hflag
      refine ⟨_, fun v w hvw => hvw, fun v hv => hv, .inl ⟨rfl, ?_, rfl⟩⟩
      refine { h with dfs := h.dfs.examine rfl hedge hseen (fun _ _ => rfl) ?_ fun _ => rfl }
      exact fun hmem => absurd hmem hstack

/-! ### A node is completed -/

/-- The members that are popped are those down to the completed node. -/
theorem popMembers_wp {above below members : List ℕ} {onStack : List Bool}
    (hnot : node ∉ above) (hlt : ∀ v ∈ above ++ [node], v < onStack.length ∧ v ≤ u32Max) :
    Result.wp (fun _ => False) (popMembers node (above ++ node :: below) onStack members)
      fun result => result.1 = below ∧ result.2.1.length = onStack.length ∧
        (∀ v, result.2.1[v]? = some true ↔ onStack[v]? = some true ∧ v ∉ above ++ [node]) ∧
        result.2.2 = members ++ (above ++ [node]) := by
  have hset : ∀ {v : ℕ}, v < onStack.length → ∀ u, (onStack.set v false)[u]? = some true ↔
      onStack[u]? = some true ∧ u ≠ v := by
    intro v hv u
    by_cases hu : u = v
    · subst hu
      simp [List.getElem?_set_self hv]
    · simp [List.getElem?_set_ne (Ne.symm hu), hu]
  induction above generalizing onStack members with
  | nil =>
    obtain ⟨hsize, hmax⟩ := hlt node (by simp)
    rw [List.nil_append, popMembers]
    refine Result.wp_bind.2 ((wp_vecSet hsize).2 ?_)
    rw [if_pos rfl, Nat.mod_eq_of_lt (Nat.lt_succ_of_le hmax)]
    exact ⟨rfl, List.length_set .., fun v => by simp [hset hsize], rfl⟩
  | cons member above ih =>
    obtain ⟨hmember, habove⟩ := List.forall_mem_cons.1 hlt
    obtain ⟨hne, hnot⟩ := not_or.1 (List.mem_cons.not.1 hnot)
    rw [List.cons_append, popMembers]
    refine Result.wp_bind.2 ((wp_vecSet hmember.1).2 ?_)
    rw [if_neg (Ne.symm hne), Nat.mod_eq_of_lt (Nat.lt_succ_of_le hmember.2)]
    refine Result.wp_mono (ih hnot (fun v hv => ?_) ?_) ?_
    · rw [List.length_set]
      exact habove v hv
    · intro v hv u
      by_cases hu : u = v
      · subst hu
        simp [List.getElem?_set_self hv]
      · simp [List.getElem?_set_ne (Ne.symm hu), hu]
    · rintro result ⟨hrest, hsize, hflags, hmembers⟩
      refine ⟨hrest, hsize.trans (List.length_set ..), fun v => ?_, ?_⟩
      · rw [hflags, hset hmember.1, List.cons_append, List.mem_cons, not_or, and_assoc]
      · rw [hmembers, List.append_assoc]
        rfl

/-- The low link of a completed node goes over to the node before it on the path. -/
theorem wp_lowerParent (h : Invariant graph search (node :: rest) examined closed)
    {frames : List (ℕ × ℕ)} (hframes : frames.map Prod.fst = rest) {Q : Tarjan → Prop}
    (hQ : ∀ lowlink : List ℕ, lowlink.length = search.lowlink.length →
      (∀ q ∈ rest.head?, low { search with lowlink := lowlink } q =
        min (search.low q) (search.low node)) →
      (∀ q, q ∉ rest.head? → low { search with lowlink := lowlink } q = search.low q) →
      Q { search with lowlink := lowlink }) :
    Result.wp (fun _ => False) (search.lowerParent node frames) Q := by
  subst hframes
  cases frames with
  | nil => exact hQ search.lowlink rfl (by simp) fun _ _ => rfl
  | cons frame frames =>
    obtain ⟨parent, e⟩ := frame
    have hnode : node < search.lowlink.length := h.lowlink ▸ h.node_lt List.mem_cons_self
    have hparent : parent < search.lowlink.length := by
      rw [h.lowlink]
      exact h.node_lt (by simp)
    refine Result.wp_bind.2
      ((wp_vecGet (List.getElem?_eq_getElem hnode)).2 ((wp_lower hparent).2 ?_))
    refine hQ _ (List.length_set ..) ?_ ?_
    · intro q hq
      obtain rfl : parent = q := by simpa using hq
      rw [low_set_self hparent, low_eq hnode]
    · intro q hq
      exact low_set_ne (by simpa [eq_comm] using hq)

theorem complete_wp (h : Invariant graph search (node :: rest) examined closed)
    (hlen : graph.length ≤ u32Max + 1) (hall : ∀ w, Edge graph node w → examined node w)
    {frames : List (ℕ × ℕ)} (hframes : frames.map Prod.fst = rest) :
    Result.wp (fun _ => False) (search.complete node frames) fun search' =>
      (∃ closed', Invariant graph search' rest examined closed') ∧
        search'.indices = search.indices := by
  have hnode := h.node_lt (List.mem_cons_self (a := node) (l := rest))
  obtain ⟨i, hi⟩ := (h.seen node).2 (.inl (h.dfs.mem_stack List.mem_cons_self))
  have hnotmem : node ∉ rest := fun hmem => h.ne_of_mem hmem rfl
  refine Result.wp_bind.2 (wp_lowerParent h hframes fun lowlink hsize hhead hother => ?_)
  have hlow : low { search with lowlink := lowlink } node = search.low node :=
    hother node fun hmem => hnotmem (List.mem_of_mem_head? hmem)
  have hnode' : node < lowlink.length := by
    rw [hsize, h.lowlink]
    exact hnode
  refine Result.wp_bind.2 ((wp_vecGet (List.getElem?_eq_getElem hnode')).2 ?_)
  refine Result.wp_bind.2 ((wp_vecGet hi).2 ?_)
  refine Result.wp_bind.2 (Result.wp_unwrap_some.2 ?_)
  rw [low_eq hnode'] at hlow
  dsimp only at hlow ⊢
  rw [hlow]
  have hindex : search.index node = i := index_eq hi
  split
  · next heq =>
    -- the parent is below the node, which it cannot reach less than
    have hsame : ∀ q ∈ rest, low { search with lowlink := lowlink } q = search.low q := by
      intro q hq
      by_cases hqhead : q ∈ rest.head?
      · obtain ⟨w, -, hw, hle, -⟩ := h.dfs.low_sound q (List.mem_cons_of_mem _ hq)
        have hlt := h.dfs.index_lt rfl q hq
        rw [hhead q hqhead]
        omega
      · exact hother q hqhead
    obtain ⟨above, below, hstack⟩ :=
      List.append_of_mem (h.dfs.mem_stack (List.mem_cons_self (a := node) (l := rest)))
    obtain ⟨hclasses, hdfs⟩ := h.dfs.close rfl hall (heq.trans hindex.symm) hstack hsame
    have hnodup : (above ++ [node]).Nodup := by
      have hsorted : search.tarjanStack.Nodup :=
        h.dfs.sorted.imp fun hlt heq => absurd (heq ▸ hlt) (lt_irrefl _)
      rw [hstack] at hsorted
      refine hsorted.sublist (List.Sublist.append_left ?_ above)
      exact List.cons_sublist_cons.2 (List.nil_sublist _)
    have hmem : ∀ v ∈ above ++ [node], v ∈ search.tarjanStack := by
      intro v hv
      rw [hstack]
      rcases List.mem_append.1 hv with hv | hv
      · exact List.mem_append_left _ hv
      · exact List.mem_append_right _ (List.mem_singleton.1 hv ▸ List.mem_cons_self)
    have hnot : node ∉ above := fun hmem =>
      (List.nodup_append.1 hnodup).2.2 node hmem node (by simp) rfl
    have hbound : ∀ v ∈ above ++ [node], v < search.onStack.length ∧ v ≤ u32Max := by
      intro v hv
      have hlt := h.lt_of_mem (.inl (hmem v hv))
      exact ⟨h.onStack ▸ hlt, by omega⟩
    rw [hstack]
    refine Result.wp_bind.2 (Result.wp_mono (popMembers_wp hnot hbound) ?_)
    rintro ⟨tarjanStack, onStack, members⟩ ⟨hrest, hsize', hflags, hmembers⟩
    obtain rfl : tarjanStack = below := hrest
    obtain rfl : members = above ++ [node] := hmembers
    have hbelow : ∀ v, v ∈ tarjanStack ↔ v ∈ search.tarjanStack ∧ v ∉ above ++ [node] := by
      intro v
      have hdisjoint := (hstack ▸ h.dfs.sorted : (above ++ node :: tarjanStack).Pairwise _)
      constructor
      · intro hv
        refine ⟨by rw [hstack]; simp [hv], fun hv' => ?_⟩
        rw [← List.singleton_append, ← List.append_assoc] at hdisjoint
        exact absurd ((List.pairwise_append.1 hdisjoint).2.2 v hv' v hv) (lt_irrefl _)
      · rintro ⟨hv, hv'⟩
        rw [hstack, ← List.singleton_append, ← List.append_assoc] at hv
        exact (List.mem_append.1 hv).resolve_left hv'
    refine ⟨⟨closed ∪ {v | v ∈ above ++ [node]}, ?_⟩, rfl⟩
    exact {
      dfs := hdfs
      indices := h.indices
      lowlink := hsize.trans h.lowlink
      onStack := hsize'.trans h.onStack
      seen := fun v => by
        have hseen := h.seen v
        change search.Seen v ↔ _
        rw [hseen, Set.mem_union, Set.mem_ofPred_eq, hbelow]
        by_cases hv : v ∈ above ++ [node]
        · simp [hv, hmem v hv]
        · simp [hv]
      mem_stack := fun v => by rw [hflags, h.mem_stack, hbelow]
      index_lt := fun v hv => h.index_lt v ((hbelow v).1 hv).1
      count := h.count
      components := h.components.add (by simp) hnodup hclasses fun v hv =>
        h.dfs.disjoint v (hmem v hv) }
  · next hne =>
    refine ⟨⟨closed, h.of_dfs hsize (h.dfs.finish rfl hall (hindex ▸ hne) ?_ hhead)⟩, rfl⟩
    intro q hq
    refine hother q fun hqhead => ?_
    -- the path has every node once
    have hsorted := h.dfs.sorted.sublist h.dfs.path_sublist
    obtain ⟨parent, rest, rfl⟩ := List.exists_cons_of_ne_nil
      (List.ne_nil_of_mem (List.mem_of_mem_head? hqhead))
    obtain rfl := Option.some.inj hqhead
    exact absurd ((List.pairwise_cons.1 hsorted.of_cons).1 _ hq) (lt_irrefl _)

/-! ### The loop -/

theorem degree_le (graph : List (List ℕ)) (v : ℕ) : degree graph v ≤ graph.flatten.length := by
  rw [degree]
  cases hv : graph[v]? with
  | none => exact Nat.zero_le _
  | some edges => exact (List.sublist_flatten_of_mem (List.mem_of_getElem? hv)).length_le

/-- The turns that are left: every node that is not discovered and every edge that is not used. -/
def potential (graph : List (List ℕ)) (search : Tarjan) (frames : List (ℕ × ℕ)) : ℕ :=
  search.undiscovered * (graph.flatten.length + 1) +
    (frames.map fun f => degree graph f.1 + 1 - f.2).sum

/-- The next edge of the last frame has been examined. -/
theorem Progress.step {frames : List (ℕ × ℕ)} {edges : List ℕ} {e : ℕ} {examined' : ℕ → ℕ → Prop}
    (h : Progress graph ((node, e) :: frames) examined) (hedges : graph[node]? = some edges)
    (ht : edges[e]? = some t) (hle : ∀ v w, examined v w ∨ v = node ∧ w = t → examined' v w) :
    Progress graph ((node, e + 1) :: frames) examined' := by
  obtain ⟨hlast, hframes⟩ := List.forall_mem_cons.1 h
  refine List.forall_mem_cons.2 ⟨⟨?_, fun w hw => ?_⟩, fun f hf => ?_⟩
  · rw [degree, hedges]
    exact (List.getElem?_eq_some_iff.1 ht).1
  · dsimp only at hlast hw ⊢
    rw [hedges] at hlast hw
    rw [Option.getD_some, List.take_add_one, ht] at hw
    rcases List.mem_append.1 hw with hw | hw
    · exact hle _ _ (.inl (hlast.2 w hw))
    · exact hle _ _ (.inr ⟨rfl, by simpa using hw⟩)
  · exact ⟨(hframes f hf).1, fun w hw => hle _ _ (.inl ((hframes f hf).2 w hw))⟩

/-- **The loop takes all frames away**, and the search goes on to be one. -/
theorem loop_wp (hlen : graph.length ≤ u32Max + 1)
    (hrange : ∀ v w, Edge graph v w → w < graph.length) {fuel : ℕ} {frames : List (ℕ × ℕ)}
    (h : Invariant graph search (frames.map Prod.fst) examined closed)
    (hprogress : Progress graph frames examined) (hfuel : potential graph search frames ≤ fuel) :
    Result.wp (fun _ => False) (loop graph fuel search frames) fun search' =>
      (∃ examined' closed', Invariant graph search' [] examined' closed') ∧
        ∀ v, search.Seen v → search'.Seen v := by
  have husize : graph.length ≤ usizeMax := hlen.trans (by decide)
  -- the potential falls at every step: an edge is passed, a node is discovered or a frame is done
  induction fuel generalizing search frames examined closed with
  | zero =>
    cases frames with
    | nil => exact ⟨⟨_, _, h⟩, fun v hv => hv⟩
    | cons frame frames =>
      have hle := (hprogress frame List.mem_cons_self).1
      simp only [potential, List.map_cons, List.sum_cons] at hfuel
      omega
  | succ fuel ih =>
    cases frames with
    | nil => exact ⟨⟨_, _, h⟩, fun v hv => hv⟩
    | cons frame frames =>
      obtain ⟨node, e⟩ := frame
      have hnode : node < graph.length := h.node_lt List.mem_cons_self
      have hedges := List.getElem?_eq_getElem hnode
      have hdegree : degree graph node = graph[node].length := by rw [degree, hedges]; rfl
      have hlast : e ≤ degree graph node := (hprogress _ List.mem_cons_self).1
      simp only [potential, List.map_cons, List.sum_cons] at hfuel
      rw [loop]
      refine Result.wp_bind.2 ((wp_vecGet hedges).2 ?_)
      split
      · next target htarget =>
        have hedge : Edge graph node target := ⟨_, hedges, List.mem_of_getElem? htarget⟩
        have he := (List.getElem?_eq_some_iff.1 htarget).1
        refine Result.wp_bind.2 (Result.wp_mono
          (follow_wp h husize hedge (hrange _ _ hedge) ((node, e + 1) :: frames)) ?_)
        rintro ⟨search', frames'⟩ ⟨examined', hle, hseen, hcase⟩
        have hprogress' := hprogress.step hedges htarget hle
        dsimp only at hseen hcase ⊢
        rcases hcase with ⟨rfl, hinv, hcount⟩ | ⟨rfl, hinv, hcount⟩
        · refine Result.wp_mono (ih hinv hprogress' ?_) fun search'' hdone =>
            ⟨hdone.1, fun v hv => hdone.2 v (hseen v hv)⟩
          simp only [potential, List.map_cons, List.sum_cons, hcount]
          omega
        -- a new node brings its own edges, for which its discovery has left room in the potential
        · have hnew : Progress graph ((target, 0) :: (node, e + 1) :: frames) examined' :=
            List.forall_mem_cons.2 ⟨⟨Nat.zero_le _, by simp⟩, hprogress'⟩
          refine Result.wp_mono (ih hinv hnew ?_) fun search'' hdone =>
            ⟨hdone.1, fun v hv => hdone.2 v (hseen v hv)⟩
          have hbound := degree_le graph target
          rw [← hcount, Nat.add_mul] at hfuel
          simp only [potential, List.map_cons, List.sum_cons]
          omega
      · next hnone =>
        -- all edges of the node have been passed, so that it is completed
        have hend := List.getElem?_eq_none_iff.1 hnone
        have hall : ∀ w, Edge graph node w → examined node w := by
          rintro w ⟨edges, hfound, hw⟩
          obtain rfl := Option.some.inj (hedges.symm.trans hfound)
          refine (hprogress _ List.mem_cons_self).2 w ?_
          dsimp only
          rw [hedges, Option.getD_some, List.take_of_length_le hend]
          exact hw
        refine Result.wp_bind.2 (Result.wp_mono (complete_wp h hlen hall rfl) ?_)
        rintro search' ⟨⟨closed', hinv⟩, hindices⟩
        have hseen : ∀ v, search.Seen v → search'.Seen v := by
          intro v hv
          rwa [Seen, hindices]
        refine Result.wp_mono (ih hinv (fun f hf => hprogress f (List.mem_cons_of_mem _ hf)) ?_)
          fun search'' hdone => ⟨hdone.1, fun v hv => hdone.2 v (hseen v hv)⟩
        simp only [potential, undiscovered, hindices] at hfuel ⊢
        omega

/-- **A search from a node that has not been discovered discovers it**, and keeps the others. -/
theorem visit_wp (hlen : graph.length ≤ u32Max + 1)
    (hrange : ∀ v w, Edge graph v w → w < graph.length)
    (h : Invariant graph search [] examined closed) {root : ℕ} (hroot : root < graph.length) :
    Result.wp (fun _ => False) (visit graph search root) fun search' =>
      (∃ examined' closed', Invariant graph search' [] examined' closed') ∧
        search'.Seen root ∧ ∀ v, search.Seen v → search'.Seen v := by
  have hindices : root < search.indices.length := h.indices ▸ hroot
  have hindex := List.getElem?_eq_getElem hindices
  refine Result.wp_bind.2 ((wp_vecGet hindex).2 ?_)
  cases hfound : search.indices[root] with
  | some i => exact ⟨⟨_, _, h⟩, ⟨i, hfound ▸ hindex⟩, fun v hv => hv⟩
  | none =>
    rw [hfound] at hindex
    refine Result.wp_bind.2 (Result.wp_mono (discover_wp h (hlen.trans (by decide)) hindex ?_) ?_)
    · simp
    · rintro search' ⟨hinv, hcount, hseen⟩
      have hprogress : Progress graph [(root, 0)]
          (fun v w => examined v w ∨ ([] : List ℕ).head? = some v ∧ w = root) :=
        List.forall_mem_singleton.2 ⟨Nat.zero_le _, by simp⟩
      have hfuel : potential graph search' [(root, 0)] ≤
          graph.length * (graph.flatten.length + 1) := by
        have hle : search'.undiscovered + 1 ≤ graph.length := by
          have := h.count
          omega
        have hmul := Nat.mul_le_mul_right (graph.flatten.length + 1) hle
        have hbound := degree_le graph root
        rw [Nat.add_mul] at hmul
        simp only [potential, List.map_cons, List.map_nil, List.sum_cons, List.sum_nil]
        omega
      refine Result.wp_mono (loop_wp hlen hrange hinv hprogress hfuel) fun search'' hdone => ?_
      exact ⟨hdone.1, hdone.2 root ((hseen root).2 (.inl rfl)),
        fun v hv => hdone.2 v ((hseen v).2 (.inr hv))⟩

end Invariant

end Tarjan

/-! ### The report -/

section Report

variable {graph : List (List ℕ)} {components : List (List ℕ)}

/-- When every node is closed, the components are all classes. -/
theorem ClosedComponents.strict {E : ℕ → ℕ → Prop} {closed : Set ℕ}
    (h : ClosedComponents E components closed) :
    (sortByKey (fun members : List ℕ => members.headD 0) components).Pairwise
      fun c d => c.headD 0 < d.headD 0 := by
  have hperm : (sortByKey (fun members : List ℕ => members.headD 0) components).Perm components :=
    List.perm_insertionSort _ _
  have hdisjoint := (hperm.pairwise_iff fun {c d} hcd => hcd.symm).2 h.disjoint
  have hsorted : (sortByKey (fun members : List ℕ => members.headD 0) components).Pairwise
      fun c d => c.headD 0 ≤ d.headD 0 := pairwise_sortByKey components
  have hhead : ∀ c ∈ components, c.headD 0 ∈ c := by
    intro c hc
    obtain ⟨a, c, rfl⟩ := List.exists_cons_of_ne_nil (h.ne_nil c hc)
    exact List.mem_cons_self
  refine (hsorted.and hdisjoint).imp_of_mem fun {c d} hc hd hcd =>
    lt_of_le_of_ne hcd.1 fun heq => ?_
  rw [mem_sortByKey] at hc hd
  exact hcd.2 (hhead c hc) (heq ▸ hhead d hd)

/-- What is reported as recursive. -/
def isRecursive (graph : List (List ℕ)) (members : List ℕ) : Bool :=
  1 < members.length || members.headD 0 ∈ graph[members.headD 0]?.getD []

/-- A class is recursive exactly when one of its members reaches itself by a path with an edge. -/
theorem isRecursive_iff {members : List ℕ} (hne : members ≠ []) (hnodup : members.Nodup)
    (hclasses : ∀ v ∈ members, ∀ w, Mutual (Edge graph) v w ↔ w ∈ members) :
    isRecursive graph members = true ↔
      ∃ A ∈ members, Relation.TransGen (Edge graph) A A := by
  obtain ⟨A, members, rfl⟩ := List.exists_cons_of_ne_nil hne
  have hself : A ∈ graph[A]?.getD [] ↔ Edge graph A A := by
    unfold Edge
    cases graph[A]? <;> simp
  rw [isRecursive, Bool.or_eq_true, decide_eq_true_eq, decide_eq_true_eq, List.headD_cons, hself]
  constructor
  · rintro (hlong | hedge)
    · obtain ⟨B, members, rfl⟩ := List.exists_cons_of_length_pos (Nat.lt_of_succ_lt_succ hlong)
      have hne : A ≠ B := fun heq => (List.nodup_cons.1 hnodup).1 (heq ▸ List.mem_cons_self)
      obtain ⟨hto, hfrom⟩ := (hclasses A List.mem_cons_self B).2 (by simp)
      refine ⟨A, List.mem_cons_self, ?_⟩
      exact ((Relation.reflTransGen_iff_eq_or_transGen.1 hto).resolve_left
        (Ne.symm hne)).trans_left hfrom
    · exact ⟨A, List.mem_cons_self, .single hedge⟩
  · rintro ⟨B, hB, hloop⟩
    by_cases hlong : 1 < (A :: members).length
    · exact .inl hlong
    · right
      have hlen : members.length = 0 := by
        rw [List.length_cons] at hlong
        omega
      obtain rfl := List.length_eq_zero_iff.1 hlen
      obtain rfl := List.mem_singleton.1 hB
      obtain ⟨C, hedge, hback⟩ := Relation.TransGen.head'_iff.1 hloop
      obtain rfl := List.mem_singleton.1
        ((hclasses B List.mem_cons_self C).1 ⟨.single hedge, hback⟩)
      exact hedge

/-- The ids of the members of a component are set. -/
theorem setIds_wp {members componentOf : List ℕ} {id : ℕ}
    (hmembers : ∀ v ∈ members, v < componentOf.length) :
    Result.wp (fun _ => False)
      (members.foldlM (fun componentOf member => vecSet componentOf member id) componentOf)
      fun componentOf' => componentOf'.length = componentOf.length ∧
        ∀ v < componentOf.length, componentOf'[v]? =
          if v ∈ members then some id else componentOf[v]? := by
  have hloop := Result.wp_foldlM (E := fun _ : CompileError => False)
    (f := fun (componentOf : List ℕ) member => vecSet componentOf member id)
    (I := fun done rest (componentOf' : List ℕ) => done ++ rest = members ∧
      componentOf'.length = componentOf.length ∧ ∀ v < componentOf.length, componentOf'[v]? =
        if v ∈ done then some id else componentOf[v]?) ?_ [] members componentOf ⟨rfl, rfl, ?_⟩
  · exact Result.wp_mono hloop fun _ h => h.2
  · rintro done v rest componentOf' ⟨hall, hlen, hids⟩
    have hv : v < componentOf'.length := hlen ▸ hmembers v (by simp [← hall])
    refine (wp_vecSet hv).2 ⟨by simpa using hall, by simpa using hlen, fun w hw => ?_⟩
    by_cases hvw : w = v
    · subst hvw
      simp [List.getElem?_set_self hv]
    · simp [List.getElem?_set_ne (Ne.symm hvw), hids w hw, hvw]
  · simp

/-- The reports of the components so far. -/
structure SccAnalysis.Reports (graph : List (List ℕ)) (done : List (List ℕ × ℕ))
    (analysis : SccAnalysis) : Prop where
  components : analysis.components = done.map fun entry =>
    { id := entry.2, members := entry.1, recursive := isRecursive graph entry.1 }
  length : analysis.componentOf.length = graph.length
  componentOf : ∀ entry ∈ done, ∀ v ∈ entry.1, analysis.componentOf[v]? = some entry.2

theorem SccAnalysis.add_wp {analysis : SccAnalysis} {done : List (List ℕ × ℕ)}
    {entry : List ℕ × ℕ} (h : analysis.Reports graph done) (hid : entry.2 ≤ u32Max)
    (hne : entry.1 ≠ []) (hmembers : ∀ v ∈ entry.1, v < graph.length)
    (hnew : ∀ prior ∈ done, prior.1.Disjoint entry.1) :
    Result.wp (fun _ => False) (SccAnalysis.add graph analysis entry)
      (SccAnalysis.Reports graph (done ++ [entry])) := by
  refine Result.wp_bind.2 ((wp_toU32 hid).2 ?_)
  refine Result.wp_bind.2 (Result.wp_mono (setIds_wp (h.length ▸ hmembers)) ?_)
  rintro componentOf ⟨hlen, hids⟩
  obtain ⟨first, members, hentry⟩ := List.exists_cons_of_ne_nil hne
  have hfirst : first < graph.length := hmembers first (hentry ▸ List.mem_cons_self)
  have hedges := List.getElem?_eq_getElem hfirst
  have hreports : ∀ recursive, recursive = isRecursive graph entry.1 →
      SccAnalysis.Reports graph (done ++ [entry]) {
        components := analysis.components ++
          [{ id := entry.2, members := entry.1, recursive := recursive }]
        componentOf := componentOf } := by
    rintro recursive rfl
    refine ⟨by rw [h.components, List.map_append]; rfl, hlen.trans h.length, ?_⟩
    intro prior hprior v hv
    rcases List.mem_append.1 hprior with hprior | hprior
    · have hold := h.componentOf prior hprior v hv
      dsimp only
      rw [hids v (List.getElem?_eq_some_iff.1 hold).1,
        if_neg fun hv' => hnew prior hprior hv hv', hold]
    · obtain rfl := List.mem_singleton.1 hprior
      dsimp only
      rw [hids v (h.length ▸ hmembers v hv), if_pos hv]
  split
  · next hlong => exact hreports true (by simp [isRecursive, hlong])
  · next hlong =>
    have hget : entry.1[0]? = some first := by rw [hentry]; rfl
    refine Result.wp_bind.2 ((wp_vecGet hget).2 ?_)
    refine Result.wp_bind.2 ((wp_vecGet hedges).2 (hreports _ ?_))
    rw [isRecursive, decide_eq_false hlong, Bool.false_or, hentry, List.headD_cons, hedges]
    rfl

/-- The components are at most as many as the nodes. -/
theorem length_le_of_strict {n : ℕ} (hne : ∀ c ∈ components, c ≠ [])
    (hlt : ∀ c ∈ components, ∀ v ∈ c, v < n)
    (hstrict : components.Pairwise fun c d => c.headD 0 < d.headD 0) : components.length ≤ n := by
  have hnodup : (components.map fun c => c.headD 0).Nodup :=
    List.pairwise_map.2 (hstrict.imp fun h => h.ne)
  have hsub : (components.map fun c => c.headD 0) ⊆ List.range n := by
    intro v hv
    obtain ⟨c, hc, rfl⟩ := List.mem_map.1 hv
    obtain ⟨a, c, rfl⟩ := List.exists_cons_of_ne_nil (hne c hc)
    exact List.mem_range.2 (hlt _ hc a List.mem_cons_self)
  have hle := (hnodup.subperm hsub).length_le
  rwa [List.length_map, List.length_range] at hle

/-- The searches from all nodes close every node. -/
theorem searches_wp (hlen : graph.length ≤ u32Max + 1)
    (hrange : ∀ v w, Edge graph v w → w < graph.length) :
    Result.wp (fun _ => False) ((List.range graph.length).foldlM (Tarjan.visit graph) {
      nextIndex := 0
      indices := List.replicate graph.length none
      lowlink := List.replicate graph.length 0
      onStack := List.replicate graph.length false
      tarjanStack := []
      components := [] }) fun search =>
      ClosedComponents (Edge graph) search.components {v | v < graph.length} := by
  have hloop := Result.wp_foldlM (E := fun _ : CompileError => False) (f := Tarjan.visit graph)
    (I := fun done rest (search : Tarjan) => done ++ rest = List.range graph.length ∧
      (∃ examined closed, Tarjan.Invariant graph search [] examined closed) ∧
      ∀ v ∈ done, search.Seen v) ?_ [] (List.range graph.length) {
      nextIndex := 0
      indices := List.replicate graph.length none
      lowlink := List.replicate graph.length 0
      onStack := List.replicate graph.length false
      tarjanStack := []
      components := [] } ⟨rfl, ⟨fun _ _ => False, ∅, ?_⟩, by simp⟩
  · refine Result.wp_mono hloop ?_
    rintro search ⟨-, ⟨examined, closed, hinv⟩, hseen⟩
    -- with an empty path nothing is left on the stack: what was seen is in a closed component
    have hclosed : closed = {v | v < graph.length} := by
      ext v
      refine ⟨fun hv => hinv.lt_of_mem (.inr hv), fun hv => ?_⟩
      refine ((hinv.seen v).1 (hseen v (by simpa using hv))).resolve_left fun hstack => ?_
      obtain ⟨p, hp, -⟩ := hinv.dfs.covered v hstack
      exact absurd hp List.not_mem_nil
    exact hclosed ▸ hinv.components
  · rintro done root rest search ⟨hall, ⟨examined, closed, hinv⟩, hseen⟩
    have hroot : root < graph.length := by
      have hmem : root ∈ List.range graph.length := by simp [← hall]
      exact List.mem_range.1 hmem
    refine Result.wp_mono (Tarjan.visit_wp hlen hrange hinv hroot) ?_
    rintro search' ⟨hinv', hroot', hkept⟩
    refine ⟨by simpa using hall, hinv', fun v hv => ?_⟩
    rcases List.mem_append.1 hv with hv | hv
    · exact hkept v (hseen v hv)
    · exact List.mem_singleton.1 hv ▸ hroot'
  · exact {
      dfs := .empty _ _ (fun _ _ h => h.elim) (fun v hv => absurd hv (Set.notMem_empty v))
      indices := by simp
      lowlink := by simp
      onStack := by simp
      seen := fun v => by simp [Tarjan.Seen, List.getElem?_replicate]
      mem_stack := fun v => by simp [List.getElem?_replicate]
      index_lt := by simp
      count := by simp [Tarjan.undiscovered]
      components := ⟨by simp, by simp, by simp, .nil, by simp⟩ }

/-- The reports of all components, in the order of their smallest members. -/
theorem reports_wp (hlen : graph.length ≤ u32Max + 1)
    (hcomponents : ClosedComponents (Edge graph) components {v | v < graph.length}) :
    Result.wp (fun _ => False)
      ((sortByKey (fun members : List ℕ => members.headD 0) components).zipIdx.foldlM
        (SccAnalysis.add graph)
        { components := [], componentOf := List.replicate graph.length 0 })
      (SccAnalysis.Reports graph
        (sortByKey (fun members : List ℕ => members.headD 0) components).zipIdx) := by
  have hstrict := hcomponents.strict
  have hlt : ∀ c ∈ components, ∀ v ∈ c, v < graph.length := fun c hc v hv =>
    (hcomponents.mem_closed v).2 ⟨c, hc, hv⟩
  have hperm : (sortByKey (fun members : List ℕ => members.headD 0) components).Perm components :=
    List.perm_insertionSort _ _
  have hdisjoint := (hperm.pairwise_iff fun {c d} hcd => hcd.symm).2 hcomponents.disjoint
  have hmem : ∀ c ∈ sortByKey (fun members : List ℕ => members.headD 0) components,
      c ∈ components :=
    fun c hc => mem_sortByKey.1 hc
  generalize sortByKey (fun members : List ℕ => members.headD 0) components = sorted at *
  have hcount := length_le_of_strict (fun c hc => hcomponents.ne_nil c (hmem c hc))
    (fun c hc => hlt c (hmem c hc)) hstrict
  have hloop := Result.wp_foldlM (E := fun _ : CompileError => False) (f := SccAnalysis.add graph)
    (I := fun done rest (analysis : SccAnalysis) => done ++ rest = sorted.zipIdx ∧
      analysis.Reports graph done) ?_ [] sorted.zipIdx
    { components := [], componentOf := List.replicate graph.length 0 }
    ⟨rfl, ⟨rfl, List.length_replicate, by simp⟩⟩
  · exact Result.wp_mono hloop fun _ h => h.2
  · rintro done entry rest analysis ⟨hall, hreports⟩
    obtain ⟨hindex, hget⟩ := getElem?_of_zipIdx_eq hall.symm
    have hentry := hmem _ (List.mem_of_getElem? hget)
    have hid : entry.2 ≤ u32Max := by
      have := (List.getElem?_eq_some_iff.1 hget).1
      omega
    refine Result.wp_mono (SccAnalysis.add_wp hreports hid (hcomponents.ne_nil _ hentry)
      (hlt _ hentry) ?_) fun analysis' h => ⟨by simpa using hall, h⟩
    intro prior hprior
    have hzip : (sorted.zipIdx.map Prod.fst).Pairwise List.Disjoint := by
      rwa [List.zipIdx_map_fst]
    rw [← hall, List.map_append] at hzip
    exact (List.pairwise_append.1 hzip).2.2 _ (List.mem_map_of_mem hprior) _ (by simp)

end Report

variable {g : Grammar}

/-- **The components are the classes of mutually dependent nonterminals.**  They are numbered by
their smallest members, `component_of` agrees with the members, and a component is recursive exactly
when one of its members depends on itself. -/
theorem analyzeSccs_exact (hg : g.WellFormed) :
    ∃ graph analysis, dependencyGraph g = .ok graph ∧ analyzeSccs g = .ok analysis ∧
      (∀ A B, Edge graph A B ↔ ∃ p ∈ g.productions, p.lhs = A ∧ .nonterminal B ∈ p.rhs) ∧
      analysis.componentOf.length = g.nonterminals.length ∧
      (∀ A < g.nonterminals.length, ∀ B < g.nonterminals.length,
        (analysis.componentOf[A]? = analysis.componentOf[B]? ↔ Mutual (Edge graph) A B)) ∧
      (∀ A < g.nonterminals.length, ∀ i, analysis.componentOf[A]? = some i ↔
        ∃ c, analysis.components[i]? = some c ∧ A ∈ c.members) ∧
      (∀ (i : ℕ) (c : Scc), analysis.components[i]? = some c →
        c.id = i ∧ c.members ≠ [] ∧ c.members.Pairwise (· < ·) ∧
        (∀ A ∈ c.members, A < g.nonterminals.length) ∧
        (c.recursive = true ↔ ∃ A ∈ c.members, Relation.TransGen (Edge graph) A A)) ∧
      analysis.components.Pairwise fun c d => ∃ A ∈ c.members, ∀ B ∈ d.members, A < B := by
  have hwp : Result.wp (fun _ => False) (dependencyGraph g) _ := dependencyGraph_wp hg
  obtain ⟨graph, hgraph, hnodes, hedges⟩ := Result.exists_of_wp hwp
  have hlen : graph.length ≤ u32Max + 1 := hnodes ▸ hg.nonterminals_length
  have hrange : ∀ v w, Edge graph v w → w < graph.length := by
    intro v w hvw
    obtain ⟨p, hp, -, hw⟩ := (hedges v w).1 hvw
    exact hnodes ▸ hg.rhs_inRange p hp _ hw
  obtain ⟨search, hsearch, hcomponents⟩ := Result.exists_of_wp (searches_wp hlen hrange)
  obtain ⟨analysis, hanalysis, hreports⟩ := Result.exists_of_wp (reports_wp hlen hcomponents)
  refine ⟨graph, analysis, hgraph, ?_, hedges, hnodes ▸ hreports.length, ?_⟩
  · refine Result.bind_eq_ok.2 ⟨graph, hgraph, Result.bind_eq_ok.2 ⟨search, hsearch, hanalysis⟩⟩
  have hstrict := hcomponents.strict
  have hmem : ∀ c, c ∈ sortByKey (fun members : List ℕ => members.headD 0) search.components ↔
      c ∈ search.components := fun c => mem_sortByKey
  -- of the sorted components only their members matter; their position is the component's id
  generalize sortByKey (fun members : List ℕ => members.headD 0) search.components = sorted at *
  have hget : ∀ (i : ℕ) (c : Scc), analysis.components[i]? = some c ↔
      ∃ members, sorted[i]? = some members ∧
        (⟨i, members, isRecursive graph members⟩ : Scc) = c := by
    intro i c
    rw [hreports.components, List.getElem?_map, List.getElem?_zipIdx]
    cases sorted[i]? <;> simp
  have hclosed : ∀ A < graph.length, ∃ (i : ℕ) (members : List ℕ), sorted[i]? = some members ∧
      A ∈ members := by
    intro A hA
    obtain ⟨members, hmembers, hmemA⟩ := (hcomponents.mem_closed A).1 hA
    obtain ⟨i, hi⟩ := List.mem_iff_getElem?.1 ((hmem members).2 hmembers)
    exact ⟨i, members, hi, hmemA⟩
  have hset : ∀ {i : ℕ} {members : List ℕ} {A : ℕ}, sorted[i]? = some members → A ∈ members →
      analysis.componentOf[A]? = some i := by
    intro i members A hi hA
    exact hreports.componentOf (members, i) (List.mem_zipIdx_iff_getElem?.2 hi) A hA
  -- `component_of` answers with the position of the component that has the nonterminal
  have hindex : ∀ A < graph.length, ∀ i : ℕ, analysis.componentOf[A]? = some i ↔
      ∃ members, sorted[i]? = some members ∧ A ∈ members := by
    intro A hA i
    constructor
    · intro hi
      obtain ⟨j, members, hj, hmemA⟩ := hclosed A hA
      obtain rfl := Option.some.inj (hi.symm.trans (hset hj hmemA))
      exact ⟨members, hj, hmemA⟩
    · rintro ⟨members, hi, hmemA⟩
      exact hset hi hmemA
  have hsorted : ∀ {i : ℕ} {members : List ℕ}, sorted[i]? = some members →
      members ∈ search.components :=
    fun hi => (hmem _).1 (List.mem_of_getElem? hi)
  rw [← hnodes]
  refine ⟨fun A hA B hB => ?_, fun A hA i => ?_, fun i c hc => ?_, ?_⟩
  · obtain ⟨i, members, hi, hmemA⟩ := hclosed A hA
    rw [hcomponents.classes members (hsorted hi) A hmemA B, hset hi hmemA, eq_comm, hindex B hB]
    constructor
    · rintro ⟨found, hfound, hmemB⟩
      obtain rfl := Option.some.inj (hi.symm.trans hfound)
      exact hmemB
    · exact fun hmemB => ⟨members, hi, hmemB⟩
  · rw [hindex A hA]
    constructor
    · rintro ⟨members, hi, hmemA⟩
      exact ⟨_, (hget i _).2 ⟨members, hi, rfl⟩, hmemA⟩
    · rintro ⟨c, hc, hmemA⟩
      obtain ⟨members, hi, rfl⟩ := (hget i c).1 hc
      exact ⟨members, hi, hmemA⟩
  · obtain ⟨members, hi, rfl⟩ := (hget i c).1 hc
    have hmembers := hsorted hi
    have hascending := hcomponents.ascending members hmembers
    refine ⟨rfl, hcomponents.ne_nil members hmembers, hascending, fun A hA => ?_, ?_⟩
    · exact (hcomponents.mem_closed A).2 ⟨members, hmembers, hA⟩
    · exact isRecursive_iff (hcomponents.ne_nil members hmembers) (hascending.imp fun h => h.ne)
        (hcomponents.classes members hmembers)
  · have hordered : sorted.Pairwise fun c d => ∃ A ∈ c, ∀ B ∈ d, A < B := by
      refine hstrict.imp_of_mem fun {c d} hc hd hlt => ?_
      obtain ⟨A, c, rfl⟩ := List.exists_cons_of_ne_nil (hcomponents.ne_nil c ((hmem c).1 hc))
      obtain ⟨B, d, rfl⟩ := List.exists_cons_of_ne_nil (hcomponents.ne_nil d ((hmem d).1 hd))
      refine ⟨A, List.mem_cons_self, List.forall_mem_cons.2 ⟨hlt, fun D hD => ?_⟩⟩
      have hascending := hcomponents.ascending _ ((hmem _).1 hd)
      exact hlt.trans ((List.pairwise_cons.1 hascending).1 D hD)
    rw [hreports.components, List.pairwise_map]
    rw [← List.zipIdx_map_fst 0 sorted, List.pairwise_map] at hordered
    exact hordered

/-- `A → B`, `B → A` and `C → A`. -/
def mutualGrammar : Grammar where
  start := 0
  nonterminals := [⟨0, "C", .root⟩, ⟨1, "A", .root⟩, ⟨2, "B", .root⟩]
  terminals := []
  productions := [⟨0, 1, [.nonterminal 2], .root⟩, ⟨1, 2, [.nonterminal 1], .root⟩,
    ⟨2, 0, [.nonterminal 1], .root⟩]

theorem mutualGrammar_wellFormed : mutualGrammar.WellFormed :=
  .of_ids (by decide) rfl rfl rfl (by decide) (by decide) (by decide) (by decide) (by decide)
    (by decide)

theorem analyzeSccs_exact_mutual :
    ∃ graph analysis, dependencyGraph mutualGrammar = .ok graph ∧
      analyzeSccs mutualGrammar = .ok analysis ∧
      (analysis.componentOf[1]? = analysis.componentOf[2]? ↔ Mutual (Edge graph) 1 2) := by
  obtain ⟨graph, analysis, hgraph, hanalysis, -, -, hsame, -⟩ :=
    analyzeSccs_exact mutualGrammar_wellFormed
  exact ⟨graph, analysis, hgraph, hanalysis, hsame 1 (by decide) 2 (by decide)⟩

/-- The nonterminals that depend on each other come after the one that is in no cycle. -/
example : analyzeSccs mutualGrammar = .ok {
    components := [⟨0, [0], false⟩, ⟨1, [1, 2], true⟩]
    componentOf := [0, 1, 1] } := by decide +kernel

end OcEarley

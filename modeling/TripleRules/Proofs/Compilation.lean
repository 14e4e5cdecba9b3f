import TripleRules.Proofs.Checks
import TripleRules.Proofs.Widening

/-!
# What compiling leaves

Every request of a compilation succeeds on a wired network, keeps it wired, and leads one step further along the conditions of the
rule. So a rule that passes its check gets a production below the join of all its conditions, and the productions of the earlier
rules stay where they are.
-/

namespace TripleRules.Network

/-! ## Networks with the same nodes -/

/-- The tree is a matter of the nodes. -/
theorem Tree.of_nodes {n n' : Network} (h : n.Tree) (hn : n'.nodes = n.nodes) : n'.Tree where
  top := hn ▸ h.top
  top_only := hn ▸ h.top_only
  parent_lt := hn ▸ h.parent_lt
  parent_carries := hn ▸ h.parent_carries
  child_iff := hn ▸ h.child_iff

/-- The labels are a matter of the nodes and of what the keys stand for. -/
theorem Labelled.of_nodes {n n' : Network} (h : n.Labelled) (hn : n'.nodes = n.nodes) (hk : n'.alpha.Keyed)
    (hf : ∀ k a, n.alpha.byKey.find? k = some a → n'.alpha.byKey.find? k = some a) : n'.Labelled where
  toTree := h.toTree.of_nodes hn
  keyed := hk
  join_alpha hj := hf _ _ (h.join_alpha (hn ▸ hj))
  join_tests hj := by
    obtain ⟨js, hjs, ht⟩ := h.join_tests (hn ▸ hj)
    exact ⟨js, hjs.of_nodes hn, ht⟩

/-- The wiring is a matter of the nodes and the alpha memories. -/
theorem Wired.of_nodes {n n' : Network} (h : n.Wired) (hn : n'.nodes = n.nodes) (ha : n'.alpha = n.alpha) : n'.Wired := by
  refine { h.toLabelled.of_nodes hn (by rw [ha]; exact h.keyed) (by rw [ha]; exact fun _ _ hk => hk) with successors := ?_ }
  rw [ha, hn]
  exact h.successors

/-- A change that leaves the nodes, what has arrived, the batch and the rules as they are deepens the network. -/
theorem deepens_of_nodes {n n' : Network} (hn : n'.nodes = n.nodes) (ha : ∀ a : AlphaId, n'.arrived a = n.arrived a)
    (hb : n.SameBatch n') (hp : n'.productions = n.productions) (hname : n'.byName = n.byName) : n.Deepens n' where
  toSameBatch := hb
  nodes hx := hn ▸ (Widens.refl n).nodes hx
  nodes_new hx hnone := (Widens.refl n).nodes_new (hn ▸ hx) hnone
  arrived := ha
  production_old h := hn ▸ h
  productions := hp
  byName := hname

/-! ## Grafts keep the wiring -/

/-- A join after a graft is the new node, or was there before. -/
theorem join_of_graft {n n' : Network} {up : NodeId} {x : Node} (hg : n.graft up x = .ok n') (hup : up < n.nodes.size)
    {id : NodeId} {j' : JoinNode} (hj : n'.nodes[id]? = some (.join j')) :
    (id = n.nodes.size ∧ x = .join j') ∨ ∃ j cs, n.nodes[id]? = some (.join j) ∧ j' = { j with children := cs } := by
  rcases graft_cases hg hup hj with ⟨hid, rfl⟩ | ⟨z, cs, hz, he⟩
  · exact Or.inl ⟨hid, rfl⟩
  · cases z with
    | join j => exact Or.inr ⟨j, cs, hz, Node.join.inj he⟩
    | top es => nomatch he
    | memory m => nomatch he
    | production p => nomatch he

/-- The readers of a memory after a graft are those from before, and the new node if it reads the memory. -/
theorem join_iff_of_graft {n n' : Network} {up : NodeId} {x : Node} (hg : n.graft up x = .ok n') (hup : up < n.nodes.size)
    (id : NodeId) (a : AlphaId) :
    (∃ j, n'.nodes[id]? = some (.join j) ∧ j.alpha = a) ↔
      (id = n.nodes.size ∧ ∃ k, x = .join k ∧ k.alpha = a) ∨ ∃ j, n.nodes[id]? = some (.join j) ∧ j.alpha = a := by
  constructor
  · rintro ⟨j', hj', ha⟩
    rcases join_of_graft hg hup hj' with ⟨hid, hx⟩ | ⟨j, cs, hj, rfl⟩
    · exact Or.inl ⟨hid, j', hx, ha⟩
    · exact Or.inr ⟨j, hj, ha⟩
  · rintro (⟨rfl, k, rfl, ha⟩ | ⟨j, hj, ha⟩)
    · obtain ⟨-, _, _, -, hn⟩ := getElem?_graft hg hup
      exact ⟨k, by rw [hn, if_pos rfl], ha⟩
    · obtain ⟨cs, hj'⟩ := exists_of_graft hg hup hj
      exact ⟨_, hj', ha⟩

/-- A graft keeps the joins labelled, if a new join is. -/
theorem labelled_graft {n n' : Network} (h : n.Labelled) {up : NodeId} {x y : Node} (hg : n.graft up x = .ok n')
    (hy : n.nodes[up]? = some y) (hc : y.carries x) (hp : x.parent? = some up) (hx : x.children = []) (hheld : x.held = [])
    (hjoin : ∀ k, x = .join k → n.alpha.byKey.find? k.condition.key = some k.alpha ∧
      ∃ js, n.Path topNode k.parent js ∧ k.tests = k.condition.tests (js.map (·.condition))) : n'.Labelled := by
  have hup : up < n.nodes.size := (Array.getElem?_eq_some_iff.1 hy).1
  have halpha : n'.alpha = n.alpha := by rw [(getElem?_graft hg hup).1]
  have hw := widens_graft hg hup hheld
  have htests : ∀ k : JoinNode, (∃ js, n.Path topNode k.parent js ∧ k.tests = k.condition.tests (js.map (·.condition))) →
      ∃ js, n'.Path topNode k.parent js ∧ k.tests = k.condition.tests (js.map (·.condition)) := by
    rintro k ⟨js, hpath, ht⟩
    obtain ⟨js', hpath', hcs⟩ := hw.path hpath
    exact ⟨js', hpath', by rw [hcs, ht]⟩
  refine { tree_graft h.toTree hg hy hc hp hx with keyed := ?_, join_alpha := ?_, join_tests := ?_ }
  · rw [halpha]
    exact h.keyed
  · intro id j' hj'
    rw [halpha]
    rcases join_of_graft hg hup hj' with ⟨-, hk⟩ | ⟨j, cs, hj, rfl⟩
    · exact (hjoin j' hk).1
    · have ha := h.join_alpha hj
      exact ha
  · intro id j' hj'
    rcases join_of_graft hg hup hj' with ⟨-, hk⟩ | ⟨j, cs, hj, rfl⟩
    · exact htests j' (hjoin j' hk).2
    · have ht := htests j (h.join_tests hj)
      exact ht

/-- Putting a memory or a production below a join keeps a network wired. -/
theorem wired_graft {n n' : Network} (h : n.Wired) {up : NodeId} {x : Node} {j : JoinNode} (hg : n.graft up x = .ok n')
    (hj : n.nodes[up]? = some (.join j)) (hc : (Node.join j).carries x) (hp : x.parent? = some up) (hx : x.children = [])
    (hheld : x.held = []) : n'.Wired := by
  have hup : up < n.nodes.size := (Array.getElem?_eq_some_iff.1 hj).1
  have hnot : ∀ k, x ≠ .join k := by
    rintro k rfl
    nomatch hc
  refine { labelled_graft h.toLabelled hg hj hc hp hx hheld fun k hk => absurd hk (hnot k) with successors := ?_ }
  intro a m hm id
  have halpha : n'.alpha = n.alpha := by rw [(getElem?_graft hg hup).1]
  rw [halpha] at hm
  rw [join_iff_of_graft hg hup, h.successors hm]
  simp [hnot]

/-! ## A new reader of a memory -/

/-- An alpha memory that is there gets its new reader. -/
theorem exists_enlist {n : Network} {a : AlphaId} (ha : a < n.alpha.size) (join : NodeId) :
    ∃ n', n.enlist a join = .ok (join, n') ∧ n'.nodes = n.nodes ∧ n'.alpha = n.alpha.modify a (·.addSuccessor join) ∧
      n.Deepens n' := by
  refine ⟨{ n with
    alpha := n.alpha.modify a (·.addSuccessor join)
    sharing.joinsCreated := n.sharing.joinsCreated + 1 }, if_pos ha, rfl, rfl, ?_⟩
  refine deepens_of_nodes rfl (fun b => ?_) ⟨rfl, rfl, rfl, rfl, rfl, rfl, rfl, rfl⟩ rfl rfl
  rw [arrived, AlphaIndex.get?_modify, arrived]
  split
  · cases n.alpha.get? b with
    | none => rfl
    | some m =>
      rw [Option.map_some, Option.elim_some, AlphaMemory.addSuccessor]
      split <;> rfl
  · rfl

/-- Putting a join below a node that may carry it, and making it a reader of its memory, keeps a network wired. -/
theorem wired_graft_join {n : Network} (h : n.Wired) {up : NodeId} {y : Node} {s : Stage} {a : AlphaId} {js : List JoinNode}
    (hy : n.nodes[up]? = some y) (hc : y.carries (.join ⟨a, s.tests, s.condition, up, []⟩)) (hpath : n.Path topNode up js)
    (hs : s.tests = s.condition.tests (js.map (·.condition))) (ha : n.alpha.byKey.find? s.condition.key = some a) :
    ∃ n', (n.graft up (.join ⟨a, s.tests, s.condition, up, []⟩)).bind (·.enlist a n.nodes.size) = .ok (n.nodes.size, n') ∧
      n'.Wired ∧ n.Deepens n' ∧ n'.JoinOf n.nodes.size (s.condition :: js.map (·.condition)) := by
  have hup : up < n.nodes.size := (Array.getElem?_eq_some_iff.1 hy).1
  obtain ⟨n₁, hg⟩ := exists_graft hy hc
  have halpha : n₁.alpha = n.alpha := by rw [(getElem?_graft hg hup).1]
  obtain ⟨m, hm, -⟩ := (h.keyed _ a).1 ha
  obtain ⟨n₂, he, hnodes, halpha₂, hd₂⟩ := exists_enlist (n := n₁) (a := a)
    (by rw [halpha]; exact AlphaIndex.lt_size_of_get? hm) n.nodes.size
  have hd₁ := deepens_graft hg hup rfl rfl
  have hl := labelled_graft h.toLabelled hg hy hc rfl rfl rfl fun k hk => by
    obtain rfl := Node.join.inj hk
    exact ⟨ha, js, hpath, hs⟩
  have hl₂ : n₂.Labelled := by
    refine hl.of_nodes hnodes ?_ ?_
    · rw [halpha₂]
      exact AlphaIndex.keyed_modify hl.keyed a fun m => by
        unfold AlphaMemory.addSuccessor
        split <;> rfl
    · rw [halpha₂]
      exact fun _ _ hk => hk
  refine ⟨n₂, by rw [hg]; exact he, ?_, hd₁.trans hd₂, ?_⟩
  · refine { hl₂ with successors := ?_ }
    · intro b m' hm' id
      rw [hnodes, join_iff_of_graft hg hup]
      rw [halpha₂, AlphaIndex.get?_modify, halpha] at hm'
      split at hm'
      · rename_i hab
        subst hab
        obtain ⟨m₀, hm₀, rfl⟩ := Option.map_eq_some_iff.1 hm'
        rw [AlphaMemory.mem_successors_addSuccessor, h.successors hm₀]
        simp
      · rename_i hab
        rw [h.successors hm']
        simp [hab]
  · obtain ⟨-, _, _, -, hn⟩ := getElem?_graft hg hup
    obtain ⟨js', hpath', hjs'⟩ := hd₁.path hpath
    exact ⟨_, js', by rw [hnodes, hn, if_pos rfl], hpath'.of_nodes hnodes, by rw [hjs']⟩

/-! ## Requests -/

/-- Asking for the memory of a stage changes the index and the counters. -/
theorem requestAlpha_eq (n : Network) (s : Stage) :
    ∃ sharing, n.requestAlpha s = ((n.alpha.request s.condition.predicate s.condition.object s.excluded).1,
      { n with alpha := (n.alpha.request s.condition.predicate s.condition.object s.excluded).2, sharing }) := ⟨_, rfl⟩

/-- A stage gets the memory of its key. -/
theorem requestAlpha_ok {n : Network} (h : n.Wired) (s : Stage) :
    ∃ a n', n.requestAlpha s = (a, n') ∧ n'.Wired ∧ n.Deepens n' ∧ n'.nodes = n.nodes ∧
      n'.alpha.byKey.find? s.condition.key = some a := by
  obtain ⟨sharing, he⟩ := requestAlpha_eq n s
  generalize hn' : { n with
    alpha := (n.alpha.request s.condition.predicate s.condition.object s.excluded).2, sharing } = n' at he
  have hnodes : n'.nodes = n.nodes := by rw [← hn']
  have halpha : n'.alpha = (n.alpha.request s.condition.predicate s.condition.object s.excluded).2 := by rw [← hn']
  refine ⟨_, n', he, ?_, ?_, hnodes, by rw [halpha]; exact AlphaIndex.find?_request _ _ _ _⟩
  · have hl : n'.Labelled := by
      refine h.toLabelled.of_nodes hnodes ?_ ?_
      · rw [halpha]
        exact AlphaIndex.keyed_request h.keyed _ _ _
      · rw [halpha]
        exact fun _ _ hk => AlphaIndex.find?_request_of_some hk _ _ _
    refine { hl with successors := ?_ }
    intro a m' hm' id
    rw [halpha] at hm'
    rw [hnodes]
    rcases AlphaIndex.get?_request hm' with ⟨m, hm, hs⟩ | ⟨rfl, hs⟩
    · rw [hs]
      exact h.successors hm id
    · -- no join reads a memory that was not there
      rw [hs]
      refine ⟨fun hid => absurd hid List.not_mem_nil, ?_⟩
      rintro ⟨j, hj, ha⟩
      obtain ⟨m, hm, -⟩ := (h.keyed _ _).1 (h.join_alpha hj)
      exact absurd (ha ▸ AlphaIndex.lt_size_of_get? hm) (Nat.lt_irrefl _)
  · refine deepens_of_nodes hnodes (fun a => ?_) ?_ (by rw [← hn']) (by rw [← hn'])
    · rw [arrived, halpha, AlphaIndex.facts_request, arrived]
    · rw [← hn']
      exact ⟨rfl, rfl, rfl, rfl, rfl, rfl, rfl, rfl⟩

/-- A child that a search finds is a child, and passes the check. -/
theorem findChild?_eq_some {n : Network} (h : n.Tree) {up id : NodeId} {p : Node → Bool} (hf : n.findChild? up p = some id) :
    ∃ x, n.nodes[id]? = some x ∧ x.parent? = some up ∧ p x = true := by
  obtain ⟨y, hy, hfind⟩ := Option.bind_eq_some_iff.1 hf
  obtain ⟨x, hx, hp⟩ := (h.child_iff hy id).1 (List.mem_of_find?_eq_some hfind)
  have hpx := List.find?_some hfind
  rw [hx] at hpx
  exact ⟨x, hx, hp, hpx⟩

/-- A stage gets its join below a node that may carry joins. -/
theorem requestJoin_ok {n : Network} (h : n.Wired) {up : NodeId} {y : Node} {s : Stage} {a : AlphaId} {js : List JoinNode}
    (hy : n.nodes[up]? = some y) (hc : ∀ j, y.carries (.join j)) (hpath : n.Path topNode up js)
    (hs : s.tests = s.condition.tests (js.map (·.condition))) (ha : n.alpha.byKey.find? s.condition.key = some a) :
    ∃ id n', n.requestJoin up a s = .ok (id, n') ∧ n'.Wired ∧ n.Deepens n' ∧
      n'.JoinOf id (s.condition :: js.map (·.condition)) := by
  rw [requestJoin_eq]
  split
  · rename_i id hf
    obtain ⟨x, hx, hp, hserves⟩ := findChild?_eq_some h.toTree hf
    cases x with
    | join j =>
      obtain rfl := Option.some.inj hp
      have hcond : j.condition = s.condition := by
        simp only [Node.serves, JoinNode.serves, Bool.and_eq_true, beq_iff_eq] at hserves
        exact hserves.2
      refine ⟨id, { n with sharing.joinsShared := n.sharing.joinsShared + 1 }, rfl, h.of_nodes rfl rfl,
        deepens_of_nodes rfl (fun _ => rfl) ⟨rfl, rfl, rfl, rfl, rfl, rfl, rfl, rfl⟩ rfl rfl, ?_⟩
      refine ⟨j, js, hx, hpath.of_nodes ?_, by rw [hcond]⟩
      rfl
    | top cs => nomatch hserves
    | memory m => nomatch hserves
    | production p => nomatch hserves
  · obtain ⟨n', hn', hw, hd, hj⟩ := wired_graft_join h hy (hc _) hpath hs ha
    exact ⟨_, n', hn', hw, hd, hj⟩

/-- A join gets the memory below it. -/
theorem requestMemory_ok {n : Network} (h : n.Wired) {join : NodeId} {j : JoinNode} (hj : n.nodes[join]? = some (.join j)) :
    ∃ id n' m, n.requestMemory join = .ok (id, n') ∧ n'.Wired ∧ n.Deepens n' ∧ n'.nodes[id]? = some (.memory m) ∧
      m.parent = join := by
  rw [requestMemory_eq]
  split
  · rename_i id hf
    obtain ⟨x, hx, hp, hm⟩ := findChild?_eq_some h.toTree hf
    cases x with
    | memory m =>
      exact ⟨_, _, m, rfl, h.of_nodes rfl rfl,
        deepens_of_nodes rfl (fun _ => rfl) ⟨rfl, rfl, rfl, rfl, rfl, rfl, rfl, rfl⟩ rfl rfl, hx, Option.some.inj hp⟩
    | top cs => nomatch hm
    | join k => nomatch hm
    | production p => nomatch hm
  · obtain ⟨n₁, hg⟩ := exists_graft (x := .memory ⟨join, [], #[]⟩) hj rfl
    have hup : join < n.nodes.size := (Array.getElem?_eq_some_iff.1 hj).1
    obtain ⟨-, _, _, -, hn⟩ := getElem?_graft hg hup
    have hw := wired_graft h hg hj rfl rfl rfl rfl
    have hd := deepens_graft hg hup (x := .memory ⟨join, [], #[]⟩) rfl rfl
    refine ⟨n.nodes.size, { n₁ with sharing.memoriesCreated := n₁.sharing.memoriesCreated + 1 }, ⟨join, [], #[]⟩,
      by rw [hg]; rfl, hw.of_nodes rfl rfl, hd.trans ?_, by rw [hn, if_pos rfl], rfl⟩
    exact deepens_of_nodes rfl (fun _ => rfl) ⟨rfl, rfl, rfl, rfl, rfl, rfl, rfl, rfl⟩ rfl rfl

/-- A stage gets its memory and its join below a node that may carry joins. -/
theorem addStage_ok {n : Network} (h : n.Wired) {up : NodeId} {y : Node} {s : Stage} {js : List JoinNode}
    (hy : n.nodes[up]? = some y) (hc : ∀ j, y.carries (.join j)) (hpath : n.Path topNode up js)
    (hs : s.tests = s.condition.tests (js.map (·.condition))) :
    ∃ id n', n.addStage up s = .ok (id, n') ∧ n'.Wired ∧ n.Deepens n' ∧
      n'.JoinOf id (s.condition :: js.map (·.condition)) := by
  obtain ⟨a, n₁, he, hw, hd, hn, ha⟩ := requestAlpha_ok h s
  obtain ⟨id, n₂, hr, hw₂, hd₂, hj⟩ := requestJoin_ok hw (by rw [hn]; exact hy) hc (hpath.of_nodes hn) hs ha
  exact ⟨id, n₂, by rw [addStage, he]; exact hr, hw₂, hd.trans hd₂, hj⟩

/-- The stages of further conditions get their joins below the join of the earlier ones. -/
theorem addStages_ok {n : Network} (h : n.Wired) (r : Rule) {join : NodeId} {earlier : List Condition}
    (hj : n.JoinOf join earlier) (cs : List Condition) :
    ∃ last n', n.addStages join (r.stagesAfter earlier cs) = .ok (last, n') ∧ n'.Wired ∧ n.Deepens n' ∧
      n'.JoinOf last (cs.reverse ++ earlier) := by
  induction cs generalizing n join earlier with
  | nil => exact ⟨join, n, rfl, h, .refl n, hj⟩
  | cons c cs ih =>
    obtain ⟨j, js, hjn, hpath, rfl⟩ := hj
    obtain ⟨mid, n₁, m, hm, hw₁, hd₁, hmn, hmp⟩ := requestMemory_ok h hjn
    obtain ⟨ds, hjn₁⟩ := hd₁.join hjn
    obtain ⟨js₁, hpath₁, hjs₁⟩ := hd₁.path hpath
    have hmid : n₁.Path topNode mid ({ j with children := ds } :: js₁) :=
      .down hmn (congrArg some hmp) hjn₁ hpath₁
    obtain ⟨next, n₂, hs, hw₂, hd₂, hj₂⟩ := addStage_ok hw₁ (s := ⟨c, c.tests (j.condition :: js.map (·.condition)),
      r.excludedBy c⟩) hmn (fun _ => rfl) hmid (by rw [List.map_cons, hjs₁])
    rw [List.map_cons, hjs₁] at hj₂
    obtain ⟨last, n₃, hss, hw₃, hd₃, hj₃⟩ := ih hw₂ hj₂
    refine ⟨last, n₃, ?_, hw₃, (hd₁.trans hd₂).trans hd₃, ?_⟩
    · simp only [Rule.stagesAfter, addStages, hm, hs, Bind.bind, Except.bind, hss]
    · rw [List.reverse_cons, List.append_assoc]
      exact hj₃

/-! ## Rules -/

/-- A production of a rule below the joins of its conditions. -/
def ProductionOf (n : Network) (id : NodeId) (r : Rule) : Prop :=
  ∃ p js, n.nodes[id]? = some (.production p) ∧ p.rule = r.name ∧ p.select = r.select ∧ n.Path topNode id js ∧
    js.map (·.condition) = r.conditions.reverse

/-- Whether a production is that of the newest of some rules that have a name. -/
def Newest (n : Network) (rs : List Rule) (name : String) (id : NodeId) : Prop :=
  ∃ (i : Nat) (r : Rule), rs[i]? = some r ∧ r.name = name ∧ n.productions[i]? = some id ∧
    ∀ (k : Nat) (r' : Rule), rs[k]? = some r' → r'.name = name → k ≤ i

/-- The productions of a network are those of some rules, in their order, and each name stands for that of its newest rule. -/
structure Registered (n : Network) (rs : List Rule) : Prop where
  size : n.productions.size = rs.length
  production : ∀ {i : Nat} {id : NodeId} {r : Rule}, n.productions[i]? = some id → rs[i]? = some r → n.ProductionOf id r
  listed : ∀ {id : NodeId} {p : ProductionNode}, n.nodes[id]? = some (.production p) →
    ∃ i : Nat, n.productions[i]? = some id
  named : ∀ {name : String} {id : NodeId}, n.byName.find? name = some id ↔ n.Newest rs name id
  checked : ∀ r ∈ rs, r.check = .ok ()

/-- A production is that of one of the rules. -/
theorem Registered.exists_rule {n : Network} {rs : List Rule} (h : n.Registered rs) {id : NodeId} {p : ProductionNode}
    (hp : n.nodes[id]? = some (.production p)) : ∃ (i : Nat) (r : Rule), n.productions[i]? = some id ∧ rs[i]? = some r ∧
      p.rule = r.name ∧ p.select = r.select ∧
      ∃ js, n.Path topNode id js ∧ js.map (·.condition) = r.conditions.reverse := by
  obtain ⟨i, hi⟩ := h.listed hp
  have hlt : i < rs.length := by
    rw [← h.size]
    exact (Array.getElem?_eq_some_iff.1 hi).1
  obtain ⟨q, js, hq, hname, hselect, hpath, hjs⟩ := h.production hi (List.getElem?_eq_getElem hlt)
  obtain rfl := Node.production.inj (Option.some.inj (hp.symm.trans hq))
  exact ⟨i, rs[i], hi, List.getElem?_eq_getElem hlt, hname, hselect, js, hpath, hjs⟩

/-- In a network that gets wider a rule keeps its production. -/
theorem Widens.productionOf {n n' : Network} (h : n.Widens n') {id : NodeId} {r : Rule} (hp : n.ProductionOf id r) :
    n'.ProductionOf id r := by
  obtain ⟨p, js, hpn, hname, hselect, hpath, hjs⟩ := hp
  obtain ⟨cs, hpn'⟩ := h.nodes hpn
  obtain ⟨js', hpath', hjs'⟩ := h.path hpath
  exact ⟨p, js', hpn', hname, hselect, hpath', by rw [hjs', hjs]⟩

/-- A rule that is compiled takes its name over, and the other names keep their newest rules. -/
theorem newest_append {n n' : Network} {rs : List Rule} (hsize : n.productions.size = rs.length) {new : NodeId} {r : Rule}
    (hprods : n'.productions = n.productions.push new) {name : String} {id : NodeId} :
    n'.Newest (rs ++ [r]) name id ↔ if name = r.name then new = id else n.Newest rs name id := by
  have hget : ∀ i, n'.productions[i]? = if i = rs.length then some new else n.productions[i]? := fun i => by
    rw [hprods, Array.getElem?_push, hsize]
  split
  · rename_i hname
    constructor
    · rintro ⟨i, r', hi, -, hid, hmax⟩
      have hle := hmax rs.length r (List.getElem?_append_singleton_eq_some.2 (Or.inr ⟨rfl, rfl⟩)) hname.symm
      rcases List.getElem?_append_singleton_eq_some.1 hi with hold | ⟨rfl, -⟩
      · exact absurd (List.getElem?_eq_some_iff.1 hold).1 (Nat.not_lt.2 hle)
      · rw [hget, if_pos rfl] at hid
        exact Option.some.inj hid
    · rintro rfl
      refine ⟨rs.length, r, List.getElem?_append_singleton_eq_some.2 (Or.inr ⟨rfl, rfl⟩), hname.symm,
        by rw [hget, if_pos rfl], fun k r' hk _ => ?_⟩
      have hlt := (List.getElem?_eq_some_iff.1 hk).1
      rw [List.length_append, List.length_singleton] at hlt
      exact Nat.le_of_lt_succ hlt
  · rename_i hname
    have hold : ∀ {i : Nat} {r' : Rule}, r'.name = name → ((rs ++ [r])[i]? = some r' ↔ rs[i]? = some r') := by
      intro i r' hr'
      rw [List.getElem?_append_singleton_eq_some]
      refine ⟨fun h => h.resolve_right ?_, Or.inl⟩
      rintro ⟨-, rfl⟩
      exact hname hr'.symm
    constructor
    · rintro ⟨i, r', hi, hr', hid, hmax⟩
      rw [hold hr'] at hi
      rw [hget, if_neg (Nat.ne_of_lt (List.getElem?_eq_some_iff.1 hi).1)] at hid
      exact ⟨i, r', hi, hr', hid, fun k q hk hq => hmax k q ((hold hq).2 hk) hq⟩
    · rintro ⟨i, r', hi, hr', hid, hmax⟩
      refine ⟨i, r', (hold hr').2 hi, hr', ?_, fun k q hk hq => hmax k q ((hold hq).1 hk) hq⟩
      rw [hget, if_neg (Nat.ne_of_lt (List.getElem?_eq_some_iff.1 hi).1), hid]

/-- A network that gets wider without a new production keeps the rules that it has. -/
theorem Registered.of_deepens {n n' : Network} {rs : List Rule} (hr : n.Registered rs) (hd : n.Deepens n') : n'.Registered rs where
  size := by rw [hd.productions, hr.size]
  production {i id r} hi hr' := by
    rw [hd.productions] at hi
    exact hd.toWidens.productionOf (hr.production hi hr')
  listed hp := by
    rw [hd.productions]
    exact hr.listed (hd.production_old hp)
  named {name id} := by rw [hd.byName, hr.named, Newest, Newest, hd.productions]
  checked := hr.checked

/-- A network with one production more has one rule more. -/
theorem Registered.append {n n' : Network} {rs : List Rule} (hr : n.Registered rs) (hw : n.Widens n') {new : NodeId} {r : Rule}
    (hprods : n'.productions = n.productions.push new) (hnames : n'.byName = n.byName.insert r.name new)
    (hnew : n'.ProductionOf new r)
    (hold : ∀ {id : NodeId} {p : ProductionNode}, n'.nodes[id]? = some (.production p) →
      id = new ∨ n.nodes[id]? = some (.production p)) (hc : r.check = .ok ()) : n'.Registered (rs ++ [r]) where
  size := by
    rw [hprods, Array.size_push, List.length_append, hr.size]
    rfl
  production {i id r'} hi hr' := by
    rw [hprods, Array.getElem?_push] at hi
    split at hi
    · rename_i hi₀
      obtain rfl := Option.some.inj hi
      rw [hi₀, hr.size, List.getElem?_concat_length] at hr'
      obtain rfl := Option.some.inj hr'
      exact hnew
    · have hlt : i < rs.length := by
        rw [← hr.size]
        exact (Array.getElem?_eq_some_iff.1 hi).1
      rw [List.getElem?_append_left hlt] at hr'
      exact hw.productionOf (hr.production hi hr')
  listed {id p} hp := by
    rcases hold hp with rfl | hp
    · exact ⟨n.productions.size, by rw [hprods, Array.getElem?_push, if_pos rfl]⟩
    · obtain ⟨i, hi⟩ := hr.listed hp
      have hne : i ≠ n.productions.size := Nat.ne_of_lt (Array.getElem?_eq_some_iff.1 hi).1
      exact ⟨i, by rw [hprods, Array.getElem?_push, if_neg hne, hi]⟩
  named {name id} := by
    rw [newest_append hr.size hprods, hnames, Table.find?_insert]
    split
    · exact Option.some_inj
    · exact hr.named
  checked r' hr' := by
    rcases List.mem_append.1 hr' with hr' | hr'
    · exact hr.checked r' hr'
    · rw [List.mem_singleton.1 hr', hc]

/-- A rule gets a production below the join of all its conditions, and the other rules keep theirs. -/
theorem addProduction_ok {n : Network} (h : n.Wired) {rs : List Rule} (hr : n.Registered rs) {join : NodeId} {r : Rule}
    (hc : r.check = .ok ()) (hj : n.JoinOf join r.conditions.reverse) :
    ∃ id n', n.addProduction join r = .ok (id, n') ∧ n'.Wired ∧ n.Widens n' ∧ n'.Registered (rs ++ [r]) := by
  obtain ⟨j, js, hjn, hpath, hjs⟩ := hj
  obtain ⟨n₁, hg⟩ := exists_graft (x := .production ⟨join, r.name, r.select, r.conditions.length, #[]⟩) hjn rfl
  have hup : join < n.nodes.size := (Array.getElem?_eq_some_iff.1 hjn).1
  obtain ⟨he, _, _, -, hn⟩ := getElem?_graft hg hup
  have hw := wired_graft h hg hjn rfl rfl rfl rfl
  have hwid := widens_graft hg hup (x := .production ⟨join, r.name, r.select, r.conditions.length, #[]⟩) rfl
  have hwid' : n.Widens (n₁.register r n.nodes.size) :=
    ⟨⟨hwid.tokens, hwid.facts, hwid.seen, hwid.stored, hwid.satisfied, hwid.touchedAlphas, hwid.touchedNodes, hwid.pending⟩,
      hwid.nodes, hwid.nodes_new, hwid.arrived⟩
  have hprods : (n₁.register r n.nodes.size).productions = n.productions.push n.nodes.size := by
    rw [register, he]
  have hnames : (n₁.register r n.nodes.size).byName = n.byName.insert r.name n.nodes.size := by
    rw [register, he]
  have hnew : (n₁.register r n.nodes.size).ProductionOf n.nodes.size r := by
    obtain ⟨cs, hjn'⟩ := hwid'.join hjn
    obtain ⟨js', hpath', hjs'⟩ := hwid'.path hpath
    have hpn : (n₁.register r n.nodes.size).nodes[n.nodes.size]? =
        some (.production ⟨join, r.name, r.select, r.conditions.length, #[]⟩) := by
      rw [register, hn, if_pos rfl]
    exact ⟨_, _, hpn, rfl, rfl, .down hpn rfl hjn' hpath', by rw [List.map_cons, hjs', hjs]⟩
  have hcases : ∀ {id : NodeId} {p : ProductionNode}, (n₁.register r n.nodes.size).nodes[id]? = some (.production p) →
      id = n.nodes.size ∨ n.nodes[id]? = some (.production p) := by
    intro id p hp
    rcases production_of_graft hg hup hp with ⟨rfl, -⟩ | hp
    · exact Or.inl rfl
    · exact Or.inr hp
  exact ⟨n.nodes.size, n₁.register r n.nodes.size, by rw [addProduction_eq, hg]; rfl, hw.of_nodes rfl rfl, hwid',
    hr.append hwid' hprods hnames hnew hcases hc⟩

/-- The stages of a rule begin with that of its first condition. -/
theorem stages_cons {r : Rule} {c : Condition} {cs : List Condition} (hcs : r.conditions = c :: cs) :
    r.stages = ⟨c, c.tests [], r.excludedBy c⟩ :: r.stagesAfter [c] cs := by
  rw [Rule.stages, hcs, Rule.stagesAfter]

/-- A rule that passes its check is compiled. -/
theorem addRule_ok {n : Network} (h : n.Wired) {rs : List Rule} (hr : n.Registered rs) {r : Rule} (hc : r.check = .ok ()) :
    ∃ id n', n.addRule r = .ok (id, n') ∧ n'.Wired ∧ n.Widens n' ∧ n'.Registered (rs ++ [r]) := by
  obtain ⟨c, cs, hcs⟩ := List.exists_cons_of_ne_nil (Rule.check_eq_ok_iff.1 hc).2.1
  obtain ⟨top, htop⟩ := h.top
  obtain ⟨join, n₁, hs, hw₁, hd₁, hj₁⟩ :=
    addStage_ok h (s := ⟨c, c.tests [], r.excludedBy c⟩) htop (fun _ => rfl) .here rfl
  obtain ⟨last, n₂, hss, hw₂, hd₂, hj₂⟩ := addStages_ok hw₁ r hj₁ cs
  have hd := hd₁.trans hd₂
  have hr₂ := hr.of_deepens hd
  obtain ⟨id, n₃, hp, hw₃, hwid, hr₃⟩ := addProduction_ok hw₂ hr₂ hc (by rw [hcs, List.reverse_cons]; exact hj₂)
  refine ⟨id, n₃, ?_, hw₃, hd.toWidens.trans hwid, hr₃⟩
  simp only [List.map_nil] at hss
  simp only [addRule, hc, stages_cons hcs, hs, hss, hp, Bind.bind, Except.bind]

/-- A rule that is compiled passes its check, and gets its first stage, its other stages and its production. -/
theorem addRule_eq_ok {n n' : Network} {r : Rule} {id : NodeId} (h : n.addRule r = .ok (id, n')) : r.check = .ok () ∧
    ∃ s ss join n₁ last n₂, r.stages = s :: ss ∧ n.addStage topNode s = .ok (join, n₁) ∧ n₁.addStages join ss = .ok (last, n₂) ∧
      n₂.addProduction last r = .ok (id, n') := by
  obtain ⟨_, hc, h⟩ := bind_eq_ok_iff.1 h
  cases hs : r.stages with
  | nil =>
    rw [hs] at h
    cases h
  | cons s ss =>
    rw [hs] at h
    obtain ⟨⟨join, n₁⟩, hs₁, h⟩ := bind_eq_ok_iff.1 h
    obtain ⟨⟨last, n₂⟩, hs₂, hp⟩ := bind_eq_ok_iff.1 h
    exact ⟨hc, s, ss, join, n₁, last, n₂, rfl, hs₁, hs₂, hp⟩

/-- A rule that is compiled passes its check. -/
theorem check_of_addRule {n n' : Network} {r : Rule} {id : NodeId} (h : n.addRule r = .ok (id, n')) : r.check = .ok () :=
  (addRule_eq_ok h).1

/-- Compiles rules one after the other. -/
def addRules (n : Network) (rs : List Rule) : Outcome Network := rs.foldlM (fun n r => (n.addRule r).map (·.2)) n

/-- Without rules there is the top node only. -/
theorem getElem?_nodes_empty {id : NodeId} {x : Node} (hx : empty.nodes[id]? = some x) : id = topNode ∧ x = .top [] := by
  obtain ⟨hid, hx⟩ := Array.getElem?_eq_some_iff.1 hx
  obtain rfl : id = topNode := Nat.lt_one_iff.1 hid
  exact ⟨rfl, hx.symm⟩

/-- Without rules no node has a parent. -/
theorem not_parent_empty {id up : NodeId} {x : Node} (hx : empty.nodes[id]? = some x) : x.parent? ≠ some up := by
  rw [(getElem?_nodes_empty hx).2]
  simp [Node.parent?]

/-- A network without rules is wired. -/
theorem wired_empty : empty.Wired where
  top := ⟨[], rfl⟩
  top_only hx := (getElem?_nodes_empty hx).1
  parent_lt hx hp := absurd hp (not_parent_empty hx)
  parent_carries hx hp := absurd hp (not_parent_empty hx)
  child_iff {up y} hy id := by
    rw [(getElem?_nodes_empty hy).2]
    refine ⟨fun hid => absurd hid List.not_mem_nil, ?_⟩
    rintro ⟨x, hx, hp⟩
    exact absurd hp (not_parent_empty hx)
  keyed := AlphaIndex.keyed_empty
  join_alpha hj := nomatch (getElem?_nodes_empty hj).2
  join_tests hj := nomatch (getElem?_nodes_empty hj).2
  successors {a m} hm := by
    simp [empty, AlphaIndex.empty, AlphaIndex.get?] at hm

/-- A network without rules has no productions. -/
theorem registered_empty : empty.Registered [] where
  size := rfl
  production {i id r} hi hr := by nomatch hr
  listed {id p} hp := by
    cases id with
    | zero => nomatch hp
    | succ i => simp [empty] at hp
  named {name id} := by simp [empty, Newest]
  checked := fun r hr => absurd hr List.not_mem_nil

/-- A network that has compiled rules is wired, and has their productions. -/
theorem wired_addRules {n n' : Network} (h : n.Wired) {rs qs : List Rule} (hr : n.Registered rs)
    (ha : n.addRules qs = .ok n') : n'.Wired ∧ n'.Registered (rs ++ qs) := by
  induction qs generalizing n rs with
  | nil =>
    obtain rfl := Except.ok.inj ha
    exact ⟨h, by rw [List.append_nil]; exact hr⟩
  | cons r qs ih =>
    rw [addRules, List.foldlM_cons] at ha
    obtain ⟨n₁, hmap, ha⟩ := bind_eq_ok_iff.1 ha
    obtain ⟨⟨id, n₁⟩, hadd, rfl⟩ := map_eq_ok_iff.1 hmap
    obtain ⟨id', n₂, he, hw, -, hr₁⟩ := addRule_ok h hr (check_of_addRule hadd)
    obtain ⟨-, rfl⟩ := Prod.mk.inj (Except.ok.inj (hadd.symm.trans he))
    obtain ⟨hw', hr'⟩ := ih hw hr₁ ha
    exact ⟨hw', by rw [List.append_assoc] at hr'; exact hr'⟩

end TripleRules.Network

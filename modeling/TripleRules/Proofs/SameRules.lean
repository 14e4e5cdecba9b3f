import TripleRules.Proofs.Compilation

/-!
# Networks with the same rules

Two networks whose bare networks are equal have the same compiled rules, whatever facts and tokens they hold. Their trees, paths
and productions agree.
-/

namespace TripleRules

/-- Whether a check looks at nothing but the kind of a node. -/
def Node.OfKind (P : Node → Bool) : Prop := ∀ x y, x.kind = y.kind → P x = P y

theorem Node.ofKind_isJoin : OfKind isJoin := by
  intro x y h
  cases x <;> cases y <;> simp_all [kind, isJoin]

theorem Node.ofKind_isMemory : OfKind isMemory := by
  intro x y h
  cases x <;> cases y <;> simp_all [kind, isMemory]

theorem Node.ofKind_isProduction : OfKind isProduction := by
  intro x y h
  cases x <;> cases y <;> simp_all [kind, isProduction]

theorem Node.kind_clear (x : Node) : x.clear.kind = x.kind := by
  cases x <;> rfl

namespace Network

/-- Nodes that pass a check in the same places are as many. -/
theorem countP_of_map_eq {P : Node → Bool} {xs ys : Array Node} (h : xs.map P = ys.map P) :
    xs.toList.countP P = ys.toList.countP P := by
  have hcount : ∀ zs : Array Node, zs.toList.countP P = (zs.map P).toList.countP id := by
    intro zs
    rw [Array.toList_map, List.countP_map, Function.id_comp]
  rw [hcount, hcount, h]

section

variable {n n' : Network} (hb : n'.bare = n.bare)
include hb

/-- The nodes agree up to the tokens they hold. -/
theorem map_clear_of_bare (id : NodeId) : (n'.nodes[id]?).map Node.clear = (n.nodes[id]?).map Node.clear := by
  rw [← getElem?_nodes_bare, ← getElem?_nodes_bare, hb]

/-- A node of one network is there in the other, up to the tokens it holds. -/
theorem exists_of_bare {id : NodeId} {x : Node} (hx : n.nodes[id]? = some x) :
    ∃ x', n'.nodes[id]? = some x' ∧ x'.clear = x.clear := by
  have h := map_clear_of_bare hb id
  rw [hx] at h
  exact Option.map_eq_some_iff.1 h

/-- The joins are the same. -/
theorem join_iff_of_bare (id : NodeId) (j : JoinNode) :
    n'.nodes[id]? = some (.join j) ↔ n.nodes[id]? = some (.join j) := by
  rw [← bare_join_iff n', ← bare_join_iff n, hb]

/-- The nodes have the same parents. -/
theorem parentOf_of_bare (id : NodeId) : n'.parentOf id = n.parentOf id := by
  have hp : ∀ m : Network, m.parentOf id = ((m.nodes[id]?).map Node.clear).bind Node.parent? := by
    intro m
    rw [parentOf]
    cases m.nodes[id]? with
    | none => rfl
    | some x => simp
  rw [hp, hp, map_clear_of_bare hb]

/-- There are as many nodes. -/
theorem size_nodes_of_bare : n'.nodes.size = n.nodes.size := by
  rw [← size_nodes_bare n', ← size_nodes_bare n, hb]

/-- The keys stand for the same memories. -/
theorem byKey_of_bare : n'.alpha.byKey = n.alpha.byKey := by
  rw [← AlphaIndex.byKey_bare n'.alpha, ← AlphaIndex.byKey_bare n.alpha]
  exact congrArg (·.alpha.byKey) hb

/-- There are as many alpha memories. -/
theorem size_alpha_of_bare : n'.alpha.size = n.alpha.size := by
  rw [← AlphaIndex.size_bare n'.alpha, ← AlphaIndex.size_bare n.alpha]
  exact congrArg (·.alpha.size) hb

/-- The alpha memories agree up to the facts they hold. -/
theorem map_bare_of_bare (a : AlphaId) : (n'.alpha.get? a).map AlphaMemory.bare = (n.alpha.get? a).map AlphaMemory.bare := by
  rw [← AlphaIndex.get?_bare, ← AlphaIndex.get?_bare]
  exact congrArg (·.alpha.get? a) hb

/-- An alpha memory of one network is there in the other, up to the facts it holds. -/
theorem exists_alpha_of_bare {a : AlphaId} {m : AlphaMemory} (hm : n.alpha.get? a = some m) :
    ∃ m', n'.alpha.get? a = some m' ∧ m'.bare = m.bare := by
  have h := map_bare_of_bare hb a
  rw [hm] at h
  exact Option.map_eq_some_iff.1 h

/-- A fact goes to the same memories. -/
theorem route_of_bare (f : Fact) : n'.alpha.route f = n.alpha.route f := by
  rw [← AlphaIndex.route_bare n'.alpha, ← AlphaIndex.route_bare n.alpha]
  exact congrArg (·.alpha.route f) hb

/-- The rules have the same productions. -/
theorem productions_of_bare : n'.productions = n.productions := by
  have h := congrArg Network.productions hb
  exact h

/-- The nodes of a kind are as many with a batch as without it. -/
theorem countP_of_bare {P : Node → Bool} (hP : Node.OfKind P) :
    n'.nodes.toList.countP P = n.nodes.toList.countP P := by
  have hmap : ∀ m : Network, m.nodes.map P = m.bare.nodes.map P := by
    intro m
    have hnodes : m.bare.nodes = m.nodes.map Node.clear := rfl
    have hclear : P ∘ Node.clear = P := by
      funext x
      exact hP _ _ x.kind_clear
    rw [hnodes, Array.map_map, hclear]
  exact countP_of_map_eq (by rw [hmap n', hmap n, hb])

/-- The paths agree. -/
theorem Path.of_bare {start id : NodeId} {js : List JoinNode} (h : n.Path start id js) : n'.Path start id js := by
  induction h with
  | here => exact .here
  | down hx hp hj _ ih =>
    obtain ⟨x', hx', hc⟩ := exists_of_bare hb hx
    refine .down hx' ?_ ((join_iff_of_bare hb _ _).2 hj) ih
    rw [← Node.parent?_clear, hc, Node.parent?_clear, hp]

end

/-- A memory is a memory in the other network too. -/
theorem memory_of_bare {n n' : Network} (hb : n'.bare = n.bare) {id : NodeId} {m : MemoryNode}
    (hm : n.nodes[id]? = some (.memory m)) : ∃ m', n'.nodes[id]? = some (.memory m') := by
  obtain ⟨x', hx', hc⟩ := exists_of_bare hb hm
  cases x' with
  | memory m' => exact ⟨m', hx'⟩
  | top cs => nomatch hc
  | join j => nomatch hc
  | production p => nomatch hc

/-- A production is one in the other network too, of the same rule. -/
theorem production_of_bare {n n' : Network} (hb : n'.bare = n.bare) {id : NodeId} {p : ProductionNode}
    (hp : n.nodes[id]? = some (.production p)) :
    ∃ p', n'.nodes[id]? = some (.production p') ∧ p'.rule = p.rule ∧ p'.select = p.select := by
  obtain ⟨x', hx', hc⟩ := exists_of_bare hb hp
  cases x' with
  | production p' =>
    have he := ProductionNode.mk.inj (Node.production.inj hc)
    exact ⟨p', hx', he.2.1, he.2.2.1⟩
  | top cs => nomatch hc
  | join j => nomatch hc
  | memory m => nomatch hc

/-- What a node may carry does not depend on what the two hold. -/
@[simp] theorem carries_clear (x y : Node) : x.clear.carries y.clear = x.carries y := by
  cases x <;> cases y <;> rfl

/-- The tree does not depend on the batch. -/
theorem Tree.of_bare {n n' : Network} (h : n.Tree) (hb : n'.bare = n.bare) : n'.Tree where
  top := by
    obtain ⟨cs, hcs⟩ := h.top
    obtain ⟨x, hx, hc⟩ := exists_of_bare hb hcs
    cases x with
    | top ds => exact ⟨ds, hx⟩
    | join j => nomatch hc
    | memory m => nomatch hc
    | production p => nomatch hc
  top_only {id cs} hid := by
    obtain ⟨x, hx, hc⟩ := exists_of_bare hb.symm hid
    cases x with
    | top ds => exact h.top_only hx
    | join j => nomatch hc
    | memory m => nomatch hc
    | production p => nomatch hc
  parent_lt {id up x} hx hp := by
    obtain ⟨x₀, hx₀, hc⟩ := exists_of_bare hb.symm hx
    exact h.parent_lt hx₀ (by rw [← Node.parent?_clear, hc, Node.parent?_clear, hp])
  parent_carries {id up x} hx hp := by
    obtain ⟨x₀, hx₀, hc⟩ := exists_of_bare hb.symm hx
    obtain ⟨y₀, hy₀, hcar⟩ := h.parent_carries hx₀ (by rw [← Node.parent?_clear, hc, Node.parent?_clear, hp])
    obtain ⟨y, hy, hcy⟩ := exists_of_bare hb hy₀
    exact ⟨y, hy, by rw [← carries_clear, hcy, ← hc, carries_clear, hcar]⟩
  child_iff {up y} hy id := by
    obtain ⟨y₀, hy₀, hc⟩ := exists_of_bare hb.symm hy
    rw [← parentOf_eq_some, parentOf_of_bare hb, parentOf_eq_some, ← h.child_iff hy₀, ← Node.children_clear, ← hc,
      Node.children_clear]

/-- What the joins read and test does not depend on the batch. -/
theorem Labelled.of_bare {n n' : Network} (h : n.Labelled) (hb : n'.bare = n.bare) : n'.Labelled := by
  refine ⟨h.toTree.of_bare hb, ?_, ?_, ?_⟩
  · intro k a
    rw [byKey_of_bare hb, h.keyed k a]
    constructor
    · rintro ⟨m, hm, hk⟩
      obtain ⟨m', hm', hbm⟩ := exists_alpha_of_bare hb hm
      exact ⟨m', hm', (AlphaMemory.eq_of_bare hbm).2.1.trans hk⟩
    · rintro ⟨m, hm, hk⟩
      obtain ⟨m₀, hm₀, hbm⟩ := exists_alpha_of_bare hb.symm hm
      exact ⟨m₀, hm₀, (AlphaMemory.eq_of_bare hbm).2.1.trans hk⟩
  · intro id j hj
    rw [byKey_of_bare hb]
    exact h.join_alpha ((join_iff_of_bare hb id j).1 hj)
  · intro id j hj
    obtain ⟨js, hpath, ht⟩ := h.join_tests ((join_iff_of_bare hb id j).1 hj)
    exact ⟨js, hpath.of_bare hb, ht⟩

/-- The wiring does not depend on the batch. -/
theorem Wired.of_bare {n n' : Network} (h : n.Wired) (hb : n'.bare = n.bare) : n'.Wired := by
  refine ⟨h.toLabelled.of_bare hb, ?_⟩
  intro a m hm id
  obtain ⟨m₀, hm₀, hbm⟩ := exists_alpha_of_bare hb.symm hm
  obtain ⟨-, -, -, -, hsuccessors⟩ := AlphaMemory.eq_of_bare hbm
  rw [← hsuccessors, h.successors hm₀]
  simp only [join_iff_of_bare hb]

/-- The productions of the rules do not depend on the batch. -/
theorem ProductionOf.of_bare {n n' : Network} (hb : n'.bare = n.bare) {id : NodeId} {r : Rule} (h : n.ProductionOf id r) :
    n'.ProductionOf id r := by
  obtain ⟨p, js, hp, hname, hselect, hpath, hjs⟩ := h
  obtain ⟨p', hp', hr, hs⟩ := production_of_bare hb hp
  exact ⟨p', js, hp', hr.trans hname, hs.trans hselect, hpath.of_bare hb, hjs⟩

/-- Which rules a network has does not depend on the batch. -/
theorem Registered.of_bare {n n' : Network} (hb : n'.bare = n.bare) {rs : List Rule} (h : n.Registered rs) :
    n'.Registered rs where
  size := by rw [productions_of_bare hb, h.size]
  production {i id r} hi hr := by
    rw [productions_of_bare hb] at hi
    exact (h.production hi hr).of_bare hb
  listed {id p} hp := by
    obtain ⟨p', hp', -, -⟩ := production_of_bare hb.symm hp
    rw [productions_of_bare hb]
    exact h.listed hp'
  named {name id} := by
    have hname : n'.byName = n.byName := by
      have he := congrArg Network.byName hb
      exact he
    rw [hname, h.named, Newest, Newest, productions_of_bare hb]
  checked := h.checked

/-- A network whose bare form has compiled some rules has a production for each of them. -/
theorem registered_of_addRules {n : Network} {rs : List Rule} (h : empty.addRules rs = .ok n.bare) : n.Registered rs :=
  (wired_addRules wired_empty registered_empty h).2.of_bare n.bare_bare.symm

end Network

end TripleRules

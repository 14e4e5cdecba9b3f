import TripleRules.Proofs.Wiring

/-!
# Networks that only get wider

Compiling hangs new nodes below old ones and changes nothing else about the old ones. So a path stays a path, and the batch
stays as it is: the new nodes hold no tokens and the new memories no facts. A graft keeps the nodes a tree.
-/

namespace TripleRules

namespace Node

/-- The node with other nodes below it. -/
def withChildren (children : List NodeId) : Node → Node
  | top _ => top children
  | join j => join { j with children }
  | memory m => memory { m with children }
  | production p => production p

@[simp] theorem parent?_withChildren (cs : List NodeId) (x : Node) : (x.withChildren cs).parent? = x.parent? := by
  cases x <;> rfl

@[simp] theorem held_withChildren (cs : List NodeId) (x : Node) : (x.withChildren cs).held = x.held := by
  cases x <;> rfl

@[simp] theorem withChildren_withChildren (cs ds : List NodeId) (x : Node) :
    (x.withChildren cs).withChildren ds = x.withChildren ds := by
  cases x <;> rfl

@[simp] theorem withChildren_children (x : Node) : x.withChildren x.children = x := by
  cases x <;> rfl

/-- What a node may carry does not depend on what hangs below the two. -/
@[simp] theorem carries_withChildren (cs ds : List NodeId) (x y : Node) :
    (y.withChildren cs).carries (x.withChildren ds) = y.carries x := by
  cases x <;> cases y <;> rfl

/-- What attaching a child gives. -/
theorem attach?_eq_some {child : NodeId} {y y' : Node} (h : y.attach? child = some y') :
    y' = y.withChildren (y.children ++ [child]) ∧ y'.children = y.children ++ [child] := by
  cases y with
  | production p => nomatch h
  | top cs => cases h; exact ⟨rfl, rfl⟩
  | join j => cases h; exact ⟨rfl, rfl⟩
  | memory m => cases h; exact ⟨rfl, rfl⟩

end Node

namespace Network

/-- What a batch has outside of the nodes and the alpha memories is the same. -/
structure SameBatch (n n' : Network) : Prop where
  tokens : n'.tokens = n.tokens
  facts : n'.facts = n.facts
  seen : n'.seen = n.seen
  stored : n'.stored = n.stored
  satisfied : n'.satisfied = n.satisfied
  touchedAlphas : n'.touchedAlphas = n.touchedAlphas
  touchedNodes : n'.touchedNodes = n.touchedNodes
  pending : n'.pending = n.pending

/-- Every node is still there with perhaps more below it, the new nodes and memories are empty, and the batch is the same. -/
structure Widens (n n' : Network) : Prop extends SameBatch n n' where
  nodes : ∀ {id : NodeId} {x : Node}, n.nodes[id]? = some x → ∃ cs, n'.nodes[id]? = some (x.withChildren cs)
  nodes_new : ∀ {id : NodeId} {x : Node}, n'.nodes[id]? = some x → n.nodes[id]? = none → x.held = []
  arrived : ∀ a : AlphaId, n'.arrived a = n.arrived a

/-- The network gets wider, and no production is new. -/
structure Deepens (n n' : Network) : Prop extends Widens n n' where
  production_old : ∀ {id : NodeId} {p : ProductionNode}, n'.nodes[id]? = some (.production p) →
    n.nodes[id]? = some (.production p)
  productions : n'.productions = n.productions
  byName : n'.byName = n.byName

/-- The join of some conditions, the nearest first: the last join on the way down along them. -/
def JoinOf (n : Network) (join : NodeId) (cs : List Condition) : Prop :=
  ∃ j js, n.nodes[join]? = some (.join j) ∧ n.Path topNode j.parent js ∧ j.condition :: js.map (·.condition) = cs

theorem SameBatch.refl (n : Network) : n.SameBatch n := ⟨rfl, rfl, rfl, rfl, rfl, rfl, rfl, rfl⟩

/-- Having the same batch is transitive. -/
theorem SameBatch.trans {a b c : Network} (h : a.SameBatch b) (h' : b.SameBatch c) : a.SameBatch c where
  tokens := h'.tokens.trans h.tokens
  facts := h'.facts.trans h.facts
  seen := h'.seen.trans h.seen
  stored := h'.stored.trans h.stored
  satisfied := h'.satisfied.trans h.satisfied
  touchedAlphas := h'.touchedAlphas.trans h.touchedAlphas
  touchedNodes := h'.touchedNodes.trans h.touchedNodes
  pending := h'.pending.trans h.pending

namespace Widens

theorem refl (n : Network) : n.Widens n where
  toSameBatch := .refl n
  nodes {_ x} h := ⟨x.children, by rw [h, x.withChildren_children]⟩
  nodes_new h h' := by rw [h] at h'; nomatch h'
  arrived _ := rfl

/-- Networks that get wider and wider get wider. -/
theorem trans {a b c : Network} (h : a.Widens b) (h' : b.Widens c) : a.Widens c where
  toSameBatch := h.toSameBatch.trans h'.toSameBatch
  nodes hx := by
    obtain ⟨cs, hb⟩ := h.nodes hx
    obtain ⟨ds, hc⟩ := h'.nodes hb
    exact ⟨ds, by rw [hc, Node.withChildren_withChildren]⟩
  nodes_new {id x} hx hn := by
    cases hb : b.nodes[id]? with
    | none => exact h'.nodes_new hx hb
    | some y =>
      obtain ⟨cs, hc⟩ := h'.nodes hb
      obtain rfl := Option.some.inj (hx.symm.trans hc)
      rw [Node.held_withChildren]
      exact h.nodes_new hb hn
  arrived x := (h'.arrived x).trans (h.arrived x)

variable {n n' : Network} (h : n.Widens n')
include h

/-- The nodes hold what they held. -/
theorem held_eq (id : NodeId) : n'.held id = n.held id := by
  cases hx : n.nodes[id]? with
  | some x =>
    obtain ⟨cs, hx'⟩ := h.nodes hx
    rw [Network.held_eq hx', Network.held_eq hx, Node.held_withChildren]
  | none =>
    have hnone : n.held id = [] := by rw [held, hx]; rfl
    rw [hnone]
    cases hx' : n'.nodes[id]? with
    | none => rw [held, hx']; rfl
    | some x => rw [Network.held_eq hx', h.nodes_new hx' hx]

/-- A join stays one, with perhaps more below it. -/
theorem join {id : NodeId} {j : JoinNode} (hj : n.nodes[id]? = some (.join j)) :
    ∃ cs, n'.nodes[id]? = some (.join { j with children := cs }) := h.nodes hj

/-- A path stays one, along the same conditions. -/
theorem path {start id : NodeId} {js : List JoinNode} (hp : n.Path start id js) :
    ∃ js', n'.Path start id js' ∧ js'.map (·.condition) = js.map (·.condition) := by
  induction hp with
  | here => exact ⟨[], .here, rfl⟩
  | down hx hp hj _ ih =>
    obtain ⟨cs, hx'⟩ := h.nodes hx
    obtain ⟨ds, hj'⟩ := h.join hj
    obtain ⟨js', hpath, hc⟩ := ih
    exact ⟨_ :: js', .down hx' (by rw [Node.parent?_withChildren, hp]) hj' hpath, by simp [hc]⟩

end Widens

theorem Deepens.refl (n : Network) : n.Deepens n where
  toWidens := .refl n
  production_old h := h
  productions := rfl
  byName := rfl

/-- Networks that deepen one after the other deepen. -/
theorem Deepens.trans {a b c : Network} (h : a.Deepens b) (h' : b.Deepens c) : a.Deepens c where
  toWidens := h.toWidens.trans h'.toWidens
  production_old hp := h.production_old (h'.production_old hp)
  productions := h'.productions.trans h.productions
  byName := h'.byName.trans h.byName

/-! ## Grafts -/

/-- What the nodes are after a graft. -/
theorem getElem?_graft {n n' : Network} {up : NodeId} {x : Node} (hg : n.graft up x = .ok n') (hup : up < n.nodes.size) :
    n' = { n with nodes := n'.nodes } ∧ ∃ y, n.nodes[up]? = some y ∧
      (y.withChildren (y.children ++ [n.nodes.size])).children = y.children ++ [n.nodes.size] ∧
      ∀ id : NodeId, n'.nodes[id]? =
        if id = n.nodes.size then some x
        else if id = up then some (y.withChildren (y.children ++ [n.nodes.size])) else n.nodes[id]? := by
  have hy : (n.nodes.push x)[up]? = n.nodes[up]? := by
    rw [Array.getElem?_push, if_neg (Nat.ne_of_lt hup)]
  obtain ⟨y, y', hyn, ha, rfl⟩ := graft_eq_ok hg
  obtain ⟨rfl, hc⟩ := Node.attach?_eq_some ha
  refine ⟨rfl, y, hy.symm.trans hyn, hc, fun id => ?_⟩
  simp only [Array.getElem?_setIfInBounds, Array.size_push, Array.getElem?_push]
  by_cases hid : id = up
  · subst hid
    rw [if_pos rfl, if_pos (Nat.lt_succ_of_lt hup), if_neg (Nat.ne_of_lt hup), if_pos rfl]
  · rw [if_neg (Ne.symm hid), if_neg hid]

/-- A node can be put below any node that may carry it. -/
theorem exists_graft {n : Network} {up : NodeId} {x y : Node} (hy : n.nodes[up]? = some y) (hc : y.carries x) :
    ∃ n', n.graft up x = .ok n' := by
  have hup : up < n.nodes.size := (Array.getElem?_eq_some_iff.1 hy).1
  have hpush : (n.nodes.push x)[up]? = some y := by
    rw [Array.getElem?_push, if_neg (Nat.ne_of_lt hup), hy]
  obtain ⟨y', hy'⟩ : ∃ y', y.attach? n.nodes.size = some y' := by
    cases y with
    | production p => cases x <;> nomatch hc
    | top cs => exact ⟨_, rfl⟩
    | join j => exact ⟨_, rfl⟩
    | memory m => exact ⟨_, rfl⟩
  exact ⟨_, by simp only [graft, push, attach, hpush, Option.bind_some, hy']; rfl⟩

/-- A node that was there before a graft is there after it, with perhaps more below it. -/
theorem exists_of_graft {n n' : Network} {up : NodeId} {x : Node} (hg : n.graft up x = .ok n') (hup : up < n.nodes.size)
    {id : NodeId} {z : Node} (hz : n.nodes[id]? = some z) : ∃ cs, n'.nodes[id]? = some (z.withChildren cs) := by
  obtain ⟨-, y, hy, -, hn⟩ := getElem?_graft hg hup
  have hid : id ≠ n.nodes.size := Nat.ne_of_lt (Array.getElem?_eq_some_iff.1 hz).1
  rw [hn, if_neg hid]
  split
  · rename_i hid
    subst hid
    obtain rfl := Option.some.inj (hy.symm.trans hz)
    exact ⟨_, rfl⟩
  · exact ⟨z.children, by rw [hz, z.withChildren_children]⟩

/-- A node that is there after a graft is the new one, or was there before. -/
theorem graft_cases {n n' : Network} {up : NodeId} {x : Node} (hg : n.graft up x = .ok n') (hup : up < n.nodes.size)
    {id : NodeId} {z : Node} (hz : n'.nodes[id]? = some z) :
    (id = n.nodes.size ∧ z = x) ∨ ∃ z₀ cs, n.nodes[id]? = some z₀ ∧ z = z₀.withChildren cs := by
  obtain ⟨-, y, hy, -, hn⟩ := getElem?_graft hg hup
  rw [hn] at hz
  split at hz
  · rename_i hid
    exact Or.inl ⟨hid, (Option.some.inj hz).symm⟩
  · split at hz
    · rename_i hid
      subst hid
      exact Or.inr ⟨y, _, hy, (Option.some.inj hz).symm⟩
    · exact Or.inr ⟨z, z.children, hz, z.withChildren_children.symm⟩

/-- A graft of a node that holds nothing widens the network. -/
theorem widens_graft {n n' : Network} {up : NodeId} {x : Node} (hg : n.graft up x = .ok n') (hup : up < n.nodes.size)
    (hheld : x.held = []) : n.Widens n' where
  toSameBatch := by
    rw [(getElem?_graft hg hup).1]
    exact ⟨rfl, rfl, rfl, rfl, rfl, rfl, rfl, rfl⟩
  nodes := exists_of_graft hg hup
  nodes_new {id z} hz hnone := by
    rcases graft_cases hg hup hz with ⟨-, rfl⟩ | ⟨z₀, cs, hz₀, -⟩
    · exact hheld
    · rw [hz₀] at hnone
      nomatch hnone
  arrived a := by
    rw [(getElem?_graft hg hup).1]
    rfl

/-- A production after a graft is the new node, or was there before. -/
theorem production_of_graft {n n' : Network} {up : NodeId} {x : Node} (hg : n.graft up x = .ok n')
    (hup : up < n.nodes.size) {id : NodeId} {p : ProductionNode} (hp : n'.nodes[id]? = some (.production p)) :
    (id = n.nodes.size ∧ x = .production p) ∨ n.nodes[id]? = some (.production p) := by
  rcases graft_cases hg hup hp with ⟨hid, rfl⟩ | ⟨z, cs, hz, he⟩
  · exact Or.inl ⟨hid, rfl⟩
  · cases z with
    | production q => exact Or.inr (by rw [hz, he, Node.withChildren])
    | top es => nomatch he
    | join j => nomatch he
    | memory m => nomatch he

/-- A graft of a node that holds nothing and is no production deepens the network. -/
theorem deepens_graft {n n' : Network} {up : NodeId} {x : Node} (hg : n.graft up x = .ok n') (hup : up < n.nodes.size)
    (hheld : x.held = []) (hx : x.isProduction = false) : n.Deepens n' where
  toWidens := widens_graft hg hup hheld
  production_old hp := by
    rcases production_of_graft hg hup hp with ⟨-, rfl⟩ | hp
    · nomatch hx
    · exact hp
  productions := by rw [(getElem?_graft hg hup).1]
  byName := by rw [(getElem?_graft hg hup).1]

/-- The parent of a node, by handle. -/
def parentOf (n : Network) (id : NodeId) : Option NodeId := (n.nodes[id]?).bind Node.parent?

/-- The parent of a handle is that of the node which has it. -/
theorem parentOf_eq_some {n : Network} {id up : NodeId} :
    n.parentOf id = some up ↔ ∃ x, n.nodes[id]? = some x ∧ x.parent? = some up := Option.bind_eq_some_iff

/-- A parent is older than its child, which is there. -/
theorem Tree.lt_of_parentOf {n : Network} (h : n.Tree) {id up : NodeId} (hp : n.parentOf id = some up) :
    up < id ∧ id < n.nodes.size := by
  obtain ⟨x, hx, hxp⟩ := parentOf_eq_some.1 hp
  exact ⟨h.parent_lt hx hxp, (Array.getElem?_eq_some_iff.1 hx).1⟩

/-- A graft gives the new node its parent and leaves the others theirs. -/
theorem parentOf_graft {n n' : Network} {up : NodeId} {x : Node} (hg : n.graft up x = .ok n') (hup : up < n.nodes.size)
    (hp : x.parent? = some up) (id : NodeId) :
    n'.parentOf id = if id = n.nodes.size then some up else n.parentOf id := by
  obtain ⟨-, y, hy, -, hn⟩ := getElem?_graft hg hup
  unfold parentOf
  rw [hn]
  split
  · exact hp
  · split
    · rename_i hid
      subst hid
      rw [hy]
      exact Node.parent?_withChildren _ _
    · rfl

/-- After a graft the children of a node are those whose parent it is. -/
theorem child_iff_graft {n n' : Network} (h : n.Tree) {up : NodeId} {x : Node} (hg : n.graft up x = .ok n')
    (hup : up < n.nodes.size) (hp : x.parent? = some up) (hx : x.children = []) {u : NodeId} {z : Node}
    (hz : n'.nodes[u]? = some z) (id : NodeId) : id ∈ z.children ↔ n'.parentOf id = some u := by
  obtain ⟨-, y, hy, hcs, hn⟩ := getElem?_graft hg hup
  rw [parentOf_graft hg hup hp]
  -- no old node has the new one as its parent or its handle
  have hne : ∀ {v : NodeId}, n.parentOf id = some v → id ≠ n.nodes.size ∧ v ≠ n.nodes.size := by
    intro v hv
    obtain ⟨h₁, h₂⟩ := h.lt_of_parentOf hv
    exact ⟨Nat.ne_of_lt h₂, Nat.ne_of_lt (Nat.lt_trans h₁ h₂)⟩
  rw [hn] at hz
  split at hz
  · rename_i hu
    obtain rfl := Option.some.inj hz
    rw [hx]
    refine ⟨fun hm => absurd hm List.not_mem_nil, fun hid => ?_⟩
    split at hid
    · exact absurd (Option.some.inj hid ▸ hu) (Nat.ne_of_lt hup)
    · exact absurd hu (hne hid).2
  · split at hz
    · rename_i hu
      subst hu
      rw [← Option.some.inj hz, hcs, List.mem_append, List.mem_singleton, h.child_iff hy, ← parentOf_eq_some]
      constructor
      · rintro (hid | rfl)
        · rw [if_neg (hne hid).1, hid]
        · rw [if_pos rfl]
      · intro hid
        split at hid
        · rename_i he
          exact Or.inr he
        · exact Or.inl hid
    · rename_i hu
      rw [h.child_iff hz, ← parentOf_eq_some]
      constructor
      · intro hid
        rw [if_neg (hne hid).1, hid]
      · intro hid
        split at hid
        · exact absurd (Option.some.inj hid).symm hu
        · exact hid

/-- A graft of a node that has nothing below it keeps the nodes a tree. -/
theorem tree_graft {n n' : Network} (h : n.Tree) {up : NodeId} {x y : Node} (hg : n.graft up x = .ok n')
    (hy : n.nodes[up]? = some y) (hc : y.carries x) (hp : x.parent? = some up) (hx : x.children = []) : n'.Tree := by
  have hup : up < n.nodes.size := (Array.getElem?_eq_some_iff.1 hy).1
  exact {
    top := by
      obtain ⟨cs, hcs⟩ := h.top
      obtain ⟨ds, hds⟩ := exists_of_graft hg hup hcs
      exact ⟨ds, hds⟩
    top_only {id cs} hid := by
      rcases graft_cases hg hup hid with ⟨-, rfl⟩ | ⟨z, ds, hz, he⟩
      · nomatch hp
      · cases z with
        | top es => exact h.top_only hz
        | join j => nomatch he
        | memory m => nomatch he
        | production p => nomatch he
    parent_lt {id u z} hz hu := by
      rcases graft_cases hg hup hz with ⟨rfl, rfl⟩ | ⟨z₀, ds, hz₀, rfl⟩
      · obtain rfl := Option.some.inj (hp.symm.trans hu)
        exact hup
      · exact h.parent_lt hz₀ (by rw [← hu, Node.parent?_withChildren])
    parent_carries {id u z} hz hu := by
      rcases graft_cases hg hup hz with ⟨rfl, rfl⟩ | ⟨z₀, ds, hz₀, rfl⟩
      · obtain rfl := Option.some.inj (hp.symm.trans hu)
        obtain ⟨es, hes⟩ := exists_of_graft hg hup hy
        refine ⟨_, hes, ?_⟩
        rw [← hc, ← Node.carries_withChildren es z.children z y, Node.withChildren_children]
      · rw [Node.parent?_withChildren] at hu
        obtain ⟨w, hw, hcw⟩ := h.parent_carries hz₀ hu
        obtain ⟨es, hes⟩ := exists_of_graft hg hup hw
        exact ⟨_, hes, by rw [Node.carries_withChildren, hcw]⟩
    child_iff {u z} hz id := by
      rw [← parentOf_eq_some]
      exact child_iff_graft h hg hup hp hx hz id }

end Network

end TripleRules

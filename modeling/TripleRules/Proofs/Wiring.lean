import TripleRules.Network.Census
import TripleRules.Proofs.Alpha
import TripleRules.Proofs.Bare

/-!
# The wiring of a network

The nodes of a network are a tree below the top node, in which joins take turns with the nodes that hold tokens. The joins on the
way from the top node to a node say which conditions its tokens have matched. A network is wired if it has that shape, each join
reads the memory of its condition's key and makes the tests of its condition, and each memory knows its readers. All of this is
about the compiled rules: it does not depend on the batch.
-/

namespace TripleRules

/-- Whether a node may hang below another one. -/
def Node.carries : Node → Node → Bool
  | top _, join _ | memory _, join _ | join _, memory _ | join _, production _ => true
  | _, _ => false

/-- The tokens that a node passes to the joins below it, in arrival order; a production is asked for its matches. The top node
passes the root. -/
def Node.held : Node → List TokenId
  | top _ => [rootToken]
  | join _ => []
  | memory m => m.tokens.toList
  | production p => p.tokens.toList

namespace Network

/-- The tokens that the node with a handle holds. -/
def held (n : Network) (id : NodeId) : List TokenId := (n.nodes[id]?).elim [] Node.held

theorem held_eq {n : Network} {id : NodeId} {x : Node} (h : n.nodes[id]? = some x) : n.held id = x.held := by
  rw [held, h]
  rfl

/-- The facts that arrived in the alpha memory with a handle, in arrival order. -/
def arrived (n : Network) (a : AlphaId) : List FactId := (n.alpha.get? a).elim [] (·.facts.toList)

theorem arrived_eq {n : Network} {a : AlphaId} {m : AlphaMemory} (h : n.alpha.get? a = some m) :
    n.arrived a = m.facts.toList := by
  rw [arrived, h]
  rfl

/-- The joins on the way from one node down to another, the nearest to the lower one first. -/
inductive Path (n : Network) (start : NodeId) : NodeId → List JoinNode → Prop where
  | here : Path n start start []
  | down {id up : NodeId} {x : Node} {j : JoinNode} {js : List JoinNode} :
      n.nodes[id]? = some x → x.parent? = some up → n.nodes[up]? = some (.join j) → Path n start j.parent js →
      Path n start id (j :: js)

/-- The nodes are a tree below the top node: a parent is older than its child and may carry it, and the children of a node are
those whose parent it is. -/
structure Tree (n : Network) : Prop where
  top : ∃ cs, n.nodes[topNode]? = some (.top cs)
  top_only : ∀ {id : NodeId} {cs : List NodeId}, n.nodes[id]? = some (.top cs) → id = topNode
  parent_lt : ∀ {id up : NodeId} {x : Node}, n.nodes[id]? = some x → x.parent? = some up → up < id
  parent_carries : ∀ {id up : NodeId} {x : Node}, n.nodes[id]? = some x → x.parent? = some up →
    ∃ y, n.nodes[up]? = some y ∧ y.carries x
  child_iff : ∀ {up : NodeId} {y : Node}, n.nodes[up]? = some y →
    ∀ id : NodeId, id ∈ y.children ↔ ∃ x, n.nodes[id]? = some x ∧ x.parent? = some up

/-- The nodes are a tree, and each join reads the memory of its condition's key and makes the tests of its condition after the
conditions above it. -/
structure Labelled (n : Network) : Prop extends Tree n where
  keyed : n.alpha.Keyed
  join_alpha : ∀ {id : NodeId} {j : JoinNode}, n.nodes[id]? = some (.join j) →
    n.alpha.byKey.find? j.condition.key = some j.alpha
  join_tests : ∀ {id : NodeId} {j : JoinNode}, n.nodes[id]? = some (.join j) →
    ∃ js, n.Path topNode j.parent js ∧ j.tests = j.condition.tests (js.map (·.condition))

/-- The joins are labelled, and the readers of a memory are the joins that read it. -/
structure Wired (n : Network) : Prop extends Labelled n where
  successors : ∀ {a : AlphaId} {m : AlphaMemory}, n.alpha.get? a = some m →
    ∀ id : NodeId, id ∈ m.successors ↔ ∃ j, n.nodes[id]? = some (.join j) ∧ j.alpha = a

/-! ## Paths -/

/-- A path is a matter of the nodes. -/
theorem Path.of_nodes {n n' : Network} (he : n'.nodes = n.nodes) {a b : NodeId} {js : List JoinNode} (h : n.Path a b js) :
    n'.Path a b js := by
  induction h with
  | here => exact .here
  | down hx hp hj _ ih => exact .down (by rw [he, hx]) hp (by rw [he, hj]) ih

/-- The joins of a path are nodes. -/
theorem Path.exists_join {n : Network} {start id : NodeId} {js : List JoinNode} (h : n.Path start id js) {j : JoinNode}
    (hj : j ∈ js) : ∃ join : NodeId, n.nodes[join]? = some (.join j) := by
  induction h with
  | here => exact absurd hj List.not_mem_nil
  | @down id up x k ks _ _ hk _ ih =>
    rcases List.mem_cons.1 hj with rfl | hj
    · exact ⟨up, hk⟩
    · exact ih hj

namespace Tree

variable {n : Network} (h : n.Tree)
include h

/-- Nothing is above the top node. -/
theorem not_parent_top {x : Node} (hx : n.nodes[topNode]? = some x) : x.parent? = none := by
  obtain ⟨cs, hcs⟩ := h.top
  rw [hcs] at hx
  cases hx
  rfl

/-- There is one way down to each node. -/
theorem path_unique {id : NodeId} {js ks : List JoinNode} (hj : n.Path topNode id js) (hk : n.Path topNode id ks) : js = ks := by
  induction hj generalizing ks with
  | here =>
    cases hk with
    | here => rfl
    | down hx hp _ _ => rw [h.not_parent_top hx] at hp; nomatch hp
  | down hx hp hj hpath ih =>
    cases hk with
    | here => rw [h.not_parent_top hx] at hp; nomatch hp
    | down hx' hp' hj' hpath' =>
      obtain rfl := Option.some.inj (hx.symm.trans hx')
      obtain rfl := Option.some.inj (hp.symm.trans hp')
      obtain rfl := Node.join.inj (Option.some.inj (hj.symm.trans hj'))
      rw [ih hpath']

/-- A node that is no join hangs below a join, the top node apart. -/
theorem parent_join {id up : NodeId} {x : Node} (hx : n.nodes[id]? = some x) (hp : x.parent? = some up)
    (hj : x.isJoin = false) : ∃ j, n.nodes[up]? = some (.join j) := by
  obtain ⟨y, hy, hc⟩ := h.parent_carries hx hp
  cases x <;> cases y <;> simp_all [Node.carries, Node.isJoin]

/-- A join hangs below the top node or a memory. -/
theorem join_parent {id : NodeId} {j : JoinNode} (hj : n.nodes[id]? = some (.join j)) :
    (∃ cs, n.nodes[j.parent]? = some (.top cs)) ∨ ∃ m, n.nodes[j.parent]? = some (.memory m) := by
  obtain ⟨y, hy, hc⟩ := h.parent_carries hj rfl
  cases y <;> simp_all [Node.carries]

/-- Every node that is no join is reached from the top node. -/
theorem exists_path {id : NodeId} {x : Node} (hx : n.nodes[id]? = some x) (hj : x.isJoin = false) :
    ∃ js, n.Path topNode id js := by
  induction id using Nat.strongRecOn generalizing x with
  | ind id ih =>
    cases hp : x.parent? with
    | none =>
      cases x with
      | top cs =>
        obtain rfl := h.top_only hx
        exact ⟨[], .here⟩
      | join j => nomatch hp
      | memory m => nomatch hp
      | production p => nomatch hp
    | some up =>
      obtain ⟨j, hjn⟩ := h.parent_join hx hp hj
      have hlt : j.parent < id := Nat.lt_trans (h.parent_lt hjn rfl) (h.parent_lt hx hp)
      rcases h.join_parent hjn with ⟨cs, hy⟩ | ⟨m, hy⟩
      · obtain ⟨js, hjs⟩ := ih _ hlt hy rfl
        exact ⟨j :: js, .down hx hp hjn hjs⟩
      · obtain ⟨js, hjs⟩ := ih _ hlt hy rfl
        exact ⟨j :: js, .down hx hp hjn hjs⟩

/-- A path has fewer joins than its end has nodes before it. -/
theorem length_le_of_path {id start : NodeId} {js : List JoinNode} (hp : n.Path start id js) : js.length ≤ id := by
  induction hp with
  | here => exact Nat.zero_le _
  | down hx hp hj _ ih =>
    have h₁ := h.parent_lt hj rfl
    have h₂ := h.parent_lt hx hp
    rw [List.length_cons]
    exact Nat.succ_le_of_lt (Nat.lt_of_le_of_lt ih (Nat.lt_trans h₁ h₂))

/-- Where a path goes on below some joins there is a memory between. -/
theorem exists_memory_of_path {start id : NodeId} {ks js : List JoinNode} (hp : n.Path start id (ks ++ js)) (hk : ks ≠ [])
    (hj : js ≠ []) : ∃ mid m, n.nodes[mid]? = some (.memory m) ∧ n.Path mid id ks ∧ n.Path start mid js := by
  induction ks generalizing id with
  | nil => exact absurd rfl hk
  | cons k ks ih =>
    cases hp with
    | down hx hp hjn hpath =>
      by_cases hks : ks = []
      · subst hks
        rcases h.join_parent hjn with ⟨cs, hy⟩ | ⟨m, hy⟩
        · obtain ⟨j, js', rfl⟩ := List.exists_cons_of_ne_nil hj
          cases hpath with
          | down hx' hp' _ _ =>
            rw [h.top_only hy] at hx'
            rw [h.not_parent_top hx'] at hp'
            nomatch hp'
        · exact ⟨_, m, hy, .down hx hp hjn .here, hpath⟩
      · obtain ⟨mid, m, hm, h₁, h₂⟩ := ih hpath hks
        exact ⟨mid, m, hm, .down hx hp hjn h₁, h₂⟩

end Tree

end Network

end TripleRules

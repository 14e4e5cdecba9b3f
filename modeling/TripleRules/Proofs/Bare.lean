import TripleRules.Network.Batch
import TripleRules.Proofs.Graft
import TripleRules.Proofs.Lists

/-!
# The network without its batch

A network is its compiled rules and the state of a batch. `Network.bare` keeps the rules only. Compiling a rule reads and writes
nothing else: it does to the bare network what it does to the whole one, so a rule compiled in the middle of a batch leaves the
network that it leaves without the batch.
-/

namespace TripleRules

/-- The memory as compiling left it. -/
def AlphaMemory.bare (m : AlphaMemory) : AlphaMemory := { m with facts := #[], received := 0 }

/-- The handle, the key and the readers of a memory are what compiling made them. -/
theorem AlphaMemory.eq_of_bare {m m' : AlphaMemory} (h : m'.bare = m.bare) :
    m'.id = m.id ∧ m'.key = m.key ∧ m'.anyObject = m.anyObject ∧ m'.excluded = m.excluded ∧ m'.successors = m.successors := by
  obtain ⟨hid, hkey, hany, hexcluded, hsuccessors, -⟩ := AlphaMemory.mk.inj h
  exact ⟨hid, hkey, hany, hexcluded, hsuccessors⟩

/-- The memories as compiling left them. -/
def AlphaIndex.bare (x : AlphaIndex) : AlphaIndex := { x with memories := x.memories.map AlphaMemory.bare }

/-- The network as compiling left it: no facts, no tokens, and nothing that was recorded of them. -/
def Network.bare (n : Network) : Network :=
  { n with
    nodes := n.nodes.map Node.clear
    alpha := n.alpha.bare
    tokens := .empty
    facts := #[]
    seen := ∅
    stored := ∅
    satisfied := .empty
    touchedAlphas := []
    touchedNodes := []
    pending := [] }

/-! ## What is kept -/

@[simp] theorem AlphaIndex.size_bare (x : AlphaIndex) : x.bare.size = x.size := Array.size_map

@[simp] theorem AlphaIndex.byKey_bare (x : AlphaIndex) : x.bare.byKey = x.byKey := rfl

@[simp] theorem AlphaIndex.get?_bare (x : AlphaIndex) (a : AlphaId) : x.bare.get? a = (x.get? a).map AlphaMemory.bare :=
  Array.getElem?_map

/-- The facts that an index holds do not show in its routes. -/
@[simp] theorem AlphaIndex.route_bare (x : AlphaIndex) (f : Fact) : x.bare.route f = x.route f := by
  have h : ∀ a o, x.bare.excludes a o = x.excludes a o := by
    intro a o
    rw [excludes, get?_bare, Option.any_map]
    rfl
  simp [route, h]

namespace Network

@[simp] theorem size_nodes_bare (n : Network) : n.bare.nodes.size = n.nodes.size := Array.size_map

@[simp] theorem getElem?_nodes_bare (n : Network) (id : NodeId) : n.bare.nodes[id]? = (n.nodes[id]?).map Node.clear :=
  Array.getElem?_map

/-- Nothing is left to forget of a bare network. -/
@[simp] theorem bare_bare (n : Network) : n.bare.bare = n.bare := by
  simp only [bare, AlphaIndex.bare, Array.map_map]
  congr 2
  funext x
  cases x <;> rfl

/-- The joins are what they were: they hold no tokens. -/
theorem bare_join_iff (n : Network) (id : NodeId) (j : JoinNode) :
    n.bare.nodes[id]? = some (.join j) ↔ n.nodes[id]? = some (.join j) := by
  rw [getElem?_nodes_bare]
  cases n.nodes[id]? with
  | none => simp
  | some x => cases x <;> simp [Node.clear]

/-! ## Compiling does not look at the batch -/

/-- What each step does to a network of some form it does to the network of that form, so steps one after the other do. -/
theorem foldlM_map {α : Type} {φ : Network → Network} {step : Network → α → Outcome Network}
    (h : ∀ n x, step (φ n) x = (step n x).map φ) (n : Network) (xs : List α) :
    xs.foldlM step (φ n) = (xs.foldlM step n).map φ := by
  induction xs generalizing n with
  | nil => rfl
  | cons x xs ih =>
    rw [List.foldlM_cons, List.foldlM_cons, h]
    cases step n x with
    | error e => rfl
    | ok n' => exact ih n'

@[simp] theorem bare_empty : empty.bare = empty := by
  simp [bare, empty, AlphaIndex.bare, AlphaIndex.empty, Node.clear]

/-- A graft does the same without the batch, if the node that it adds holds nothing. -/
theorem graft_bare (n : Network) (parent : NodeId) {x : Node} (hx : x.clear = x) :
    n.bare.graft parent x = (n.graft parent x).map bare := by
  have hc : ∀ (y : Node) child, y.clear.attach? child = (y.attach? child).map Node.clear := by
    intro y child
    cases y <;> rfl
  have hp : (n.bare.push x).2 = (n.push x).2.bare := by simp [push, bare, hx]
  have hy : ∀ child, (n.push x).2.bare.nodes[parent]?.bind (·.attach? child) =
      ((n.push x).2.nodes[parent]?.bind (·.attach? child)).map Node.clear := by
    intro child
    rw [getElem?_nodes_bare]
    cases (n.push x).2.nodes[parent]? with
    | none => rfl
    | some y => exact hc y child
  unfold graft attach
  rw [hp, hy, size_nodes_bare]
  cases (n.push x).2.nodes[parent]?.bind (·.attach? n.nodes.size) with
  | none => rfl
  | some y => simp [bare, Except.map]

/-- A search among the children finds the same without the batch, if it asks for nothing that belongs to the batch. -/
theorem findChild?_bare (n : Network) (parent : NodeId) {p : Node → Bool} (hp : ∀ x, p x.clear = p x) :
    n.bare.findChild? parent p = n.findChild? parent p := by
  have hc : (fun id : NodeId => n.bare.nodes[id]?.any p) = fun id => n.nodes[id]?.any p := by
    funext id
    rw [getElem?_nodes_bare, Option.any_map]
    congr 1
    funext x
    exact hp x
  unfold findChild?
  rw [hc, getElem?_nodes_bare]
  cases n.nodes[parent]? with
  | none => rfl
  | some x => simp

/-- A change of one memory that does the same without the batch does so in the index. -/
theorem modify_bare (x : AlphaIndex) (a : AlphaId) {f : AlphaMemory → AlphaMemory} (hf : ∀ m, (f m).bare = f m.bare) :
    (x.modify a f).bare = x.bare.modify a f := by
  simp only [AlphaIndex.bare, AlphaIndex.modify, Array.map_modify hf]

/-- A request gives the same memory without the batch. -/
theorem request_bare (x : AlphaIndex) (p : Term) (o : Slot) (excluded : List Term) :
    x.bare.request p o excluded = ((x.request p o excluded).1, (x.request p o excluded).2.bare) := by
  unfold AlphaIndex.request
  simp only [AlphaIndex.byKey_bare]
  cases x.byKey.find? (slotKey p o) with
  | none => simp [AlphaIndex.bare, AlphaMemory.bare, AlphaMemory.fresh, AlphaMemory.exclude]
  | some a =>
    have hm := modify_bare { x with shared := x.shared + 1 } a (f := (·.exclude excluded)) fun m => rfl
    simp only [hm]
    rfl

/-- Asking for the memory of a stage does the same without the batch. -/
theorem requestAlpha_bare (n : Network) (s : Stage) :
    n.bare.requestAlpha s = ((n.requestAlpha s).1, (n.requestAlpha s).2.bare) := by
  have h : n.bare.alpha.request s.condition.predicate s.condition.object s.excluded = _ := request_bare n.alpha _ _ _
  have hs : n.bare.alpha.size = n.alpha.size := n.alpha.size_bare
  unfold requestAlpha
  simp only [h, hs, AlphaIndex.size_bare]
  rfl

/-- Entering a join with its memory does the same without the batch. -/
theorem enlist_bare (n : Network) (alpha : AlphaId) (join : NodeId) :
    n.bare.enlist alpha join = (n.enlist alpha join).map fun p => (p.1, p.2.bare) := by
  have hs : n.bare.alpha.size = n.alpha.size := n.alpha.size_bare
  have hm := modify_bare n.alpha alpha (f := (·.addSuccessor join)) fun m => by
    unfold AlphaMemory.addSuccessor AlphaMemory.bare
    split <;> rfl
  unfold enlist
  rw [hs]
  split
  · simp only [Except.map, bare, hm]
  · rfl

/-- Asking for a join does the same without the batch. -/
theorem requestJoin_bare (n : Network) (parent : NodeId) (alpha : AlphaId) (s : Stage) :
    n.bare.requestJoin parent alpha s = (n.requestJoin parent alpha s).map fun p => (p.1, p.2.bare) := by
  rw [requestJoin_eq, requestJoin_eq, findChild?_bare n parent fun x => by cases x <;> rfl]
  cases n.findChild? parent (Node.serves alpha s) with
  | some id => rfl
  | none =>
    simp only [size_nodes_bare, graft_bare n parent (x := .join _) rfl]
    cases n.graft parent _ with
    | error e => rfl
    | ok n' => exact enlist_bare n' alpha n.nodes.size

/-- Asking for the memory of a join does the same without the batch. -/
theorem requestMemory_bare (n : Network) (join : NodeId) :
    n.bare.requestMemory join = (n.requestMemory join).map fun p => (p.1, p.2.bare) := by
  rw [requestMemory_eq, requestMemory_eq, findChild?_bare n join fun x => by cases x <;> rfl]
  cases n.findChild? join Node.isMemory with
  | some id => rfl
  | none =>
    simp only [size_nodes_bare, graft_bare n join (x := .memory ⟨join, [], #[]⟩) rfl]
    cases n.graft join _ <;> rfl

/-- Compiling one stage does the same without the batch. -/
theorem addStage_bare (n : Network) (parent : NodeId) (s : Stage) :
    n.bare.addStage parent s = (n.addStage parent s).map fun p => (p.1, p.2.bare) := by
  simp only [addStage, requestAlpha_bare, requestJoin_bare]

/-- Compiling the further stages does the same without the batch. -/
theorem addStages_bare (n : Network) (join : NodeId) (ss : List Stage) :
    n.bare.addStages join ss = (n.addStages join ss).map fun p => (p.1, p.2.bare) := by
  induction ss generalizing n join with
  | nil => rfl
  | cons s ss ih =>
    simp only [addStages, Bind.bind, Except.bind, requestMemory_bare]
    cases n.requestMemory join with
    | error e => rfl
    | ok p =>
      simp only [Except.map, addStage_bare]
      cases p.2.addStage p.1 s with
      | error e => rfl
      | ok q => exact ih q.2 q.1

/-- Adding a production does the same without the batch. -/
theorem addProduction_bare (n : Network) (join : NodeId) (r : Rule) :
    n.bare.addProduction join r = (n.addProduction join r).map fun p => (p.1, p.2.bare) := by
  have hg := graft_bare n join (x := .production ⟨join, r.name, r.select, r.conditions.length, #[]⟩) rfl
  rw [addProduction_eq, addProduction_eq, hg, size_nodes_bare]
  cases n.graft join _ <;> rfl

/-- Compiling a rule does to the bare network what it does to the whole one. -/
theorem addRule_bare (n : Network) (r : Rule) : n.bare.addRule r = (n.addRule r).map fun p => (p.1, p.2.bare) := by
  unfold addRule
  cases r.check with
  | error e => rfl
  | ok u =>
    cases r.stages with
    | nil => rfl
    | cons s ss =>
      simp only [Bind.bind, Except.bind, addStage_bare]
      cases n.addStage topNode s with
      | error e => rfl
      | ok p =>
        simp only [Except.map, addStages_bare]
        cases p.2.addStages p.1 ss with
        | error e => rfl
        | ok q => exact addProduction_bare q.2 q.1 r

end Network

end TripleRules

import TripleRules.Proofs.Histories
import TripleRules.Proofs.Scores
import TripleRules.Proofs.Walks

/-!
# Loops without a bound

The insertion of a fact, the score of a production and the two walks along a chain are loops that stop when there is nothing left to
do. In the network each of them has a number of steps that it never exceeds. Here they are as loops without such a number. In every
network that calls lead to they end all the same, and with the same outcome: the parent of a node and that of a token are always
older, so the walks get to the root; and each activation takes one from the work that is left, however many it puts on the stack.
-/

namespace TripleRules.Network

/-- What a computation comes to that may go on for ever; then there is no outcome. -/
abbrev Loop (α : Type) : Type := ExceptT Failure Part α

/-- A computation that ends. -/
def ended {α : Type} (x : Outcome α) : Loop α := ExceptT.mk (Part.some x)

@[simp] theorem ended_bind {α β : Type} (a : α) (f : α → Loop β) : (ended (.ok a) >>= f) = f a := Part.bind_some _ _

@[simp] theorem lift_some {α : Type} (a : α) : (ExceptT.lift (Part.some a) : Loop α) = ended (.ok a) := Part.map_some _ _

@[simp] theorem ok_bind {α β : Type} (a : α) (f : α → Outcome β) : ((.ok a : Outcome α) >>= f) = f a := rfl

/-! ## The loops -/

namespace Unbounded

section

variable {α σ : Type}

/-- A loop is over with its outcome or with a failure, or it goes on. -/
def next : Outcome (α ⊕ σ) → Outcome α ⊕ σ
  | .ok (.inl a) => .inl (.ok a)
  | .ok (.inr y) => .inr y
  | .error e => .inl (.error e)

/-- Goes from one state to the next as long as there is one. -/
def iterate (step : σ → Loop (α ⊕ σ)) (x : σ) : Loop α := ExceptT.mk (PFun.fix (fun y => (step y).run.map next) x)

variable {step : σ → Loop (α ⊕ σ)} {x : σ}

/-- A loop whose step stops ends with what the step gives. -/
theorem iterate_of_inl {a : α} (h : step x = ended (.ok (.inl a))) : iterate step x = ended (.ok a) := by
  refine Part.eq_some_iff.2 (PFun.fix_stop ?_)
  rw [h]
  exact Part.mem_map next (Part.mem_some _)

/-- A loop whose step goes on is the loop from the next state. -/
theorem iterate_of_inr {y : σ} (h : step x = ended (.ok (.inr y))) : iterate step x = iterate step y := by
  refine PFun.fix_fwd_eq ?_
  rw [h]
  exact Part.mem_map next (Part.mem_some _)

end

/-- Stores a pair in a node below a join. The chain of a complete match is flagged for as long as it goes on. -/
def deliver (condition : Condition) (parent : TokenId) (fact : FactId) (n : Network) (child : NodeId) : Loop Network :=
  if n.stored.contains ⟨child, parent, fact⟩ then return n
  else
    match n.nodes[child]? with
    | some (.memory _) =>
      let (token, n) := place condition parent fact n child
      return { n with pending := .left child token :: n.pending }
    | some (.production p) => do
      let (token, n) := place condition parent fact (promote p.rule child n) child
      let (tokens, _) ← ExceptT.lift (n.tokens.markChain token)
      return { n with tokens }
    | _ => ended (.error (.network .misplacedChild child))

/-- Delivers a pair to all nodes below a join. -/
def emit (n : Network) (join : NodeId) (parent : TokenId) (fact : FactId) : Loop Network := do
  let j ← ended (n.joinNode join)
  j.children.foldlM (deliver j.condition parent fact) n

/-- Pairs a new fact with the tokens that reach a join. -/
def activateRight (n : Network) (join : NodeId) (fact : FactId) : Loop Network := do
  let j ← ended (n.joinNode join)
  let tokens ← ended (n.leftTokens j.parent)
  (tokens.filter fun t => n.passes j.tests t fact).foldlM (fun n t => emit n join t fact) n

/-- Pairs a new token with the facts of a join. -/
def extend (token : TokenId) (n : Network) (join : NodeId) : Loop Network := do
  let j ← ended (n.joinNode join)
  match n.alpha.get? j.alpha with
  | some m => (m.newestFirst.filter fun f => n.passes j.tests token f).foldlM (fun n f => emit n join token f) n
  | none => ended (.error (.network .missingAlpha join))

/-- Pairs a new token with the facts of all joins below its memory. -/
def activateLeft (n : Network) (memory : NodeId) (token : TokenId) : Loop Network := do
  (← ended (n.childrenOf memory)).foldlM (extend token) n

/-- Does one activation. -/
def activate (n : Network) : Activation → Loop Network
  | .right join fact => activateRight n join fact
  | .left memory token => activateLeft n memory token

/-- Does one more activation, if one waits. -/
def drainStep (n : Network) : Loop (Network ⊕ Network) :=
  match n.pending with
  | [] => return .inl n
  | a :: rest => do
    let n ← activate (n.withPending rest) a
    return .inr n

/-- Does activations as long as one waits. -/
def drain : Network → Loop Network := iterate drainStep

/-- Inserts a fact and does all that follows from it. -/
def addFact (n : Network) (f : Fact) : Loop (Bool × Network) :=
  if n.seen.contains f then return (false, n)
  else do
    let n ← ended (n.arrive f)
    return (true, ← drain n)

/-- Counts the flagged tokens of one more node, if there is one. The state is the count, the last node, and the cursor. -/
def climbStep (n : Network) : Nat × NodeId × Option NodeId → Loop ((Nat × NodeId) ⊕ (Nat × NodeId × Option NodeId))
  | (total, last, none) => return .inl (total, last)
  | (total, _, some id) => do
    let x ← ended (n.node id)
    return .inr (total + n.flaggedIn x, id, x.parent?)

/-- Counts the flagged tokens of the memories from a cursor up as long as there is a node, and gives the last one. -/
def climb (n : Network) (total : Nat) (last : NodeId) (cursor : Option NodeId) : Loop (Nat × NodeId) :=
  iterate (climbStep n) (total, last, cursor)

/-- The score of a node, and the node where the way up ends. -/
def score (n : Network) (id : NodeId) : Loop (Nat × NodeId) := do
  let x ← ended (n.node id)
  climb n 0 id x.parent?

section

variable {n : Network}

/-- With nothing pending the loop ends. -/
theorem drain_nil (h : n.pending = []) : drain n = ended (.ok n) := iterate_of_inl (by rw [drainStep, h]; rfl)

/-- With something pending the loop works off the newest activation and goes on. -/
theorem drain_cons {n' : Network} {a : Activation} {rest : List Activation} (h : n.pending = a :: rest)
    (ha : activate (n.withPending rest) a = ended (.ok n')) : drain n = drain n' := by
  refine iterate_of_inr ?_
  rw [drainStep, h]
  simp only [ha, ended_bind]
  rfl

/-- A walk without a node to look at ends with its total. -/
theorem climb_none (total : Nat) (last : NodeId) : climb n total last none = ended (.ok (total, last)) := iterate_of_inl rfl

/-- A walk counts the flagged tokens of the node that it looks at and goes on to its parent. -/
theorem climb_some {id : NodeId} {x : Node} (hx : n.nodes[id]? = some x) (total : Nat) (last : NodeId) :
    climb n total last (some id) = climb n (total + n.flaggedIn x) id x.parent? := by
  refine iterate_of_inr ?_
  rw [climbStep, node, hx, ended_bind]
  rfl

end

/-- Steps that end in sound networks end one after the other. -/
theorem foldlM_ends {α : Type} {step : Network → α → Outcome Network} {step' : Network → α → Loop Network} {n : Network}
    (h : n.Sound) (xs : List α)
    (hstep : ∀ x ∈ xs, ∀ n₁, n₁.Sound → n.Grows n₁ →
      step' n₁ x = ended (step n₁ x) ∧ ∃ n₂, step n₁ x = .ok n₂ ∧ n₂.Sound ∧ n₁.Grows n₂) :
    xs.foldlM step' n = ended (xs.foldlM step n) :=
  foldlM_lift ended (fun _ => rfl) ended_bind h xs hstep

end Unbounded

/-! ## Each loop ends -/

/-- One step of the bounded loop works off the newest activation. -/
theorem runUpTo_cons {n : Network} {a : Activation} {rest : List Activation} (hp : n.pending = a :: rest) (k : Nat) :
    runUpTo (k + 1) n = (n.withPending rest).activate a >>= runUpTo k := by
  rw [runUpTo, hp]
  rfl

namespace Sound

variable {n : Network} (h : n.Sound)
include h

/-- A pair that meets is stored without a bound as it is with one. -/
theorem deliver_ends {j : JoinNode} {t : TokenId} {f : FactId} (hm : n.Meets j t f) (c : Condition) (child : NodeId) :
    Unbounded.deliver c t f n child = ended (deliver c t f n child) := by
  have hle := h.le_of_held hm.token
  have hmark : (n.tokens.push t f c.subjectVar? c.objectVar?).2.markChain (n.tokens.size + 1) =
      Part.some ((n.tokens.push t f c.subjectVar? c.objectVar?).2.flagChain (n.tokens.size + 1), rootToken) :=
    (TokenStore.grounded_push h.grounded hle f _ _).markChain_eq (by rw [TokenStore.size_push])
  simp only [Unbounded.deliver, deliver_eq, shelve, complete, place_eq]
  split
  · rfl
  · cases hx : n.nodes[child]? with
    | none => rfl
    | some x =>
      cases x with
      | top cs => rfl
      | join k => rfl
      | memory m => rfl
      | production p =>
        simp only [promote]
        rw [hmark, lift_some, ended_bind]
        rfl

/-- What a pair that meets at a join sets off ends, as in the bounded insertion. -/
theorem emit_ends {join : NodeId} {j : JoinNode} {t : TokenId} {f : FactId} (hj : n.nodes[join]? = some (.join j))
    (hm : n.Meets j t f) : Unbounded.emit n join t f = ended (n.emit join t f) := by
  rw [Unbounded.emit, emit, joinNode_eq hj, ended_bind, ok_bind]
  refine Unbounded.foldlM_ends h j.children fun child hc n₁ h₁ hg₁ => ?_
  have hm₁ := hg₁.meets h.toPaired h₁.toPaired hm
  obtain ⟨n₂, he, h₂, hg₂, -⟩ := deliver_ok h₁ ((join_iff_of_bare hg₁.bare _ _).2 hj) hc hm₁
  exact ⟨h₁.deliver_ends hm₁ j.condition child, n₂, he, h₂, hg₂⟩

/-- The work for a fact at a join that reads its memory ends. -/
theorem activateRight_ends {join : NodeId} {j : JoinNode} {f : FactId} (hj : n.nodes[join]? = some (.join j))
    (hf : f ∈ n.arrived j.alpha) : Unbounded.activateRight n join f = ended (n.activateRight join f) := by
  rw [Unbounded.activateRight, activateRight, joinNode_eq hj]
  simp only [ended_bind, ok_bind, leftTokens_eq h.toTree hj]
  refine Unbounded.foldlM_ends h _ fun t ht n₁ h₁ hg₁ => ?_
  obtain ⟨hheld, hp⟩ := List.mem_filter.1 ht
  have hj₁ := (join_iff_of_bare hg₁.bare join j).2 hj
  have hm₁ := hg₁.meets h.toPaired h₁.toPaired ⟨hheld, hf, hp⟩
  obtain ⟨n₂, he, h₂, hg₂, -⟩ := emit_ok h₁ hj₁ hm₁
  exact ⟨h₁.emit_ends hj₁ hm₁, n₂, he, h₂, hg₂⟩

/-- The work for a token at a join below its node ends. -/
theorem extend_ends {join : NodeId} {j : JoinNode} {t : TokenId} (hj : n.nodes[join]? = some (.join j))
    (ht : t ∈ n.held j.parent) : Unbounded.extend t n join = ended (extend t n join) := by
  obtain ⟨m, hm, -⟩ := (h.keyed _ _).1 (h.join_alpha hj)
  rw [Unbounded.extend, extend, joinNode_eq hj]
  simp only [ended_bind, ok_bind, hm]
  refine Unbounded.foldlM_ends h _ fun f hf n₁ h₁ hg₁ => ?_
  obtain ⟨hnew, hp⟩ := List.mem_filter.1 hf
  rw [AlphaMemory.newestFirst, List.mem_reverse, ← arrived_eq hm] at hnew
  have hj₁ := (join_iff_of_bare hg₁.bare join j).2 hj
  have hm₁ := hg₁.meets h.toPaired h₁.toPaired ⟨ht, hnew, hp⟩
  obtain ⟨n₂, he, h₂, hg₂, -⟩ := emit_ok h₁ hj₁ hm₁
  exact ⟨h₁.emit_ends hj₁ hm₁, n₂, he, h₂, hg₂⟩

/-- The work for a token of a memory ends. -/
theorem activateLeft_ends {memory : NodeId} {m : MemoryNode} {t : TokenId} (hm : n.nodes[memory]? = some (.memory m))
    (ht : t ∈ n.held memory) : Unbounded.activateLeft n memory t = ended (n.activateLeft memory t) := by
  have hchildren : n.childrenOf memory = .ok m.children := by
    rw [childrenOf, node, hm]
    rfl
  rw [Unbounded.activateLeft, activateLeft, hchildren, ended_bind, ok_bind]
  refine Unbounded.foldlM_ends h m.children fun join hc n₁ h₁ hg₁ => ?_
  obtain ⟨j, hj, rfl⟩ := h.join_of_child hm hc
  have hj₁ := (join_iff_of_bare hg₁.bare join j).2 hj
  have ht₁ := hg₁.held _ _ ht
  obtain ⟨n₂, he, h₂, hg₂, -⟩ := extend_ok h₁ hj₁ ht₁
  exact ⟨h₁.extend_ends hj₁ ht₁, n₂, he, h₂, hg₂⟩

/-- The work for an activation that waits ends, as in the bounded insertion. -/
theorem activate_ends {a : Activation} (ha : n.Waits a) : Unbounded.activate n a = ended (n.activate a) := by
  cases a with
  | right join f =>
    obtain ⟨j, hj, hf⟩ := ha
    exact h.activateRight_ends hj hf
  | left memory t =>
    obtain ⟨⟨m, hm⟩, ht⟩ := ha
    exact h.activateLeft_ends hm ht

omit h in
/-- If some number of steps does all that waits, then doing all that waits ends. -/
theorem drain_ends (h : n.Sound) {k : Nat} {n' : Network} (he : runUpTo k n = .ok n') (hp' : n'.pending = []) :
    Unbounded.drain n = ended (.ok n') := by
  induction k generalizing n with
  | zero =>
    obtain rfl := Except.ok.inj he
    exact Unbounded.drain_nil hp'
  | succ k ih =>
    cases hp : n.pending with
    | nil =>
      rw [runUpTo, hp] at he
      obtain rfl := Except.ok.inj he
      exact Unbounded.drain_nil hp
    | cons a rest =>
      have hw : (n.withPending rest).Waits a := h.waits a (by rw [hp]; exact List.mem_cons_self)
      have h₀ : (n.withPending rest).Sound := sound_withPending h fun b hb => by
        rw [hp]
        exact List.mem_cons_of_mem a hb
      obtain ⟨n₁, he₁, h₁, -, -⟩ := activate_top h hp
      rw [runUpTo_cons hp, he₁, ok_bind] at he
      rw [Unbounded.drain_cons hp ((h₀.activate_ends hw).trans (congrArg ended he₁))]
      exact ih h₁ he

/-- Inserting a fact without a bound is inserting it. -/
theorem addFact_ends (f : Fact) : Unbounded.addFact n f = ended (n.addFact f) := by
  by_cases hf : n.seen.contains f = true
  · rw [Unbounded.addFact, if_pos hf, addFact, if_pos hf]
    rfl
  · obtain ⟨n₁, he₁, h₁, -⟩ := arrive_ok h (mt h.contains_iff.2 hf)
    obtain ⟨n₂, he₂, -, hp₂, -⟩ := run_ok h₁
    rw [Unbounded.addFact, if_neg hf, addFact_eq hf, he₁]
    simp only [ended_bind, ok_bind, he₂, h₁.drain_ends he₂ hp₂]
    rfl

end Sound

/-- Only the top node has no parent. -/
theorem Tree.eq_top {n : Network} (h : n.Tree) {id : NodeId} {x : Node} (hx : n.nodes[id]? = some x) (hp : x.parent? = none) :
    id = topNode := by
  cases x with
  | top cs => exact h.top_only hx
  | join j => nomatch hp
  | memory m => nomatch hp
  | production p => nomatch hp

/-- The way up from a node ends at the top node, and counts what is counted with a bound that is large enough. -/
theorem Tree.climb_ends {n : Network} (h : n.Tree) {id : NodeId} {x : Node} (hx : n.nodes[id]? = some x) {k : Nat} (hk : id < k)
    (total : Nat) (last : NodeId) : ∃ s, n.scoreUpTo k (some id) = .ok s ∧
      Unbounded.climb n total last (some id) = ended (.ok (total + s, topNode)) := by
  induction id using Nat.strongRecOn generalizing x k total last with
  | ind id ih =>
    obtain ⟨k, rfl⟩ := Nat.exists_eq_add_one_of_ne_zero (Nat.ne_of_gt (Nat.zero_lt_of_lt hk))
    rw [Unbounded.climb_some hx]
    cases hp : x.parent? with
    | none =>
      refine ⟨n.flaggedIn x + 0, scoreUpTo_succ hx (by rw [hp]; cases k <;> rfl), ?_⟩
      rw [Unbounded.climb_none, h.eq_top hx hp]
      rfl
    | some up =>
      obtain ⟨y, hy, -⟩ := h.parent_carries hx hp
      have hlt := h.parent_lt hx hp
      obtain ⟨s, hs, hclimb⟩ := ih up hlt hy (Nat.lt_of_lt_of_le hlt (Nat.le_of_lt_succ hk)) (total + n.flaggedIn x) id
      refine ⟨n.flaggedIn x + s, scoreUpTo_succ hx (by rw [hp]; exact hs), ?_⟩
      rw [hclimb, Nat.add_assoc]

/-- The score of a node is found at the top node. -/
theorem Tree.score_ends {n : Network} (h : n.Tree) {id : NodeId} {x : Node} (hx : n.nodes[id]? = some x) :
    ∃ s, n.score id = .ok s ∧ Unbounded.score n id = ended (.ok (s, topNode)) := by
  have hnode : n.node id = .ok x := by rw [node, hx]
  rw [score, Unbounded.score, hnode]
  simp only [ended_bind, ok_bind]
  cases hp : x.parent? with
  | none =>
    refine ⟨0, by cases n.nodes.size <;> rfl, ?_⟩
    rw [Unbounded.climb_none, h.eq_top hx hp]
  | some up =>
    obtain ⟨y, hy, -⟩ := h.parent_carries hx hp
    have hlt := (Array.getElem?_eq_some_iff.1 hy).1
    obtain ⟨s, hs, hclimb⟩ := h.climb_ends hy hlt 0 id
    exact ⟨s, hs, by rw [hclimb, Nat.zero_add]⟩

/-- Whatever rules, facts and resets a network is given, and in whatever order, all its loops end. The parents of nodes and of
tokens are older than what they are the parents of. Inserting a fact does activations until none waits, and flags chains on the way
for as long as they go on, and is done; so it comes to what the insertion with its bounds comes to. The way up from any node ends at
the top node, with its score. The walks from any token, the one that reads its chain and the one that flags it, end at the root. -/
theorem calls_end (cs : List Call) : ∃ n rs, calls cs = .ok (n, rs) ∧
    (∀ (id up : NodeId) (x : Node), n.nodes[id]? = some x → x.parent? = some up → up < id) ∧
    (∀ t p : TokenId, n.tokens.parent? t = some p → p < t) ∧
    (∀ f, ∃ b n', Unbounded.addFact n f = ended (.ok (b, n')) ∧ n'.pending = [] ∧ n.addFact f = .ok (b, n')) ∧
    (∀ id < n.nodes.size, ∃ s, Unbounded.score n id = ended (.ok (s, topNode)) ∧ n.score id = .ok s) ∧
    ∀ t, n.tokens.contains t → n.tokens.readChain (some t) = Part.some (n.tokens.chain t) ∧
      (n.tokens.chain t).getLast? = some rootToken ∧ n.tokens.markChain t = Part.some (n.tokens.flagChain t, rootToken) := by
  obtain ⟨n, rs, he, h⟩ := calls_ok cs
  refine ⟨n, rs, he, fun id up x hx hp => h.parent_lt hx hp, fun t p hp => ?_, fun f => ?_, fun id hid => ?_, fun t ht => ?_⟩
  · obtain ⟨l, hl, rfl⟩ := Option.map_eq_some_iff.1 hp
    exact h.grounded t l hl
  · obtain ⟨b, n', hadd, h'⟩ := h.fact f
    exact ⟨b, n', (h.addFact_ends f).trans (congrArg ended hadd), h'.settled, hadd⟩
  · obtain ⟨s, hs, hclimb⟩ := h.score_ends (Array.getElem?_eq_getElem hid)
    exact ⟨s, hclimb, hs⟩
  · have hle : t ≤ n.tokens.size := TokenStore.contains_iff.1 ht
    exact ⟨TokenStore.readChain_of_not_circular (h.grounded.not_circular t), TokenStore.getLast?_chain h.grounded hle,
      h.grounded.markChain_eq hle⟩

end TripleRules.Network

import TripleRules.Proofs.Batches
import TripleRules.Proofs.Extension
import TripleRules.Proofs.LeastMatch

/-!
# What an insertion changes

A fact that is inserted a second time in a batch changes nothing. Any other comes last among the facts, and what follows from it is
added: the rules stay what they were and nothing of the batch is taken back. The scores of nodes can only rise, and the least match
that a production holds can only be replaced by a smaller one.
-/

namespace TripleRules.Network

/-- What an insertion of a fact that was not there may do to a batch. -/
structure GrownBy (n : Network) (f : Fact) (n' : Network) : Prop extends Extends n n' where
  bare : n'.bare = n.bare
  facts_eq : n'.facts = n.facts.push f
  satisfiedNames : ∀ name ∈ n.satisfiedNames, name ∈ n'.satisfiedNames
  score : ∀ id < n.nodes.size, ∃ s s', n.score id = .ok s ∧ n'.score id = .ok s' ∧ s ≤ s'
  least : ∀ {id : NodeId} {p : ProductionNode}, n.nodes[id]? = some (.production p) → n.held id ≠ [] →
    ∃ t t', n.Least id t ∧ n'.Least id t' ∧ (compare (n'.matchOf t') (n.matchOf t)).isLE

/-- A node that holds tokens has one with the least match. -/
theorem exists_least (n : Network) {id : NodeId} (hne : n.held id ≠ []) : ∃ t, n.Least id t := by
  obtain ⟨t, -, ht, hle⟩ := n.exists_leastToken? hne
  exact ⟨t, ht, hle⟩

/-- A node that is found is the one at its handle. -/
theorem node_eq_ok {n : Network} {id : NodeId} {x : Node} : n.node id = .ok x ↔ n.nodes[id]? = some x := by
  rw [node]
  cases n.nodes[id]? with
  | none => simp
  | some y => simp

/-- A count over the way up is what the node there adds and the count above it. -/
theorem exists_of_scoreUpTo {n : Network} {k : Nat} {id : NodeId} {s : Nat} (he : n.scoreUpTo (k + 1) (some id) = .ok s) :
    ∃ x a, n.nodes[id]? = some x ∧ n.scoreUpTo k x.parent? = .ok a ∧ s = n.flaggedIn x + a := by
  rw [scoreUpTo] at he
  obtain ⟨x, hx, he⟩ := bind_eq_ok_iff.1 he
  obtain ⟨a, ha, he⟩ := bind_eq_ok_iff.1 he
  exact ⟨x, a, node_eq_ok.1 hx, ha, (Except.ok.inj he).symm⟩

namespace Extends

variable {n n' : Network} (h : n.Extends n')
include h

/-- A rule that was satisfied still is. -/
theorem mem_satisfiedNames {name : String} (hs : name ∈ n.satisfiedNames) : name ∈ n'.satisfiedNames := by
  obtain ⟨id, hs⟩ := Network.mem_satisfiedNames.1 hs
  exact Network.mem_satisfiedNames.2 (h.satisfied name id hs)

/-! ## Matches -/

/-- A token of a batch has the match that it had. -/
theorem matchOf_eq (hs : n.Sound) (hs' : n'.Sound) {t : TokenId} (ht : t ≤ n.tokens.size) : n'.matchOf t = n.matchOf t := by
  have hfact : ∀ g ∈ n.tokens.chainFacts t, n'.fact? g = n.fact? g := by
    intro g hg
    have hlt := hs.lt_of_mem_chainFacts hs.toWired ht hg
    obtain ⟨new, hnew⟩ := h.facts
    rw [fact?, fact?, ← Array.getElem?_toList, ← Array.getElem?_toList, ← hnew, List.getElem?_append_left hlt]
  rw [matchOf, matchOf, h.tokens.keeps.chainFacts_eq hs.grounded hs'.grounded ht, List.filterMap_congr hfact]

/-- The least match of a node that held tokens is the one that it was, or a smaller one. -/
theorem least (hs : n.Sound) (hs' : n'.Sound) {id : NodeId} (hne : n.held id ≠ []) :
    ∃ t t', n.Least id t ∧ n'.Least id t' ∧ (compare (n'.matchOf t') (n.matchOf t)).isLE := by
  obtain ⟨t, ht⟩ := n.exists_least hne
  have hin : t ∈ n'.held id := (h.held id).subset ht.1
  obtain ⟨t', ht'⟩ := n'.exists_least (List.ne_nil_of_mem hin)
  refine ⟨t, t', ht, ht', ?_⟩
  rw [← h.matchOf_eq hs hs' (hs.le_of_held ht.1)]
  exact ht'.2 t hin

/-! ## Scores -/

section

variable (hb : n'.bare = n.bare)
include hb

/-- A memory has no fewer flagged tokens than it had. -/
theorem flaggedIn_le {id : NodeId} {x x' : Node} (hx : n.nodes[id]? = some x) (hx' : n'.nodes[id]? = some x') :
    n.flaggedIn x ≤ n'.flaggedIn x' := by
  obtain ⟨y, hy, hclear⟩ := exists_of_bare hb hx
  obtain rfl := Option.some.inj (hx'.symm.trans hy)
  have hmemory : x'.isMemory = x.isMemory := by rw [← isMemory_clear, hclear, isMemory_clear]
  rw [flaggedIn_eq_countP hx, flaggedIn_eq_countP hx', hmemory]
  split
  · calc (n.held id).countP n.tokens.isFlagged
        ≤ (n.held id).countP n'.tokens.isFlagged := List.countP_mono_left fun t _ ht => h.tokens.isFlagged ht
      _ ≤ (n'.held id).countP n'.tokens.isFlagged := (h.held id).sublist.countP_le
  · exact Nat.le_refl 0

/-- The way up from a node is what it was, and so nothing is lost on it. -/
theorem scoreUpTo_le (k : Nat) {start : Option NodeId} {s s' : Nat} (hs : n.scoreUpTo k start = .ok s)
    (hs' : n'.scoreUpTo k start = .ok s') : s ≤ s' := by
  induction k generalizing start s s' with
  | zero => cases start <;> cases hs <;> exact Nat.zero_le _
  | succ k ih =>
    cases start with
    | none =>
      cases hs
      exact Nat.zero_le _
    | some id =>
      obtain ⟨x, a, hx, ha, rfl⟩ := exists_of_scoreUpTo hs
      obtain ⟨x', a', hx', ha', rfl⟩ := exists_of_scoreUpTo hs'
      have hp := parentOf_of_bare hb id
      simp only [parentOf, hx, hx', Option.bind_some] at hp
      rw [hp] at ha'
      exact Nat.add_le_add (h.flaggedIn_le hb hx hx') (ih ha ha')

/-- Scores do not fall. -/
theorem score_le (ht : n.Tree) (ht' : n'.Tree) {id : NodeId} (hid : id < n.nodes.size) :
    ∃ s s', n.score id = .ok s ∧ n'.score id = .ok s' ∧ s ≤ s' := by
  obtain ⟨s, hs⟩ := ht.score_ok (Array.getElem?_eq_getElem hid)
  obtain ⟨s', hs'⟩ := ht'.score_ok (Array.getElem?_eq_getElem (size_nodes_of_bare hb ▸ hid))
  refine ⟨s, s', hs, hs', ?_⟩
  obtain ⟨x, hx, hup⟩ := bind_eq_ok_iff.1 hs
  obtain ⟨x', hx', hup'⟩ := bind_eq_ok_iff.1 hs'
  have hp := parentOf_of_bare hb id
  simp only [parentOf, node_eq_ok.1 hx, node_eq_ok.1 hx', Option.bind_some] at hp
  rw [hp, size_nodes_of_bare hb] at hup'
  exact h.scoreUpTo_le hb n.nodes.size hup hup'

end

end Extends

/-! ## Insertions -/

/-- A fact that was not there makes a batch grow, and does nothing else. -/
theorem grownBy_addFact {n n' : Network} {f : Fact} {b : Bool} (h : n.Sound) (h' : n'.Sound) (he : n.addFact f = .ok (b, n'))
    (hb : n'.bare = n.bare) (hf : n'.facts = n.facts.push f) : n.GrownBy f n' :=
  have hext : n.Extends n' := extends_addFact he
  { hext with
    bare := hb
    facts_eq := hf
    satisfiedNames := fun _ hs => hext.mem_satisfiedNames hs
    score := fun _ hid => hext.score_le hb h.toTree h'.toTree hid
    least := fun _ hne => hext.least h h' hne }

/-- Whatever was asked of a network before, an insertion only adds. A fact that was inserted since the last reset changes nothing.
Any other is accepted: the compiled rules stay what they are, the facts and the tokens keep their handles and what they say, each list
of either is continued at its end, flags are set and never taken back, satisfied names stay satisfied, no score drops, and the least
match of a production with tokens gives way to none but a smaller one. -/
theorem addFact_only_adds (cs : List Call) (f : Fact) : ∃ n rs b n', calls cs = .ok (n, rs) ∧ n.addFact f = .ok (b, n') ∧
    ((f ∈ inserted cs ∧ b = false ∧ n' = n) ∨ (f ∉ inserted cs ∧ b = true ∧ n.GrownBy f n')) := by
  obtain ⟨n, rs, he, h⟩ := calls_ok cs
  have hin : f ∈ n.facts ↔ f ∈ inserted cs := (batch_of_calls he).2 f
  rcases addFact_cases h.toSound f with ⟨hold, ha⟩ | ⟨hnew, n', ha, h', -, -, hb, hf, -⟩
  · exact ⟨n, rs, false, n, he, ha, Or.inl ⟨hin.1 hold, rfl, rfl⟩⟩
  · exact ⟨n, rs, true, n', he, ha, Or.inr ⟨fun hm => hnew (hin.2 hm), rfl, grownBy_addFact h.toSound h' ha hb hf⟩⟩

end TripleRules.Network

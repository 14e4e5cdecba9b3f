import Mathlib.Algebra.Order.BigOperators.Group.List
import Mathlib.Algebra.Order.Ring.Nat
import Mathlib.Data.List.Nodup
import Mathlib.Data.List.ProdSigma
import TripleRules.Proofs.Activations

/-!
# Runs

The tokens of a node differ in their parents or their facts, so a node holds no more tokens than there are chains of its length, and
the tokens of all nodes are fewer than the bound on the work. An activation adds at most one activation for each token that it adds.
So a run does all that waits, and ends with every pair that meets stored.
-/

namespace TripleRules.Network

/-! ## How many tokens there are -/

/-- The tokens of all nodes. -/
def allHeld (n : Network) : List TokenId := (List.range n.nodes.size).flatMap n.held

namespace Paired

variable {n : Network} (h : n.Paired)
include h

/-- The tokens of the nodes are the tokens of the batch and the root, each once. -/
theorem perm_allHeld : n.allHeld.Perm (List.range (n.tokens.size + 1)) := by
  have hnodup : n.allHeld.Nodup := by
    refine List.nodup_flatMap.2 ⟨fun id _ => h.nodup id, ?_⟩
    refine List.nodup_range.imp fun {a b} hab => ?_
    intro t ha hb
    exact hab (h.owner_unique ha hb)
  refine (List.perm_ext_iff_of_nodup hnodup List.nodup_range).2 fun t => ?_
  rw [allHeld, List.mem_flatMap, List.mem_range, Nat.lt_succ_iff, h.owner_iff]
  constructor
  · rintro ⟨id, -, ht⟩
    exact ⟨id, ht⟩
  · rintro ⟨id, ht⟩
    refine ⟨id, List.mem_range.2 ?_, ht⟩
    refine Nat.lt_of_not_le fun hle => ?_
    rw [held, Array.getElem?_eq_none hle] at ht
    exact List.not_mem_nil ht

/-- The nodes hold each token once: together as many as there are, with the root. -/
theorem size_tokens : n.tokens.size + 1 = ((List.range n.nodes.size).map fun id => (n.held id).length).sum := by
  have hl := h.perm_allHeld.length_eq
  rw [List.length_range, allHeld, List.length_flatMap] at hl
  exact hl.symm

/-- A node below a join holds no more tokens than there are pairs for it. -/
theorem length_held_le {id up : NodeId} {j : JoinNode} (hup : n.parentOf id = some up) (hj : n.nodes[up]? = some (.join j)) :
    (n.held id).length ≤ (n.held j.parent).length * n.facts.size := by
  have hmap : ((n.held id).map fun t => (n.tokens.parent? t, n.tokens.fact? t)).Nodup := by
    refine (h.nodup id).map_on fun t ht t' ht' he => ?_
    obtain ⟨hp, hf⟩ := Prod.mk.inj he
    exact h.distinct ht ht' hp hf
  have hsub : ((n.held id).map fun t => (n.tokens.parent? t, n.tokens.fact? t)) ⊆
      (n.held j.parent).map some ×ˢ (List.range n.facts.size).map some := by
    intro q hq
    obtain ⟨t, ht, rfl⟩ := List.mem_map.1 hq
    obtain ⟨l, hl, -, -, hm⟩ := h.justified hup hj ht
    rw [TokenStore.parent?_eq_some hl, TokenStore.fact?_eq_some hl]
    exact List.mem_product.2 ⟨List.mem_map_of_mem hm.token, List.mem_map_of_mem (List.mem_range.2 (h.arrived_lt hm.fact))⟩
  have hle := hmap.length_le_of_subset hsub
  rw [List.length_map, List.length_product, List.length_map, List.length_map, List.length_range] at hle
  exact hle

/-- A node holds no more tokens than there are chains of its length. -/
theorem length_held_le_pow (hw : n.Wired) {id : NodeId} {js : List JoinNode} (hp : n.Path topNode id js) :
    (n.held id).length ≤ n.facts.size ^ js.length := by
  induction hp with
  | here =>
    obtain ⟨cs, hcs⟩ := hw.top
    rw [held_eq hcs]
    exact Nat.le_refl 1
  | down hx hup hj _ ih =>
    rw [List.length_cons, Nat.pow_succ]
    exact Nat.le_trans (h.length_held_le (parentOf_eq_some.2 ⟨_, hx, hup⟩) hj) (Nat.mul_le_mul_right _ ih)

/-- The tokens are fewer than the bound on the work. -/
theorem size_tokens_lt (hw : n.Wired) : n.tokens.size < n.nodes.size * (n.facts.size + 1) ^ n.nodes.size := by
  have hnode : ∀ id ∈ List.range n.nodes.size, (n.held id).length ≤ (n.facts.size + 1) ^ n.nodes.size := by
    intro id hid
    have hlt := List.mem_range.1 hid
    have hx := Array.getElem?_eq_getElem hlt
    cases hj : (n.nodes[id]).isJoin with
    | true =>
      rw [held_eq hx]
      cases hxn : n.nodes[id] with
      | join j => exact Nat.zero_le _
      | top cs => rw [hxn] at hj; nomatch hj
      | memory m => rw [hxn] at hj; nomatch hj
      | production p => rw [hxn] at hj; nomatch hj
    | false =>
      obtain ⟨js, hjs⟩ := hw.exists_path hx hj
      have hlen : js.length ≤ n.nodes.size := Nat.le_of_lt (Nat.lt_of_le_of_lt (hw.length_le_of_path hjs) hlt)
      calc (n.held id).length ≤ n.facts.size ^ js.length := h.length_held_le_pow hw hjs
        _ ≤ (n.facts.size + 1) ^ js.length := Nat.pow_le_pow_left (Nat.le_succ _) _
        _ ≤ (n.facts.size + 1) ^ n.nodes.size := Nat.pow_le_pow_right (Nat.succ_pos _) hlen
  have hsum := List.sum_le_card_nsmul ((List.range n.nodes.size).map fun id => (n.held id).length)
    ((n.facts.size + 1) ^ n.nodes.size) fun k hk => by
      obtain ⟨id, hid, rfl⟩ := List.mem_map.1 hk
      exact hnode id hid
  rw [← h.size_tokens, List.length_map, List.length_range, nsmul_eq_mul] at hsum
  exact hsum

end Paired

/-! ## Runs -/

/-- Nothing waits, and every pair that meets is stored. -/
structure Saturated (n : Network) : Prop extends Sound n where
  settled : n.pending = []
  delivered : ∀ {join : NodeId} {j : JoinNode} {t : TokenId} {f : FactId}, n.nodes[join]? = some (.join j) → n.Meets j t f →
    n.Delivered j t f

/-- When nothing waits any more, the pairs that a network is covered for are stored. -/
theorem CoveredFor.delivered {n : Network} {P : TokenId → FactId → Prop} (hc : n.CoveredFor P) (hp : n.pending = []) {join : NodeId}
    {j : JoinNode} {t : TokenId} {f : FactId} (hP : P t f) (hj : n.nodes[join]? = some (.join j)) (hm : n.Meets j t f) :
    n.Delivered j t f := by
  rcases hc hP hj hm with hd | hr | hl
  · exact hd
  · rw [hp] at hr
    exact absurd hr List.not_mem_nil
  · rw [hp] at hl
    exact absurd hl List.not_mem_nil

/-- Without work left everything that meets is stored. -/
theorem saturated_of_covered {n : Network} (h : n.Sound) (hc : n.Covered) (hp : n.pending = []) : n.Saturated where
  toSound := h
  settled := hp
  delivered := fun hj hm => (covered_iff.1 hc).delivered hp trivial hj hm

/-- The activations that wait, and as many as further tokens may come up. -/
def workLeft (n : Network) : Nat := n.pending.length + (n.nodes.size * (n.facts.size + 1) ^ n.nodes.size - n.tokens.size)

/-- No more work is left than the bound. -/
theorem workLeft_le (n : Network) : n.workLeft ≤ n.workBound := Nat.add_le_add_left (Nat.sub_le _ _) _

/-- Each activation takes one from the work that is left: those that it adds are no more than the tokens. -/
theorem workLeft_lt {n n' : Network} {before after : List Activation} {a : Activation} (h' : n'.Sound)
    (hp : n.pending = before ++ a :: after) (hg : (n.withPending (before ++ after)).Grows n') : n'.workLeft < n.workLeft := by
  have hwork : n'.pending.length + n.tokens.size ≤ (before ++ after).length + n'.tokens.size := hg.work
  have hlt := h'.size_tokens_lt h'.toWired
  have hb : n'.bare = n.bare := hg.bare
  have hf : n'.facts = n.facts := hg.facts
  rw [size_nodes_of_bare hb, hf] at hlt
  rw [List.length_append] at hwork
  rw [workLeft, workLeft, size_nodes_of_bare hb, hf, hp, List.length_append, List.length_cons]
  omega

/-- Enough steps do all that waits. -/
theorem runUpTo_ok {n : Network} (h : n.Sound) {k : Nat} (hk : n.workLeft ≤ k) :
    ∃ n', runUpTo k n = .ok n' ∧ n'.Sound ∧ n'.pending = [] ∧ (n.Covered → n'.Covered) ∧ n'.bare = n.bare ∧
      n'.alpha = n.alpha ∧ n'.facts = n.facts := by
  induction k generalizing n with
  | zero =>
    have hp : n.pending = [] := List.length_eq_zero_iff.1 (Nat.eq_zero_of_add_eq_zero_right (Nat.le_zero.1 hk))
    exact ⟨n, rfl, h, hp, fun hc => hc, rfl, rfl, rfl⟩
  | succ k ih =>
    cases hp : n.pending with
    | nil => exact ⟨n, by rw [runUpTo, hp], h, hp, fun hc => hc, rfl, rfl, rfl⟩
    | cons a rest =>
      obtain ⟨n₁, he, h₁, hc₁, hg⟩ := activate_top h hp
      have hlt := workLeft_lt h₁ (show n.pending = [] ++ a :: rest from hp) hg
      obtain ⟨n', he', h', hp', hc', hb', ha', hf'⟩ := ih h₁ (by omega)
      refine ⟨n', ?_, h', hp', fun hc => hc' (hc₁ hc), hb'.trans hg.bare, ha'.trans hg.alpha, hf'.trans hg.facts⟩
      rw [runUpTo, hp]
      simp only [Bind.bind, Except.bind]
      rw [show ({ n with pending := rest } : Network).activate a = .ok n₁ from he]
      exact he'

/-- A run does all that waits, and leaves nothing out where nothing was left out before. -/
theorem run_ok {n : Network} (h : n.Sound) :
    ∃ n', n.run = .ok n' ∧ n'.Sound ∧ n'.pending = [] ∧ (n.Covered → n'.Covered) ∧ n'.bare = n.bare ∧ n'.alpha = n.alpha ∧
      n'.facts = n.facts :=
  runUpTo_ok h n.workLeft_le

end TripleRules.Network

import TripleRules.Proofs.Tuples

/-!
# Counterparts

Two networks with the same rules may have given different handles to tokens that stand for the same. If each token of one has exactly
one counterpart in the same node of the other, and the parents of counterparts are counterparts, then the chains of counterparts run
in step. So the counterpart of a token on a match is on a match, and that of a flagged token is flagged.
-/

namespace TripleRules.Network

/-- A node that holds tokens is reached from the top node. -/
theorem Tree.exists_path_of_held {n : Network} (h : n.Tree) {id : NodeId} {t : TokenId} (ht : t ∈ n.held id) :
    ∃ js, n.Path topNode id js := by
  unfold held at ht
  cases hx : n.nodes[id]? with
  | none =>
    rw [hx] at ht
    exact absurd ht List.not_mem_nil
  | some x =>
    rw [hx] at ht
    refine h.exists_path hx ?_
    cases x with
    | join j => exact absurd ht List.not_mem_nil
    | top cs => rfl
    | memory m => rfl
    | production p => rfl

/-- Each token of a network has one counterpart in the same node of another one with the same rules, and so do the parents. -/
structure Corresponds (n n' : Network) (C : TokenId → TokenId → Prop) : Prop where
  left : n.Sound
  right : n'.Sound
  bare : n'.bare = n.bare
  total : ∀ {id : NodeId} {t : TokenId}, t ∈ n.held id → ∃ t' ∈ n'.held id, C t t'
  unique : ∀ {id : NodeId} {t u u' : TokenId}, u ∈ n'.held id → u' ∈ n'.held id → C t u → C t u' → u = u'
  parent : ∀ {id : NodeId} {t t' : TokenId} {l l' : Link}, t ∈ n.held id → t' ∈ n'.held id → n.tokens.link? t = some l →
    n'.tokens.link? t' = some l' → C t t' → C l.parent l'.parent

namespace Corresponds

variable {n n' : Network} {C : TokenId → TokenId → Prop} (h : Corresponds n n' C)
include h

/-- The tokens on the chains of counterparts are counterparts. -/
theorem exists_chain {id : NodeId} {js : List JoinNode} (hp : n.Path topNode id js) {u u' t : TokenId} (hu : u ∈ n.held id)
    (hu' : u' ∈ n'.held id) (hc : C u u') (ht : t ∈ n.tokens.chain u) :
    ∃ t' ∈ n'.tokens.chain u', ∃ mid, t ∈ n.held mid ∧ t' ∈ n'.held mid ∧ C t t' := by
  induction hp generalizing u u' with
  | here =>
    rw [h.left.held_top, List.mem_singleton] at hu
    subst hu
    rw [TokenStore.chain_root, List.mem_singleton] at ht
    subst ht
    exact ⟨u', TokenStore.mem_chain_self h.right.grounded (h.right.le_of_held hu'), topNode,
      by rw [h.left.held_top]; exact List.mem_singleton_self _, hu', hc⟩
  | @down id up x j js hx hup hj hpath ih =>
    have hparent : n.parentOf id = some up := parentOf_eq_some.2 ⟨x, hx, hup⟩
    have hparent' : n'.parentOf id = some up := by rw [parentOf_of_bare h.bare, hparent]
    obtain ⟨l, hl, -, -, hm⟩ := h.left.justified hparent hj hu
    obtain ⟨l', hl', -, -, hm'⟩ := h.right.justified hparent' ((join_iff_of_bare h.bare _ _).2 hj) hu'
    rw [TokenStore.chain_of_link h.left.grounded hl, List.mem_cons] at ht
    rcases ht with rfl | ht
    · exact ⟨u', TokenStore.mem_chain_self h.right.grounded (h.right.le_of_held hu'), id, hu, hu', hc⟩
    · obtain ⟨t', ht', hrest⟩ := ih hm.token hm'.token (h.parent hu hu' hl hl' hc) ht
      refine ⟨t', ?_, hrest⟩
      rw [TokenStore.chain_of_link h.right.grounded hl']
      exact List.mem_cons_of_mem _ ht'

/-- If a token is on a match, so is its counterpart. -/
theorem onMatch {id : NodeId} {t t' : TokenId} (ht : t ∈ n.held id) (ht' : t' ∈ n'.held id) (hc : C t t') (hm : n.OnMatch t) :
    n'.OnMatch t' := by
  obtain ⟨prod, p, u, hp, hu, hchain⟩ := hm
  obtain ⟨js, hpath⟩ := h.left.exists_path_of_held hu
  obtain ⟨u', hu', hcu⟩ := h.total hu
  obtain ⟨v', hv', mid, hmid, hmid', hcv⟩ := h.exists_chain hpath hu hu' hcu hchain
  obtain rfl := h.left.owner_unique ht hmid
  obtain rfl := h.unique hmid' ht' hcv hc
  obtain ⟨p', hp', -⟩ := production_of_bare h.bare hp
  exact ⟨prod, p', u', hp', hu', hv'⟩

/-- If a token is flagged, so is its counterpart. -/
theorem isFlagged_of {id : NodeId} {t t' : TokenId} (ht : t ∈ n.held id) (ht' : t' ∈ n'.held id) (hc : C t t')
    (hf : n.tokens.isFlagged t = true) : n'.tokens.isFlagged t' = true := by
  obtain ⟨hne, hm⟩ := (h.left.flagged_iff t).1 hf
  refine (h.right.flagged_iff t').2 ⟨fun h₀ => hne ?_, h.onMatch ht ht' hc hm⟩
  -- only the roots are held by the top nodes
  exact (h.left.eq_root_iff ht).2 ((h.right.eq_root_iff ht').1 h₀)

end Corresponds

end TripleRules.Network

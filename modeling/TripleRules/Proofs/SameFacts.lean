import Mathlib.Data.List.Perm.Basic
import TripleRules.Network.Specificity
import TripleRules.Proofs.Counterparts
import TripleRules.Proofs.NaiveJoin

/-!
# Two batches of the same facts

Two networks with the same rules that have done all their work for the same facts need not have the same tokens: handles and orders
depend on the order in which the facts came. But each token of one has a counterpart in the other, the token of the same node with
the same facts on its chain. Counterparts have chains of counterparts, so they are on matches, and flagged, together.
-/

namespace TripleRules.Network

/-- Two networks with the same rules that have done all their work for the same facts. -/
structure Alike (n n' : Network) : Prop where
  left : n.Finished
  right : n'.Finished
  bare : n'.bare = n.bare
  facts : ∀ g, g ∈ n.facts.toList ↔ g ∈ n'.facts.toList

namespace Alike

variable {n n' : Network} (h : n.Alike n')
include h

theorem symm : n'.Alike n := ⟨h.right, h.left, h.bare.symm, fun g => (h.facts g).symm⟩

/-! ## Counterparts -/

/-- The joins let the same tuples through. -/
theorem joined {js : List JoinNode} {gs : List Fact} (hg : Joined n.alpha n.facts.toList js gs) :
    Joined n'.alpha n'.facts.toList js gs where
  length := hg.length
  inserted := fun g hmem => (h.facts g).1 (hg.inserted g hmem)
  routed := fun hj hgi => by
    rw [route_of_bare h.bare]
    exact hg.routed hj hgi
  tested := hg.tested

/-- Each token has a counterpart. -/
theorem exists_counterpart {id : NodeId} {t : TokenId} (ht : t ∈ n.held id) : ∃ t' ∈ n'.held id, n'.matchOf t' = n.matchOf t := by
  obtain ⟨js, hp⟩ := h.left.exists_path_of_held ht
  exact h.right.exists_held_of_joined (hp.of_bare h.bare) (h.joined (h.left.joined_of_held hp ht))

/-- A node has the same tuples. -/
theorem image_matchOf (id : NodeId) : n.matchOf '' {t | t ∈ n.held id} = n'.matchOf '' {t | t ∈ n'.held id} := by
  ext gs
  constructor
  · rintro ⟨t, ht, rfl⟩
    exact h.exists_counterpart ht
  · rintro ⟨t, ht, rfl⟩
    exact h.symm.exists_counterpart ht

/-- A node holds nothing in one run exactly if it holds nothing in the other. -/
theorem held_eq_nil_iff (id : NodeId) : n.held id = [] ↔ n'.held id = [] := by
  simp only [List.eq_nil_iff_forall_not_mem]
  constructor
  · intro hnone t ht
    obtain ⟨u, hu, -⟩ := h.symm.exists_counterpart ht
    exact hnone u hu
  · intro hnone t ht
    obtain ⟨u, hu, -⟩ := h.exists_counterpart ht
    exact hnone u hu

/-- A property that counterparts share holds of as many tokens of a node. -/
theorem countP_held (id : NodeId) (P P' : TokenId → Bool)
    (hP : ∀ t ∈ n.held id, ∀ t' ∈ n'.held id, n'.matchOf t' = n.matchOf t → P t = P' t') :
    (n.held id).countP P = (n'.held id).countP P' := by
  have hnodup : ∀ {m : Network} (Q : TokenId → Bool), m.Finished → (((m.held id).filter Q).map m.matchOf).Nodup := by
    intro m Q hm
    refine ((hm.nodup id).filter Q).map_on fun t ht t' ht' he => ?_
    have hmem := List.mem_of_mem_filter ht
    obtain ⟨js, hp⟩ := hm.exists_path_of_held hmem
    exact hm.matchOf_inj hp hmem (List.mem_of_mem_filter ht') he
  have hperm : (((n.held id).filter P).map n.matchOf).Perm (((n'.held id).filter P').map n'.matchOf) := by
    refine (List.perm_ext_iff_of_nodup (hnodup P h.left) (hnodup P' h.right)).2 fun gs => ?_
    simp only [List.mem_map, List.mem_filter]
    constructor
    · rintro ⟨t, ⟨ht, hPt⟩, rfl⟩
      obtain ⟨t', ht', he⟩ := h.exists_counterpart ht
      exact ⟨t', ⟨ht', (hP t ht t' ht' he).symm.trans hPt⟩, he⟩
    · rintro ⟨t', ⟨ht', hPt⟩, rfl⟩
      obtain ⟨t, ht, he⟩ := h.symm.exists_counterpart ht'
      exact ⟨t, ⟨ht, (hP t ht t' ht' he.symm).trans hPt⟩, he⟩
  have hlen := hperm.length_eq
  rw [List.length_map, List.length_map] at hlen
  rw [List.countP_eq_length_filter, List.countP_eq_length_filter, hlen]

/-- A node holds as many tokens in one run as in the other. -/
theorem length_held (id : NodeId) : (n.held id).length = (n'.held id).length := by
  have hc := h.countP_held id (fun _ => true) (fun _ => true) fun _ _ _ _ _ => rfl
  rw [List.countP_true] at hc
  exact hc

/-! ## Flags -/

/-- The tokens of the same match correspond. -/
theorem corresponds : Corresponds n n' fun t t' => n'.matchOf t' = n.matchOf t where
  left := h.left.toSound
  right := h.right.toSound
  bare := h.bare
  total := h.exists_counterpart
  unique := fun hu hu' he he' => by
    obtain ⟨js, hp⟩ := h.right.exists_path_of_held hu
    exact h.right.matchOf_inj hp hu hu' (he.trans he'.symm)
  parent := fun {id t t' l l'} ht ht' hl hl' he => by
    have hfact : ∀ {m : Network} {u : TokenId} {k : Link}, m.Finished → u ∈ m.held id → m.tokens.link? u = some k →
        ∃ g, m.matchOf u = m.matchOf k.parent ++ [g] := by
      intro m u k hm hu hk
      obtain ⟨_, _, _, k', -, -, -, hk', hmeets⟩ := hm.exists_meets hm.toWired (TokenStore.ne_root_of_link? hk) (hm.le_of_held hu)
      obtain rfl := Option.some.inj (hk.symm.trans hk')
      obtain ⟨g, hg, -⟩ := hm.arrived_iff.1 hmeets.fact
      exact ⟨g, matchOf_of_link hm.grounded hk hg⟩
    obtain ⟨g, hg⟩ := hfact h.left ht hl
    obtain ⟨g', hg'⟩ := hfact h.right ht' hl'
    rw [hg, hg'] at he
    exact (List.append_inj' he rfl).1

/-- Counterparts are flagged together. -/
theorem isFlagged_eq {id : NodeId} {t t' : TokenId} (ht : t ∈ n.held id) (ht' : t' ∈ n'.held id)
    (he : n'.matchOf t' = n.matchOf t) : n.tokens.isFlagged t = n'.tokens.isFlagged t' :=
  Bool.eq_iff_iff.2 ⟨h.corresponds.isFlagged_of ht ht' he, h.symm.corresponds.isFlagged_of ht' ht he.symm⟩

end Alike

end TripleRules.Network

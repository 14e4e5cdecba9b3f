import TripleRules.Proofs.Chain
import TripleRules.Proofs.SameRules

/-!
# Tokens stand for pairs

A network is paired if its tokens are the pairs that its joins let through: every token below a join stands for a token that
reached the join and a fact of its alpha memory that pass its tests, and no node holds two tokens for one pair.
-/

namespace TripleRules.Network

/-- Whether a token and a fact meet at a join: both have reached it, and they pass its tests. -/
structure Meets (n : Network) (j : JoinNode) (t : TokenId) (f : FactId) : Prop where
  token : t ∈ n.held j.parent
  fact : f ∈ n.arrived j.alpha
  passes : n.passes j.tests t f = true

/-- The tokens are the pairs that the joins let through, each in one node and once. -/
structure Paired (n : Network) : Prop where
  grounded : n.tokens.Grounded
  owner_iff : ∀ {t : TokenId}, t ≤ n.tokens.size ↔ ∃ id, t ∈ n.held id
  owner_unique : ∀ {t : TokenId} {id id' : NodeId}, t ∈ n.held id → t ∈ n.held id' → id = id'
  nodup : ∀ id, (n.held id).Nodup
  distinct : ∀ {id : NodeId} {t t' : TokenId}, t ∈ n.held id → t' ∈ n.held id → n.tokens.parent? t = n.tokens.parent? t' →
    n.tokens.fact? t = n.tokens.fact? t' → t = t'
  justified : ∀ {id up : NodeId} {j : JoinNode} {t : TokenId}, n.parentOf id = some up → n.nodes[up]? = some (.join j) →
    t ∈ n.held id → ∃ l, n.tokens.link? t = some l ∧ l.subjectVar = j.condition.subjectVar? ∧
      l.objectVar = j.condition.objectVar? ∧ n.Meets j l.parent l.fact
  stored_iff : ∀ {id : NodeId} {p : TokenId} {f : FactId}, n.stored.contains ⟨id, p, f⟩ = true ↔
    ∃ t ∈ n.held id, n.tokens.parent? t = some p ∧ n.tokens.fact? t = some f
  arrived_lt : ∀ {a : AlphaId} {f : FactId}, f ∈ n.arrived a → f < n.facts.size

/-! ## Tests -/

/-- A test reads the fact of an earlier condition off the chain of the token. -/
theorem holds_eq {n : Network} (hs : n.tokens.Grounded) {t : TokenId} (ht : t ≤ n.tokens.size) (new : Fact) (test : JoinTest) :
    n.holds t new test =
      match ((n.tokens.chainFacts t)[test.levelsUp - 1]?).bind (n.facts[·]?) with
      | some old => test.newField.read new == test.oldField.read old
      | none => true := by
  have hold : (do
      let a ← n.tokens.ancestor? t (test.levelsUp - 1)
      let f ← n.tokens.fact? a
      n.facts[f]?) = ((n.tokens.chainFacts t)[test.levelsUp - 1]?).bind (n.facts[·]?) := by
    rw [TokenStore.getElem?_chainFacts hs ht, Option.bind_assoc]
    rfl
  exact congrArg (fun old? => match old? with
    | some old => test.newField.read new == test.oldField.read old
    | none => true) hold

/-- What a token passes depends on the facts of its chain and the new fact only. -/
theorem passes_congr {n n' : Network} (hs : n.tokens.Grounded) (hs' : n'.tokens.Grounded) {t t' : TokenId}
    (ht : t ≤ n.tokens.size) (ht' : t' ≤ n'.tokens.size) (hc : n'.tokens.chainFacts t' = n.tokens.chainFacts t) {f : FactId}
    (hf : n'.facts[f]? = n.facts[f]?) (hold : ∀ g ∈ n.tokens.chainFacts t, n'.facts[g]? = n.facts[g]?)
    (tests : List JoinTest) : n'.passes tests t' f = n.passes tests t f := by
  have hholds : ∀ new, n'.holds t' new = n.holds t new := by
    intro new
    funext test
    have he : ((n.tokens.chainFacts t)[test.levelsUp - 1]?).bind (n'.facts[·]?) =
        ((n.tokens.chainFacts t)[test.levelsUp - 1]?).bind (n.facts[·]?) := by
      cases hg : (n.tokens.chainFacts t)[test.levelsUp - 1]? with
      | none => rfl
      | some g => exact hold g (List.mem_of_getElem? hg)
    rw [holds_eq hs' ht', holds_eq hs ht, hc, he]
  have hroot : t' = rootToken ↔ t = rootToken := by
    rw [← TokenStore.chainFacts_eq_nil_iff hs' ht', hc, TokenStore.chainFacts_eq_nil_iff hs ht]
  have hin : n.tokens.contains t = true := TokenStore.contains_iff.2 ht
  have hin' : n'.tokens.contains t' = true := TokenStore.contains_iff.2 ht'
  simp only [passes, hin, hin', hf, hholds, hroot]

/-! ## Paired networks -/

namespace Paired

variable {n : Network} (h : n.Paired)
include h

theorem le_of_held {t : TokenId} {id : NodeId} (ht : t ∈ n.held id) : t ≤ n.tokens.size := h.owner_iff.2 ⟨id, ht⟩

/-- The next token that is pushed is held nowhere yet. -/
theorem ne_next {t : TokenId} {id : NodeId} (ht : t ∈ n.held id) : t ≠ n.tokens.size + 1 :=
  Nat.ne_of_lt (Nat.lt_succ_of_le (h.le_of_held ht))

/-- A token other than the root is held below a join, for a pair that met there. -/
theorem exists_meets (hw : n.Wired) {t : TokenId} (h₀ : t ≠ rootToken) (ht : t ≤ n.tokens.size) :
    ∃ (id up : NodeId) (j : JoinNode) (l : Link), t ∈ n.held id ∧ n.parentOf id = some up ∧ n.nodes[up]? = some (.join j) ∧
      n.tokens.link? t = some l ∧ n.Meets j l.parent l.fact := by
  obtain ⟨id, hid⟩ := h.owner_iff.1 ht
  cases hx : n.nodes[id]? with
  | none =>
    rw [held, hx] at hid
    exact absurd hid List.not_mem_nil
  | some x =>
    have hheld := hid
    rw [held_eq hx] at hid
    have hbelow : ∀ up, x.parent? = some up → x.isJoin = false → ∃ (id up : NodeId) (j : JoinNode) (l : Link),
        t ∈ n.held id ∧ n.parentOf id = some up ∧ n.nodes[up]? = some (.join j) ∧ n.tokens.link? t = some l ∧
          n.Meets j l.parent l.fact := by
      intro up hp hj
      obtain ⟨j, hjn⟩ := hw.parent_join hx hp hj
      obtain ⟨l, hl, -, -, hm⟩ := h.justified (parentOf_eq_some.2 ⟨x, hx, hp⟩) hjn hheld
      exact ⟨id, up, j, l, hheld, parentOf_eq_some.2 ⟨x, hx, hp⟩, hjn, hl, hm⟩
    cases x with
    | top cs => exact absurd (List.mem_singleton.1 hid) h₀
    | join j => exact absurd hid List.not_mem_nil
    | memory m => exact hbelow m.parent rfl rfl
    | production p => exact hbelow p.parent rfl rfl

/-- The facts of a chain are facts of the batch. -/
theorem lt_of_mem_chainFacts (hw : n.Wired) {t : TokenId} (ht : t ≤ n.tokens.size) {f : FactId}
    (hf : f ∈ n.tokens.chainFacts t) : f < n.facts.size := by
  induction t using Nat.strongRecOn with
  | ind t ih =>
    by_cases h₀ : t = rootToken
    · subst h₀
      rw [TokenStore.chainFacts_root] at hf
      exact absurd hf List.not_mem_nil
    · obtain ⟨_, _, _, l, -, -, -, hl, hm⟩ := h.exists_meets hw h₀ ht
      rw [TokenStore.chainFacts_of_link h.grounded hl, List.mem_cons] at hf
      rcases hf with rfl | hf
      · exact h.arrived_lt hm.fact
      · exact ih _ (h.grounded t l hl) (h.le_of_held hm.token) hf

end Paired

/-- A pair that meets goes on doing so where tokens are added. -/
theorem Meets.mono {n n' : Network} (h : n.Paired) (hs' : n'.tokens.Grounded) (hk : n.tokens.Keeps n'.tokens)
    (hle : n.tokens.size ≤ n'.tokens.size) (hheld : ∀ id, ∀ t ∈ n.held id, t ∈ n'.held id)
    (ha : n'.alpha = n.alpha) (hf : n'.facts = n.facts) {j : JoinNode} {t : TokenId} {f : FactId} (hm : n.Meets j t f) :
    n'.Meets j t f := by
  have ht := h.le_of_held hm.token
  refine ⟨hheld _ _ hm.token, ?_, ?_⟩
  · rw [arrived, ha]
    exact hm.fact
  · rw [passes_congr h.grounded hs' ht (Nat.le_trans ht hle) (hk.chainFacts_eq h.grounded hs' ht) (by rw [hf])
      fun g _ => by rw [hf]]
    exact hm.passes

end TripleRules.Network

import TripleRules.Proofs.Additions
import TripleRules.Proofs.Intake

/-!
# Batches only grow

Within a batch nothing is taken back. Facts and tokens stay where they are, what comes up is put at the end of each list, a token that is
flagged stays so, and so does a satisfied name. Every delivery keeps to this, whatever the network is like, and so does all that an
insertion makes follow.
-/

namespace TripleRules

namespace TokenStore

/-- Every link of a store is a link of another one, which may have been flagged since. -/
def Retains (s s' : TokenStore) : Prop :=
  ∀ id l, s.link? id = some l → ∃ b, s'.link? id = some { l with flagged := l.flagged || b }

theorem Retains.refl (s : TokenStore) : s.Retains s := fun _ l h => ⟨false, by rw [h, Bool.or_false]⟩

/-- Retaining tokens is transitive. -/
theorem Retains.trans {s s' s'' : TokenStore} (h : s.Retains s') (h' : s'.Retains s'') : s.Retains s'' := by
  intro id l hl
  obtain ⟨b, hb⟩ := h id l hl
  obtain ⟨b', hb'⟩ := h' id _ hb
  exact ⟨b || b', by rw [hb', Bool.or_assoc]⟩

/-- A store that retains the tokens keeps them: only flags may be added. -/
theorem Retains.keeps {s s' : TokenStore} (h : s.Retains s') : s.Keeps s' := fun id l hl => by
  obtain ⟨b, hb⟩ := h id l hl
  exact ⟨_, hb⟩

/-- A flagged token stays flagged. -/
theorem Retains.isFlagged {s s' : TokenStore} (h : s.Retains s') {t : TokenId} (ht : s.isFlagged t = true) :
    s'.isFlagged t = true := by
  obtain ⟨l, hl, hf⟩ := (Option.any_eq_true _ _).1 ht
  obtain ⟨b, hb⟩ := h t l hl
  rw [TokenStore.isFlagged, hb, Option.any_some, hf, Bool.true_or]

/-- A push retains the tokens that are there. -/
theorem retains_push (s : TokenStore) (p : TokenId) (f : FactId) (x y : Option String) : s.Retains (s.push p f x y).2 := by
  intro id l hl
  have hne : id ≠ s.size + 1 := Nat.ne_of_lt (Nat.lt_succ_of_le (le_size_of_link? hl))
  exact ⟨false, by rw [link?_push, if_neg hne, hl, Bool.or_false]⟩

/-- Flagging a token retains all of them. -/
theorem retains_flag (s : TokenStore) (id : TokenId) : s.Retains (s.flag id) := by
  intro t l hl
  rw [link?_flag, hl]
  split
  · exact ⟨true, by rw [Bool.or_true]; rfl⟩
  · exact ⟨false, by rw [Bool.or_false]⟩

/-- Flagging a chain retains the tokens. -/
theorem retains_flagUpTo (k : Nat) (id : TokenId) (s : TokenStore) : s.Retains (flagUpTo k id s) := by
  induction k generalizing id s with
  | zero => exact .refl s
  | succ k ih =>
    rw [flagUpTo]
    split
    · exact (retains_flag s id).trans (ih _ _)
    · exact .refl s

end TokenStore

namespace Network

/-- What a batch had is still there, at its place; what is new in a list comes at its end. -/
structure Extends (n n' : Network) : Prop where
  facts : n.facts.toList <+: n'.facts.toList
  tokens : n.tokens.Retains n'.tokens
  arrived : ∀ a, n.arrived a <+: n'.arrived a
  held : ∀ id, n.held id <+: n'.held id
  satisfied : ∀ name id, n.satisfied.find? name = some id → ∃ id', n'.satisfied.find? name = some id'

namespace Extends

theorem refl (n : Network) : n.Extends n where
  facts := List.prefix_rfl
  tokens := .refl _
  arrived := fun _ => List.prefix_rfl
  held := fun _ => List.prefix_rfl
  satisfied := fun _ id hs => ⟨id, hs⟩

/-- Extensions of extensions are extensions. -/
theorem trans {a b c : Network} (h : a.Extends b) (h' : b.Extends c) : a.Extends c where
  facts := h.facts.trans h'.facts
  tokens := h.tokens.trans h'.tokens
  arrived := fun x => (h.arrived x).trans (h'.arrived x)
  held := fun id => (h.held id).trans (h'.held id)
  satisfied := fun name id hs => by
    obtain ⟨id', hs'⟩ := h.satisfied name id hs
    exact h'.satisfied name id' hs'

/-- What waits is no part of what is kept. -/
theorem withPending {n n' : Network} {pending : List Activation} (h : (n.withPending pending).Extends n') : n.Extends n' :=
  ⟨h.facts, h.tokens, h.arrived, h.held, h.satisfied⟩

end Extends

/-! ## Deliveries -/

/-- A token that is stored comes last. -/
theorem held_prefix_modify {n n' : Network} {child : NodeId} {t : TokenId} (hn : n'.nodes = n.nodes.modify child (·.store t))
    (id : NodeId) : n.held id <+: n'.held id := by
  rw [held, held, hn, Array.getElem?_modify]
  split
  · cases n.nodes[id]? with
    | none => exact List.prefix_rfl
    | some x =>
      cases x with
      | top cs => exact List.prefix_rfl
      | join j => exact List.prefix_rfl
      | memory m =>
        refine ⟨[t], ?_⟩
        exact Array.toList_push.symm
      | production p =>
        refine ⟨[t], ?_⟩
        exact Array.toList_push.symm
  · exact List.prefix_rfl

/-- A delivery extends the network. -/
theorem extends_deliver {c : Condition} {t : TokenId} {f : FactId} {child : NodeId} {n n' : Network}
    (he : deliver c t f n child = .ok n') : n.Extends n' := by
  rw [deliver_eq] at he
  split at he
  · obtain rfl := Except.ok.inj he
    exact .refl n
  · split at he
    · obtain rfl := Except.ok.inj he
      exact ⟨List.prefix_rfl, TokenStore.retains_push _ _ _ _ _, fun _ => List.prefix_rfl, held_prefix_modify rfl,
        fun _ id hs => ⟨id, hs⟩⟩
    · rename_i p _
      obtain rfl := Except.ok.inj he
      refine ⟨List.prefix_rfl, (TokenStore.retains_push _ _ _ _ _).trans (TokenStore.retains_flagUpTo _ _ _),
        fun _ => List.prefix_rfl, held_prefix_modify rfl, fun name id hs => ?_⟩
      have hfind : (complete c t f p.rule n child).satisfied.find? name =
          if name = p.rule then some child else n.satisfied.find? name := Table.find?_insert _ _ _ _
      rw [hfind]
      split
      · exact ⟨child, rfl⟩
      · exact ⟨id, hs⟩
    · nomatch he

/-- Deliveries extend the network. -/
theorem Delivers.extends {P : TokenId → FactId → Prop} {n n' : Network} (h : Delivers P n n') : n.Extends n' := by
  induction h with
  | refl => exact .refl _
  | step _ he _ ih => exact (extends_deliver he).trans ih

/-- The work on what is pending extends the network. -/
theorem extends_runUpTo {k : Nat} {n n' : Network} (he : runUpTo k n = .ok n') : n.Extends n' := by
  induction k generalizing n with
  | zero =>
    obtain rfl := Except.ok.inj he
    exact .refl n
  | succ k ih =>
    rw [runUpTo] at he
    split at he
    · obtain rfl := Except.ok.inj he
      exact .refl n
    · obtain ⟨n₁, ha, he⟩ := bind_eq_ok_iff.1 he
      exact (delivers_activate ha).extends.withPending.trans (ih he)

/-! ## Insertions -/

/-- The arrival of a fact in a memory extends the network. -/
theorem extends_receive {g : FactId} {a : AlphaId} {n n' : Network} (he : receive g n a = .ok n') : n.Extends n' := by
  obtain ⟨m, hm, rfl⟩ := receive_eq_ok he
  refine ⟨List.prefix_rfl, .refl _, fun b => ?_, fun _ => List.prefix_rfl, fun _ id hs => ⟨id, hs⟩⟩
  rw [arrived_withArrival hm]
  exact List.prefix_append _ _

/-- The arrival of a fact in all its memories extends the network. -/
theorem extends_arrive {n n' : Network} {f : Fact} (he : n.arrive f = .ok n') : n.Extends n' := by
  have hfact : n.Extends (n.withFact f) := by
    refine ⟨?_, .refl _, fun _ => List.prefix_rfl, fun _ => List.prefix_rfl, fun _ id hs => ⟨id, hs⟩⟩
    rw [withFact, Array.toList_push]
    exact List.prefix_append _ _
  have hfold : ∀ (as : List AlphaId) (n₁ : Network), as.foldlM (receive n.facts.size) n₁ = .ok n' → n₁.Extends n' := by
    intro as
    induction as with
    | nil =>
      intro n₁ he
      obtain rfl := Except.ok.inj he
      exact .refl _
    | cons a as ih =>
      intro n₁ he
      rw [List.foldlM_cons] at he
      obtain ⟨n₂, he₂, he⟩ := bind_eq_ok_iff.1 he
      exact (extends_receive he₂).trans (ih n₂ he)
  exact hfact.trans (hfold _ _ he)

/-- An insertion takes nothing back. -/
theorem extends_addFact {n n' : Network} {f : Fact} {b : Bool} (he : n.addFact f = .ok (b, n')) : n.Extends n' := by
  by_cases hf : n.seen.contains f = true
  · rw [addFact, if_pos hf] at he
    obtain ⟨-, rfl⟩ := Prod.mk.inj (Except.ok.inj he)
    exact .refl n
  · rw [addFact_eq hf] at he
    obtain ⟨n₁, ha, he⟩ := bind_eq_ok_iff.1 he
    obtain ⟨n₂, hr, he⟩ := bind_eq_ok_iff.1 he
    obtain ⟨-, rfl⟩ := Prod.mk.inj (Except.ok.inj he)
    exact (extends_arrive ha).trans (extends_runUpTo hr)

end Network

end TripleRules

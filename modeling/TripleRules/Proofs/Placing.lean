import TripleRules.Proofs.Pairing

/-!
# Placing a pair

A pair is put into a node as a new token; in a memory the token then waits, in a production its chain is flagged. Both are the same
step to the pairs: if the pair meets at the join above and is new to the node, the network stays paired.
-/

namespace TripleRules.Network

/-- A pair that matched a condition is in a node as a new token, and all else that the pairs depend on is as it was. -/
structure Places (c : Condition) (p : TokenId) (f : FactId) (child : NodeId) (n n' : Network) : Prop where
  bare : n'.bare = n.bare
  alpha : n'.alpha = n.alpha
  facts : n'.facts = n.facts
  seen : n'.seen = n.seen
  stored : n'.stored = n.stored.insert ⟨child, p, f⟩
  grounded : n'.tokens.Grounded
  keeps : n.tokens.Keeps n'.tokens
  size : n'.tokens.size = n.tokens.size + 1
  link : ∃ b, n'.tokens.link? (n.tokens.size + 1) = some ⟨p, f, c.subjectVar?, c.objectVar?, b⟩
  held : ∀ id, n'.held id = if id = child then n.held id ++ [n.tokens.size + 1] else n.held id
  touchedAlphas : n'.touchedAlphas = n.touchedAlphas
  touchedNodes : n'.touchedNodes = record n.touchedNodes child

namespace Places

variable {c : Condition} {p : TokenId} {f : FactId} {child : NodeId} {n n' : Network} (hp : Places c p f child n n')
include hp

/-- A node holds what it held, and the node of the pair holds the new token. -/
theorem mem_held {id : NodeId} {t : TokenId} :
    t ∈ n'.held id ↔ t ∈ n.held id ∨ (id = child ∧ t = n.tokens.size + 1) := by
  rw [hp.held]
  split <;> simp [*]

/-- What a node held it still holds. -/
theorem held_mono (id : NodeId) : ∀ t ∈ n.held id, t ∈ n'.held id := fun _ ht => hp.mem_held.2 (Or.inl ht)

/-- No fact arrives. -/
theorem arrived_eq (a : AlphaId) : n'.arrived a = n.arrived a := by
  rw [arrived, hp.alpha, arrived]

/-- The parent of the new token is the token of the pair. -/
theorem parent?_new : n'.tokens.parent? (n.tokens.size + 1) = some p := by
  obtain ⟨b, hb⟩ := hp.link
  exact TokenStore.parent?_eq_some hb

/-- The fact of the new token is the fact of the pair. -/
theorem fact?_new : n'.tokens.fact? (n.tokens.size + 1) = some f := by
  obtain ⟨b, hb⟩ := hp.link
  exact TokenStore.fact?_eq_some hb

/-- A token from before keeps its parent and its fact. -/
theorem parent?_old {t : TokenId} (ht : t ≤ n.tokens.size) :
    n'.tokens.parent? t = n.tokens.parent? t ∧ n'.tokens.fact? t = n.tokens.fact? t := by
  by_cases h₀ : t = rootToken
  · subst h₀
    simp
  · obtain ⟨l, hl⟩ := TokenStore.exists_link? h₀ ht
    obtain ⟨b, hb⟩ := hp.keeps t l hl
    rw [TokenStore.parent?_eq_some hl, TokenStore.parent?_eq_some hb, TokenStore.fact?_eq_some hl, TokenStore.fact?_eq_some hb]
    exact ⟨rfl, rfl⟩

/-- A pair that met goes on doing so. -/
theorem meets (h : n.Paired) {j : JoinNode} {t : TokenId} {g : FactId} (hm : n.Meets j t g) : n'.Meets j t g :=
  hm.mono h hp.grounded hp.keeps (by rw [hp.size]; exact Nat.le_succ _) hp.held_mono hp.alpha hp.facts

variable (h : n.Paired)
include h

/-- The handles that the store has given out are those of the tokens that some node holds. -/
theorem owner_iff {t : TokenId} : t ≤ n'.tokens.size ↔ ∃ id, t ∈ n'.held id := by
  rw [hp.size]
  constructor
  · intro ht
    rcases Nat.lt_or_eq_of_le ht with ht | rfl
    · obtain ⟨id, hid⟩ := h.owner_iff.1 (Nat.le_of_lt_succ ht)
      exact ⟨id, hp.held_mono id t hid⟩
    · exact ⟨child, hp.mem_held.2 (Or.inr ⟨rfl, rfl⟩)⟩
  · rintro ⟨id, hid⟩
    rcases hp.mem_held.1 hid with hid | ⟨-, rfl⟩
    · exact Nat.le_succ_of_le (h.le_of_held hid)
    · exact Nat.le_refl _

/-- No two nodes hold one token. -/
theorem owner_unique {t : TokenId} {id id' : NodeId} (ht : t ∈ n'.held id) (ht' : t ∈ n'.held id') : id = id' := by
  rcases hp.mem_held.1 ht with ht | ⟨rfl, rfl⟩ <;> rcases hp.mem_held.1 ht' with ht' | ⟨rfl, he⟩
  · exact h.owner_unique ht ht'
  · exact absurd he (h.ne_next ht)
  · exact absurd rfl (h.ne_next ht')
  · rfl

/-- No node holds a token twice. -/
theorem nodup (id : NodeId) : (n'.held id).Nodup := by
  rw [hp.held]
  split
  · refine List.nodup_append.2 ⟨h.nodup id, by simp, fun a ha b hb hab => h.ne_next ha ?_⟩
    rw [hab, List.mem_singleton.1 hb]
  · exact h.nodup id

/-- No two tokens of a node stand for one pair, since the new pair was new to its node. -/
theorem distinct (hnew : n.stored.contains ⟨child, p, f⟩ = false) {id : NodeId} {t t' : TokenId} (ht : t ∈ n'.held id)
    (ht' : t' ∈ n'.held id) (hpp : n'.tokens.parent? t = n'.tokens.parent? t') (hff : n'.tokens.fact? t = n'.tokens.fact? t') :
    t = t' := by
  have hfresh : ∀ u ∈ n.held child, ¬(n'.tokens.parent? u = some p ∧ n'.tokens.fact? u = some f) := by
    intro u hu ⟨hup, huf⟩
    rw [(hp.parent?_old (h.le_of_held hu)).1] at hup
    rw [(hp.parent?_old (h.le_of_held hu)).2] at huf
    rw [h.stored_iff.2 ⟨u, hu, hup, huf⟩] at hnew
    nomatch hnew
  rcases hp.mem_held.1 ht with ht | ⟨rfl, rfl⟩ <;> rcases hp.mem_held.1 ht' with ht' | ⟨hid, rfl⟩
  · have ho := hp.parent?_old (h.le_of_held ht)
    have ho' := hp.parent?_old (h.le_of_held ht')
    rw [ho.1, ho'.1] at hpp
    rw [ho.2, ho'.2] at hff
    exact h.distinct ht ht' hpp hff
  · subst hid
    exact absurd ⟨hpp.trans hp.parent?_new, hff.trans hp.fact?_new⟩ (hfresh t ht)
  · exact absurd ⟨hpp.symm.trans hp.parent?_new, hff.symm.trans hp.fact?_new⟩ (hfresh t' ht')
  · rfl

/-- The pairs that are stored are those of the tokens that the nodes hold. -/
theorem stored_iff {id : NodeId} {q : TokenId} {g : FactId} : n'.stored.contains ⟨id, q, g⟩ = true ↔
    ∃ t ∈ n'.held id, n'.tokens.parent? t = some q ∧ n'.tokens.fact? t = some g := by
  rw [hp.stored, PlacementSet.contains_insert, h.stored_iff]
  constructor
  · rintro (he | ⟨t, ht, htp, htf⟩)
    · obtain ⟨rfl, rfl, rfl⟩ := Placement.mk.inj he
      exact ⟨_, hp.mem_held.2 (Or.inr ⟨rfl, rfl⟩), hp.parent?_new, hp.fact?_new⟩
    · have ho := hp.parent?_old (h.le_of_held ht)
      exact ⟨t, hp.held_mono id t ht, ho.1.trans htp, ho.2.trans htf⟩
  · rintro ⟨t, ht, htp, htf⟩
    rcases hp.mem_held.1 ht with ht | ⟨rfl, rfl⟩
    · have ho := hp.parent?_old (h.le_of_held ht)
      exact Or.inr ⟨t, ht, ho.1.symm.trans htp, ho.2.symm.trans htf⟩
    · obtain rfl := Option.some.inj (hp.parent?_new.symm.trans htp)
      obtain rfl := Option.some.inj (hp.fact?_new.symm.trans htf)
      exact Or.inl rfl

/-- Placing a pair that meets at the join above, and is new to the node, keeps a network paired. -/
theorem paired {join : NodeId} {j : JoinNode} (hup : n.parentOf child = some join) (hj : n.nodes[join]? = some (.join j))
    (hc : c = j.condition) (hm : n.Meets j p f) (hnew : n.stored.contains ⟨child, p, f⟩ = false) : n'.Paired where
  grounded := hp.grounded
  owner_iff := hp.owner_iff h
  owner_unique := hp.owner_unique h
  nodup := hp.nodup h
  distinct := hp.distinct h hnew
  justified := fun {id up k t} hup' hk ht => by
    rw [parentOf_of_bare hp.bare] at hup'
    rw [join_iff_of_bare hp.bare] at hk
    rcases hp.mem_held.1 ht with ht | ⟨rfl, rfl⟩
    · obtain ⟨l, hl, hx, hy, hmt⟩ := h.justified hup' hk ht
      obtain ⟨b, hb⟩ := hp.keeps t l hl
      exact ⟨_, hb, hx, hy, hp.meets h hmt⟩
    · obtain rfl := Option.some.inj (hup.symm.trans hup')
      obtain rfl := Node.join.inj (Option.some.inj (hj.symm.trans hk))
      obtain ⟨b, hb⟩ := hp.link
      exact ⟨_, hb, by rw [hc], by rw [hc], hp.meets h hm⟩
  stored_iff := hp.stored_iff h
  arrived_lt := fun {a g} hg => by
    rw [hp.arrived_eq] at hg
    rw [hp.facts]
    exact h.arrived_lt hg

end Places

/-! ## The two ways of placing -/

/-- Whether a node stores tokens. -/
def Stores (n : Network) (id : NodeId) : Prop := ∃ x up, n.nodes[id]? = some x ∧ x.parent? = some up ∧ x.isJoin = false

/-- The token of a pair that is placed is the next one of the store. -/
theorem place_eq (c : Condition) (p : TokenId) (f : FactId) (n : Network) (child : NodeId) :
    place c p f n child = (n.tokens.size + 1, { n with
      tokens := (n.tokens.push p f c.subjectVar? c.objectVar?).2
      stored := n.stored.insert ⟨child, p, f⟩
      nodes := n.nodes.modify child (·.store (n.tokens.size + 1))
      touchedNodes := record n.touchedNodes child }) := by
  rw [← n.tokens.push_fst p f c.subjectVar? c.objectVar?]
  rfl

/-- The pair is placed in a memory, where its token waits. -/
def shelve (c : Condition) (p : TokenId) (f : FactId) (n : Network) (child : NodeId) : Network :=
  { (place c p f n child).2 with pending := .left child (n.tokens.size + 1) :: n.pending }

/-- The pair is placed in the production of a rule, which then answers for the rule, and its chain is flagged. -/
def complete (c : Condition) (p : TokenId) (f : FactId) (rule : String) (n : Network) (child : NodeId) : Network :=
  { (place c p f (promote rule child n) child).2 with
    tokens := (n.tokens.push p f c.subjectVar? c.objectVar?).2.flagChain (n.tokens.size + 1) }

/-- What a delivery does: nothing to a pair that is stored, else a memory shelves the pair and a production completes it. -/
theorem deliver_eq (c : Condition) (p : TokenId) (f : FactId) (n : Network) (child : NodeId) :
    deliver c p f n child =
      if n.stored.contains ⟨child, p, f⟩ then .ok n
      else
        match n.nodes[child]? with
        | some (.memory _) => .ok (shelve c p f n child)
        | some (.production q) => .ok (complete c p f q.rule n child)
        | _ => .error (.network .misplacedChild child) := by
  simp only [deliver, shelve, complete, place_eq]
  rfl

section

variable {c : Condition} {p : TokenId} {f : FactId} {n : Network} {child : NodeId} (hs : n.tokens.Grounded)
  (hp : p ≤ n.tokens.size) (hc : n.Stores child)

/-- The nodes are the same but for the tokens they store. -/
theorem map_clear_modify (xs : Array Node) (child : NodeId) (t : TokenId) :
    (xs.modify child (·.store t)).map Node.clear = xs.map Node.clear := by
  exact Array.map_modify_of_eq (fun x => by cases x <;> rfl) xs child

include hc in
/-- The new token comes last in the node it is stored in, and the others hold what they held. -/
theorem held_of_modify {n' : Network} {t : TokenId} (hn : n'.nodes = n.nodes.modify child (·.store t)) (id : NodeId) :
    n'.held id = if id = child then n.held id ++ [t] else n.held id := by
  rw [held, hn, Array.getElem?_modify]
  by_cases hid : child = id
  · subst hid
    obtain ⟨x, up, hx, hup, hj⟩ := hc
    rw [if_pos rfl, if_pos rfl, held, hx]
    cases x with
    | top cs => cases hup
    | join j => cases hj
    | memory m => exact Array.toList_push
    | production q => exact Array.toList_push
  · rw [if_neg hid, if_neg (Ne.symm hid), held]

include hs hp hc

/-- Shelving a pair places it. -/
theorem places_shelve : Places c p f child n (shelve c p f n child) where
  bare := by simp only [shelve, place, bare, TokenStore.push, map_clear_modify]
  alpha := rfl
  facts := rfl
  seen := rfl
  stored := rfl
  grounded := TokenStore.grounded_push hs hp _ _ _
  keeps := TokenStore.keeps_push _ _ _ _ _
  size := TokenStore.size_push _ _ _ _ _
  link := ⟨false, by rw [shelve, place, TokenStore.link?_push, if_pos rfl]⟩
  held := held_of_modify hc (by rw [shelve, place_eq])
  touchedAlphas := rfl
  touchedNodes := rfl

/-- Completing a match places its pair, and flags its chain. -/
theorem places_complete (rule : String) : Places c p f child n (complete c p f rule n child) := by
  have hg := TokenStore.grounded_push hs hp f c.subjectVar? c.objectVar?
  have hle : n.tokens.size + 1 ≤ (n.tokens.push p f c.subjectVar? c.objectVar?).2.size :=
    Nat.le_of_eq (TokenStore.size_push _ _ _ _ _).symm
  have hk := TokenStore.keeps_flagChain hg hle
  exact {
    bare := by simp only [complete, promote, place, bare, TokenStore.push, map_clear_modify]
    alpha := rfl
    facts := rfl
    seen := rfl
    stored := rfl
    grounded := TokenStore.grounded_flagChain hg hle
    keeps := (TokenStore.keeps_push n.tokens p f c.subjectVar? c.objectVar?).trans hk
    size := (TokenStore.size_flagChain _ _).trans (TokenStore.size_push _ _ _ _ _)
    link := hk (n.tokens.size + 1) ⟨p, f, c.subjectVar?, c.objectVar?, false⟩ (by rw [TokenStore.link?_push, if_pos rfl])
    held := held_of_modify hc (by rw [complete, place_eq, promote])
    touchedAlphas := rfl
    touchedNodes := rfl }

end

end TripleRules.Network

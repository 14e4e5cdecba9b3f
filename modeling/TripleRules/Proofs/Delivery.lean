import TripleRules.Proofs.Placing

/-!
# Deliveries

A network is sound if it is wired and paired, its flags and its satisfied rules tell of the matches in its productions, what the
batch has written to is recorded, and the pending activations are about facts and tokens that have arrived. Delivering a pair that
meets at a join keeps a network sound, lets it grow, and leaves the pair stored below the join.
-/

namespace TripleRules.Network

/-- Whether a token is on the chain of a match. -/
def OnMatch (n : Network) (t : TokenId) : Prop :=
  ∃ id p u, n.nodes[id]? = some (.production p) ∧ u ∈ n.held id ∧ t ∈ n.tokens.chain u

/-- The flagged tokens are those on the chains of the matches, and the satisfied rules are those whose productions hold matches. The
production that answers for a name holds the newest of the matches that productions of that name hold. -/
structure Marked (n : Network) : Prop where
  flagged_iff : ∀ t : TokenId, n.tokens.isFlagged t = true ↔ t ≠ rootToken ∧ n.OnMatch t
  satisfied_some : ∀ {name : String} {id : NodeId}, n.satisfied.find? name = some id →
    ∃ p, n.nodes[id]? = some (.production p) ∧ p.rule = name ∧ n.held id ≠ []
  satisfied_of : ∀ {id : NodeId} {p : ProductionNode}, n.nodes[id]? = some (.production p) → n.held id ≠ [] →
    ∃ id', n.satisfied.find? p.rule = some id'
  satisfied_newest : ∀ {name : String} {id : NodeId}, n.satisfied.find? name = some id →
    ∃ t ∈ n.held id, ∀ {id' : NodeId} {p : ProductionNode}, n.nodes[id']? = some (.production p) → p.rule = name →
      ∀ u ∈ n.held id', u ≤ t

/-- What the batch has written to is recorded. -/
structure Recorded (n : Network) : Prop where
  nodes : ∀ {id : NodeId}, id ≠ topNode → n.held id ≠ [] → id ∈ n.touchedNodes
  alphas : ∀ {a : AlphaId}, n.arrived a ≠ [] → a ∈ n.touchedAlphas

/-- The table of the facts that were seen is the batch read the other way: a fact has a handle in it exactly if it is the fact of the
batch with that handle. -/
structure Known (n : Network) : Prop where
  seen_iff : ∀ {f : Fact} {g : FactId}, n.seen[f]? = some g ↔ n.facts[g]? = some f

/-- A fact was seen exactly if the batch has it. -/
theorem Known.contains_iff {n : Network} (h : n.Known) {f : Fact} : n.seen.contains f = true ↔ f ∈ n.facts := by
  rw [FactTable.contains_iff, Array.mem_iff_getElem?]
  exact exists_congr fun g => h.seen_iff

/-- What is known is a matter of the table and the facts. -/
theorem Known.congr {n n' : Network} (h : n.Known) (hs : n'.seen = n.seen) (hf : n'.facts = n.facts) : n'.Known where
  seen_iff := by
    rw [hs, hf]
    exact h.seen_iff

/-- Whether an activation is about a fact or a token that has arrived. -/
def Waits (n : Network) : Activation → Prop
  | .right join f => ∃ j, n.nodes[join]? = some (.join j) ∧ f ∈ n.arrived j.alpha
  | .left memory t => (∃ m, n.nodes[memory]? = some (.memory m)) ∧ t ∈ n.held memory

/-- A network in the middle of a batch. -/
structure Sound (n : Network) : Prop extends Wired n, Paired n, Marked n, Recorded n, Known n where
  waits : ∀ a ∈ n.pending, n.Waits a

/-! ## Growth -/

/-- The rules and the facts are the same, tokens are added, and each that is added to a memory waits. The work that is added is
no more than the tokens. -/
structure Grows (n n' : Network) : Prop where
  bare : n'.bare = n.bare
  alpha : n'.alpha = n.alpha
  facts : n'.facts = n.facts
  seen : n'.seen = n.seen
  keeps : n.tokens.Keeps n'.tokens
  size_le : n.tokens.size ≤ n'.tokens.size
  held : ∀ id, ∀ t ∈ n.held id, t ∈ n'.held id
  held_new : ∀ {id : NodeId} {m : MemoryNode} {t : TokenId}, n'.nodes[id]? = some (.memory m) → t ∈ n'.held id →
    t ∈ n.held id ∨ .left id t ∈ n'.pending
  stored : ∀ q, n.stored.contains q = true → n'.stored.contains q = true
  pending : ∀ a ∈ n.pending, a ∈ n'.pending
  work : n'.pending.length + n.tokens.size ≤ n.pending.length + n'.tokens.size

namespace Grows

theorem refl (n : Network) : n.Grows n where
  bare := rfl
  alpha := rfl
  facts := rfl
  seen := rfl
  keeps := .refl _
  size_le := Nat.le_refl _
  held := fun _ _ ht => ht
  held_new := fun _ ht => Or.inl ht
  stored := fun _ hq => hq
  pending := fun _ ha => ha
  work := Nat.le_refl _

/-- A network that grows and grows again grows. -/
theorem trans {a b c : Network} (h : a.Grows b) (h' : b.Grows c) : a.Grows c where
  bare := h'.bare.trans h.bare
  alpha := h'.alpha.trans h.alpha
  facts := h'.facts.trans h.facts
  seen := h'.seen.trans h.seen
  keeps := h.keeps.trans h'.keeps
  size_le := Nat.le_trans h.size_le h'.size_le
  held := fun id t ht => h'.held id t (h.held id t ht)
  held_new := fun {id m t} hm ht => by
    rcases h'.held_new hm ht with hb | hp
    · obtain ⟨m', hm'⟩ := memory_of_bare h'.bare.symm hm
      exact (h.held_new hm' hb).imp_right (h'.pending _)
    · exact Or.inr hp
  stored := fun q hq => h'.stored q (h.stored q hq)
  pending := fun x hx => h'.pending x (h.pending x hx)
  work := by
    have := h.work
    have := h'.work
    omega

variable {n n' : Network} (hg : n.Grows n')
include hg

/-- No fact leaves or enters a memory. -/
theorem arrived_eq (a : AlphaId) : n'.arrived a = n.arrived a := by
  rw [arrived, hg.alpha, arrived]

/-- The tokens from before pass what they passed. -/
theorem passes_eq (h : n.Paired) (h' : n'.Paired) {t : TokenId} (ht : t ≤ n.tokens.size) (tests : List JoinTest) (f : FactId) :
    n'.passes tests t f = n.passes tests t f := by
  have ht' := Nat.le_trans ht hg.size_le
  refine passes_congr h.grounded h'.grounded ht ht' (hg.keeps.chainFacts_eq h.grounded h'.grounded ht) ?_ ?_ tests
  · rw [hg.facts]
  · exact fun g _ => by rw [hg.facts]

/-- The tokens from before meet what they met. -/
theorem meets_iff (h : n.Paired) (h' : n'.Paired) {j : JoinNode} {t : TokenId} {f : FactId} (ht : t ∈ n.held j.parent) :
    n'.Meets j t f ↔ n.Meets j t f := by
  have hp := hg.passes_eq h h' (h.le_of_held ht) j.tests f
  constructor
  · intro hm
    exact ⟨ht, by rw [← hg.arrived_eq]; exact hm.fact, by rw [← hp]; exact hm.passes⟩
  · intro hm
    exact ⟨hg.held _ _ ht, by rw [hg.arrived_eq]; exact hm.fact, by rw [hp]; exact hm.passes⟩

/-- Pairs that meet go on doing so. -/
theorem meets (h : n.Paired) (h' : n'.Paired) {j : JoinNode} {t : TokenId} {f : FactId} (hm : n.Meets j t f) :
    n'.Meets j t f := (hg.meets_iff h h' hm.token).2 hm

/-- What waits goes on to be there. -/
theorem waits {a : Activation} (ha : n.Waits a) : n'.Waits a := by
  cases a with
  | right join f =>
    obtain ⟨j, hj, hf⟩ := ha
    exact ⟨j, (join_iff_of_bare hg.bare _ _).2 hj, by rw [hg.arrived_eq]; exact hf⟩
  | left memory t =>
    obtain ⟨⟨m, hm⟩, ht⟩ := ha
    exact ⟨memory_of_bare hg.bare hm, hg.held _ _ ht⟩

end Grows

/-! ## What placing a pair does to the marks -/

namespace Places

variable {c : Condition} {p : TokenId} {f : FactId} {child : NodeId} {n n' : Network} (hp : Places c p f child n n')
include hp

/-- The chains of the matches are those from before, and that of the new token if its node is a production. -/
theorem onMatch_iff (h : n.Paired) (t : TokenId) : n'.OnMatch t ↔
    n.OnMatch t ∨ ((∃ q, n.nodes[child]? = some (.production q)) ∧ t ∈ n'.tokens.chain (n.tokens.size + 1)) := by
  have hchain : ∀ {id u}, u ∈ n.held id → n'.tokens.chain u = n.tokens.chain u := fun hu =>
    hp.keeps.chain_eq h.grounded hp.grounded (h.le_of_held hu)
  constructor
  · rintro ⟨id, q, u, hq, hu, ht⟩
    obtain ⟨q₀, hq₀, -, -⟩ := production_of_bare hp.bare.symm hq
    rcases hp.mem_held.1 hu with hu | ⟨rfl, rfl⟩
    · exact Or.inl ⟨id, q₀, u, hq₀, hu, by rw [← hchain hu]; exact ht⟩
    · exact Or.inr ⟨⟨q₀, hq₀⟩, ht⟩
  · rintro (⟨id, q, u, hq, hu, ht⟩ | ⟨⟨q, hq⟩, ht⟩)
    · obtain ⟨q', hq', -, -⟩ := production_of_bare hp.bare hq
      exact ⟨id, q', u, hq', hp.held_mono id u hu, by rw [hchain hu]; exact ht⟩
    · obtain ⟨q', hq', -, -⟩ := production_of_bare hp.bare hq
      exact ⟨child, q', _, hq', hp.mem_held.2 (Or.inr ⟨rfl, rfl⟩), ht⟩

/-- What the batch has written to is recorded after a pair is placed. -/
theorem recorded (h : n.Recorded) : n'.Recorded where
  nodes := fun {id} hid hne => by
    rw [hp.touchedNodes, mem_record]
    by_cases hc : id = child
    · exact Or.inl hc
    · rw [hp.held, if_neg hc] at hne
      exact Or.inr (h.nodes hid hne)
  alphas := fun {a} hne => by
    rw [hp.arrived_eq] at hne
    rw [hp.touchedAlphas]
    exact h.alphas hne

/-- A rule that was satisfied stays so. -/
theorem satisfied_some (h : n.Marked) {name : String} {id : NodeId} (hs : n.satisfied.find? name = some id) :
    ∃ q, n'.nodes[id]? = some (.production q) ∧ q.rule = name ∧ n'.held id ≠ [] := by
  obtain ⟨q, hq, hname, hne⟩ := h.satisfied_some hs
  obtain ⟨q', hq', hr, -⟩ := production_of_bare hp.bare hq
  obtain ⟨t, ht⟩ := List.exists_mem_of_ne_nil _ hne
  exact ⟨q', hq', hr.trans hname, List.ne_nil_of_mem (hp.held_mono id t ht)⟩

/-- A production other than the one that the pair is placed in holds matches only if it did. -/
theorem satisfied_of (h : n.Marked) {id : NodeId} {q : ProductionNode} (hid : id ≠ child)
    (hq : n'.nodes[id]? = some (.production q)) (hne : n'.held id ≠ []) : ∃ id', n.satisfied.find? q.rule = some id' := by
  obtain ⟨q₀, hq₀, hr, -⟩ := production_of_bare hp.bare.symm hq
  rw [hp.held, if_neg hid] at hne
  rw [← hr]
  exact h.satisfied_of hq₀ hne

/-- The newest match of a name stays so where the pair is placed in no production of that name. -/
theorem satisfied_newest (h : n.Marked) {name : String} (hother : ∀ q, n.nodes[child]? = some (.production q) → q.rule ≠ name)
    {id : NodeId} (hs : n.satisfied.find? name = some id) : ∃ t ∈ n'.held id, ∀ {id' : NodeId} {q : ProductionNode},
      n'.nodes[id']? = some (.production q) → q.rule = name → ∀ u ∈ n'.held id', u ≤ t := by
  obtain ⟨t, ht, hmax⟩ := h.satisfied_newest hs
  refine ⟨t, hp.held_mono id t ht, fun {id' q} hq hname u hu => ?_⟩
  obtain ⟨q₀, hq₀, hr, -⟩ := production_of_bare hp.bare.symm hq
  rcases hp.mem_held.1 hu with hu | ⟨rfl, -⟩
  · exact hmax hq₀ (hr.trans hname) u hu
  · exact absurd (hr.trans hname) (hother q₀ hq₀)

/-- A network into which a pair is placed grows, if the token waits below a memory. -/
theorem grows (hpending : n'.pending = n.pending ∨ n'.pending = .left child (n.tokens.size + 1) :: n.pending)
    (hleft : ∀ m, n'.nodes[child]? = some (.memory m) → .left child (n.tokens.size + 1) ∈ n'.pending) : n.Grows n' where
  bare := hp.bare
  alpha := hp.alpha
  facts := hp.facts
  seen := hp.seen
  keeps := hp.keeps
  size_le := by
    rw [hp.size]
    exact Nat.le_succ _
  held := hp.held_mono
  held_new := fun {id m t} hm ht => by
    rcases hp.mem_held.1 ht with ht | ⟨rfl, rfl⟩
    · exact Or.inl ht
    · exact Or.inr (hleft m hm)
  stored := fun q hq => by
    rw [hp.stored]
    exact (PlacementSet.contains_insert _ _ _).2 (Or.inr hq)
  pending := fun a ha => by
    rcases hpending with he | he <;> rw [he]
    · exact ha
    · exact List.mem_cons_of_mem _ ha
  work := by
    have hsize := hp.size
    rcases hpending with he | he <;> rw [he]
    · omega
    · rw [List.length_cons]
      omega

end Places

/-- A pair in a memory changes no marks. -/
theorem marked_shelve {c : Condition} {p : TokenId} {f : FactId} {n : Network} {child : NodeId} (h : n.Paired) (hm : n.Marked)
    (hp : Places c p f child n (shelve c p f n child)) {m : MemoryNode} (hc : n.nodes[child]? = some (.memory m)) :
    (shelve c p f n child).Marked := by
  have hnot : ∀ q, n.nodes[child]? ≠ some (.production q) := by
    intro q hq
    rw [hc] at hq
    nomatch hq
  have hflag : ∀ t, (shelve c p f n child).tokens.isFlagged t = n.tokens.isFlagged t :=
    fun t => TokenStore.isFlagged_push _ _ _ _ _ _
  exact {
    flagged_iff := fun t => by
      rw [hflag, hm.flagged_iff, hp.onMatch_iff h]
      simp [hnot]
    satisfied_some := hp.satisfied_some hm
    satisfied_of := fun {id q} hq hne => by
      refine hp.satisfied_of hm ?_ hq hne
      rintro rfl
      obtain ⟨q₀, hq₀, -, -⟩ := production_of_bare hp.bare.symm hq
      exact hnot q₀ hq₀
    satisfied_newest := hp.satisfied_newest hm fun q hq => absurd hq (hnot q) }

/-- A pair in a production flags its chain and satisfies the rule. -/
theorem marked_complete {c : Condition} {p : TokenId} {f : FactId} {n : Network} {child : NodeId} (h : n.Paired)
    (hm : n.Marked) {q : ProductionNode} (hp : Places c p f child n (complete c p f q.rule n child)) (hle : p ≤ n.tokens.size)
    (hc : n.nodes[child]? = some (.production q)) : (complete c p f q.rule n child).Marked := by
  obtain ⟨q', hq', hr, -⟩ := production_of_bare hp.bare hc
  have hin : (complete c p f q.rule n child).held child ≠ [] :=
    List.ne_nil_of_mem (hp.mem_held.2 (Or.inr ⟨rfl, rfl⟩))
  have hsat : ∀ name, (complete c p f q.rule n child).satisfied.find? name =
      if name = q.rule then some child else n.satisfied.find? name := fun name => Table.find?_insert _ _ _ _
  exact {
    flagged_iff t := by
      have hg := TokenStore.grounded_push h.grounded hle f c.subjectVar? c.objectVar?
      have hle' : n.tokens.size + 1 ≤ (n.tokens.push p f c.subjectVar? c.objectVar?).2.size :=
        Nat.le_of_eq (TokenStore.size_push _ _ _ _ _).symm
      have htok : (complete c p f q.rule n child).tokens =
          (n.tokens.push p f c.subjectVar? c.objectVar?).2.flagChain (n.tokens.size + 1) := rfl
      rw [hp.onMatch_iff h, htok, TokenStore.isFlagged_flagChain hg hle', TokenStore.isFlagged_push, hm.flagged_iff,
        (TokenStore.keeps_flagChain hg hle').chain_eq hg (TokenStore.grounded_flagChain hg hle') hle']
      simp [hc, and_or_left]
    satisfied_some {name id} hs := by
      rw [hsat] at hs
      split at hs
      · rename_i hname
        obtain rfl := Option.some.inj hs
        exact ⟨q', hq', hr.trans hname.symm, hin⟩
      · exact hp.satisfied_some hm hs
    satisfied_of {id q₁} hq₁ hne := by
      rw [hsat]
      split
      · exact ⟨child, rfl⟩
      · rename_i hname
        refine hp.satisfied_of hm ?_ hq₁ hne
        rintro rfl
        obtain rfl := Node.production.inj (Option.some.inj (hq₁.symm.trans hq'))
        exact hname hr
    satisfied_newest {name id} hs := by
      rw [hsat] at hs
      split at hs
      · -- the new token is newer than all others
        obtain rfl := Option.some.inj hs
        refine ⟨_, hp.mem_held.2 (Or.inr ⟨rfl, rfl⟩), fun {id' q₁} _ _ u hu => ?_⟩
        rcases hp.mem_held.1 hu with hu | ⟨-, rfl⟩
        · exact Nat.le_succ_of_le (h.le_of_held hu)
        · exact Nat.le_refl _
      · rename_i hname
        refine hp.satisfied_newest hm (fun q₁ hq₁ he => hname ?_) hs
        obtain rfl := Node.production.inj (Option.some.inj (hq₁.symm.trans hc))
        exact he.symm }

/-! ## Deliveries -/

/-- A child of a join stores tokens. -/
theorem Wired.stores_child {n : Network} (h : n.Wired) {join child : NodeId} {j : JoinNode}
    (hj : n.nodes[join]? = some (.join j)) (hc : child ∈ j.children) : n.Stores child ∧ n.parentOf child = some join := by
  obtain ⟨x, hx, hp⟩ := (h.child_iff hj child).1 hc
  obtain ⟨y, hy, hcar⟩ := h.parent_carries hx hp
  obtain rfl := Option.some.inj (hj.symm.trans hy)
  refine ⟨⟨x, join, hx, hp, ?_⟩, parentOf_eq_some.2 ⟨x, hx, hp⟩⟩
  cases x with
  | join k => nomatch hcar
  | top cs => rfl
  | memory m => rfl
  | production p => rfl

/-- A pair that meets at a join is delivered to a child of the join. -/
theorem deliver_ok {n : Network} (h : n.Sound) {join child : NodeId} {j : JoinNode} {p : TokenId} {f : FactId}
    (hj : n.nodes[join]? = some (.join j)) (hc : child ∈ j.children) (hm : n.Meets j p f) :
    ∃ n', deliver j.condition p f n child = .ok n' ∧ n'.Sound ∧ n.Grows n' ∧ n'.stored.contains ⟨child, p, f⟩ = true := by
  obtain ⟨hst, hup⟩ := h.stores_child hj hc
  have hle := h.le_of_held hm.token
  rw [deliver_eq]
  split
  · rename_i hin
    exact ⟨n, rfl, h, .refl n, hin⟩
  · rename_i hnew
    rw [Bool.not_eq_true] at hnew
    have hin : ∀ {n'}, Places j.condition p f child n n' → n'.stored.contains ⟨child, p, f⟩ = true := by
      intro n' hp
      rw [hp.stored]
      exact (PlacementSet.contains_insert _ _ _).2 (Or.inl rfl)
    split
    · rename_i m hx
      have hp := places_shelve (c := j.condition) (f := f) h.grounded hle hst
      have hg := hp.grows (Or.inr rfl) fun _ _ => List.mem_cons_self
      refine ⟨_, rfl, ?_, hg, hin hp⟩
      refine ⟨h.toWired.of_bare hp.bare, hp.paired h.toPaired hup hj rfl hm hnew, marked_shelve h.toPaired h.toMarked hp hx,
        hp.recorded h.toRecorded, h.toKnown.congr hp.seen hp.facts, fun a ha => ?_⟩
      rcases List.mem_cons.1 ha with rfl | ha
      · exact ⟨memory_of_bare hp.bare hx, hp.mem_held.2 (Or.inr ⟨rfl, rfl⟩)⟩
      · exact hg.waits (h.waits a ha)
    · rename_i q hx
      have hp := places_complete (c := j.condition) (f := f) h.grounded hle hst q.rule
      have hg := hp.grows (Or.inl rfl) fun m hmem => by
        obtain ⟨m₀, hm₀⟩ := memory_of_bare hp.bare.symm hmem
        rw [hx] at hm₀
        nomatch hm₀
      refine ⟨_, rfl, ?_, hg, hin hp⟩
      exact ⟨h.toWired.of_bare hp.bare, hp.paired h.toPaired hup hj rfl hm hnew,
        marked_complete h.toPaired h.toMarked hp hle hx, hp.recorded h.toRecorded, h.toKnown.congr hp.seen hp.facts,
        fun a ha => hg.waits (h.waits a ha)⟩
    · rename_i hmem hprod
      obtain ⟨x, up, hx, hpar, hjoin⟩ := hst
      cases x with
      | top cs => nomatch hpar
      | join k => nomatch hjoin
      | memory m => exact absurd hx (hmem m)
      | production q => exact absurd hx (hprod q)

end TripleRules.Network

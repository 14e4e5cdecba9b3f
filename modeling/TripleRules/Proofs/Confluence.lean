import Mathlib.Data.Set.Function
import TripleRules.Proofs.Additions
import TripleRules.Proofs.Counterparts
import TripleRules.Proofs.Histories

/-!
# The order of activations

Which activation is done next makes no difference to what is stored in the end, only to the handles of the tokens. Whatever the order,
each token that comes up has the new fact on its chain, and each pair with such a token or with the new fact waits until it is stored.
So if the parent of a new token has a counterpart in another run that has come to its end, the token has one as well.
-/

namespace TripleRules.Network

/-! ## Steps in any order -/

/-- One of the activations that wait is done, not necessarily the one on top of the stack. -/
def Step (n n' : Network) : Prop :=
  ∃ before a after, n.pending = before ++ a :: after ∧ (n.withPending (before ++ after)).activate a = .ok n'

/-- A number of activations are done one after the other, in some order. -/
inductive Steps : Network → Nat → Network → Prop where
  | done (n : Network) : Steps n 0 n
  | step {n n' n'' : Network} {k : Nat} : n.Step n' → Steps n' k n'' → Steps n (k + 1) n''

/-- Doing what is on top of the stack is one of the orders. -/
theorem steps_of_runUpTo {k : Nat} {n n' : Network} (he : runUpTo k n = .ok n') : ∃ i, Steps n i n' := by
  induction k generalizing n with
  | zero =>
    obtain rfl := Except.ok.inj he
    exact ⟨0, .done n⟩
  | succ k ih =>
    rw [runUpTo] at he
    split at he
    · obtain rfl := Except.ok.inj he
      exact ⟨0, .done n⟩
    · rename_i a rest hp
      obtain ⟨n₁, he₁, he⟩ := bind_eq_ok_iff.1 he
      obtain ⟨i, hi⟩ := ih he
      exact ⟨i + 1, .step ⟨[], a, rest, hp, he₁⟩ hi⟩

/-- What one step does to a sound network. -/
theorem Step.exists_activation {n n' : Network} (h : n.Sound) (hs : n.Step n') : ∃ before a after,
    n.pending = before ++ a :: after ∧ n'.Sound ∧ (∀ P, n.CoveredFor P → n'.CoveredFor P) ∧
      (n.withPending (before ++ after)).Grows n' ∧ Adds a.Yields (n.withPending (before ++ after)) n' := by
  obtain ⟨before, a, after, hp, he⟩ := hs
  obtain ⟨n₁, he₁, h₁, hc, hg⟩ := activate_pending h hp
  obtain rfl := Except.ok.inj (he.symm.trans he₁)
  exact ⟨before, a, after, hp, h₁, hc, hg, adds_activate he⟩

/-- Whatever the order, there are no more steps than there is work. -/
theorem Steps.add_workLeft_le {n n' : Network} {k : Nat} (hs : Steps n k n') (h : n.Sound) : k + n'.workLeft ≤ n.workLeft := by
  induction hs with
  | done n => exact Nat.le_of_eq (Nat.zero_add _)
  | step hstep _ ih =>
    obtain ⟨before, a, after, hp, h', -, hg, -⟩ := hstep.exists_activation h
    have hlt := workLeft_lt h' hp hg
    have hle := ih h'
    omega

/-! ## A fact is taken in -/

/-- A network that has just taken in a fact: the fact waits at joins, nothing else waits, and no token has the fact on its chain. -/
structure Fed (n : Network) (g : FactId) : Prop extends Sound n where
  waiting : ∀ a ∈ n.pending, ∃ join, a = .right join g
  covered : n.CoveredFor fun _ f => f = g
  absent : ∀ {t : TokenId}, t ≤ n.tokens.size → g ∉ n.tokens.chainFacts t

/-- A fact that arrives in a network without work feeds it. -/
theorem fed_arrive {n n₀ : Network} (h : n.Sound) (hp : n.pending = []) {f : Fact} (hf : f ∉ n.facts)
    (he : n.arrive f = .ok n₀) : n₀.Fed n.facts.size := by
  obtain ⟨n₁, he₁, h₁, hc, -⟩ := arrive_ok h hf
  obtain rfl := Except.ok.inj (he.symm.trans he₁)
  obtain ⟨htokens, hpending⟩ := receives_pending he
  have htok : n₀.tokens = n.tokens := htokens
  refine ⟨h₁, fun a ha => ?_, hc _ ?_, fun {t} ht hg => ?_⟩
  · rcases hpending a ha with ha | ha
    · rw [withFact, hp] at ha
      exact absurd ha List.not_mem_nil
    · exact ha
  · -- the fact meets nothing before it has arrived
    intro join j t g hg _ hm
    have hlt : g < n.facts.size := h.arrived_lt hm.fact
    exact absurd hg (Nat.ne_of_lt hlt)
  · rw [htok] at ht hg
    exact absurd (h.lt_of_mem_chainFacts h.toWired ht hg) (Nat.lt_irrefl _)

/-! ## What holds at each step -/

/-- A network that a run has led to since a fact was taken in. Each token that came up stands for a pair with another such token or
with the fact, and pairs of this kind wait or are stored. -/
structure Since (n₀ : Network) (g : FactId) (n : Network) : Prop extends Sound n where
  bare : n.bare = n₀.bare
  alpha : n.alpha = n₀.alpha
  facts : n.facts = n₀.facts
  keeps : n₀.tokens.Keeps n.tokens
  held : ∀ id, ∀ t ∈ n₀.held id, t ∈ n.held id
  fresh : ∀ {t p : TokenId} {f : FactId}, n₀.tokens.size < t → n.tokens.pair? t = some (p, f) → n₀.tokens.size < p ∨ f = g
  waiting : ∀ a ∈ n.pending, (∃ join, a = .right join g) ∨ ∃ id t, a = .left id t ∧ n₀.tokens.size < t
  covered : n.CoveredFor fun t f => n₀.tokens.size < t ∨ f = g
  size_le : n₀.tokens.size ≤ n.tokens.size

/-- Nothing was done since the network was fed. -/
theorem Fed.since {n₀ : Network} {g : FactId} (h : n₀.Fed g) : n₀.Since g n₀ where
  toSound := h.toSound
  bare := rfl
  alpha := rfl
  facts := rfl
  keeps := .refl _
  held := fun _ _ ht => ht
  fresh := fun ht hp => (Adds.refl (fun p f => n₀.tokens.size < p ∨ f = g) n₀).new ht hp
  waiting := fun a ha => Or.inl (h.waiting a ha)
  covered := fun _ _ _ _ hP hj hm => h.covered (hP.resolve_left (Nat.not_lt.2 (h.le_of_held hm.token))) hj hm
  size_le := Nat.le_refl _

/-- One step more was done since the network was fed. -/
theorem Since.step {n₀ n n' : Network} {g : FactId} (h : n₀.Since g n) (hs : n.Step n') : n₀.Since g n' := by
  obtain ⟨before, a, after, hp, h', hc, hg, hadds⟩ := hs.exists_activation h.toSound
  have hmem : ∀ b ∈ before ++ after, b ∈ n.pending := by
    intro b hb
    rw [hp, List.mem_append, List.mem_cons]
    exact (List.mem_append.1 hb).imp_right Or.inr
  -- what the activation stores is of the kind that it waited for
  have hyields : ∀ p f, a.Yields p f → n₀.tokens.size < p ∨ f = g := by
    intro p f hy
    rcases h.waiting a (by rw [hp]; exact List.mem_append_right _ List.mem_cons_self) with ⟨join, rfl⟩ | ⟨id, t, rfl, ht⟩
    · exact Or.inr hy
    · obtain rfl : p = t := hy
      exact Or.inl ht
  exact {
    toSound := h'
    bare := hg.bare.trans h.bare
    alpha := hg.alpha.trans h.alpha
    facts := hg.facts.trans h.facts
    keeps := h.keeps.trans hg.keeps
    held := fun id t ht => hg.held id t (h.held id t ht)
    fresh := fun {t p f} ht hpair => by
      rcases Nat.lt_or_ge n.tokens.size t with hnew | hold
      · exact hyields p f (hadds.new hnew hpair)
      · exact h.fresh ht ((hadds.old hold).symm.trans hpair)
    waiting := fun b hb => by
      rcases hadds.pending b hb with hb | ⟨id, t, rfl, ht⟩
      · exact h.waiting b (hmem b hb)
      · exact Or.inr ⟨id, t, rfl, Nat.lt_of_le_of_lt h.size_le ht⟩
    covered := hc _ h.covered
    size_le := Nat.le_trans h.size_le hg.size_le }

/-- Some steps more were done since the network was fed. -/
theorem Since.steps {n₀ n n' : Network} {g : FactId} {k : Nat} (h : n₀.Since g n) (hs : Steps n k n') : n₀.Since g n' := by
  induction hs with
  | done n => exact h
  | step hstep _ ih => exact ih (h.step hstep)

/-! ## Two runs -/

/-- Two networks with the same facts. Each node holds the same chains of facts in both, or none in both, and the same are flagged. -/
structure SameChains (n n' : Network) : Prop where
  facts : n'.facts = n.facts
  chains : ∀ id, n'.tokens.chainFacts '' {t | t ∈ n'.held id} = n.tokens.chainFacts '' {t | t ∈ n.held id}
  matched : ∀ id, n'.held id = [] ↔ n.held id = []
  flagged : ∀ id, n'.tokens.chainFacts '' {t | t ∈ n'.held id ∧ n'.tokens.isFlagged t = true} =
    n.tokens.chainFacts '' {t | t ∈ n.held id ∧ n.tokens.isFlagged t = true}

/-- Two tokens of a node have different facts on their chains. -/
theorem Sound.chainFacts_inj {n : Network} (h : n.Sound) {id : NodeId} {t u : TokenId} (ht : t ∈ n.held id) (hu : u ∈ n.held id)
    (he : n.tokens.chainFacts t = n.tokens.chainFacts u) : t = u := by
  obtain ⟨js, hp⟩ := h.exists_path_of_held ht
  induction hp generalizing t u with
  | here =>
    rw [h.held_top, List.mem_singleton] at ht hu
    rw [ht, hu]
  | down hx hup hj _ ih =>
    have hparent := parentOf_eq_some.2 ⟨_, hx, hup⟩
    obtain ⟨l, hl, -, -, hm⟩ := h.justified hparent hj ht
    obtain ⟨k, hk, -, -, hm'⟩ := h.justified hparent hj hu
    rw [TokenStore.chainFacts_of_link h.grounded hl, TokenStore.chainFacts_of_link h.grounded hk] at he
    obtain ⟨hfact, htail⟩ := List.cons_eq_cons.1 he
    refine h.distinct ht hu ?_ ?_
    · rw [TokenStore.parent?_eq_some hl, TokenStore.parent?_eq_some hk, ih hm.token hm'.token htail]
    · rw [TokenStore.fact?_eq_some hl, TokenStore.fact?_eq_some hk, hfact]

namespace Since

variable {n₀ n n' : Network} {g : FactId} (h₀ : n₀.Fed g) (h : n₀.Since g n) (h' : n₀.Since g n')
include h₀ h

/-- The new tokens are those with the new fact on their chains. -/
theorem mem_chainFacts_iff {t : TokenId} (ht : t ≤ n.tokens.size) : g ∈ n.tokens.chainFacts t ↔ n₀.tokens.size < t := by
  induction t using Nat.strongRecOn with
  | ind t ih =>
    rcases Nat.lt_or_ge n₀.tokens.size t with hnew | hold
    · refine iff_of_true ?_ hnew
      obtain ⟨l, hl⟩ := TokenStore.exists_link? (Nat.ne_of_gt (Nat.zero_lt_of_lt hnew)) ht
      have hlt := h.grounded t l hl
      rw [TokenStore.chainFacts_of_link h.grounded hl, List.mem_cons]
      rcases h.fresh hnew (TokenStore.pair?_eq_some hl) with hp | hf
      · exact Or.inr ((ih l.parent hlt (Nat.le_trans (Nat.le_of_lt hlt) ht)).2 hp)
      · exact Or.inl hf.symm
    · refine iff_of_false ?_ (Nat.not_lt.2 hold)
      rw [h.keeps.chainFacts_eq h₀.grounded h.grounded hold]
      exact h₀.absent hold

include h'

omit h₀ in
/-- What a token meets, a token with the same facts on its chain meets in the other run. -/
theorem meets_of_chainFacts_eq {j : JoinNode} {t p : TokenId} {f : FactId} (hp : p ∈ n'.held j.parent)
    (he : n'.tokens.chainFacts p = n.tokens.chainFacts t) (hm : n.Meets j t f) : n'.Meets j p f := by
  have hfacts : n'.facts = n.facts := h'.facts.trans h.facts.symm
  refine ⟨hp, ?_, ?_⟩
  · rw [arrived, h'.alpha, ← h.alpha]
    exact hm.fact
  · rw [passes_congr h.grounded h'.grounded (h.le_of_held hm.token) (h'.le_of_held hp) he (by rw [hfacts]) fun _ _ => by rw [hfacts]]
    exact hm.passes

/-- Each token has a counterpart in a run that has come to its end. -/
theorem exists_counterpart (hdone : n'.pending = []) {id : NodeId} {t : TokenId} (ht : t ∈ n.held id) :
    ∃ t' ∈ n'.held id, n'.tokens.chainFacts t' = n.tokens.chainFacts t := by
  have hbare : n'.bare = n.bare := h'.bare.trans h.bare.symm
  obtain ⟨js, hp⟩ := h.exists_path_of_held ht
  induction hp generalizing t with
  | here =>
    rw [h.held_top, List.mem_singleton] at ht
    refine ⟨rootToken, by rw [h'.held_top]; exact List.mem_singleton_self _, ?_⟩
    rw [ht, TokenStore.chainFacts_root, TokenStore.chainFacts_root]
  | @down id up x j js hx hup hj _ ih =>
    rcases Nat.lt_or_ge n₀.tokens.size t with hnew | hold
    · -- the parent and the fact meet in the other run as well, and there they are stored
      have hparent := parentOf_eq_some.2 ⟨x, hx, hup⟩
      have hparent' : n'.parentOf id = some up := by rw [parentOf_of_bare hbare, hparent]
      have hj' := (join_iff_of_bare hbare up j).2 hj
      obtain ⟨l, hl, -, -, hm⟩ := h.justified hparent hj ht
      obtain ⟨p, hpheld, hpc⟩ := ih hm.token
      have hm' := h.meets_of_chainFacts_eq h' hpheld hpc hm
      have hkind : n₀.tokens.size < p ∨ l.fact = g := by
        rcases h.fresh hnew (TokenStore.pair?_eq_some hl) with hn | hf
        · refine Or.inl ((h'.mem_chainFacts_iff h₀ (h'.le_of_held hpheld)).1 ?_)
          rw [hpc]
          exact (h.mem_chainFacts_iff h₀ (h.le_of_held hm.token)).2 hn
        · exact Or.inr hf
      obtain ⟨t', ht', l', hl', rfl, hfact⟩ := h'.exists_link_of_delivered hparent' hj' (h'.covered.delivered hdone hkind hj' hm')
      refine ⟨t', ht', ?_⟩
      rw [TokenStore.chainFacts_of_link h'.grounded hl', TokenStore.chainFacts_of_link h.grounded hl, hpc, hfact]
    · -- a token from before is in both
      obtain ⟨id', hid'⟩ := h₀.owner_iff.1 hold
      obtain rfl := h.owner_unique ht (h.held id' t hid')
      refine ⟨t, h'.held id t hid', ?_⟩
      rw [h'.keeps.chainFacts_eq h₀.grounded h'.grounded hold, h.keeps.chainFacts_eq h₀.grounded h.grounded hold]

/-- Without work left the tokens with the same facts on their chains correspond. -/
theorem corresponds (hdone : n'.pending = []) : Corresponds n n' fun t t' => n'.tokens.chainFacts t' = n.tokens.chainFacts t where
  left := h.toSound
  right := h'.toSound
  bare := h'.bare.trans h.bare.symm
  total := h.exists_counterpart h₀ h' hdone
  unique := fun hu hu' he he' => h'.chainFacts_inj hu hu' (he.trans he'.symm)
  parent := fun _ _ hl hl' he => by
    rw [TokenStore.chainFacts_of_link h.grounded hl, TokenStore.chainFacts_of_link h'.grounded hl'] at he
    exact (List.cons_eq_cons.1 he).2

/-- What a run leaves is in a run that has come to its end, flags included. -/
theorem image_subset (hdone : n'.pending = []) (id : NodeId) :
    n.tokens.chainFacts '' {t | t ∈ n.held id} ⊆ n'.tokens.chainFacts '' {t | t ∈ n'.held id} ∧
      n.tokens.chainFacts '' {t | t ∈ n.held id ∧ n.tokens.isFlagged t = true} ⊆
        n'.tokens.chainFacts '' {t | t ∈ n'.held id ∧ n'.tokens.isFlagged t = true} := by
  have hc := h.corresponds h₀ h' hdone
  constructor
  · rintro gs ⟨t, ht, rfl⟩
    exact hc.total ht
  · rintro gs ⟨t, ⟨ht, hf⟩, rfl⟩
    obtain ⟨t', ht', he⟩ := hc.total ht
    exact ⟨t', ⟨ht', hc.isFlagged_of ht ht' he hf⟩, he⟩

/-- Two runs that have come to their ends have stored the same. -/
theorem sameChains (hdone : n.pending = []) (hdone' : n'.pending = []) : n.SameChains n' := by
  have hsub := h.image_subset h₀ h' hdone'
  have hsub' := h'.image_subset h₀ h hdone
  have hchains := fun id => Set.Subset.antisymm (hsub' id).1 (hsub id).1
  refine ⟨h'.facts.trans h.facts.symm, hchains, fun id => ?_, fun id => Set.Subset.antisymm (hsub' id).2 (hsub id).2⟩
  have himage : ∀ m : Network, m.held id = [] ↔ m.tokens.chainFacts '' {t | t ∈ m.held id} = ∅ := fun m => by
    rw [Set.image_eq_empty, Set.eq_empty_iff_forall_notMem, List.eq_nil_iff_forall_not_mem]
    rfl
  rw [himage, himage, hchains]

end Since

/-! ## Histories -/

/-- Whatever rules, facts and resets a network was given, and whatever new fact comes next: whichever activations are picked, they can
be done, the picking comes to an end, and then the network holds what it holds if the last one on the stack is done first. -/
theorem calls_confluent (cs : List Call) : ∃ n rs, calls cs = .ok (n, rs) ∧ ∀ f, f ∉ n.facts → ∃ n₀ m, n.arrive f = .ok n₀ ∧
    n.addFact f = .ok (true, m) ∧ m.pending = [] ∧ (∃ k, Steps n₀ k m) ∧ ∀ k n₁, Steps n₀ k n₁ → k ≤ n₀.workBound ∧
      (∀ before a after, n₁.pending = before ++ a :: after → ∃ n₂, (n₁.withPending (before ++ after)).activate a = .ok n₂) ∧
      (n₁.pending = [] → m.SameChains n₁) := by
  obtain ⟨n, rs, he, h⟩ := calls_ok cs
  refine ⟨n, rs, he, fun f hf => ?_⟩
  obtain ⟨n₀, he₀, -⟩ := arrive_ok h.toSound hf
  have h₀ := fed_arrive h.toSound h.settled hf he₀
  obtain ⟨m, hrun, -, hdone, -⟩ := run_ok h₀.toSound
  obtain ⟨k, hk⟩ := steps_of_runUpTo hrun
  refine ⟨n₀, m, he₀, ?_, hdone, ⟨k, hk⟩, fun i n₁ hi => ⟨?_, fun before a after hp => ?_, fun hdone₁ => ?_⟩⟩
  · rw [addFact_eq (mt h.contains_iff.1 hf), he₀]
    simp only [Bind.bind, Except.bind, hrun]
  · exact Nat.le_trans (Nat.le_trans (Nat.le_add_right _ _) (hi.add_workLeft_le h₀.toSound)) n₀.workLeft_le
  · obtain ⟨n₂, he₂, -⟩ := activate_pending (h₀.since.steps hi).toSound hp
    exact ⟨n₂, he₂⟩
  · exact (h₀.since.steps hk).sameChains h₀ (h₀.since.steps hi) hdone hdone₁

/-- Somebody likes one who likes somebody: both joins read the same memory. -/
def chainRule : Rule :=
  ⟨"chain", [.between "?x" (.resource "likes") "?y", .between "?y" (.resource "likes") "?z"], [], ["?x", "?z"]⟩

/-- Alice likes Bob. -/
def chainCalls : List Call := [.rule chainRule, .fact ⟨.resource "alice", .resource "likes", .resource "bob"⟩]

/-- Bob likes himself. -/
def selfLiking : Fact := ⟨.resource "bob", .resource "likes", .resource "bob"⟩

/-- The pair of the new fact with itself comes up before that of the two facts, or after it. So the tokens have other handles, but the
same chains. -/
theorem calls_confluent_chain : ∃ n rs n₀ m n₁, calls chainCalls = .ok (n, rs) ∧ selfLiking ∉ n.facts ∧
    n.arrive selfLiking = .ok n₀ ∧ n.addFact selfLiking = .ok (true, m) ∧ Steps n₀ 3 n₁ ∧ n₁.pending = [] ∧
    m.held 2 = [1, 3] ∧ n₁.held 2 = [1, 2] ∧ m.SameChains n₁ := by
  obtain ⟨n, rs, he, h⟩ := calls_confluent chainCalls
  have hrun : (calls chainCalls >>= fun p => p.1.arrive selfLiking >>= fun n₀ =>
      (n₀.withPending [.right 3 1]).activate (.right 1 1) >>= fun a => (a.withPending [.right 3 1]).activate (.left 2 2) >>= fun b =>
        (b.withPending []).activate (.right 3 1) >>= fun c => p.1.addFact selfLiking >>= fun q =>
          .ok (p.1.facts.contains selfLiking, [n₀.pending, a.pending, b.pending, c.pending], q.2.held 2, c.held 2)) =
      .ok (false, [[.right 3 1, .right 1 1], [.left 2 2, .right 3 1], [.right 3 1], []], [1, 3], [1, 2]) := by decide +kernel
  rw [he] at hrun
  obtain ⟨_, hn, hrun⟩ := bind_eq_ok_iff.1 hrun
  obtain rfl := Except.ok.inj hn
  obtain ⟨n₀, h₀, hrun⟩ := bind_eq_ok_iff.1 hrun
  obtain ⟨a, ha, hrun⟩ := bind_eq_ok_iff.1 hrun
  obtain ⟨b, hb, hrun⟩ := bind_eq_ok_iff.1 hrun
  obtain ⟨c, hc, hrun⟩ := bind_eq_ok_iff.1 hrun
  obtain ⟨q, hq, hrun⟩ := bind_eq_ok_iff.1 hrun
  simp only [Except.ok.injEq, Prod.mk.injEq, List.cons.injEq] at hrun
  obtain ⟨hin, ⟨hp₀, hpa, hpb, hpc, -⟩, hstack, hother⟩ := hrun
  have hnew : selfLiking ∉ n.facts := fun hmem => by
    rw [Array.contains_iff_mem.2 hmem] at hin
    nomatch hin
  obtain ⟨n₀', m, h₀', hadd, -, -, hany⟩ := h selfLiking hnew
  obtain rfl := Except.ok.inj (h₀.symm.trans h₀')
  obtain rfl := Except.ok.inj (hq.symm.trans hadd)
  have hsteps : Steps n₀ 3 c := .step ⟨[.right 3 1], .right 1 1, [], hp₀, ha⟩ <|
    .step ⟨[], .left 2 2, [.right 3 1], hpa, hb⟩ <| .step ⟨[], .right 3 1, [], hpb, hc⟩ <| .done c
  exact ⟨n, rs, n₀, m, c, he, hnew, h₀, hadd, hsteps, hpc, hstack, hother, (hany 3 c hsteps).2.2 hpc⟩

end TripleRules.Network

import Mathlib.Algebra.BigOperators.Intervals
import Mathlib.Data.Set.Card
import TripleRules.Proofs.OrderIndependence
import TripleRules.Proofs.PrefixTrie

/-!
# What a score counts

A match that is found flags the tokens on its chain. The tokens of a memory stand for tuples of facts, and a tuple is flagged if
some match of some rule below the memory begins with it. So the score of a rule counts, for each proper prefix of its conditions,
the tuples with which the matches begin of all the rules that share the prefix and go on.
-/

namespace TripleRules.Network

/-- A tuple of facts with which a match begins of some rule that starts with the conditions and has more: the first facts of a
complete match, as many as the conditions. -/
def Opens (n : Network) (rs : List Rule) (cs : List Condition) (gs : List Fact) : Prop :=
  ∃ (i : Nat) (r : Rule) (id : NodeId) (u : TokenId), rs[i]? = some r ∧ n.productions[i]? = some id ∧
    cs <+: r.conditions ∧ cs.length < r.conditions.length ∧ u ∈ n.held id ∧ gs = (n.matchOf u).take cs.length

/-- A network has finitely many tokens, so finitely many tuples open a match. -/
theorem finite_opens {n : Network} (h : n.Paired) (rs : List Rule) (cs : List Condition) : {gs | n.Opens rs cs gs}.Finite := by
  refine ((Set.finite_le_nat n.tokens.size).image fun u => (n.matchOf u).take cs.length).subset ?_
  rintro gs ⟨i, r, id, u, -, -, -, -, hu, rfl⟩
  exact ⟨u, h.le_of_held hu, rfl⟩

/-- A join does not hang below a production. -/
theorem Tree.not_production_above {n : Network} (h : n.Tree) {id : NodeId} {j : JoinNode} (hj : n.nodes[id]? = some (.join j)) :
    ¬ n.IsProduction j.parent := by
  rintro ⟨p, hp⟩
  rcases h.join_parent hj with ⟨cs, htop⟩ | ⟨m, hm⟩
  · rw [hp] at htop; nomatch htop
  · rw [hp] at hm; nomatch hm

/-! ## The tokens on a chain -/

/-- A token on the chain of another one, held by a node on the way down to the node of the other: it is the other one, or the node
is no production and there are joins below it. Its facts are the first ones of the other. -/
structure OnWay (n : Network) (id : NodeId) (js : List JoinNode) (u : TokenId) (mid : NodeId) (ks : List JoinNode) (t : TokenId) :
    Prop where
  suffix : ks <:+ js
  path : n.Path topNode mid ks
  held : t ∈ n.held mid
  chain : t ∈ n.tokens.chain u
  facts : n.matchOf t = (n.matchOf u).take ks.length
  place : mid = id ∧ ks = js ∨ ks.length < js.length ∧ ¬ n.IsProduction mid

namespace Finished

variable {n : Network} (h : n.Finished)
include h

theorem onWay_self {id : NodeId} {js : List JoinNode} (hp : n.Path topNode id js) {u : TokenId} (hu : u ∈ n.held id) :
    n.OnWay id js u id js u where
  suffix := List.suffix_refl js
  path := hp
  held := hu
  chain := TokenStore.mem_chain_self h.grounded (h.le_of_held hu)
  facts := by rw [← h.length_matchOf hp hu, List.take_length]
  place := Or.inl ⟨rfl, rfl⟩

/-- What is on the chain of the parent is on the chain of the token. -/
theorem onWay_down {id up mid : NodeId} {x : Node} {j : JoinNode} {js ks : List JoinNode} {u t : TokenId} {l : Link}
    (hx : n.nodes[id]? = some x) (hup : x.parent? = some up) (hj : n.nodes[up]? = some (.join j))
    (hp : n.Path topNode j.parent js) (hu : u ∈ n.held id) (hl : n.tokens.link? u = some l)
    (hw : n.OnWay j.parent js l.parent mid ks t) : n.OnWay id (j :: js) u mid ks t where
  suffix := hw.suffix.trans (List.suffix_cons j js)
  path := hw.path
  held := hw.held
  chain := by
    rw [TokenStore.chain_of_link h.grounded hl]
    exact List.mem_cons_of_mem u hw.chain
  facts := by
    obtain ⟨l', hl', -, -, hm⟩ := h.justified (parentOf_eq_some.2 ⟨x, hx, hup⟩) hj hu
    obtain rfl := Option.some.inj (hl.symm.trans hl')
    obtain ⟨g, hg, -⟩ := h.arrived_iff.1 hm.fact
    rw [matchOf_of_link h.grounded hl hg, List.take_append_of_le_length, hw.facts]
    rw [h.length_matchOf hp hm.token]
    exact hw.suffix.length_le
  place := by
    refine Or.inr ⟨Nat.lt_succ_of_le hw.suffix.length_le, ?_⟩
    rcases hw.place with ⟨rfl, -⟩ | ⟨-, hnot⟩
    · exact h.not_production_above hj
    · exact hnot

/-- Every token on a chain is held by a node on the way down. -/
theorem exists_onWay_of_chain {id : NodeId} {js : List JoinNode} (hp : n.Path topNode id js) {u t : TokenId} (hu : u ∈ n.held id)
    (ht : t ∈ n.tokens.chain u) : ∃ mid ks, n.OnWay id js u mid ks t := by
  induction hp generalizing u with
  | here =>
    have hroot := hu
    rw [h.held_top, List.mem_singleton] at hroot
    rw [hroot, TokenStore.chain_root, List.mem_singleton] at ht
    rw [ht, ← hroot]
    exact ⟨_, _, h.onWay_self .here hu⟩
  | @down id up x j js hx hup hj hpath ih =>
    obtain ⟨l, hl, -, -, hm⟩ := h.justified (parentOf_eq_some.2 ⟨x, hx, hup⟩) hj hu
    rw [TokenStore.chain_of_link h.grounded hl, List.mem_cons] at ht
    rcases ht with rfl | ht
    · exact ⟨_, _, h.onWay_self (.down hx hup hj hpath) hu⟩
    · obtain ⟨mid, ks, hw⟩ := ih hm.token ht
      exact ⟨mid, ks, h.onWay_down hx hup hj hpath hu hl hw⟩

/-- On a chain there is a token for each number of first facts. -/
theorem exists_onWay_of_length {id : NodeId} {js : List JoinNode} (hp : n.Path topNode id js) {u : TokenId} (hu : u ∈ n.held id)
    {k : Nat} (hk : k ≤ js.length) : ∃ mid ks t, ks.length = k ∧ n.OnWay id js u mid ks t := by
  induction hp generalizing u with
  | here => exact ⟨_, [], _, (Nat.le_zero.1 hk).symm, h.onWay_self .here hu⟩
  | @down id up x j js hx hup hj hpath ih =>
    by_cases hlen : k = (j :: js).length
    · exact ⟨_, _, _, hlen.symm, h.onWay_self (.down hx hup hj hpath) hu⟩
    · obtain ⟨l, hl, -, -, hm⟩ := h.justified (parentOf_eq_some.2 ⟨x, hx, hup⟩) hj hu
      rw [List.length_cons] at hk hlen
      obtain ⟨mid, ks, t, hks, hw⟩ := ih hm.token (by omega)
      exact ⟨mid, ks, t, hks, h.onWay_down hx hup hj hpath hu hl hw⟩

end Finished

/-! ## The flagged tokens of a memory -/

/-- A node below a join that is no production is a memory. -/
theorem Tree.exists_memory_of_not_production {n : Network} (h : n.Tree) {id : NodeId} {js : List JoinNode}
    (hp : n.Path topNode id js) (hne : js ≠ []) (hnot : ¬ n.IsProduction id) : ∃ m, n.nodes[id]? = some (.memory m) := by
  cases hp with
  | here => exact absurd rfl hne
  | @down _ up x j js hx hup hj _ =>
    obtain ⟨y, hy, hc⟩ := h.parent_carries hx hup
    obtain rfl := Option.some.inj (hj.symm.trans hy)
    cases x with
    | memory m => exact ⟨m, hx⟩
    | production p => exact absurd ⟨p, hx⟩ hnot
    | top cs => nomatch hc
    | join k => nomatch hc

section

variable {n : Network} {rs : List Rule} (h : n.Finished) (hr : n.Registered rs) (ht : n.TrieOf rs)
include h hr

/-- The facts of a flagged token of a memory open some match. -/
theorem opens_of_flagged {mid : NodeId} {m : MemoryNode} {js : List JoinNode} (hm : n.nodes[mid]? = some (.memory m))
    (hp : n.Path topNode mid js) {t : TokenId} (hheld : t ∈ n.held mid) (hf : n.tokens.isFlagged t = true) :
    n.Opens rs (js.map (·.condition)).reverse (n.matchOf t) := by
  obtain ⟨-, id, p, u, hpn, hu, hchain⟩ := (h.flagged_iff t).1 hf
  obtain ⟨i, r, hid, hi, -, -, js', hpath, hjs'⟩ := hr.exists_rule hpn
  obtain ⟨mid', ks, hw⟩ := h.exists_onWay_of_chain hpath hu hchain
  obtain rfl := h.owner_unique hheld hw.held
  obtain rfl := h.path_unique hp hw.path
  have hlen : js'.length = r.conditions.length := by rw [← List.length_map, hjs', List.length_reverse]
  refine ⟨i, r, id, u, hi, hid, ?_, ?_, hu, ?_⟩
  · rw [← List.reverse_suffix, List.reverse_reverse, ← hjs']
    exact hw.suffix.map _
  · rw [List.length_reverse, List.length_map, ← hlen]
    rcases hw.place with ⟨rfl, -⟩ | ⟨hlt, -⟩
    · rw [hpn] at hm
      nomatch hm
    · exact hlt
  · rw [List.length_reverse, List.length_map]
    exact hw.facts

include ht in
/-- A tuple that opens a match of a rule with the conditions above a memory is on the chain of a flagged token of the memory. -/
theorem exists_flagged_of_opens {mid : NodeId} {m : MemoryNode} {js : List JoinNode} (hm : n.nodes[mid]? = some (.memory m))
    (hp : n.Path topNode mid js) {gs : List Fact} (ho : n.Opens rs (js.map (·.condition)).reverse gs) :
    ∃ t ∈ n.held mid, n.tokens.isFlagged t = true ∧ n.matchOf t = gs := by
  obtain ⟨i, r, id, u, hi, hid, hpre, hlt, hu, rfl⟩ := ho
  obtain ⟨p, js', hpn, -, -, hpath, hjs'⟩ := hr.production hid hi
  rw [List.length_reverse, List.length_map] at hlt ⊢
  rw [← List.reverse_suffix, List.reverse_reverse, ← hjs'] at hpre
  have hlen : js'.length = r.conditions.length := by rw [← List.length_map, hjs', List.length_reverse]
  obtain ⟨mid', ks, t, hks, hw⟩ := h.exists_onWay_of_length hpath hu (k := js.length) (by omega)
  have hconds : ks.map (·.condition) = js.map (·.condition) :=
    (List.suffix_of_suffix_length_le (hw.suffix.map _) hpre (by simp [hks])).eq_of_length (by simp [hks])
  have hne : js ≠ [] := by
    rintro rfl
    obtain ⟨_, _, -, -, he⟩ := h.joinOf_of_memory hm hp
    nomatch he
  -- the node that holds the token is the memory of the same join
  have hnot : ¬ n.IsProduction mid' := by
    rcases hw.place with ⟨-, rfl⟩ | ⟨-, hnot⟩
    · omega
    · exact hnot
  have hne' : ks ≠ [] := by
    rw [← List.length_pos_iff, hks]
    exact List.length_pos_iff.2 hne
  obtain ⟨m', hm'⟩ := h.exists_memory_of_not_production hw.path hne' hnot
  have hjoin := h.joinOf_of_memory hm' hw.path
  rw [hconds] at hjoin
  obtain rfl : mid' = mid :=
    ht.alone hm' hm (congrArg some (ht.join_unique h.toTree hjoin (h.joinOf_of_memory hm hp))) trivial
  refine ⟨t, hw.held, (h.flagged_iff t).2 ⟨?_, id, p, u, hpn, hu, hw.chain⟩, by rw [hw.facts, hks]⟩
  rintro rfl
  have htop := h.owner_unique hw.held (by rw [h.held_top]; exact List.mem_singleton_self _)
  obtain ⟨cs, hcs⟩ := h.top
  rw [htop, hcs] at hm
  nomatch hm

include ht in
/-- The flagged tokens of a memory are, one to one, the tuples that open the matches of rules with the conditions above it. -/
theorem flaggedIn_eq_ncard {mid : NodeId} {m : MemoryNode} {js : List JoinNode} (hm : n.nodes[mid]? = some (.memory m))
    (hp : n.Path topNode mid js) : n.flaggedIn (.memory m) = {gs | n.Opens rs (js.map (·.condition)).reverse gs}.ncard := by
  have hset : {gs | n.Opens rs (js.map (·.condition)).reverse gs} =
      n.matchOf '' {t | t ∈ (n.held mid).filter n.tokens.isFlagged} := by
    ext gs
    simp only [Set.mem_ofPred_eq, Set.mem_image, List.mem_filter]
    constructor
    · intro ho
      obtain ⟨t, hheld, hf, he⟩ := exists_flagged_of_opens h hr ht hm hp ho
      exact ⟨t, ⟨hheld, hf⟩, he⟩
    · rintro ⟨t, ⟨hheld, hf⟩, rfl⟩
      exact opens_of_flagged h hr hm hp hheld hf
  have hinj : Set.InjOn n.matchOf {t | t ∈ (n.held mid).filter n.tokens.isFlagged} := fun t hmem t' hmem' he =>
    h.matchOf_inj hp (List.mem_filter.1 hmem).1 (List.mem_filter.1 hmem').1 he
  rw [hset, hinj.ncard_image, flaggedIn_eq_countP hm, Node.isMemory, if_pos rfl, List.countP_eq_length_filter,
    ← List.toFinset_card_of_nodup ((h.nodup mid).filter _), ← Set.ncard_coe_finset, List.coe_toFinset]

end

/-! ## Scores -/

theorem scoreUpTo_succ {n : Network} {id : NodeId} {x : Node} (hx : n.nodes[id]? = some x) {k s : Nat}
    (hs : n.scoreUpTo k x.parent? = .ok s) : n.scoreUpTo (k + 1) (some id) = .ok (n.flaggedIn x + s) := by
  have hnode : n.node id = .ok x := by rw [node, hx]
  simp only [scoreUpTo, hnode, hs, Bind.bind, Except.bind]
  rfl

/-- What bounds a number above another is one more than something that bounds the other. -/
theorem exists_eq_add_one_of_lt_of_lt {a b k : Nat} (hab : a < b) (hbk : b < k) : ∃ k', k = k' + 1 ∧ a < k' :=
  ⟨k - 1, by omega, by omega⟩

/-- What is counted from a memory up: for each number of first conditions, the tuples that open a match after them. -/
theorem scoreUpTo_eq_sum {n : Network} {rs : List Rule} (h : n.Finished) (hr : n.Registered rs) (ht : n.TrieOf rs) {id : NodeId}
    {js : List JoinNode} (hp : n.Path topNode id js) (hnot : ¬ n.IsProduction id) {k : Nat} (hk : id < k) :
    n.scoreUpTo k (some id) =
      .ok (∑ i ∈ Finset.Icc 1 js.length, {gs | n.Opens rs ((js.map (·.condition)).reverse.take i) gs}.ncard) := by
  induction hp generalizing k with
  | here =>
    obtain ⟨cs, hcs⟩ := h.top
    obtain ⟨k, rfl⟩ := Nat.exists_eq_add_one_of_ne_zero (Nat.ne_of_gt hk)
    rw [scoreUpTo_succ hcs (s := 0) (by cases k <;> rfl)]
    rfl
  | @down id up x j js hx hup hj hpath ih =>
    obtain ⟨m, hm⟩ := h.exists_memory_of_not_production (.down hx hup hj hpath) (List.cons_ne_nil _ _) hnot
    obtain rfl := Option.some.inj (hm.symm.trans hx)
    -- one step of the walk for the memory and one for the join, so the parent of the join is reached with two steps less
    obtain ⟨k, rfl, hup_lt⟩ := exists_eq_add_one_of_lt_of_lt (h.parent_lt hx hup) hk
    obtain ⟨k, rfl, hparent_lt⟩ := exists_eq_add_one_of_lt_of_lt (h.parent_lt hj rfl) hup_lt
    have habove := scoreUpTo_succ hj (ih (h.not_production_above hj) hparent_lt)
    rw [scoreUpTo_succ hx (by rw [hup]; exact habove), flaggedIn_eq_ncard h hr ht hx (.down hx hup hj hpath), List.length_cons,
      Finset.sum_Icc_succ_top (by omega)]
    have hjoin : n.flaggedIn (.join j) = 0 := rfl
    have hall : ((j :: js).map (·.condition)).reverse.take (js.length + 1) = ((j :: js).map (·.condition)).reverse :=
      List.take_of_length_le (by simp)
    have hsame : ∀ i ∈ Finset.Icc 1 js.length, {gs | n.Opens rs ((js.map (·.condition)).reverse.take i) gs}.ncard =
        {gs | n.Opens rs (((j :: js).map (·.condition)).reverse.take i) gs}.ncard := by
      intro i hi
      rw [List.map_cons, List.reverse_cons, List.take_append_of_le_length]
      simpa using (Finset.mem_Icc.1 hi).2
    rw [hall, hjoin, Nat.zero_add, Nat.add_comm, Finset.sum_congr rfl hsame]

/-- The score of the production of a rule: for each number of its first conditions, the tuples that open a match after them. -/
theorem score_eq_sum {n : Network} {rs : List Rule} (h : n.Finished) (hr : n.Registered rs) (ht : n.TrieOf rs) {i : Nat} {r : Rule}
    {id : NodeId} (hi : rs[i]? = some r) (hid : n.productions[i]? = some id) :
    n.score id = .ok (∑ k ∈ Finset.Icc 1 (r.conditions.length - 1), {gs | n.Opens rs (r.conditions.take k) gs}.ncard) := by
  obtain ⟨p, js, hp, -, -, hpath, hjs⟩ := hr.production hid hi
  have hne := (Rule.check_eq_ok_iff.1 (hr.checked r (List.mem_of_getElem? hi))).2.1
  cases hpath with
  | here => exact absurd (List.reverse_eq_nil_iff.1 hjs.symm) hne
  | @down _ up x j js hx hup hj hpath =>
    obtain ⟨k, hk, hparent_lt⟩ := exists_eq_add_one_of_lt_of_lt (h.parent_lt hj rfl) (Array.getElem?_eq_some_iff.1 hj).1
    have habove := scoreUpTo_succ hj (scoreUpTo_eq_sum h hr ht hpath (h.not_production_above hj) hparent_lt)
    have hnode : n.node id = .ok x := by rw [node, hx]
    have hconds : r.conditions = (js.map (·.condition)).reverse ++ [j.condition] := by
      rw [← List.reverse_reverse r.conditions, ← hjs, List.map_cons, List.reverse_cons]
    have hlen : r.conditions.length - 1 = js.length := by simp [hconds]
    have hjoin : n.flaggedIn (.join j) = 0 := rfl
    simp only [score, hnode, hup, hk, Bind.bind, Except.bind, habove, hjoin, Nat.zero_add, hlen]
    refine congrArg Except.ok (Finset.sum_congr rfl fun i hi => ?_)
    rw [hconds, List.take_append_of_le_length]
    simpa using (Finset.mem_Icc.1 hi).2

/-- For any rules that a new network accepts and any facts inserted after them: the flagged tokens are those on the chains of the
tokens that the productions hold, the root apart, and the score of a production counts, for each number of first conditions of its
rule, the tuples of facts with which matches begin of the rules that start with these conditions and have more. There are finitely
many of them. -/
theorem flagged_and_scores {rs : List Rule} {n₀ : Network} (hr : empty.addRules rs = .ok n₀) (fs : List Fact) :
    ∃ n, n₀.addFacts fs = .ok n ∧
      (∀ t, n.tokens.isFlagged t = true ↔ t ≠ rootToken ∧ ∃ (id : NodeId) (p : ProductionNode) (u : TokenId),
        n.nodes[id]? = some (.production p) ∧ u ∈ p.tokens.toList ∧ t ∈ n.tokens.chain u) ∧
      (∀ cs, {gs | n.Opens rs cs gs}.Finite) ∧
      ∀ (id : NodeId) (p : ProductionNode), n.nodes[id]? = some (.production p) → ∃ (i : Nat) (r : Rule), rs[i]? = some r ∧
        (∀ k : Nat, n.productions[k]? = some id ↔ k = i) ∧
        n.score id = .ok (∑ k ∈ Finset.Icc 1 (r.conditions.length - 1), {gs | n.Opens rs (r.conditions.take k) gs}.ncard) := by
  obtain ⟨hw₀, hr₀⟩ := wired_addRules wired_empty registered_empty hr
  obtain ⟨n, he, h, hb, -⟩ := addFacts_ok (finished_of_clean hw₀ (clean_of_bare hw₀ (bare_of_addRules hr))) fs
  have hreg := hr₀.of_bare hb
  have htrie := (trie_addRules hr).of_bare hb
  refine ⟨n, he, fun t => ?_, finite_opens h.toPaired rs, fun id p hp => ?_⟩
  · rw [h.flagged_iff]
    refine and_congr_right fun _ => ⟨?_, ?_⟩
    · rintro ⟨id, p, u, hp, hu, ht⟩
      rw [held_eq hp] at hu
      exact ⟨id, p, u, hp, hu, ht⟩
    · rintro ⟨id, p, u, hp, hu, ht⟩
      exact ⟨id, p, u, hp, by rw [held_eq hp]; exact hu, ht⟩
  · have hnodup : n.productions.toList.Nodup := by
      rw [productions_of_bare hb]
      exact nodup_productions hr
    obtain ⟨i, hi, hk⟩ := (prefixTrie_of_trieOf h.toWired hreg htrie hnodup).rule hp
    exact ⟨i, rs[i], List.getElem?_eq_getElem hi, hk,
      score_eq_sum h hreg htrie (List.getElem?_eq_getElem hi) ((hk i).2 rfl)⟩

/-- Of the two invitations one goes on to a match. -/
theorem flagged_and_scores_tea : ∃ n₀ n p, empty.addRules [.teaRule] = .ok n₀ ∧ n₀.addFacts Fact.teaFacts = .ok n ∧
    n.nodes[4]? = some (.production p) ∧ n.score 4 = .ok 1 ∧
    {gs | n.Opens [.teaRule] (Rule.teaRule.conditions.take 1) gs}.ncard = 1 := by
  obtain ⟨n₀, h₀⟩ : ∃ n₀, empty.addRules [.teaRule] = .ok n₀ := ⟨_, rfl⟩
  obtain ⟨n, hn, -, -, hscores⟩ := flagged_and_scores h₀ Fact.teaFacts
  have hrun : (empty.addRules [.teaRule]).bind (fun n => (n.addFacts Fact.teaFacts).bind fun n => .ok (n.nodes[4]?, n.score 4)) =
      .ok (some (.production ⟨3, "tea", ["?host"], 2, #[2]⟩), .ok 1) := by decide +kernel
  simp only [h₀, hn, Except.bind, Except.ok.injEq, Prod.mk.injEq] at hrun
  obtain ⟨hp, hone⟩ := hrun
  obtain ⟨i, r, hi, -, hs⟩ := hscores 4 _ hp
  refine ⟨n₀, n, _, h₀, hn, hp, hone, ?_⟩
  obtain rfl : r = .teaRule := by
    have hmem := List.mem_of_getElem? hi
    exact List.mem_singleton.1 hmem
  have hlen : Rule.teaRule.conditions.length - 1 = 1 := rfl
  rw [hone, hlen, Finset.Icc_self, Finset.sum_singleton] at hs
  exact (Except.ok.inj hs).symm

end TripleRules.Network

import TripleRules.Proofs.Ranking
import TripleRules.Proofs.Scores
import TripleRules.Proofs.WellFormed

/-!
# A rule that goes on outranks the one that it goes on from

The way up from the production of a rule leads through the memories of its first conditions. If the conditions of another rule are
some of these, both ways lead through the last join of that rule, and what is counted from there on up is the same. Below that join
the longer way passes memories that the matches of the rule with more conditions go through, and each match has flagged a token there.
So that rule has the higher score as soon as it has a match, whatever else is flagged in the memories.
-/

namespace TripleRules.Network

/-! ## Weights -/

/-- Whether a number is what is counted from a node up, over enough nodes. -/
def Weighs (n : Network) (id : NodeId) (s : Nat) : Prop := ∀ k, id < k → n.scoreUpTo k (some id) = .ok s

theorem Weighs.unique {n : Network} {id : NodeId} {s t : Nat} (hs : n.Weighs id s) (ht : n.Weighs id t) : s = t :=
  Except.ok.inj ((hs (id + 1) (Nat.lt_succ_self id)).symm.trans (ht (id + 1) (Nat.lt_succ_self id)))

namespace Tree

variable {n : Network} (h : n.Tree)
include h

/-- A node weighs its flagged tokens and what its parent weighs. -/
theorem weighs_of_parent {id up : NodeId} {x : Node} (hx : n.nodes[id]? = some x) (hup : x.parent? = some up) {s : Nat}
    (hs : n.Weighs up s) : n.Weighs id (n.flaggedIn x + s) := by
  intro k hk
  obtain ⟨k, rfl⟩ := Nat.exists_eq_add_one_of_ne_zero (Nat.ne_of_gt (Nat.zero_lt_of_lt hk))
  refine scoreUpTo_succ hx ?_
  rw [hup]
  exact hs k (Nat.lt_of_lt_of_le (h.parent_lt hx hup) (Nat.le_of_lt_succ hk))

/-- Every node weighs something. -/
theorem exists_weighs {id : NodeId} {x : Node} (hx : n.nodes[id]? = some x) : ∃ s, n.Weighs id s := by
  induction id using Nat.strongRecOn generalizing x with
  | ind id ih =>
    cases hp : x.parent? with
    | none =>
      refine ⟨n.flaggedIn x + 0, fun k hk => ?_⟩
      obtain ⟨k, rfl⟩ := Nat.exists_eq_add_one_of_ne_zero (Nat.ne_of_gt (Nat.zero_lt_of_lt hk))
      refine scoreUpTo_succ hx ?_
      rw [hp]
      cases k <;> rfl
    | some up =>
      obtain ⟨y, hy, -⟩ := h.parent_carries hx hp
      obtain ⟨s, hs⟩ := ih up (h.parent_lt hx hp) hy
      exact ⟨_, h.weighs_of_parent hx hp hs⟩

theorem exists_weighs_join {join : NodeId} {cs : List Condition} (hj : n.JoinOf join cs) : ∃ s, n.Weighs join s := by
  obtain ⟨_, _, hj, -⟩ := hj
  exact h.exists_weighs hj

/-- The score of a node is what its parent weighs. -/
theorem score_of_parent {id up : NodeId} {x : Node} (hx : n.nodes[id]? = some x) (hup : x.parent? = some up) {s : Nat}
    (hs : n.Weighs up s) : n.score id = .ok s := by
  have hnode : n.node id = .ok x := by rw [node, hx]
  have hlt := Nat.lt_trans (h.parent_lt hx hup) (Array.getElem?_eq_some_iff.1 hx).1
  simp only [score, hnode, hup, Bind.bind, Except.bind]
  exact hs n.nodes.size hlt

/-- The join of one condition more weighs what the join of the others does, and the flagged tokens of the memory between them. -/
theorem weighs_of_cons {join : NodeId} {c : Condition} {cs : List Condition} (hj : n.JoinOf join (c :: cs)) (hne : cs ≠ []) :
    ∃ j m, n.nodes[join]? = some (.join j) ∧ n.nodes[j.parent]? = some (.memory m) ∧ n.JoinOf m.parent cs ∧
      ∀ s, n.Weighs m.parent s → n.Weighs join (n.flaggedIn (.memory m) + s) := by
  obtain ⟨j, hjn, -, ⟨hcs, -⟩ | ⟨m, hm, hup⟩⟩ := h.above_join hj
  · exact absurd hcs hne
  · refine ⟨j, m, hjn, hm, hup, fun s hs => ?_⟩
    have hjoin : n.flaggedIn (.join j) = 0 := rfl
    have hw := h.weighs_of_parent hjn rfl (h.weighs_of_parent hm rfl hs)
    rw [hjoin, Nat.zero_add] at hw
    exact hw

/-- Joins further down weigh no less. -/
theorem weighs_le {rs : List Rule} (ht : n.TrieOf rs) {a b : NodeId} {cs ds : List Condition} (ha : n.JoinOf a ds)
    (hb : n.JoinOf b cs) (hcs : cs <:+ ds) {s t : Nat} (hs : n.Weighs b s) (hta : n.Weighs a t) : s ≤ t := by
  have hne : cs ≠ [] := by
    obtain ⟨_, _, -, -, he⟩ := hb
    rw [← he]
    exact List.cons_ne_nil _ _
  induction ds generalizing a t with
  | nil => exact absurd (List.suffix_nil.1 hcs) hne
  | cons d ds ih =>
    rcases List.suffix_cons_iff.1 hcs with rfl | hcs
    · rw [ht.join_unique h ha hb] at hta
      exact Nat.le_of_eq (hs.unique hta)
    · have hds : ds ≠ [] := fun hnil => hne (List.suffix_nil.1 (hnil ▸ hcs))
      obtain ⟨j, m, -, -, hup, hw⟩ := h.weighs_of_cons ha hds
      obtain ⟨t', ht'⟩ := h.exists_weighs_join hup
      have hle := ih hup hcs ht'
      rw [hta.unique (hw t' ht')]
      exact Nat.le_trans hle (Nat.le_add_left _ _)

end Tree

/-- A match has flagged a token in the memory above the join that it came through. -/
theorem Sound.flaggedIn_pos {n : Network} (h : n.Sound) {id : NodeId} {p : ProductionNode} {j : JoinNode} {m : MemoryNode}
    (hp : n.nodes[id]? = some (.production p)) (hj : n.nodes[p.parent]? = some (.join j))
    (hm : n.nodes[j.parent]? = some (.memory m)) (hne : n.held id ≠ []) : 0 < n.flaggedIn (.memory m) := by
  obtain ⟨u, hu⟩ := List.exists_mem_of_ne_nil _ hne
  obtain ⟨l, hl, -, -, hmeet⟩ := h.justified (parentOf_eq_some.2 ⟨_, hp, rfl⟩) hj hu
  have hchain : l.parent ∈ n.tokens.chain u := by
    rw [TokenStore.chain_of_link h.grounded hl]
    exact List.mem_cons_of_mem u (TokenStore.mem_chain_self h.grounded (h.le_of_held hmeet.token))
  have h₀ : l.parent ≠ rootToken := by
    intro hroot
    obtain ⟨cs, hcs⟩ := h.top
    rw [(h.eq_root_iff hmeet.token).1 hroot, hcs] at hm
    nomatch hm
  rw [flaggedIn_eq_countP hm, Node.isMemory, if_pos rfl, List.countP_pos_iff]
  exact ⟨l.parent, hmeet.token, (h.flagged_iff _).2 ⟨h₀, id, p, u, hp, hu, hchain⟩⟩

/-! ## Scores of productions -/

section

variable {n : Network} {rs : List Rule} (h : n.Sound) (hr : n.Registered rs) (ht : n.TrieOf rs)
include h hr

/-- The score of the production of a rule is what the join of all its conditions weighs. -/
theorem exists_score {i : Nat} {r : Rule} {id : NodeId} (hi : rs[i]? = some r) (hid : n.productions[i]? = some id) :
    ∃ p s, n.nodes[id]? = some (.production p) ∧ n.JoinOf p.parent r.conditions.reverse ∧ n.Weighs p.parent s ∧
      n.score id = .ok s := by
  obtain ⟨p, js, hp, -, -, hpath, hjs⟩ := hr.production hid hi
  have hne := (Rule.check_eq_ok_iff.1 (hr.checked r (List.mem_of_getElem? hi))).2.1
  cases hpath with
  | here => exact absurd (List.reverse_eq_nil_iff.1 hjs.symm) hne
  | down hx hup hj hpath =>
    obtain rfl := Option.some.inj (hp.symm.trans hx)
    obtain rfl := Option.some.inj hup
    obtain ⟨s, hs⟩ := h.exists_weighs hj
    exact ⟨p, s, hp, ⟨_, _, hj, hpath, hjs⟩, hs, h.score_of_parent hp rfl hs⟩

include ht

/-- A rule with a match has a higher score than a rule from which it goes on, and rules with the same conditions have the same
score. -/
theorem score_lt_and_eq {i k : Nat} {r q : Rule} {a b : NodeId} (hi : rs[i]? = some r) (hk : rs[k]? = some q)
    (ha : n.productions[i]? = some a) (hb : n.productions[k]? = some b) : ∃ s t, n.score a = .ok s ∧ n.score b = .ok t ∧
      (q.conditions <+: r.conditions → q.conditions ≠ r.conditions → n.held a ≠ [] → t < s) ∧
      (q.conditions = r.conditions → s = t) := by
  obtain ⟨p, s, hp, hja, hs, hsa⟩ := exists_score h hr hi ha
  obtain ⟨p', t, -, hjb, ht', htb⟩ := exists_score h hr hk hb
  refine ⟨s, t, hsa, htb, fun hpre hne hheld => ?_, fun he => ?_⟩
  · have hsuf : q.conditions.reverse <:+ r.conditions.reverse := List.reverse_suffix.2 hpre
    have hne' : q.conditions.reverse ≠ r.conditions.reverse := fun he => hne (List.reverse_injective he)
    generalize r.conditions.reverse = ds at hja hsuf hne'
    cases ds with
    | nil => exact absurd (List.suffix_nil.1 hsuf) hne'
    | cons d ds =>
      have hsuf := (List.suffix_cons_iff.1 hsuf).resolve_left hne'
      have hds : ds ≠ [] := by
        rintro rfl
        obtain ⟨_, _, -, -, he⟩ := hjb
        rw [List.suffix_nil.1 hsuf] at he
        nomatch he
      obtain ⟨j, m, hj, hm, hup, hw⟩ := h.weighs_of_cons hja hds
      obtain ⟨w, hweigh⟩ := h.exists_weighs_join hup
      have hle := h.weighs_le ht hup hjb hsuf ht' hweigh
      have hpos := h.flaggedIn_pos hp hj hm hheld
      rw [hs.unique (hw w hweigh)]
      omega
  · rw [he] at hjb
    rw [ht.join_unique h.toTree hja hjb] at hs
    exact hs.unique ht'

end

/-! ## The most specific rule -/

/-- The most specific rule is satisfied, and no satisfied rule has a higher score. -/
theorem score_le_of_mostSpecificRule {n : Network} (ht : n.Tree) (hm : n.Marked) {name : String}
    (he : n.mostSpecificRule = .ok (some name)) : ∃ id s, n.satisfied.find? name = some id ∧ n.score id = .ok s ∧
      ∀ {name' : String} {id' : NodeId} {s' : Nat}, n.satisfied.find? name' = some id' → n.score id' = .ok s' → s' ≤ s := by
  obtain ⟨ranked, hranked, hr⟩ := exists_ranking ht hm
  rw [mostSpecificRule, hranked] at he
  obtain ⟨s, hmem, hmax⟩ := (mostSpecific_eq_some_iff hr.ordered).1 he
  obtain ⟨id, hid, hs⟩ := hr.mem_iff.1 hmem
  refine ⟨id, s, hid, hs, fun {name' id' s'} hid' hs' => ?_⟩
  by_cases hname : name' = name
  · subst hname
    obtain rfl := Option.some.inj (hid.symm.trans hid')
    exact Nat.le_of_eq (Except.ok.inj (hs'.symm.trans hs))
  · exact Nat.le_of_lt (hmax _ (hr.mem_iff.2 ⟨id', hid', hs'⟩) hname)

/-- Where the names of the rules are distinct, no satisfied rule goes on from the most specific one. -/
theorem eq_of_mostSpecificRule {n : Network} {rs : List Rule} (h : n.Sound) (hr : n.Registered rs) (ht : n.TrieOf rs)
    (hn : (rs.map (·.name)).Nodup) {name : String} (he : n.mostSpecificRule = .ok (some name)) :
    ∃ r ∈ rs, r.name = name ∧ name ∈ n.satisfiedNames ∧
      ∀ q ∈ rs, q.name ∈ n.satisfiedNames → r.conditions <+: q.conditions → r.conditions = q.conditions := by
  -- the production of a satisfied name is that of the one rule with the name
  have hrule : ∀ {name : String} {id : NodeId}, n.satisfied.find? name = some id → n.held id ≠ [] ∧
      ∃ (i : Nat) (r : Rule), rs[i]? = some r ∧ n.productions[i]? = some id ∧ r.name = name := by
    intro name id hs
    obtain ⟨p, hp, hname, hne⟩ := h.satisfied_some hs
    obtain ⟨i, r, hid, hi, hpr, -⟩ := hr.exists_rule hp
    exact ⟨hne, i, r, hi, hid, hpr.symm.trans hname⟩
  obtain ⟨id, s, hid, hs, hmax⟩ := score_le_of_mostSpecificRule h.toTree h.toMarked he
  obtain ⟨-, i, r, hi, hpi, hname⟩ := hrule hid
  refine ⟨r, List.mem_of_getElem? hi, hname, mem_satisfiedNames.2 ⟨id, hid⟩, fun q hq hsat hpre => ?_⟩
  by_contra hne
  obtain ⟨id', hid'⟩ := mem_satisfiedNames.1 hsat
  obtain ⟨hheld, k, q', hk, hpk, hname'⟩ := hrule hid'
  obtain ⟨k', hk'⟩ := List.mem_iff_getElem?.1 hq
  obtain rfl := index_unique hn hk hk' hname'
  obtain rfl := Option.some.inj (hk.symm.trans hk')
  obtain ⟨s', t, hs', ht', hlt, -⟩ := score_lt_and_eq h hr ht hk hi hpk hpi
  obtain rfl := Except.ok.inj (hs.symm.trans ht')
  exact Nat.not_le_of_lt (hlt hpre hne hheld) (hmax hid' hs')

/-! ## Histories -/

/-- Whatever rules, facts and resets a network is given, and in whatever order, every production is that of a rule and has a score;
that of a rule with a match is higher than that of a rule from which it goes on, and rules with the same conditions have the same. So
where the names of the rules are distinct, the most specific rule is one from which no satisfied rule goes on. -/
theorem calls_outrank (cs : List Call) : ∃ n rs, calls cs = .ok (n, rs) ∧
    (∀ id, n.IsProduction id → ∃ (i : Nat) (r : Rule), rs[i]? = some r ∧ n.productions[i]? = some id) ∧
    (∀ {i k : Nat} {r q : Rule} {a b : NodeId}, rs[i]? = some r → rs[k]? = some q → n.productions[i]? = some a →
      n.productions[k]? = some b → ∃ s t, n.score a = .ok s ∧ n.score b = .ok t ∧
        (q.conditions <+: r.conditions → q.conditions ≠ r.conditions → n.held a ≠ [] → t < s) ∧
        (q.conditions = r.conditions → s = t)) ∧
    ((rs.map (·.name)).Nodup → ∀ name, n.mostSpecificRule = .ok (some name) →
      ∃ r ∈ rs, r.name = name ∧ name ∈ n.satisfiedNames ∧
        ∀ q ∈ rs, q.name ∈ n.satisfiedNames → r.conditions <+: q.conditions → r.conditions = q.conditions) := by
  obtain ⟨n, rs, he, h⟩ := calls_ok cs
  have hr := registered_of_addRules h.rules
  have ht := (trie_addRules h.rules).of_bare n.bare_bare.symm
  refine ⟨n, rs, he, fun id ⟨p, hp⟩ => ?_, fun hi hk ha hb => score_lt_and_eq h.toSound hr ht hi hk ha hb,
    fun hn name hname => eq_of_mostSpecificRule h.toSound hr ht hn hname⟩
  obtain ⟨i, r, hid, hi, -⟩ := hr.exists_rule hp
  exact ⟨i, r, hi, hid⟩

/-- The late rule goes on from the tea rule, has one match to its two, and outranks it. -/
theorem calls_outrank_late : ∃ n s t, calls lateCalls = .ok (n, [.teaRule, partyRule]) ∧ (n.held 4).length = 2 ∧
    (n.held 7).length = 1 ∧ n.score 7 = .ok s ∧ n.score 4 = .ok t ∧ t < s ∧ n.mostSpecificRule = .ok (some "party") ∧
    ∃ r ∈ [Rule.teaRule, partyRule], r.name = "party" ∧ ∀ q ∈ [Rule.teaRule, partyRule], q.name ∈ n.satisfiedNames →
      r.conditions <+: q.conditions → r.conditions = q.conditions := by
  obtain ⟨n, rs, he, -, hscores, hmost⟩ := calls_outrank lateCalls
  have hrun : (calls lateCalls).map (fun p => (p.2, p.1.productions, (p.1.held 4).length, (p.1.held 7).length)) =
      .ok ([.teaRule, partyRule], #[4, 7], 2, 1) := by decide +kernel
  have hbest : (calls lateCalls).bind (fun p => p.1.mostSpecificRule) = .ok (some "party") := by decide +kernel
  rw [he] at hrun hbest
  simp only [Except.map, Except.ok.injEq, Prod.mk.injEq] at hrun
  obtain ⟨rfl, hp, h₄, h₇⟩ := hrun
  have hne : n.held 7 ≠ [] := List.ne_nil_of_length_pos (by rw [h₇]; exact Nat.one_pos)
  obtain ⟨s, t, hs, ht, hlt, -⟩ := hscores (i := 1) (k := 0) rfl rfl (by rw [hp]; rfl) (by rw [hp]; rfl)
  obtain ⟨r, hr, hname, -, hno⟩ := hmost (by decide) "party" hbest
  exact ⟨n, s, t, he, h₄, h₇, hs, ht, hlt (by decide) (by decide) hne, hbest, r, hr, hname, hno⟩

end TripleRules.Network

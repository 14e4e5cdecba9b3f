import Mathlib.Data.List.Dedup
import TripleRules.Engine
import TripleRules.Proofs.Answers
import TripleRules.Proofs.SameFacts

/-!
# The order of a batch does not show

Two batches with the same facts, in whatever order and however often repeated, are answered alike by networks with the same rules:
every count is a count of tokens of a node, and every choice is one among the tuples of a node.
-/

namespace TripleRules

/-! ## Ranked rules -/

instance : Std.TransCmp RankedRule.compare :=
  inferInstanceAs (Std.TransCmp (compareLex (fun a b => compareOn RankedRule.score b a) (compareOn RankedRule.rule)))

/-- Only equal ranked rules compare as equal. -/
theorem RankedRule.compare_eq_iff (a b : RankedRule) : a.compare b = .eq ↔ a = b := by
  rw [RankedRule.compare, Ordering.then_eq_eq, Std.compare_eq_iff_eq, Std.compare_eq_iff_eq]
  cases a
  cases b
  rw [RankedRule.mk.injEq]
  exact ⟨fun h => ⟨h.2, h.1.symm⟩, fun h => ⟨h.2.symm, h.1⟩⟩

instance : Std.LawfulEqCmp RankedRule.compare where
  compare_self := (RankedRule.compare_eq_iff _ _).2 rfl
  eq_of_compare := (RankedRule.compare_eq_iff _ _).1

namespace Network

theorem isMemory_clear (x : Node) : x.clear.isMemory = x.isMemory := by
  cases x <;> rfl

/-- The flagged tokens of a memory are counted, and no others. -/
theorem flaggedIn_eq_countP {n : Network} {id : NodeId} {x : Node} (hx : n.nodes[id]? = some x) :
    n.flaggedIn x = if x.isMemory then (n.held id).countP n.tokens.isFlagged else 0 := by
  rw [held_eq hx]
  cases x <;> rfl

/-- The nodes above a node are there, so it has a score. -/
theorem Tree.scoreUpTo_ok {n : Network} (h : n.Tree) (k : Nat) {id : NodeId} {x : Node} (hx : n.nodes[id]? = some x) :
    ∃ s, n.scoreUpTo k (some id) = .ok s := by
  induction k generalizing id x with
  | zero => exact ⟨0, rfl⟩
  | succ k ih =>
    have hnode : n.node id = .ok x := by rw [node, hx]
    cases hp : x.parent? with
    | none =>
      refine ⟨n.flaggedIn x + 0, ?_⟩
      simp only [scoreUpTo, hnode, hp, Bind.bind, Except.bind]
      rfl
    | some up =>
      obtain ⟨y, hy, -⟩ := h.parent_carries hx hp
      obtain ⟨s, hs⟩ := ih hy
      refine ⟨n.flaggedIn x + s, ?_⟩
      simp only [scoreUpTo, hnode, hp, hs, Bind.bind, Except.bind]
      rfl

/-- In a tree every node has a score: the walk from it comes to the top node. -/
theorem Tree.score_ok {n : Network} (h : n.Tree) {id : NodeId} {x : Node} (hx : n.nodes[id]? = some x) :
    ∃ s, n.score id = .ok s := by
  have hnode : n.node id = .ok x := by rw [node, hx]
  simp only [score, hnode, Bind.bind, Except.bind]
  cases hp : x.parent? with
  | none => exact ⟨0, by cases n.nodes.size <;> rfl⟩
  | some up =>
    obtain ⟨y, hy, -⟩ := h.parent_carries hx hp
    exact h.scoreUpTo_ok n.nodes.size hy

/-- The ranking of satisfied rules that have scores. -/
theorem rankedRules_eq {n : Network} {scores : NodeId → Nat} (h : ∀ e ∈ n.satisfied.entries, n.score e.2 = .ok (scores e.2)) :
    n.rankedRules = .ok (Ordered.sort RankedRule.compare (n.satisfied.entries.map fun e => ⟨e.1, scores e.2⟩)) := by
  have hrank : n.rankedRules = ((n.satisfied.entries.mapM fun e => (n.score e.2).map (RankedRule.mk e.1)) >>= fun ranked =>
      .ok (Ordered.sort RankedRule.compare ranked)) := rfl
  have hmap : (n.satisfied.entries.mapM fun e => (n.score e.2).map (RankedRule.mk e.1)) =
      .ok (n.satisfied.entries.map fun e => ⟨e.1, scores e.2⟩) :=
    List.mapM_eq_pure_map fun e he => congrArg (Except.map (RankedRule.mk e.1)) (h e he)
  rw [hrank, hmap]
  rfl

/-- The production of a satisfied rule has a score. -/
theorem exists_scores {n : Network} (ht : n.Tree) (hm : n.Marked) :
    ∃ scores : NodeId → Nat, ∀ e ∈ n.satisfied.entries, n.score e.2 = .ok (scores e.2) := by
  refine ⟨fun id => (n.score id).toOption.getD 0, fun e he => ?_⟩
  obtain ⟨p, hp, -⟩ := hm.satisfied_some (Table.find?_eq_some_iff.2 he)
  obtain ⟨s, hs⟩ := ht.score_ok hp
  simp only [hs, Except.toOption, Option.getD_some]

/-- Rules with distinct names stand in one place each. -/
theorem index_unique {rs : List Rule} (hn : (rs.map (·.name)).Nodup) {i k : Nat} {r r' : Rule} (hi : rs[i]? = some r)
    (hk : rs[k]? = some r') (he : r.name = r'.name) : i = k := by
  have hr : (rs.map (·.name))[i]? = (rs.map (·.name))[k]? := by
    rw [List.getElem?_map, List.getElem?_map, hi, hk, Option.map_some, Option.map_some, he]
  have hlt : i < (rs.map (·.name)).length := by
    rw [List.length_map]
    exact (List.getElem?_eq_some_iff.1 hi).1
  exact (List.getElem?_inj hlt hn).1 hr

/-- Rules with distinct names have one production each. -/
theorem Registered.production_unique {n : Network} {rs : List Rule} (h : n.Registered rs) (hn : (rs.map (·.name)).Nodup)
    {id id' : NodeId} {p p' : ProductionNode} (hp : n.nodes[id]? = some (.production p))
    (hp' : n.nodes[id']? = some (.production p')) (he : p.rule = p'.rule) : id = id' := by
  obtain ⟨i, r, hid, hi, hname, -⟩ := h.exists_rule hp
  obtain ⟨i', r', hid', hi', hname', -⟩ := h.exists_rule hp'
  obtain rfl := index_unique hn hi hi' (by rw [← hname, ← hname', he])
  exact Option.some.inj (hid.symm.trans hid')

namespace Alike

variable {n n' : Network} (h : n.Alike n')
include h

/-! ## Satisfied rules -/

section

variable {rs : List Rule} (hr : n'.Registered rs) (hn : (rs.map (·.name)).Nodup)
include hr hn

/-- A rule that is satisfied in one run is satisfied in the other one, by the same production. -/
theorem find?_satisfied_of {name : String} {id : NodeId} (hs : n.satisfied.find? name = some id) :
    n'.satisfied.find? name = some id := by
  obtain ⟨p, hp, hname, hne⟩ := h.left.satisfied_some hs
  obtain ⟨p', hp', hrule, -⟩ := production_of_bare h.bare hp
  obtain ⟨id', hs'⟩ := h.right.satisfied_of hp' fun hnil => hne ((h.held_eq_nil_iff id).2 hnil)
  rw [hrule, hname] at hs'
  obtain ⟨q, hq, hqname, -⟩ := h.right.satisfied_some hs'
  obtain rfl := hr.production_unique hn hp' hq (by rw [hrule, hname, hqname])
  exact hs'

/-- The same rules are satisfied, by the same productions. -/
theorem find?_satisfied (name : String) : n'.satisfied.find? name = n.satisfied.find? name := by
  have hr' : n.Registered rs := hr.of_bare h.bare.symm
  refine Option.ext fun id => ⟨fun hs => ?_, fun hs => ?_⟩
  · exact h.symm.find?_satisfied_of hr' hn hs
  · exact h.find?_satisfied_of hr hn hs

/-- The tables of satisfied rules have the same entries. -/
theorem perm_satisfied : n'.satisfied.entries.Perm n.satisfied.entries :=
  Table.perm_entries (h.find?_satisfied hr hn)

/-- The names of the satisfied rules are the same. -/
theorem satisfiedNames_eq : n'.satisfiedNames = n.satisfiedNames :=
  Ordered.sort_eq_of_perm ((h.perm_satisfied hr hn).map _)

/-! ## Matches -/

/-- The least match of a satisfied rule is the same, and so are the bindings that are read off it. -/
theorem bindings_eq {name : String} {id : NodeId} (hs : n.satisfied.find? name = some id) :
    n'.bindings name = n.bindings name := by
  obtain ⟨p, t, hp, -, ht, hleast, hb⟩ := bindings_of_satisfied h.left.toMarked hs
  obtain ⟨p', t', hp', -, ht', hleast', hb'⟩ := bindings_of_satisfied h.right.toMarked (h.find?_satisfied_of hr hn hs)
  obtain ⟨q, hq, -, hselect⟩ := production_of_bare h.bare hp
  obtain rfl := Node.production.inj (Option.some.inj (hp'.symm.trans hq))
  obtain ⟨u', hu', heu'⟩ := h.exists_counterpart ht
  obtain ⟨u, hu, heu⟩ := h.symm.exists_counterpart ht'
  have hle := hleast u hu
  have hle' := hleast' u' hu'
  rw [heu] at hle
  rw [heu'] at hle'
  have hmatch : n'.matchOf t' = n.matchOf t := Std.LawfulEqOrd.eq_of_compare (Std.OrientedCmp.isLE_antisymm hle' hle)
  obtain ⟨js, hpath⟩ := h.left.exists_path_of_held ht
  rw [hb, hb', bindingsOf_eq h.left.toSound hpath ht, bindingsOf_eq h.right.toSound (hpath.of_bare h.bare) ht', hselect, hmatch]

/-- The matches are the same. -/
theorem allMatches_eq : n'.allMatches = n.allMatches := by
  have hfold : ∀ (names : List String) (t : Table Bindings), (∀ name ∈ names, name ∈ n.satisfiedNames) →
      names.foldlM n'.answer t = names.foldlM n.answer t := by
    intro names
    induction names with
    | nil => exact fun t _ => rfl
    | cons name names ih =>
      intro t hin
      obtain ⟨hname, hnames⟩ := List.forall_mem_cons.1 hin
      obtain ⟨id, hs⟩ := mem_satisfiedNames.1 hname
      rw [List.foldlM_cons, List.foldlM_cons, answer, answer, h.bindings_eq hr hn hs]
      exact bind_congr fun t' => ih t' hnames
  rw [Network.allMatches_eq, Network.allMatches_eq, h.satisfiedNames_eq hr hn, hfold _ _ fun name hname => hname]

end

/-! ## Scores -/

/-- A node has as many flagged tokens in one run as in the other. -/
theorem flaggedIn_eq {id : NodeId} {x x' : Node} (hx : n.nodes[id]? = some x) (hx' : n'.nodes[id]? = some x') :
    n'.flaggedIn x' = n.flaggedIn x := by
  obtain ⟨y, hy, hclear⟩ := exists_of_bare h.bare hx
  obtain rfl := Option.some.inj (hx'.symm.trans hy)
  have hmemory : x'.isMemory = x.isMemory := by rw [← isMemory_clear, hclear, isMemory_clear]
  have hcount := h.countP_held id n.tokens.isFlagged n'.tokens.isFlagged fun t ht t' ht' he => h.isFlagged_eq ht ht' he
  rw [flaggedIn_eq_countP hx, flaggedIn_eq_countP hx', hmemory, hcount]

/-- The walks that count flagged tokens count the same. -/
theorem scoreUpTo_eq (k : Nat) (start : Option NodeId) : n'.scoreUpTo k start = n.scoreUpTo k start := by
  induction k generalizing start with
  | zero => cases start <;> rfl
  | succ k ih =>
    cases start with
    | none => rfl
    | some id =>
      cases hx : n.nodes[id]? with
      | none =>
        have hx' : n'.nodes[id]? = none := by
          rw [Array.getElem?_eq_none_iff, size_nodes_of_bare h.bare]
          exact Array.getElem?_eq_none_iff.1 hx
        simp only [scoreUpTo, node, hx, hx', Bind.bind, Except.bind]
      | some x =>
        obtain ⟨x', hx', -⟩ := exists_of_bare h.bare hx
        have hp := parentOf_of_bare h.bare id
        simp only [parentOf, hx, hx', Option.bind_some] at hp
        simp only [scoreUpTo, node, hx, hx', h.flaggedIn_eq hx hx', hp, ih, Bind.bind, Except.bind]

/-- The nodes have the same scores. -/
theorem score_eq {id : NodeId} {x : Node} (hx : n.nodes[id]? = some x) : n'.score id = n.score id := by
  obtain ⟨x', hx', -⟩ := exists_of_bare h.bare hx
  have hp := parentOf_of_bare h.bare id
  simp only [parentOf, hx, hx', Option.bind_some] at hp
  simp only [score, node, hx, hx', hp, size_nodes_of_bare h.bare, h.scoreUpTo_eq, Bind.bind, Except.bind]

/-- The rankings of the satisfied rules are the same. -/
theorem rankedRules_eq {rs : List Rule} (hr : n'.Registered rs) (hn : (rs.map (·.name)).Nodup) :
    n'.rankedRules = n.rankedRules := by
  obtain ⟨scores, hleft⟩ := exists_scores h.left.toTree h.left.toMarked
  have hright : ∀ e ∈ n'.satisfied.entries, n'.score e.2 = .ok (scores e.2) := by
    intro e he
    have he' := (h.perm_satisfied hr hn).mem_iff.1 he
    obtain ⟨p, hp, -⟩ := h.left.satisfied_some (Table.find?_eq_some_iff.2 he')
    rw [h.score_eq hp]
    exact hleft e he'
  rw [Network.rankedRules_eq hright, Network.rankedRules_eq hleft,
    Ordered.sort_eq_of_perm ((h.perm_satisfied hr hn).map _)]

/-! ## Counts -/

/-- There are as many tokens in one run as in the other. -/
theorem size_tokens : n'.tokens.size = n.tokens.size := by
  have hl := h.left.size_tokens
  have hr := h.right.size_tokens
  rw [size_nodes_of_bare h.bare] at hr
  simp only [← h.length_held] at hr
  omega

/-- There are as many facts in one run as in the other. -/
theorem size_facts : n'.facts.size = n.facts.size := by
  have hp := (List.perm_ext_iff_of_nodup h.left.facts_nodup h.right.facts_nodup).2 h.facts
  have hlen := hp.length_eq
  rw [Array.length_toList, Array.length_toList] at hlen
  exact hlen.symm

/-- The census is the same. -/
theorem census_eq {rs : List Rule} (hr : n'.Registered rs) (hn : (rs.map (·.name)).Nodup) : n'.census = n.census := by
  have hsharing : n'.sharing = n.sharing := congrArg (·.sharing) h.bare
  have hsatisfied : n'.satisfied.size = n.satisfied.size := (h.perm_satisfied hr hn).length_eq
  simp only [census, size_alpha_of_bare h.bare, h.size_tokens, h.size_facts, hsharing, hsatisfied,
    countP_of_bare h.bare Node.ofKind_isJoin, countP_of_bare h.bare Node.ofKind_isMemory,
    countP_of_bare h.bare Node.ofKind_isProduction]

end Alike

end Network

/-! ## Evaluations -/

namespace Engine

/-- An evaluation depends on the rules and the set of the facts only. Two engines with the same rules, under distinct names, answer
batches of the same facts with the same matches, whatever they evaluated before, and in whatever order and however often repeated the
facts come. Afterwards the satisfied rules, their scores, the most specific rule or the tie, and the counts are the same, and each
node holds the same tuples. -/
theorem evaluate_eq_of_mem_iff {e₁ e₂ : Engine} {rs : List Rule} (h₁ : e₁.Built rs) (h₂ : e₂.Built rs)
    (hn : (rs.map (·.name)).Nodup) {fs₁ fs₂ : List Fact} (hl₁ : fs₁.length ≤ e₁.settings.maxFacts)
    (hl₂ : fs₂.length ≤ e₂.settings.maxFacts) (hf : ∀ g, g ∈ fs₁ ↔ g ∈ fs₂) :
    ∃ m n₁ n₂, e₁.evaluate fs₁ = .ok (m, { e₁ with network := n₁ }) ∧ e₂.evaluate fs₂ = .ok (m, { e₂ with network := n₂ }) ∧
      n₁.satisfiedNames = n₂.satisfiedNames ∧ n₁.rankedRules = n₂.rankedRules ∧ n₁.mostSpecificRule = n₂.mostSpecificRule ∧
      n₁.census = n₂.census ∧
      ∀ id, n₁.matchOf '' {t | t ∈ n₁.held id} = n₂.matchOf '' {t | t ∈ n₂.held id} := by
  obtain ⟨m₁, n₁, he₁, hd₁, hb₁, hmem₁, hm₁⟩ := h₁.stands.evaluate_ok hl₁
  obtain ⟨m₂, n₂, he₂, hd₂, hb₂, hmem₂, hm₂⟩ := h₂.stands.evaluate_ok hl₂
  have hbare : e₁.network.bare = e₂.network.bare := Except.ok.inj (h₁.stands.rules.symm.trans h₂.stands.rules)
  have h : n₂.Alike n₁ := ⟨hd₂, hd₁, by rw [hb₁, hb₂, hbare], fun g => by rw [hmem₁, hmem₂, hf]⟩
  have hr : n₁.Registered rs := h₁.stands.registered.of_bare hb₁
  have hranked := h.rankedRules_eq hr hn
  obtain rfl : m₁ = m₂ := by
    rw [h.allMatches_eq hr hn, hm₂] at hm₁
    exact (Except.ok.inj hm₁).symm
  refine ⟨m₁, n₁, n₂, he₁, he₂, h.satisfiedNames_eq hr hn, hranked, ?_, h.census_eq hr hn, fun id => (h.image_matchOf id).symm⟩
  rw [Network.mostSpecificRule, Network.mostSpecificRule, hranked]

theorem evaluate_eq_of_mem_iff_tea : ∃ m n₁ n₂,
    (ofRules [.teaRule]).evaluate Fact.teaFacts = .ok (m, { ofRules [.teaRule] with network := n₁ }) ∧
    (ofRules [.teaRule]).evaluate Fact.teaFacts.reverse.dedup = .ok (m, { ofRules [.teaRule] with network := n₂ }) ∧
    n₁.satisfiedNames = n₂.satisfiedNames ∧ n₁.rankedRules = n₂.rankedRules ∧ n₁.census = n₂.census := by
  have hb := built_ofRules [.teaRule] rfl
  have hl₁ : Fact.teaFacts.length ≤ (ofRules [.teaRule]).settings.maxFacts := by decide
  have hl₂ : Fact.teaFacts.reverse.dedup.length ≤ (ofRules [.teaRule]).settings.maxFacts := by decide
  have hmem : ∀ g, g ∈ Fact.teaFacts ↔ g ∈ Fact.teaFacts.reverse.dedup := by
    intro g
    rw [List.mem_dedup, List.mem_reverse]
  obtain ⟨m, n₁, n₂, he₁, he₂, hn, hr, -, hc, -⟩ := evaluate_eq_of_mem_iff hb hb (List.nodup_singleton _) hl₁ hl₂ hmem
  exact ⟨m, n₁, n₂, he₁, he₂, hn, hr, hc⟩

end Engine

end TripleRules

import Mathlib.Data.Nat.Find
import TripleRules.Proofs.OrderIndependence
import TripleRules.Proofs.Soundness

/-!
# Names that several rules share

A rule may take its name over from an earlier one. The name then stands for the newest production, but the productions of the earlier
rules stay where they are and go on matching. What an evaluation says about the name goes by the matches: it is what the production
says that was given the last match under the name, whichever rule it is of. Only a name without a match is left to the newest one.
-/

namespace TripleRules

namespace Network

/-! ## Who answers for a name -/

/-- Whether a production of a name holds the last of the matches that productions of the name were given. -/
def LastMatched (n : Network) (name : String) (id : NodeId) : Prop :=
  (∃ p, n.nodes[id]? = some (.production p) ∧ p.rule = name) ∧
    ∃ t ∈ n.held id, ∀ (id' : NodeId) (p : ProductionNode), n.nodes[id']? = some (.production p) → p.rule = name →
      ∀ u ∈ n.held id', u ≤ t

/-- Whether no production of a name holds a match. -/
def Unmatched (n : Network) (name : String) : Prop :=
  ∀ (id : NodeId) (p : ProductionNode), n.nodes[id]? = some (.production p) → p.rule = name → n.held id = []

/-- Whether a production answers for a name: it was given the last match under the name, or there is none and it is the newest. -/
def Speaks (n : Network) (rs : List Rule) (name : String) (id : NodeId) : Prop :=
  n.LastMatched name id ∨ (n.Unmatched name ∧ n.Newest rs name id)

/-- The satisfied names lead to the productions that were given the last match. -/
theorem find?_satisfied_eq_some_iff {n : Network} (hm : n.Marked) (hp : n.Paired) {name : String} {id : NodeId} :
    n.satisfied.find? name = some id ↔ n.LastMatched name id := by
  constructor
  · intro hs
    obtain ⟨p, hpn, hname, -⟩ := hm.satisfied_some hs
    obtain ⟨t, ht, hmax⟩ := hm.satisfied_newest hs
    exact ⟨⟨p, hpn, hname⟩, t, ht, fun _ _ => hmax⟩
  · rintro ⟨⟨p, hpn, rfl⟩, t, ht, hmax⟩
    obtain ⟨id', hs⟩ := hm.satisfied_of hpn (List.ne_nil_of_mem ht)
    obtain ⟨q, hq, hname, -⟩ := hm.satisfied_some hs
    obtain ⟨t', ht', hmax'⟩ := hm.satisfied_newest hs
    obtain rfl : t = t' := Nat.le_antisymm (hmax' hpn rfl t ht) (hmax id' q hq hname t' ht')
    rw [hs, hp.owner_unique ht ht']

/-- A name has no entry exactly if no rule of that name is matched. -/
theorem find?_satisfied_eq_none_iff {n : Network} (hm : n.Marked) {name : String} :
    n.satisfied.find? name = none ↔ n.Unmatched name := by
  constructor
  · intro hs id p hp hname
    by_contra hne
    obtain ⟨id', hs'⟩ := hm.satisfied_of hp hne
    rw [hname, hs] at hs'
    nomatch hs'
  · intro hnone
    rw [Option.eq_none_iff_forall_ne_some]
    intro id hs
    obtain ⟨p, hp, hname, hne⟩ := hm.satisfied_some hs
    exact hne (hnone id p hp hname)

/-- The look-up that bindings are read through finds the production that answers for the name. -/
theorem find?_or_eq_some_iff {n : Network} (hm : n.Marked) (hp : n.Paired) {rs : List Rule} (hr : n.Registered rs) {name : String}
    {id : NodeId} : (n.satisfied.find? name).or (n.byName.find? name) = some id ↔ n.Speaks rs name id := by
  rw [Speaks, ← find?_satisfied_eq_some_iff hm hp, ← find?_satisfied_eq_none_iff hm, ← hr.named]
  cases n.satisfied.find? name <;> simp

/-- A name that a rule has stands for the newest of its rules. -/
theorem Registered.exists_newest {n : Network} {rs : List Rule} (h : n.Registered rs) {r : Rule} (hr : r ∈ rs) :
    ∃ id, n.Newest rs r.name id := by
  classical
  obtain ⟨k, hk⟩ := List.mem_iff_getElem?.1 hr
  let P : Nat → Prop := fun i => ∃ q, rs[i]? = some q ∧ q.name = r.name
  have hle : ∀ {i : Nat}, P i → i ≤ rs.length := fun ⟨_, hi, _⟩ => Nat.le_of_lt (List.getElem?_eq_some_iff.1 hi).1
  obtain ⟨i, ⟨q, hi, hname⟩, hmax⟩ : ∃ i, P i ∧ ∀ i', P i' → i' ≤ i :=
    ⟨_, Nat.findGreatest_spec (hle ⟨r, hk, rfl⟩) ⟨r, hk, rfl⟩, fun _ h' => Nat.le_findGreatest (hle h') h'⟩
  have hsize : i < n.productions.size := by
    rw [h.size]
    exact (List.getElem?_eq_some_iff.1 hi).1
  exact ⟨_, i, q, hi, hname, Array.getElem?_eq_getElem hsize, fun i' q' hi' hname' => hmax i' ⟨q', hi', hname'⟩⟩

/-! ## What a production answers -/

/-- The bindings of the least match of a production, if it holds a match. -/
def leastBindings (n : Network) (p : ProductionNode) : Option Bindings :=
  (n.leastToken? p.tokens.toList.reverse).map (n.bindingsOf p.select)

/-- Among tokens with the same matches the least match is the same. -/
theorem map_leastToken?_eq {n m : Network} {ts us : List TokenId}
    (hsame : m.matchOf '' {u | u ∈ us} = n.matchOf '' {t | t ∈ ts}) :
    (m.leastToken? us).map m.matchOf = (n.leastToken? ts).map n.matchOf := by
  have hto : ∀ t ∈ ts, ∃ u ∈ us, m.matchOf u = n.matchOf t := fun t ht => hsame.ge (Set.mem_image_of_mem n.matchOf ht)
  have hback : ∀ u ∈ us, ∃ t ∈ ts, n.matchOf t = m.matchOf u := fun u hu => hsame.le (Set.mem_image_of_mem m.matchOf hu)
  by_cases hnil : ts = []
  · have hnil' : us = [] := by
      refine List.eq_nil_iff_forall_not_mem.2 fun u hu => ?_
      obtain ⟨t, ht, -⟩ := hback u hu
      rw [hnil] at ht
      exact absurd ht List.not_mem_nil
    rw [hnil, hnil']
    rfl
  · obtain ⟨t₀, ht₀⟩ := List.exists_mem_of_ne_nil _ hnil
    obtain ⟨u₀, hu₀, -⟩ := hto t₀ ht₀
    obtain ⟨t, hfind, ht, hleast⟩ := n.exists_leastToken? hnil
    obtain ⟨u, hfind', hu, hleast'⟩ := m.exists_leastToken? (List.ne_nil_of_mem hu₀)
    -- both least matches are among the same tuples
    obtain ⟨u₁, hu₁, heu⟩ := hto t ht
    obtain ⟨t₁, ht₁, het⟩ := hback u hu
    have hle := hleast t₁ ht₁
    have hle' := hleast' u₁ hu₁
    rw [het] at hle
    rw [heu] at hle'
    rw [hfind, hfind', Option.map_some, Option.map_some,
      Std.LawfulEqOrd.eq_of_compare (Std.OrientedCmp.isLE_antisymm hle' hle)]

/-- The bindings of a production are read off its least match, after the conditions of its rule. -/
theorem leastBindings_eq_map {n : Network} (h : n.Sound) {id : NodeId} {p : ProductionNode}
    (hp : n.nodes[id]? = some (.production p)) {js : List JoinNode} {cs : List Condition} (hreach : n.Reaches id js cs) :
    n.leastBindings p =
      ((n.leastToken? (n.held id).reverse).map n.matchOf).map fun gs => bindingsFrom p.select (pairs cs gs) := by
  have hheld : n.held id = p.tokens.toList := held_eq hp
  rw [leastBindings, ← hheld, Option.map_map]
  by_cases hnil : (n.held id).reverse = []
  · rw [hnil]
    rfl
  · obtain ⟨t, hfind, ht, -⟩ := n.exists_leastToken? hnil
    rw [hfind, Option.map_some, Option.map_some, Function.comp_apply, bindingsOf_eq h hreach.path (List.mem_reverse.1 ht),
      List.reverse_reverse, hreach.conditions]

/-- Whether all that is said about a name after a batch is what one production says: the bindings, also those in the matches, whether
the name is satisfied, and its score. -/
structure AnswersFor (n : Network) (m : Matches) (name : String) (id : NodeId) (p : ProductionNode) : Prop where
  node : n.nodes[id]? = some (.production p)
  rule : p.rule = name
  bindings : n.bindings name = .ok (n.leastBindings p)
  entry : m.rules.find? name = n.leastBindings p
  satisfied : name ∈ n.satisfiedNames ↔ p.isSatisfied = true
  ranked : ∃ ranked, n.rankedRules = .ok ranked ∧
    ∀ s, ⟨name, s⟩ ∈ ranked ↔ p.isSatisfied = true ∧ n.score id = .ok s

/-- A production is satisfied exactly if it holds a token. -/
theorem isSatisfied_iff {n : Network} {id : NodeId} {p : ProductionNode} (hp : n.nodes[id]? = some (.production p)) :
    p.isSatisfied = true ↔ n.held id ≠ [] := by
  rw [held_eq hp, ProductionNode.isSatisfied, Node.held]
  simp

/-- A production that is not satisfied gives no bindings. -/
theorem leastBindings_of_not_isSatisfied (n : Network) {p : ProductionNode} (h : ¬p.isSatisfied = true) :
    n.leastBindings p = none := by
  have hnil : p.tokens = #[] := by simpa [ProductionNode.isSatisfied] using h
  rw [leastBindings, hnil]
  rfl

/-- The ranking lists the satisfied names with the scores of their productions. -/
theorem mem_rankedRules {n : Network} (ht : n.Tree) (hm : n.Marked) : ∃ ranked, n.rankedRules = .ok ranked ∧
    ∀ name s, ⟨name, s⟩ ∈ ranked ↔ ∃ id, n.satisfied.find? name = some id ∧ n.score id = .ok s := by
  obtain ⟨scores, hscores⟩ := exists_scores ht hm
  refine ⟨_, rankedRules_eq hscores, fun name s => ?_⟩
  rw [(Ordered.perm_sort _).mem_iff, List.mem_map]
  constructor
  · rintro ⟨e, he, heq⟩
    obtain ⟨rfl, rfl⟩ := RankedRule.mk.inj heq
    exact ⟨e.2, Table.find?_eq_some_iff.2 he, hscores e he⟩
  · rintro ⟨id, hs, hscore⟩
    have he := Table.find?_eq_some_iff.1 hs
    rw [hscores _ he] at hscore
    exact ⟨(name, id), he, by rw [Except.ok.inj hscore]⟩

/-- All that is said about a name is what the production says that answers for it. -/
theorem answersFor_of_find?_or {n : Network} (ht : n.Tree) (hm : n.Marked) {m : Matches} (hall : n.allMatches = .ok m)
    {name : String} {id : NodeId} {p : ProductionNode} (hp : n.nodes[id]? = some (.production p)) (hname : p.rule = name)
    (hid : (n.satisfied.find? name).or (n.byName.find? name) = some id) : n.AnswersFor m name id p := by
  have hprod : n.productionNode id = .ok p := by simp only [productionNode, node, hp]
  have hbind : n.bindings name = .ok (n.leastBindings p) := by
    simp only [Network.bindings, hid, hprod, Bind.bind, Except.bind]
    rfl
  obtain ⟨m', hm', hentry⟩ := allMatches_ok hm
  obtain rfl := Except.ok.inj (hall.symm.trans hm')
  obtain ⟨ranked, hranked, hscores⟩ := mem_rankedRules ht hm
  -- the name is satisfied exactly if the production that is found holds a match
  have hsat : ∀ id', n.satisfied.find? name = some id' ↔ id' = id ∧ p.isSatisfied = true := by
    intro id'
    rw [isSatisfied_iff hp]
    constructor
    · intro hs
      obtain ⟨-, -, -, hne⟩ := hm.satisfied_some hs
      rw [hs, Option.some_or] at hid
      obtain rfl := Option.some.inj hid
      exact ⟨rfl, hne⟩
    · rintro ⟨rfl, hne⟩
      obtain ⟨id', hs⟩ := hm.satisfied_of hp hne
      rw [hname] at hs
      rw [hs, Option.some_or] at hid
      rw [hs, hid]
  refine ⟨hp, hname, hbind, ?_, ?_, ranked, hranked, fun s => ?_⟩
  · refine Option.ext fun b => ?_
    rw [hentry, hbind]
    simp only [hsat, Except.ok.injEq]
    constructor
    · exact fun h => h.2
    · intro hb
      refine ⟨⟨id, rfl, ?_⟩, hb⟩
      by_contra hnot
      rw [n.leastBindings_of_not_isSatisfied hnot] at hb
      cases hb
  · rw [mem_satisfiedNames]
    simp only [hsat, exists_eq_left]
  · rw [hscores]
    simp only [hsat, and_assoc, exists_eq_left]

namespace Finished

variable {n : Network} (h : n.Finished) {rs : List Rule} (hr : n.Registered rs)
include h hr

/-- Some production answers for each name that a rule has. -/
theorem exists_speaks {r : Rule} (hmem : r ∈ rs) : ∃ id, n.Speaks rs r.name id := by
  obtain ⟨new, hnew⟩ := hr.exists_newest hmem
  cases hs : n.satisfied.find? r.name with
  | some id => exact ⟨id, Or.inl ((find?_satisfied_eq_some_iff h.toMarked h.toPaired).1 hs)⟩
  | none => exact ⟨new, Or.inr ⟨(find?_satisfied_eq_none_iff h.toMarked).1 hs, hnew⟩⟩

/-- For a name that a production speaks for, some production answers. -/
theorem exists_answersFor {m : Matches} (hall : n.allMatches = .ok m) {name : String} {id : NodeId} (hs : n.Speaks rs name id) :
    ∃ p, n.AnswersFor m name id p := by
  have hfind := (find?_or_eq_some_iff h.toMarked h.toPaired hr).2 hs
  rcases hs with ⟨⟨p, hp, hname⟩, -⟩ | ⟨-, i, r, hi, hname, hid, -⟩
  · exact ⟨p, answersFor_of_find?_or h.toTree h.toMarked hall hp hname hfind⟩
  · obtain ⟨p, -, hp, hrule, -⟩ := hr.production hid hi
    exact ⟨p, answersFor_of_find?_or h.toTree h.toMarked hall hp (hrule.trans hname) hfind⟩

/-- The newest production answers for its name if no other production of the name holds a match. -/
theorem speaks_newest {name : String} {new : NodeId} (hnew : n.Newest rs name new)
    (hothers : ∀ (id : NodeId) (p : ProductionNode), n.nodes[id]? = some (.production p) → p.rule = name → id ≠ new →
      n.held id = []) : n.Speaks rs name new := by
  rw [← find?_or_eq_some_iff h.toMarked h.toPaired hr]
  cases hs : n.satisfied.find? name with
  | none => exact hr.named.2 hnew
  | some id =>
    obtain ⟨p, hp, hrule, hne⟩ := h.satisfied_some hs
    by_cases hid : id = new
    · rw [hid, Option.some_or]
    · exact absurd (hothers id p hp hrule hid) hne

end Finished

end Network

/-! ## Evaluations -/

/-- Who knows somebody. -/
def Rule.knowsRule : Rule := ⟨"r", [.between "?x" (.resource "knows") "?y"], [], ["?x"]⟩

/-- Whom somebody likes, under the same name. -/
def Rule.likesRule : Rule := ⟨"r", [.between "?x" (.resource "likes") "?y"], [], ["?y"]⟩

/-- One who likes another. -/
def Fact.affection : Fact := ⟨.resource "alice", .resource "likes", .resource "bob"⟩

namespace Engine

/-- After a batch, a name that rules have stands for the production of the newest of them, but all that is said about the name is what
the production says that was given the last match under it; if there is no match, what the newest says. So it is what the newest says
if no other production of the name holds a match. -/
theorem answersFor_of_speaks {e : Engine} {rs : List Rule} (hb : e.Built rs) {fs : List Fact}
    (hlen : fs.length ≤ e.settings.maxFacts) :
    ∃ m n, e.evaluate fs = .ok (m, { e with network := n }) ∧ ∀ r ∈ rs, ∃ new,
      n.production? r.name = some new ∧ n.Newest rs r.name new ∧ (∃ id, n.Speaks rs r.name id) ∧
      (∀ id, n.Speaks rs r.name id → ∃ p, n.AnswersFor m r.name id p) ∧
      ((∀ (id : NodeId) (p : ProductionNode), n.nodes[id]? = some (.production p) → p.rule = r.name → id ≠ new → n.held id = []) →
        ∃ p, n.AnswersFor m r.name new p) := by
  obtain ⟨m, n, he, h, hbare, -, hall⟩ := hb.stands.evaluate_ok hlen
  have hreg := hb.stands.registered.of_bare hbare
  refine ⟨m, n, he, fun r hr => ?_⟩
  obtain ⟨new, hnew⟩ := hreg.exists_newest hr
  exact ⟨new, hreg.named.2 hnew, hnew, h.exists_speaks hreg hr, fun id hs => h.exists_answersFor hreg hall hs,
    fun hothers => h.exists_answersFor hreg hall (h.speaks_newest hreg hnew hothers)⟩

theorem answersFor_of_speaks_likes : ∃ m n new p,
    (ofRules [.knowsRule, .likesRule]).evaluate [.affection] = .ok (m, { ofRules [.knowsRule, .likesRule] with network := n }) ∧
    n.Newest [.knowsRule, .likesRule] "r" new ∧ n.AnswersFor m "r" new p := by
  have hlen : [Fact.affection].length ≤ (ofRules [.knowsRule, .likesRule]).settings.maxFacts := by decide
  obtain ⟨m, n, he, hnames⟩ := answersFor_of_speaks (built_ofRules [.knowsRule, .likesRule] rfl) hlen
  obtain ⟨new, hname, hnew, -, -, hothers⟩ := hnames .likesRule (by decide)
  have hnone : ((ofRules [.knowsRule, .likesRule]).evaluate [.affection]).toOption.all fun q =>
      (List.range q.2.network.nodes.size).all fun id =>
        q.2.network.production? "r" = some id || !(q.2.network.productionNode id).isOk || q.2.network.held id = [] := by
    decide +kernel
  rw [he] at hnone
  obtain ⟨p, hp⟩ := hothers fun id p hp _ hne => by
    have hid := List.all_eq_true.1 hnone id (List.mem_range.2 (Array.getElem?_eq_some_iff.1 hp).1)
    have hprod : n.productionNode id = .ok p := by simp only [Network.productionNode, Network.node, hp]
    have hsome : ¬n.production? "r" = some id := fun hs => hne (Option.some.inj (hs.symm.trans hname))
    simpa [hprod, hsome, Except.isOk, Except.toBool] using hid
  exact ⟨m, n, new, p, he, hnew, hp⟩

/-- The matches of a name that are not what the newest production of the name says. -/
theorem exists_not_answersFor {e : Engine} {rs : List Rule} (hb : e.Built rs) {fs : List Fact} {name : String}
    (hc : ((e.evaluate fs).toOption.any fun q => (q.2.network.production? name).any fun new =>
      (q.2.network.productionNode new).toOption.any fun p => q.1.rules.find? name != q.2.network.leastBindings p) = true) :
    ∃ m e' new, e.evaluate fs = .ok (m, e') ∧ e'.network.Newest rs name new ∧ ∀ p, ¬e'.network.AnswersFor m name new p := by
  obtain ⟨⟨m, e'⟩, he, hc⟩ := toOption_any_iff.1 hc
  obtain ⟨new, hnew, hc⟩ := (Option.any_eq_true _ _).1 hc
  obtain ⟨q, hq, hc⟩ := toOption_any_iff.1 hc
  refine ⟨m, e', new, he, (stands_evaluate hb.stands he).registered.named.1 hnew, fun p hp => ?_⟩
  have hprod : e'.network.productionNode new = .ok p := by simp only [Network.productionNode, Network.node, hp.node]
  obtain rfl := Except.ok.inj (hq.symm.trans hprod)
  simp [hp.entry] at hc

/-- A name is reported although the newest rule of the name has no match, because an older one has; and where both have matches, the
bindings are those of the rule that was given its match last. -/
theorem exists_newest_not_answersFor :
    (∃ m e' new, (ofRules [.knowsRule, .likesRule]).evaluate [.acquaintance] = .ok (m, e') ∧
      e'.network.Newest [.knowsRule, .likesRule] "r" new ∧ ∀ p, ¬e'.network.AnswersFor m "r" new p) ∧
    ∃ m e' new, (ofRules [.knowsRule, .likesRule]).evaluate [.affection, .acquaintance] = .ok (m, e') ∧
      e'.network.Newest [.knowsRule, .likesRule] "r" new ∧ ∀ p, ¬e'.network.AnswersFor m "r" new p :=
  ⟨exists_not_answersFor (built_ofRules _ rfl) (by decide +kernel), exists_not_answersFor (built_ofRules _ rfl) (by decide +kernel)⟩

end Engine

end TripleRules

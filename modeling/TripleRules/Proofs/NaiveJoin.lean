import TripleRules.Proofs.Lifetime
import TripleRules.Proofs.Tuples

/-!
# The network computes the naive join

A node that is reached through the joins of some conditions holds one token for each tuple of inserted facts that the joins let
through, and no other. This is so at the production of every rule and at a memory for each proper prefix of its conditions, for any
rules and any facts in any order.
-/

namespace TripleRules

/-- The hosts of a guest who drinks tea. -/
def Rule.teaRule : Rule :=
  ⟨"tea", [.between "?host" (.resource "invites") "?guest", .withConstant "?guest" (.resource "drinks") (.resource "tea")], [],
    ["?host"]⟩

/-- Two invitations, one of them twice, and what one of the guests drinks. -/
def Fact.teaFacts : List Fact :=
  [⟨.resource "ann", .resource "invites", .resource "bob"⟩, ⟨.resource "bob", .resource "drinks", .resource "tea"⟩,
    ⟨.resource "cat", .resource "invites", .resource "dan"⟩, ⟨.resource "ann", .resource "invites", .resource "bob"⟩]

/-- Whether facts are inserted is all that a join asks of their list. -/
theorem Joined.of_mem_iff {x : AlphaIndex} {fs fs' gs : List Fact} {js : List JoinNode} (h : Joined x fs js gs)
    (hf : ∀ g, g ∈ fs ↔ g ∈ fs') : Joined x fs' js gs :=
  { h with inserted := fun g hg => (hf g).1 (h.inserted g hg) }

namespace Network

/-- A node that is reached from the top node through joins for some conditions, the first one first. Each join reads the memory of
its condition's key and makes the tests of its condition after the ones before. -/
structure Reaches (n : Network) (id : NodeId) (js : List JoinNode) (cs : List Condition) : Prop where
  path : n.Path topNode id js.reverse
  conditions : js.map (·.condition) = cs
  alpha : ∀ j ∈ js, n.alpha.byKey.find? j.condition.key = some j.alpha
  tests : ∀ {i : Nat} {j : JoinNode}, js[i]? = some j → j.tests = j.condition.tests (cs.take i).reverse

/-- In a wired network each way down from the top node is one through joins for their conditions. -/
theorem Path.reaches {n : Network} (hw : n.Wired) {id : NodeId} {js : List JoinNode} (hp : n.Path topNode id js) :
    n.Reaches id js.reverse (js.reverse.map (·.condition)) := by
  refine ⟨by rw [List.reverse_reverse]; exact hp, rfl, ?_, ?_⟩
  · intro j hj
    obtain ⟨join, hjn⟩ := hp.exists_join (List.mem_reverse.1 hj)
    exact hw.join_alpha hjn
  · intro i j hj
    rw [← List.map_take, ← List.map_reverse]
    induction hp generalizing i with
    | here => nomatch hj
    | @down id up x k js hx hup hk hpath ih =>
      rw [List.reverse_cons, List.getElem?_append] at hj
      split at hj
      · rename_i hi
        rw [List.reverse_cons, List.take_append_of_le_length (Nat.le_of_lt hi)]
        exact ih hj
      · rename_i hi
        rw [List.getElem?_singleton] at hj
        split at hj
        · rename_i hi₀
          obtain rfl := Option.some.inj hj
          obtain ⟨js', hp', ht⟩ := hw.join_tests hk
          obtain rfl := hw.path_unique hpath hp'
          have hi' : i = js.reverse.length := by omega
          rw [ht, List.reverse_cons, hi', List.take_left, List.reverse_reverse]
        · nomatch hj

/-- Along the way to a production of a rule there is a memory for each proper prefix of its conditions. -/
theorem Reaches.exists_memory {n : Network} (hw : n.Wired) {id : NodeId} {js : List JoinNode} {cs : List Condition}
    (h : n.Reaches id js cs) {k : Nat} (hk : 0 < k) (hlt : k < cs.length) :
    ∃ (mid : NodeId) (m : MemoryNode), n.nodes[mid]? = some (.memory m) ∧ n.Reaches mid (js.take k) (cs.take k) := by
  have hlen : cs.length = js.length := by rw [← h.conditions, List.length_map]
  have hsplit : js.reverse = (js.drop k).reverse ++ (js.take k).reverse := by
    rw [← List.reverse_append, List.take_append_drop]
  have hp := h.path
  rw [hsplit] at hp
  have hne : (js.drop k).reverse ≠ [] ∧ (js.take k).reverse ≠ [] := by
    constructor <;> refine List.ne_nil_of_length_pos ?_
    · rw [List.length_reverse, List.length_drop]
      omega
    · rw [List.length_reverse, List.length_take]
      omega
  obtain ⟨mid, m, hm, -, hmid⟩ := hw.exists_memory_of_path hp hne.1 hne.2
  refine ⟨mid, m, hm, ?_⟩
  have hr := hmid.reaches hw
  rw [List.reverse_reverse, List.map_take, h.conditions] at hr
  exact hr

/-- The productions of the rules are reached through joins for their conditions. -/
theorem Registered.reaches {n : Network} (hw : n.Wired) {rs : List Rule} (hr : n.Registered rs) {i : Nat} {r : Rule}
    (hi : rs[i]? = some r) : ∃ (id : NodeId) (p : ProductionNode) (js : List JoinNode), n.productions[i]? = some id ∧
      n.nodes[id]? = some (.production p) ∧ p.rule = r.name ∧ n.Reaches id js r.conditions := by
  have hlt : i < n.productions.size := by
    rw [hr.size]
    exact (List.getElem?_eq_some_iff.1 hi).1
  obtain ⟨p, js, hp, hname, -, hpath, hjs⟩ := hr.production (Array.getElem?_eq_getElem hlt) hi
  have hreach := hpath.reaches hw
  rw [List.map_reverse, hjs, List.reverse_reverse] at hreach
  exact ⟨_, p, js.reverse, Array.getElem?_eq_getElem hlt, hp, hname, hreach⟩

/-- For any rules that a new network accepts and any facts inserted after them: a node that is reached through the joins of some
conditions holds each of its tokens once, and the facts on the chains of its tokens are, one to one, the tuples of inserted facts
that the joins let through. The production of every rule is reached through the joins of all its conditions, and for each proper
prefix of them there is a memory that is reached through the joins of the prefix. -/
theorem held_bijOn_joined {rs : List Rule} {n₀ : Network} (hr : empty.addRules rs = .ok n₀) (fs : List Fact) :
    ∃ n, n₀.addFacts fs = .ok n ∧
      (∀ id js cs, n.Reaches id js cs →
        (n.held id).Nodup ∧ Set.BijOn n.matchOf {t | t ∈ n.held id} {gs | Joined n.alpha fs js gs}) ∧
      ∀ (i : Nat) (r : Rule), rs[i]? = some r → ∃ (id : NodeId) (p : ProductionNode) (js : List JoinNode),
        n.productions[i]? = some id ∧ n.nodes[id]? = some (.production p) ∧ p.rule = r.name ∧ n.Reaches id js r.conditions ∧
        ∀ k, 0 < k → k < r.conditions.length →
          ∃ (mid : NodeId) (m : MemoryNode), n.nodes[mid]? = some (.memory m) ∧ n.Reaches mid (js.take k) (r.conditions.take k) := by
  obtain ⟨hw₀, hr₀⟩ := wired_addRules wired_empty registered_empty hr
  have hclean := clean_of_bare hw₀ (bare_of_addRules hr)
  obtain ⟨n, he, h, hb, hf⟩ := addFacts_ok (finished_of_clean hw₀ hclean) fs
  have hmem : ∀ g, g ∈ n.facts.toList ↔ g ∈ fs := by
    intro g
    rw [Array.mem_toList_iff, hf, hclean.facts]
    simp
  refine ⟨n, he, fun id js cs hreach => ⟨h.nodup id, ?_⟩, fun i r hi => ?_⟩
  · have hset : {gs | Joined n.alpha fs js gs} = {gs | Joined n.alpha n.facts.toList js.reverse.reverse gs} := by
      ext gs
      rw [List.reverse_reverse]
      exact ⟨fun hg => hg.of_mem_iff fun g => (hmem g).symm, fun hg => hg.of_mem_iff hmem⟩
    rw [hset]
    exact h.bijOn_matchOf hreach.path
  · obtain ⟨id, p, js, hid, hp, hname, hreach⟩ := (hr₀.of_bare hb).reaches h.toWired hi
    exact ⟨id, p, js, hid, hp, hname, hreach, fun k hk hlt => hreach.exists_memory h.toWired hk hlt⟩

theorem held_bijOn_joined_tea : ∃ n₀ n, empty.addRules [.teaRule] = .ok n₀ ∧ n₀.addFacts Fact.teaFacts = .ok n ∧
    ∃ id js, n.Reaches id js Rule.teaRule.conditions ∧
      (n.held id).Nodup ∧ Set.BijOn n.matchOf {t | t ∈ n.held id} {gs | Joined n.alpha Fact.teaFacts js gs} := by
  obtain ⟨n₀, h₀⟩ : ∃ n₀, empty.addRules [.teaRule] = .ok n₀ := ⟨_, rfl⟩
  obtain ⟨n, hn, hheld, hrules⟩ := held_bijOn_joined h₀ Fact.teaFacts
  obtain ⟨id, p, js, -, -, -, hreach, -⟩ := hrules 0 .teaRule rfl
  exact ⟨n₀, n, h₀, hn, id, js, hreach, hheld id js _ hreach⟩

end Network

end TripleRules

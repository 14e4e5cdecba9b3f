import Mathlib.Data.Set.Card
import TripleRules.Proofs.Batches
import TripleRules.Proofs.Requests
import TripleRules.Proofs.Trie

/-!
# The counts of a census

A condition asks for an alpha memory and for a join, and each one but the first of its rule for a memory. Every request is counted,
and as one of two things: what it asks for is created, or it is there already and is shared. So the counts of what was created are the
numbers of what there is, and with the counts of what was shared they add up to the conditions of the rules. The counts of the batch
are those of the tokens that the nodes store, of the distinct facts, and of the names that have a production with a match.
-/

namespace TripleRules

/-- The number of tokens that a node stores. -/
def Node.tokenCount (x : Node) : Nat := x.tokens?.elim 0 Array.size

/-- The number of conditions of some rules. -/
def conditionCount (rs : List Rule) : Nat := (rs.map fun r => r.conditions.length).sum

/-- A node keeps its kind when a child is attached. -/
theorem Node.kind_attach? {child : NodeId} {x y : Node} (h : x.attach? child = some y) : y.kind = x.kind := by
  cases x with
  | production p => nomatch h
  | top cs =>
    obtain rfl := Option.some.inj h
    rfl
  | join j =>
    obtain rfl := Option.some.inj h
    rfl
  | memory m =>
    obtain rfl := Option.some.inj h
    rfl

/-- A request shares a memory or creates one, and counts what it shares. -/
theorem AlphaIndex.counts_request (x : AlphaIndex) (p : Term) (o : Slot) (excluded : List Term) :
    ((x.request p o excluded).2.size = x.size ∧ (x.request p o excluded).2.shared = x.shared + 1) ∨
      ((x.request p o excluded).2.size = x.size + 1 ∧ (x.request p o excluded).2.shared = x.shared) := by
  rcases x.request_cases p o excluded with ⟨a, -, he⟩ | ⟨-, he⟩
  · rw [he]
    exact Or.inl ⟨Array.size_modify, rfl⟩
  · rw [he]
    exact Or.inr ⟨Array.size_push _, rfl⟩

namespace Network

/-! ## Counting nodes -/

/-- A graft adds one node to those of its kind. -/
theorem countP_graft {n n' : Network} {up : NodeId} {x : Node} (hg : n.graft up x = .ok n') {P : Node → Bool}
    (hP : Node.OfKind P) : n'.nodes.toList.countP P = n.nodes.toList.countP P + if P x then 1 else 0 := by
  obtain ⟨y, y', hy, ha, rfl⟩ := graft_eq_ok hg
  have hmap : ((n.nodes.push x).setIfInBounds up y').map P = (n.nodes.push x).map P := by
    refine Array.ext_getElem? fun k => ?_
    rw [Array.getElem?_map, Array.getElem?_map, Array.getElem?_setIfInBounds]
    split
    · rename_i hk
      subst hk
      rw [hy, if_pos (Array.getElem?_eq_some_iff.1 hy).1, Option.map_some, Option.map_some, hP _ _ (Node.kind_attach? ha)]
    · rfl
  rw [countP_of_map_eq hmap, Array.toList_push, List.countP_append, List.countP_singleton]

/-- A graft is one more join, memory or production, and does not count itself. -/
theorem counts_graft {n n' : Network} {up : NodeId} {x : Node} (hg : n.graft up x = .ok n') :
    n'.sharing = n.sharing ∧ n'.alpha = n.alpha ∧
      n'.nodes.toList.countP Node.isJoin = n.nodes.toList.countP Node.isJoin + (if x.isJoin then 1 else 0) ∧
      n'.nodes.toList.countP Node.isMemory = n.nodes.toList.countP Node.isMemory + (if x.isMemory then 1 else 0) ∧
      n'.nodes.toList.countP Node.isProduction = n.nodes.toList.countP Node.isProduction + (if x.isProduction then 1 else 0) := by
  have hcounts := And.intro (countP_graft hg Node.ofKind_isJoin)
    (And.intro (countP_graft hg Node.ofKind_isMemory) (countP_graft hg Node.ofKind_isProduction))
  obtain ⟨_, _, -, -, rfl⟩ := graft_eq_ok hg
  exact ⟨rfl, rfl, hcounts⟩

/-! ## Counting requests -/

/-- The counters of a network after some requests for alpha memories, for joins and for memories, and some productions. -/
structure Tallied (n : Network) (alphas joins memories productions : Nat) : Prop where
  alphaCreated : n.sharing.alphaCreated = n.alpha.size
  alphaShared : n.sharing.alphaShared = n.alpha.shared
  joinsCreated : n.sharing.joinsCreated = n.nodes.toList.countP Node.isJoin
  memoriesCreated : n.sharing.memoriesCreated = n.nodes.toList.countP Node.isMemory
  alphaRequests : n.sharing.alphaCreated + n.sharing.alphaShared = alphas
  joinRequests : n.sharing.joinsCreated + n.sharing.joinsShared = joins
  memoryRequests : n.sharing.memoriesCreated + n.sharing.memoriesShared = memories
  productions : n.nodes.toList.countP Node.isProduction = productions

/-- Without rules all counters are zero. -/
theorem tallied_empty : empty.Tallied 0 0 0 0 := by
  constructor <;> rfl

namespace Tallied

variable {n n' : Network} {a j m p : Nat} (h : n.Tallied a j m p)
include h

/-- Asking for an alpha memory counts one request for one. -/
theorem requestAlpha (s : Stage) : (n.requestAlpha s).2.Tallied (a + 1) j m p := by
  obtain ⟨hcreated, hshared, hjoins, hmemories, halphas, hjoinsAll, hmemoriesAll, hproductions⟩ := h
  rcases n.alpha.counts_request s.condition.predicate s.condition.object s.excluded with ⟨hsize, hmore⟩ | ⟨hsize, hsame⟩
  · have hle : ¬ n.alpha.size < (n.alpha.request s.condition.predicate s.condition.object s.excluded).2.size := by omega
    simp only [Network.requestAlpha, if_neg hle]
    constructor <;> simp only <;> first | assumption | omega
  · have hlt : n.alpha.size < (n.alpha.request s.condition.predicate s.condition.object s.excluded).2.size := by omega
    simp only [Network.requestAlpha, if_pos hlt]
    constructor <;> simp only <;> first | assumption | omega

/-- Asking for a join counts one request for one. -/
theorem requestJoin {up id : NodeId} {alpha : AlphaId} {s : Stage} (he : n.requestJoin up alpha s = .ok (id, n')) :
    n'.Tallied a (j + 1) m p := by
  obtain ⟨hcreated, hshared, hjoins, hmemories, halphas, hjoinsAll, hmemoriesAll, hproductions⟩ := h
  rcases requestJoin_cases he with rfl | ⟨-, n₁, hg, rfl⟩
  · constructor <;> simp only <;> first | assumption | omega
  · obtain ⟨hsharing, halpha, hJ, hM, hP⟩ := counts_graft hg
    simp only [Node.isJoin, Node.isMemory, Node.isProduction, if_true, Bool.false_eq_true, if_false] at hJ hM hP
    have hsize : (n₁.alpha.modify alpha (·.addSuccessor n.nodes.size)).size = n.alpha.size := by
      rw [halpha]
      exact Array.size_modify
    have hsame : (n₁.alpha.modify alpha (·.addSuccessor n.nodes.size)).shared = n.alpha.shared := by
      rw [halpha]
      rfl
    constructor <;> simp only [hsharing, hJ, hM, hP, hsize, hsame] <;> omega

/-- Asking for a memory counts one request for one. -/
theorem requestMemory {join id : NodeId} (he : n.requestMemory join = .ok (id, n')) : n'.Tallied a j (m + 1) p := by
  obtain ⟨hcreated, hshared, hjoins, hmemories, halphas, hjoinsAll, hmemoriesAll, hproductions⟩ := h
  rcases requestMemory_cases he with rfl | ⟨-, n₁, hg, rfl⟩
  · constructor <;> simp only <;> first | assumption | omega
  · obtain ⟨hsharing, halpha, hJ, hM, hP⟩ := counts_graft hg
    simp only [Node.isJoin, Node.isMemory, Node.isProduction, if_true, Bool.false_eq_true, if_false] at hJ hM hP
    constructor <;> simp only [hsharing, halpha, hJ, hM, hP] <;> omega

/-- A production that is added is counted. -/
theorem addProduction {join id : NodeId} {r : Rule} (he : n.addProduction join r = .ok (id, n')) : n'.Tallied a j m (p + 1) := by
  obtain ⟨hcreated, hshared, hjoins, hmemories, halphas, hjoinsAll, hmemoriesAll, hproductions⟩ := h
  rw [addProduction_eq] at he
  obtain ⟨n₁, hg, he⟩ := map_eq_ok_iff.1 he
  obtain ⟨-, rfl⟩ := Prod.mk.inj he
  obtain ⟨hsharing, halpha, hJ, hM, hP⟩ := counts_graft hg
  simp only [Node.isJoin, Node.isMemory, Node.isProduction, if_true, Bool.false_eq_true, if_false] at hJ hM hP
  constructor <;> simp only [register, hsharing, halpha, hJ, hM, hP] <;> omega

/-- A stage asks for an alpha memory and a join. -/
theorem addStage {up id : NodeId} {s : Stage} (he : n.addStage up s = .ok (id, n')) : n'.Tallied (a + 1) (j + 1) m p :=
  (h.requestAlpha s).requestJoin he

/-- Each further stage asks for an alpha memory, a join and a memory. -/
theorem addStages {join id : NodeId} {ss : List Stage} (he : n.addStages join ss = .ok (id, n')) :
    n'.Tallied (a + ss.length) (j + ss.length) (m + ss.length) p := by
  induction ss generalizing n join a j m with
  | nil =>
    obtain ⟨-, rfl⟩ := Prod.mk.inj (Except.ok.inj he)
    exact h
  | cons s ss ih =>
    obtain ⟨⟨memory, n₁⟩, hm, he⟩ := bind_eq_ok_iff.1 he
    obtain ⟨⟨next, n₂⟩, hs, he⟩ := bind_eq_ok_iff.1 he
    have h₂ := ih ((h.requestMemory hm).addStage hs) he
    rw [List.length_cons]
    convert h₂ using 1 <;> omega

end Tallied

/-- A rule asks for an alpha memory and a join for each of its conditions, for a memory for each but the first, and for a
production. -/
theorem Tallied.addRule {n n' : Network} {rs : List Rule} {m : Nat} (hm : m + rs.length = conditionCount rs)
    (h : n.Tallied (conditionCount rs) (conditionCount rs) m rs.length) {r : Rule} {id : NodeId} (he : n.addRule r = .ok (id, n')) :
    ∃ m', m' + (rs ++ [r]).length = conditionCount (rs ++ [r]) ∧
      n'.Tallied (conditionCount (rs ++ [r])) (conditionCount (rs ++ [r])) m' (rs ++ [r]).length := by
  obtain ⟨-, s, ss, join, n₁, last, n₂, hstages, hs, hss, hp⟩ := addRule_eq_ok he
  have hlength := congrArg List.length r.map_request_stages
  have hcount : conditionCount (rs ++ [r]) = conditionCount rs + 1 + ss.length := by
    simp only [hstages, Rule.requests, List.length_map, List.length_cons] at hlength
    simp only [conditionCount, List.map_append, List.map_cons, List.map_nil, List.sum_append, List.sum_singleton]
    omega
  refine ⟨m + ss.length, by rw [List.length_append, List.length_singleton, hcount]; omega, ?_⟩
  rw [List.length_append, List.length_singleton, hcount]
  exact ((h.addStage hs).addStages hss).addProduction hp

/-- The counters of compiled rules add up to their conditions. -/
theorem tallied_addRules {n : Network} {rs : List Rule} (ha : empty.addRules rs = .ok n) :
    ∃ m, m + rs.length = conditionCount rs ∧ n.Tallied (conditionCount rs) (conditionCount rs) m rs.length := by
  refine addRules_induction (P := fun n rs => ∃ m, m + rs.length = conditionCount rs ∧
    n.Tallied (conditionCount rs) (conditionCount rs) m rs.length) ⟨0, rfl, tallied_empty⟩ ?_ ha
  rintro n n' rs r new - - ⟨m, hm, h⟩ he
  exact h.addRule hm he

/-- The counters and what they count do not depend on the batch. -/
theorem Tallied.of_bare {n n' : Network} (hb : n'.bare = n.bare) {a j m p : Nat} (h : n.Tallied a j m p) : n'.Tallied a j m p := by
  have hsharing : n'.sharing = n.sharing := congrArg (·.sharing) hb
  have hshared : n'.alpha.shared = n.alpha.shared := congrArg (·.alpha.shared) hb
  exact {
    alphaCreated := by rw [hsharing, size_alpha_of_bare hb, h.alphaCreated]
    alphaShared := by rw [hsharing, hshared, h.alphaShared]
    joinsCreated := by rw [hsharing, countP_of_bare hb Node.ofKind_isJoin, h.joinsCreated]
    memoriesCreated := by rw [hsharing, countP_of_bare hb Node.ofKind_isMemory, h.memoriesCreated]
    alphaRequests := by rw [hsharing, h.alphaRequests]
    joinRequests := by rw [hsharing, h.joinRequests]
    memoryRequests := by rw [hsharing, h.memoryRequests]
    productions := by rw [countP_of_bare hb Node.ofKind_isProduction, h.productions] }

/-! ## Counting the batch -/

/-- Every token but the root is stored in one node, once. -/
theorem tokens_eq_sum {n : Network} (h : n.Paired) (ht : n.Tree) : n.tokens.size = (n.nodes.toList.map Node.tokenCount).sum := by
  have hheld : (List.range n.nodes.size).map (fun id => (n.held id).length) = n.nodes.toList.map fun x => x.held.length := by
    refine List.ext_getElem (by simp) fun id h₁ h₂ => ?_
    have hid : id < n.nodes.size := by simpa using h₁
    simp [held_eq (Array.getElem?_eq_getElem hid)]
  have hsize := h.size_tokens
  rw [hheld] at hsize
  obtain ⟨cs, htop⟩ := ht.top
  obtain ⟨x, rest, hnodes⟩ : ∃ x rest, n.nodes.toList = x :: rest := by
    refine List.exists_cons_of_ne_nil fun hnil => ?_
    rw [← Array.getElem?_toList, hnil] at htop
    nomatch htop
  obtain rfl : x = .top cs := by
    rw [← Array.getElem?_toList, hnodes] at htop
    exact Option.some.inj htop
  -- below the top node what a node holds is what it stores
  have hrest : rest.map (fun x => x.held.length) = rest.map Node.tokenCount := by
    refine List.map_congr_left fun y hy => ?_
    cases y with
    | top ds =>
      obtain ⟨k, hk⟩ := List.mem_iff_getElem?.1 hy
      have hget : n.nodes[k + 1]? = some (.top ds) := by
        rw [← Array.getElem?_toList, hnodes, List.getElem?_cons_succ, hk]
      nomatch ht.top_only hget
    | join j => rfl
    | memory m => rfl
    | production p => rfl
  rw [hnodes, List.map_cons, List.sum_cons, hrest] at hsize
  rw [hnodes, List.map_cons, List.sum_cons]
  simp only [Node.held, Node.tokenCount, Node.tokens?, List.length_singleton, Option.elim] at hsize ⊢
  omega

/-- The facts of a batch are counted without repetitions. -/
theorem Batch.size_facts {n : Network} {fs : List Fact} (h : n.Batch fs) : n.facts.size = fs.dedup.length := by
  have hperm : n.facts.toList.Perm fs.dedup :=
    (List.perm_ext_iff_of_nodup h.1 fs.nodup_dedup).2 fun f => by rw [List.mem_dedup, ← h.2 f, Array.mem_toList_iff]
  rw [← Array.length_toList, hperm.length_eq]

/-- The names are counted that have a production with a token. -/
theorem Marked.size_satisfied {n : Network} (h : n.Marked) :
    n.satisfied.size = {name | ∃ id p, n.nodes[id]? = some (.production p) ∧ p.rule = name ∧ n.held id ≠ []}.ncard := by
  have hset : {name | ∃ id p, n.nodes[id]? = some (.production p) ∧ p.rule = name ∧ n.held id ≠ []} =
      (n.satisfied.names.toFinset : Set String) := by
    ext name
    rw [Set.mem_ofPred_eq, List.coe_toFinset, Set.mem_ofPred_eq, Table.mem_names_iff]
    constructor
    · rintro ⟨id, p, hp, rfl, hne⟩
      exact h.satisfied_of hp hne
    · rintro ⟨id, hs⟩
      obtain ⟨p, hp, hname, hne⟩ := h.satisfied_some hs
      exact ⟨id, p, hp, hname, hne⟩
  have hnodup : n.satisfied.names.Nodup := n.satisfied.nodup_names
  rw [hset, Set.ncard_coe_finset, List.toFinset_card_of_nodup hnodup, Table.names, List.length_map, Table.size]

/-! ## All counts -/

/-- What a census says of a network that has accepted some rules and whose batch has some facts. -/
structure Balanced (n : Network) (rs : List Rule) (fs : List Fact) : Prop where
  /-- What was created is what there is. -/
  alphas : n.census.sharing.alphaCreated = n.census.alphas
  joins : n.census.sharing.joinsCreated = n.census.joins
  memories : n.census.sharing.memoriesCreated = n.census.memories
  /-- What was created and what was shared is what was asked for. -/
  alphaRequests : n.sharing.alphaCreated + n.sharing.alphaShared = conditionCount rs
  joinRequests : n.sharing.joinsCreated + n.sharing.joinsShared = conditionCount rs
  memoryRequests : n.sharing.memoriesCreated + n.sharing.memoriesShared + rs.length = conditionCount rs
  requests : n.sharing.requests + rs.length = 3 * conditionCount rs
  shared : n.alpha.shared = n.sharing.alphaShared
  productions : n.census.productions = rs.length
  rules : n.ruleCount = rs.length
  tokens : n.census.tokens = (n.nodes.toList.map Node.tokenCount).sum
  facts : n.census.facts = fs.dedup.length
  satisfied : n.census.satisfied =
    {name | ∃ id p, n.nodes[id]? = some (.production p) ∧ p.rule = name ∧ n.held id ≠ []}.ncard

/-- The counts are kept in step. After any calls, some of them rules that are refused: there are as many alpha memories, joins and
memories as were created; with those that were shared they are as many as the conditions, the memories together with the rules; the
index has counted the same shares; there is a production for each rule; and the counts of the batch are those of the tokens in all
nodes, of the distinct facts that were inserted since the last reset, and of the names that have a production with a token. -/
theorem balanced_of_calls (cs : List Call) : ∃ n rs, calls cs = .ok (n, rs) ∧ n.Balanced rs (inserted cs) := by
  obtain ⟨n, rs, he, h⟩ := calls_ok cs
  refine ⟨n, rs, he, ?_⟩
  obtain ⟨m, hm, ht⟩ := tallied_addRules h.rules
  obtain ⟨hcreated, hshared, hjoins, hmemories, halphas, hjoinsAll, hmemoriesAll, hproductions⟩ := ht.of_bare n.bare_bare.symm
  exact {
    alphas := hcreated
    joins := hjoins
    memories := hmemories
    alphaRequests := halphas
    joinRequests := hjoinsAll
    memoryRequests := by rw [hmemoriesAll, hm]
    requests := by
      rw [Sharing.requests]
      omega
    shared := hshared.symm
    productions := hproductions
    rules := (registered_of_addRules h.rules).size
    tokens := tokens_eq_sum h.toPaired h.toTree
    facts := (batch_of_calls he).size_facts
    satisfied := h.toMarked.size_satisfied }

end Network

end TripleRules

import TripleRules.Proofs.Histories
import TripleRules.Proofs.Trie

/-!
# The nodes are a prefix trie

The joins of a network are the prefixes of the condition lists of its rules, each of them once: a join is where the rules that start
with the same conditions go the same way. So two rules share the joins of their longest common prefix and no others, in whatever
order they were compiled and whatever else the rules between them were.
-/

namespace TripleRules

/-- The longest list that two lists both start with. -/
def commonPrefix {α : Type} [DecidableEq α] : List α → List α → List α
  | x :: xs, y :: ys => if x = y then x :: commonPrefix xs ys else []
  | _, _ => []

/-- Two lists both start with the lists that their longest common prefix starts with. -/
theorem prefix_commonPrefix_iff {α : Type} [DecidableEq α] {zs xs ys : List α} :
    zs <+: commonPrefix xs ys ↔ zs <+: xs ∧ zs <+: ys := by
  induction xs generalizing ys zs with
  | nil => simp +contextual [commonPrefix]
  | cons x xs ih =>
    cases ys with
    | nil => simp +contextual [commonPrefix]
    | cons y ys =>
      cases zs with
      | nil => simp
      | cons z zs =>
        unfold commonPrefix
        split
        · rename_i hxy
          subst hxy
          simp only [List.cons_prefix_cons, ih]
          exact and_and_left
        · rename_i hxy
          simp only [List.prefix_nil, List.cons_prefix_cons, reduceCtorEq, false_iff]
          rintro ⟨⟨rfl, -⟩, rfl, -⟩
          exact hxy rfl

example : commonPrefix [1, 2, 3, 5] [1, 2, 4, 5] = [1, 2] := by decide

/-- Some rule starts with the conditions, which are listed in order. -/
theorem starts_reverse_iff {rs : List Rule} {cs : List Condition} :
    Starts rs cs.reverse ↔ ∃ r ∈ rs, cs <+: r.conditions := by
  simp only [Starts, List.reverse_suffix]

namespace Network

/-- A join to which the joins with some conditions lead, in order: the last of them. -/
def JoinFor (n : Network) (join : NodeId) (cs : List Condition) : Prop := n.JoinOf join cs.reverse

theorem JoinOf.joinFor {n : Network} {join : NodeId} {cs : List Condition} (h : n.JoinOf join cs) : n.JoinFor join cs.reverse := by
  rw [JoinFor, List.reverse_reverse]
  exact h

/-- Whether a node is above another one: its parent, or above its parent. -/
inductive Above (n : Network) (up : NodeId) : NodeId → Prop where
  | parent {id : NodeId} : n.parentOf id = some up → Above n up id
  | step {id mid : NodeId} : n.parentOf id = some mid → Above n up mid → Above n up id

/-- The nodes of a network are the prefix trie of the conditions of some rules. -/
structure PrefixTrie (n : Network) (rs : List Rule) : Prop where
  /-- Each join is the join of one list of conditions, with which some rule starts. -/
  prefix_of_join : ∀ {id : NodeId} {j : JoinNode}, n.nodes[id]? = some (.join j) →
    ∃ cs, cs ≠ [] ∧ (∃ r ∈ rs, cs <+: r.conditions) ∧ ∀ ds, n.JoinFor id ds ↔ ds = cs
  /-- Each list of conditions with which some rule starts has one join. -/
  join_of_prefix : ∀ {r : Rule} {cs : List Condition}, r ∈ rs → cs <+: r.conditions → cs ≠ [] →
    ∃ id, ∀ id', n.JoinFor id' cs ↔ id' = id
  /-- The join of a prefix stands for its last condition, reads the memory of the key of that condition, makes its tests after the
  conditions before it, and hangs below the memory of their join. -/
  label : ∀ {id : NodeId} {cs : List Condition} {c : Condition}, n.JoinFor id (cs ++ [c]) →
    ∃ j, n.nodes[id]? = some (.join j) ∧ j.condition = c ∧ n.alpha.byKey.find? c.key = some j.alpha ∧
      j.tests = c.tests cs.reverse ∧
      (cs = [] ∧ j.parent = topNode ∨ ∃ m, n.nodes[j.parent]? = some (.memory m) ∧ n.JoinFor m.parent cs)
  /-- A join has one memory below it if some rule goes on after its prefix, and none otherwise. -/
  memories : ∀ {id : NodeId} {j : JoinNode} {cs : List Condition}, n.nodes[id]? = some (.join j) → n.JoinFor id cs →
    j.children.countP (fun k => (n.nodes[k]?).any Node.isMemory) =
      if ∃ r ∈ rs, cs <+: r.conditions ∧ cs ≠ r.conditions then 1 else 0
  /-- Each rule has its production, below the join of all its conditions. -/
  production : ∀ {i : Nat} {r : Rule}, rs[i]? = some r → ∃ (id : NodeId) (p : ProductionNode), n.productions[i]? = some id ∧
    n.nodes[id]? = some (.production p) ∧ p.rule = r.name ∧ p.select = r.select ∧ n.JoinFor p.parent r.conditions
  /-- Each production is that of one rule. -/
  rule : ∀ {id : NodeId} {p : ProductionNode}, n.nodes[id]? = some (.production p) →
    ∃ i, i < rs.length ∧ ∀ k : Nat, n.productions[k]? = some id ↔ k = i
  /-- Each node but the top node is listed once, among the children of its parent, which is older. -/
  listed : ∀ {id : NodeId} {x : Node}, n.nodes[id]? = some x → id ≠ topNode → ∃ up, x.parent? = some up ∧ up < id ∧
    ∀ {k : NodeId} {y : Node}, n.nodes[k]? = some y → y.children.count id = if k = up then 1 else 0
  /-- The joins above the productions of two rules are those of the prefixes that the rules have in common. -/
  shared : ∀ {i k : Nat} {r q : Rule} {a b : NodeId}, rs[i]? = some r → rs[k]? = some q → n.productions[i]? = some a →
    n.productions[k]? = some b → ∀ id : NodeId,
      (∃ j, n.nodes[id]? = some (.join j)) ∧ n.Above id a ∧ n.Above id b ↔
        ∃ cs, cs ≠ [] ∧ cs <+: commonPrefix r.conditions q.conditions ∧ n.JoinFor id cs

/-! ## Joins and what is above a node -/

namespace Tree

variable {n : Network} (h : n.Tree)
include h

/-- Nothing is above the top node. -/
theorem not_above_top (id : NodeId) : ¬ n.Above id topNode := by
  have hnone : n.parentOf topNode = none := by
    obtain ⟨cs, hcs⟩ := h.top
    rw [parentOf, hcs]
    rfl
  intro ha
  cases ha with
  | parent hp => rw [hnone] at hp; cases hp
  | step hp _ => rw [hnone] at hp; cases hp

/-- A join above a node is the join of some of the conditions on the way down. -/
theorem joinOf_of_above {join id : NodeId} {j : JoinNode} {js : List JoinNode} (hj : n.nodes[join]? = some (.join j))
    (ha : n.Above join id) (hp : n.Path topNode id js) : ∃ cs, cs <:+ js.map (·.condition) ∧ n.JoinOf join cs := by
  induction hp with
  | here => exact absurd ha (h.not_above_top join)
  | @down id up x k ks hx hxp hk hpath ih =>
    have hup : n.parentOf id = some up := parentOf_eq_some.2 ⟨x, hx, hxp⟩
    have hkp : n.parentOf up = some k.parent := parentOf_eq_some.2 ⟨_, hk, rfl⟩
    have hthis : n.JoinOf up (k.condition :: ks.map (·.condition)) := ⟨k, ks, hk, hpath, rfl⟩
    cases ha with
    | parent hj' =>
      obtain rfl := Option.some.inj (hup.symm.trans hj')
      exact ⟨_, List.suffix_refl _, hthis⟩
    | step hmid ha =>
      obtain rfl := Option.some.inj (hup.symm.trans hmid)
      cases ha with
      | parent hj' =>
        -- the parent of a join is no join
        obtain rfl := Option.some.inj (hkp.symm.trans hj')
        rcases h.join_parent hk with ⟨cs, htop⟩ | ⟨m, hm⟩
        · rw [hj] at htop; nomatch htop
        · rw [hj] at hm; nomatch hm
      | step hmid' ha =>
        obtain rfl := Option.some.inj (hkp.symm.trans hmid')
        obtain ⟨cs, hcs, hjoin⟩ := ih ha
        exact ⟨cs, hcs.trans (List.suffix_cons _ _), hjoin⟩

/-- The join of some of the conditions on the way down is above the node. -/
theorem above_of_joinOf {rs : List Rule} (ht : n.TrieOf rs) {join id : NodeId} {js : List JoinNode} {cs : List Condition}
    (hp : n.Path topNode id js) (hcs : cs <:+ js.map (·.condition)) (hj : n.JoinOf join cs) : n.Above join id := by
  induction hp with
  | here =>
    obtain rfl := List.suffix_nil.1 hcs
    obtain ⟨_, _, -, -, he⟩ := hj
    nomatch he
  | @down id up x k ks hx hxp hk hpath ih =>
    have hup : n.parentOf id = some up := parentOf_eq_some.2 ⟨x, hx, hxp⟩
    rcases List.suffix_cons_iff.1 hcs with rfl | hcs
    · rw [ht.join_unique h hj ⟨k, ks, hk, hpath, rfl⟩]
      exact .parent hup
    · exact .step hup (.step (parentOf_eq_some.2 ⟨_, hk, rfl⟩) (ih hcs))

end Tree

/-! ## The trie -/

/-- Some rule goes on after the conditions if it starts with them and has more. -/
theorem exists_starts_cons_iff {rs : List Rule} {cs : List Condition} :
    (∃ c, Starts rs (c :: cs.reverse)) ↔ ∃ r ∈ rs, cs <+: r.conditions ∧ cs ≠ r.conditions := by
  constructor
  · rintro ⟨c, hc⟩
    rw [← List.reverse_concat, starts_reverse_iff] at hc
    obtain ⟨r, hr, hpre⟩ := hc
    refine ⟨r, hr, (List.prefix_append cs [c]).trans hpre, ?_⟩
    rintro rfl
    have hle := hpre.length_le
    rw [List.length_append, List.length_singleton] at hle
    exact Nat.not_succ_le_self _ hle
  · rintro ⟨r, hr, ⟨ds, hds⟩, hne⟩
    cases ds with
    | nil => exact absurd (by rw [← hds, List.append_nil]) hne
    | cons d ds =>
      refine ⟨d, ?_⟩
      rw [← List.reverse_concat, starts_reverse_iff]
      exact ⟨r, hr, ds, by rw [← hds, List.append_assoc]; rfl⟩

/-- Every rule has a production, with the conditions of the rule on the way down to it. -/
theorem Registered.exists_way {n : Network} {rs : List Rule} (h : n.Registered rs) {r : Rule} (hr : r ∈ rs) :
    ∃ (id : NodeId) (js : List JoinNode), n.Path topNode id js ∧ js.map (·.condition) = r.conditions.reverse := by
  obtain ⟨i, hi⟩ := List.mem_iff_getElem?.1 hr
  have hlt : i < n.productions.size := by
    rw [h.size]
    exact (List.getElem?_eq_some_iff.1 hi).1
  obtain ⟨p, js, -, -, -, hpath, hjs⟩ := h.production (Array.getElem?_eq_getElem hlt) hi
  exact ⟨_, js, hpath, hjs⟩

section

variable {n : Network} {rs : List Rule} (h : n.Tree) (hr : n.Registered rs) (ht : n.TrieOf rs)
include h hr ht

/-- A join has a memory below it if some rule goes on. -/
theorem exists_memory_iff {id : NodeId} {cs : List Condition} (hc : n.JoinFor id cs) :
    (∃ (mid : NodeId) (m : MemoryNode), n.nodes[mid]? = some (.memory m) ∧ m.parent = id) ↔
      ∃ r ∈ rs, cs <+: r.conditions ∧ cs ≠ r.conditions := by
  constructor
  · rintro ⟨mid, m, hm, rfl⟩
    exact exists_starts_cons_iff.1 (ht.memory_starts hm hc)
  · rintro ⟨r, hmem, hpre, hne⟩
    obtain ⟨last, js, hpath, hjs⟩ := hr.exists_way hmem
    have hnil : cs.reverse ≠ [] := by
      obtain ⟨j, ks, -, -, he⟩ := hc
      rw [← he]
      exact List.cons_ne_nil _ _
    have hlt : cs.reverse.length < js.length := by
      have hlen := congrArg List.length hjs
      rw [List.length_map, List.length_reverse] at hlen
      rw [List.length_reverse, hlen]
      exact Nat.lt_of_le_of_ne hpre.length_le fun he => hne (hpre.eq_of_length he)
    obtain ⟨mid, m, hm, hj⟩ :=
      h.exists_memory_of_suffix hpath (by rw [hjs, List.reverse_suffix]; exact hpre) hnil hlt
    exact ⟨mid, m, hm, ht.join_unique h hj hc⟩

/-- A join has one memory below it if some rule goes on, and none otherwise. -/
theorem countP_memories {id : NodeId} {j : JoinNode} {cs : List Condition} (hj : n.nodes[id]? = some (.join j))
    (hc : n.JoinFor id cs) : j.children.countP (fun k => (n.nodes[k]?).any Node.isMemory) =
      if ∃ r ∈ rs, cs <+: r.conditions ∧ cs ≠ r.conditions then 1 else 0 := by
  -- the children that the count counts
  have hchild : ∀ {k : NodeId}, k ∈ j.children → (n.nodes[k]?).any Node.isMemory = true →
      ∃ m, n.nodes[k]? = some (.memory m) ∧ m.parent = id := by
    intro k hk hm
    obtain ⟨x, hx, hp⟩ := (h.child_iff hj k).1 hk
    rw [hx] at hm
    cases x with
    | memory m => exact ⟨m, hx, Option.some.inj hp⟩
    | top ds => nomatch hm
    | join l => nomatch hm
    | production p => nomatch hm
  split
  · rename_i hgoes
    obtain ⟨mid, m, hm, hp⟩ := (exists_memory_iff h hr ht hc).2 hgoes
    have hmid : mid ∈ j.children := (h.child_iff hj mid).2 ⟨_, hm, congrArg some hp⟩
    rw [← List.count_eq_one_of_mem (ht.listed_once hj) hmid, List.count]
    refine List.countP_congr fun k hk => ?_
    rw [beq_iff_eq]
    constructor
    · intro hkm
      obtain ⟨m', hm', hp'⟩ := hchild hk hkm
      exact ht.alone hm' hm (congrArg some (hp'.trans hp.symm)) trivial
    · rintro rfl
      rw [hm]
      rfl
  · rename_i hgoes
    refine List.countP_eq_zero.2 fun k hk hkm => hgoes ?_
    obtain ⟨m, hm, hp⟩ := hchild hk hkm
    exact (exists_memory_iff h hr ht hc).1 ⟨k, m, hm, hp⟩

/-- Each list of conditions with which some rule starts has one join. -/
theorem exists_join_of_prefix {r : Rule} {cs : List Condition} (hmem : r ∈ rs) (hpre : cs <+: r.conditions) (hne : cs ≠ []) :
    ∃ id, ∀ id', n.JoinFor id' cs ↔ id' = id := by
  obtain ⟨last, js, hpath, hjs⟩ := hr.exists_way hmem
  have hsuffix : cs.reverse <:+ js.map (·.condition) := by
    rw [hjs, List.reverse_suffix]
    exact hpre
  obtain ⟨join, hjoin⟩ := hpath.exists_joinOf hsuffix (List.reverse_ne_nil_iff.2 hne)
  refine ⟨join, fun id' => ⟨fun hid => ht.join_unique h hid hjoin, ?_⟩⟩
  rintro rfl
  exact hjoin

/-- The joins above the productions of two rules are those of the prefixes that the rules have in common. -/
theorem shared_joins_iff {i k : Nat} {r q : Rule} {a b : NodeId} (hi : rs[i]? = some r) (hk : rs[k]? = some q)
    (ha : n.productions[i]? = some a) (hb : n.productions[k]? = some b) (id : NodeId) :
    (∃ j, n.nodes[id]? = some (.join j)) ∧ n.Above id a ∧ n.Above id b ↔
      ∃ cs, cs ≠ [] ∧ cs <+: commonPrefix r.conditions q.conditions ∧ n.JoinFor id cs := by
  obtain ⟨-, js, -, -, -, hpa, hjs⟩ := hr.production ha hi
  obtain ⟨-, ks, -, -, -, hpb, hks⟩ := hr.production hb hk
  constructor
  · rintro ⟨⟨j, hj⟩, haa, hab⟩
    obtain ⟨cs, hcs, hjoin⟩ := h.joinOf_of_above hj haa hpa
    obtain ⟨ds, hds, hjoin'⟩ := h.joinOf_of_above hj hab hpb
    -- a join has one list of conditions, so both rules start with it
    obtain rfl := h.conditions_unique hjoin hjoin'
    refine ⟨cs.reverse, ?_, prefix_commonPrefix_iff.2 ⟨?_, ?_⟩, hjoin.joinFor⟩
    · obtain ⟨_, _, -, -, rfl⟩ := hjoin
      exact List.reverse_ne_nil_iff.2 (List.cons_ne_nil _ _)
    · rw [← List.reverse_suffix, List.reverse_reverse, ← hjs]
      exact hcs
    · rw [← List.reverse_suffix, List.reverse_reverse, ← hks]
      exact hds
  · rintro ⟨cs, -, hpre, hjoin⟩
    obtain ⟨hcs, hds⟩ := prefix_commonPrefix_iff.1 hpre
    refine ⟨?_, h.above_of_joinOf ht hpa ?_ hjoin, h.above_of_joinOf ht hpb ?_ hjoin⟩
    · obtain ⟨j, _, hj, -, -⟩ := hjoin
      exact ⟨j, hj⟩
    · rw [hjs, List.reverse_suffix]
      exact hcs
    · rw [hks, List.reverse_suffix]
      exact hds

end

/-- Each join is the join of one list of conditions, with which some rule starts. -/
theorem TrieOf.exists_prefix_of_join {n : Network} {rs : List Rule} (ht : n.TrieOf rs) (h : n.Tree) {id : NodeId} {j : JoinNode}
    (hj : n.nodes[id]? = some (.join j)) :
    ∃ cs, cs ≠ [] ∧ (∃ r ∈ rs, cs <+: r.conditions) ∧ ∀ ds, n.JoinFor id ds ↔ ds = cs := by
  obtain ⟨js, -, hjoin⟩ := h.exists_joinOf hj
  refine ⟨_, ?_, starts_reverse_iff.1 (by rw [List.reverse_reverse]; exact ht.join_starts hjoin), fun ds => ⟨fun hd => ?_, ?_⟩⟩
  · exact List.reverse_ne_nil_iff.2 (List.cons_ne_nil _ _)
  · rw [← h.conditions_unique hd hjoin, List.reverse_reverse]
  · rintro rfl
    exact hjoin.joinFor

/-- The join of a prefix stands for its last condition, reads the memory of the key of that condition, makes its tests after the
conditions before it, and hangs below the memory of their join. -/
theorem Labelled.label_of_joinFor {n : Network} (h : n.Labelled) {id : NodeId} {cs : List Condition} {c : Condition}
    (hj : n.JoinFor id (cs ++ [c])) :
    ∃ j, n.nodes[id]? = some (.join j) ∧ j.condition = c ∧ n.alpha.byKey.find? c.key = some j.alpha ∧
      j.tests = c.tests cs.reverse ∧
      (cs = [] ∧ j.parent = topNode ∨ ∃ m, n.nodes[j.parent]? = some (.memory m) ∧ n.JoinFor m.parent cs) := by
  rw [JoinFor, List.reverse_concat] at hj
  obtain ⟨j, hjn, hc, hup⟩ := h.above_join hj
  refine ⟨j, hjn, hc, by rw [← hc]; exact h.join_alpha hjn, ?_, ?_⟩
  · obtain ⟨js, hpath, htests⟩ := h.join_tests hjn
    have hcs := h.conditions_unique ⟨j, js, hjn, hpath, rfl⟩ hj
    rw [htests, hc, (List.cons.inj hcs).2]
  · rw [List.reverse_eq_nil_iff] at hup
    exact hup

namespace Registered

variable {n : Network} {rs : List Rule} (hr : n.Registered rs)
include hr

/-- Each rule has its production, below the join of all its conditions. -/
theorem exists_production_below {i : Nat} {r : Rule} (hi : rs[i]? = some r) :
    ∃ (id : NodeId) (p : ProductionNode), n.productions[i]? = some id ∧ n.nodes[id]? = some (.production p) ∧
      p.rule = r.name ∧ p.select = r.select ∧ n.JoinFor p.parent r.conditions := by
  have hlt : i < n.productions.size := by
    rw [hr.size]
    exact (List.getElem?_eq_some_iff.1 hi).1
  obtain ⟨id, hid⟩ : ∃ id, n.productions[i]? = some id := ⟨_, Array.getElem?_eq_getElem hlt⟩
  obtain ⟨p, js, hp, hname, hselect, hpath, hjs⟩ := hr.production hid hi
  refine ⟨id, p, hid, hp, hname, hselect, ?_⟩
  have hne := (Rule.check_eq_ok_iff.1 (hr.checked r (List.mem_of_getElem? hi))).2.1
  cases hpath with
  | here => exact absurd (List.reverse_eq_nil_iff.1 hjs.symm) hne
  | down hx hxp hj hpath =>
    obtain rfl := Option.some.inj (hp.symm.trans hx)
    obtain rfl := Option.some.inj hxp
    exact ⟨_, _, hj, hpath, hjs⟩

/-- If no two rules have the same production, each production is that of one rule. -/
theorem exists_rule_of_production (hu : n.productions.toList.Nodup) {id : NodeId} {p : ProductionNode}
    (hp : n.nodes[id]? = some (.production p)) : ∃ i, i < rs.length ∧ ∀ k : Nat, n.productions[k]? = some id ↔ k = i := by
  obtain ⟨i, hi⟩ := hr.listed hp
  obtain ⟨hlt, -⟩ := Array.getElem?_eq_some_iff.1 hi
  refine ⟨i, by rw [← hr.size]; exact hlt, fun k => ⟨fun hk => ?_, ?_⟩⟩
  · rw [← Array.getElem?_toList] at hi hk
    exact ((List.getElem?_inj hlt hu).1 (hi.trans hk.symm)).symm
  · rintro rfl
    exact hi

end Registered

/-- A node is listed once, among the children of its parent. -/
theorem TrieOf.count_children {n : Network} {rs : List Rule} (ht : n.TrieOf rs) (h : n.Tree) {id up k : NodeId} {x y : Node}
    (hx : n.nodes[id]? = some x) (hp : x.parent? = some up) (hy : n.nodes[k]? = some y) :
    y.children.count id = if k = up then 1 else 0 := by
  rw [(ht.listed_once hy).count]
  refine if_congr ?_ rfl rfl
  rw [h.child_iff hy]
  constructor
  · rintro ⟨x', hx', hp'⟩
    obtain rfl := Option.some.inj (hx.symm.trans hx')
    exact Option.some.inj (hp'.symm.trans hp)
  · rintro rfl
    exact ⟨x, hx, hp⟩

/-- Every node but the top node has a parent. -/
theorem Tree.exists_parent {n : Network} (h : n.Tree) {id : NodeId} {x : Node} (hx : n.nodes[id]? = some x) (hne : id ≠ topNode) :
    ∃ up, x.parent? = some up := by
  cases x with
  | top cs => exact absurd (h.top_only hx) hne
  | join j => exact ⟨j.parent, rfl⟩
  | memory m => exact ⟨m.parent, rfl⟩
  | production p => exact ⟨p.parent, rfl⟩

/-- A wired network that is the trie of its rules is their prefix trie. -/
theorem prefixTrie_of_trieOf {n : Network} {rs : List Rule} (h : n.Wired) (hr : n.Registered rs) (ht : n.TrieOf rs)
    (hu : n.productions.toList.Nodup) : n.PrefixTrie rs where
  prefix_of_join := ht.exists_prefix_of_join h.toTree
  join_of_prefix := exists_join_of_prefix h.toTree hr ht
  label := h.label_of_joinFor
  memories := countP_memories h.toTree hr ht
  production := hr.exists_production_below
  rule := hr.exists_rule_of_production hu
  listed hx hne := by
    obtain ⟨up, hp⟩ := h.exists_parent hx hne
    exact ⟨up, hp, h.parent_lt hx hp, ht.count_children h.toTree hx hp⟩
  shared := shared_joins_iff h.toTree hr ht

/-! ## Histories -/

/-- Between two calls the nodes are the prefix trie of the rules that were accepted. -/
theorem Rests.prefixTrie {n : Network} {rs : List Rule} (h : n.Rests rs) : n.PrefixTrie rs := by
  have hb : n.bare = n.bare.bare := n.bare_bare.symm
  refine prefixTrie_of_trieOf h.toWired (registered_of_addRules h.rules) ((trie_addRules h.rules).of_bare hb) ?_
  rw [productions_of_bare hb]
  exact nodup_productions h.rules

/-- Whatever rules, facts and resets a network is given, and in whatever order, its nodes are the prefix trie of the rules that it
has accepted. A further rule that it accepts makes them the prefix trie of one rule more and adds one production. -/
theorem calls_prefixTrie (cs : List Call) : ∃ n rs, calls cs = .ok (n, rs) ∧ n.PrefixTrie rs ∧
    ∀ (r : Rule) (new : NodeId) (n' : Network), n.addRule r = .ok (new, n') →
      n'.PrefixTrie (rs ++ [r]) ∧ n'.productions = n.productions.push new ∧ ¬ n.IsProduction new ∧
        ∀ id, n'.IsProduction id ↔ n.IsProduction id ∨ id = new := by
  obtain ⟨n, rs, he, h⟩ := calls_ok cs
  exact ⟨n, rs, he, h.prefixTrie, fun r new n' ha => ⟨(h.rule ha).prefixTrie, production_addRule h.toWired ha⟩⟩

end Network

end TripleRules

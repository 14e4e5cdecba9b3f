import TripleRules.Proofs.SameRules

/-!
# The trie of the conditions

Sharing looks at the children of one node only. It is enough: no node gets two children that stand for the same thing, so two
joins with the same conditions on the way down to them are the same join. And compiling grows a branch only along the conditions
of the rule, so every join and every memory is on the way to the production of some rule.
-/

namespace TripleRules

/-- Whether two nodes below the same one stand for the same thing: joins of the same condition do, and so do memories. -/
def Node.Twin : Node → Node → Prop
  | join j, join k => j.condition = k.condition
  | memory _, memory _ => True
  | _, _ => False

/-- Whether two nodes are twins does not depend on what hangs below them. -/
@[simp] theorem Node.twin_withChildren (cs ds : List NodeId) (x y : Node) :
    (x.withChildren cs).Twin (y.withChildren ds) ↔ x.Twin y := by
  cases x <;> cases y <;> exact Iff.rfl

/-- Whether two nodes are twins does not depend on the batch. -/
@[simp] theorem Node.twin_clear (x y : Node) : x.clear.Twin y.clear ↔ x.Twin y := by
  cases x <;> cases y <;> exact Iff.rfl

theorem Node.Twin.symm {x y : Node} (h : x.Twin y) : y.Twin x := by
  cases x <;> cases y <;> simp_all [Node.Twin]

/-- Some rule starts with the conditions, which are listed nearest first. -/
def Starts (rs : List Rule) (cs : List Condition) : Prop := ∃ r ∈ rs, cs <:+ r.conditions.reverse

/-- With more rules at least as many lists of conditions are the start of one. -/
theorem Starts.mono {rs qs : List Rule} {cs : List Condition} (h : Starts rs cs) (hs : rs ⊆ qs) : Starts qs cs := by
  obtain ⟨r, hr, hcs⟩ := h
  exact ⟨r, hs hr, hcs⟩

namespace Network

/-- No node has two children that stand for the same thing, each child is listed once, each join is one of some rule, and below a
join there is a memory only if some rule goes on. -/
structure TrieOf (n : Network) (rs : List Rule) : Prop where
  listed_once : ∀ {up : NodeId} {y : Node}, n.nodes[up]? = some y → y.children.Nodup
  alone : ∀ {a b : NodeId} {x y : Node}, n.nodes[a]? = some x → n.nodes[b]? = some y → x.parent? = y.parent? → x.Twin y → a = b
  join_starts : ∀ {id : NodeId} {cs : List Condition}, n.JoinOf id cs → Starts rs cs
  memory_starts : ∀ {id : NodeId} {m : MemoryNode} {cs : List Condition}, n.nodes[id]? = some (.memory m) →
    n.JoinOf m.parent cs → ∃ c, Starts rs (c :: cs)

/-! ## The conditions of a join -/

/-- The conditions of a join are a matter of the nodes. -/
theorem JoinOf.of_nodes {n n' : Network} (hn : n'.nodes = n.nodes) {id : NodeId} {cs : List Condition} (h : n.JoinOf id cs) :
    n'.JoinOf id cs := by
  obtain ⟨j, js, hj, hpath, hcs⟩ := h
  exact ⟨j, js, by rw [hn, hj], hpath.of_nodes hn, hcs⟩

/-- The conditions of a join do not depend on the batch. -/
theorem JoinOf.of_bare {n n' : Network} (hb : n'.bare = n.bare) {id : NodeId} {cs : List Condition} (h : n.JoinOf id cs) :
    n'.JoinOf id cs := by
  obtain ⟨j, js, hj, hpath, hcs⟩ := h
  exact ⟨j, js, (join_iff_of_bare hb id j).2 hj, hpath.of_bare hb, hcs⟩

/-- In a network that gets wider a join keeps its conditions. -/
theorem Widens.joinOf {n n' : Network} (h : n.Widens n') {id : NodeId} {cs : List Condition} (hj : n.JoinOf id cs) :
    n'.JoinOf id cs := by
  obtain ⟨j, js, hj, hpath, hcs⟩ := hj
  obtain ⟨ds, hj'⟩ := h.join hj
  obtain ⟨js', hpath', hjs'⟩ := h.path hpath
  exact ⟨_, js', hj', hpath', by rw [hjs', ← hcs]⟩

namespace Tree

variable {n : Network} (h : n.Tree)
include h

/-- A join has one list of conditions. -/
theorem conditions_unique {id : NodeId} {cs ds : List Condition} (hc : n.JoinOf id cs) (hd : n.JoinOf id ds) : cs = ds := by
  obtain ⟨j, js, hj, hjs, rfl⟩ := hc
  obtain ⟨k, ks, hk, hks, rfl⟩ := hd
  obtain rfl := Node.join.inj (Option.some.inj (hj.symm.trans hk))
  rw [h.path_unique hjs hks]

/-- Every join is the join of some conditions, of which its own is the nearest. -/
theorem exists_joinOf {id : NodeId} {j : JoinNode} (hj : n.nodes[id]? = some (.join j)) :
    ∃ js, n.Path topNode j.parent js ∧ n.JoinOf id (j.condition :: js.map (·.condition)) := by
  have hup : ∃ js, n.Path topNode j.parent js := by
    rcases h.join_parent hj with ⟨cs, hy⟩ | ⟨m, hy⟩
    · exact h.exists_path hy rfl
    · exact h.exists_path hy rfl
  obtain ⟨js, hpath⟩ := hup
  exact ⟨js, hpath, j, js, hj, hpath, rfl⟩

/-- A join of one condition hangs below the top node, and one of more below the memory of the join of the others. -/
theorem above_join {id : NodeId} {c : Condition} {cs : List Condition} (hj : n.JoinOf id (c :: cs)) :
    ∃ j, n.nodes[id]? = some (.join j) ∧ j.condition = c ∧
      (cs = [] ∧ j.parent = topNode ∨ ∃ m, n.nodes[j.parent]? = some (.memory m) ∧ n.JoinOf m.parent cs) := by
  obtain ⟨j, js, hj, hpath, he⟩ := hj
  obtain ⟨hc, rfl⟩ := List.cons.inj he
  refine ⟨j, hj, hc, ?_⟩
  have hparent := h.join_parent hj
  generalize j.parent = up at hpath hparent
  cases hpath with
  | here => exact Or.inl ⟨rfl, rfl⟩
  | down hx hp hk hpath =>
    rcases hparent with ⟨ds, htop⟩ | ⟨m, hm⟩
    · obtain rfl := h.top_only htop
      rw [h.not_parent_top hx] at hp
      nomatch hp
    · obtain rfl := Option.some.inj (hm.symm.trans hx)
      obtain rfl := Option.some.inj hp
      exact Or.inr ⟨m, hm, _, _, hk, hpath, rfl⟩

/-- The joins on the way down to a memory end with the one above it. -/
theorem joinOf_of_memory {id : NodeId} {m : MemoryNode} {js : List JoinNode} (hm : n.nodes[id]? = some (.memory m))
    (hp : n.Path topNode id js) : n.JoinOf m.parent (js.map (·.condition)) := by
  cases hp with
  | here =>
    obtain ⟨cs, hcs⟩ := h.top
    rw [hcs] at hm
    nomatch hm
  | down hx hup hj hpath =>
    obtain rfl := Option.some.inj (hm.symm.trans hx)
    obtain rfl := Option.some.inj hup
    exact ⟨_, _, hj, hpath, rfl⟩

/-- A join that was there before has the conditions that it had before. -/
theorem joinOf_of_widens {n' : Network} (h' : n'.Tree) (hw : n.Widens n') {id : NodeId} {j : JoinNode} {cs : List Condition}
    (hj : n.nodes[id]? = some (.join j)) (hc : n'.JoinOf id cs) : n.JoinOf id cs := by
  obtain ⟨js, -, hold⟩ := h.exists_joinOf hj
  rw [h'.conditions_unique hc (hw.joinOf hold)]
  exact hold

end Tree

/-- On the way down along some conditions there is the join of the first of them. -/
theorem Path.exists_joinOf {n : Network} {id : NodeId} {js : List JoinNode} (h : n.Path topNode id js) {cs : List Condition}
    (hcs : cs <:+ js.map (·.condition)) (hne : cs ≠ []) : ∃ join, n.JoinOf join cs := by
  induction h with
  | here => exact absurd (List.suffix_nil.1 hcs) hne
  | @down id up x j js hx hp hj hpath ih =>
    rcases List.suffix_cons_iff.1 hcs with rfl | hcs
    · exact ⟨up, j, js, hj, hpath, rfl⟩
    · exact ih hcs

/-- Where the way down goes on, the join of the first conditions has a memory. -/
theorem Tree.exists_memory_of_suffix {n : Network} (h : n.Tree) {id : NodeId} {js : List JoinNode} (hp : n.Path topNode id js)
    {cs : List Condition} (hcs : cs <:+ js.map (·.condition)) (hne : cs ≠ []) (hlt : cs.length < js.length) :
    ∃ (mid : NodeId) (m : MemoryNode), n.nodes[mid]? = some (.memory m) ∧ n.JoinOf m.parent cs := by
  obtain ⟨ks, hks⟩ := hcs
  obtain ⟨js₁, js₂, rfl, rfl, rfl⟩ := List.map_eq_append_iff.1 hks.symm
  have h₁ : js₁ ≠ [] := by
    rintro rfl
    simp at hlt
  have h₂ : js₂ ≠ [] := by
    rintro rfl
    exact hne rfl
  obtain ⟨mid, m, hm, -, hpath⟩ := h.exists_memory_of_path hp h₁ h₂
  exact ⟨mid, m, hm, h.joinOf_of_memory hm hpath⟩

namespace TrieOf

variable {n : Network} {rs : List Rule} (ht : n.TrieOf rs)
include ht

/-- The trie of some rules is on the way to more of them. -/
theorem mono {qs : List Rule} (hs : rs ⊆ qs) : n.TrieOf qs where
  listed_once := ht.listed_once
  alone := ht.alone
  join_starts hj := (ht.join_starts hj).mono hs
  memory_starts hm hj := by
    obtain ⟨c, hc⟩ := ht.memory_starts hm hj
    exact ⟨c, hc.mono hs⟩

/-- The trie is a matter of the nodes. -/
theorem of_nodes {n' : Network} (hn : n'.nodes = n.nodes) : n'.TrieOf rs where
  listed_once := hn ▸ ht.listed_once
  alone := hn ▸ ht.alone
  join_starts hj := ht.join_starts (hj.of_nodes hn.symm)
  memory_starts hm hj := ht.memory_starts (hn ▸ hm) (hj.of_nodes hn.symm)

/-- The trie does not depend on the batch. -/
theorem of_bare {n' : Network} (hb : n'.bare = n.bare) : n'.TrieOf rs where
  listed_once {up y} hy := by
    obtain ⟨y₀, hy₀, hc⟩ := exists_of_bare hb.symm hy
    rw [← Node.children_clear, ← hc, Node.children_clear]
    exact ht.listed_once hy₀
  alone {a b x y} hx hy hp htwin := by
    obtain ⟨x₀, hx₀, hcx⟩ := exists_of_bare hb.symm hx
    obtain ⟨y₀, hy₀, hcy⟩ := exists_of_bare hb.symm hy
    refine ht.alone hx₀ hy₀ ?_ ?_
    · rw [← Node.parent?_clear, hcx, Node.parent?_clear, hp, ← Node.parent?_clear, ← hcy, Node.parent?_clear]
    · rw [← Node.twin_clear, hcx, hcy, Node.twin_clear]
      exact htwin
  join_starts hj := ht.join_starts (hj.of_bare hb.symm)
  memory_starts {id m cs} hm hj := by
    obtain ⟨x₀, hx₀, hc⟩ := exists_of_bare hb.symm hm
    cases x₀ with
    | memory m₀ =>
      have hp : m₀.parent = m.parent := (MemoryNode.mk.inj (Node.memory.inj hc)).1
      exact ht.memory_starts hx₀ (by rw [hp]; exact hj.of_bare hb.symm)
    | top cs => nomatch hc
    | join j => nomatch hc
    | production p => nomatch hc

/-- Two joins of the same conditions are the same join. -/
theorem join_unique (h : n.Tree) {a b : NodeId} {cs : List Condition} (ha : n.JoinOf a cs) (hb : n.JoinOf b cs) : a = b := by
  induction cs generalizing a b with
  | nil =>
    obtain ⟨j, js, -, -, he⟩ := ha
    nomatch he
  | cons c cs ih =>
    obtain ⟨j, hj, hjc, hja⟩ := h.above_join ha
    obtain ⟨k, hk, hkc, hka⟩ := h.above_join hb
    -- it is enough that the joins hang below the same node
    suffices hup : j.parent = k.parent from ht.alone hj hk (congrArg some hup) (hjc.trans hkc.symm)
    rcases hja with ⟨rfl, hjt⟩ | ⟨m, hm, hmj⟩
    · rcases hka with ⟨-, hkt⟩ | ⟨m', -, hm'⟩
      · rw [hjt, hkt]
      · obtain ⟨_, _, -, -, he⟩ := hm'
        nomatch he
    · rcases hka with ⟨rfl, -⟩ | ⟨m', hm', hmk⟩
      · obtain ⟨_, _, -, -, he⟩ := hmj
        nomatch he
      · exact ht.alone hm hm' (congrArg some (ih hmj hmk)) trivial

end TrieOf

/-! ## Compiling -/

/-- Without rules the trie is the top node. -/
theorem trie_empty : empty.TrieOf [] where
  listed_once {up y} hy := by
    rw [(getElem?_nodes_empty hy).2]
    exact List.nodup_nil
  alone {a b x y} hx hy _ htwin := by
    rw [(getElem?_nodes_empty hx).2, (getElem?_nodes_empty hy).2] at htwin
    exact htwin.elim
  join_starts {id cs} hj := by
    obtain ⟨j, js, hj, -, -⟩ := hj
    nomatch (getElem?_nodes_empty hj).2
  memory_starts {id m cs} hm := by
    nomatch (getElem?_nodes_empty hm).2

section

variable {n n' : Network} {rs : List Rule} {up : NodeId} {x y : Node} (h : n.Tree) (ht : n.TrieOf rs)
  (hg : n.graft up x = .ok n') (hy : n.nodes[up]? = some y)
include h ht hg hy

/-- After a graft each child is listed once: the new one was not among the children of the node that it is grafted to. -/
theorem listed_once_graft (hx : x.children = []) {u : NodeId} {z : Node} (hz : n'.nodes[u]? = some z) : z.children.Nodup := by
  obtain ⟨-, y₀, hy₀, hcs, hn⟩ := getElem?_graft hg (Array.getElem?_eq_some_iff.1 hy).1
  rw [hn] at hz
  split at hz
  · obtain rfl := Option.some.inj hz
    rw [hx]
    exact List.nodup_nil
  · split at hz
    · rw [← Option.some.inj hz, hcs, List.nodup_append]
      refine ⟨ht.listed_once hy₀, by simp, fun a ha b hb hab => ?_⟩
      obtain ⟨w, hw, -⟩ := (h.child_iff hy₀ a).1 ha
      rw [hab, List.mem_singleton.1 hb] at hw
      exact absurd (Array.getElem?_eq_some_iff.1 hw).1 (Nat.lt_irrefl _)
    · exact ht.listed_once hz

omit h in
/-- After the graft of a node that has no twin among its siblings no node has a twin. -/
theorem alone_graft (hp : x.parent? = some up)
    (hnew : ∀ {id : NodeId} {z : Node}, n.nodes[id]? = some z → z.parent? = some up → ¬ z.Twin x) {a b : NodeId} {z w : Node}
    (hz : n'.nodes[a]? = some z) (hw : n'.nodes[b]? = some w) (hzw : z.parent? = w.parent?) (htwin : z.Twin w) : a = b := by
  have hup := (Array.getElem?_eq_some_iff.1 hy).1
  -- each of the two nodes is the new one or was there before
  rcases graft_cases hg hup hz with ⟨rfl, rfl⟩ | ⟨z₀, cs, hz₀, rfl⟩
  · rcases graft_cases hg hup hw with ⟨rfl, rfl⟩ | ⟨w₀, ds, hw₀, rfl⟩
    · rfl
    · rw [Node.parent?_withChildren, hp] at hzw
      rw [← z.withChildren_children, Node.twin_withChildren] at htwin
      exact absurd htwin.symm (hnew hw₀ hzw.symm)
  · rcases graft_cases hg hup hw with ⟨rfl, rfl⟩ | ⟨w₀, ds, hw₀, rfl⟩
    · rw [Node.parent?_withChildren, hp] at hzw
      rw [← w.withChildren_children, Node.twin_withChildren] at htwin
      exact absurd htwin (hnew hz₀ hzw)
    · rw [Node.parent?_withChildren, Node.parent?_withChildren] at hzw
      rw [Node.twin_withChildren] at htwin
      exact ht.alone hz₀ hw₀ hzw htwin

variable (hc : y.carries x) (hp : x.parent? = some up) (hx : x.children = []) (hheld : x.held = [])
include hc hp hx hheld

omit ht in
/-- After a graft a join has the conditions that it had before, or it is the new node. -/
theorem joinOf_graft_cases {id : NodeId} {cs : List Condition} (hj : n'.JoinOf id cs) :
    n.JoinOf id cs ∨ id = n.nodes.size ∧ ∃ k, x = .join k := by
  have hup := (Array.getElem?_eq_some_iff.1 hy).1
  obtain ⟨j', hj'⟩ : ∃ j', n'.nodes[id]? = some (.join j') := by
    obtain ⟨j', -, hj', -, -⟩ := hj
    exact ⟨j', hj'⟩
  rcases join_of_graft hg hup hj' with ⟨hid, rfl⟩ | ⟨j, ds, hjn, -⟩
  · exact Or.inr ⟨hid, j', rfl⟩
  · exact Or.inl (h.joinOf_of_widens (tree_graft h hg hy hc hp hx) (widens_graft hg hup hheld) hjn hj)

/-- After the graft of a join that is one of some rule every join is one of some rule. -/
theorem join_starts_graft (hjoin : ∀ k js, x = .join k → n.Path topNode up js → Starts rs (k.condition :: js.map (·.condition)))
    {id : NodeId} {cs : List Condition} (hj : n'.JoinOf id cs) : Starts rs cs := by
  rcases joinOf_graft_cases h hg hy hc hp hx hheld hj with hj₀ | ⟨rfl, k, rfl⟩
  · exact ht.join_starts hj₀
  · have hup := (Array.getElem?_eq_some_iff.1 hy).1
    obtain ⟨js, hpath⟩ : ∃ js, n.Path topNode up js := by
      refine h.exists_path hy ?_
      cases y <;> first | rfl | nomatch hc
    obtain ⟨js', hpath', hjs'⟩ := (widens_graft hg hup hheld).path hpath
    obtain ⟨-, _, _, -, hn⟩ := getElem?_graft hg hup
    obtain rfl := Option.some.inj hp
    have hjoin' : n'.JoinOf n.nodes.size (k.condition :: js.map (·.condition)) :=
      ⟨k, js', by rw [hn, if_pos rfl], hpath', by rw [hjs']⟩
    rw [(tree_graft h hg hy hc rfl hx).conditions_unique hj hjoin']
    exact hjoin k js rfl hpath

/-- After the graft of a memory with which some rule goes on some rule goes on after every memory. -/
theorem memory_starts_graft (hmem : ∀ m cs, x = .memory m → n.JoinOf up cs → ∃ c, Starts rs (c :: cs)) {id : NodeId}
    {m : MemoryNode} {cs : List Condition} (hm : n'.nodes[id]? = some (.memory m)) (hj : n'.JoinOf m.parent cs) :
    ∃ c, Starts rs (c :: cs) := by
  have hold := joinOf_graft_cases h hg hy hc hp hx hheld hj
  rcases graft_cases hg (Array.getElem?_eq_some_iff.1 hy).1 hm with ⟨rfl, rfl⟩ | ⟨z, ds, hz, he⟩
  · obtain rfl := Option.some.inj hp
    rcases hold with hj₀ | ⟨-, k, hk⟩
    · exact hmem m cs rfl hj₀
    · nomatch hk
  · cases z with
    | memory m₀ =>
      obtain rfl := Node.memory.inj he
      rcases hold with hj₀ | ⟨hid, -⟩
      · exact ht.memory_starts hz hj₀
      · have hlt := Nat.lt_trans (h.parent_lt hz rfl) (Array.getElem?_eq_some_iff.1 hz).1
        exact absurd hid (Nat.ne_of_lt hlt)
    | top es => nomatch he
    | join j => nomatch he
    | production p => nomatch he

/-- A graft keeps the trie, if the new node has no twin among its siblings and is on the way of some rule. -/
theorem trie_graft (hnew : ∀ {id : NodeId} {z : Node}, n.nodes[id]? = some z → z.parent? = some up → ¬ z.Twin x)
    (hjoin : ∀ k js, x = .join k → n.Path topNode up js → Starts rs (k.condition :: js.map (·.condition)))
    (hmem : ∀ m cs, x = .memory m → n.JoinOf up cs → ∃ c, Starts rs (c :: cs)) : n'.TrieOf rs where
  listed_once := listed_once_graft h ht hg hy hx
  alone := alone_graft ht hg hy hp hnew
  join_starts := join_starts_graft h ht hg hy hc hp hx hheld hjoin
  memory_starts := memory_starts_graft h ht hg hy hc hp hx hheld hmem

end

/-- A search that finds nothing looked at every child. -/
theorem findChild?_eq_none {n : Network} (h : n.Tree) {up : NodeId} {y : Node} {p : Node → Bool} (hy : n.nodes[up]? = some y)
    (hf : n.findChild? up p = none) {id : NodeId} {x : Node} (hx : n.nodes[id]? = some x) (hp : x.parent? = some up) :
    p x = false := by
  unfold findChild? at hf
  rw [hy] at hf
  have hall := List.find?_eq_none.1 hf id ((h.child_iff hy id).2 ⟨x, hx, hp⟩)
  rw [hx] at hall
  exact Bool.eq_false_iff.2 hall

/-- A join of a stage is one that is there, or where there is none a new one, which then reads its memory. -/
theorem requestJoin_cases {n n' : Network} {up id : NodeId} {a : AlphaId} {s : Stage}
    (he : n.requestJoin up a s = .ok (id, n')) :
    n' = { n with sharing.joinsShared := n.sharing.joinsShared + 1 } ∨
      n.findChild? up (Node.serves a s) = none ∧ ∃ n₁, n.graft up (.join ⟨a, s.tests, s.condition, up, []⟩) = .ok n₁ ∧
        n' = { n₁ with
          alpha := n₁.alpha.modify a (·.addSuccessor n.nodes.size)
          sharing.joinsCreated := n₁.sharing.joinsCreated + 1 } := by
  rw [requestJoin_eq] at he
  split at he
  · obtain ⟨-, rfl⟩ := Prod.mk.inj (Except.ok.inj he)
    exact Or.inl rfl
  · rename_i hf
    obtain ⟨n₁, hg, he⟩ := bind_eq_ok_iff.1 he
    refine Or.inr ⟨hf, n₁, hg, ?_⟩
    unfold enlist at he
    split at he
    · obtain ⟨-, rfl⟩ := Prod.mk.inj (Except.ok.inj he)
      rfl
    · nomatch he

/-- The memory of a join is one that is there, or a new one where there is none. -/
theorem requestMemory_cases {n n' : Network} {join id : NodeId} (he : n.requestMemory join = .ok (id, n')) :
    n' = { n with sharing.memoriesShared := n.sharing.memoriesShared + 1 } ∨
      n.findChild? join Node.isMemory = none ∧ ∃ n₁, n.graft join (.memory ⟨join, [], #[]⟩) = .ok n₁ ∧
        n' = { n₁ with sharing.memoriesCreated := n₁.sharing.memoriesCreated + 1 } := by
  rw [requestMemory_eq] at he
  split at he
  · obtain ⟨-, rfl⟩ := Prod.mk.inj (Except.ok.inj he)
    exact Or.inl rfl
  · rename_i hf
    obtain ⟨n₁, hg, he⟩ := map_eq_ok_iff.1 he
    obtain ⟨-, rfl⟩ := Prod.mk.inj he
    exact Or.inr ⟨hf, n₁, hg, rfl⟩

/-- A join that serves a stage is the one with its condition: what it reads and tests follows from the conditions above it. -/
theorem Labelled.serves_of_condition {n : Network} (h : n.Labelled) {id up : NodeId} {j : JoinNode} {a : AlphaId} {s : Stage}
    {js : List JoinNode} (hj : n.nodes[id]? = some (.join j)) (hup : j.parent = up) (hpath : n.Path topNode up js)
    (hs : s.tests = s.condition.tests (js.map (·.condition))) (ha : n.alpha.byKey.find? s.condition.key = some a)
    (hc : j.condition = s.condition) : Node.serves a s (.join j) = true := by
  obtain ⟨ks, hks, ht⟩ := h.join_tests hj
  rw [hup] at hks
  have halpha : j.alpha = a := by
    have hk := h.join_alpha hj
    rw [hc, ha] at hk
    exact (Option.some.inj hk).symm
  have htests : j.tests = s.tests := by
    rw [ht, hs, hc, h.path_unique hks hpath]
  simp [Node.serves, JoinNode.serves, halpha, htests, hc]

section

variable {n n' : Network} {rs : List Rule} (h : n.Wired) (ht : n.TrieOf rs)
include h ht

/-- Asking for the join of a stage of some rule keeps the trie. -/
theorem trie_addStage {up id : NodeId} {y : Node} {s : Stage} {js : List JoinNode} (hy : n.nodes[up]? = some y)
    (hc : ∀ j, y.carries (.join j)) (hpath : n.Path topNode up js) (hs : s.tests = s.condition.tests (js.map (·.condition)))
    (hstart : Starts rs (s.condition :: js.map (·.condition))) (he : n.addStage up s = .ok (id, n')) : n'.TrieOf rs := by
  obtain ⟨a, n₁, hr, hw, -, hn, ha⟩ := requestAlpha_ok h s
  rw [addStage, hr] at he
  have ht₁ := ht.of_nodes hn
  have hpath₁ : n₁.Path topNode up js := hpath.of_nodes hn
  have hy₁ : n₁.nodes[up]? = some y := by rw [hn, hy]
  rcases requestJoin_cases he with rfl | ⟨hf, n₂, hg, rfl⟩
  · exact ht₁.of_nodes rfl
  · refine (trie_graft hw.toTree ht₁ hg hy₁ (hc _) rfl rfl rfl ?_ ?_ ?_).of_nodes rfl
    · intro id' z hz hzp htwin
      have hnot := findChild?_eq_none hw.toTree hy₁ hf hz hzp
      cases z with
      | join k =>
        have hserves := hw.toLabelled.serves_of_condition hz (Option.some.inj hzp) hpath₁ hs ha htwin
        rw [hserves] at hnot
        cases hnot
      | top cs => exact htwin
      | memory m => exact htwin
      | production p => exact htwin
    · intro k ks hk hks
      obtain rfl := Node.join.inj hk
      rw [hw.toTree.path_unique hks hpath₁]
      exact hstart
    · intro m cs hm
      cases hm

/-- Asking for the memory of a join with which some rule goes on keeps the trie. -/
theorem trie_requestMemory {join id : NodeId} {cs : List Condition} {c : Condition} (hj : n.JoinOf join cs)
    (hstart : Starts rs (c :: cs)) (he : n.requestMemory join = .ok (id, n')) : n'.TrieOf rs := by
  rcases requestMemory_cases he with rfl | ⟨hf, n₂, hg, rfl⟩
  · exact ht.of_nodes rfl
  · obtain ⟨j, js, hjn, hpath, hcs⟩ := hj
    refine (trie_graft h.toTree ht hg hjn rfl rfl rfl rfl ?_ ?_ ?_).of_nodes rfl
    · intro id' z hz hzp htwin
      have hnot := findChild?_eq_none h.toTree hjn hf hz hzp
      cases z with
      | memory m => nomatch hnot
      | top cs => exact htwin
      | join k => exact htwin
      | production p => exact htwin
    · intro k ks hk
      nomatch hk
    · intro m ds _ hd
      refine ⟨c, ?_⟩
      rw [h.conditions_unique hd ⟨j, js, hjn, hpath, hcs⟩]
      exact hstart

end

/-- Compiling the further conditions of a rule keeps the trie. -/
theorem trie_addStages {n n' : Network} {rs : List Rule} (h : n.Wired) (ht : n.TrieOf rs) {r : Rule} (hr : r ∈ rs)
    {join last : NodeId} {earlier cs : List Condition} (hj : n.JoinOf join earlier)
    (hcs : cs.reverse ++ earlier = r.conditions.reverse)
    (he : n.addStages join (r.stagesAfter earlier cs) = .ok (last, n')) : n'.TrieOf rs := by
  induction cs generalizing n join earlier with
  | nil =>
    obtain ⟨-, rfl⟩ := Prod.mk.inj (Except.ok.inj he)
    exact ht
  | cons c cs ih =>
    have hstart : Starts rs (c :: earlier) := by
      rw [List.reverse_cons, List.append_assoc] at hcs
      exact ⟨r, hr, cs.reverse, hcs⟩
    obtain ⟨⟨mid, n₁⟩, hmem, he⟩ := bind_eq_ok_iff.1 he
    obtain ⟨⟨next, n₂⟩, hstage, he⟩ := bind_eq_ok_iff.1 he
    have ht₁ := trie_requestMemory h ht hj hstart hmem
    obtain ⟨j, js, hjn, hpath, rfl⟩ := hj
    obtain ⟨_, _, m, hmem', hw₁, hd₁, hm, hmp⟩ := requestMemory_ok h hjn
    obtain ⟨rfl, rfl⟩ := Prod.mk.inj (Except.ok.inj (hmem.symm.trans hmem'))
    obtain ⟨ds, hjn₁⟩ := hd₁.join hjn
    obtain ⟨js₁, hpath₁, hjs₁⟩ := hd₁.path hpath
    have hmid : n₁.Path topNode mid ({ j with children := ds } :: js₁) := .down hm (congrArg some hmp) hjn₁ hpath₁
    have hconds : ({ j with children := ds } :: js₁).map (·.condition) = j.condition :: js.map (·.condition) := by
      rw [List.map_cons, hjs₁]
    have ht₂ := trie_addStage hw₁ ht₁ hm (fun _ => rfl) hmid (by rw [hconds]) (by rw [hconds]; exact hstart) hstage
    obtain ⟨_, _, hstage', hw₂, -, hj₂⟩ := addStage_ok hw₁ (s := ⟨c, c.tests (j.condition :: js.map (·.condition)),
      r.excludedBy c⟩) hm (fun _ => rfl) hmid (by rw [hconds])
    obtain ⟨rfl, rfl⟩ := Prod.mk.inj (Except.ok.inj (hstage.symm.trans hstage'))
    rw [hconds] at hj₂
    exact ih hw₂ ht₂ hj₂ (by rw [← hcs, List.reverse_cons, List.append_assoc]; rfl) he

/-- A rule that is compiled has grown its branch first, and then its production is put below the join of its conditions. -/
theorem addRule_cases {n n' : Network} (h : n.Wired) {r : Rule} {new : NodeId} (he : n.addRule r = .ok (new, n')) :
    ∃ (n₁ : Network) (join : NodeId) (n₂ : Network), n₁.Wired ∧ n.Deepens n₁ ∧ n₁.JoinOf join r.conditions.reverse ∧
      (∀ rs, r ∈ rs → n.TrieOf rs → n₁.TrieOf rs) ∧
      n₁.graft join (.production ⟨join, r.name, r.select, r.conditions.length, #[]⟩) = .ok n₂ ∧ new = n₁.nodes.size ∧
      n' = n₂.register r new := by
  obtain ⟨hc, s, ss, join, n₁, last, n₂, hstages, hstage, hlast, hp⟩ := addRule_eq_ok he
  obtain ⟨c, cs, hcs⟩ := List.exists_cons_of_ne_nil (Rule.check_eq_ok_iff.1 hc).2.1
  obtain ⟨rfl, rfl⟩ := List.cons.inj (hstages.symm.trans (stages_cons hcs))
  obtain ⟨n₃, hg, he⟩ := map_eq_ok_iff.1 ((addProduction_eq n₂ last r).symm.trans hp)
  obtain ⟨hnew, he⟩ := Prod.mk.inj he
  obtain ⟨top, htop⟩ := h.top
  obtain ⟨_, _, hstage', hw₁, hd₁, hj₁⟩ :=
    addStage_ok h (s := ⟨c, c.tests [], r.excludedBy c⟩) htop (fun _ => rfl) .here rfl
  obtain ⟨rfl, rfl⟩ := Prod.mk.inj (Except.ok.inj (hstage.symm.trans hstage'))
  obtain ⟨_, _, hlast', hw₂, hd₂, hj₂⟩ := addStages_ok hw₁ r hj₁ cs
  obtain ⟨rfl, rfl⟩ := Prod.mk.inj (Except.ok.inj (hlast.symm.trans hlast'))
  refine ⟨n₂, last, n₃, hw₂, hd₁.trans hd₂, by rw [hcs, List.reverse_cons]; exact hj₂, fun rs hr ht => ?_, hg, hnew.symm,
    by rw [← hnew]; exact he.symm⟩
  have ht₁ := trie_addStage h ht (s := ⟨c, c.tests [], r.excludedBy c⟩) htop (fun _ => rfl) .here rfl
    ⟨r, hr, by rw [hcs, List.reverse_cons]; exact List.suffix_append _ _⟩ hstage
  exact trie_addStages hw₁ ht₁ hr hj₁ (by rw [hcs, List.reverse_cons]; rfl) hlast

/-- Compiling a rule extends the trie by the rule. -/
theorem trie_addRule {n n' : Network} {rs : List Rule} (h : n.Wired) (ht : n.TrieOf rs) {r : Rule} {new : NodeId}
    (he : n.addRule r = .ok (new, n')) : n'.TrieOf (rs ++ [r]) := by
  obtain ⟨n₁, join, n₂, hw₁, -, ⟨j, -, hj, -, -⟩, htrie, hg, -, rfl⟩ := addRule_cases h he
  have ht₁ := htrie (rs ++ [r]) (List.mem_append_right _ (List.mem_singleton_self r)) (ht.mono (List.subset_append_left rs [r]))
  refine (trie_graft hw₁.toTree ht₁ hg hj rfl rfl rfl rfl ?_ ?_ ?_).of_nodes rfl
  · intro id z _ _ htwin
    cases z <;> exact htwin
  · intro k ks hk
    nomatch hk
  · intro m ds hm
    nomatch hm

/-- What holds without rules and is preserved by each rule that is compiled holds of all networks that have compiled rules. -/
theorem addRules_induction {P : Network → List Rule → Prop} (start : P empty [])
    (step : ∀ {n n' : Network} {rs : List Rule} {r : Rule} {new : NodeId}, n.Wired → n.Registered rs → P n rs →
      n.addRule r = .ok (new, n') → P n' (rs ++ [r]))
    {n : Network} {rs : List Rule} (ha : empty.addRules rs = .ok n) : P n rs := by
  suffices hrun : ∀ {m m' : Network} {ps qs : List Rule}, m.Wired → m.Registered ps → P m ps → m.addRules qs = .ok m' →
      P m' (ps ++ qs) from hrun wired_empty registered_empty start ha
  intro m m' ps qs h hr hp ha
  induction qs generalizing m ps with
  | nil =>
    obtain rfl := Except.ok.inj ha
    rw [List.append_nil]
    exact hp
  | cons r qs ih =>
    rw [addRules, List.foldlM_cons] at ha
    obtain ⟨n₁, hmap, ha⟩ := bind_eq_ok_iff.1 ha
    obtain ⟨⟨id, n₁⟩, hadd, rfl⟩ := map_eq_ok_iff.1 hmap
    obtain ⟨id', n₂, he, hw, -, hr₁⟩ := addRule_ok h hr (check_of_addRule hadd)
    obtain ⟨-, rfl⟩ := Prod.mk.inj (Except.ok.inj (hadd.symm.trans he))
    rw [List.append_cons]
    exact ih hw hr₁ (step h hr hp hadd) ha

/-- A network that has compiled rules is their trie. -/
theorem trie_addRules {n : Network} {rs : List Rule} (ha : empty.addRules rs = .ok n) : n.TrieOf rs :=
  addRules_induction trie_empty (fun h _ ht he => trie_addRule h ht he) ha

/-! ## The production of a rule -/

/-- Whether a node is a production. -/
def IsProduction (n : Network) (id : NodeId) : Prop := ∃ p, n.nodes[id]? = some (.production p)

/-- A rule that is compiled gets one production, which is new. -/
theorem production_addRule {n n' : Network} (h : n.Wired) {r : Rule} {new : NodeId} (he : n.addRule r = .ok (new, n')) :
    n'.productions = n.productions.push new ∧ ¬ n.IsProduction new ∧ ∀ id, n'.IsProduction id ↔ n.IsProduction id ∨ id = new := by
  obtain ⟨n₁, join, n₂, -, hd, ⟨j, -, hj, -, -⟩, -, hg, rfl, rfl⟩ := addRule_cases h he
  have hup := (Array.getElem?_eq_some_iff.1 hj).1
  obtain ⟨hsame, _, _, -, hn⟩ := getElem?_graft hg hup
  refine ⟨by rw [register, hsame, hd.productions], ?_, fun id => ⟨?_, ?_⟩⟩
  · rintro ⟨p, hp⟩
    obtain ⟨cs, hp'⟩ := hd.nodes hp
    exact absurd (Array.getElem?_eq_some_iff.1 hp').1 (Nat.lt_irrefl _)
  · rintro ⟨p, hp⟩
    rcases production_of_graft hg hup hp with ⟨rfl, -⟩ | hp
    · exact Or.inr rfl
    · exact Or.inl ⟨p, hd.production_old hp⟩
  · rintro (⟨p, hp⟩ | rfl)
    · obtain ⟨cs, hp₁⟩ := hd.nodes hp
      obtain ⟨ds, hp₂⟩ := exists_of_graft hg hup hp₁
      exact ⟨p, hp₂⟩
    · exact ⟨_, by rw [register, hn, if_pos rfl]⟩

/-- No two rules have the same production. -/
theorem nodup_productions {n : Network} {rs : List Rule} (ha : empty.addRules rs = .ok n) : n.productions.toList.Nodup := by
  refine addRules_induction (P := fun n _ => n.productions.toList.Nodup) List.nodup_nil ?_ ha
  intro n n' rs r new h hr hu he
  obtain ⟨hprods, hnew, -⟩ := production_addRule h he
  rw [hprods, Array.toList_push, List.nodup_append]
  refine ⟨hu, by simp, fun a hmem b hb hab => hnew ?_⟩
  obtain ⟨i, hi⟩ := List.mem_iff_getElem?.1 hmem
  rw [Array.getElem?_toList] at hi
  have hlt : i < rs.length := by
    rw [← hr.size]
    exact (Array.getElem?_eq_some_iff.1 hi).1
  obtain ⟨p, _, hp, -⟩ := hr.production hi (List.getElem?_eq_getElem hlt)
  rw [hab, List.mem_singleton.1 hb] at hp
  exact ⟨p, hp⟩

end Network

end TripleRules

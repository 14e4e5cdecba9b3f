import TripleRules.Proofs.NaiveJoin
import TripleRules.Proofs.PrefixTrie

/-!
# Stored tokens are well formed

A rule that is compiled in the middle of a batch may hang its nodes below memories that hold tokens already, and what it finds there
is not made up for. So the tokens of a node need not be all the pairs that meet at the join above it. But each token is what it
should be at its place, whatever is called in between: its chain has one fact for each condition on the way down, and each of them
was let through by its join.
-/

namespace TripleRules

/-- A node that lists tokens holds those that it lists. -/
theorem Node.held_of_tokens? {x : Node} {ts : Array TokenId} (h : x.tokens? = some ts) : x.held = ts.toList := by
  cases x with
  | top cs => nomatch h
  | join j => nomatch h
  | memory m => rw [← Option.some.inj h, held]
  | production p => rw [← Option.some.inj h, held]

/-- A node holds the tokens that it lists, and the top node holds the root. -/
theorem Node.exists_tokens?_of_mem_held {x : Node} {t : TokenId} (h : t ∈ x.held) (h₀ : t ≠ rootToken) :
    ∃ ts, x.tokens? = some ts ∧ t ∈ ts.toList := by
  cases x with
  | top cs => exact absurd (List.mem_singleton.1 h) h₀
  | join j => exact absurd h List.not_mem_nil
  | memory m => exact ⟨m.tokens, rfl, h⟩
  | production p => exact ⟨p.tokens, rfl, h⟩

namespace Network

/-- A token and its link as they should be below a join that a number of conditions lead to, its own the last of them. -/
structure Belongs (n : Network) (j : JoinNode) (depth : Nat) (t : TokenId) (l : Link) : Prop where
  link : n.tokens.link? t = some l
  /-- The chain ends at the root. -/
  root : (n.tokens.chain t).getLast? = some rootToken
  /-- The chain has a fact for each condition. -/
  facts : (n.tokens.chainFacts t).length = depth
  /-- The parent is the root below the first join, and is listed by the memory above any other one. -/
  parent : depth = 1 ∧ l.parent = rootToken ∨
    1 < depth ∧ ∃ m, n.nodes[j.parent]? = some (.memory m) ∧ l.parent ∈ m.tokens.toList
  fact : ∃ m, n.alpha.get? j.alpha = some m ∧ l.fact ∈ m.facts.toList
  subjectVar : l.subjectVar = j.condition.subjectVar?
  objectVar : l.objectVar = j.condition.objectVar?
  /-- Each test finds the two facts that it compares, and holds between them. -/
  tested : ∀ test ∈ j.tests, ∃ (a : TokenId) (f : FactId) (old new : Fact), n.tokens.ancestor? t test.levelsUp = some a ∧
    n.tokens.fact? a = some f ∧ n.facts[f]? = some old ∧ n.facts[l.fact]? = some new ∧
    test.newField.read new = test.oldField.read old

/-- The tokens of a network are where they belong and what they should be there. -/
structure WellFormed (n : Network) : Prop where
  /-- Each token but the root is listed by one node, once. -/
  listed : ∀ {t : TokenId}, t ≠ rootToken → n.tokens.contains t = true → ∃ (id : NodeId) (x : Node) (ts : Array TokenId),
    n.nodes[id]? = some x ∧ x.tokens? = some ts ∧ ts.toList.count t = 1 ∧
    ∀ {k : NodeId} {y : Node} {us : Array TokenId}, n.nodes[k]? = some y → y.tokens? = some us → t ∈ us.toList → k = id
  /-- What a node lists are tokens other than the root. -/
  contained : ∀ {id : NodeId} {x : Node} {ts : Array TokenId} {t : TokenId}, n.nodes[id]? = some x → x.tokens? = some ts →
    t ∈ ts.toList → t ≠ rootToken ∧ n.tokens.contains t = true
  /-- A node that lists tokens hangs below the join of some conditions. -/
  below : ∀ {id : NodeId} {x : Node} {ts : Array TokenId}, n.nodes[id]? = some x → x.tokens? = some ts →
    ∃ (join : NodeId) (j : JoinNode) (cs : List Condition), x.parent? = some join ∧ n.nodes[join]? = some (.join j) ∧
      id ∈ j.children ∧ n.JoinFor join cs
  /-- The tokens that are listed below the join of some conditions belong there. -/
  belongs : ∀ {join id : NodeId} {j : JoinNode} {cs : List Condition} {x : Node} {ts : Array TokenId} {t : TokenId},
    n.nodes[join]? = some (.join j) → n.JoinFor join cs → id ∈ j.children → n.nodes[id]? = some x → x.tokens? = some ts →
    t ∈ ts.toList → ∃ l, n.Belongs j cs.length t l
  /-- No two tokens of a node have the same parent and the same fact. -/
  distinct : ∀ {id : NodeId} {x : Node} {ts : Array TokenId} {t u : TokenId}, n.nodes[id]? = some x → x.tokens? = some ts →
    t ∈ ts.toList → u ∈ ts.toList → n.tokens.parent? t = n.tokens.parent? u → n.tokens.fact? t = n.tokens.fact? u → t = u

/-! ## Sound networks -/

namespace Sound

variable {n : Network} (h : n.Sound)
include h

/-- What a join has let through passes each of its tests: the facts to compare are there, and the test holds between them. -/
theorem exists_read_eq {join : NodeId} {j : JoinNode} (hj : n.nodes[join]? = some (.join j)) {t : TokenId} {f : FactId}
    (hm : n.Meets j t f) {test : JoinTest} (htest : test ∈ j.tests) :
    ∃ a g old new, n.tokens.ancestor? t (test.levelsUp - 1) = some a ∧ n.tokens.fact? a = some g ∧ n.facts[g]? = some old ∧
      n.facts[f]? = some new ∧ test.newField.read new = test.oldField.read old := by
  obtain ⟨a, g, old, ha, hg, hold⟩ := h.exists_earlier hj hm.token htest
  obtain ⟨new, hnew⟩ := h.exists_fact hm.fact
  refine ⟨a, g, old, new, ha, hg, hold, hnew, ?_⟩
  -- the root has no fact to look back to
  have h₀ : t ≠ rootToken := by
    rintro rfl
    generalize test.levelsUp - 1 = k at ha
    cases k with
    | zero =>
      obtain rfl := Option.some.inj ha
      rw [TokenStore.fact?_root] at hg
      cases hg
    | succ k =>
      rw [TokenStore.ancestor?, TokenStore.parent?_root] at ha
      cases ha
  have hin : n.tokens.contains t = true := TokenStore.contains_iff.2 (h.le_of_held hm.token)
  have hpass := hm.passes
  rw [passes, if_neg h₀, if_pos hin, hnew] at hpass
  have hholds : n.holds t new test = true := List.all_eq_true.1 hpass test htest
  simp only [holds, ha, hg, hold, Option.bind_eq_bind, Option.bind_some] at hholds
  exact beq_iff_eq.1 hholds

/-- A token that is held below a join belongs there. -/
theorem exists_belongs {join id : NodeId} {j : JoinNode} {cs : List Condition} (hj : n.nodes[join]? = some (.join j))
    (hc : n.JoinFor join cs) (hid : id ∈ j.children) {t : TokenId} (ht : t ∈ n.held id) : ∃ l, n.Belongs j cs.length t l := by
  obtain ⟨x, hx, hup⟩ := (h.child_iff hj id).1 hid
  obtain ⟨k, js, hk, hpath, hconds⟩ := hc
  obtain rfl := Node.join.inj (Option.some.inj (hj.symm.trans hk))
  have hlen : cs.length = js.length + 1 := by
    rw [← List.length_reverse, ← hconds, List.length_cons, List.length_map]
  obtain ⟨l, hl, hs, ho, hm⟩ := h.justified (parentOf_eq_some.2 ⟨x, hx, hup⟩) hj ht
  rw [hlen]
  refine ⟨l, hl, TokenStore.getLast?_chain h.grounded (h.le_of_held ht), h.length_chainFacts (.down hx hup hj hpath) ht, ?_, ?_, hs,
    ho, ?_⟩
  · have htoken := hm.token
    rcases h.join_parent hj with ⟨ds, htop⟩ | ⟨m, hmem⟩
    · rw [held_eq htop] at htoken
      have hjs : js = [] := h.path_unique (h.top_only htop ▸ hpath) .here
      exact Or.inl ⟨by rw [hjs, List.length_nil], List.mem_singleton.1 htoken⟩
    · rw [held_eq hmem] at htoken
      refine Or.inr ⟨Nat.lt_add_of_pos_left (List.length_pos_iff.2 ?_), m, hmem, htoken⟩
      rintro rfl
      obtain ⟨_, _, -, -, he⟩ := h.joinOf_of_memory hmem hpath
      nomatch he
  · have hfact := hm.fact
    cases ha : n.alpha.get? j.alpha with
    | none =>
      rw [arrived, ha] at hfact
      exact absurd hfact List.not_mem_nil
    | some m =>
      rw [arrived_eq ha] at hfact
      exact ⟨m, rfl, hfact⟩
  · intro test htest
    obtain ⟨a, g, old, new, ha, hrest⟩ := h.exists_read_eq hj hm htest
    obtain ⟨k, hk⟩ := Nat.exists_eq_add_of_le' (h.levelsUp_bounds hj hpath htest).1
    refine ⟨a, g, old, new, ?_, hrest⟩
    rw [hk, Nat.add_sub_cancel] at ha
    rw [hk, TokenStore.ancestor?, TokenStore.parent?_eq_some hl]
    exact ha

omit h in
theorem held_eq_tokens {id : NodeId} {x : Node} {ts : Array TokenId} (hx : n.nodes[id]? = some x) (hts : x.tokens? = some ts) :
    n.held id = ts.toList :=
  (held_eq hx).trans (Node.held_of_tokens? hts)

/-- No node lists the root: the top node is where it is held. -/
theorem rootToken_notMem {id : NodeId} {x : Node} {ts : Array TokenId} (hx : n.nodes[id]? = some x) (hts : x.tokens? = some ts) :
    rootToken ∉ ts.toList := by
  intro ht
  rw [← held_eq_tokens hx hts] at ht
  obtain rfl := h.owner_unique ht (by rw [h.held_top]; exact List.mem_singleton_self _)
  obtain ⟨cs, hcs⟩ := h.top
  obtain rfl := Option.some.inj (hcs.symm.trans hx)
  cases hts

/-- The tokens of a sound network are well formed. -/
theorem wellFormed : n.WellFormed where
  listed {t} h₀ hin := by
    obtain ⟨id, hid⟩ := h.owner_iff.1 (TokenStore.contains_iff.1 hin)
    cases hx : n.nodes[id]? with
    | none =>
      rw [held, hx] at hid
      exact absurd hid List.not_mem_nil
    | some x =>
      obtain ⟨ts, hts, -⟩ := Node.exists_tokens?_of_mem_held (by rw [← held_eq hx]; exact hid) h₀
      refine ⟨id, x, ts, hx, hts, ?_, fun hy hus hu => h.owner_unique (by rw [held_eq_tokens hy hus]; exact hu) hid⟩
      rw [← held_eq_tokens hx hts]
      exact List.count_eq_one_of_mem (h.nodup id) hid
  contained {id x ts t} hx hts ht := by
    have hin : t ∈ n.held id := by
      rw [held_eq_tokens hx hts]
      exact ht
    exact ⟨fun he => h.rootToken_notMem hx hts (he ▸ ht), TokenStore.contains_iff.2 (h.le_of_held hin)⟩
  below {id x ts} hx hts := by
    obtain ⟨up, hup, hjoin⟩ : ∃ up, x.parent? = some up ∧ x.isJoin = false := by
      cases x with
      | top cs => cases hts
      | join j => cases hts
      | memory m => exact ⟨m.parent, rfl, rfl⟩
      | production p => exact ⟨p.parent, rfl, rfl⟩
    obtain ⟨j, hj⟩ := h.parent_join hx hup hjoin
    obtain ⟨js, -, hc⟩ := h.exists_joinOf hj
    exact ⟨up, j, _, hup, hj, (h.child_iff hj id).2 ⟨x, hx, hup⟩, hc.joinFor⟩
  belongs {join id j cs x ts t} hj hc hid hx hts ht := h.exists_belongs hj hc hid (by rw [held_eq_tokens hx hts]; exact ht)
  distinct {id x ts t u} hx hts ht hu := by
    rw [← held_eq_tokens hx hts] at ht hu
    exact h.distinct ht hu

end Sound

/-! ## Histories -/

/-- Whatever rules, facts and resets a network is given, and in whatever order, its tokens are well formed. -/
theorem calls_wellFormed (cs : List Call) : ∃ n rs, calls cs = .ok (n, rs) ∧ n.WellFormed := by
  obtain ⟨n, rs, he, h⟩ := calls_ok cs
  exact ⟨n, rs, he, h.toSound.wellFormed⟩

/-- Tea is drunk by the guest, who likes somebody: a rule that goes on from the tea rule. -/
def partyRule : Rule :=
  ⟨"party", Rule.teaRule.conditions ++ [.between "?guest" (.resource "likes") "?friend"], [], ["?friend"]⟩

/-- The party rule comes in the middle of a batch. -/
def lateCalls : List Call :=
  .rule .teaRule :: Fact.teaFacts.map .fact ++
    [.rule partyRule, .fact ⟨.resource "dan", .resource "drinks", .resource "tea"⟩,
      .fact ⟨.resource "dan", .resource "likes", .resource "eve"⟩]

/-- The memory of the late rule lacks the pair that the production beside it held already. What it holds is well formed. -/
theorem calls_wellFormed_late : ∃ n rs, calls lateCalls = .ok (n, rs) ∧ n.WellFormed ∧ n.held 4 = [2, 4] ∧ n.held 5 = [5] := by
  obtain ⟨n, rs, he, h⟩ := calls_wellFormed lateCalls
  have hrun : (calls lateCalls).map (fun p => (p.1.held 4, p.1.held 5)) = .ok ([2, 4], [5]) := by decide +kernel
  rw [he] at hrun
  obtain ⟨h₄, h₅⟩ := Prod.mk.inj (Except.ok.inj hrun)
  exact ⟨n, rs, he, h, h₄, h₅⟩

end Network

end TripleRules

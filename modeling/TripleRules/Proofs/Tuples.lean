import Mathlib.Data.Set.Function
import TripleRules.Network.Bindings
import TripleRules.Proofs.Intake

/-!
# Tokens and tuples of facts

The naive join of some joins takes every tuple of facts that are routed to the memories of the joins and pass their tests. In a
network that has done all its work, the tokens of a node are the tuples of the naive join of the joins above the node: the facts on
the chain of a token are such a tuple, and each such tuple is on the chain of one token.
-/

namespace TripleRules

/-- A tuple of facts of a list that joins let through, the first join and the first fact first: each fact is routed to the memory
that its join reads, and each test holds between the fact and the one as many levels up as the test says. -/
structure Joined (x : AlphaIndex) (fs : List Fact) (js : List JoinNode) (gs : List Fact) : Prop where
  length : gs.length = js.length
  inserted : ∀ g ∈ gs, g ∈ fs
  routed : ∀ {i : Nat} {j : JoinNode} {g : Fact}, js[i]? = some j → gs[i]? = some g → j.alpha ∈ x.route g
  tested : ∀ {i : Nat} {j : JoinNode} {g : Fact}, js[i]? = some j → gs[i]? = some g → ∀ t ∈ j.tests,
    ∃ k h, k + t.levelsUp = i ∧ gs[k]? = some h ∧ t.newField.read g = t.oldField.read h

/-- Whether a join lets a fact through after the facts of a tuple. -/
structure Admits (x : AlphaIndex) (fs : List Fact) (gs : List Fact) (j : JoinNode) (g : Fact) : Prop where
  inserted : g ∈ fs
  routed : j.alpha ∈ x.route g
  tested : ∀ t ∈ j.tests, ∃ k h, k + t.levelsUp = gs.length ∧ gs[k]? = some h ∧ t.newField.read g = t.oldField.read h

/-- Without joins there is the empty tuple. -/
theorem joined_nil {x : AlphaIndex} {fs gs : List Fact} : Joined x fs [] gs ↔ gs = [] := by
  constructor
  · intro h
    exact List.length_eq_zero_iff.1 h.length
  · rintro rfl
    constructor <;> simp

/-- One more join takes the tuples so far, each with one more fact that it admits. -/
theorem joined_append {x : AlphaIndex} {fs gs : List Fact} {js : List JoinNode} {j : JoinNode} {g : Fact}
    (hup : ∀ t ∈ j.tests, 0 < t.levelsUp) :
    Joined x fs (js ++ [j]) (gs ++ [g]) ↔ Joined x fs js gs ∧ Admits x fs gs j g := by
  constructor
  · intro h
    have hlen : js.length = gs.length := by simpa using h.length.symm
    obtain ⟨hrouted, hroute⟩ := (List.forall_getElem?_append_singleton hlen).1 fun _ _ _ => h.routed
    obtain ⟨htested, htest⟩ := (List.forall_getElem?_append_singleton hlen).1 fun _ _ _ => h.tested
    refine ⟨⟨hlen.symm, fun f hf => h.inserted f (List.mem_append_left _ hf), hrouted _ _ _, fun {i k f} hk hf t ht => ?_⟩,
      h.inserted g (by simp), hroute, fun t ht => ?_⟩
    · obtain ⟨m, e, hm, he, hread⟩ := htested i k f hk hf t ht
      have hlt := (List.getElem?_eq_some_iff.1 hf).1
      exact ⟨m, e, hm, by rw [← he, List.getElem?_append_left (by omega)], hread⟩
    · obtain ⟨m, e, hm, he, hread⟩ := htest t ht
      have hpos := hup t ht
      exact ⟨m, e, hm.trans hlen, by rw [← he, List.getElem?_append_left (by omega)], hread⟩
  · rintro ⟨h, ha⟩
    have hlen := h.length.symm
    -- a fact that a test looks back to is where it was
    have hleft : ∀ {m : Nat} {e : Fact}, gs[m]? = some e → (gs ++ [g])[m]? = some e := by
      intro m e he
      rw [List.getElem?_append_left (List.getElem?_eq_some_iff.1 he).1, he]
    have htested : ∀ (i : Nat) (k : JoinNode) (f : Fact), (js ++ [j])[i]? = some k → (gs ++ [g])[i]? = some f → ∀ t ∈ k.tests,
        ∃ m e, m + t.levelsUp = i ∧ (gs ++ [g])[m]? = some e ∧ t.newField.read f = t.oldField.read e := by
      refine (List.forall_getElem?_append_singleton hlen).2 ⟨fun i k f hk hf t ht => ?_, fun t ht => ?_⟩
      · obtain ⟨m, e, hm, he, hread⟩ := h.tested hk hf t ht
        exact ⟨m, e, hm, hleft he, hread⟩
      · obtain ⟨m, e, hm, he, hread⟩ := ha.tested t ht
        exact ⟨m, e, hm.trans hlen.symm, hleft he, hread⟩
    exact ⟨by simp [h.length], List.forall_mem_append.2 ⟨h.inserted, List.forall_mem_singleton.2 ha.inserted⟩,
      (List.forall_getElem?_append_singleton hlen).2 ⟨fun _ _ _ => h.routed, ha.routed⟩ _ _ _, htested _ _ _⟩

/-- A tuple that one more join lets through has one more fact. -/
theorem exists_of_joined_append {x : AlphaIndex} {fs gs : List Fact} {js : List JoinNode} {j : JoinNode}
    (h : Joined x fs (js ++ [j]) gs) : ∃ hs g, gs = hs ++ [g] := by
  rcases List.eq_nil_or_concat gs with rfl | ⟨hs, g, he⟩
  · have hlen := h.length
    simp at hlen
  · exact ⟨hs, g, by rw [he, List.concat_eq_append]⟩

/-! ## The tests of a condition -/

/-- The test for a field compares its variable with the nearest mention before. -/
theorem Condition.test?_eq_some {earlier : List Condition} {c : Condition} {field : Field} {t : JoinTest} :
    c.test? earlier field = some t ↔ ∃ name distance old, (c.slot field).varName? = some name ∧
      nearestMention? name earlier = some (distance, old) ∧ t = ⟨name, field, distance, old⟩ := by
  unfold Condition.test?
  cases (c.slot field).varName? with
  | none => simp
  | some name =>
    cases hm : nearestMention? name earlier with
    | none => simp [hm]
    | some p =>
      obtain ⟨distance, old⟩ := p
      simp [hm, eq_comm]

/-- The tests of a condition are those of its two variables, where an earlier condition mentions them. -/
theorem Condition.mem_tests {earlier : List Condition} {c : Condition} {t : JoinTest} :
    t ∈ c.tests earlier ↔ ∃ field name distance old, (c.slot field).varName? = some name ∧
      nearestMention? name earlier = some (distance, old) ∧ t = ⟨name, field, distance, old⟩ := by
  simp only [← Condition.test?_eq_some, Condition.tests, List.mem_append, Option.mem_toList]
  constructor
  · rintro (ht | ht)
    · exact ⟨.subject, ht⟩
    · exact ⟨.object, ht⟩
  · rintro ⟨field, ht⟩
    cases field with
    | subject => exact Or.inl ht
    | object => exact Or.inr ht

/-- A test looks back at least one condition. -/
theorem Condition.levelsUp_pos {earlier : List Condition} {c : Condition} {t : JoinTest} (ht : t ∈ c.tests earlier) :
    0 < t.levelsUp := by
  obtain ⟨field, name, distance, old, -, hm, rfl⟩ := Condition.mem_tests.1 ht
  exact (nearestMention?_bounds hm).1

namespace Network

/-! ## The facts on the chain of a token -/

@[simp] theorem matchOf_root (n : Network) : n.matchOf rootToken = [] := by
  rw [matchOf, TokenStore.chainFacts_root]
  rfl

/-- A token has one fact more than its parent. -/
theorem matchOf_of_link {n : Network} (hs : n.tokens.Grounded) {t : TokenId} {l : Link} (hl : n.tokens.link? t = some l) {g : Fact}
    (hg : n.facts[l.fact]? = some g) : n.matchOf t = n.matchOf l.parent ++ [g] := by
  have hf : n.fact? l.fact = some g := hg
  rw [matchOf, TokenStore.chainFacts_of_link hs hl, List.filterMap_cons, hf, List.reverse_cons, matchOf]

/-- Each fact of a chain is a fact of the batch, so the tuple from its end is the chain, place by place. -/
theorem getElem?_reverse_matchOf {n : Network} (hw : n.Wired) (h : n.Paired) {t : TokenId} (ht : t ≤ n.tokens.size) (m : Nat) :
    (n.matchOf t).reverse[m]? = ((n.tokens.chainFacts t)[m]?).bind (n.facts[·]?) := by
  have hall : ∀ g ∈ n.tokens.chainFacts t, ∃ f, n.fact? g = some f := fun g hg =>
    ⟨_, Array.getElem?_eq_getElem (h.lt_of_mem_chainFacts hw ht hg)⟩
  rw [matchOf, List.reverse_reverse]
  generalize n.tokens.chainFacts t = gs at hall
  induction gs generalizing m with
  | nil => rfl
  | cons g gs ih =>
    obtain ⟨f, hf⟩ := hall g List.mem_cons_self
    rw [List.filterMap_cons, hf]
    cases m with
    | zero => exact hf.symm
    | succ m => exact ih m fun k hk => hall k (List.mem_cons_of_mem _ hk)

/-- The fact that a number of steps lead to stands that far from the end of the tuple. -/
theorem getElem?_matchOf {n : Network} (hw : n.Wired) (h : n.Paired) {t : TokenId} (ht : t ≤ n.tokens.size) {k m : Nat}
    (hk : k + m + 1 = (n.matchOf t).length) :
    (n.matchOf t)[k]? = ((n.tokens.chainFacts t)[m]?).bind (n.facts[·]?) := by
  have hm : (n.matchOf t).length - 1 - m = k := by omega
  rw [← getElem?_reverse_matchOf hw h ht, List.getElem?_reverse (by omega), hm]

/-! ## Tests on tuples -/

/-- The tests of a join look back at least one level, and no further than the joins above it. -/
theorem Wired.levelsUp_bounds {n : Network} (h : n.Wired) {join : NodeId} {j : JoinNode} {js : List JoinNode}
    (hj : n.nodes[join]? = some (.join j)) (hp : n.Path topNode j.parent js) {t : JoinTest} (ht : t ∈ j.tests) :
    1 ≤ t.levelsUp ∧ t.levelsUp ≤ js.length := by
  obtain ⟨js', hp', htests⟩ := h.join_tests hj
  obtain rfl := h.path_unique hp hp'
  rw [htests, Condition.mem_tests] at ht
  obtain ⟨field, name, distance, old, -, hm, rfl⟩ := ht
  have hb := nearestMention?_bounds hm
  rw [List.length_map] at hb
  exact hb

/-- Whether a token and a fact pass the tests of a join can be read off the tuple of the token. -/
theorem passes_iff {n : Network} (hw : n.Wired) (h : n.Paired) {join : NodeId} {j : JoinNode} {js : List JoinNode}
    (hj : n.nodes[join]? = some (.join j)) (hp : n.Path topNode j.parent js) {t : TokenId} (ht : t ∈ n.held j.parent)
    (hlen : (n.matchOf t).length = js.length) {f : FactId} {g : Fact} (hg : n.facts[f]? = some g) :
    n.passes j.tests t f = true ↔ ∀ test ∈ j.tests, ∃ k e, k + test.levelsUp = (n.matchOf t).length ∧
      (n.matchOf t)[k]? = some e ∧ test.newField.read g = test.oldField.read e := by
  by_cases h₀ : t = rootToken
  · -- the root is at the top node, and a join there has no tests
    subst h₀
    have htop : j.parent = topNode := h.owner_unique ht (by rw [hw.held_top]; exact List.mem_singleton_self _)
    have hjs : js = [] := hw.path_unique (htop ▸ hp) .here
    have hnone : ∀ test ∈ j.tests, False := fun test htest => by
      have hb := hw.levelsUp_bounds hj hp htest
      rw [hjs, List.length_nil] at hb
      omega
    rw [passes, if_pos rfl]
    exact ⟨fun _ test htest => absurd htest (hnone test), fun _ => rfl⟩
  · have hle := h.le_of_held ht
    have hin : n.tokens.contains t = true := TokenStore.contains_iff.2 hle
    rw [passes, if_neg h₀, if_pos hin, hg]
    simp only [List.all_eq_true]
    refine forall₂_congr fun test htest => ?_
    obtain ⟨hlo, hhi⟩ := hw.levelsUp_bounds hj hp htest
    rw [holds_eq h.grounded hle]
    obtain ⟨k, hk⟩ : ∃ k, k + (test.levelsUp - 1) + 1 = (n.matchOf t).length := ⟨(n.matchOf t).length - test.levelsUp, by omega⟩
    rw [← getElem?_matchOf hw h hle hk]
    have hlt : k < (n.matchOf t).length := by omega
    rw [List.getElem?_eq_getElem hlt]
    constructor
    · intro he
      exact ⟨k, _, by omega, List.getElem?_eq_getElem hlt, beq_iff_eq.1 he⟩
    · rintro ⟨k', e, hk', he, hread⟩
      obtain rfl : k' = k := by omega
      rw [List.getElem?_eq_getElem hlt] at he
      obtain rfl := Option.some.inj he
      exact beq_iff_eq.2 hread

/-! ## What a test reads -/

namespace Sound

variable {n : Network} (h : n.Sound)
include h

/-- The chain of a token has a fact for each join on the way down to its node. -/
theorem length_chainFacts {id : NodeId} {js : List JoinNode} (hp : n.Path topNode id js) {t : TokenId} (ht : t ∈ n.held id) :
    (n.tokens.chainFacts t).length = js.length := by
  induction hp generalizing t with
  | here =>
    rw [h.held_top, List.mem_singleton] at ht
    rw [ht, TokenStore.chainFacts_root]
    rfl
  | down hx hup hj _ ih =>
    obtain ⟨l, hl, -, -, hm⟩ := h.justified (parentOf_eq_some.2 ⟨_, hx, hup⟩) hj ht
    rw [TokenStore.chainFacts_of_link h.grounded hl, List.length_cons, List.length_cons, ih hm.token]

/-- A fact that has arrived is there. -/
theorem exists_fact {a : AlphaId} {f : FactId} (hf : f ∈ n.arrived a) : ∃ g, n.facts[f]? = some g :=
  ⟨_, Array.getElem?_eq_getElem (h.arrived_lt hf)⟩

/-- A tuple has a fact for each join on the way down. -/
theorem length_matchOf {id : NodeId} {js : List JoinNode} (hp : n.Path topNode id js) {t : TokenId} (ht : t ∈ n.held id) :
    (n.matchOf t).length = js.length := by
  induction hp generalizing t with
  | here =>
    rw [h.held_top, List.mem_singleton] at ht
    rw [ht, matchOf_root]
    rfl
  | down hx hup hj _ ih =>
    obtain ⟨l, hl, -, -, hm⟩ := h.justified (parentOf_eq_some.2 ⟨_, hx, hup⟩) hj ht
    obtain ⟨g, hg⟩ := h.exists_fact hm.fact
    rw [matchOf_of_link h.grounded hl hg, List.length_append, ih hm.token]
    rfl

/-- The top node passes on the root, and no other node does. -/
theorem eq_root_iff {id : NodeId} {t : TokenId} (ht : t ∈ n.held id) : t = rootToken ↔ id = topNode := by
  constructor
  · rintro rfl
    exact h.owner_unique ht (by rw [h.held_top]; exact List.mem_singleton_self _)
  · intro htop
    rw [htop, h.held_top] at ht
    exact List.mem_singleton.1 ht

/-- The token that a test of a join looks back to is there, and so is its fact. -/
theorem exists_earlier {join : NodeId} {j : JoinNode} (hj : n.nodes[join]? = some (.join j)) {t : TokenId}
    (ht : t ∈ n.held j.parent) {test : JoinTest} (htest : test ∈ j.tests) :
    ∃ a f old, n.tokens.ancestor? t (test.levelsUp - 1) = some a ∧ n.tokens.fact? a = some f ∧ n.facts[f]? = some old := by
  obtain ⟨js, hpath, -⟩ := h.join_tests hj
  obtain ⟨hlo, hhi⟩ := h.levelsUp_bounds hj hpath htest
  have hle := h.le_of_held ht
  have hlt : test.levelsUp - 1 < (n.tokens.chainFacts t).length := by
    rw [h.length_chainFacts hpath ht]
    omega
  have hget := List.getElem?_eq_getElem hlt
  have hf := h.lt_of_mem_chainFacts h.toWired hle (List.getElem_mem hlt)
  rw [TokenStore.getElem?_chainFacts h.grounded hle] at hget
  obtain ⟨a, ha, hfact⟩ := Option.bind_eq_some_iff.1 hget
  exact ⟨a, _, _, ha, hfact, Array.getElem?_eq_getElem hf⟩

end Sound

/-! ## The tuples of a node -/

namespace Finished

variable {n : Network} (h : n.Finished) {id : NodeId} {js : List JoinNode}
include h

/-- A fact of the batch has one handle. -/
theorem facts_inj {f f' : FactId} {g : Fact} (hf : n.facts[f]? = some g) (hf' : n.facts[f']? = some g) : f = f' := by
  have hlt := (Array.getElem?_eq_some_iff.1 hf).1
  rw [← Array.getElem?_toList] at hf hf'
  exact (List.getElem?_inj hlt h.facts_nodup).1 (hf.trans hf'.symm)

/-- The facts on the chain of a token are a tuple that the joins above let through. -/
theorem joined_of_held (hp : n.Path topNode id js) {t : TokenId} (ht : t ∈ n.held id) :
    Joined n.alpha n.facts.toList js.reverse (n.matchOf t) := by
  induction hp generalizing t with
  | here =>
    rw [h.held_top, List.mem_singleton] at ht
    rw [ht, matchOf_root]
    exact joined_nil.2 rfl
  | @down id up x j js hx hup hj hpath ih =>
    obtain ⟨l, hl, -, -, hm⟩ := h.justified (parentOf_eq_some.2 ⟨x, hx, hup⟩) hj ht
    have hjoin := ih hm.token
    obtain ⟨g, hg, hroute⟩ := h.arrived_iff.1 hm.fact
    have hlen : (n.matchOf l.parent).length = js.length := by rw [hjoin.length, List.length_reverse]
    rw [List.reverse_cons, matchOf_of_link h.grounded hl hg,
      joined_append fun test htest => (h.levelsUp_bounds hj hpath htest).1]
    refine ⟨hjoin, ⟨?_, hroute, (passes_iff h.toWired h.toPaired hj hpath hm.token hlen hg).1 hm.passes⟩⟩
    exact Array.mem_toList_iff.2 (Array.mem_of_getElem? hg)

/-- Two tokens of a node have different facts on their chains. -/
theorem matchOf_inj (hp : n.Path topNode id js) {t t' : TokenId} (ht : t ∈ n.held id) (ht' : t' ∈ n.held id)
    (he : n.matchOf t = n.matchOf t') : t = t' := by
  induction hp generalizing t t' with
  | here =>
    rw [h.held_top, List.mem_singleton] at ht ht'
    rw [ht, ht']
  | @down id up x j js hx hup hj hpath ih =>
    obtain ⟨l, hl, -, -, hm⟩ := h.justified (parentOf_eq_some.2 ⟨x, hx, hup⟩) hj ht
    obtain ⟨l', hl', -, -, hm'⟩ := h.justified (parentOf_eq_some.2 ⟨x, hx, hup⟩) hj ht'
    obtain ⟨g, hg, -⟩ := h.arrived_iff.1 hm.fact
    obtain ⟨g', hg', -⟩ := h.arrived_iff.1 hm'.fact
    rw [matchOf_of_link h.grounded hl hg, matchOf_of_link h.grounded hl' hg'] at he
    obtain ⟨hpar, hfact⟩ := List.append_inj' he rfl
    obtain rfl : g = g' := by simpa using hfact
    refine h.distinct ht ht' ?_ ?_
    · rw [TokenStore.parent?_eq_some hl, TokenStore.parent?_eq_some hl', ih hm.token hm'.token hpar]
    · rw [TokenStore.fact?_eq_some hl, TokenStore.fact?_eq_some hl', h.facts_inj hg hg']

/-- Every tuple that the joins above let through is on the chain of a token. -/
theorem exists_held_of_joined (hp : n.Path topNode id js) {gs : List Fact} (hg : Joined n.alpha n.facts.toList js.reverse gs) :
    ∃ t ∈ n.held id, n.matchOf t = gs := by
  induction hp generalizing gs with
  | here =>
    obtain rfl := joined_nil.1 hg
    exact ⟨rootToken, by rw [h.held_top]; exact List.mem_singleton_self _, matchOf_root n⟩
  | @down id up x j js hx hup hj hpath ih =>
    rw [List.reverse_cons] at hg
    obtain ⟨hs, g, rfl⟩ := exists_of_joined_append hg
    rw [joined_append fun test htest => (h.levelsUp_bounds hj hpath htest).1] at hg
    obtain ⟨hjoin, hadm⟩ := hg
    obtain ⟨p, hpheld, rfl⟩ := ih hjoin
    obtain ⟨f, hf⟩ := Array.mem_iff_getElem?.1 (Array.mem_toList_iff.1 hadm.inserted)
    have hlen : (n.matchOf p).length = js.length := by rw [hjoin.length, List.length_reverse]
    have hm : n.Meets j p f := ⟨hpheld, h.arrived_iff.2 ⟨g, hf, hadm.routed⟩,
      (passes_iff h.toWired h.toPaired hj hpath hpheld hlen hf).2 hadm.tested⟩
    obtain ⟨t, ht, l, hl, rfl, rfl⟩ := h.exists_link_of_delivered (parentOf_eq_some.2 ⟨x, hx, hup⟩) hj (h.delivered hj hm)
    exact ⟨t, ht, matchOf_of_link h.grounded hl hf⟩

/-- The tokens of a node are the tuples of the naive join of the joins above it. -/
theorem bijOn_matchOf (hp : n.Path topNode id js) :
    Set.BijOn n.matchOf {t | t ∈ n.held id} {gs | Joined n.alpha n.facts.toList js.reverse gs} :=
  ⟨fun _ ht => h.joined_of_held hp ht, fun _ ht _ ht' he => h.matchOf_inj hp ht ht' he,
    fun _ hg => h.exists_held_of_joined hp hg⟩

end Finished

end Network

end TripleRules

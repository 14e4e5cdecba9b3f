import TripleRules.Proofs.Inequalities
import TripleRules.Proofs.PrefixTrie

/-!
# What one more rule does to the others

One more rule hangs new nodes below shared joins, gives new readers to shared memories, and changes the handles of tokens and the
order of the work for all. None of this shows in the matches of the rules that were there: they are the tuples of the naive join,
which is told by the joins above the production and by where facts go. Where facts go is changed only by the objects that the new
rule asks the shared memories to keep out.
-/

namespace TripleRules

/-- Tuples go on to be let through where the tests compare the same places and each fact is routed to the memory of its join. -/
theorem Joined.transfer {x y : AlphaIndex} {fs fs' gs : List Fact} {js js' : List JoinNode} (h : Joined x fs js gs)
    (hf : ∀ g ∈ fs, g ∈ fs') (hlen : js'.length = js.length)
    (htests : ∀ {k : Nat} {j j' : JoinNode}, js[k]? = some j → js'[k]? = some j' → ∀ t' ∈ j'.tests, ∃ t ∈ j.tests,
      t.levelsUp = t'.levelsUp ∧ t.newField = t'.newField ∧ t.oldField = t'.oldField)
    (hroute : ∀ {k : Nat} {j j' : JoinNode} {g : Fact}, js[k]? = some j → js'[k]? = some j' → gs[k]? = some g →
      j'.alpha ∈ y.route g) :
    Joined y fs' js' gs := by
  have hold : ∀ {k : Nat} {j' : JoinNode}, js'[k]? = some j' → ∃ j, js[k]? = some j := by
    intro k j' hj'
    have hlt := (List.getElem?_eq_some_iff.1 hj').1
    rw [hlen] at hlt
    exact ⟨_, List.getElem?_eq_getElem hlt⟩
  refine ⟨h.length.trans hlen.symm, fun g hg => hf g (h.inserted g hg), fun hj' hg => ?_, fun hj' hg t' ht' => ?_⟩
  · obtain ⟨j, hj⟩ := hold hj'
    exact hroute hj hj' hg
  · obtain ⟨j, hj⟩ := hold hj'
    obtain ⟨t, ht, hup, hnew, holdField⟩ := htests hj hj' t' ht'
    rw [← hup, ← hnew, ← holdField]
    exact h.tested hj hg t ht

/-- Tuples go on to be let through where the memories of the joins and the tests are the same and each fact is still routed. -/
theorem Joined.of_same {x y : AlphaIndex} {fs fs' gs : List Fact} {js js' : List JoinNode} (h : Joined x fs js gs)
    (hf : ∀ g ∈ fs, g ∈ fs') (hlen : js'.length = js.length)
    (hsame : ∀ {k : Nat} {j j' : JoinNode}, js[k]? = some j → js'[k]? = some j' → j'.alpha = j.alpha ∧ j'.tests = j.tests)
    (hroute : ∀ {k : Nat} {j : JoinNode} {g : Fact}, js[k]? = some j → gs[k]? = some g → j.alpha ∈ y.route g) :
    Joined y fs' js' gs := by
  refine h.transfer hf hlen (fun hj hj' t' ht' => ?_) fun hj hj' hg => ?_
  · rw [(hsame hj hj').2] at ht'
    exact ⟨t', ht', rfl, rfl, rfl⟩
  · rw [(hsame hj hj').1]
    exact hroute hj hg

/-- A fact is routed to a memory by the key of the memory and the objects that the memory keeps out. -/
theorem AlphaIndex.Keyed.mem_route_iff {x : AlphaIndex} (h : x.Keyed) {a : AlphaId} {m : AlphaMemory} (hm : x.get? a = some m)
    (f : Fact) : a ∈ x.route f ↔ m.key = constantKey f.predicate f.object ∨
      (m.key = f.predicate.text ∧ ¬ (m.anyObject = true ∧ f.object ∈ m.excluded)) := by
  have hexcludes : x.excludes a f.object = true ↔ m.anyObject = true ∧ f.object ∈ m.excluded := by
    rw [excludes, hm, Option.any_some, AlphaMemory.excludes, Bool.and_eq_true, List.contains_iff_mem]
  rw [mem_route, h _ a, h _ a, hm, ← Bool.not_eq_true, hexcludes]
  simp only [Option.some.injEq, exists_eq_left']

namespace Network

/-- A rule that is compiled between two batches leaves nothing behind but nodes and memories. -/
theorem Widens.clean {n n' : Network} (h : n.Widens n') (hc : n.Clean) : n'.Clean where
  tokens := h.tokens.trans hc.tokens
  facts := h.facts.trans hc.facts
  seen := h.seen.trans hc.seen
  stored := h.stored.trans hc.stored
  satisfied := h.satisfied.trans hc.satisfied
  pending := h.pending.trans hc.pending
  touchedAlphas := h.touchedAlphas.trans hc.touchedAlphas
  touchedNodes := h.touchedNodes.trans hc.touchedNodes
  held := fun hid => (h.held_eq _).trans (hc.held hid)
  arrived := fun a => (h.arrived a).trans (hc.arrived a)

/-! ## Two networks, one of them with one rule more -/

/-- Two networks that have done all the work of the same facts. The second one has one rule more. -/
structure OneMore (n m : Network) (rs : List Rule) (r : Rule) : Prop where
  left : n.Finished
  right : m.Finished
  rules : empty.addRules rs = .ok n.bare
  more : empty.addRules (rs ++ [r]) = .ok m.bare
  facts : ∀ g, g ∈ n.facts.toList ↔ g ∈ m.facts.toList

namespace OneMore

variable {n m : Network} {rs : List Rule} {r : Rule} (h : n.OneMore m rs r)
include h

/-- The rules of the second network are those of the first one, and one that was compiled after them. -/
theorem exists_addRule : ∃ new, n.bare.addRule r = .ok (new, m.bare) := by
  have hmore := h.more
  have hrules := h.rules
  rw [addRules] at hmore hrules
  rw [List.foldlM_append, hrules] at hmore
  obtain ⟨n₁, hr, he⟩ := bind_eq_ok_iff.1 hmore
  obtain rfl := Except.ok.inj hr
  rw [List.foldlM_cons] at he
  obtain ⟨m₁, hr', he⟩ := bind_eq_ok_iff.1 he
  obtain ⟨⟨new, m₂⟩, hadd, rfl⟩ := map_eq_ok_iff.1 hr'
  obtain rfl := Except.ok.inj he
  exact ⟨new, hadd⟩

theorem widens : n.bare.Widens m.bare := by
  obtain ⟨new, ha⟩ := h.exists_addRule
  have hb : n.bare.bare = n.bare := n.bare_bare
  obtain ⟨new', n', he, -, hwid, -⟩ :=
    addRule_ok (h.left.toWired.of_bare hb) ((registered_of_addRules h.rules).of_bare hb) (check_of_addRule ha)
  obtain ⟨-, rfl⟩ := Prod.mk.inj (Except.ok.inj (ha.symm.trans he))
  exact hwid

/-- The productions of the earlier rules keep their handles. -/
theorem production {i : Nat} {id : NodeId} (hid : n.productions[i]? = some id) : m.productions[i]? = some id := by
  obtain ⟨new, ha⟩ := h.exists_addRule
  have hp : m.productions = n.productions.push new := (production_addRule (h.left.toWired.of_bare n.bare_bare) ha).1
  rw [hp, Array.getElem?_push_lt (Array.getElem?_eq_some_iff.1 hid).1]
  exact congrArg some (Array.getElem?_eq_some_iff.1 hid).2

/-- The production of an earlier rule is that of the same rule, and is reached through joins for its conditions. -/
theorem exists_production {i : Nat} {q : Rule} {id : NodeId} (hi : rs[i]? = some q) (hid : n.productions[i]? = some id) :
    ∃ p p' js, n.nodes[id]? = some (.production p) ∧ m.nodes[id]? = some (.production p') ∧ p'.select = p.select ∧
      n.Reaches id js q.conditions := by
  have hi' : (rs ++ [r])[i]? = some q := List.getElem?_append_singleton_eq_some.2 (Or.inl hi)
  obtain ⟨p, js, hp, -, hsel, hpath, hjs⟩ := (registered_of_addRules h.rules).production hid hi
  obtain ⟨p', -, hp', -, hsel', -⟩ := (registered_of_addRules h.more).production (h.production hid) hi'
  have hreach := hpath.reaches h.left.toWired
  rw [List.map_reverse, hjs, List.reverse_reverse] at hreach
  exact ⟨p, p', js.reverse, hp, hp', hsel'.trans hsel.symm, hreach⟩

/-! ### The alpha memories -/

/-- A key goes on to stand for its memory. -/
theorem find?_byKey {k : String} {a : AlphaId} (hk : n.alpha.byKey.find? k = some a) : m.alpha.byKey.find? k = some a := by
  have hserves := serves_of_bare h.rules rfl
  obtain ⟨mem, hmem, rfl⟩ := (hserves.keyed k a).1 hk
  -- the key is that of a condition of some rule, and its join reads the memory
  obtain ⟨q, hq, -⟩ := hserves.first hmem
  have hkey : q.key = mem.key := by
    have hfound := List.find?_some hq
    exact beq_iff_eq.1 hfound
  obtain ⟨r', hr', hin⟩ := List.mem_flatMap.1 (List.mem_of_find?_eq_some hq)
  obtain ⟨c, hc, rfl⟩ := List.mem_map.1 hin
  obtain ⟨id, js, hpath, hjs⟩ := (registered_of_addRules h.rules).exists_way hr'
  rw [← List.mem_reverse, ← hjs, List.mem_map] at hc
  obtain ⟨j, hj, rfl⟩ := hc
  obtain ⟨join, hjoin⟩ := hpath.exists_join hj
  obtain ⟨cs, hjoin'⟩ := h.widens.join ((join_iff_of_bare n.bare_bare join j).2 hjoin)
  have ha : n.alpha.byKey.find? mem.key = some j.alpha := hkey ▸ h.left.join_alpha hjoin
  have ha' := h.right.join_alpha ((join_iff_of_bare m.bare_bare join _).1 hjoin')
  obtain rfl := Option.some.inj (hk.symm.trans ha)
  exact hkey ▸ ha'

/-- A memory is still the one of its key and its kind, and keeps out what it did and what the new rule asks for. -/
theorem exists_memory {a : AlphaId} {mem : AlphaMemory} (hmem : n.alpha.get? a = some mem) :
    ∃ mem', m.alpha.get? a = some mem' ∧ mem'.key = mem.key ∧ mem'.anyObject = mem.anyObject ∧
      ∀ o, o ∈ mem'.excluded ↔ o ∈ mem.excluded ∨ ∃ c ∈ r.conditions, c.key = mem.key ∧ o ∈ r.excludedBy c := by
  have hserves := serves_of_bare h.rules rfl
  have hserves' := serves_of_bare h.more rfl
  have hrequests : (rs ++ [r]).flatMap Rule.requests = rs.flatMap Rule.requests ++ r.requests := by simp
  rw [hrequests] at hserves'
  obtain ⟨mem', hmem', hkey⟩ := (hserves'.keyed _ a).1 (h.find?_byKey ((hserves.keyed mem.key a).2 ⟨mem, hmem, rfl⟩))
  refine ⟨mem', hmem', hkey, ?_, fun o => ?_⟩
  · obtain ⟨q, hq, hany⟩ := hserves.first hmem
    obtain ⟨q', hq', hany'⟩ := hserves'.first hmem'
    rw [hkey, List.find?_append, hq, Option.some_or] at hq'
    rw [hany, hany', Option.some.inj hq']
  · rw [hserves'.excluded hmem', hserves.excluded hmem, hkey]
    simp only [List.mem_append, or_and_right, exists_or]
    refine or_congr_right ⟨?_, ?_⟩
    · rintro ⟨q, hq, hk, ho⟩
      obtain ⟨c, hc, rfl⟩ := List.mem_map.1 hq
      exact ⟨c, hc, hk, ho⟩
    · rintro ⟨c, hc, hk, ho⟩
      exact ⟨_, List.mem_map.2 ⟨c, hc, rfl⟩, hk, ho⟩

/-- No fact is routed to a memory that it was not routed to before, the new memories apart. -/
theorem mem_route_of {a : AlphaId} {mem : AlphaMemory} (hmem : n.alpha.get? a = some mem) {f : Fact} (hf : a ∈ m.alpha.route f) :
    a ∈ n.alpha.route f := by
  obtain ⟨mem', hmem', hkey, hany, hex⟩ := h.exists_memory hmem
  rw [h.right.keyed.mem_route_iff hmem', hkey, hany, hex] at hf
  rw [h.left.keyed.mem_route_iff hmem]
  exact hf.imp_right (And.imp_right fun hnot hin => hnot ⟨hin.1, Or.inl hin.2⟩)

/-- A fact is routed to a memory as before, unless the new rule has its object kept out. -/
theorem mem_route_iff {a : AlphaId} {mem : AlphaMemory} (hmem : n.alpha.get? a = some mem) (f : Fact) :
    (a ∈ m.alpha.route f ↔ a ∈ n.alpha.route f) ∨
      f.object ∉ mem.excluded ∧ ∃ c ∈ r.conditions, c.key = mem.key ∧ f.object ∈ r.excludedBy c := by
  obtain ⟨mem', hmem', hkey, hany, hex⟩ := h.exists_memory hmem
  rw [h.right.keyed.mem_route_iff hmem', h.left.keyed.mem_route_iff hmem, hkey, hany, hex]
  by_cases hin : f.object ∈ mem.excluded
  · exact Or.inl (by simp only [hin, true_or])
  · by_cases hnew : ∃ c ∈ r.conditions, c.key = mem.key ∧ f.object ∈ r.excludedBy c
    · exact Or.inr ⟨hin, hnew⟩
    · exact Or.inl (by simp only [hin, hnew, or_false])

/-! ### The tuples of a node -/

/-- The way down to a node leads through the same joins: they read the same memories and make the same tests. -/
theorem reaches {id : NodeId} {js : List JoinNode} {cs : List Condition} (hp : n.Reaches id js cs) :
    ∃ js', m.Reaches id js' cs ∧ js'.length = js.length ∧
      ∀ {k : Nat} {j j' : JoinNode}, js[k]? = some j → js'[k]? = some j' → j'.alpha = j.alpha ∧ j'.tests = j.tests := by
  obtain ⟨js', hpath, hconds⟩ := h.widens.path (hp.path.of_bare n.bare_bare)
  have hp' := (hpath.of_bare m.bare_bare.symm).reaches h.right.toWired
  rw [List.map_reverse, hconds, List.map_reverse, List.reverse_reverse, hp.conditions] at hp'
  have hlen : js'.reverse.length = js.length := by
    have hmap := congrArg List.length (hp'.conditions.trans hp.conditions.symm)
    rw [List.length_map, List.length_map] at hmap
    exact hmap
  refine ⟨js'.reverse, hp', hlen, fun {k j j'} hj hj' => ?_⟩
  have hc : j'.condition = j.condition := by
    have hget : (js'.reverse.map (·.condition))[k]? = (js.map (·.condition))[k]? := by rw [hp'.conditions, hp.conditions]
    rw [List.getElem?_map, List.getElem?_map, hj, hj'] at hget
    exact Option.some.inj hget
  have ha := h.find?_byKey (hp.alpha j (List.mem_of_getElem? hj))
  have ha' := hp'.alpha j' (List.mem_of_getElem? hj')
  rw [hc] at ha'
  exact ⟨Option.some.inj (ha'.symm.trans ha), by rw [hp'.tests hj', hp.tests hj, hc]⟩

/-- A join of the first network reads one of its memories. -/
theorem exists_get? {id : NodeId} {js : List JoinNode} {cs : List Condition} (hp : n.Reaches id js cs) {j : JoinNode} (hj : j ∈ js) :
    ∃ mem, n.alpha.get? j.alpha = some mem := by
  obtain ⟨mem, hmem, -⟩ := (h.left.keyed _ _).1 (hp.alpha j hj)
  exact ⟨mem, hmem⟩

/-- A node holds the tuples from before of which each fact is still routed to the memory of its join. -/
theorem image_matchOf {id : NodeId} {js : List JoinNode} {cs : List Condition} (hp : n.Reaches id js cs) :
    m.matchOf '' {t | t ∈ m.held id} = {gs | gs ∈ n.matchOf '' {t | t ∈ n.held id} ∧
      ∀ {k : Nat} {j : JoinNode} {g : Fact}, js[k]? = some j → gs[k]? = some g → j.alpha ∈ m.alpha.route g} := by
  obtain ⟨js', hp', hlen, hsame⟩ := h.reaches hp
  rw [(h.left.bijOn_matchOf hp.path).image_eq, (h.right.bijOn_matchOf hp'.path).image_eq, List.reverse_reverse, List.reverse_reverse]
  ext gs
  constructor
  · intro hg
    have hroute : ∀ {k : Nat} {j : JoinNode} {g : Fact}, js[k]? = some j → gs[k]? = some g → j.alpha ∈ m.alpha.route g := by
      intro k j g hj hgk
      have hlt := (List.getElem?_eq_some_iff.1 hj).1
      rw [← hlen] at hlt
      have hj' := List.getElem?_eq_getElem hlt
      rw [← (hsame hj hj').1]
      exact hg.routed hj' hgk
    refine ⟨hg.of_same (fun g hin => (h.facts g).2 hin) hlen.symm (fun hj' hj => ?_) fun hj' hgk => ?_, hroute⟩
    · exact ⟨(hsame hj hj').1.symm, (hsame hj hj').2.symm⟩
    · have hlt := (List.getElem?_eq_some_iff.1 hj').1
      rw [hlen] at hlt
      have hj := List.getElem?_eq_getElem hlt
      obtain ⟨mem, hmem⟩ := h.exists_get? hp (List.mem_of_getElem? hj)
      rw [(hsame hj hj').1]
      exact h.mem_route_of hmem (hroute hj hgk)
  · rintro ⟨hg, hroute⟩
    exact hg.of_same (fun g hin => (h.facts g).1 hin) hlen hsame hroute

/-! ### A rule without inequalities -/

/-- Without inequalities a rule asks for nothing to be kept out, so every node holds the tuples that it held. -/
theorem image_matchOf_eq (hr : r.inequalities = []) {id : NodeId} {js : List JoinNode} {cs : List Condition}
    (hp : n.Reaches id js cs) : m.matchOf '' {t | t ∈ m.held id} = n.matchOf '' {t | t ∈ n.held id} := by
  rw [h.image_matchOf hp, (h.left.bijOn_matchOf hp.path).image_eq, List.reverse_reverse]
  ext gs
  refine and_iff_left_of_imp fun hg => fun {k j g} hj hgk => ?_
  obtain ⟨mem, hmem⟩ := h.exists_get? hp (List.mem_of_getElem? hj)
  rcases h.mem_route_iff hmem g with hiff | ⟨-, c, -, -, hin⟩
  · exact hiff.2 (hg.routed hj hgk)
  · rw [Rule.excludedBy] at hin
    split at hin
    · obtain ⟨i, hi, -⟩ := Rule.mem_excludedFor.1 hin
      rw [hr] at hi
      exact absurd hi List.not_mem_nil
    · exact absurd hin List.not_mem_nil

/-- A production that holds the same tuples gives the same bindings. -/
theorem leastBindings_eq {id : NodeId} {p p' : ProductionNode} {js : List JoinNode} {cs : List Condition}
    (hn : n.nodes[id]? = some (.production p)) (hm : m.nodes[id]? = some (.production p')) (hsel : p'.select = p.select)
    (hp : n.Reaches id js cs) (hsame : m.matchOf '' {t | t ∈ m.held id} = n.matchOf '' {t | t ∈ n.held id}) :
    m.leastBindings p' = n.leastBindings p := by
  obtain ⟨js', hp', -, -⟩ := h.reaches hp
  have hleast : (m.leastToken? (m.held id).reverse).map m.matchOf = (n.leastToken? (n.held id).reverse).map n.matchOf :=
    map_leastToken?_eq (by simpa using hsame)
  rw [leastBindings_eq_map h.right.toSound hm hp', leastBindings_eq_map h.left.toSound hn hp, hsel, hleast]

end OneMore

/-- Where the names of the rules are distinct, the bindings under the name of a rule are those of its production. -/
theorem bindings_eq_leastBindings {n : Network} (h : n.Finished) {rs : List Rule} (hr : n.Registered rs)
    (hn : (rs.map (·.name)).Nodup) {i : Nat} {q : Rule} {id : NodeId} {p : ProductionNode} (hi : rs[i]? = some q)
    (hid : n.productions[i]? = some id) (hp : n.nodes[id]? = some (.production p)) :
    n.bindings q.name = .ok (n.leastBindings p) := by
  have hnew : n.Newest rs q.name id :=
    ⟨i, q, hi, rfl, hid, fun k q' hk hname => Nat.le_of_eq (index_unique hn hk hi hname)⟩
  have hrule : p.rule = q.name := by
    obtain ⟨p', -, hp', hname, -⟩ := hr.production hid hi
    obtain rfl := Node.production.inj (Option.some.inj (hp.symm.trans hp'))
    exact hname
  have hspeaks := h.speaks_newest hr hnew fun id' p' hp' hname hne =>
    absurd (hr.production_unique hn hp' hp (hname.trans hrule.symm)) hne
  obtain ⟨m, hall, -⟩ := allMatches_ok h.toMarked
  obtain ⟨p', hanswers⟩ := h.exists_answersFor hr hall hspeaks
  obtain rfl := Node.production.inj (Option.some.inj (hp.symm.trans hanswers.node))
  exact hanswers.bindings

/-- Without inequalities, and where the names are distinct, each name has the bindings that it had. -/
theorem OneMore.bindings_eq {n m : Network} {rs : List Rule} {r : Rule} (h : n.OneMore m rs r) (hnone : r.inequalities = [])
    (hn : ((rs ++ [r]).map (·.name)).Nodup) {q : Rule} (hq : q ∈ rs) : m.bindings q.name = n.bindings q.name := by
  have hreg := registered_of_addRules h.rules
  obtain ⟨i, hi⟩ := List.mem_iff_getElem?.1 hq
  obtain ⟨id, -, -, hid, -⟩ := hreg.reaches h.left.toWired hi
  obtain ⟨p, p', js, hp, hp', hsel, hreach⟩ := h.exists_production hi hid
  have hn' : (rs.map (·.name)).Nodup := by
    rw [List.map_append] at hn
    exact (List.nodup_append.1 hn).1
  have hi' : (rs ++ [r])[i]? = some q := List.getElem?_append_singleton_eq_some.2 (Or.inl hi)
  have hright := bindings_eq_leastBindings h.right (registered_of_addRules h.more) hn hi' (h.production hid) hp'
  rw [hright, bindings_eq_leastBindings h.left hreg hn' hi hid hp,
    h.leastBindings_eq hp hp' hsel hreach (h.image_matchOf_eq hnone hreach)]

/-! ## Batches before and after one more rule -/

/-- A rule that is accepted before a reset or after it leaves a network without a batch and with one rule more. -/
theorem clean_of_oneMore {n n₁ : Network} (h : n.Finished) {rs : List Rule} (hrules : empty.addRules rs = .ok n.bare) {r : Rule}
    {new : NodeId} (hstart : (∃ n', n.addRule r = .ok (new, n') ∧ n₁ = n'.reset) ∨ n.reset.addRule r = .ok (new, n₁)) :
    n₁.Wired ∧ n₁.Clean ∧ empty.addRules (rs ++ [r]) = .ok n₁.bare := by
  have hreg := registered_of_addRules hrules
  rcases hstart with ⟨n', ha, rfl⟩ | ha
  · obtain ⟨new', n'', he', hw', hwid, -⟩ := addRule_ok h.toWired hreg (check_of_addRule ha)
    obtain ⟨-, rfl⟩ := Prod.mk.inj (Except.ok.inj (ha.symm.trans he'))
    refine ⟨hw'.of_bare (bare_reset n'), clean_reset hw' (hwid.recorded h.toRecorded), ?_⟩
    rw [bare_reset]
    exact addRules_append_singleton hrules ha
  · have hreset := bare_reset n
    obtain ⟨new', n'', he', hw', hwid, -⟩ :=
      addRule_ok (h.toWired.of_bare hreset) (hreg.of_bare hreset) (check_of_addRule ha)
    obtain ⟨-, rfl⟩ := Prod.mk.inj (Except.ok.inj (ha.symm.trans he'))
    refine ⟨hw', hwid.clean (clean_reset h.toWired h.toRecorded), addRules_append_singleton ?_ ha⟩
    rw [hreset]
    exact hrules

/-- For any rules that a new network accepts, any facts inserted after them, and any rule that it accepts then, before a reset or
after it: let the facts be inserted again. Then every production from before holds those of its tuples from before of which each fact
is still routed to the memory that its condition reads. A fact is routed to a memory from before as it was, unless the new rule has
added the object of the fact to those that the memory keeps out. And if the new rule has no inequalities, every production from before
holds the same tuples and has the same bindings, and so has every name, if the names are distinct. -/
theorem held_of_oneMore {rs : List Rule} {n₀ : Network} (hr : empty.addRules rs = .ok n₀) (fs : List Fact) :
    ∃ n, n₀.addFacts fs = .ok n ∧ ∀ (r : Rule) (new : NodeId) (n₁ : Network),
      (∃ n', n.addRule r = .ok (new, n') ∧ n₁ = n'.reset) ∨ n.reset.addRule r = .ok (new, n₁) →
      ∃ m, n₁.addFacts fs = .ok m ∧
        (∀ (id : NodeId) (p : ProductionNode), n.nodes[id]? = some (.production p) →
          ∃ (i : Nat) (q : Rule) (js : List JoinNode) (p' : ProductionNode), rs[i]? = some q ∧ n.productions[i]? = some id ∧
            m.productions[i]? = some id ∧ n.Reaches id js q.conditions ∧ m.nodes[id]? = some (.production p') ∧
            m.matchOf '' {t | t ∈ m.held id} = {gs | gs ∈ n.matchOf '' {t | t ∈ n.held id} ∧
              ∀ {k : Nat} {j : JoinNode} {g : Fact}, js[k]? = some j → gs[k]? = some g → j.alpha ∈ m.alpha.route g} ∧
            (r.inequalities = [] → m.matchOf '' {t | t ∈ m.held id} = n.matchOf '' {t | t ∈ n.held id} ∧
              m.leastBindings p' = n.leastBindings p)) ∧
        (∀ (a : AlphaId) (mem : AlphaMemory), n.alpha.get? a = some mem → ∃ mem', m.alpha.get? a = some mem' ∧ mem'.key = mem.key ∧
          ∀ f, (a ∈ m.alpha.route f ↔ a ∈ n.alpha.route f) ∨ f.object ∉ mem.excluded ∧ f.object ∈ mem'.excluded ∧
            ∃ c ∈ r.conditions, c.key = mem.key ∧ f.object ∈ r.excludedBy c) ∧
        (r.inequalities = [] → ((rs ++ [r]).map (·.name)).Nodup → ∀ q ∈ rs, m.bindings q.name = n.bindings q.name) := by
  obtain ⟨hw₀, hr₀⟩ := wired_addRules wired_empty registered_empty hr
  have hclean := clean_of_bare hw₀ (bare_of_addRules hr)
  obtain ⟨n, he, h, hb, hf⟩ := addFacts_ok (finished_of_clean hw₀ hclean) fs
  have hrules : empty.addRules rs = .ok n.bare := by rw [hb, bare_of_addRules hr, hr]
  have hreg := registered_of_addRules hrules
  refine ⟨n, he, fun r new n₁ hstart => ?_⟩
  obtain ⟨hw₁, hc₁, hmore⟩ := clean_of_oneMore h hrules hstart
  obtain ⟨m, hm, h', hb', hf'⟩ := addFacts_ok (finished_of_clean hw₁ hc₁) fs
  have hone : n.OneMore m rs r := by
    refine ⟨h, h', hrules, by rw [hb']; exact hmore, fun g => ?_⟩
    rw [Array.mem_toList_iff, Array.mem_toList_iff, hf, hf', hclean.facts, hc₁.facts]
  refine ⟨m, hm, fun id p hp => ?_, fun a mem hmem => ?_, fun hnone hn q hq => hone.bindings_eq hnone hn hq⟩
  · obtain ⟨i, q, hid, hi, -⟩ := hreg.exists_rule hp
    obtain ⟨p₀, p', js, hp₀, hp', hsel, hreach⟩ := hone.exists_production hi hid
    obtain rfl := Node.production.inj (Option.some.inj (hp₀.symm.trans hp))
    refine ⟨i, q, js, p', hi, hid, hone.production hid, hreach, hp', hone.image_matchOf hreach, fun hnone => ?_⟩
    have hsame := hone.image_matchOf_eq hnone hreach
    exact ⟨hsame, hone.leastBindings_eq hp hp' hsel hreach hsame⟩
  · obtain ⟨mem', hmem', hkey, -, hex⟩ := hone.exists_memory hmem
    refine ⟨mem', hmem', hkey, fun f => (hone.mem_route_iff hmem f).imp_right ?_⟩
    rintro ⟨hnot, hnew⟩
    exact ⟨hnot, (hex _).2 (Or.inr hnew), hnew⟩

/-- Alice likes Bob and the cat. -/
def likings : List Fact := [.affection, ⟨.resource "alice", .resource "likes", .resource "cat"⟩]

/-- A rule that keeps Bob out takes a match from the rule that it shares the memory with, and the tea rule takes none. -/
theorem held_of_oneMore_except : ∃ n₀ n, empty.addRules [.likesRule] = .ok n₀ ∧ n₀.addFacts likings = .ok n ∧
    (n.held 2).length = 2 ∧ 0 ∈ n.alpha.route .affection ∧
    (∃ new n' m mem', n.addRule (.except "likes" "?x" "?y" "bob") = .ok (new, n') ∧ n'.reset.addFacts likings = .ok m ∧
      (m.held 2).length = 1 ∧ m.alpha.get? 0 = some mem' ∧ Fact.affection.object ∈ mem'.excluded) ∧
    ∃ new n' m, n.addRule .teaRule = .ok (new, n') ∧ n'.reset.addFacts likings = .ok m ∧ m.bindings "r" = n.bindings "r" := by
  have hrun : (empty.addRules [.likesRule] >>= fun n₀ => n₀.addFacts likings >>= fun n =>
      n.addRule (.except "likes" "?x" "?y" "bob") >>= fun p => p.2.reset.addFacts likings >>= fun m =>
        n.addRule .teaRule >>= fun _ => .ok ((n.held 2).length, n.alpha.route .affection, (n.alpha.get? 0).isSome,
          (m.held 2).length, m.alpha.route .affection)) = .ok (2, [0], true, 1, []) := by decide +kernel
  obtain ⟨n₀, h₀, hrun⟩ := bind_eq_ok_iff.1 hrun
  obtain ⟨n, hn, hrun⟩ := bind_eq_ok_iff.1 hrun
  obtain ⟨⟨new, n'⟩, ha, hrun⟩ := bind_eq_ok_iff.1 hrun
  obtain ⟨m, hm, hrun⟩ := bind_eq_ok_iff.1 hrun
  obtain ⟨⟨new', n''⟩, hb, hrun⟩ := bind_eq_ok_iff.1 hrun
  simp only [Except.ok.injEq, Prod.mk.injEq] at hrun
  obtain ⟨hlen, hroute, hsome, hlen', hroute'⟩ := hrun
  obtain ⟨n₁, hn₁, hmore⟩ := held_of_oneMore h₀ likings
  obtain rfl := Except.ok.inj (hn.symm.trans hn₁)
  have hin : 0 ∈ n.alpha.route .affection := by rw [hroute]; exact List.mem_singleton_self _
  obtain ⟨m₁, hm₁, -, hroutes, -⟩ := hmore _ new _ (Or.inl ⟨n', ha, rfl⟩)
  obtain rfl := Except.ok.inj (hm.symm.trans hm₁)
  obtain ⟨mem, hmem⟩ := Option.isSome_iff_exists.1 hsome
  obtain ⟨mem', hmem', -, hf⟩ := hroutes 0 mem hmem
  have hkept : Fact.affection.object ∈ mem'.excluded := by
    rcases hf .affection with hiff | ⟨-, hkept, -⟩
    · rw [hroute'] at hiff
      nomatch hiff.2 hin
    · exact hkept
  obtain ⟨k, hk, -, -, hnames⟩ := hmore _ new' _ (Or.inl ⟨n'', hb, rfl⟩)
  exact ⟨n₀, n, h₀, hn, hlen, hin, ⟨new, n', m, mem', ha, hm, hlen', hmem', hkept⟩, new', n'', k, hb, hk,
    hnames rfl (by decide) .likesRule (List.mem_singleton_self _)⟩

end Network

end TripleRules

import TripleRules.Proofs.Consistency
import TripleRules.Proofs.Renaming

/-!
# The names of variables do not show

The names of variables are part of the joins and of their tests, so rules under other names share other nodes, and every token gets
another handle. But the joins on the way to a production let through the same tuples: they read the memories of the same keys, which
keep the same objects out, and their tests compare the same places. So each production holds the matches that it held, and its
bindings are the same but for the names.
-/

namespace TripleRules

/-- Whether a rule is another one with its variables renamed, and kept apart. -/
def Rule.Renames (r q : Rule) : Prop := ∃ ρ, Set.InjOn ρ r.variables ∧ q = r.rename ρ

/-- Whether bindings are others, each variable under its new name. -/
def Bindings.Renames (ρ : String → String) (b b' : Bindings) : Prop :=
  ∀ w v, b'.find? w = some v ↔ ∃ name, ρ name = w ∧ b.find? name = some v

theorem Rule.rename_id (r : Rule) : r.rename id = r := by
  have hslot : ∀ s : Slot, s.rename id = s := fun s => by cases s <;> rfl
  have hcondition : ∀ c : Condition, c.rename id = c := fun c => by rw [Condition.rename, hslot, hslot]
  have hinequality : ∀ i : Inequality, i.rename id = i := fun i => by rw [Inequality.rename, hslot, hslot]
  simp [rename, hcondition, hinequality]

theorem Rule.renames_refl (r : Rule) : r.Renames r := ⟨id, Set.injOn_id _, r.rename_id.symm⟩

namespace Network

/-! ## Networks before a batch -/

/-- Rules that pass their checks are compiled. -/
theorem addRules_ok {n : Network} (h : n.Wired) {rs : List Rule} (hr : n.Registered rs) {qs : List Rule}
    (hc : ∀ r ∈ qs, r.check = .ok ()) : ∃ n', n.addRules qs = .ok n' := by
  induction qs generalizing n rs with
  | nil => exact ⟨n, rfl⟩
  | cons r qs ih =>
    obtain ⟨hr₀, hqs⟩ := List.forall_mem_cons.1 hc
    obtain ⟨id, n₁, ha, hw₁, -, hr₁⟩ := addRule_ok h hr hr₀
    obtain ⟨n₂, he⟩ := ih hw₁ hr₁ hqs
    refine ⟨n₂, ?_⟩
    rw [addRules, List.foldlM_cons, ha]
    exact he

/-- A network with compiled rules, before the first fact of a batch. -/
def Ready (n : Network) (rs : List Rule) : Prop := n.Clean ∧ empty.addRules rs = .ok n.bare

/-- A network is ready when its rules are compiled. -/
theorem ready_of_addRules {n : Network} {rs : List Rule} (h : empty.addRules rs = .ok n) : n.Ready rs := by
  have hb := bare_of_addRules h
  exact ⟨clean_of_bare (wired_addRules wired_empty registered_empty h).1 hb, by rw [hb, h]⟩

/-- Whatever was asked of a network, it is ready after a reset. -/
theorem ready_of_calls {cs : List Call} {n : Network} {rs : List Rule} (he : calls cs = .ok (n, rs)) : n.reset.Ready rs := by
  obtain ⟨_, _, he', h⟩ := calls_ok cs
  obtain ⟨rfl, rfl⟩ := Prod.mk.inj (Except.ok.inj (he.symm.trans he'))
  exact ⟨h.reset.1, h.reset.2.rules⟩

/-- A network that is ready takes all facts and finishes its work on them. -/
theorem Ready.addFacts_ok {n : Network} {rs : List Rule} (h : n.Ready rs) (fs : List Fact) :
    ∃ n', n.addFacts fs = .ok n' ∧ n'.Finished ∧ empty.addRules rs = .ok n'.bare ∧ ∀ g, g ∈ n'.facts.toList ↔ g ∈ fs := by
  obtain ⟨hclean, hrules⟩ := h
  have hw : n.Wired := (wired_addRules wired_empty registered_empty hrules).1.of_bare n.bare_bare.symm
  obtain ⟨n', he, h', hb, hf⟩ := Network.addFacts_ok (finished_of_clean hw hclean) fs
  refine ⟨n', he, h', by rw [hb, hrules], fun g => ?_⟩
  rw [Array.mem_toList_iff, hf, hclean.facts]
  simp

/-! ## Two networks, the rules of one of them renamed -/

/-- Two networks that have done all the work of the same facts. The rules of the second are those of the first, renamed. -/
structure Renamed (n m : Network) (rs qs : List Rule) : Prop where
  left : n.Finished
  right : m.Finished
  rules : empty.addRules rs = .ok n.bare
  renamed : empty.addRules qs = .ok m.bare
  renames : List.Forall₂ Rule.Renames rs qs
  facts : ∀ g, g ∈ n.facts.toList ↔ g ∈ m.facts.toList

/-- Rules that are renamed make the same requests, the names apart. -/
theorem requests_of_renames {rs qs : List Rule} (h : List.Forall₂ Rule.Renames rs qs) (hc : ∀ r ∈ rs, r.check = .ok ()) :
    (qs.flatMap Rule.requests).map Request.anonymous = (rs.flatMap Rule.requests).map Request.anonymous := by
  induction h with
  | nil => rfl
  | @cons r q rs qs hrq _ ih =>
    obtain ⟨hr, hrs⟩ := List.forall_mem_cons.1 hc
    obtain ⟨ρ, hρ, rfl⟩ := hrq
    rw [List.flatMap_cons, List.flatMap_cons, List.map_append, List.map_append, ih hrs, Rule.requests_rename hr hρ]

/-- Rules that pass their checks pass them under other names. -/
theorem check_of_renames {rs qs : List Rule} (h : List.Forall₂ Rule.Renames rs qs) (hc : ∀ r ∈ rs, r.check = .ok ()) :
    ∀ q ∈ qs, q.check = .ok () := by
  induction h with
  | nil => exact fun q hq => absurd hq List.not_mem_nil
  | cons hrq _ ih =>
    obtain ⟨hr, hrs⟩ := List.forall_mem_cons.1 hc
    obtain ⟨ρ, -, rfl⟩ := hrq
    exact List.forall_mem_cons.2 ⟨Rule.check_rename hr ρ, ih hrs⟩

/-- Renaming variables leaves the names of the rules as they are. -/
theorem names_of_renames {rs qs : List Rule} (h : List.Forall₂ Rule.Renames rs qs) : qs.map (·.name) = rs.map (·.name) := by
  induction h with
  | nil => rfl
  | cons hrq _ ih =>
    obtain ⟨ρ, -, rfl⟩ := hrq
    rw [List.map_cons, List.map_cons, ih, Rule.rename]

namespace Renamed

variable {n m : Network} {rs qs : List Rule} (h : n.Renamed m rs qs)
include h

/-- A fact goes to the memory of a key in the one network if it goes there in the other. -/
theorem mem_route_iff {k : String} {a b : AlphaId} (ha : n.alpha.byKey.find? k = some a) (hb : m.alpha.byKey.find? k = some b)
    (f : Fact) : a ∈ n.alpha.route f ↔ b ∈ m.alpha.route f := by
  have hserves := (serves_of_bare h.rules rfl).anonymous
  have hserves' := (serves_of_bare h.renamed rfl).anonymous
  rw [requests_of_renames h.renames (registered_of_addRules h.rules).checked] at hserves'
  exact hserves.mem_route_iff hserves' ha hb f

section

variable {ρ : String → String} {cs : List Condition} {V : Set String} (hρ : Set.InjOn ρ V)
  (hcs : ∀ c ∈ cs, ∀ name, c.mentions name = true → name ∈ V) {id id' : NodeId} {js js' : List JoinNode}
  (hn : n.Reaches id js cs) (hm : m.Reaches id' js' (cs.map (·.rename ρ)))
include hρ hcs hn hm

/-- At each place of the two ways the conditions are the same, the names apart: so are the tests, and where facts go. -/
theorem joins {k : Nat} {j j' : JoinNode} (hj : js[k]? = some j) (hj' : js'[k]? = some j') :
    j'.tests = j.tests.map (·.rename ρ) ∧ ∀ f, j.alpha ∈ n.alpha.route f ↔ j'.alpha ∈ m.alpha.route f := by
  have hc : cs[k]? = some j.condition := by rw [← hn.conditions, List.getElem?_map, hj, Option.map_some]
  have hc' : j'.condition = j.condition.rename ρ := by
    have hget : (cs.map (·.rename ρ))[k]? = some j'.condition := by
      rw [← hm.conditions, List.getElem?_map, hj', Option.map_some]
    rw [List.getElem?_map, hc, Option.map_some] at hget
    exact (Option.some.inj hget).symm
  constructor
  · rw [hn.tests hj, hm.tests hj', hc', ← List.map_take, ← List.map_reverse]
    refine Condition.tests_rename hρ (hcs _ (List.mem_of_getElem? hc)) fun d hd => hcs d ?_
    exact List.mem_of_mem_take (List.mem_reverse.1 hd)
  · have ha := hn.alpha j (List.mem_of_getElem? hj)
    have ha' := hm.alpha j' (List.mem_of_getElem? hj')
    have hkey : j'.condition.key = j.condition.key := by
      rw [hc']
      exact slotKey_rename ρ _ _
    rw [hkey] at ha'
    exact h.mem_route_iff ha ha'

/-- The two ways let the same tuples through. -/
theorem joined_iff {gs : List Fact} : Joined n.alpha n.facts.toList js gs ↔ Joined m.alpha m.facts.toList js' gs := by
  have hlen : js'.length = js.length := by
    have hmap := congrArg List.length hm.conditions
    have hmap' := congrArg List.length hn.conditions
    rw [List.length_map, List.length_map] at hmap
    rw [List.length_map] at hmap'
    exact hmap.trans hmap'.symm
  have hjoins := fun {k : Nat} {j j' : JoinNode} (hj : js[k]? = some j) (hj' : js'[k]? = some j') =>
    h.joins hρ hcs hn hm hj hj'
  constructor
  · intro hg
    refine hg.transfer (fun g => (h.facts g).1) hlen (fun hj hj' t' ht' => ?_) fun hj hj' hgk => ?_
    · rw [(hjoins hj hj').1] at ht'
      obtain ⟨t, ht, rfl⟩ := List.mem_map.1 ht'
      exact ⟨t, ht, rfl, rfl, rfl⟩
    · exact ((hjoins hj hj').2 _).1 (hg.routed hj hgk)
  · intro hg
    refine hg.transfer (fun g => (h.facts g).2) hlen.symm (fun hj' hj t ht => ?_) fun hj' hj hgk => ?_
    · refine ⟨t.rename ρ, ?_, rfl, rfl, rfl⟩
      rw [(hjoins hj hj').1]
      exact List.mem_map.2 ⟨t, ht, rfl⟩
    · exact ((hjoins hj hj').2 _).2 (hg.routed hj' hgk)

/-- Corresponding nodes hold the same matches. -/
theorem image_matchOf_eq : m.matchOf '' {t | t ∈ m.held id'} = n.matchOf '' {t | t ∈ n.held id} := by
  rw [(h.left.bijOn_matchOf hn.path).image_eq, (h.right.bijOn_matchOf hm.path).image_eq, List.reverse_reverse,
    List.reverse_reverse]
  ext gs
  exact (h.joined_iff hρ hcs hn hm).symm

end

/-! ### Productions -/

/-- The productions of a rule and of the rule that it is renamed to: they hold the same matches, and the bindings of the second are
those of the first under the new names. -/
theorem exists_productions {i : Nat} {r : Rule} {ρ : String → String} (hρ : Set.InjOn ρ r.variables) (hi : rs[i]? = some r)
    (hi' : qs[i]? = some (r.rename ρ)) : ∃ id id' p p', n.productions[i]? = some id ∧ m.productions[i]? = some id' ∧
      n.nodes[id]? = some (.production p) ∧ m.nodes[id']? = some (.production p') ∧
      m.matchOf '' {t | t ∈ m.held id'} = n.matchOf '' {t | t ∈ n.held id} ∧
      ∃ found : Option (List Fact), n.leastBindings p = found.map (fun gs => bindingsFrom r.select (pairs r.conditions gs)) ∧
        m.leastBindings p' =
          found.map fun gs => bindingsFrom (r.select.map ρ) (pairs (r.conditions.map (·.rename ρ)) gs) := by
  have hreg := registered_of_addRules h.rules
  have hreg' := registered_of_addRules h.renamed
  obtain ⟨id, p, js, hid, hp, -, hreach⟩ := hreg.reaches h.left.toWired hi
  obtain ⟨id', p', js', hid', hp', -, hreach'⟩ := hreg'.reaches h.right.toWired hi'
  have hselect : p.select = r.select := by
    obtain ⟨q, -, hq, -, hsel, -⟩ := hreg.production hid hi
    rw [Node.production.inj (Option.some.inj (hp.symm.trans hq)), hsel]
  have hselect' : p'.select = r.select.map ρ := by
    obtain ⟨q, -, hq, -, hsel, -⟩ := hreg'.production hid' hi'
    rw [Node.production.inj (Option.some.inj (hp'.symm.trans hq)), hsel]
    rfl
  have hsame := h.image_matchOf_eq hρ (fun c hc name => Rule.mem_variables hc) hreach hreach'
  have hleast : (m.leastToken? (m.held id').reverse).map m.matchOf = (n.leastToken? (n.held id).reverse).map n.matchOf :=
    map_leastToken?_eq (by simpa using hsame)
  refine ⟨id, id', p, p', hid, hid', hp, hp', hsame, (n.leastToken? (n.held id).reverse).map n.matchOf, ?_, ?_⟩
  · rw [leastBindings_eq_map h.left.toSound hp hreach, hselect]
  · rw [leastBindings_eq_map h.right.toSound hp' hreach', hselect', hleast]
    rfl

/-- A rule that is renamed has a rule that it is renamed to, in its place. -/
theorem exists_rename {i : Nat} {r : Rule} (hi : rs[i]? = some r) :
    ∃ ρ, Set.InjOn ρ r.variables ∧ qs[i]? = some (r.rename ρ) := by
  have hlt := (List.getElem?_eq_some_iff.1 hi).1
  have hlen := h.renames.length_eq
  obtain ⟨ρ, hρ, he⟩ := List.forall₂_iff_get.1 h.renames |>.2 i hlt (hlen ▸ hlt)
  simp only [List.get_eq_getElem, (List.getElem?_eq_some_iff.1 hi).2] at hρ he
  exact ⟨ρ, hρ, by rw [List.getElem?_eq_getElem (hlen ▸ hlt), he]⟩

/-- The same names are satisfied. -/
theorem mem_satisfiedNames_iff {name : String} : name ∈ m.satisfiedNames ↔ name ∈ n.satisfiedNames := by
  have hreg := registered_of_addRules h.rules
  have hreg' := registered_of_addRules h.renamed
  have hsame : ∀ {i : Nat} {r q : Rule} {id id' : NodeId}, rs[i]? = some r → qs[i]? = some q →
      n.productions[i]? = some id → m.productions[i]? = some id' → q.name = r.name ∧ (m.held id' = [] ↔ n.held id = []) := by
    intro i r q id id' hi hi' hid hid'
    obtain ⟨ρ, hρ, hq⟩ := h.exists_rename hi
    obtain rfl := Option.some.inj (hi'.symm.trans hq)
    obtain ⟨_, _, -, -, hid₁, hid₁', -, -, himage, -⟩ := h.exists_productions hρ hi hq
    obtain rfl := Option.some.inj (hid.symm.trans hid₁)
    obtain rfl := Option.some.inj (hid'.symm.trans hid₁')
    refine ⟨rfl, ?_⟩
    have hempty : ∀ ts : List TokenId, ts = [] ↔ {t | t ∈ ts} = ∅ := fun ts => by
      rw [Set.eq_empty_iff_forall_notMem, List.eq_nil_iff_forall_not_mem]
      exact Iff.rfl
    rw [hempty, hempty, ← Set.image_eq_empty, himage, Set.image_eq_empty]
  rw [(h.right.toSound.consistent hreg').satisfied_iff, (h.left.toSound.consistent hreg).satisfied_iff]
  constructor
  · rintro ⟨id', i, q, p', hi', rfl, hid', hp', hsat⟩
    have hlt := (List.getElem?_eq_some_iff.1 hi').1
    rw [← h.renames.length_eq] at hlt
    have hi := List.getElem?_eq_getElem hlt
    obtain ⟨id, p, -, hid, hp, -⟩ := hreg.reaches h.left.toWired hi
    obtain ⟨hname, hnil⟩ := hsame hi hi' hid hid'
    refine ⟨id, i, _, p, hi, hname.symm, hid, hp, (isSatisfied_iff hp).2 fun hn => ?_⟩
    exact (isSatisfied_iff hp').1 hsat (hnil.2 hn)
  · rintro ⟨id, i, r, p, hi, rfl, hid, hp, hsat⟩
    obtain ⟨ρ, hρ, hi'⟩ := h.exists_rename hi
    obtain ⟨id', p', -, hid', hp', -⟩ := hreg'.reaches h.right.toWired hi'
    obtain ⟨hname, hnil⟩ := hsame hi hi' hid hid'
    refine ⟨id', i, _, p', hi', hname, hid', hp', (isSatisfied_iff hp').2 fun hn => ?_⟩
    exact (isSatisfied_iff hp).1 hsat (hnil.1 hn)

/-! ### Bindings -/

/-- Under its name a rule has the bindings of its production, and the rule that it is renamed to has those of its own. -/
theorem bindings_eq (hnames : (rs.map (·.name)).Nodup) {i : Nat} {r : Rule} {ρ : String → String} (hρ : Set.InjOn ρ r.variables)
    (hi : rs[i]? = some r) (hi' : qs[i]? = some (r.rename ρ)) : ∃ found : Option (List Fact),
      n.bindings r.name = .ok (found.map fun gs => bindingsFrom r.select (pairs r.conditions gs)) ∧
      m.bindings r.name =
        .ok (found.map fun gs => bindingsFrom (r.select.map ρ) (pairs (r.conditions.map (·.rename ρ)) gs)) := by
  have hnames' : (qs.map (·.name)).Nodup := by
    rw [names_of_renames h.renames]
    exact hnames
  obtain ⟨id, id', p, p', hid, hid', hp, hp', -, found, hn, hm⟩ := h.exists_productions hρ hi hi'
  have hb := bindings_eq_leastBindings h.left (registered_of_addRules h.rules) hnames hi hid hp
  have hb' := bindings_eq_leastBindings h.right (registered_of_addRules h.renamed) hnames' hi' hid' hp'
  rw [hn] at hb
  rw [hm] at hb'
  exact ⟨found, hb, hb'⟩

/-- A rule that keeps its variables keeps its bindings. -/
theorem bindings_same (hnames : (rs.map (·.name)).Nodup) {i : Nat} {r : Rule} (hi : rs[i]? = some r) (hi' : qs[i]? = some r) :
    m.bindings r.name = n.bindings r.name := by
  have hid : qs[i]? = some (r.rename id) := by rw [r.rename_id, hi']
  obtain ⟨found, hn, hm⟩ := h.bindings_eq hnames (Set.injOn_id _) hi hid
  have hselect : r.select.map id = r.select := List.map_id _
  have hconditions : r.conditions.map (·.rename id) = r.conditions := congrArg Rule.conditions r.rename_id
  rw [hselect, hconditions] at hm
  rw [hn, hm]

/-- The bindings of a rule that is renamed are what they were, under the new names. -/
theorem bindings_renamed (hnames : (rs.map (·.name)).Nodup) {i : Nat} {r : Rule} {ρ : String → String}
    (hρ : Set.InjOn ρ r.variables) (hi : rs[i]? = some r) (hi' : qs[i]? = some (r.rename ρ)) :
    (n.bindings r.name = .ok none ∧ m.bindings r.name = .ok none) ∨
      ∃ b b', n.bindings r.name = .ok (some b) ∧ m.bindings r.name = .ok (some b') ∧ b.Renames ρ b' := by
  obtain ⟨found, hn, hm⟩ := h.bindings_eq hnames hρ hi hi'
  have hchecked := (registered_of_addRules h.rules).checked r (List.mem_of_getElem? hi)
  cases found with
  | none => exact Or.inl ⟨hn, hm⟩
  | some gs =>
    exact Or.inr ⟨_, _, hn, hm, fun w v => find?_bindingsFrom_rename hρ (Rule.select_subset_variables hchecked)
      fun c hc name => Rule.mem_variables hc⟩

end Renamed

/-! ## One rule renamed -/

/-- A rule that is not renamed keeps its place. -/
theorem exists_place {before after : List Rule} {q : Rule} (hq : q ∈ before ++ after) :
    ∃ i : Nat, ∀ r, (before ++ r :: after)[i]? = some q := by
  rcases List.mem_append.1 hq with hq | hq
  · obtain ⟨i, hi⟩ := List.mem_iff_getElem?.1 hq
    refine ⟨i, fun r => ?_⟩
    rw [List.getElem?_append_left (List.getElem?_eq_some_iff.1 hi).1, hi]
  · obtain ⟨i, hi⟩ := List.mem_iff_getElem?.1 hq
    refine ⟨before.length + (i + 1), fun r => ?_⟩
    rw [List.getElem?_append_right (Nat.le_add_right _ _), Nat.add_sub_cancel_left, List.getElem?_cons_succ, hi]

/-- Variable names carry no meaning. Let one of some rules with distinct names be renamed in a way that keeps its variables apart, where
all of them are accepted. Then the rules are accepted with the renamed one in its place. And whatever facts a batch has, with either
rules the productions in the same place hold the same matches, the same names are satisfied, the other rules have the same bindings,
and the renamed rule has the bindings that it had, each variable under its new name. -/
theorem answers_of_rename {before after : List Rule} {r : Rule} {n₀ : Network} (h₀ : n₀.Ready (before ++ r :: after))
    (hn : ((before ++ r :: after).map (·.name)).Nodup) {ρ : String → String} (hρ : Set.InjOn ρ r.variables) :
    (∃ m₀, empty.addRules (before ++ r.rename ρ :: after) = .ok m₀) ∧
      ∀ m₀ : Network, m₀.Ready (before ++ r.rename ρ :: after) → ∀ fs, ∃ n m, n₀.addFacts fs = .ok n ∧ m₀.addFacts fs = .ok m ∧
        (∀ i < (before ++ r :: after).length, ∃ id id', n.productions[i]? = some id ∧ m.productions[i]? = some id' ∧
          m.matchOf '' {t | t ∈ m.held id'} = n.matchOf '' {t | t ∈ n.held id}) ∧
        (∀ name, name ∈ m.satisfiedNames ↔ name ∈ n.satisfiedNames) ∧
        (∀ q ∈ before ++ after, m.bindings q.name = n.bindings q.name) ∧
        ((n.bindings r.name = .ok none ∧ m.bindings r.name = .ok none) ∨
          ∃ b b', n.bindings r.name = .ok (some b) ∧ m.bindings r.name = .ok (some b') ∧ b.Renames ρ b') := by
  have hchecked := (registered_of_addRules h₀.2).checked
  have hrenames : List.Forall₂ Rule.Renames (before ++ r :: after) (before ++ r.rename ρ :: after) :=
    List.rel_append (List.forall₂_same.2 fun q _ => q.renames_refl)
      (.cons ⟨ρ, hρ, rfl⟩ (List.forall₂_same.2 fun q _ => q.renames_refl))
  have hr : (before ++ r :: after)[before.length]? = some r := by simp
  have hr' : (before ++ r.rename ρ :: after)[before.length]? = some (r.rename ρ) := by simp
  constructor
  · exact addRules_ok wired_empty registered_empty (check_of_renames hrenames hchecked)
  · intro m₀ hm₀ fs
    obtain ⟨n, hn₁, hleft, hrules, hf⟩ := h₀.addFacts_ok fs
    obtain ⟨m, hm₁, hright, hrules', hf'⟩ := hm₀.addFacts_ok fs
    have h : n.Renamed m (before ++ r :: after) (before ++ r.rename ρ :: after) :=
      ⟨hleft, hright, hrules, hrules', hrenames, fun g => by rw [hf, hf']⟩
    refine ⟨n, m, hn₁, hm₁, fun i hi => ?_, fun name => h.mem_satisfiedNames_iff, fun q hq => ?_,
      h.bindings_renamed hn hρ hr hr'⟩
    · obtain ⟨σ, hσ, hi'⟩ := h.exists_rename (List.getElem?_eq_getElem hi)
      obtain ⟨id, id', -, -, hid, hid', -, -, hsame, -⟩ := h.exists_productions hσ (List.getElem?_eq_getElem hi) hi'
      exact ⟨id, id', hid, hid', hsame⟩
    · obtain ⟨i, hi⟩ := exists_place hq
      exact h.bindings_same hn (hi r) (hi (r.rename ρ))

/-- A rule of another name comes first. The second rule has its two variables swapped, and its host is then reported as a guest. -/
theorem answers_of_rename_swap : ∃ n₀ : Network, n₀.Ready [.knowsRule, .teaRule] ∧
    ([Rule.knowsRule, .teaRule].map (·.name)).Nodup ∧ Set.InjOn (Equiv.swap "?host" "?guest") Rule.teaRule.variables ∧
    ∃ m₀ n m b b', empty.addRules [.knowsRule, Rule.teaRule.rename (Equiv.swap "?host" "?guest")] = .ok m₀ ∧
      n₀.addFacts Fact.teaFacts = .ok n ∧ m₀.addFacts Fact.teaFacts = .ok m ∧ n.bindings "tea" = .ok (some b) ∧
      m.bindings "tea" = .ok (some b') ∧ b.Renames (Equiv.swap "?host" "?guest") b' ∧
      b.find? "?host" = some (.resource "ann") ∧ b'.find? "?guest" = some (.resource "ann") := by
  obtain ⟨n₀, he₀⟩ : ∃ n₀, empty.addRules [.knowsRule, .teaRule] = .ok n₀ := ⟨_, rfl⟩
  have h₀ : n₀.Ready ([.knowsRule] ++ .teaRule :: []) := ready_of_addRules he₀
  have hn : (([Rule.knowsRule] ++ Rule.teaRule :: []).map (·.name)).Nodup := by decide
  have hρ : Set.InjOn (Equiv.swap "?host" "?guest") Rule.teaRule.variables := (Equiv.injective _).injOn
  obtain ⟨⟨m₀, hm₀⟩, h⟩ := answers_of_rename h₀ hn hρ
  obtain ⟨n, m, hadd, hadd', -, -, -, hb⟩ := h m₀ (ready_of_addRules hm₀) Fact.teaFacts
  have hann : (empty.addRules [.knowsRule, .teaRule]).bind (fun n => (n.addFacts Fact.teaFacts).bind fun n =>
      (n.bindings "tea").map (·.bind (·.find? "?host"))) = .ok (some (.resource "ann")) := by decide +kernel
  simp only [he₀, hadd, Except.bind] at hann
  rcases hb with ⟨hnone, -⟩ | ⟨b, b', hsome, hsome', hrenames⟩
  · have hnone' : n.bindings "tea" = .ok none := hnone
    rw [hnone'] at hann
    nomatch hann
  · have hsome₁ : n.bindings "tea" = .ok (some b) := hsome
    rw [hsome₁] at hann
    have hhost : b.find? "?host" = some (.resource "ann") := by simpa [Except.map] using hann
    exact ⟨n₀, h₀, hn, hρ, m₀, n, m, b, b', hm₀, hadd, hadd', hsome₁, hsome', hrenames, hhost,
      (hrenames _ _).2 ⟨"?host", Equiv.swap_apply_left _ _, hhost⟩⟩

end Network

end TripleRules

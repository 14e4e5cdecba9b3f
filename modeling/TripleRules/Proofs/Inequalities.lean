import TripleRules.Proofs.Requests
import TripleRules.Proofs.RuleNames

/-!
# Inequalities

An inequality is kept at the alpha memories: those of the conditions that have its variable as their object keep its constant out. The
memories are shared and told apart by keys, so the constant may get in after all. It does where the first condition with the key has a
constant object, and where a fact with the constant has the key as that of its predicate and object. And no memory looks at subjects:
a subject is kept from the constant by the tests that compare it with an object, and there is none where a new variable is in both
places. Otherwise no match of the rule has the constant for the variable.
-/

namespace TripleRules

/-! ## Constants that are kept out -/

/-- The constants that are excluded for a variable are those of its inequalities. -/
theorem Rule.mem_excludedFor {r : Rule} {name : String} {t : Term} :
    t ∈ r.excludedFor name ↔ ∃ i ∈ r.inequalities, i.pair? = some (name, t) := by
  rw [excludedFor, Ordered.mem_merge, List.mem_filterMap]
  simp only [List.mem_filterMap, List.not_mem_nil, or_false]
  constructor
  · rintro ⟨⟨name', t'⟩, ⟨i, hi, hp⟩, he⟩
    split at he
    · rename_i hname
      obtain rfl := hname
      obtain rfl := Option.some.inj he
      exact ⟨i, hi, hp⟩
    · nomatch he
  · rintro ⟨i, hi, hp⟩
    exact ⟨(name, t), ⟨i, hi, hp⟩, if_pos rfl⟩

/-- Whether the memory of a condition keeps a constant out that it is asked to keep out, as far as the facts of a batch go: no fact
with the constant as its object has the key of the condition as that of its predicate and object, and if one has it as that of its
predicate, the first request with the key is for any object. -/
def KeepsOut (rs : List Rule) (fs : List Fact) (t : Term) (c : Condition) : Prop :=
  ∀ f ∈ fs, f.object = t → constantKey f.predicate f.object ≠ c.key ∧
    (f.predicate.text = c.key → ((rs.flatMap Rule.requests).find? (·.key == c.key)).any (·.object.isVar) = true)

/-- A condition of a rule makes its request among those of the rules. -/
theorem Rule.request_mem {rs : List Rule} {r : Rule} (hr : r ∈ rs) {c : Condition} (hc : c ∈ r.conditions) :
    ⟨c.predicate, c.object, r.excludedBy c⟩ ∈ rs.flatMap requests :=
  List.mem_flatMap.2 ⟨r, hr, List.mem_map.2 ⟨c, hc, rfl⟩⟩

/-- So it does exactly if no fact with the constant is routed to the memory. -/
theorem keepsOut_iff {x : AlphaIndex} {rs : List Rule} (h : x.Serves (rs.flatMap Rule.requests)) {r : Rule} (hr : r ∈ rs)
    {c : Condition} (hc : c ∈ r.conditions) {name : String} (ho : c.object = .var name) {t : Term} (ht : t ∈ r.excludedFor name)
    {a : AlphaId} (ha : x.byKey.find? c.key = some a) (fs : List Fact) :
    KeepsOut rs fs t c ↔ ∀ f ∈ fs, f.object = t → a ∉ x.route f := by
  have hin : t ∈ r.excludedBy c := by
    rw [Rule.excludedBy, Condition.objectVar?, ho]
    exact ht
  have hexcludes : x.excludes a t = true ↔
      ((rs.flatMap Rule.requests).find? (·.key == c.key)).any (·.object.isVar) = true := by
    rw [h.excludes_iff ha, Option.any_eq_true]
    exact ⟨fun he => he.1, fun he => ⟨he, _, Rule.request_mem hr hc, rfl, hin⟩⟩
  refine forall₃_congr fun f _ hf => ?_
  rw [AlphaIndex.mem_route, h.keyed.find?_eq_some_iff ha, h.keyed.find?_eq_some_iff ha, hf, ← hexcludes, not_or, not_and,
    Bool.not_eq_false]

/-- Where no key of a fact is shared by terms that differ from its own, the memories keep out what they are asked to. -/
theorem keepsOut_of_separated {rs : List Rule} {fs : List Fact} {t : Term}
    (hs : ∀ f ∈ fs, f.object = t → Request.Separated (rs.flatMap Rule.requests) f) {r : Rule} (hr : r ∈ rs) {c : Condition}
    (hc : c ∈ r.conditions) {name : String} (ho : c.object = .var name) : KeepsOut rs fs t c := by
  have hrequest := Rule.request_mem hr hc
  intro f hf hft
  refine ⟨fun hk => ?_, fun hk => ?_⟩
  · obtain ⟨-, hobject⟩ := (hs f hf hft _ hrequest).1 hk.symm
    rw [ho] at hobject
    nomatch hobject
  · cases hfirst : (rs.flatMap Rule.requests).find? (·.key == c.key) with
    | none => exact absurd (beq_self_eq_true _) (List.find?_eq_none.1 hfirst _ hrequest)
    | some q =>
      have hkey := List.find?_some hfirst
      exact ((hs f hf hft q (List.mem_of_find?_eq_some hfirst)).2 ((beq_iff_eq.1 hkey).trans hk.symm)).2

/-! ## The places of a variable -/

/-- In each of its places a variable has the term that is read for it, but for the object of a condition that has it newly in both
places. -/
theorem termOf?_of_slot {cs : List Condition} {gs : List Fact} (hlen : cs.length = gs.length) (ha : Agrees (pairs cs gs)) {k : Nat}
    {c : Condition} {g : Fact} (hc : cs[k]? = some c) (hg : gs[k]? = some g) {field : Field} {name : String}
    (hs : c.slot field = .var name) (hn : field = .object → ¬c.NewTwice (cs.take k)) :
    termOf? name (pairs cs gs) = some (field.read g) := by
  cases hf : c.fieldOf? name with
  | none => exact absurd hs (Condition.fieldOf?_eq_none hf field)
  | some f =>
    rw [termOf?_of_fieldOf? ha (mem_pairs hc hg) hf]
    rw [pairs_eq_append hc hg] at ha
    -- the subject is read before the object
    obtain ⟨hslot, hfirst⟩ := Condition.fieldOf?_eq_some hf
    cases field <;> cases f
    · rfl
    · exact absurd hs (hfirst rfl)
    · refine congrArg some (subject_eq_object ha.of_append hslot hs ?_)
      rw [map_fst_pairs (by rw [List.length_take, List.length_take, hlen]), Condition.newTwice_reverse]
      exact hn rfl
    · rfl

/-- Whether the memories and tests keep a variable of a rule from a constant: a condition that has the variable as its object keeps
the constant out, and not only one that has it newly in both places; and if there is one that has, it keeps the constant out as
well. -/
structure Rule.Guarded (r : Rule) (rs : List Rule) (fs : List Fact) (name : String) (t : Term) : Prop where
  kept : ∃ (k : Nat) (c : Condition), r.conditions[k]? = some c ∧ c.object = .var name ∧ ¬c.NewTwice (r.conditions.take k) ∧
    KeepsOut rs fs t c
  twice : ∀ (k : Nat) (c : Condition), r.conditions[k]? = some c → c.object = .var name → c.NewTwice (r.conditions.take k) →
    KeepsOut rs fs t c

/-- A variable is kept from a constant if it is the object of a condition, is newly in both places of none, and the facts with the
constant share their keys with no terms but their own. -/
theorem Rule.guarded_of_separated {rs : List Rule} {r : Rule} (hr : r ∈ rs) {fs : List Fact} {name : String} {t : Term}
    (ho : ∃ c ∈ r.conditions, c.object = .var name) (hs : ∀ f ∈ fs, f.object = t → Request.Separated (rs.flatMap requests) f)
    (hn : ∀ (k : Nat) (c : Condition), r.conditions[k]? = some c → c.object = .var name → ¬c.NewTwice (r.conditions.take k)) :
    r.Guarded rs fs name t := by
  constructor
  · obtain ⟨c, hc, hobject⟩ := ho
    obtain ⟨k, hk⟩ := List.mem_iff_getElem?.1 hc
    exact ⟨k, c, hk, hobject, hn k c hk hobject, keepsOut_of_separated hs hr hc hobject⟩
  · intro k c hk hobject hnew
    exact absurd hnew (hn k c hk hobject)

namespace Network

variable {n : Network} (h : n.Finished) {rs : List Rule} (hs : n.alpha.Serves (rs.flatMap Rule.requests)) {fs : List Fact}
  (hfs : ∀ g ∈ n.facts.toList, g ∈ fs) {r : Rule} (hr : r ∈ rs) {id : NodeId} {js : List JoinNode}
  (hreach : n.Reaches id js r.conditions)
include h hreach

/-- The facts on the chain of a token of a rule, one for each condition. -/
theorem tuple_of_held {t : TokenId} (ht : t ∈ n.held id) : r.conditions.length = (n.matchOf t).length ∧
    Agrees (pairs r.conditions (n.matchOf t)) ∧ Joined n.alpha n.facts.toList js (n.matchOf t) := by
  have hjoined := h.joined_of_held hreach.path ht
  have hagrees := agrees_of_joined h.toWired hreach.path hjoined
  rw [List.reverse_reverse] at hjoined hagrees
  rw [hreach.conditions] at hagrees
  exact ⟨by rw [hjoined.length, ← hreach.conditions, List.length_map], hagrees, hjoined⟩

include hs hfs hr

/-- In no tuple of the rule has the fact of a condition the constant as its object that the condition keeps out. -/
theorem object_ne_of_keepsOut {t : TokenId} (ht : t ∈ n.held id) {k : Nat} {c : Condition} {g : Fact}
    (hc : r.conditions[k]? = some c) (hg : (n.matchOf t)[k]? = some g) {name : String} (ho : c.object = .var name) {u : Term}
    (hu : u ∈ r.excludedFor name) (hk : KeepsOut rs fs u c) : g.object ≠ u := by
  obtain ⟨-, -, hjoined⟩ := tuple_of_held h hreach ht
  have hmem := List.mem_of_getElem? hc
  rw [← hreach.conditions, List.getElem?_map] at hc
  obtain ⟨j, hj, rfl⟩ := Option.map_eq_some_iff.1 hc
  have ha := hreach.alpha j (List.mem_of_getElem? hj)
  have hin := hjoined.inserted g (List.mem_of_getElem? hg)
  exact fun he => (keepsOut_iff hs hr hmem ho hu ha fs).1 hk g (hfs g hin) he (hjoined.routed hj hg)

/-- No token of a rule has a constant in a place of a variable that the rule keeps from the constant, nor is it read for the
variable. -/
theorem ne_of_guarded {t : TokenId} (ht : t ∈ n.held id) {name : String} {u : Term} (hu : u ∈ r.excludedFor name)
    (hguard : r.Guarded rs fs name u) :
    termOf? name (pairs r.conditions (n.matchOf t)) ≠ some u ∧
      ∀ (k : Nat) (c : Condition), r.conditions[k]? = some c → ∃ g, (n.matchOf t)[k]? = some g ∧
        ∀ field, c.slot field = .var name → field.read g ≠ u := by
  obtain ⟨hlen, hagrees, -⟩ := tuple_of_held h hreach ht
  have hget : ∀ {k : Nat} {c : Condition}, r.conditions[k]? = some c → ∃ g, (n.matchOf t)[k]? = some g := fun hc => by
    have hlt := (List.getElem?_eq_some_iff.1 hc).1
    rw [hlen] at hlt
    exact ⟨_, List.getElem?_eq_getElem hlt⟩
  have hterm : termOf? name (pairs r.conditions (n.matchOf t)) ≠ some u := by
    obtain ⟨k, c, hc, ho, hnew, hk⟩ := hguard.kept
    obtain ⟨g, hg⟩ := hget hc
    have hslot : c.slot .object = .var name := ho
    rw [termOf?_of_slot hlen hagrees hc hg hslot fun _ => hnew]
    exact fun he => object_ne_of_keepsOut h hs hfs hr hreach ht hc hg ho hu hk (Option.some.inj he)
  refine ⟨hterm, fun k c hc => ?_⟩
  obtain ⟨g, hg⟩ := hget hc
  refine ⟨g, hg, fun field hslot => ?_⟩
  by_cases hnew : field = .object ∧ c.NewTwice (r.conditions.take k)
  · obtain ⟨rfl, hnew⟩ := hnew
    exact object_ne_of_keepsOut h hs hfs hr hreach ht hc hg hslot hu (hguard.twice k c hc hslot hnew)
  · rw [termOf?_of_slot hlen hagrees hc hg hslot fun ho hn => hnew ⟨ho, hn⟩] at hterm
    exact fun he => hterm (congrArg some he)

omit hreach in
/-- The bindings in the matches do not have the constant for the variable. -/
theorem find?_ne_of_guarded (hreg : n.Registered rs) (hn : (rs.map (·.name)).Nodup) {m : Matches} (hall : n.allMatches = .ok m)
    {b : Bindings} (hb : m.rules.find? r.name = some b) {name : String} {u : Term} (hu : u ∈ r.excludedFor name)
    (hguard : r.Guarded rs fs name u) : b.find? name ≠ some u := by
  obtain ⟨id', js', t, hreach', ht, -, rfl⟩ := exists_reported h hreg hn hall hr hb
  rw [find?_bindingsFrom]
  split
  · exact (ne_of_guarded h hs hfs hr hreach' ht hu hguard).1
  · exact fun he => nomatch he

end Network

/-! ## Evaluations -/

/-- Who knows somebody that likes them, except Bob. -/
def Rule.mutualRule : Rule :=
  ⟨"mutual", [.between "?x" (.resource "knows") "?y", .between "?y" (.resource "likes") "?x"],
    [⟨.var "?x", .const (.resource "bob")⟩], ["?x"]⟩

/-- Alice and Bob know and like each other. -/
def Fact.mutualFacts : List Fact :=
  [⟨.resource "alice", .resource "knows", .resource "bob"⟩, ⟨.resource "bob", .resource "likes", .resource "alice"⟩,
    ⟨.resource "bob", .resource "knows", .resource "alice"⟩, ⟨.resource "alice", .resource "likes", .resource "bob"⟩]

/-- Who knows Bob and likes tea. -/
def Rule.bobRule : Rule :=
  ⟨"bob", [.withConstant "?x" (.resource "knows") (.resource "bob"), .withConstant "?x" (.resource "likes") (.resource "tea")], [],
    ["?x"]⟩

/-- Two variables in a relation, where the second one differs from a constant. -/
def Rule.except (predicate x y constant : String) : Rule :=
  ⟨"except", [.between x (.resource predicate) y], [⟨.var y, .const (.resource constant)⟩], [y]⟩

/-- A fact about the cat, with a predicate whose text is that of another predicate and its object. -/
def Fact.catFact : Fact := ⟨.resource "ann", .resource "knows bob", .resource "cat"⟩

namespace Engine

/-- An inequality is respected where the memories and tests keep its variable from its constant: on the chain of no token of the rule
has a fact the constant in a place where its condition has the variable, and the bindings of the rule do not give the constant to the
variable. -/
theorem ne_of_inequality {e : Engine} {rs : List Rule} (hb : e.Built rs) (hn : (rs.map (·.name)).Nodup) {fs : List Fact}
    (hlen : fs.length ≤ e.settings.maxFacts) :
    ∃ m n, e.evaluate fs = .ok (m, { e with network := n }) ∧ ∀ r ∈ rs, ∀ i ∈ r.inequalities, ∀ (name : String) (u : Term),
      i.pair? = some (name, u) → r.Guarded rs fs name u → ∃ id, n.production? r.name = some id ∧
        (∀ t ∈ n.held id, ∀ (k : Nat) (c : Condition), r.conditions[k]? = some c → ∃ g, (n.matchOf t)[k]? = some g ∧
          ∀ field, c.slot field = .var name → field.read g ≠ u) ∧
        ∃ b?, n.bindings r.name = .ok b? ∧ ∀ b, b? = some b → b.find? name ≠ some u := by
  obtain ⟨m, n, he, h, hbare, hmem, hall⟩ := hb.stands.evaluate_ok hlen
  have hreg := hb.stands.registered.of_bare hbare
  have hserves := Network.serves_of_bare hb.stands.rules hbare
  have hfs : ∀ g ∈ n.facts.toList, g ∈ fs := fun g => (hmem g).1
  refine ⟨m, n, he, fun r hr i hi name u hpair hguard => ?_⟩
  have hu : u ∈ r.excludedFor name := Rule.mem_excludedFor.2 ⟨i, hi, hpair⟩
  obtain ⟨k, hk⟩ := List.mem_iff_getElem?.1 hr
  obtain ⟨id, p, js, hid, -, -, hreach⟩ := hreg.reaches h.toWired hk
  have hnewest : n.Newest rs r.name id := ⟨k, r, hk, rfl, hid, fun k' r' hk' hname =>
    Nat.le_of_eq (Network.index_unique hn hk' hk hname)⟩
  obtain ⟨id', hspeaks⟩ := h.exists_speaks hreg hr
  obtain ⟨q, hanswers⟩ := h.exists_answersFor hreg hall hspeaks
  refine ⟨id, hreg.named.2 hnewest, fun t ht => (Network.ne_of_guarded h hserves hfs hr hreach ht hu hguard).2, _,
    hanswers.bindings, fun b hbind => ?_⟩
  rw [← hanswers.entry] at hbind
  exact Network.find?_ne_of_guarded h hserves hfs hr hreg hn hall hbind hu hguard

theorem ne_of_inequality_mutual : ∃ m n id, (ofRules [.mutualRule]).evaluate Fact.mutualFacts =
      .ok (m, { ofRules [.mutualRule] with network := n }) ∧ n.production? "mutual" = some id ∧
    (∀ t ∈ n.held id, ∀ (k : Nat) (c : Condition), Rule.mutualRule.conditions[k]? = some c → ∃ g, (n.matchOf t)[k]? = some g ∧
      ∀ field, c.slot field = .var "?x" → field.read g ≠ .resource "bob") ∧
    ∃ b, n.bindings "mutual" = .ok (some b) ∧ b.find? "?x" ≠ some (.resource "bob") := by
  have hlen : Fact.mutualFacts.length ≤ (ofRules [.mutualRule]).settings.maxFacts := by decide
  obtain ⟨m, n, he, hrules⟩ := ne_of_inequality (built_ofRules [.mutualRule] rfl) (List.nodup_singleton _) hlen
  have hguard : Rule.mutualRule.Guarded [.mutualRule] Fact.mutualFacts "?x" (.resource "bob") := by
    refine Rule.guarded_of_separated (List.mem_singleton_self _) (by decide) (by decide) ?_
    rintro k c hc - ⟨name, hs, ho, -⟩
    have hboth : ∀ c ∈ Rule.mutualRule.conditions, c.subject ≠ c.object := by decide
    exact absurd (hs.trans ho.symm) (hboth c (List.mem_of_getElem? hc))
  obtain ⟨id, hid, hheld, b?, hb, hne⟩ := hrules .mutualRule (List.mem_singleton_self _) ⟨.var "?x", .const (.resource "bob")⟩
    (List.mem_singleton_self _) "?x" (.resource "bob") rfl hguard
  have hsome : ((ofRules [.mutualRule]).evaluate Fact.mutualFacts).toOption.all fun p =>
      (p.2.network.bindings "mutual").toOption.any Option.isSome := by decide +kernel
  rw [he] at hsome
  have hb' : n.bindings "mutual" = .ok b? := hb
  simp only [Except.toOption, Option.all_some, hb', Option.any_some] at hsome
  obtain ⟨b, rfl⟩ := Option.isSome_iff_exists.1 hsome
  exact ⟨m, n, id, he, hid, hheld, b, hb, hne b rfl⟩

/-- Whether the first evaluation of a batch binds a variable of a rule to a constant that the rule says it differs from, although the
variable is the object of a condition. -/
def Breaks (rs : List Rule) (fs : List Fact) (r : Rule) (name : String) (u : Term) : Prop :=
  r ∈ rs ∧ (∃ i ∈ r.inequalities, i.pair? = some (name, u)) ∧ (∃ c ∈ r.conditions, c.object = .var name) ∧
    ∃ m e' b, (ofRules rs).evaluate fs = .ok (m, e') ∧ e'.network.bindings r.name = .ok (some b) ∧ b.find? name = some u

/-- A variable that an evaluation is seen to bind to a term is bound to it. -/
theorem exists_bound {e : Engine} {fs : List Fact} {name v : String} {u : Term} (h : ((e.evaluate fs).toOption.any fun p =>
      (p.2.network.bindings name).toOption.any fun b? => b?.any fun b => b.find? v == some u) = true) :
    ∃ m e' b, e.evaluate fs = .ok (m, e') ∧ e'.network.bindings name = .ok (some b) ∧ b.find? v = some u := by
  obtain ⟨⟨m, e'⟩, he, h⟩ := toOption_any_iff.1 h
  obtain ⟨b?, hb, h⟩ := toOption_any_iff.1 h
  obtain ⟨b, rfl, hfind⟩ := (Option.any_eq_true _ _).1 h
  exact ⟨m, e', b, he, hb, beq_iff_eq.1 hfind⟩

/-- Inequalities do not hold: where a new variable is in both places of a condition; where an earlier rule has the key with a constant
as its object; and where a fact has the key as that of its predicate and object. -/
theorem exists_breaks :
    Breaks [.except "knows" "?x" "?x" "alice"] [.acquaintance] (.except "knows" "?x" "?x" "alice") "?x" (.resource "alice") ∧
    Breaks [.bobRule, .except "knows bob" "?x" "?y" "cat"] [.catFact] (.except "knows bob" "?x" "?y" "cat") "?y"
      (.resource "cat") ∧
    Breaks [.except "knows bob" "?x" "?y" "bob"] [.acquaintance] (.except "knows bob" "?x" "?y" "bob") "?y" (.resource "bob") :=
  ⟨⟨by decide, by decide, by decide, exists_bound (by decide +kernel)⟩,
    ⟨by decide, by decide, by decide, exists_bound (by decide +kernel)⟩,
    ⟨by decide, by decide, by decide, exists_bound (by decide +kernel)⟩⟩

end Engine

end TripleRules

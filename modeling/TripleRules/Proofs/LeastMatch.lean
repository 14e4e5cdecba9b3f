import TripleRules.Proofs.Mentions
import TripleRules.Proofs.OrderIndependence

/-!
# The match that is reported

A rule may have many matches. The bindings report one of them, the least, where matches are compared fact by fact in the order of the
conditions. They give the selected variables, and no others, the terms that the match has for them, each off the last condition that
mentions the variable.
-/

namespace TripleRules

/-- Whether a term is what the last of the conditions that mention a variable reads for it, off the subject if that is the variable
and off the object if not. -/
def ReadLast (cs : List Condition) (gs : List Fact) (name : String) (v : Term) : Prop :=
  ∃ (k : Nat) (c : Condition) (g : Fact), cs[k]? = some c ∧ gs[k]? = some g ∧ c.mentions name = true ∧
    (∀ (i : Nat) (d : Condition), k < i → cs[i]? = some d → d.mentions name = false) ∧
    v = if c.subject = .var name then g.subject else g.object

/-- Bindings report a match of a rule: exactly the selected variables, each with the term that is read last. -/
structure Bindings.Report (b : Bindings) (r : Rule) (gs : List Fact) : Prop where
  names : ∀ name, name ∈ b.names ↔ name ∈ r.select
  terms : ∀ name ∈ r.select, ∀ v, b.find? name = some v ↔ ReadLast r.conditions gs name v

/-! ## Terms -/

/-- A condition reads a term for the variables that it mentions, and looks at its subject first. -/
theorem Condition.map_read_fieldOf? (c : Condition) (g : Fact) (name : String) : (c.fieldOf? name).map (·.read g) =
    if c.mentions name then some (if c.subject = .var name then g.subject else g.object) else none := by
  cases hf : c.fieldOf? name with
  | none =>
    have hm : ¬c.mentions name = true := by
      rw [mentions_iff]
      rintro ⟨field, hs⟩
      exact fieldOf?_eq_none hf field hs
    rw [if_neg hm, Option.map_none]
  | some field =>
    obtain ⟨hs, hfirst⟩ := fieldOf?_eq_some hf
    rw [if_pos (mentions_iff.2 ⟨field, hs⟩), Option.map_some]
    cases field with
    | subject => rw [if_pos (show c.subject = .var name from hs), Field.read]
    | object => rw [if_neg (hfirst rfl), Field.read]

/-- The term of a variable is what the last condition that mentions it reads. -/
theorem readLast_iff {cs : List Condition} {gs : List Fact} (hlen : cs.length = gs.length) {name : String} {v : Term} :
    ReadLast cs gs name v ↔ termOf? name (pairs cs gs) = some v := by
  simp only [termOf?, Condition.map_read_fieldOf?]
  constructor
  · rintro ⟨k, c, g, hc, hg, hm, hlater, rfl⟩
    rw [pairs_eq_append hc hg, List.findSome?_append, List.findSome?_eq_none_iff.2, Option.none_or, List.findSome?_cons, if_pos hm]
    intro p hp
    obtain ⟨i, hi⟩ := List.mem_iff_getElem?.1 (List.of_mem_zip (List.mem_reverse.1 hp)).1
    rw [List.getElem?_drop] at hi
    rw [hlater _ _ (by omega) hi, if_neg Bool.false_ne_true]
  · intro hv
    obtain ⟨new, ⟨c, g⟩, old, he, hread, hnew⟩ := List.findSome?_eq_some_iff.1 hv
    have hzip : cs.zip gs = old.reverse ++ (c, g) :: new.reverse := by
      rw [← List.reverse_reverse (cs.zip gs), ← pairs, he, List.reverse_append, List.reverse_cons, List.append_assoc,
        List.singleton_append]
    have hat : ∀ m, (cs.zip gs)[old.length + m]? = ((c, g) :: new.reverse)[m]? := by
      intro m
      rw [hzip, List.getElem?_append_right (by simp), List.length_reverse, Nat.add_sub_cancel_left]
    obtain ⟨hc, hg⟩ := List.getElem?_zip_eq_some.1 (hat 0)
    obtain ⟨hm, hterm⟩ := Option.ite_none_right_eq_some.1 hread
    refine ⟨old.length, c, g, hc, hg, hm, fun i d hi hd => ?_, (Option.some.inj hterm).symm⟩
    -- what comes after the condition that was found was passed over
    obtain ⟨m, rfl⟩ := Nat.exists_eq_add_of_lt hi
    obtain ⟨e, hge⟩ : ∃ e, gs[old.length + (m + 1)]? = some e :=
      ⟨_, List.getElem?_eq_getElem (hlen ▸ (List.getElem?_eq_some_iff.1 hd).1)⟩
    have hz : (cs.zip gs)[old.length + (m + 1)]? = some (d, e) := List.getElem?_zip_eq_some.2 ⟨hd, hge⟩
    rw [hat] at hz
    simpa using hnew _ (List.mem_reverse.1 (List.mem_of_getElem? hz))

/-! ## Tokens -/

namespace Network

/-- Whether a token of a node has the least match, in the order of the facts from the first condition on. -/
def Least (n : Network) (id : NodeId) (t : TokenId) : Prop :=
  t ∈ n.held id ∧ ∀ u ∈ n.held id, (compare (n.matchOf t) (n.matchOf u)).isLE

variable {n : Network}

/-- A node that holds tokens has one token with the least match: no two of its tokens have the same match. -/
theorem Finished.least_unique (h : n.Finished) {id : NodeId} {t u : TokenId} (ht : n.Least id t) (hu : n.Least id u) : t = u := by
  obtain ⟨js, hpath⟩ := h.exists_path_of_held ht.1
  refine h.matchOf_inj hpath ht.1 hu.1 ?_
  exact Std.LawfulEqOrd.eq_of_compare (Std.OrientedCmp.isLE_antisymm (ht.2 u hu.1) (hu.2 t ht.1))

section

variable (h : n.Sound) {id : NodeId} {js : List JoinNode} {r : Rule} (hp : n.Path topNode id js)
  (hjs : js.map (·.condition) = r.conditions.reverse) {t : TokenId} (ht : t ∈ n.held id)
include h hp hjs ht

/-- A match of a rule has a fact for each of its conditions. -/
theorem length_matchOf_rule : r.conditions.length = (n.matchOf t).length := by
  rw [h.length_matchOf hp ht, ← List.length_reverse, ← hjs, List.length_map]

/-- The bindings of a token of the production of a rule report its match. -/
theorem report_bindingsOf (hc : r.check = .ok ()) : (n.bindingsOf r.select t).Report r (n.matchOf t) := by
  have hlen := length_matchOf_rule h hp hjs ht
  have hfind := find?_bindingsOf h hp hjs ht r.select
  refine ⟨fun name => ?_, fun name hname v => ?_⟩
  · rw [Table.mem_names_iff, hfind]
    constructor
    · rintro ⟨v, hv⟩
      exact List.contains_iff_mem.1 (Option.ite_none_right_eq_some.1 hv).1
    · intro hname
      obtain ⟨c, hcin, hm⟩ := Rule.mentions_of_check hc name hname
      rw [if_pos (List.contains_iff_mem.2 hname)]
      exact exists_termOf?_of_mentions hlen hcin hm
  · rw [hfind, if_pos (List.contains_iff_mem.2 hname), readLast_iff hlen]

end

/-! ## Rules and facts -/

/-- For any rules with distinct names that a new network accepts and any facts inserted after them: the tokens of the production of a
satisfied rule have different matches of one length, one for each condition, so one token has the least match. The bindings of the
rule are there, and report this match. -/
theorem report_least {rs : List Rule} {n₀ : Network} (hr : empty.addRules rs = .ok n₀) (hn : (rs.map (·.name)).Nodup)
    (fs : List Fact) :
    ∃ n, n₀.addFacts fs = .ok n ∧ ∀ (i : Nat) (r : Rule), rs[i]? = some r → r.name ∈ n.satisfiedNames →
      ∃ id, n.productions[i]? = some id ∧ Set.InjOn n.matchOf {t | t ∈ n.held id} ∧
        (∀ t ∈ n.held id, (n.matchOf t).length = r.conditions.length) ∧
        ∃ t, n.Least id t ∧ (∀ u, n.Least id u → u = t) ∧
          ∃ b, n.bindings r.name = .ok (some b) ∧ b.Report r (n.matchOf t) := by
  obtain ⟨hw₀, hr₀⟩ := wired_addRules wired_empty registered_empty hr
  obtain ⟨n, he, h, hb, -⟩ := addFacts_ok (finished_of_clean hw₀ (clean_of_bare hw₀ (bare_of_addRules hr))) fs
  have hreg := hr₀.of_bare hb
  refine ⟨n, he, fun i r hi hs => ?_⟩
  obtain ⟨id, hs⟩ := mem_satisfiedNames.1 hs
  obtain ⟨p, t, hp, hname, ht, hleast, hbind⟩ := bindings_of_satisfied h.toMarked hs
  -- the production with the name of the rule is that of the rule
  obtain ⟨k, q, hid, hk, hrule, hselect, js, hpath, hjs⟩ := hreg.exists_rule hp
  obtain rfl := index_unique hn hk hi (hrule.symm.trans hname)
  obtain rfl := Option.some.inj (hk.symm.trans hi)
  refine ⟨id, hid, fun u hu v hv he => h.matchOf_inj hpath hu hv he,
    fun u hu => (length_matchOf_rule h.toSound hpath hjs hu).symm, t, ⟨ht, hleast⟩, fun u hu => h.least_unique hu ⟨ht, hleast⟩, _,
    hbind, ?_⟩
  rw [hselect]
  exact report_bindingsOf h.toSound hpath hjs ht (hreg.checked q (List.mem_of_getElem? hi))

/-- Where somebody works whom somebody knows. -/
def colleagueRule : Rule :=
  ⟨"colleague", [.between "?x" (.resource "knows") "?y", .between "?y" (.resource "worksAt") "?org"], [], ["?x", "?org"]⟩

/-- Two matches of the rule. The one that is completed last has the least facts. -/
def colleagueFacts : List Fact :=
  [⟨.resource "bob", .resource "worksAt", .resource "initech"⟩, ⟨.resource "alice", .resource "knows", .resource "carol"⟩,
    ⟨.resource "carol", .resource "worksAt", .resource "acme"⟩, ⟨.resource "alice", .resource "knows", .resource "bob"⟩]

/-- Alice is reported with whom she knows first by name, although the work of the other comes first. -/
theorem report_least_colleague : ([knownRule, colleagueRule].map (·.name)).Nodup ∧ ∃ n₀ n t b,
    empty.addRules [knownRule, colleagueRule] = .ok n₀ ∧ n₀.addFacts colleagueFacts = .ok n ∧ colleagueRule.name ∈ n.satisfiedNames ∧
    n.productions[1]? = some 8 ∧ n.held 8 = [2, 4] ∧ n.Least 8 t ∧ n.bindings "colleague" = .ok (some b) ∧
    b.Report colleagueRule (n.matchOf t) ∧ b.find? "?org" = some (.resource "initech") := by
  obtain ⟨n₀, h₀⟩ : ∃ n₀, empty.addRules [knownRule, colleagueRule] = .ok n₀ := ⟨_, rfl⟩
  have hn : ([knownRule, colleagueRule].map (·.name)).Nodup := by decide
  obtain ⟨n, he, h⟩ := report_least h₀ hn colleagueFacts
  have hrun : (empty.addRules [knownRule, colleagueRule]).bind (fun n => (n.addFacts colleagueFacts).map fun n =>
      (n.satisfiedNames, n.productions, n.held 8)) = .ok (["colleague"], #[6, 8], [2, 4]) := by decide +kernel
  have horg : (empty.addRules [knownRule, colleagueRule]).bind (fun n => (n.addFacts colleagueFacts).bind fun n =>
      (n.bindings "colleague").map (·.bind (·.find? "?org"))) = .ok (some (.resource "initech")) := by decide +kernel
  simp only [h₀, he, Except.bind, Except.map, Except.ok.injEq, Prod.mk.injEq] at hrun horg
  obtain ⟨hsat, hprod, hheld⟩ := hrun
  have hs : colleagueRule.name ∈ n.satisfiedNames := hsat ▸ List.mem_singleton_self _
  obtain ⟨id, hid, -, -, t, ht, -, b, hb, hreport⟩ := h 1 colleagueRule rfl hs
  obtain rfl : 8 = id := by
    rw [hprod] at hid
    exact Option.some.inj hid
  have hb' : n.bindings "colleague" = .ok (some b) := hb
  rw [hb'] at horg
  exact ⟨hn, n₀, n, t, b, h₀, he, hs, hid, hheld, ht, hb', hreport, by simpa using horg⟩

end Network

end TripleRules

import TripleRules.Proofs.Strict

/-!
# The names and the productions agree

What is known of a rule name is kept in three places: the productions hold the matches, a table lists the satisfied names with a
production for each, and another lists the newest production of each name. They are written to on different occasions, but always
agree, also for names that several rules share. So the matches of a batch are the answers for its satisfied names, and none is
missing.
-/

namespace TripleRules

namespace Network

/-- Whether a node is the production of a rule of some name, and holds a token. -/
def Matched (n : Network) (rs : List Rule) (name : String) (id : NodeId) : Prop :=
  ∃ (i : Nat) (r : Rule) (p : ProductionNode), rs[i]? = some r ∧ r.name = name ∧ n.productions[i]? = some id ∧
    n.nodes[id]? = some (.production p) ∧ p.isSatisfied = true

/-- What a network answers for the names of its rules is what their productions hold. -/
structure Consistent (n : Network) (rs : List Rule) : Prop where
  registered_iff : ∀ name, n.isRegistered name = true ↔ ∃ r ∈ rs, r.name = name
  satisfied_iff : ∀ name, name ∈ n.satisfiedNames ↔ ∃ id, n.Matched rs name id
  recorded : ∀ name id, n.satisfied.find? name = some id → n.Matched rs name id
  bindings_some : ∀ name, (∃ b, n.bindings name = .ok (some b)) ↔ name ∈ n.satisfiedNames
  bindings_none : ∀ name, n.bindings name = .ok none ↔ (∃ r ∈ rs, r.name = name) ∧ name ∉ n.satisfiedNames

section

variable {n : Network} {rs : List Rule} (hr : n.Registered rs)
include hr

/-- The productions of rules are the productions that there are. -/
theorem matched_iff {name : String} {id : NodeId} :
    n.Matched rs name id ↔ ∃ p, n.nodes[id]? = some (.production p) ∧ p.rule = name ∧ n.held id ≠ [] := by
  constructor
  · rintro ⟨i, r, p, hi, hname, hid, hp, hsat⟩
    obtain ⟨q, -, hq, hrule, -⟩ := hr.production hid hi
    obtain rfl := Node.production.inj (Option.some.inj (hp.symm.trans hq))
    exact ⟨p, hp, hrule.trans hname, (isSatisfied_iff hp).1 hsat⟩
  · rintro ⟨p, hp, hname, hne⟩
    obtain ⟨i, r, hid, hi, hrule, -⟩ := hr.exists_rule hp
    exact ⟨i, r, p, hi, hrule.symm.trans hname, hid, hp, (isSatisfied_iff hp).2 hne⟩

theorem isRegistered_iff {name : String} : n.isRegistered name = true ↔ ∃ r ∈ rs, r.name = name := by
  rw [isRegistered, Table.contains, Option.isSome_iff_exists]
  constructor
  · rintro ⟨id, hid⟩
    obtain ⟨i, r, hi, hname, -⟩ := hr.named.1 hid
    exact ⟨r, List.mem_of_getElem? hi, hname⟩
  · rintro ⟨r, hmem, rfl⟩
    obtain ⟨id, hnew⟩ := hr.exists_newest hmem
    exact ⟨id, hr.named.2 hnew⟩

/-- Whatever has happened in a batch, the names and the productions agree. -/
theorem Sound.consistent (h : n.Sound) : n.Consistent rs := by
  have hrecorded : ∀ name id, n.satisfied.find? name = some id → n.Matched rs name id := fun name id hs =>
    (matched_iff hr).2 (h.satisfied_some hs)
  have hsome : ∀ name, (∃ b, n.bindings name = .ok (some b)) ↔ name ∈ n.satisfiedNames := by
    intro name
    rw [mem_satisfiedNames]
    constructor
    · rintro ⟨b, hb⟩
      exact satisfied_of_bindings h.toMarked hr hb
    · rintro ⟨id, hs⟩
      obtain ⟨p, t, -, -, -, -, hb⟩ := bindings_of_satisfied h.toMarked hs
      exact ⟨_, hb⟩
  refine ⟨fun name => isRegistered_iff hr, fun name => ?_, hrecorded, hsome, fun name => ?_⟩
  · rw [mem_satisfiedNames]
    constructor
    · rintro ⟨id, hs⟩
      exact ⟨id, hrecorded name id hs⟩
    · rintro ⟨id, hm⟩
      obtain ⟨p, hp, rfl, hne⟩ := (matched_iff hr).1 hm
      exact h.satisfied_of hp hne
  · rw [← hsome]
    rcases bindings_cases h hr name with ⟨hreg, b?, hb⟩ | ⟨hnot, hb⟩
    · rw [hb]
      cases b? with
      | none => exact iff_of_true rfl ⟨hreg, fun ⟨b, hsome⟩ => nomatch hsome⟩
      | some b => exact iff_of_false (fun hnone => nomatch hnone) fun ⟨_, hnone⟩ => hnone ⟨b, rfl⟩
    · rw [hb]
      exact iff_of_false (fun hnone => nomatch hnone) fun ⟨⟨r, hmem, hname⟩, _⟩ => hnot r hmem hname

end

/-- The matches of a batch have the satisfied names, and for each what its bindings are. -/
theorem Consistent.allMatches {n : Network} {rs : List Rule} (h : n.Consistent rs) (hm : n.Marked) {m : Matches}
    (he : n.allMatches = .ok m) : m.names = n.satisfiedNames ∧
      ∀ name b, m.bindings? name = some b ↔ n.bindings name = .ok (some b) := by
  obtain ⟨m', he', hfind⟩ := allMatches_ok hm
  obtain rfl := Except.ok.inj (he.symm.trans he')
  have hentry : ∀ name b, m.bindings? name = some b ↔ n.bindings name = .ok (some b) := by
    intro name b
    rw [Matches.bindings?, hfind, ← mem_satisfiedNames, ← h.bindings_some]
    exact and_iff_right_of_imp fun hb => ⟨b, hb⟩
  have hnames : ∀ name, name ∈ m.rules.names ↔ name ∈ n.satisfied.names := by
    intro name
    rw [Table.mem_names_iff, Table.mem_names_iff, ← mem_satisfiedNames, ← h.bindings_some]
    exact exists_congr (hentry name)
  exact ⟨Ordered.sort_eq_of_perm ((List.perm_ext_iff_of_nodup m.rules.nodup_names n.satisfied.nodup_names).2 hnames), hentry⟩

end Network

namespace Engine

/-- Whatever rules, facts and resets a network is given, and in whatever order, its names and its productions agree. So whatever
rules an engine has compiled and batches it has evaluated, an evaluation within the limit succeeds, and the matches that it gives are
the satisfied names of the network that it leaves, all of them, each with its bindings there. -/
theorem calls_consistent :
    (∀ cs : List Network.Call, ∃ n rs, Network.calls cs = .ok (n, rs) ∧ n.Consistent rs) ∧
    ∀ (s : Settings) (cs : List Call) (fs : List Fact),
      (fs.length ≤ s.maxFacts ↔ ∃ m e, (calls s cs).1.evaluate fs = .ok (m, e)) ∧
      ∀ m e, (calls s cs).1.evaluate fs = .ok (m, e) →
        e.network.Consistent (calls s cs).2 ∧ m.names = e.network.satisfiedNames ∧
        ∀ name b, m.bindings? name = some b ↔ e.network.bindings name = .ok (some b) := by
  refine ⟨fun cs => ?_, fun s cs fs => ⟨?_, fun m e he => ?_⟩⟩
  · obtain ⟨n, rs, he, h⟩ := Network.calls_ok cs
    exact ⟨n, rs, he, h.toSound.consistent (Network.registered_of_addRules h.rules)⟩
  · have hk := keeps_calls s cs
    have hmax : (calls s cs).1.settings.maxFacts = s.maxFacts := congrArg (·.maxFacts) hk.settings
    constructor
    · intro hlen
      obtain ⟨m, n, he, -⟩ := hk.evaluate_ok (hmax.symm ▸ hlen)
      exact ⟨m, _, he⟩
    · rintro ⟨m, e, he⟩
      exact hmax ▸ (evaluate_eq_ok he).1
  · have hk := keeps_calls s cs
    obtain ⟨m', n, he', h, hbare, -, hall⟩ := hk.evaluate_ok (evaluate_eq_ok he).1
    obtain ⟨rfl, rfl⟩ := Prod.mk.inj (Except.ok.inj (he.symm.trans he'))
    have hc := h.toSound.consistent (hk.registered.of_bare hbare)
    exact ⟨hc, hc.allMatches h.toMarked hall⟩

/-- Two rules of one name, of which the second comes too late for the fact that it asks for. -/
def sharedCalls : List Network.Call := [.rule .knowsRule, .fact .acquaintance, .fact .affection, .rule .likesRule]

/-- The name is satisfied through its first rule, although it stands for the second. In an evaluation its match is that of the first
as well, if only that one has a match. -/
theorem calls_consistent_shared :
    (∃ n rs, Network.calls sharedCalls = .ok (n, rs) ∧ n.Consistent rs ∧ n.satisfiedNames = ["r"] ∧ n.production? "r" = some 4 ∧
      n.held 4 = [] ∧ (∃ id, n.Matched rs "r" id) ∧ ∃ b, n.bindings "r" = .ok (some b)) ∧
    ∃ m e, (calls .initial [.compile .knowsRule, .compile .likesRule]).1.evaluate [.acquaintance] = .ok (m, e) ∧
      e.network.satisfiedNames = ["r"] ∧ m.names = ["r"] ∧
      ∃ b, m.bindings? "r" = some b ∧ e.network.bindings "r" = .ok (some b) := by
  obtain ⟨hcalls, hengine⟩ := calls_consistent
  have hmem : "r" ∈ ["r"] := List.mem_singleton_self _
  constructor
  · obtain ⟨n, rs, he, h⟩ := hcalls sharedCalls
    have hrun : (Network.calls sharedCalls).map (fun p => (p.1.satisfiedNames, p.1.production? "r", p.1.held 4)) =
        .ok (["r"], some 4, []) := by decide +kernel
    rw [he] at hrun
    simp only [Except.map, Except.ok.injEq, Prod.mk.injEq] at hrun
    obtain ⟨hnames, hprod, hheld⟩ := hrun
    exact ⟨n, rs, he, h, hnames, hprod, hheld, (h.satisfied_iff "r").1 (hnames ▸ hmem), (h.bindings_some "r").2 (hnames ▸ hmem)⟩
  · obtain ⟨hok, h⟩ := hengine .initial [.compile .knowsRule, .compile .likesRule] [.acquaintance]
    obtain ⟨m, e, he⟩ := hok.1 (by decide)
    obtain ⟨hc, hm, hentry⟩ := h m e he
    have hrun : ((calls .initial [.compile .knowsRule, .compile .likesRule]).1.evaluate [.acquaintance]).map
        (fun q => q.2.network.satisfiedNames) = .ok ["r"] := by decide +kernel
    rw [he] at hrun
    have hnames : e.network.satisfiedNames = ["r"] := Except.ok.inj hrun
    obtain ⟨b, hb⟩ := (hc.bindings_some "r").2 (hnames ▸ hmem)
    exact ⟨m, e, he, hnames, hm.trans hnames, b, (hentry "r" b).2 hb, hb⟩

end Engine

end TripleRules

import Mathlib.Data.List.Induction
import TripleRules.Proofs.Matching

/-!
# What a reported match is evidence of

The bindings of a satisfied rule are read off a tuple of facts of the batch. The facts agree on the variables across the conditions,
and each shares a key with its condition. A key is a text, and nothing in it is escaped, so a fact can share the key of a condition
without having its predicate or its object; and no test compares the two places of one fact. So a tuple is a match exactly if each
of its facts has the predicate and the constants of its condition, and the same term wherever the condition has a new variable twice.
-/

namespace TripleRules

/-! ## Instances -/

/-- Whether a term can stand in a slot. -/
def Slot.fits : Slot → Term → Bool
  | .var _, _ => true
  | .const t, u => t == u

/-- Whether a fact has the predicate and the constants of a condition. -/
def Condition.fits (c : Condition) (f : Fact) : Bool :=
  f.predicate == c.predicate && c.subject.fits f.subject && c.object.fits f.object

/-- A fact fits a condition exactly if it has the predicate and the constants of it. -/
theorem Condition.fits_iff {c : Condition} {f : Fact} : c.fits f = true ↔
    f.predicate = c.predicate ∧ ∀ field term, c.slot field = .const term → field.read f = term := by
  have hslot : ∀ (s : Slot) (u : Term), s.fits u = true ↔ ∀ t, s = .const t → u = t := by
    intro s u
    cases s with
    | var name => simp [Slot.fits]
    | const t =>
      rw [Slot.fits, beq_iff_eq]
      constructor
      · rintro rfl _ he
        exact Slot.const.inj he
      · exact fun h => (h t rfl).symm
  simp only [fits, Bool.and_eq_true, beq_iff_eq, hslot]
  constructor
  · rintro ⟨⟨hp, hs⟩, ho⟩
    refine ⟨hp, fun field => ?_⟩
    cases field with
    | subject => exact hs
    | object => exact ho
  · rintro ⟨hp, h⟩
    exact ⟨⟨hp, h .subject⟩, h .object⟩

/-- Whether a condition has one variable in both places that no condition before it mentions. -/
def Condition.NewTwice (earlier : List Condition) (c : Condition) : Prop :=
  ∃ name, c.subject = .var name ∧ c.object = .var name ∧ ∀ d ∈ earlier, d.mentions name = false

/-- Whether each fact of a tuple has the predicate and the constants of its condition, and is the same in both places if the condition
has a new variable in both. -/
def Fits (cs : List Condition) (gs : List Fact) : Prop :=
  ∀ (i : Nat) (c : Condition) (g : Fact), cs[i]? = some c → gs[i]? = some g →
    c.fits g = true ∧ (c.NewTwice (cs.take i) → g.subject = g.object)

/-- Facts that fit the conditions and one more fit the conditions, and the last one fits the last. -/
theorem Fits.of_append {cs : List Condition} {gs : List Fact} {c : Condition} {g : Fact} (hlen : cs.length = gs.length)
    (h : Fits (cs ++ [c]) (gs ++ [g])) : Fits cs gs ∧ c.fits g = true ∧ (c.NewTwice cs → g.subject = g.object) := by
  obtain ⟨hold, hlast⟩ := (List.forall_getElem?_append_singleton hlen).1 h
  rw [List.take_left] at hlast
  refine ⟨fun i d e hd he => ?_, hlast⟩
  rw [← List.take_append_of_le_length (Nat.le_of_lt (List.getElem?_eq_some_iff.1 hd).1)]
  exact hold i d e hd he

theorem Condition.newTwice_reverse {c : Condition} {earlier : List Condition} :
    c.NewTwice earlier.reverse ↔ c.NewTwice earlier := by
  simp only [NewTwice, List.mem_reverse]

/-- A fact has one term in both places of a variable, unless the variable is new. -/
theorem subject_eq_object {c : Condition} {g : Fact} {ps : List (Condition × Fact)} (ha : Agrees ((c, g) :: ps)) {name : String}
    (hs : c.subject = .var name) (ho : c.object = .var name) (hn : ¬c.NewTwice (ps.map Prod.fst)) : g.subject = g.object := by
  by_contra hne
  refine hn ⟨name, hs, ho, fun d hd => ?_⟩
  rw [← Bool.not_eq_true, Condition.mentions_iff]
  rintro ⟨field, hslot⟩
  obtain ⟨p, hpmem, rfl⟩ := List.mem_map.1 hd
  obtain ⟨v, hv⟩ := exists_termOf? hpmem hslot
  exact hne ((ha.2 .subject name v hs hv).trans (ha.2 .object name v ho hv).symm)

/-- A fact that fits its condition and agrees with the facts before is an instance, unless it differs in the places of a new
variable. -/
theorem instance_of_fits {c : Condition} {g : Fact} {ps : List (Condition × Fact)} (ha : Agrees ((c, g) :: ps))
    (hf : c.fits g = true) (hn : c.NewTwice (ps.map Prod.fst) → g.subject = g.object) : c.Instance g := by
  obtain ⟨hp, hc⟩ := Condition.fits_iff.1 hf
  refine Condition.instance_iff.2 ⟨hp, hc, fun name hs ho => ?_⟩
  by_cases hnew : c.NewTwice (ps.map Prod.fst)
  · exact hn hnew
  · exact subject_eq_object ha hs ho hnew

/-- The facts of a tuple that agree are instances exactly if they fit. -/
theorem instances_iff_fits {cs : List Condition} {gs : List Fact} (hlen : cs.length = gs.length) (ha : Agrees (pairs cs gs)) :
    (∀ p ∈ cs.zip gs, p.1.Instance p.2) ↔ Fits cs gs := by
  constructor
  · intro hi i c g hc hg
    have hmem : (c, g) ∈ cs.zip gs := List.mem_of_getElem? (i := i) (List.getElem?_zip_eq_some.2 ⟨hc, hg⟩)
    obtain ⟨hp, hconst, hvar⟩ := Condition.instance_iff.1 (hi _ hmem)
    refine ⟨Condition.fits_iff.2 ⟨hp, hconst⟩, ?_⟩
    rintro ⟨name, hs, ho, -⟩
    exact hvar name hs ho
  · intro hf
    induction cs using List.reverseRecOn generalizing gs with
    | nil => exact fun p hp => absurd hp (by simp)
    | append_singleton cs c ih =>
      rcases List.eq_nil_or_concat gs with rfl | ⟨hs, g, rfl⟩
      · simp at hlen
      · rw [List.concat_eq_append] at hlen ha hf ⊢
        have hlen' : cs.length = hs.length := by simpa using hlen
        obtain ⟨hold, hfits, hnew⟩ := hf.of_append hlen'
        rw [pairs_append hlen'] at ha
        rw [List.zip_append hlen']
        intro p hp
        rcases List.mem_append.1 hp with hp | hp
        · exact ih hlen' ha.1 hold p hp
        · obtain rfl := List.mem_singleton.1 hp
          refine instance_of_fits ha hfits ?_
          rw [map_fst_pairs hlen', Condition.newTwice_reverse]
          exact hnew

/-! ## Substitutions of a tuple -/

/-- A substitution turns conditions into facts if it turns each of them into its fact. -/
theorem map_apply_eq_iff {σ : String → Term} {cs : List Condition} {gs : List Fact} (hlen : cs.length = gs.length) :
    cs.map (·.apply σ) = gs ↔ ∀ p ∈ cs.zip gs, p.1.apply σ = p.2 := by
  induction cs generalizing gs with
  | nil =>
    obtain rfl := List.length_eq_zero_iff.1 hlen.symm
    simp
  | cons c cs ih =>
    cases gs with
    | nil => nomatch hlen
    | cons g gs =>
      have hih : cs.map (·.apply σ) = gs ↔ ∀ p ∈ cs.zip gs, p.1.apply σ = p.2 := ih (Nat.succ.inj hlen)
      rw [List.map_cons, List.cons.injEq, hih, List.zip_cons_cons, List.forall_mem_cons]

/-- Bindings agree with a substitution on the selected variables. -/
def Bindings.AgreesWith (b : Bindings) (select : List String) (σ : String → Term) : Prop :=
  ∀ name ∈ select, b.find? name = some (σ name)

/-- What is read off a tuple for the selected variables is what a substitution that makes the tuple gives them. -/
theorem agreesWith_of_apply {σ : String → Term} {select : List String} {cs : List Condition} {gs : List Fact}
    (hlen : cs.length = gs.length) (hsel : ∀ name ∈ select, ∃ c ∈ cs, c.mentions name = true)
    (h : ∀ p ∈ cs.zip gs, p.1.apply σ = p.2) : (bindingsFrom select (pairs cs gs)).AgreesWith select σ := by
  intro name hname
  obtain ⟨c, hc, hm⟩ := hsel name hname
  obtain ⟨v, hv⟩ := exists_termOf?_of_mentions hlen hc hm
  rw [find?_bindingsFrom, if_pos (List.contains_iff_mem.2 hname), hv,
    termOf?_of_apply (fun q hq => h q (List.mem_reverse.1 hq)) hv]

/-- The bindings read off a tuple are those of a substitution that makes the tuple exactly if the tuple fits. -/
theorem exists_subst_iff {select : List String} {cs : List Condition} {gs : List Fact} (hlen : cs.length = gs.length)
    (hsel : ∀ name ∈ select, ∃ c ∈ cs, c.mentions name = true) (ha : Agrees (pairs cs gs)) :
    (∃ σ, (bindingsFrom select (pairs cs gs)).AgreesWith select σ ∧ cs.map (·.apply σ) = gs) ↔ Fits cs gs := by
  rw [← instances_iff_fits hlen ha]
  constructor
  · rintro ⟨σ, -, hmap⟩ p hp
    exact ⟨σ, (map_apply_eq_iff hlen).1 hmap p hp⟩
  · intro hi
    have happly : ∀ p ∈ cs.zip gs, p.1.apply (substOf (pairs cs gs)) = p.2 := fun p hp =>
      apply_substOf ha (fun q hq => hi q (List.mem_reverse.1 hq)) p (List.mem_reverse.2 hp)
    exact ⟨_, agreesWith_of_apply hlen hsel happly, (map_apply_eq_iff hlen).2 happly⟩

/-- Facts that one substitution makes agree on the variables. -/
theorem agrees_of_apply {σ : String → Term} {ps : List (Condition × Fact)} (h : ∀ p ∈ ps, p.1.apply σ = p.2) : Agrees ps := by
  induction ps with
  | nil => trivial
  | cons p ps ih =>
    refine ⟨ih fun q hq => h q (List.mem_cons_of_mem _ hq), fun field name v hslot hv => ?_⟩
    rw [termOf?_of_apply (fun q hq => h q (List.mem_cons_of_mem _ hq)) hv, ← h p List.mem_cons_self, read_apply, hslot]
    rfl

/-! ## Reported matches -/

/-- The bindings of a rule in the matches are read off the least tuple of its production. -/
theorem Network.exists_reported {n : Network} (h : n.Finished) {rs : List Rule} (hr : n.Registered rs)
    (hn : (rs.map (·.name)).Nodup) {m : Matches} (hm : n.allMatches = .ok m) {r : Rule} (hmem : r ∈ rs) {b : Bindings}
    (hb : m.rules.find? r.name = some b) : ∃ id js t, n.Reaches id js r.conditions ∧ t ∈ n.held id ∧
      (∀ u ∈ n.held id, (compare (n.matchOf t) (n.matchOf u)).isLE = true) ∧
      b = bindingsFrom r.select (pairs r.conditions (n.matchOf t)) := by
  obtain ⟨m', hm', hfind⟩ := allMatches_ok h.toMarked
  obtain rfl := Except.ok.inj (hm.symm.trans hm')
  obtain ⟨⟨id, hs⟩, hbind⟩ := (hfind _ _).1 hb
  obtain ⟨p, t, hp, hname, ht, hleast, hbind'⟩ := bindings_of_satisfied h.toMarked hs
  obtain ⟨i, r', -, hi, hname', hselect, js, hpath, hjs⟩ := hr.exists_rule hp
  -- the names are distinct, so the production is that of the rule
  obtain rfl : r = r' := List.inj_on_of_nodup_map hn hmem (List.mem_of_getElem? hi) (hname.symm.trans hname')
  have hreach := hpath.reaches h.toWired
  have hconds : js.reverse.map (·.condition) = r.conditions := by rw [List.map_reverse, hjs, List.reverse_reverse]
  rw [hconds] at hreach
  refine ⟨id, js.reverse, t, hreach, ht, hleast, ?_⟩
  have he := Option.some.inj (Except.ok.inj (hbind.symm.trans hbind'))
  rw [he, bindingsOf_eq h.toSound hpath ht, hconds, hselect]

/-! ## Soundness -/

/-- Who knows themselves. -/
def Rule.selfRule : Rule := ⟨"self", [.between "?x" (.resource "knows") "?x"], [], ["?x"]⟩

/-- Who knows Bob Smith. -/
def Rule.smithRule : Rule := ⟨"smith", [.withConstant "?x" (.resource "knows") (.resource "bob smith")], [], ["?x"]⟩

/-- One who knows another. -/
def Fact.acquaintance : Fact := ⟨.resource "alice", .resource "knows", .resource "bob"⟩

/-- A fact whose predicate ends where the constant of the rule begins. -/
def Fact.smithFact : Fact := ⟨.resource "alice", .resource "knows bob", .resource "smith"⟩

/-- A tuple of facts of a batch, one for each condition of a rule, that agree on the variables. -/
structure Rule.Tuple (r : Rule) (fs gs : List Fact) : Prop where
  length : r.conditions.length = gs.length
  inserted : ∀ g ∈ gs, g ∈ fs
  agrees : Agrees (pairs r.conditions gs)

/-- Whether one substitution agrees with bindings on the selected variables and asks for facts of a batch only. -/
def Rule.Realized (r : Rule) (fs : List Fact) (b : Bindings) : Prop :=
  ∃ σ, b.AgreesWith r.select σ ∧ ∀ c ∈ r.conditions, c.apply σ ∈ fs

/-- Bindings are realized exactly if they are those of a tuple that fits. -/
theorem Rule.realized_iff {r : Rule} (hsel : ∀ name ∈ r.select, ∃ c ∈ r.conditions, c.mentions name = true) {fs : List Fact}
    {b : Bindings} : r.Realized fs b ↔ ∃ gs, r.Tuple fs gs ∧ Fits r.conditions gs ∧
      ∀ name ∈ r.select, b.find? name = (bindingsFrom r.select (pairs r.conditions gs)).find? name := by
  constructor
  · rintro ⟨σ, hb, hin⟩
    have hlen : r.conditions.length = (r.conditions.map (·.apply σ)).length := (List.length_map _).symm
    have happly := (map_apply_eq_iff (σ := σ) hlen).1 rfl
    have hagrees : Agrees (pairs r.conditions (r.conditions.map (·.apply σ))) :=
      agrees_of_apply (σ := σ) fun p hp => happly p (List.mem_reverse.1 hp)
    refine ⟨r.conditions.map (·.apply σ), ⟨hlen, ?_, hagrees⟩,
      (instances_iff_fits hlen hagrees).1 fun p hp => ⟨σ, happly p hp⟩, fun name hname => ?_⟩
    · intro g hg
      obtain ⟨c, hc, rfl⟩ := List.mem_map.1 hg
      exact hin c hc
    · rw [hb name hname, agreesWith_of_apply hlen hsel happly name hname]
  · rintro ⟨gs, ht, hf, hb⟩
    obtain ⟨σ, hσ, hmap⟩ := (exists_subst_iff ht.length hsel ht.agrees).2 hf
    refine ⟨σ, fun name hname => by rw [hb name hname, hσ name hname], fun c hc => ht.inserted _ ?_⟩
    rw [← hmap]
    exact List.mem_map_of_mem hc

namespace Engine

/-- A rule for which the matches of an evaluation are seen to have an entry has bindings in them. -/
theorem exists_reported (e : Engine) (fs : List Fact) (name : String)
    (h : ((e.evaluate fs).toOption.any fun p => (p.1.rules.find? name).isSome) = true) :
    ∃ m e' b, e.evaluate fs = .ok (m, e') ∧ m.rules.find? name = some b := by
  obtain ⟨⟨m, e'⟩, he, hsome⟩ := toOption_any_iff.1 h
  obtain ⟨b, hb⟩ := Option.isSome_iff_exists.1 hsome
  exact ⟨m, e', b, he, hb⟩

/-- A rule that an evaluation reports has a tuple of facts of the batch that agree on the variables, each of which shares a key with
its condition, and the bindings are read off that tuple. One substitution makes the tuple exactly if the tuple fits; one substitution
agrees with the bindings and asks for facts of the batch only exactly if some tuple that fits has these bindings. Both are so if every
fact of the batch that shares a key with a condition has its predicate and constants, and no condition has a new variable in both
places. -/
theorem realized_of_reported {e e' : Engine} {rs : List Rule} (hb : e.Built rs) (hn : (rs.map (·.name)).Nodup) {fs : List Fact}
    {m : Matches} (he : e.evaluate fs = .ok (m, e')) {r : Rule} (hr : r ∈ rs) {b : Bindings}
    (hm : m.rules.find? r.name = some b) :
    ∃ gs, r.Tuple fs gs ∧ (∀ p ∈ r.conditions.zip gs, p.1.key ∈ p.2.keys) ∧
      b = bindingsFrom r.select (pairs r.conditions gs) ∧
      ((∃ σ, b.AgreesWith r.select σ ∧ r.conditions.map (·.apply σ) = gs) ↔ Fits r.conditions gs) ∧
      (r.Realized fs b ↔ ∃ hs, r.Tuple fs hs ∧ Fits r.conditions hs ∧
        ∀ name ∈ r.select, b.find? name = (bindingsFrom r.select (pairs r.conditions hs)).find? name) ∧
      ((∀ c ∈ r.conditions, ∀ f ∈ fs, c.key ∈ f.keys → c.fits f = true) →
        (∀ (i : Nat) (c : Condition), r.conditions[i]? = some c → ¬c.NewTwice (r.conditions.take i)) → r.Realized fs b) := by
  have hs := hb.stands
  obtain ⟨hlen, -, hall⟩ := evaluate_eq_ok he
  obtain ⟨m', n, he', h, hbare, hmem, hall'⟩ := hs.evaluate_ok hlen
  obtain ⟨rfl, rfl⟩ := Prod.mk.inj (Except.ok.inj (he.symm.trans he'))
  have hreg := hs.registered.of_bare hbare
  have hsel := Rule.mentions_of_check (hreg.checked r hr)
  obtain ⟨id, js, t, hreach, ht, -, rfl⟩ := Network.exists_reported h hreg hn hall' hr hm
  have hjoined := h.joined_of_held hreach.path ht
  have hagrees := Network.agrees_of_joined h.toWired hreach.path hjoined
  rw [List.reverse_reverse] at hjoined hagrees
  rw [hreach.conditions] at hagrees
  have hlength : r.conditions.length = (n.matchOf t).length := by
    rw [hjoined.length, ← hreach.conditions, List.length_map]
  have htuple : r.Tuple fs (n.matchOf t) := ⟨hlength, fun g hg => (hmem g).1 (hjoined.inserted g hg), hagrees⟩
  have hkeys : ∀ p ∈ r.conditions.zip (n.matchOf t), p.1.key ∈ p.2.keys := by
    intro p hp
    obtain ⟨i, hi⟩ := List.mem_iff_getElem?.1 hp
    obtain ⟨hc, hg⟩ := List.getElem?_zip_eq_some.1 hi
    rw [← hreach.conditions, List.getElem?_map] at hc
    obtain ⟨j, hj, hjc⟩ := Option.map_eq_some_iff.1 hc
    rw [← hjc]
    exact AlphaIndex.key_mem_of_route h.keyed (hreach.alpha j (List.mem_of_getElem? hj)) (hjoined.routed hj hg)
  refine ⟨n.matchOf t, htuple, hkeys, rfl, exists_subst_iff hlength hsel hagrees, Rule.realized_iff hsel, fun hfits hnew => ?_⟩
  refine (Rule.realized_iff hsel).2 ⟨n.matchOf t, htuple, fun i c g hc hg => ⟨?_, fun hnt => absurd hnt (hnew i c hc)⟩,
    fun name _ => rfl⟩
  have hmem : (c, g) ∈ r.conditions.zip (n.matchOf t) := List.mem_of_getElem? (i := i) (List.getElem?_zip_eq_some.2 ⟨hc, hg⟩)
  exact hfits c (List.mem_of_getElem? hc) g (htuple.inserted g (List.mem_of_getElem? hg)) (hkeys _ hmem)

theorem realized_of_reported_tea : ∃ m e' b, (ofRules [.teaRule]).evaluate Fact.teaFacts = .ok (m, e') ∧
    m.rules.find? Rule.teaRule.name = some b ∧ Rule.teaRule.Realized Fact.teaFacts b := by
  obtain ⟨m, e', b, he, hfind⟩ := exists_reported (ofRules [.teaRule]) Fact.teaFacts Rule.teaRule.name (by decide +kernel)
  obtain ⟨gs, -, -, -, -, -, himp⟩ := realized_of_reported (built_ofRules [.teaRule] rfl) (List.nodup_singleton _) he
    (List.mem_singleton_self _) hfind
  refine ⟨m, e', b, he, hfind, himp (by decide) fun i c hc => ?_⟩
  rintro ⟨name, hs, ho, -⟩
  rcases i with _ | _ | i
  · obtain rfl := Option.some.inj hc
    exact absurd (Slot.var.inj (hs.trans ho.symm)) (by decide)
  · obtain rfl := Option.some.inj hc
    nomatch ho
  · nomatch hc

/-- Two rules are reported although nothing in the batch is an instance of their only condition: in one a variable stands for two
terms, in the other a predicate and its object share the key of another predicate and another object. -/
theorem exists_reported_not_realized :
    (∃ m e' b, (ofRules [.selfRule]).evaluate [.acquaintance] = .ok (m, e') ∧ m.rules.find? Rule.selfRule.name = some b ∧
      ¬Rule.selfRule.Realized [.acquaintance] b) ∧
    ∃ m e' b, (ofRules [.smithRule]).evaluate [.smithFact] = .ok (m, e') ∧ m.rules.find? Rule.smithRule.name = some b ∧
      ¬Rule.smithRule.Realized [.smithFact] b := by
  constructor
  · obtain ⟨m, e', b, he, hfind⟩ := exists_reported (ofRules [.selfRule]) [.acquaintance] Rule.selfRule.name (by decide +kernel)
    refine ⟨m, e', b, he, hfind, ?_⟩
    rintro ⟨σ, -, hin⟩
    have hf := List.mem_singleton.1 (hin _ (List.mem_singleton_self _))
    have hs : σ "?x" = .resource "alice" := congrArg Fact.subject hf
    have ho : σ "?x" = .resource "bob" := congrArg Fact.object hf
    exact absurd (hs.symm.trans ho) (by decide)
  · obtain ⟨m, e', b, he, hfind⟩ := exists_reported (ofRules [.smithRule]) [.smithFact] Rule.smithRule.name (by decide +kernel)
    refine ⟨m, e', b, he, hfind, ?_⟩
    rintro ⟨σ, -, hin⟩
    have hf := List.mem_singleton.1 (hin _ (List.mem_singleton_self _))
    have hp : Term.resource "knows" = .resource "knows bob" := congrArg Fact.predicate hf
    exact absurd hp (by decide)

end Engine

end TripleRules

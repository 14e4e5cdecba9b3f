import TripleRules.Proofs.Interference

/-!
# Rules with other variables

A renaming gives every variable of a rule another name. The names are compared with each other and with nothing else, so a renaming
that keeps the variables of a rule apart leaves the rule what it was: the tests look at the same places of the same facts, the alpha
memories are asked for the same keys and keep the same objects out, and a match reads the same terms.
-/

namespace TripleRules

/-- A slot, with its variable renamed. -/
def Slot.rename (ρ : String → String) : Slot → Slot
  | .var name => .var (ρ name)
  | .const term => .const term

/-- A condition, with its variables renamed. -/
def Condition.rename (ρ : String → String) (c : Condition) : Condition := ⟨c.subject.rename ρ, c.predicate, c.object.rename ρ⟩

/-- An inequality, with its variable renamed. -/
def Inequality.rename (ρ : String → String) (i : Inequality) : Inequality := ⟨i.left.rename ρ, i.right.rename ρ⟩

/-- A rule, with its variables renamed in the conditions, in the inequalities and among those that are selected. -/
def Rule.rename (ρ : String → String) (r : Rule) : Rule :=
  ⟨r.name, r.conditions.map (·.rename ρ), r.inequalities.map (·.rename ρ), r.select.map ρ⟩

/-- A test, with its variable renamed. -/
def JoinTest.rename (ρ : String → String) (t : JoinTest) : JoinTest := { t with variableName := ρ t.variableName }

/-- The variables of a rule. -/
def Rule.variables (r : Rule) : Set String := {name | r.mentions name = true}

/-! ## Names that are given -/

@[simp] theorem Slot.isVar_rename (ρ : String → String) (s : Slot) : (s.rename ρ).isVar = s.isVar := by
  cases s <;> rfl

/-- The name of a variable does not show in a key. -/
@[simp] theorem slotKey_rename (ρ : String → String) (p : Term) (s : Slot) : slotKey p (s.rename ρ) = slotKey p s := by
  cases s <;> rfl

/-- A slot that is renamed twice is renamed by the two names one after the other. -/
theorem Slot.rename_rename (ρ σ : String → String) (s : Slot) : (s.rename ρ).rename σ = s.rename (σ ∘ ρ) := by
  cases s <;> rfl

/-- A renamed slot is a variable exactly if the slot is one, of which it is the new name. -/
theorem Slot.rename_eq_var_iff {ρ : String → String} {s : Slot} {w : String} :
    s.rename ρ = .var w ↔ ∃ name, s = .var name ∧ ρ name = w := by
  cases s <;> simp [rename]

/-- The slots of a renamed condition are the renamed slots. -/
@[simp] theorem Condition.slot_rename (ρ : String → String) (c : Condition) (field : Field) :
    (c.rename ρ).slot field = (c.slot field).rename ρ := by
  cases field <;> rfl

/-- A renamed condition mentions the new names of what the condition mentions. -/
theorem Condition.mentions_rename {ρ : String → String} {c : Condition} {w : String} :
    (c.rename ρ).mentions w = true ↔ ∃ name, c.mentions name = true ∧ ρ name = w := by
  simp only [mentions_iff, slot_rename, Slot.rename_eq_var_iff]
  tauto

/-- A renamed rule mentions the new names of what the rule mentions. -/
theorem Rule.mentions_rename {ρ : String → String} {r : Rule} {w : String} :
    (r.rename ρ).mentions w = true ↔ ∃ name, r.mentions name = true ∧ ρ name = w := by
  simp only [mentions, rename, List.any_map, List.any_eq_true, Function.comp_apply, Condition.mentions_rename]
  tauto

/-- An inequality goes on to pair its variable with its constant. -/
theorem Inequality.pair?_rename (ρ : String → String) (i : Inequality) : (i.rename ρ).pair? = i.pair?.map (Prod.map ρ id) := by
  obtain ⟨left, right⟩ := i
  cases left <;> cases right <;> rfl

/-- A rule that passes its check passes it under any names. -/
theorem Rule.check_rename {r : Rule} (hc : r.check = .ok ()) (ρ : String → String) : (r.rename ρ).check = .ok () := by
  obtain ⟨hname, hconditions, hsubject, hinequalities, hselect⟩ := check_eq_ok_iff.1 hc
  refine check_eq_ok_iff.2 ⟨hname, by simpa [rename] using hconditions, ?_, ?_, ?_⟩
  · simp only [rename, List.forall_mem_map]
    intro c hc
    exact (Slot.isVar_rename ρ c.subject).trans (hsubject c hc)
  · intro i' hi'
    obtain ⟨i, hi, rfl⟩ := List.mem_map.1 hi'
    obtain ⟨name, term, hpair, hm⟩ := hinequalities i hi
    exact ⟨ρ name, term, by rw [Inequality.pair?_rename, hpair]; rfl, mentions_rename.2 ⟨name, hm, rfl⟩⟩
  · intro w hw
    obtain ⟨name, hmem, rfl⟩ := List.mem_map.1 hw
    exact mentions_rename.2 ⟨name, hselect name hmem, rfl⟩

/-- A variable of a condition is a variable of the rule. -/
theorem Rule.mem_variables {r : Rule} {c : Condition} (hc : c ∈ r.conditions) {name : String} (hm : c.mentions name = true) :
    name ∈ r.variables := List.any_eq_true.2 ⟨c, hc, hm⟩

/-- What a rule that is accepted selects are variables of it. -/
theorem Rule.select_subset_variables {r : Rule} (hc : r.check = .ok ()) : ∀ name ∈ r.select, name ∈ r.variables :=
  (check_eq_ok_iff.1 hc).2.2.2.2

/-! ## Names that are told apart -/

section

variable {ρ : String → String} {V : Set String} (hρ : Set.InjOn ρ V)
include hρ

/-- A renamed slot is the variable with the new name of another one exactly if the slot was that one. -/
theorem Slot.varName?_rename {s : Slot} (hs : ∀ name, s = .var name → name ∈ V) {name : String} (hname : name ∈ V) :
    (s.rename ρ).varName? = some (ρ name) ↔ s.varName? = some name := by
  rw [varName?_eq_some, varName?_eq_some, rename_eq_var_iff]
  constructor
  · rintro ⟨other, ho, he⟩
    rw [ho, hρ (hs other ho) hname he]
  · exact fun h => ⟨name, h, rfl⟩

section

variable {c : Condition} (hc : ∀ name, c.mentions name = true → name ∈ V)
include hc

/-- The new name of a variable stands in the same field of a renamed condition. -/
theorem Condition.fieldOf?_rename {name : String} (hname : name ∈ V) : (c.rename ρ).fieldOf? (ρ name) = c.fieldOf? name := by
  have hslot : ∀ field other, c.slot field = .var other → other ∈ V := fun field other h => hc other (mentions_iff.2 ⟨field, h⟩)
  have hs : (c.rename ρ).subjectVar? = some (ρ name) ↔ c.subjectVar? = some name :=
    Slot.varName?_rename hρ (hslot .subject) hname
  have ho : (c.rename ρ).objectVar? = some (ρ name) ↔ c.objectVar? = some name :=
    Slot.varName?_rename hρ (hslot .object) hname
  simp only [fieldOf?, hs, ho]

end

/-- The nearest mention is where it was. -/
theorem nearestMention?_rename {cs : List Condition} (hcs : ∀ c ∈ cs, ∀ name, c.mentions name = true → name ∈ V) {name : String}
    (hname : name ∈ V) : nearestMention? (ρ name) (cs.map (·.rename ρ)) = nearestMention? name cs := by
  induction cs with
  | nil => rfl
  | cons c cs ih =>
    obtain ⟨hc, hcs⟩ := List.forall_mem_cons.1 hcs
    rw [List.map_cons, nearestMention?, nearestMention?, Condition.fieldOf?_rename hρ hc hname, ih hcs]

/-- The tests look at the same places, under the new name. -/
theorem Condition.tests_rename {c : Condition} {earlier : List Condition} (hc : ∀ name, c.mentions name = true → name ∈ V)
    (hearlier : ∀ d ∈ earlier, ∀ name, d.mentions name = true → name ∈ V) :
    (c.rename ρ).tests (earlier.map (·.rename ρ)) = (c.tests earlier).map (·.rename ρ) := by
  have htest : ∀ field, (c.rename ρ).test? (earlier.map (·.rename ρ)) field = (c.test? earlier field).map (·.rename ρ) := by
    intro field
    rw [test?, test?, slot_rename]
    cases hs : c.slot field with
    | const term => rfl
    | var name =>
      have hname := hc name (mentions_iff.2 ⟨field, hs⟩)
      simp only [Slot.rename, Slot.varName?, Option.bind_eq_bind, Option.bind_some, nearestMention?_rename hρ hearlier hname]
      cases nearestMention? name earlier with
      | none => rfl
      | some mention => rfl
  rw [tests, tests, htest, htest, List.map_append]
  cases c.test? earlier .subject <;> cases c.test? earlier .object <;> rfl

/-- The nearest condition with the variable reads the same term for it. -/
theorem termOf?_rename {ps : List (Condition × Fact)} (hps : ∀ p ∈ ps, ∀ name, p.1.mentions name = true → name ∈ V)
    {name : String} (hname : name ∈ V) : termOf? (ρ name) (ps.map (Prod.map (·.rename ρ) id)) = termOf? name ps := by
  induction ps with
  | nil => rfl
  | cons p ps ih =>
    obtain ⟨c, g⟩ := p
    obtain ⟨hc, hps⟩ := List.forall_mem_cons.1 hps
    rw [List.map_cons, Prod.map, termOf?_cons, termOf?_cons, Condition.fieldOf?_rename hρ hc hname, ih hps]
    rfl

/-- The bindings of a match are what they were, under the new names. -/
theorem find?_bindingsFrom_rename {select : List String} (hselect : ∀ name ∈ select, name ∈ V) {cs : List Condition} {gs : List Fact}
    (hcs : ∀ c ∈ cs, ∀ name, c.mentions name = true → name ∈ V) {w : String} {v : Term} :
    (bindingsFrom (select.map ρ) (pairs (cs.map (·.rename ρ)) gs)).find? w = some v ↔
      ∃ name, ρ name = w ∧ (bindingsFrom select (pairs cs gs)).find? name = some v := by
  have hpairs : pairs (cs.map (·.rename ρ)) gs = (pairs cs gs).map (Prod.map (·.rename ρ) id) := by
    rw [pairs, pairs, List.zip_map_left, List.map_reverse]
  have hps : ∀ p ∈ pairs cs gs, ∀ name, p.1.mentions name = true → name ∈ V := fun p hp =>
    hcs p.1 (List.of_mem_zip (List.mem_reverse.1 hp)).1
  simp only [find?_bindingsFrom, Option.ite_none_right_eq_some, List.contains_iff_mem, List.mem_map, hpairs]
  constructor
  · rintro ⟨⟨name, hname, rfl⟩, hv⟩
    rw [termOf?_rename hρ hps (hselect name hname)] at hv
    exact ⟨name, rfl, hname, hv⟩
  · rintro ⟨name, rfl, hname, hv⟩
    refine ⟨⟨name, hname, rfl⟩, ?_⟩
    rw [termOf?_rename hρ hps (hselect name hname)]
    exact hv

end

/-! ## Requests without names -/

/-- A request that does not say which variable its object is. -/
def Request.anonymous (q : Request) : Request := { q with object := q.object.rename fun _ => "" }

@[simp] theorem Request.key_anonymous (q : Request) : q.anonymous.key = q.key := slotKey_rename _ _ _

/-- The names in the requests do not show in the index that they make. -/
theorem AlphaIndex.Serves.anonymous {x : AlphaIndex} {qs : List Request} (h : x.Serves qs) : x.Serves (qs.map Request.anonymous) where
  keyed := h.keyed
  known := fun q' hq' => by
    obtain ⟨q, hq, rfl⟩ := List.mem_map.1 hq'
    rw [Request.key_anonymous]
    exact h.known q hq
  first := fun {a m} hm => by
    obtain ⟨q, hq, hany⟩ := h.first hm
    have hkey : (fun q : Request => q.key == m.key) ∘ Request.anonymous = fun q => q.key == m.key := by
      funext q
      rw [Function.comp_apply, Request.key_anonymous]
    refine ⟨q.anonymous, by rw [List.find?_map, hkey, hq]; rfl, ?_⟩
    rw [hany, Request.anonymous, Slot.isVar_rename]
  excluded := fun {a m} hm o => by
    rw [h.excluded hm]
    constructor
    · rintro ⟨q, hq, hkey, ho⟩
      exact ⟨_, List.mem_map_of_mem hq, (Request.key_anonymous q).trans hkey, ho⟩
    · rintro ⟨q', hq', hkey, ho⟩
      obtain ⟨q, hq, rfl⟩ := List.mem_map.1 hq'
      exact ⟨q, hq, (Request.key_anonymous q).symm.trans hkey, ho⟩

/-- Where a fact goes is told by the requests: indexes that the same ones have made route it to the memories of the same keys. -/
theorem AlphaIndex.Serves.mem_route_iff {x y : AlphaIndex} {qs : List Request} (hx : x.Serves qs) (hy : y.Serves qs) {k : String}
    {a b : AlphaId} (ha : x.byKey.find? k = some a) (hb : y.byKey.find? k = some b) (f : Fact) : a ∈ x.route f ↔ b ∈ y.route f := by
  obtain ⟨m, hm, rfl⟩ := (hx.keyed k a).1 ha
  obtain ⟨m', hm', hkey⟩ := (hy.keyed m.key b).1 hb
  have hany : m'.anyObject = m.anyObject := by
    obtain ⟨q, hq, hvar⟩ := hx.first hm
    obtain ⟨q', hq', hvar'⟩ := hy.first hm'
    rw [hkey, hq] at hq'
    rw [hvar, hvar', Option.some.inj hq']
  rw [hx.keyed.mem_route_iff hm, hy.keyed.mem_route_iff hm', hkey, hany, hx.excluded hm, hy.excluded hm', hkey]

/-- A rule asks for the same objects to be kept out under any names that keep its variables apart. -/
theorem Rule.excludedBy_rename {r : Rule} (hc : r.check = .ok ()) {ρ : String → String} (hρ : Set.InjOn ρ r.variables)
    {c : Condition} (hcin : c ∈ r.conditions) : (r.rename ρ).excludedBy (c.rename ρ) = r.excludedBy c := by
  have hobject : (c.rename ρ).objectVar? = c.objectVar?.map ρ := by
    rw [Condition.objectVar?, Condition.objectVar?, Condition.rename]
    cases c.object <;> rfl
  rw [excludedBy, excludedBy, hobject]
  cases ho : c.objectVar? with
  | none => rfl
  | some name =>
    have hname : name ∈ r.variables := mem_variables hcin (Condition.mentions_iff.2 ⟨.object, Slot.varName?_eq_some.1 ho⟩)
    have hpairs : (r.rename ρ).inequalities.filterMap Inequality.pair? =
        (r.inequalities.filterMap Inequality.pair?).map (Prod.map ρ id) := by
      rw [rename, List.filterMap_map, List.map_filterMap]
      exact List.filterMap_congr fun i _ => Inequality.pair?_rename ρ i
    rw [Option.map_some]
    simp only [excludedFor, hpairs, List.filterMap_map]
    congr 1
    refine List.filterMap_congr fun p hp => ?_
    obtain ⟨i, hi, hpair⟩ := List.mem_filterMap.1 hp
    obtain ⟨other, term, hpair', hm⟩ := (check_eq_ok_iff.1 hc).2.2.2.1 i hi
    obtain rfl := Option.some.inj (hpair.symm.trans hpair')
    have hiff : ρ other = ρ name ↔ other = name := ⟨fun he => hρ hm hname he, congrArg ρ⟩
    simp only [Function.comp_apply, Prod.map, id, hiff]

/-- A rule makes the same requests under any names that keep its variables apart. -/
theorem Rule.requests_rename {r : Rule} (hc : r.check = .ok ()) {ρ : String → String} (hρ : Set.InjOn ρ r.variables) :
    (r.rename ρ).requests.map Request.anonymous = r.requests.map Request.anonymous := by
  simp only [requests, List.map_map]
  have hconditions : (r.rename ρ).conditions = r.conditions.map (·.rename ρ) := rfl
  rw [hconditions, List.map_map]
  refine List.map_congr_left fun c hcin => ?_
  have hobject : (c.rename ρ).object.rename (fun _ => "") = c.object.rename fun _ => "" := Slot.rename_rename _ _ _
  simp only [Function.comp_apply, Request.anonymous, excludedBy_rename hc hρ hcin, hobject]
  rfl

end TripleRules

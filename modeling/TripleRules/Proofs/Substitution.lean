import TripleRules.Proofs.Tuples

/-!
# Substitutions

A substitution gives a term to every variable, and turns a condition into the fact that it asks for. A list of conditions and facts,
the nearest first, reads a term for each variable off the first fact whose condition mentions it. If the facts agree on the variables
across the conditions, and each fact is an instance of its own condition, these terms are a substitution that turns the conditions
into the facts.
-/

namespace TripleRules

/-- The term of a slot under a substitution. -/
def Slot.apply (σ : String → Term) : Slot → Term
  | .var name => σ name
  | .const term => term

/-- The fact that a condition asks for under a substitution. -/
def Condition.apply (σ : String → Term) (c : Condition) : Fact := ⟨c.subject.apply σ, c.predicate, c.object.apply σ⟩

/-- Whether some substitution turns a condition into a fact. -/
def Condition.Instance (c : Condition) (f : Fact) : Prop := ∃ σ, c.apply σ = f

/-- A field of the fact that a condition becomes is the slot under the substitution. -/
@[simp] theorem read_apply (σ : String → Term) (c : Condition) (field : Field) :
    field.read (c.apply σ) = (c.slot field).apply σ := by
  cases field <;> rfl

theorem Slot.varName?_eq_some {s : Slot} {name : String} : s.varName? = some name ↔ s = .var name := by
  cases s <;> simp [varName?]

/-- The field that holds a variable holds it, and the subject is preferred. -/
theorem Condition.fieldOf?_eq_some {c : Condition} {name : String} {field : Field} (h : c.fieldOf? name = some field) :
    c.slot field = .var name ∧ (field = .object → c.subject ≠ .var name) := by
  unfold fieldOf? subjectVar? objectVar? at h
  simp only [Slot.varName?_eq_some] at h
  split at h
  · rename_i hs
    obtain rfl := Option.some.inj h
    exact ⟨hs, fun he => nomatch he⟩
  · rename_i hs
    split at h
    · rename_i ho
      obtain rfl := Option.some.inj h
      exact ⟨ho, fun _ => hs⟩
    · nomatch h

/-- A variable without a field stands in no slot. -/
theorem Condition.fieldOf?_eq_none {c : Condition} {name : String} (h : c.fieldOf? name = none) (field : Field) :
    c.slot field ≠ .var name := by
  unfold fieldOf? subjectVar? objectVar? at h
  simp only [Slot.varName?_eq_some] at h
  split at h
  · nomatch h
  · rename_i hs
    split at h
    · nomatch h
    · rename_i ho
      cases field with
      | subject => exact hs
      | object => exact ho

/-- A condition mentions the variables of its fields. -/
theorem Condition.mentions_iff {c : Condition} {name : String} : c.mentions name = true ↔ ∃ field, c.slot field = .var name := by
  simp only [mentions, subjectVar?, objectVar?, Bool.or_eq_true, beq_iff_eq, Slot.varName?_eq_some]
  constructor
  · rintro (h | h)
    · exact ⟨.subject, h⟩
    · exact ⟨.object, h⟩
  · rintro ⟨field, h⟩
    cases field with
    | subject => exact Or.inl h
    | object => exact Or.inr h

/-- An instance has the predicate and the constants of the condition, and one term where one variable fills both places. -/
theorem Condition.instance_iff {c : Condition} {f : Fact} : c.Instance f ↔ f.predicate = c.predicate ∧
    (∀ field term, c.slot field = .const term → field.read f = term) ∧
    ∀ name, c.subject = .var name → c.object = .var name → f.subject = f.object := by
  constructor
  · rintro ⟨σ, rfl⟩
    refine ⟨rfl, fun field term h => ?_, fun name hs ho => ?_⟩
    · rw [read_apply, h]
      rfl
    · rw [apply, hs, ho]
  · rintro ⟨hp, hc, hv⟩
    -- the substitution reads the subject for the variable of the subject and the object for any other
    refine ⟨fun name => if c.subject = .var name then f.subject else f.object, ?_⟩
    have hsubject : c.subject.apply (fun name => if c.subject = .var name then f.subject else f.object) = f.subject := by
      cases hs : c.subject with
      | var name => simp [Slot.apply]
      | const term => exact (hc .subject term hs).symm
    have hobject : c.object.apply (fun name => if c.subject = .var name then f.subject else f.object) = f.object := by
      cases ho : c.object with
      | var name =>
        rw [Slot.apply]
        split
        · rename_i hs
          exact hv name hs ho
        · rfl
      | const term => exact (hc .object term ho).symm
    rw [apply, hsubject, hobject, ← hp]

/-! ## Terms read off a match -/

/-- The conditions of a match with their facts, the last one first. -/
def pairs (cs : List Condition) (gs : List Fact) : List (Condition × Fact) := (cs.zip gs).reverse

/-- One more condition with its fact comes first among the pairs. -/
theorem pairs_append {cs : List Condition} {gs : List Fact} (h : cs.length = gs.length) (c : Condition) (g : Fact) :
    pairs (cs ++ [c]) (gs ++ [g]) = (c, g) :: pairs cs gs := by
  rw [pairs, List.zip_append h, List.reverse_append]
  rfl

theorem map_fst_pairs {cs : List Condition} {gs : List Fact} (h : cs.length = gs.length) :
    (pairs cs gs).map Prod.fst = cs.reverse := by
  rw [pairs, List.map_reverse, List.map_fst_zip (Nat.le_of_eq h)]

theorem map_snd_pairs {cs : List Condition} {gs : List Fact} (h : cs.length = gs.length) :
    (pairs cs gs).map Prod.snd = gs.reverse := by
  rw [pairs, List.map_reverse, List.map_snd_zip (Nat.le_of_eq h.symm)]

/-- The fact a number of levels up in a match. -/
theorem getElem?_pairs {cs : List Condition} {gs : List Fact} (h : cs.length = gs.length) {distance k : Nat}
    (hpos : 1 ≤ distance) (hk : k + distance = gs.length) {p : Condition × Fact} (hp : (pairs cs gs)[distance - 1]? = some p) :
    gs[k]? = some p.2 := by
  have hs : ((pairs cs gs).map Prod.snd)[distance - 1]? = some p.2 := by rw [List.getElem?_map, hp]; rfl
  rw [map_snd_pairs h, List.getElem?_reverse (by omega)] at hs
  rw [← hs]
  congr 1
  omega

/-- The term that the nearest condition with a variable reads for it. -/
def termOf? (name : String) (ps : List (Condition × Fact)) : Option Term :=
  ps.findSome? fun p => (p.1.fieldOf? name).map (·.read p.2)

/-- A variable has the value that the first pair gives it, or else the one that the others give it. -/
theorem termOf?_cons (name : String) (c : Condition) (g : Fact) (ps : List (Condition × Fact)) :
    termOf? name ((c, g) :: ps) = match c.fieldOf? name with
      | some field => some (field.read g)
      | none => termOf? name ps := by
  rw [termOf?, List.findSome?_cons]
  cases c.fieldOf? name <;> rfl

/-- Where a test finds an earlier mention, it looks at the fact that the term of the variable is read off. -/
theorem termOf?_of_mention {name : String} {ps : List (Condition × Fact)} {distance : Nat} {field : Field}
    (h : nearestMention? name (ps.map Prod.fst) = some (distance, field)) :
    ∃ p, ps[distance - 1]? = some p ∧ p.1.slot field = .var name ∧ termOf? name ps = some (field.read p.2) := by
  induction ps generalizing distance with
  | nil => nomatch h
  | cons p ps ih =>
    obtain ⟨c, g⟩ := p
    rw [termOf?_cons]
    rw [List.map_cons, nearestMention?] at h
    cases hf : c.fieldOf? name with
    | some f =>
      rw [hf] at h
      obtain ⟨rfl, rfl⟩ := Prod.mk.inj (Option.some.inj h)
      exact ⟨(c, g), rfl, (Condition.fieldOf?_eq_some hf).1, rfl⟩
    | none =>
      rw [hf] at h
      obtain ⟨⟨d, f⟩, hd, he⟩ := Option.map_eq_some_iff.1 h
      obtain ⟨rfl, rfl⟩ := Prod.mk.inj he
      obtain ⟨p, hp, hs, ht⟩ := ih hd
      have hpos := (nearestMention?_bounds hd).1
      obtain ⟨k, rfl⟩ : ∃ k, d = k + 1 := ⟨d - 1, by omega⟩
      exact ⟨p, hp, hs, ht⟩

/-- A variable that no condition mentions has no term. -/
theorem termOf?_eq_none {name : String} {ps : List (Condition × Fact)} (h : nearestMention? name (ps.map Prod.fst) = none) :
    termOf? name ps = none := by
  induction ps with
  | nil => rfl
  | cons p ps ih =>
    obtain ⟨c, g⟩ := p
    rw [termOf?_cons]
    rw [List.map_cons, nearestMention?] at h
    cases hf : c.fieldOf? name with
    | some f =>
      rw [hf] at h
      nomatch h
    | none =>
      rw [hf] at h
      exact ih (Option.map_eq_none_iff.1 h)

/-- A variable of one of the conditions has a term. -/
theorem exists_termOf? {name : String} {ps : List (Condition × Fact)} {p : Condition × Fact} (hp : p ∈ ps) {field : Field}
    (hs : p.1.slot field = .var name) : ∃ v, termOf? name ps = some v := by
  induction ps with
  | nil => exact absurd hp List.not_mem_nil
  | cons q ps ih =>
    obtain ⟨c, g⟩ := q
    rw [termOf?_cons]
    cases hf : c.fieldOf? name with
    | some f => exact ⟨_, rfl⟩
    | none =>
      rcases List.mem_cons.1 hp with rfl | hp
      · exact absurd hs (Condition.fieldOf?_eq_none hf field)
      · exact ih hp

/-- A variable that one of the conditions of a tuple mentions has a term. -/
theorem exists_termOf?_of_mentions {cs : List Condition} {gs : List Fact} (hlen : cs.length = gs.length) {c : Condition} (hc : c ∈ cs)
    {name : String} (hm : c.mentions name = true) : ∃ v, termOf? name (pairs cs gs) = some v := by
  obtain ⟨field, hslot⟩ := Condition.mentions_iff.1 hm
  have hcin : c ∈ (pairs cs gs).map Prod.fst := by
    rw [map_fst_pairs hlen, List.mem_reverse]
    exact hc
  obtain ⟨p, hp, rfl⟩ := List.mem_map.1 hcin
  exact exists_termOf? hp hslot

/-! ## Substitutions read off a match -/

/-- Each variable reads the term that the earlier conditions read for it, if there is one. The conditions are listed nearest
first. -/
def Agrees : List (Condition × Fact) → Prop
  | [] => True
  | p :: ps => Agrees ps ∧ ∀ field name v, p.1.slot field = .var name → termOf? name ps = some v → field.read p.2 = v

/-- The substitution that gives each variable the term that is read for it. -/
def substOf (ps : List (Condition × Fact)) (name : String) : Term := (termOf? name ps).getD default

/-- Substitutions that agree on the variables of a condition turn it into one fact. -/
theorem Condition.apply_congr {c : Condition} {σ τ : String → Term} (h : ∀ field name, c.slot field = .var name → σ name = τ name) :
    c.apply σ = c.apply τ := by
  have hslot : ∀ field, (c.slot field).apply σ = (c.slot field).apply τ := by
    intro field
    cases hs : c.slot field with
    | const term => rfl
    | var name => exact h field name hs
  have hsubject := hslot .subject
  have hobject := hslot .object
  simp only [slot] at hsubject hobject
  rw [apply, hsubject, hobject, apply]

/-- The nearest fact, an instance of its condition, has the terms that are read off it. -/
theorem apply_substOf_cons {c : Condition} {g : Fact} (ps : List (Condition × Fact)) (hi : c.Instance g) :
    c.apply (substOf ((c, g) :: ps)) = g := by
  obtain ⟨hpred, hconst, hboth⟩ := Condition.instance_iff.1 hi
  have hslot : ∀ field, (c.slot field).apply (substOf ((c, g) :: ps)) = field.read g := by
    intro field
    cases hs : c.slot field with
    | const term => exact (hconst field term hs).symm
    | var name =>
      rw [Slot.apply, substOf, termOf?_cons]
      cases hf : c.fieldOf? name with
      | none => exact absurd hs (Condition.fieldOf?_eq_none hf field)
      | some f =>
        obtain ⟨hsf, hpref⟩ := Condition.fieldOf?_eq_some hf
        cases field <;> cases f
        · rfl
        · exact absurd hs (hpref rfl)
        · exact hboth name hsf hs
        · rfl
  have hsubject := hslot .subject
  have hobject := hslot .object
  simp only [Condition.slot, Field.read] at hsubject hobject
  rw [Condition.apply, hsubject, hobject, ← hpred]

/-- If the facts agree, and each is an instance of its condition, the terms read off them turn the conditions into the facts. -/
theorem apply_substOf {ps : List (Condition × Fact)} (ha : Agrees ps) (hi : ∀ p ∈ ps, p.1.Instance p.2) :
    ∀ p ∈ ps, p.1.apply (substOf ps) = p.2 := by
  induction ps with
  | nil => exact fun p hp => absurd hp List.not_mem_nil
  | cons q ps ih =>
    obtain ⟨c, g⟩ := q
    obtain ⟨hold, hnew⟩ := ha
    intro p hp
    rcases List.mem_cons.1 hp with rfl | hp
    · exact apply_substOf_cons ps (hi _ List.mem_cons_self)
    · -- a variable that occurs among the others keeps its term
      have hkeep : ∀ field name, p.1.slot field = .var name → substOf ((c, g) :: ps) name = substOf ps name := by
        intro field name hs
        obtain ⟨v, hv⟩ := exists_termOf? hp hs
        rw [substOf, substOf, termOf?_cons, hv]
        cases hf : c.fieldOf? name with
        | none => rfl
        | some f => exact hnew f name v (Condition.fieldOf?_eq_some hf).1 hv
      rw [Condition.apply_congr hkeep, ih hold (fun r hr => hi r (List.mem_cons_of_mem _ hr)) p hp]

/-- A substitution that turns the conditions into the facts gives each variable the term that is read for it. -/
theorem termOf?_of_apply {σ : String → Term} {ps : List (Condition × Fact)} (h : ∀ p ∈ ps, p.1.apply σ = p.2) {name : String}
    {v : Term} (hv : termOf? name ps = some v) : v = σ name := by
  obtain ⟨p, hp, hf⟩ := List.exists_of_findSome?_eq_some hv
  obtain ⟨field, hfield, rfl⟩ := Option.map_eq_some_iff.1 hf
  rw [← h p hp, read_apply, (Condition.fieldOf?_eq_some hfield).1]
  rfl

/-! ## Bindings read off a match -/

/-- A value that is entered for a new name only is found where there was none. -/
theorem Table.find?_insertNew {α : Type} (t : Table α) (name other : String) (value : α) :
    (t.insertNew name value).find? other = (t.find? other).or (if other = name then some value else none) := by
  unfold Table.insertNew Table.contains
  split
  · rename_i h
    obtain ⟨v, hv⟩ := Option.isSome_iff_exists.1 h
    split
    · rename_i ho
      rw [ho, hv]
      rfl
    · rw [Option.or_none]
  · rename_i h
    rw [Table.find?_insert]
    split
    · rename_i ho
      rw [ho, Option.not_isSome_iff_eq_none.1 h]
      rfl
    · rw [Option.or_none]

/-- A variable is bound to the term that was bound first. -/
theorem find?_bind (select : List String) (b : Bindings) (x? : Option String) (term : Term) (name : String) :
    (Network.bind select b x? term).find? name =
      (b.find? name).or (if x? = some name ∧ select.contains name then some term else none) := by
  cases x? with
  | none => simp [Network.bind]
  | some x =>
    rw [Network.bind]
    split
    · rename_i hx
      rw [Table.find?_insertNew]
      have hmem := List.contains_iff_mem.1 hx
      by_cases he : name = x
      · subst he
        simp [hmem]
      · simp [he, Ne.symm he]
    · rename_i hx
      have hmem : x ∉ select := fun hm => hx (List.contains_iff_mem.2 hm)
      by_cases he : name = x
      · subst he
        simp [hmem]
      · simp [Ne.symm he]

/-- Binds the variables of a condition to the terms of its fact. -/
def bindPair (select : List String) (b : Bindings) (p : Condition × Fact) : Bindings :=
  Network.bind select (Network.bind select b p.1.subjectVar? p.2.subject) p.1.objectVar? p.2.object

/-- The bindings that are read off a match, from its last condition back to its first. -/
def bindingsFrom (select : List String) (ps : List (Condition × Fact)) : Bindings := ps.foldl (bindPair select) .empty

/-- Binding pair after pair gives a selected variable its first value. -/
theorem find?_foldl_bindPair (select : List String) (b : Bindings) (ps : List (Condition × Fact)) (name : String) :
    (ps.foldl (bindPair select) b).find? name =
      (b.find? name).or (if select.contains name then termOf? name ps else none) := by
  induction ps generalizing b with
  | nil => simp [termOf?]
  | cons p ps ih =>
    obtain ⟨c, g⟩ := p
    rw [List.foldl_cons, ih, bindPair, find?_bind, find?_bind, termOf?_cons, Option.or_assoc, Option.or_assoc]
    congr 1
    unfold Condition.fieldOf?
    by_cases hsel : name ∈ select
    · by_cases hs : c.subjectVar? = some name
      · simp [hs, hsel, Field.read]
      · by_cases ho : c.objectVar? = some name
        · simp [hs, ho, hsel, Field.read]
        · simp [hs, ho]
    · simp [hsel]

/-- A selected variable is bound to the term that is read for it, and no other is bound. -/
theorem find?_bindingsFrom (select : List String) (ps : List (Condition × Fact)) (name : String) :
    (bindingsFrom select ps).find? name = if select.contains name then termOf? name ps else none := by
  rw [bindingsFrom, find?_foldl_bindPair]
  simp

end TripleRules

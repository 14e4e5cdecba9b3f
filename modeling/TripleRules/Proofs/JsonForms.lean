import Mathlib.Data.List.Forall2
import TripleRules.Form.Matches
import TripleRules.Proofs.Answers

/-!
# The forms of rules and matches

A record can be written as an object, with its fields in any order and among other members, or as an array of its fields in the
order in which it declares them. A rule is a record of lists of records, so it can be written in many ways, with either shape at each
place; matches are a record of objects of objects, whose members may stand in any order. Main statement: whichever of these forms a
rule or matches have, they are read back as what they are (`read_forms`).

The names of an object are told apart: none of them stands there twice.
-/

namespace TripleRules

/-! ## Records -/

namespace Json

/-- The forms of a record whose fields have some values, where `none` is a field that is left out. -/
inductive Record (fields : List String) (values : List (Option Json)) : Json → Prop where
  /-- The values in the order of the fields; only the last fields can be left out. -/
  | array {items : List Json} {k : Nat} :
      values = items.map some ++ List.replicate k none → Record fields values (array items)
  /-- The values under the names of the fields, in any order and among other members. -/
  | object {members : List (String × Json)} : (members.map Prod.fst).Nodup →
      (∀ p ∈ fields.zip values, ∀ v, (p.1, v) ∈ members ↔ p.2 = some v) → Record fields values (object members)

variable {fields : List String} {values : List (Option Json)}

/-- Reading a record gives the values of its fields, whatever its form. -/
theorem record?_of_record {j : Json} (hlen : fields.length = values.length) (h : Record fields values j) :
    j.record? fields = some values := by
  cases h with
  | @array items k he =>
    subst he
    rw [List.length_append, List.length_map, List.length_replicate] at hlen
    rw [record?, if_pos (by omega), hlen, Nat.add_sub_cancel_left]
  | @object members hnodup hmem =>
    refine congrArg some ?_
    rw [← List.forall₂_eq_eq_eq, List.forall₂_map_left_iff, List.forall₂_iff_zip]
    refine ⟨hlen, fun hp => Option.ext fun v => ?_⟩
    rw [valueAt?_eq_some_iff hnodup]
    exact hmem _ hp v

/-- The object of the fields in their order is a form. -/
theorem record_zip (vs : List Json) (hnodup : fields.Nodup) (hlen : fields.length = vs.length) :
    Record fields (vs.map some) (.object (fields.zip vs)) := by
  have hnames : ((fields.zip vs).map Prod.fst).Nodup := by
    rw [List.map_fst_zip (Nat.le_of_eq hlen)]
    exact hnodup
  refine .object hnames fun p hp v => ?_
  rw [List.zip_map_right, List.mem_map] at hp
  obtain ⟨⟨name, w⟩, hmem, rfl⟩ := hp
  have hvalue : valueAt? name (fields.zip vs) = some w := (valueAt?_eq_some_iff hnames).2 hmem
  rw [← valueAt?_eq_some_iff hnames]
  change valueAt? name (fields.zip vs) = some v ↔ some w = some v
  rw [hvalue]

/-! ## Lists that can be left out -/

/-- The forms of a list that can be left out if it is empty. -/
def ListField {α : Type} (F : α → Json → Prop) (as : List α) (value : Option Json) : Prop :=
  value = none ∧ as = [] ∨ ∃ js, value = some (array js) ∧ List.Forall₂ F as js

variable {α : Type} {read : Json → Option α} {F : α → Json → Prop}

/-- The items of an array are read one by one. -/
theorem listOf?_of_forall₂ (hread : ∀ a j, F a j → read j = some a) {as : List α} {js : List Json} (h : List.Forall₂ F as js) :
    (array js).listOf? read = some as := by
  have hjs : List.Forall₂ (fun j a => read j = some a) js as := .flip (h.imp hread)
  exact List.mapM_eq_pure_of_forall₂ hjs

/-- A list that is left out is read as the empty one. -/
theorem listOf?_of_listField (hread : ∀ a j, F a j → read j = some a) {as : List α} {value : Option Json}
    (h : ListField F as value) : (value.getD (array [])).listOf? read = some as := by
  rcases h with ⟨rfl, rfl⟩ | ⟨js, rfl, h⟩
  · rfl
  · exact listOf?_of_forall₂ hread h

/-- What is written of each element of a list is a list of forms. -/
theorem forall₂_map_of {write : α → Json} (hwrite : ∀ a, F a (write a)) (as : List α) : List.Forall₂ F as (as.map write) :=
  List.forall₂_map_right_iff.2 (List.forall₂_same.2 fun a _ => hwrite a)

end Json

/-! ## Tables -/

/-- An entry with a new name goes to the end. -/
theorem putEntry_of_notMem {α : Type} {name : String} {es : List (String × α)} (h : name ∉ es.map Prod.fst) (value : α) :
    putEntry name value es = es ++ [(name, value)] := by
  induction es with
  | nil => rfl
  | cons e es ih =>
    obtain ⟨hne, hes⟩ := List.ne_and_not_mem_of_not_mem_cons h
    rw [putEntry, if_neg hne.symm, ih hes, List.cons_append]

namespace Table

variable {α : Type}

/-- A table is its entries. -/
theorem eq_of_entries {t t' : Table α} (h : t.entries = t'.entries) : t = t' := by
  cases t
  cases t'
  cases h
  rfl

/-- A table of entries with different names has just these entries, in their order. -/
theorem entries_ofList {es : List (String × α)} (h : (es.map Prod.fst).Nodup) : (ofList es).entries = es := by
  suffices hfold : ∀ t : Table α, ((t.entries ++ es).map Prod.fst).Nodup →
      (es.foldl (fun t e => t.insert e.1 e.2) t).entries = t.entries ++ es from hfold .empty h
  induction es with
  | nil => exact fun t _ => (List.append_nil _).symm
  | cons e es ih =>
    intro t ht
    have hnew : e.1 ∉ t.entries.map Prod.fst := by
      rw [List.map_append, List.map_cons] at ht
      exact fun hmem => (List.nodup_append.1 ht).2.2 _ hmem _ List.mem_cons_self rfl
    have hput : (t.insert e.1 e.2).entries = t.entries ++ [e] := putEntry_of_notMem hnew e.2
    rw [List.foldl_cons, ih (List.nodup_cons.1 h).2 _ (by rw [hput, List.append_assoc]; exact ht), hput, List.append_assoc]
    rfl

/-- Two tables have the same names, and their values are related. The order of the entries does not matter. -/
def Rel (R : α → α → Prop) (t t' : Table α) : Prop := ∀ name, Option.Rel R (t.find? name) (t'.find? name)

/-- The forms of a table: an object of its entries, in any order. -/
inductive Form (F : α → Json → Prop) (t : Table α) : Json → Prop where
  | object {es : List (String × α)} {members : List (String × Json)} : t.entries.Perm es →
      List.Forall₂ (fun e m => m.1 = e.1 ∧ F e.2 m.2) es members → Form F t (.object members)

/-- The object of the entries in their order is a form. -/
theorem form_ofTable {F : α → Json → Prop} {write : α → Json} (hwrite : ∀ a, F a (write a)) (t : Table α) :
    t.Form F (.ofTable write t) :=
  .object (.refl _) (List.forall₂_map_right_iff.2 (List.forall₂_same.2 fun e _ => ⟨rfl, hwrite e.2⟩))

/-- A table that is written with its entries in their order is read as it is. -/
theorem tableOf?_ofTable {read : Json → Option α} {write : α → Json} (h : ∀ a, read (write a) = some a) (t : Table α) :
    (Json.ofTable write t).tableOf? read = some t := by
  have hmap : (t.entries.map fun e => (e.1, write e.2)).mapM (fun m => (read m.2).map (m.1, ·)) = some t.entries := by
    refine List.mapM_eq_pure_of_forall₂ (List.forall₂_map_left_iff.2 (List.forall₂_same.2 fun e _ => ?_))
    rw [h, Option.map_some]
    rfl
  have hofList : ofList t.entries = t := eq_of_entries (entries_ofList t.nodup_names)
  rw [Json.ofTable, Json.tableOf?, hmap]
  exact congrArg some hofList

/-- Entries whose values are related give related values under each name. -/
theorem rel_valueAt? {R : α → α → Prop} {es fs : List (String × α)}
    (h : List.Forall₂ (fun e f => e.1 = f.1 ∧ R e.2 f.2) es fs) (name : String) :
    Option.Rel R (valueAt? name es) (valueAt? name fs) := by
  induction h with
  | nil => exact .none
  | @cons e f es fs hef _ ih =>
    obtain ⟨hname, hvalue⟩ := hef
    rw [valueAt?, valueAt?, hname]
    split
    · exact .some hvalue
    · exact ih

/-- Whatever the form of a table, it is read as a table of the same names whose values are read as what they are. -/
theorem tableOf?_of_form {F : α → Json → Prop} {R : α → α → Prop} {read : Json → Option α}
    (hread : ∀ a j, F a j → ∃ a', read j = some a' ∧ R a' a) {t : Table α} {j : Json} (h : t.Form F j) :
    ∃ t', j.tableOf? read = some t' ∧ t'.Rel R t := by
  obtain @⟨es, members, hperm, hmembers⟩ := h
  have hentries : ∃ es', members.mapM (fun m => (read m.2).map (m.1, ·)) = some es' ∧
      List.Forall₂ (fun e' e => e'.1 = e.1 ∧ R e'.2 e.2) es' es := by
    refine List.exists_mapM_eq_pure (.flip (hmembers.imp fun e m hem => ?_))
    obtain ⟨a', ha', hR⟩ := hread _ _ hem.2
    refine ⟨(m.1, a'), ?_, hem.1, hR⟩
    rw [ha', Option.map_some]
    rfl
  obtain ⟨es', hes', hrel⟩ := hentries
  have hnames : es'.map Prod.fst = es.map Prod.fst := by
    rw [← List.forall₂_eq_eq_eq, List.forall₂_map_left_iff, List.forall₂_map_right_iff]
    exact hrel.imp fun _ _ h => h.1
  have hnodup : (es.map Prod.fst).Nodup := (hperm.map Prod.fst).nodup_iff.1 t.nodup_names
  refine ⟨ofList es', ?_, fun name => ?_⟩
  · rw [Json.tableOf?, hes']
    rfl
  · have hfind : valueAt? name t.entries = valueAt? name es := by
      refine Option.ext fun v => ?_
      rw [valueAt?_eq_some_iff t.nodup_names, valueAt?_eq_some_iff hnodup, hperm.mem_iff]
    rw [find?, find?, entries_ofList (by rw [hnames]; exact hnodup), hfind]
    exact rel_valueAt? hrel name

end Table

/-! ## The forms of rules -/

/-- A term is read back as what it is. -/
theorem Term.ofJson?_toJson (t : Term) : ofJson? t.toJson = some t := by
  cases t <;> rfl

/-- A slot of a condition is read back as what it is. -/
theorem Slot.ofJson?_toJson (x : Slot) : ofJson? x.toJson = some x := by
  cases x with
  | var name => rfl
  | const t => exact congrArg (Option.map const) t.ofJson?_toJson

/-- The forms of a condition. -/
def Condition.Form (c : Condition) : Json → Prop :=
  Json.Record ["subject", "predicate", "object"] [some c.subject.toJson, some c.predicate.toJson, some c.object.toJson]

/-- The object that is written of a condition is one of its forms. -/
theorem Condition.form_toJson (c : Condition) : c.Form c.toJson :=
  Json.record_zip [c.subject.toJson, c.predicate.toJson, c.object.toJson] (by decide) rfl

/-- Whatever the form of a condition, it is read back as what it is. -/
theorem Condition.ofJson?_of_form {c : Condition} {j : Json} (h : c.Form j) : ofJson? j = some c := by
  simp only [ofJson?, Json.record?_of_record rfl h, Option.bind_eq_bind, Option.bind_some, Slot.ofJson?_toJson, Term.ofJson?_toJson]
  rfl

/-- The forms of an inequality. -/
def Inequality.Form (i : Inequality) : Json → Prop :=
  Json.Record ["left", "right"] [some i.left.toJson, some i.right.toJson]

/-- The object that is written of an inequality is one of its forms. -/
theorem Inequality.form_toJson (i : Inequality) : i.Form i.toJson :=
  Json.record_zip [i.left.toJson, i.right.toJson] (by decide) rfl

/-- Whatever the form of an inequality, it is read back as what it is. -/
theorem Inequality.ofJson?_of_form {i : Inequality} {j : Json} (h : i.Form j) : ofJson? j = some i := by
  simp only [ofJson?, Json.record?_of_record rfl h, Option.bind_eq_bind, Option.bind_some, Slot.ofJson?_toJson]
  rfl

namespace Rule

/-- The names of the fields of a rule, in their order. -/
def fields : List String := ["name", "conditions", "not_same_terms", "select"]

/-- The forms of a rule. Each condition and each inequality has any of its forms, and the inequalities and the selected variables
can be left out if there are none. -/
def Form (r : Rule) (j : Json) : Prop :=
  ∃ cs is ss, List.Forall₂ Condition.Form r.conditions cs ∧ Json.ListField Inequality.Form r.inequalities is ∧
    Json.ListField (fun name j => j = .string name) r.select ss ∧
    Json.Record fields [some (.string r.name), some (.array cs), is, ss] j

/-- The object that is written of a rule is one of its forms. -/
theorem form_toJson (r : Rule) : r.Form r.toJson :=
  ⟨r.conditions.map Condition.toJson, some (.ofList Inequality.toJson r.inequalities), some (.ofList .string r.select),
    Json.forall₂_map_of Condition.form_toJson _, Or.inr ⟨_, rfl, Json.forall₂_map_of Inequality.form_toJson _⟩,
    Or.inr ⟨_, rfl, Json.forall₂_map_of (F := fun name j => j = .string name) (fun _ => rfl) _⟩,
    Json.record_zip [.string r.name, .ofList Condition.toJson r.conditions, .ofList Inequality.toJson r.inequalities,
      .ofList .string r.select] (by decide) rfl⟩

/-- What a rule is read from is settled by the values of its fields, and a list that is left out is read as the empty one. -/
theorem ofJson?_of_record {n cs : Json} {is ss : Option Json} {j : Json} (h : Json.Record fields [some n, some cs, is, ss] j) :
    ofJson? j = do
      return {
        name := ← n.string?
        conditions := ← cs.listOf? Condition.ofJson?
        inequalities := ← (is.getD (.array [])).listOf? Inequality.ofJson?
        select := ← (ss.getD (.array [])).listOf? Json.string? } := by
  have hrecord : j.record? ["name", "conditions", "not_same_terms", "select"] = some [some n, some cs, is, ss] :=
    Json.record?_of_record rfl h
  rw [ofJson?, hrecord]
  rfl

/-- Whatever the form of a rule, it is read back as what it is. -/
theorem ofJson?_of_form {r : Rule} {j : Json} (h : r.Form j) : ofJson? j = some r := by
  obtain ⟨cs, is, ss, hcs, his, hss, hj⟩ := h
  have hstring : ∀ (name : String) (j : Json), j = .string name → j.string? = some name := by
    rintro name _ rfl
    rfl
  have hconditions := Json.listOf?_of_forall₂ (fun _ _ h => Condition.ofJson?_of_form h) hcs
  have hinequalities := Json.listOf?_of_listField (fun _ _ h => Inequality.ofJson?_of_form h) his
  rw [ofJson?_of_record hj, hconditions, hinequalities, Json.listOf?_of_listField hstring hss]
  rfl

end Rule

/-! ## The forms of matches -/

namespace Matches

/-- The forms of matches. The rules and the variables may stand in any order. -/
def Form (m : Matches) (j : Json) : Prop :=
  ∃ v, m.rules.Form (fun b => b.Form fun t j => j = t.toJson) v ∧ Json.Record ["rules"] [some v] j

/-- Two matches give the same rules the same bindings. -/
def Same (m m' : Matches) : Prop := m.rules.Rel (Table.Rel Eq) m'.rules

/-- What is written of matches is a record of the table of rules. -/
theorem record_toJson (m : Matches) : Json.Record ["rules"] [some (.ofTable Bindings.toJson m.rules)] m.toJson :=
  Json.record_zip [.ofTable Bindings.toJson m.rules] (by decide) rfl

/-- The object that is written of matches is one of their forms. -/
theorem form_toJson (m : Matches) : m.Form m.toJson :=
  ⟨_, Table.form_ofTable (fun b => Table.form_ofTable (F := fun t j => j = t.toJson) (fun _ => rfl) b) m.rules, m.record_toJson⟩

/-- Matches are read from the table in the field of their record. -/
theorem ofJson?_of_record {v j : Json} (h : Json.Record ["rules"] [some v] j) :
    ofJson? j = (v.tableOf? Bindings.ofJson?).map Matches.mk := by
  simp only [ofJson?, Json.record?_of_record rfl h, Option.bind_eq_bind, Option.bind_some]
  cases v.tableOf? Bindings.ofJson? with
  | none => rfl
  | some t => rfl

/-- What is written is read as it is, with its order. -/
theorem ofJson?_toJson (m : Matches) : ofJson? m.toJson = some m := by
  have hbindings : ∀ b : Bindings, Bindings.ofJson? b.toJson = some b := Table.tableOf?_ofTable Term.ofJson?_toJson
  rw [ofJson?_of_record m.record_toJson, Table.tableOf?_ofTable hbindings]
  rfl

/-- Whatever the form of matches, they are read back as matches that give the same. -/
theorem ofJson?_of_form {m : Matches} {j : Json} (h : m.Form j) : ∃ m', ofJson? j = some m' ∧ m'.Same m := by
  obtain ⟨v, hv, hj⟩ := h
  have hbindings : ∀ (b : Bindings) (j : Json), b.Form (fun t j => j = t.toJson) j →
      ∃ b', Bindings.ofJson? j = some b' ∧ b'.Rel Eq b := fun b j hb =>
    Table.tableOf?_of_form (fun t j ht => ⟨t, by rw [ht, Term.ofJson?_toJson], rfl⟩) hb
  obtain ⟨t, ht, hrel⟩ := Table.tableOf?_of_form hbindings hv
  exact ⟨⟨t⟩, by rw [ofJson?_of_record hj, ht]; rfl, hrel⟩

end Matches

/-- Rules and matches are read back as what they are, from what they are written as and from any other form: for each record in
them an object of its fields, in any order and among other members, or an array of its fields, and for each table an object with its
members in any order. A rule from which the inequalities or the selected variables are left out is read as if they were there and
empty, whatever the other fields are and whichever shape it has. -/
theorem read_forms (r : Rule) (m : Matches) :
    (Rule.ofJson? r.toJson = some r ∧ Matches.ofJson? m.toJson = some m) ∧
    (r.Form r.toJson ∧ ∀ j, r.Form j → Rule.ofJson? j = some r) ∧
    (m.Form m.toJson ∧ ∀ j, m.Form j → ∃ m', Matches.ofJson? j = some m' ∧ m'.Same m) ∧
    ∀ (n cs : Json) (is ss : Option Json) (j k : Json), Json.Record Rule.fields [some n, some cs, is, ss] j →
      Json.Record Rule.fields [some n, some cs, some (is.getD (.array [])), some (ss.getD (.array []))] k →
      Rule.ofJson? j = Rule.ofJson? k := by
  refine ⟨⟨Rule.ofJson?_of_form r.form_toJson, m.ofJson?_toJson⟩, ⟨r.form_toJson, fun j => Rule.ofJson?_of_form⟩,
    ⟨m.form_toJson, fun j => Matches.ofJson?_of_form⟩, fun n cs is ss j k hj hk => ?_⟩
  rw [Rule.ofJson?_of_record hj, Rule.ofJson?_of_record hk, Option.getD_some, Option.getD_some]

/-- A rule as an array that ends before the lists that are empty, with a condition that has its fields out of order and one more. -/
example : Rule.ofJson? (.array [.string "known", .array [.object [("object", (Slot.var "?y").toJson), ("note", .null),
    ("subject", (Slot.var "?x").toJson), ("predicate", (Term.resource "knows").toJson)]]]) =
      some ⟨"known", [.between "?x" (.resource "knows") "?y"], [], []⟩ := rfl

end TripleRules

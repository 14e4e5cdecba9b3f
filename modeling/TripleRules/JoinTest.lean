import TripleRules.Failure

/-!
# Join tests

A join test compares a field of a new fact with a field of a fact that an earlier condition matched. The earlier condition is
given by its distance. A variable is tested against the nearest earlier condition that mentions it.
-/

namespace TripleRules

/-- A comparison between a new fact and the fact matched a number of conditions earlier. -/
structure JoinTest where
  /-- The variable that makes the comparison necessary. -/
  variableName : String
  /-- The field of the new fact. -/
  newField : Field
  /-- The distance to the earlier condition; the one just before is at distance one. -/
  levelsUp : Nat
  /-- The field of the earlier fact. -/
  oldField : Field
  deriving DecidableEq, Repr

/-- A join test that looks at least one level up; any other is refused. -/
def JoinTest.create (variableName : String) (newField : Field) (levelsUp : Nat) (oldField : Field) : Outcome JoinTest :=
  if levelsUp = 0 then .error (.rule (.noLevelUp variableName) none none)
  else .ok ⟨variableName, newField, levelsUp, oldField⟩

/-- The text of a join test. -/
def JoinTest.text (t : JoinTest) : String :=
  t.variableName ++ ": " ++ t.newField.text ++ " = " ++ t.oldField.text ++ "^" ++ toString t.levelsUp

/-- The distance to the nearest condition that mentions a variable, and the field that holds it. The conditions are listed
nearest first. -/
def nearestMention? (name : String) : List Condition → Option (Nat × Field)
  | [] => none
  | c :: cs =>
    match c.fieldOf? name with
    | some field => some (1, field)
    | none => (nearestMention? name cs).map fun (distance, field) => (distance + 1, field)

/-- The test for the variable at a field of a condition, if there is one and an earlier condition mentions it. -/
def Condition.test? (earlier : List Condition) (c : Condition) (field : Field) : Option JoinTest := do
  let name ← (c.slot field).varName?
  let (distance, oldField) ← nearestMention? name earlier
  return ⟨name, field, distance, oldField⟩

/-- The tests of a condition after the conditions before it, which are listed nearest first: that of its subject, then that of
its object. -/
def Condition.tests (earlier : List Condition) (c : Condition) : List JoinTest :=
  (c.test? earlier .subject).toList ++ (c.test? earlier .object).toList

/-- The nearest mention is at a distance that reaches one of the earlier conditions. -/
theorem nearestMention?_bounds {name : String} {cs : List Condition} {distance : Nat} {field : Field}
    (h : nearestMention? name cs = some (distance, field)) : 1 ≤ distance ∧ distance ≤ cs.length := by
  induction cs generalizing distance field with
  | nil => nomatch h
  | cons c cs ih =>
    unfold nearestMention? at h
    split at h
    · obtain ⟨rfl, rfl⟩ := Prod.mk.inj (Option.some.inj h)
      exact ⟨Nat.le_refl 1, Nat.succ_le_succ (Nat.zero_le _)⟩
    · obtain ⟨⟨d, f⟩, hd, he⟩ := Option.map_eq_some_iff.1 h
      obtain ⟨rfl, rfl⟩ := Prod.mk.inj he
      obtain ⟨h₁, h₂⟩ := ih hd
      exact ⟨Nat.le_succ_of_le h₁, Nat.succ_le_succ h₂⟩

end TripleRules

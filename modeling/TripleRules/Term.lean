/-!
# Terms

A term is what stands in a place of a fact: a named resource, or a literal value compared by its lexical form. A resource and
a literal differ even where their characters agree, and every resource comes before every literal. The comparison of terms is
a total order in which only equal terms compare as equal.
-/

namespace TripleRules

/-- A constant: a named resource or a literal value. -/
inductive Term where
  | resource (name : String)
  | literal (value : String)
  deriving DecidableEq, Repr, Inhabited

namespace Term

/-- The characters of a term, without any quoting. -/
def lexical : Term → String
  | resource name => name
  | literal value => value

/-- The text of a term: a resource is bare, a literal stands between double quotes. Nothing is escaped. -/
def text : Term → String
  | resource name => name
  | literal value => "\"" ++ value ++ "\""

/-- Whether a term is a literal. -/
def isLiteral : Term → Bool
  | resource _ => false
  | literal _ => true

/-- Resources come before literals; within a kind the order is that of the code points. -/
def compare (a b : Term) : Ordering :=
  (Ord.compare a.isLiteral b.isLiteral).then (Ord.compare a.lexical b.lexical)

instance : Ord Term := ⟨Term.compare⟩

end Term

/-! ## The order of terms -/

instance : Std.TransCmp Term.compare :=
  inferInstanceAs (Std.TransCmp (compareLex (compareOn Term.isLiteral) (compareOn Term.lexical)))

/-- Only equal terms compare as equal: the kind and the characters make the term. -/
theorem Term.compare_eq_iff (a b : Term) : a.compare b = .eq ↔ a = b := by
  rw [Term.compare, Ordering.then_eq_eq, Std.compare_eq_iff_eq, Std.compare_eq_iff_eq]
  cases a <;> cases b <;> simp [Term.isLiteral, Term.lexical]

instance : Std.LawfulEqCmp Term.compare where
  compare_self := (Term.compare_eq_iff _ _).2 rfl
  eq_of_compare := (Term.compare_eq_iff _ _).1

instance : Std.TransOrd Term := inferInstanceAs (Std.TransCmp Term.compare)

instance : Std.LawfulEqOrd Term := inferInstanceAs (Std.LawfulEqCmp Term.compare)

end TripleRules

/-!
# Sorted lists

Insertion into a list that is sorted by a comparison, with and without repetition, and the sort built from it. Sorting is
stable: of two equal elements the one that came first stays first.
-/

namespace TripleRules.Ordered

variable {α : Type}

/-- Inserts before the first element that is not smaller. -/
def insert (cmp : α → α → Ordering) (x : α) : List α → List α
  | [] => [x]
  | y :: ys => if (cmp x y).isLE then x :: y :: ys else y :: insert cmp x ys

/-- The elements in ascending order. -/
def sort (cmp : α → α → Ordering) (xs : List α) : List α := xs.foldr (insert cmp) []

/-- Inserts unless an equal element is there. -/
def insertNew (cmp : α → α → Ordering) (x : α) : List α → List α
  | [] => [x]
  | y :: ys =>
    match cmp x y with
    | .lt => x :: y :: ys
    | .eq => y :: ys
    | .gt => y :: insertNew cmp x ys

/-- The distinct elements in ascending order, together with those of a list that is already so. -/
def merge (cmp : α → α → Ordering) (new old : List α) : List α :=
  new.foldl (fun acc x => insertNew cmp x acc) old

end TripleRules.Ordered

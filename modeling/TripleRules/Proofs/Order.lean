import Mathlib.Data.List.Sort
import TripleRules.Fact
import TripleRules.Ordered

/-!
# Sorted lists

By a total order in which only equal elements compare as equal the sort of a list depends only on which elements the list has
and how often, and a merge has the elements of both its parts.
-/

namespace TripleRules

/-! ## Sorted lists -/

namespace Ordered

variable {α : Type} {cmp : α → α → Ordering}

/-- Ascending, with repetitions allowed. -/
def Ascending (cmp : α → α → Ordering) (xs : List α) : Prop := xs.Pairwise fun x y => (cmp x y).isLE

theorem insert_eq_orderedInsert (x : α) (xs : List α) : insert cmp x xs = xs.orderedInsert (fun x y => (cmp x y).isLE) x := by
  induction xs with
  | nil => rfl
  | cons y ys ih => rw [insert, List.orderedInsert, ih]

/-- The sort is insertion sort by "comes first or is equal". -/
theorem sort_eq_insertionSort (xs : List α) : sort cmp xs = xs.insertionSort fun x y => (cmp x y).isLE := by
  induction xs with
  | nil => rfl
  | cons x xs ih => rw [List.insertionSort_cons, ← ih, ← insert_eq_orderedInsert, sort, List.foldr_cons, sort]

/-- Sorting only rearranges. -/
theorem perm_sort (xs : List α) : (sort cmp xs).Perm xs := by
  rw [sort_eq_insertionSort]
  exact List.perm_insertionSort _ xs

/-- A sort is ascending. -/
theorem ascending_sort [Std.TransCmp cmp] (xs : List α) : Ascending cmp (sort cmp xs) := by
  have htotal : Std.Total fun x y => (cmp x y).isLE = true := ⟨fun x y => by
    by_cases h : (cmp x y).isLE
    · exact Or.inl h
    · right
      rw [Std.OrientedCmp.lt_of_not_isLE h]
      rfl⟩
  have htrans : IsTrans α fun x y => (cmp x y).isLE = true := ⟨fun _ _ _ => Std.TransCmp.isLE_trans⟩
  rw [sort_eq_insertionSort]
  exact List.pairwise_insertionSort _ xs

/-- The order of a list does not show in its sort. -/
theorem sort_eq_of_perm [Std.TransCmp cmp] [Std.LawfulEqCmp cmp] {xs ys : List α} (h : xs.Perm ys) :
    sort cmp xs = sort cmp ys := by
  have hanti : Std.Antisymm fun x y => (cmp x y).isLE = true :=
    ⟨fun _ _ hxy hyx => Std.LawfulEqCmp.eq_of_compare (Std.OrientedCmp.isLE_antisymm hxy hyx)⟩
  exact ((perm_sort xs).trans (h.trans (perm_sort ys).symm)).eq_of_pairwise' (ascending_sort xs) (ascending_sort ys)

theorem mem_insertNew [Std.LawfulEqCmp cmp] {x y : α} {xs : List α} : y ∈ insertNew cmp x xs ↔ y = x ∨ y ∈ xs := by
  induction xs with
  | nil => simp [insertNew]
  | cons z zs ih =>
    unfold insertNew
    split
    · exact List.mem_cons
    · rename_i hc
      have hxz : x = z := Std.LawfulEqCmp.eq_of_compare hc
      subst hxz
      simp
    · rw [List.mem_cons, ih, List.mem_cons]
      exact or_left_comm

/-- A merge has the elements of both its parts. -/
theorem mem_merge [Std.LawfulEqCmp cmp] {new old : List α} {x : α} : x ∈ merge cmp new old ↔ x ∈ new ∨ x ∈ old := by
  unfold merge
  induction new generalizing old with
  | nil => simp
  | cons y ys ih =>
    rw [List.foldl_cons, ih, mem_insertNew, List.mem_cons, or_assoc]
    exact or_left_comm

end Ordered

end TripleRules

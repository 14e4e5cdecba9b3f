import Mathlib.Data.List.Nodup
import Mathlib.Data.List.Sigma

/-!
# Lists and arrays

Statements about lists and arrays in general: one more element at the end, elements with their positions, steps that are taken for
each element and may fail, and the image of an array of which one element is changed.
-/

namespace List

variable {α β γ : Type}

/-! ## One more element at the end -/

/-- What stands at a place of a list with one more element stood there before, or is the new element at the last place. -/
theorem getElem?_append_singleton_eq_some {xs : List α} {x y : α} {i : Nat} :
    (xs ++ [x])[i]? = some y ↔ xs[i]? = some y ∨ (i = xs.length ∧ x = y) := by
  rw [getElem?_append]
  split
  · rename_i hi
    exact ⟨Or.inl, fun h => h.resolve_right fun he => Nat.ne_of_lt hi he.1⟩
  · rename_i hi
    rw [getElem?_singleton, getElem?_eq_none (Nat.le_of_not_lt hi)]
    split
    · have hlen : i = xs.length := by omega
      simp [hlen]
    · have hlen : i ≠ xs.length := by omega
      simp [hlen]

/-- What is so at each place of two lists that have one more element each is so at each place before, and at the last one. -/
theorem forall_getElem?_append_singleton {as : List α} {bs : List β} (hlen : as.length = bs.length) {a : α} {b : β}
    {P : Nat → α → β → Prop} : (∀ i x y, (as ++ [a])[i]? = some x → (bs ++ [b])[i]? = some y → P i x y) ↔
      (∀ i x y, as[i]? = some x → bs[i]? = some y → P i x y) ∧ P as.length a b := by
  simp only [getElem?_append_singleton_eq_some]
  constructor
  · intro h
    exact ⟨fun i x y hx hy => h i x y (Or.inl hx) (Or.inl hy), h _ a b (Or.inr ⟨rfl, rfl⟩) (Or.inr ⟨hlen, rfl⟩)⟩
  · rintro ⟨hold, hlast⟩ i x y (hx | ⟨rfl, rfl⟩) (hy | ⟨hi, rfl⟩)
    · exact hold i x y hx hy
    · exact absurd (getElem?_eq_some_iff.1 hx).1 (by omega)
    · exact absurd (getElem?_eq_some_iff.1 hy).1 (by omega)
    · exact hlast

/-- One more element counts if it is not there yet. -/
theorem eraseDups_append_singleton [BEq α] [LawfulBEq α] (xs : List α) (x : α) :
    (xs ++ [x]).eraseDups = if x ∈ xs then xs.eraseDups else xs.eraseDups ++ [x] := by
  rw [eraseDups_append]
  split
  · rename_i hx
    simp [removeAll, hx]
  · rename_i hx
    simp [removeAll, hx, eraseDups_cons]

/-- Two lists that are split at the first occurrence of an element have the same parts. -/
theorem append_cons_inj_left {a : α} {xs ys us vs : List α} (hx : a ∉ xs) (hy : a ∉ ys) (h : xs ++ a :: us = ys ++ a :: vs) :
    xs = ys ∧ us = vs := by
  induction xs generalizing ys with
  | nil =>
    cases ys with
    | nil => exact ⟨rfl, (cons.inj h).2⟩
    | cons y ys =>
      obtain ⟨rfl, -⟩ := cons.inj h
      exact absurd mem_cons_self hy
  | cons x xs ih =>
    cases ys with
    | nil =>
      obtain ⟨rfl, -⟩ := cons.inj h
      exact absurd mem_cons_self hx
    | cons y ys =>
      obtain ⟨rfl, htail⟩ := cons.inj h
      obtain ⟨rfl, hrest⟩ := ih (mt (mem_cons_of_mem x) hx) (mt (mem_cons_of_mem x) hy) htail
      exact ⟨rfl, hrest⟩

/-! ## Elements with their positions -/

/-- What tells the position of its element is there once. -/
theorem nodup_map_zipIdx {f : α × Nat → β} (hf : ∀ p q, f p = f q → p.2 = q.2) (xs : List α) : (xs.zipIdx.map f).Nodup :=
  pairwise_map.2 ((pairwise_map.1 (nodup_zipIdx_map_snd xs)).imp fun hne he => hne (hf _ _ he))

/-- Pairs of a position and of something that is listed there once are there once. -/
theorem nodup_flatMap_zipIdx {f : Nat → γ → β} (hf : ∀ i j c d, f i c = f j d → i = j ∧ c = d) {g : α → List γ} {xs : List α}
    (hg : ∀ p ∈ xs.zipIdx, (g p.1).Nodup) : (xs.zipIdx.flatMap fun p => (g p.1).map (f p.2)).Nodup := by
  refine nodup_flatMap.2 ⟨fun p hp => (hg p hp).map fun c d he => (hf _ _ c d he).2, ?_⟩
  refine (pairwise_map.1 (nodup_zipIdx_map_snd xs)).imp fun hne b hp hq => ?_
  obtain ⟨c, -, rfl⟩ := mem_map.1 hp
  obtain ⟨d, -, he⟩ := mem_map.1 hq
  exact hne (hf _ _ d c he).1.symm

/-! ## Steps for each element -/

section

variable {m : Type → Type} [Monad m] [LawfulMonad m] {f : α → m β}

/-- If the step for each element succeeds with a result that is related to the element beside it, so do all steps in a row. -/
theorem exists_mapM_eq_pure {R : β → γ → Prop} {xs : List α} {zs : List γ}
    (h : Forall₂ (fun x z => ∃ y, f x = pure y ∧ R y z) xs zs) : ∃ ys, xs.mapM f = pure ys ∧ Forall₂ R ys zs := by
  induction h with
  | nil => exact ⟨[], mapM_nil, .nil⟩
  | cons hx _ ih =>
    obtain ⟨y, hy, hR⟩ := hx
    obtain ⟨ys, hys, hrel⟩ := ih
    exact ⟨y :: ys, by simp only [mapM_cons, hy, hys, pure_bind], .cons hR hrel⟩

/-- Steps whose results are known give these results in a row. -/
theorem mapM_eq_pure_of_forall₂ {xs : List α} {ys : List β} (h : Forall₂ (fun x y => f x = pure y) xs ys) :
    xs.mapM f = pure ys := by
  obtain ⟨zs, hzs, hrel⟩ := exists_mapM_eq_pure (R := Eq) (h.imp fun x y hxy => ⟨y, hxy, rfl⟩)
  rw [forall₂_eq_eq_eq] at hrel
  rw [hzs, hrel]

/-- Steps that do what a function does map that function over the list. -/
theorem mapM_eq_pure_map {g : α → β} {xs : List α} (h : ∀ x ∈ xs, f x = pure (g x)) : xs.mapM f = pure (xs.map g) :=
  mapM_eq_pure_of_forall₂ (forall₂_map_right_iff.2 (forall₂_same.2 h))

end

end List

namespace Array

variable {α β : Type}

/-- What stands beside its position in the list of an array is the element at that position. -/
theorem mem_zipIdx_toList {xs : Array α} {p : α × Nat} : p ∈ xs.toList.zipIdx ↔ xs[p.2]? = some p.1 := by
  rw [List.mem_zipIdx_iff_getElem?, getElem?_toList]

/-- A change of one element shows in an image as a change of its image. -/
theorem map_modify {φ : α → β} {f : α → α} {g : β → β} (h : ∀ x, φ (f x) = g (φ x)) (xs : Array α) (i : Nat) :
    (xs.modify i f).map φ = (xs.map φ).modify i g := by
  refine ext_getElem? fun k => ?_
  simp only [getElem?_map, getElem?_modify]
  split
  · cases xs[k]? with
    | none => rfl
    | some x => exact congrArg some (h x)
  · rfl

/-- A change that the image does not show leaves the image as it was. -/
theorem map_modify_of_eq {φ : α → β} {f : α → α} (h : ∀ x, φ (f x) = φ x) (xs : Array α) (i : Nat) :
    (xs.modify i f).map φ = xs.map φ := by
  rw [map_modify (g := id) h]
  refine ext_getElem? fun k => ?_
  rw [getElem?_modify, Option.map_id_fun, id, ite_self]

end Array

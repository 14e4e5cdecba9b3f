import TripleRules.Alpha.Index
import TripleRules.Proofs.Order

/-!
# The alpha index as a table of keys

In an index that requests have built, a key stands for a memory exactly if a memory was created for it, and the handle of a memory
is its position. A request gives the handle of the memory of its key, and leaves the handle, the key, the readers and the facts of
every memory as they were.
-/

namespace TripleRules

/-- A memory keeps the objects out that it is asked to, next to those that it kept out. -/
theorem AlphaMemory.mem_excluded_exclude (m : AlphaMemory) (objects : List Term) (o : Term) :
    o ∈ (m.exclude objects).excluded ↔ o ∈ objects ∨ o ∈ m.excluded := Ordered.mem_merge

namespace AlphaIndex

/-- The table leads from each key to the memory that was created for it. -/
def Keyed (x : AlphaIndex) : Prop := ∀ k a, x.byKey.find? k = some a ↔ ∃ m, x.get? a = some m ∧ m.key = k

/-- Without memories there are no keys. -/
theorem keyed_empty : empty.Keyed := by
  intro k a
  simp [empty, get?]

/-- The handle of each memory is its position. -/
def Numbered (x : AlphaIndex) : Prop := ∀ a m, x.get? a = some m → m.id = a

/-- Without memories there are no handles. -/
theorem numbered_empty : empty.Numbered := by
  intro a m hm
  cases hm

/-- A memory has one key. -/
theorem Keyed.find?_eq_some_iff {x : AlphaIndex} (h : x.Keyed) {k : String} {a : AlphaId} (hk : x.byKey.find? k = some a)
    (k' : String) : x.byKey.find? k' = some a ↔ k' = k := by
  constructor
  · intro hk'
    obtain ⟨m, hm, rfl⟩ := (h k a).1 hk
    obtain ⟨m', hm', rfl⟩ := (h k' a).1 hk'
    rw [Option.some.inj (hm'.symm.trans hm)]
  · rintro rfl
    exact hk

/-- A change of one memory is found at its handle, and the others as they were. -/
theorem get?_modify (x : AlphaIndex) (a b : AlphaId) (f : AlphaMemory → AlphaMemory) :
    (x.modify a f).get? b = if a = b then (x.get? b).map f else x.get? b :=
  Array.getElem?_modify

/-- A memory that is found has been handed out. -/
theorem lt_size_of_get? {x : AlphaIndex} {a : AlphaId} {m : AlphaMemory} (h : x.get? a = some m) : a < x.size :=
  (Array.getElem?_eq_some_iff.1 h).1

/-- A change that leaves the keys alone leaves the table right. -/
theorem keyed_modify {x : AlphaIndex} (h : x.Keyed) (a : AlphaId) {f : AlphaMemory → AlphaMemory}
    (hf : ∀ m, (f m).key = m.key) : (x.modify a f).Keyed := by
  intro k b
  have hb : (x.modify a f).byKey.find? k = some b ↔ ∃ m, x.get? b = some m ∧ m.key = k := h k b
  rw [hb, get?_modify]
  split
  · cases x.get? b with
    | none => simp
    | some m => simp [hf]
  · rfl

/-- A change that leaves the handles alone leaves them the positions. -/
theorem numbered_modify {x : AlphaIndex} (h : x.Numbered) (a : AlphaId) {f : AlphaMemory → AlphaMemory}
    (hf : ∀ m, (f m).id = m.id) : (x.modify a f).Numbered := by
  intro b m' hm'
  rw [get?_modify] at hm'
  split at hm'
  · obtain ⟨m, hm, rfl⟩ := Option.map_eq_some_iff.1 hm'
    rw [hf, h b m hm]
  · exact h b m' hm'

/-! ## Requests -/

/-- What a request does: it shares the memory that its key stands for, or creates one. -/
theorem request_cases (x : AlphaIndex) (p : Term) (o : Slot) (excluded : List Term) :
    (∃ a, x.byKey.find? (slotKey p o) = some a ∧
      x.request p o excluded = (a, { x with shared := x.shared + 1 }.modify a (·.exclude excluded))) ∨
    (x.byKey.find? (slotKey p o) = none ∧
      x.request p o excluded = (x.size, {
        memories := x.memories.push ((AlphaMemory.fresh x.size (slotKey p o) o.isVar).exclude excluded)
        byKey := x.byKey.insert (slotKey p o) x.size
        shared := x.shared })) := by
  cases h : x.byKey.find? (slotKey p o) with
  | none => exact Or.inr ⟨rfl, by simp only [request, h, size]⟩
  | some a => exact Or.inl ⟨a, rfl, by simp only [request, h]⟩

/-- The memory that a request creates comes after the old ones. -/
theorem get?_push (x : AlphaIndex) (m : AlphaMemory) (t : Table AlphaId) (a : AlphaId) :
    (AlphaIndex.mk (x.memories.push m) t x.shared).get? a = if a = x.size then some m else x.get? a :=
  Array.getElem?_push

/-- The handle that a request gives is that of its key. -/
theorem find?_request (x : AlphaIndex) (p : Term) (o : Slot) (excluded : List Term) :
    (x.request p o excluded).2.byKey.find? (slotKey p o) = some (x.request p o excluded).1 := by
  rcases request_cases x p o excluded with ⟨a, ha, he⟩ | ⟨-, he⟩
  · rw [he]
    exact ha
  · rw [he]
    simp

/-- A key keeps its handle. -/
theorem find?_request_of_some {x : AlphaIndex} {k : String} {a : AlphaId} (h : x.byKey.find? k = some a) (p : Term)
    (o : Slot) (excluded : List Term) : (x.request p o excluded).2.byKey.find? k = some a := by
  rcases request_cases x p o excluded with ⟨b, -, he⟩ | ⟨hn, he⟩
  · rw [he]
    exact h
  · have hk : k ≠ slotKey p o := by
      rintro rfl
      simp [h] at hn
    rw [he]
    simp [hk, h]

/-- A memory after a request is one from before, with the same readers, or has none. -/
theorem get?_request {x : AlphaIndex} {p : Term} {o : Slot} {excluded : List Term} {a : AlphaId} {m' : AlphaMemory}
    (h : (x.request p o excluded).2.get? a = some m') :
    (∃ m, x.get? a = some m ∧ m'.successors = m.successors) ∨ (a = x.size ∧ m'.successors = []) := by
  rcases request_cases x p o excluded with ⟨b, -, he⟩ | ⟨-, he⟩
  · rw [he, get?_modify] at h
    split at h
    · obtain ⟨m, hm, rfl⟩ := Option.map_eq_some_iff.1 h
      exact Or.inl ⟨m, hm, rfl⟩
    · exact Or.inl ⟨m', h, rfl⟩
  · rw [he, get?_push] at h
    split at h
    · rename_i ha
      cases h
      exact Or.inr ⟨ha, rfl⟩
    · exact Or.inl ⟨m', h, rfl⟩

/-- A request leaves the facts of every memory as they were, and a memory that it creates has none. -/
theorem facts_request (x : AlphaIndex) (p : Term) (o : Slot) (excluded : List Term) (a : AlphaId) :
    ((x.request p o excluded).2.get? a).elim [] (·.facts.toList) = (x.get? a).elim [] (·.facts.toList) := by
  rcases request_cases x p o excluded with ⟨b, -, he⟩ | ⟨-, he⟩
  · have hshared : ({ x with shared := x.shared + 1 } : AlphaIndex).get? a = x.get? a := rfl
    rw [he, get?_modify, hshared]
    split
    · cases x.get? a <;> rfl
    · rfl
  · rw [he, get?_push]
    split
    · rename_i ha
      have hnone : x.get? a = none := Array.getElem?_eq_none (Nat.le_of_eq ha.symm)
      rw [hnone]
      rfl
    · rfl

/-- A request keeps the index keyed. -/
theorem keyed_request {x : AlphaIndex} (h : x.Keyed) (p : Term) (o : Slot) (excluded : List Term) :
    (x.request p o excluded).2.Keyed := by
  rcases request_cases x p o excluded with ⟨b, -, he⟩ | ⟨hn, he⟩
  · rw [he]
    exact keyed_modify (x := { x with shared := x.shared + 1 }) h b fun _ => rfl
  · rw [he]
    intro k a
    rw [get?_push]
    simp only [Table.find?_insert]
    -- a key of an old memory is not the new one, for which there was no memory
    have hold : ∀ b m, x.get? b = some m → m.key ≠ slotKey p o := by
      intro b m hm hk
      rw [(h _ b).2 ⟨m, hm, hk⟩] at hn
      nomatch hn
    split
    · rename_i hk
      subst hk
      constructor
      · intro ha
        obtain rfl := Option.some.inj ha
        exact ⟨_, if_pos rfl, rfl⟩
      · rintro ⟨m, hm, hk⟩
        split at hm
        · rename_i ha
          rw [ha]
        · exact absurd hk (hold a m hm)
    · rename_i hk
      rw [h k a]
      constructor
      · rintro ⟨m, hm, hmk⟩
        have ha : a ≠ x.size := Nat.ne_of_lt (lt_size_of_get? hm)
        exact ⟨m, by rw [if_neg ha, hm], hmk⟩
      · rintro ⟨m, hm, hmk⟩
        split at hm
        · cases hm
          exact absurd hmk.symm hk
        · exact ⟨m, hm, hmk⟩

/-- A request gives a memory that it creates its position as the handle, and leaves the others theirs. -/
theorem numbered_request {x : AlphaIndex} (h : x.Numbered) (p : Term) (o : Slot) (excluded : List Term) :
    (x.request p o excluded).2.Numbered := by
  rcases request_cases x p o excluded with ⟨b, -, he⟩ | ⟨-, he⟩
  · rw [he]
    exact numbered_modify (x := { x with shared := x.shared + 1 }) h b fun _ => rfl
  · rw [he]
    intro a m hm
    rw [get?_push] at hm
    split at hm
    · rename_i ha
      obtain rfl := Option.some.inj hm
      exact ha.symm
    · exact h a m hm

/-! ## Routes -/

/-- The memories that a fact goes to are that of its predicate and object, and that of its predicate unless it keeps the
object out. -/
theorem mem_route {x : AlphaIndex} {f : Fact} {a : AlphaId} :
    a ∈ x.route f ↔ x.byKey.find? (constantKey f.predicate f.object) = some a ∨
      (x.byKey.find? f.predicate.text = some a ∧ x.excludes a f.object = false) := by
  simp [route, Option.mem_toList]

/-- A fact goes to memories that are there. -/
theorem exists_get?_of_mem_route {x : AlphaIndex} (h : x.Keyed) {f : Fact} {a : AlphaId} (ha : a ∈ x.route f) :
    ∃ m, x.get? a = some m := by
  rcases mem_route.1 ha with hk | ⟨hk, -⟩
  · obtain ⟨m, hm, -⟩ := (h _ a).1 hk
    exact ⟨m, hm⟩
  · obtain ⟨m, hm, -⟩ := (h _ a).1 hk
    exact ⟨m, hm⟩

end AlphaIndex

end TripleRules

import TripleRules.Network.Stage

/-!
# What the check of a rule lets pass

A rule passes exactly if it has a name and conditions, the subject of each condition is a variable, each inequality pairs a constant
with a variable that a condition mentions, and a condition mentions each selected variable.
-/

namespace TripleRules

/-- Two steps in a row succeed exactly if the second one does with what the first one gives. -/
theorem bind_eq_ok_iff {α β : Type} {a : Outcome α} {f : α → Outcome β} {b : β} :
    (a >>= f) = .ok b ↔ ∃ x, a = .ok x ∧ f x = .ok b := by
  cases a with
  | error e =>
    constructor
    · intro h
      cases h
    · rintro ⟨x, h, -⟩
      cases h
  | ok x =>
    constructor
    · exact fun h => ⟨x, rfl, h⟩
    · rintro ⟨x', hx, h⟩
      cases hx
      exact h

/-- A changed result is the change of a result. -/
theorem map_eq_ok_iff {α β : Type} {a : Outcome α} {f : α → β} {b : β} : a.map f = .ok b ↔ ∃ x, a = .ok x ∧ f x = b := by
  cases a with
  | error e =>
    constructor
    · intro h
      cases h
    · rintro ⟨x, h, -⟩
      cases h
  | ok x => simp [Except.map]

/-- Two steps in a row fail exactly if the first one does, or the second one does with what the first one gives. -/
theorem bind_eq_error_iff {α β : Type} {a : Outcome α} {f : α → Outcome β} {e : Failure} :
    (a >>= f) = .error e ↔ a = .error e ∨ ∃ x, a = .ok x ∧ f x = .error e := by
  cases a with
  | error e' => simp [Bind.bind, Except.bind]
  | ok x => simp [Bind.bind, Except.bind]

/-- What is so of a result, if there is one. -/
theorem toOption_any_iff {α : Type} {a : Outcome α} {p : α → Bool} :
    a.toOption.any p = true ↔ ∃ x, a = .ok x ∧ p x = true := by
  cases a <;> simp [Except.toOption]

/-- Two checks in a row pass exactly if both do. -/
theorem seq_eq_ok_iff {a b : Outcome Unit} : (a >>= fun _ => b) = .ok () ↔ a = .ok () ∧ b = .ok () := by
  rw [bind_eq_ok_iff]
  exact ⟨fun ⟨_, ha, hb⟩ => ⟨ha, hb⟩, fun ⟨ha, hb⟩ => ⟨(), ha, hb⟩⟩

/-- Checks of all elements pass exactly if each of them does. -/
theorem forM_eq_ok_iff {α : Type} {f : α → Outcome Unit} {xs : List α} : xs.forM f = .ok () ↔ ∀ x ∈ xs, f x = .ok () := by
  induction xs with
  | nil => exact ⟨fun _ x hx => absurd hx List.not_mem_nil, fun _ => rfl⟩
  | cons x xs ih =>
    have hcons : (x :: xs).forM f = (f x >>= fun _ => xs.forM f) := rfl
    rw [hcons, seq_eq_ok_iff, ih, List.forall_mem_cons]

/-- A check of several elements fails as the check of one of them does. -/
theorem exists_of_forM_eq_error {α : Type} {f : α → Outcome Unit} {xs : List α} {e : Failure} (h : xs.forM f = .error e) :
    ∃ x ∈ xs, f x = .error e := by
  induction xs with
  | nil => nomatch h
  | cons x xs ih =>
    rcases bind_eq_error_iff.1 h with hx | ⟨-, -, hxs⟩
    · exact ⟨x, List.mem_cons_self, hx⟩
    · obtain ⟨y, hy, he⟩ := ih hxs
      exact ⟨y, List.mem_cons_of_mem x hy, he⟩

namespace Rule

/-- The subjects pass exactly if all of them are variables. -/
theorem checkSubjects_eq_ok_iff {r : Rule} {i : Nat} {cs : List Condition} :
    r.checkSubjects i cs = .ok () ↔ ∀ c ∈ cs, c.subject.isVar = true := by
  induction cs generalizing i with
  | nil => exact ⟨fun _ c hc => absurd hc List.not_mem_nil, fun _ => rfl⟩
  | cons c cs ih =>
    rw [checkSubjects, List.forall_mem_cons]
    split
    · rename_i hv
      rw [ih, hv]
      exact ⟨fun h => ⟨rfl, h⟩, fun h => h.2⟩
    · rename_i hv
      constructor
      · intro h
        cases h
      · rintro ⟨hc, -⟩
        exact absurd hc hv

/-- An inequality passes exactly if it is between a variable that is mentioned and a constant. -/
theorem checkInequality_eq_ok_iff {r : Rule} {i : Inequality} :
    r.checkInequality i = .ok () ↔ ∃ name term, i.pair? = some (name, term) ∧ r.mentions name = true := by
  unfold checkInequality
  cases hp : i.pair? with
  | none => simp
  | some p =>
    obtain ⟨name, term⟩ := p
    cases hm : r.mentions name <;> simp [hm]

/-- A selected variable passes exactly if it is mentioned. -/
theorem checkSelected_eq_ok_iff {r : Rule} {name : String} : r.checkSelected name = .ok () ↔ r.mentions name = true := by
  unfold checkSelected
  cases r.mentions name <;> simp

/-- Which rules pass their check. -/
theorem check_eq_ok_iff {r : Rule} : r.check = .ok () ↔ r.name ≠ "" ∧ r.conditions ≠ [] ∧
    (∀ c ∈ r.conditions, c.subject.isVar = true) ∧
    (∀ i ∈ r.inequalities, ∃ name term, i.pair? = some (name, term) ∧ r.mentions name = true) ∧
    ∀ name ∈ r.select, r.mentions name = true := by
  unfold check
  by_cases hname : r.name = ""
  · rw [if_pos hname]
    constructor
    · intro h
      cases h
    · rintro ⟨hne, -⟩
      exact absurd hname hne
  · by_cases hnil : r.conditions = []
    · rw [if_neg hname, if_pos hnil]
      constructor
      · intro h
        cases h
      · rintro ⟨-, hne, -⟩
        exact absurd hnil hne
    · rw [if_neg hname, if_neg hnil]
      have hrest : (r.checkSubjects 0 r.conditions >>= fun _ => r.inequalities.forM r.checkInequality >>= fun _ =>
          r.select.forM r.checkSelected) = .ok () ↔ _ :=
        seq_eq_ok_iff.trans (and_congr_right' seq_eq_ok_iff)
      simp only [checkSubjects_eq_ok_iff, forM_eq_ok_iff, checkInequality_eq_ok_iff, checkSelected_eq_ok_iff] at hrest
      simp only [ne_eq, hname, hnil, not_false_eq_true, true_and]
      exact hrest

/-- A rule that passes its check mentions the variables that it selects. -/
theorem mentions_of_check {r : Rule} (hc : r.check = .ok ()) : ∀ name ∈ r.select, ∃ c ∈ r.conditions, c.mentions name = true := by
  obtain ⟨-, -, -, -, hselect⟩ := check_eq_ok_iff.1 hc
  exact fun name hmem => List.any_eq_true.1 (hselect name hmem)

/-! ## What a refusal is about -/

/-- A refused subject is a fault of the rule. -/
theorem checkSubjects_error {r : Rule} {i : Nat} {cs : List Condition} {e : Failure} (h : r.checkSubjects i cs = .error e) :
    ∃ fault name k, e = .rule fault name k := by
  induction cs generalizing i with
  | nil => nomatch h
  | cons c cs ih =>
    rw [checkSubjects] at h
    split at h
    · exact ih h
    · exact ⟨_, _, _, (Except.error.inj h).symm⟩

/-- A refused inequality is a fault of the rule. -/
theorem checkInequality_error {r : Rule} {i : Inequality} {e : Failure} (h : r.checkInequality i = .error e) :
    ∃ fault name k, e = .rule fault name k := by
  unfold checkInequality at h
  split at h
  · exact ⟨_, _, _, (Except.error.inj h).symm⟩
  · split at h
    · nomatch h
    · exact ⟨_, _, _, (Except.error.inj h).symm⟩

/-- A refused selection is a fault of the rule. -/
theorem checkSelected_error {r : Rule} {name : String} {e : Failure} (h : r.checkSelected name = .error e) :
    ∃ fault rule k, e = .rule fault rule k := by
  unfold checkSelected at h
  split at h
  · nomatch h
  · exact ⟨_, _, _, (Except.error.inj h).symm⟩

/-- The check of a rule refuses it for a fault of the rule. -/
theorem check_error {r : Rule} {e : Failure} (h : r.check = .error e) : ∃ fault name k, e = .rule fault name k := by
  unfold check at h
  by_cases hname : r.name = ""
  · rw [if_pos hname] at h
    exact ⟨_, _, _, (Except.error.inj h).symm⟩
  · by_cases hnil : r.conditions = []
    · rw [if_neg hname, if_pos hnil] at h
      exact ⟨_, _, _, (Except.error.inj h).symm⟩
    · rw [if_neg hname, if_neg hnil] at h
      rcases bind_eq_error_iff.1 h with h | ⟨-, -, h⟩
      · exact checkSubjects_error h
      · rcases bind_eq_error_iff.1 h with h | ⟨-, -, h⟩
        · obtain ⟨i, -, hi⟩ := exists_of_forM_eq_error h
          exact checkInequality_error hi
        · obtain ⟨name, -, hname⟩ := exists_of_forM_eq_error h
          exact checkSelected_error hname

end Rule

end TripleRules

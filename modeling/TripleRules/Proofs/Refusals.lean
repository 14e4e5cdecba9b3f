import TripleRules.Proofs.Histories

/-!
# Refusals

An engine checks a rule, and the size of a batch, before it writes anything. What passes the checks is done to the end, so it does
not matter what a failure in the middle of the writing would leave of the network: there is none. A refusal leaves the engine as it
was, and an engine with limits ends with the network that the accepted rules and batches alone lead to.
-/

namespace TripleRules

/-! ## The rules that an engine accepts -/

theorem Slot.isVar_iff {x : Slot} : x.isVar = true ↔ ∃ v, x = .var v := by
  cases x <;> simp [Slot.isVar]

/-- An inequality pairs one variable with one constant, on whichever side each of them is. -/
theorem Inequality.pair?_eq_some_iff {i : Inequality} {v : String} {t : Term} :
    i.pair? = some (v, t) ↔ i = ⟨.var v, .const t⟩ ∨ i = ⟨.const t, .var v⟩ := by
  obtain ⟨left, right⟩ := i
  cases left <;> cases right <;> simp [Inequality.pair?, and_comm]

namespace Rule

/-- Whether a variable occurs in some condition of a rule. -/
def Occurs (r : Rule) (v : String) : Prop := ∃ c ∈ r.conditions, c.subject = .var v ∨ c.object = .var v

/-- A rule mentions a variable exactly if it occurs in a slot of a condition. -/
theorem mentions_iff {r : Rule} {v : String} : r.mentions v = true ↔ r.Occurs v := by
  simp only [mentions, List.any_eq_true, Condition.mentions, Bool.or_eq_true, beq_iff_eq, Condition.subjectVar?,
    Condition.objectVar?, Slot.varName?_eq_some, Occurs]

/-- The rules that an engine with some settings accepts. -/
structure Admissible (s : Settings) (r : Rule) : Prop where
  named : r.name ≠ ""
  name_le : r.name.utf8ByteSize ≤ s.maxNameLength
  one_le : 1 ≤ r.conditions.length
  conditions_le : r.conditions.length ≤ s.maxConditions
  subjects : ∀ c ∈ r.conditions, ∃ v, c.subject = .var v
  inequalities : ∀ i ∈ r.inequalities, ∃ v t, (i = ⟨.var v, .const t⟩ ∨ i = ⟨.const t, .var v⟩) ∧ r.Occurs v
  select : ∀ v ∈ r.select, r.Occurs v

end Rule

/-- Which rules keep to the limits. -/
theorem Engine.checkLimits_eq_ok_iff {s : Settings} {r : Rule} :
    checkLimits s r = .ok () ↔ r.name.utf8ByteSize ≤ s.maxNameLength ∧ r.conditions.length ≤ s.maxConditions := by
  unfold checkLimits
  split
  · rename_i hlong
    simp [Nat.not_le.2 hlong]
  · rename_i hlong
    split
    · rename_i hmany
      simp [Nat.not_le.2 hmany]
    · rename_i hmany
      simp [Nat.le_of_not_lt hlong, Nat.le_of_not_lt hmany]

/-- The rules that an engine accepts are those that keep to the limits and pass their check. -/
theorem Rule.admissible_iff {s : Settings} {r : Rule} :
    r.Admissible s ↔ Engine.checkLimits s r = .ok () ∧ r.check = .ok () := by
  rw [Engine.checkLimits_eq_ok_iff, check_eq_ok_iff]
  simp only [mentions_iff, Slot.isVar_iff, Inequality.pair?_eq_some_iff]
  constructor
  · intro h
    exact ⟨⟨h.name_le, h.conditions_le⟩, h.named, List.ne_nil_of_length_pos h.one_le, h.subjects, h.inequalities, h.select⟩
  · rintro ⟨⟨hname, hconds⟩, hne, hnil, hsubjects, hinequalities, hselect⟩
    exact ⟨hne, hname, List.length_pos_iff.2 hnil, hconds, hsubjects, hinequalities, hselect⟩

instance (s : Settings) (r : Rule) : Decidable (r.Admissible s) := decidable_of_iff' _ Rule.admissible_iff

/-! ## An engine that is written in place -/

namespace Engine

/-- What a failure in the middle of the writing would leave of a network: after a rule was checked, and while a batch is inserted.
Nothing is known about it. -/
structure Wreck where
  rule : Network → Rule → Network
  batch : Network → List Fact → Network

/-- What an engine can be asked to do. -/
inductive Request where
  | compile (r : Rule)
  | compileAll (rs : List Rule)
  | evaluate (fs : List Fact)
  deriving DecidableEq, Repr

namespace InPlace

variable (w : Wreck)

/-- Compiles a rule. The limits and the rule are checked before anything is written. -/
def compile (e : Engine) (r : Rule) : Engine × Outcome NodeId :=
  match checkLimits e.settings r >>= fun _ => r.check with
  | .error x => (e, .error x)
  | .ok _ =>
    match e.network.addRule r with
    | .error x => ({ e with network := w.rule e.network r }, .error x)
    | .ok (id, network) => ({ e with network }, .ok id)

/-- Compiles rules up to the first that is refused. -/
def compileAll (e : Engine) : List Rule → Engine × Outcome Unit
  | [] => (e, .ok ())
  | r :: rs =>
    match compile w e r with
    | (e, .ok _) => compileAll e rs
    | (e, .error x) => (e, .error x)

/-- Evaluates a batch. Its size is checked before the one before is forgotten. -/
def evaluate (e : Engine) (fs : List Fact) : Engine × Outcome Matches :=
  if fs.length > e.settings.maxFacts then (e, .error (.limit .largeBatch e.settings.maxFacts fs.length))
  else
    match e.network.reset.addFacts fs with
    | .error x => ({ e with network := w.batch e.network fs }, .error x)
    | .ok network => ({ e with network }, network.allMatches)

/-- The engine that a request leaves. -/
def serve (e : Engine) : Request → Engine
  | .compile r => (compile w e r).1
  | .compileAll rs => (compileAll w e rs).1
  | .evaluate fs => (evaluate w e fs).1

/-- The engine that requests leave of one without rules. -/
def run (s : Settings) (qs : List Request) : Engine := qs.foldl (serve w) ⟨s, .empty⟩

end InPlace

/-! ## What is accepted -/

/-- What a network without limits is fed: a rule, or a batch that takes the place of the one before. -/
inductive Feed where
  | rule (r : Rule)
  | batch (fs : List Fact)
  deriving DecidableEq, Repr

/-- The network after one feed. -/
def feed (n : Network) : Feed → Outcome Network
  | .rule r => (n.addRule r).map (·.2)
  | .batch fs => n.reset.addFacts fs

/-- What an engine with some settings accepts of a request. -/
def accepted (s : Settings) : Request → List Feed
  | .compile r => if r.Admissible s then [.rule r] else []
  | .compileAll rs => (rs.takeWhile fun r => r.Admissible s).map .rule
  | .evaluate fs => if fs.length ≤ s.maxFacts then [.batch fs] else []

namespace Stands

variable {s : Settings} {n : Network} {rs : List Rule} (h : Stands ⟨s, n⟩ rs) (w : Wreck)
include h

/-- An admissible rule is compiled. -/
theorem compile_admissible {r : Rule} (hr : r.Admissible s) : ∃ id n', n.addRule r = .ok (id, n') ∧
    Engine.compile ⟨s, n⟩ r = .ok (id, ⟨s, n'⟩) ∧ InPlace.compile w ⟨s, n⟩ r = (⟨s, n'⟩, .ok id) ∧ Stands ⟨s, n'⟩ (rs ++ [r]) := by
  obtain ⟨hl, hc⟩ := Rule.admissible_iff.1 hr
  obtain ⟨id, n', ha, -⟩ := Network.addRule_ok h.wired h.registered hc
  have he : Engine.compile ⟨s, n⟩ r = .ok (id, ⟨s, n'⟩) := compile_eq_ok.2 ⟨hl, n', ha, rfl⟩
  refine ⟨id, n', ha, he, ?_, stands_compile h he⟩
  have ha' : (⟨s, n⟩ : Engine).network.addRule r = .ok (id, n') := ha
  have hchecks : (checkLimits s r >>= fun _ => r.check) = .ok () := seq_eq_ok_iff.2 ⟨hl, hc⟩
  simp only [InPlace.compile, hchecks, ha']

omit h in
/-- Any other rule is refused by a check, and the engine is left as it was. -/
theorem compile_inadmissible {r : Rule} (hr : ¬ r.Admissible s) :
    ∃ x, Engine.compile ⟨s, n⟩ r = .error x ∧ InPlace.compile w ⟨s, n⟩ r = (⟨s, n⟩, .error x) := by
  have hnot : ¬ (checkLimits s r >>= fun _ => r.check) = .ok () := fun hok => hr (Rule.admissible_iff.2 (seq_eq_ok_iff.1 hok))
  cases hchecks : checkLimits s r >>= fun _ => r.check with
  | ok u => exact absurd hchecks hnot
  | error x =>
    refine ⟨x, ?_, by simp only [InPlace.compile, hchecks]⟩
    rcases bind_eq_error_iff.1 hchecks with hl | ⟨u, hl, hc⟩
    · exact bind_eq_error_iff.2 (Or.inl hl)
    · have ha : n.addRule r = .error x := bind_eq_error_iff.2 (Or.inl hc)
      refine bind_eq_error_iff.2 (Or.inr ⟨u, hl, ?_⟩)
      exact bind_eq_error_iff.2 (Or.inl ha)

/-- Rules are compiled up to the first that is not admissible, one after the other. -/
theorem compileAll_exact (qs : List Rule) : ∃ n' ps o, Stands ⟨s, n'⟩ ps ∧
    ((qs.takeWhile fun r => r.Admissible s).map Feed.rule).foldlM feed n = .ok n' ∧
    Engine.compileAll ⟨s, n⟩ qs = (⟨s, n'⟩, o) ∧ InPlace.compileAll w ⟨s, n⟩ qs = (⟨s, n'⟩, o) ∧
    (qs.takeWhile fun r => r.Admissible s).foldl (fun e r => (InPlace.compile w e r).1) ⟨s, n⟩ = ⟨s, n'⟩ ∧
    (o = .ok () ↔ ∀ r ∈ qs, r.Admissible s) := by
  induction qs generalizing n rs with
  | nil => exact ⟨n, rs, .ok (), h, rfl, rfl, rfl, rfl, by simp⟩
  | cons r qs ih =>
    by_cases hr : r.Admissible s
    · obtain ⟨id, n₁, ha, he, hi, h₁⟩ := h.compile_admissible w hr
      obtain ⟨n', ps, o, h', hfeed, hall, hplace, hfold, ho⟩ := ih h₁
      have htake : (r :: qs).takeWhile (fun r => r.Admissible s) = r :: qs.takeWhile (fun r => r.Admissible s) :=
        List.takeWhile_cons_of_pos (by simpa using hr)
      refine ⟨n', ps, o, h', ?_, by rw [Engine.compileAll, he]; exact hall, by rw [InPlace.compileAll, hi]; exact hplace, ?_, ?_⟩
      · rw [htake, List.map_cons, List.foldlM_cons, feed, ha]
        exact hfeed
      · rw [htake, List.foldl_cons, hi]
        exact hfold
      · rw [ho, List.forall_mem_cons]
        exact (and_iff_right hr).symm
    · obtain ⟨x, he, hi⟩ := compile_inadmissible (n := n) w hr
      have htake : (r :: qs).takeWhile (fun r => r.Admissible s) = [] :=
        List.takeWhile_cons_of_neg (by simpa using hr)
      refine ⟨n, rs, .error x, h, by rw [htake]; rfl, by rw [Engine.compileAll, he], by rw [InPlace.compileAll, hi],
        by rw [htake]; rfl, ?_⟩
      simp [hr]

/-- A batch within the limit is evaluated. -/
theorem evaluate_exact {fs : List Fact} (hlen : fs.length ≤ s.maxFacts) : ∃ m n', n.reset.addFacts fs = .ok n' ∧
    Engine.evaluate ⟨s, n⟩ fs = .ok (m, ⟨s, n'⟩) ∧ InPlace.evaluate w ⟨s, n⟩ fs = (⟨s, n'⟩, .ok m) ∧ Stands ⟨s, n'⟩ rs := by
  obtain ⟨m, n', he, -, -, -, hm⟩ := h.evaluate_ok hlen
  obtain ⟨-, ha, -⟩ := evaluate_eq_ok he
  have ha' : (⟨s, n⟩ : Engine).network.reset.addFacts fs = .ok n' := ha
  refine ⟨m, n', ha, he, ?_, stands_evaluate h he⟩
  rw [InPlace.evaluate, if_neg (Nat.not_lt.2 hlen)]
  simp only [ha', hm]

omit h in
/-- Any other batch is refused, and the engine is left as it was. -/
theorem evaluate_refused {fs : List Fact} (hlen : s.maxFacts < fs.length) :
    ∃ x, Engine.evaluate ⟨s, n⟩ fs = .error x ∧ InPlace.evaluate w ⟨s, n⟩ fs = (⟨s, n⟩, .error x) :=
  ⟨_, if_pos hlen, if_pos hlen⟩

/-- A request leaves the network that follows from what is accepted of it. -/
theorem serve_exact (q : Request) : ∃ n' ps, InPlace.serve w ⟨s, n⟩ q = ⟨s, n'⟩ ∧ Stands ⟨s, n'⟩ ps ∧
    (accepted s q).foldlM feed n = .ok n' := by
  cases q with
  | compile r =>
    by_cases hr : r.Admissible s
    · obtain ⟨id, n', ha, -, hi, h'⟩ := h.compile_admissible w hr
      refine ⟨n', _, by rw [InPlace.serve, hi], h', ?_⟩
      have hacc : accepted s (.compile r) = [.rule r] := if_pos hr
      rw [hacc, List.foldlM_cons, feed, ha]
      rfl
    · obtain ⟨x, -, hi⟩ := compile_inadmissible (n := n) w hr
      have hacc : accepted s (.compile r) = [] := if_neg hr
      exact ⟨n, rs, by rw [InPlace.serve, hi], h, by rw [hacc]; rfl⟩
  | compileAll qs =>
    obtain ⟨n', ps, o, h', hfeed, -, hi, -⟩ := h.compileAll_exact w qs
    exact ⟨n', ps, by rw [InPlace.serve, hi], h', hfeed⟩
  | evaluate fs =>
    by_cases hlen : fs.length ≤ s.maxFacts
    · obtain ⟨m, n', ha, -, hi, h'⟩ := h.evaluate_exact w hlen
      refine ⟨n', rs, by rw [InPlace.serve, hi], h', ?_⟩
      have hacc : accepted s (.evaluate fs) = [.batch fs] := if_pos hlen
      rw [hacc, List.foldlM_cons, feed, ha]
      rfl
    · obtain ⟨x, -, hi⟩ := evaluate_refused (n := n) w (Nat.lt_of_not_le hlen)
      have hacc : accepted s (.evaluate fs) = [] := if_neg hlen
      exact ⟨n, rs, by rw [InPlace.serve, hi], h, by rw [hacc]; rfl⟩

end Stands

/-- Requests leave the network that follows from what is accepted of them. -/
theorem run_exact (w : Wreck) (s : Settings) (qs : List Request) : ∃ n rs, InPlace.run w s qs = ⟨s, n⟩ ∧ Stands ⟨s, n⟩ rs ∧
    (qs.flatMap (accepted s)).foldlM feed .empty = .ok n := by
  suffices hrun : ∀ {n : Network} {rs : List Rule}, Stands ⟨s, n⟩ rs → ∃ n' ps, qs.foldl (InPlace.serve w) ⟨s, n⟩ = ⟨s, n'⟩ ∧
      Stands ⟨s, n'⟩ ps ∧ (qs.flatMap (accepted s)).foldlM feed n = .ok n' from hrun (stands_empty s)
  induction qs with
  | nil => exact fun {n rs} h => ⟨n, rs, rfl, h, rfl⟩
  | cons q qs ih =>
    intro n rs h
    obtain ⟨n₁, ps₁, he₁, h₁, hfeed₁⟩ := h.serve_exact w q
    obtain ⟨n₂, ps₂, he₂, h₂, hfeed₂⟩ := ih h₁
    refine ⟨n₂, ps₂, by rw [List.foldl_cons, he₁, he₂], h₂, ?_⟩
    rw [List.flatMap_cons, List.foldlM_append, hfeed₁]
    exact hfeed₂

/-- After any requests an engine with any settings compiles exactly the admissible rules, and evaluates exactly the batches within
the limit. Whatever a failure in the middle of the writing would leave, a refusal leaves the engine as it was; of several rules
those before the first that is refused are compiled. The network is the one that the accepted rules and batches alone lead to. -/
theorem refusals_exact (w : Wreck) (s : Settings) (qs : List Request) : ∃ n, InPlace.run w s qs = ⟨s, n⟩ ∧
    (∀ r : Rule,
      (r.Admissible s ∧ ∃ id e, Engine.compile ⟨s, n⟩ r = .ok (id, e) ∧ InPlace.compile w ⟨s, n⟩ r = (e, .ok id)) ∨
      (¬ r.Admissible s ∧ ∃ x, Engine.compile ⟨s, n⟩ r = .error x ∧ InPlace.compile w ⟨s, n⟩ r = (⟨s, n⟩, .error x))) ∧
    (∀ rs : List Rule, InPlace.compileAll w ⟨s, n⟩ rs = Engine.compileAll ⟨s, n⟩ rs ∧
      (InPlace.compileAll w ⟨s, n⟩ rs).1 =
        (rs.takeWhile fun r => r.Admissible s).foldl (fun e r => (InPlace.compile w e r).1) ⟨s, n⟩ ∧
      ((InPlace.compileAll w ⟨s, n⟩ rs).2 = .ok () ↔ ∀ r ∈ rs, r.Admissible s)) ∧
    (∀ fs : List Fact,
      (fs.length ≤ s.maxFacts ∧ ∃ m e, Engine.evaluate ⟨s, n⟩ fs = .ok (m, e) ∧ InPlace.evaluate w ⟨s, n⟩ fs = (e, .ok m)) ∨
      (s.maxFacts < fs.length ∧ ∃ x, Engine.evaluate ⟨s, n⟩ fs = .error x ∧
        InPlace.evaluate w ⟨s, n⟩ fs = (⟨s, n⟩, .error x))) ∧
    (qs.flatMap (accepted s)).foldlM feed .empty = .ok n := by
  obtain ⟨n, rs, he, h, hfeed⟩ := run_exact w s qs
  refine ⟨n, he, fun r => ?_, fun ps => ?_, fun fs => ?_, hfeed⟩
  · by_cases hr : r.Admissible s
    · obtain ⟨id, n', -, hc, hi, -⟩ := h.compile_admissible w hr
      exact Or.inl ⟨hr, id, _, hc, hi⟩
    · exact Or.inr ⟨hr, Stands.compile_inadmissible w hr⟩
  · obtain ⟨n', -, o, -, -, hall, hplace, hfold, ho⟩ := h.compileAll_exact w ps
    rw [hplace, hall, hfold]
    exact ⟨rfl, rfl, ho⟩
  · rcases Nat.lt_or_ge s.maxFacts fs.length with hlen | hlen
    · exact Or.inr ⟨hlen, Stands.evaluate_refused w hlen⟩
    · obtain ⟨m, n', -, hev, hi, -⟩ := h.evaluate_exact w hlen
      exact Or.inl ⟨hlen, m, _, hev, hi⟩

end Engine

end TripleRules

import TripleRules.Proofs.RuleNames
import TripleRules.Proofs.Histories

/-!
# Nothing is missing

An activation reads nodes, alpha memories, tokens and facts by their handles. Where a token or a fact is missing the network goes
on: a pair with a missing part passes no test, and a test whose earlier fact is missing holds. The strict insertion of a fact stops
instead, wherever a handle leads nowhere. It never does: in every network that calls lead to, the strict insertion is the
insertion.
-/

namespace TripleRules.Network

/-! ## The strict insertion -/

namespace Strict

/-- A handle leads nowhere. -/
def astray (id : Nat) : Failure := .network (.other "a handle leads nowhere") id

/-- The elements that pass a check, provided that the check can be made of each. -/
def select {α : Type} (p : α → Outcome Bool) : List α → Outcome (List α)
  | [] => .ok []
  | x :: xs => do
    let keep ← p x
    let rest ← select p xs
    return if keep then x :: rest else rest

/-- Whether a test holds. The earlier token that it looks back to, the fact of that token and the entry of that fact have to be
there. -/
def holds (n : Network) (token : TokenId) (new : Fact) (t : JoinTest) : Outcome Bool :=
  match n.tokens.ancestor? token (t.levelsUp - 1) with
  | none => .error (astray token)
  | some a =>
    match n.tokens.fact? a with
    | none => .error (astray a)
    | some f =>
      match n.facts[f]? with
      | none => .error (astray f)
      | some old => .ok (t.newField.read new == t.oldField.read old)

/-- Where the token is missing the test would hold. -/
example (f : Fact) : empty.holds 5 f ⟨"?x", .subject, 1, .subject⟩ = true ∧
    holds empty 5 f ⟨"?x", .subject, 1, .subject⟩ = .error (astray 5) := ⟨rfl, rfl⟩

/-- Whether a token and a fact pass the tests of a join. Both have to be there, and below a memory the token is not the root. Each
test is made, also after one that does not hold. -/
def passes (n : Network) (j : JoinNode) (token : TokenId) (fact : FactId) : Outcome Bool :=
  match n.facts[fact]? with
  | none => .error (astray fact)
  | some new =>
    if j.parent = topNode then if token = rootToken then .ok true else .error (astray token)
    else
      match n.tokens.link? token with
      | none => .error (astray token)
      | some _ => (j.tests.mapM (holds n token new)).map fun results => results.all id

/-- Stores a pair in a node below a join. The chain of the token has to lead back to the root, and the fact has to be there. -/
def deliver (condition : Condition) (parent : TokenId) (fact : FactId) (n : Network) (child : NodeId) : Outcome Network :=
  if (n.tokens.chain parent).getLast? = some rootToken then
    if fact < n.facts.size then Network.deliver condition parent fact n child else .error (astray fact)
  else .error (astray parent)

/-- Delivers a pair to all nodes below a join. -/
def emit (n : Network) (join : NodeId) (parent : TokenId) (fact : FactId) : Outcome Network := do
  let j ← n.joinNode join
  j.children.foldlM (deliver j.condition parent fact) n

/-- Pairs a new fact with the tokens that reach a join. -/
def activateRight (n : Network) (join : NodeId) (fact : FactId) : Outcome Network := do
  let j ← n.joinNode join
  let tokens ← n.leftTokens j.parent
  (← select (fun t => passes n j t fact) tokens).foldlM (fun n t => emit n join t fact) n

/-- Pairs a new token with the facts of a join. -/
def extend (token : TokenId) (n : Network) (join : NodeId) : Outcome Network := do
  let j ← n.joinNode join
  match n.alpha.get? j.alpha with
  | some m => (← select (passes n j token) m.newestFirst).foldlM (fun n f => emit n join token f) n
  | none => .error (.network .missingAlpha join)

/-- Pairs a new token with the facts of all joins below its memory, which has to be one. -/
def activateLeft (n : Network) (memory : NodeId) (token : TokenId) : Outcome Network :=
  match n.nodes[memory]? with
  | some (.memory m) => m.children.foldlM (extend token) n
  | _ => .error (astray memory)

/-- Does one activation. -/
def activate (n : Network) : Activation → Outcome Network
  | .right join fact => activateRight n join fact
  | .left memory token => activateLeft n memory token

/-- Does the waiting activations, at most the given number. -/
def runUpTo : Nat → Network → Outcome Network
  | 0, n => .ok n
  | k + 1, n =>
    match n.pending with
    | [] => .ok n
    | a :: rest => do
      let n ← activate (n.withPending rest) a
      runUpTo k n

/-- Inserts a fact and does all that follows from it. -/
def addFact (n : Network) (f : Fact) : Outcome (Bool × Network) :=
  if n.seen.contains f then .ok (false, n)
  else do
    let n' ← n.arrive f
    .ok (true, ← runUpTo n'.workBound n')

/-- A selection whose tests all give an answer keeps what passes them. -/
theorem select_eq {α : Type} {p : α → Outcome Bool} {q : α → Bool} {xs : List α} (h : ∀ x ∈ xs, p x = .ok (q x)) :
    select p xs = .ok (xs.filter q) := by
  induction xs with
  | nil => rfl
  | cons x xs ih =>
    obtain ⟨hx, hxs⟩ := List.forall_mem_cons.1 h
    rw [select, hx, ih hxs, List.filter_cons]
    rfl

/-- Steps that are alike in sound networks are alike one after the other. -/
theorem foldlM_eq {α : Type} {step step' : Network → α → Outcome Network} {n : Network} (h : n.Sound) (xs : List α)
    (hstep : ∀ x ∈ xs, ∀ n₁, n₁.Sound → n.Grows n₁ →
      step' n₁ x = step n₁ x ∧ ∃ n₂, step n₁ x = .ok n₂ ∧ n₂.Sound ∧ n₁.Grows n₂) :
    xs.foldlM step' n = xs.foldlM step n :=
  foldlM_lift id (fun _ => rfl) (fun _ _ => rfl) h xs hstep

end Strict

/-! ## What an activation reads is there -/

namespace Sound

variable {n : Network} (h : n.Sound)
include h

/-- A test of a join finds the earlier fact that it reads. -/
theorem holds_strict {join : NodeId} {j : JoinNode} (hj : n.nodes[join]? = some (.join j)) {t : TokenId}
    (ht : t ∈ n.held j.parent) (new : Fact) {test : JoinTest} (htest : test ∈ j.tests) :
    Strict.holds n t new test = .ok (n.holds t new test) := by
  obtain ⟨a, f, old, ha, hfact, hold⟩ := h.exists_earlier hj ht htest
  simp only [Strict.holds, holds, ha, hfact, hold, Option.bind_eq_bind, Option.bind_some]

/-- Both parts of a pair that reaches a join are there, and so is all that its tests read. -/
theorem passes_strict {join : NodeId} {j : JoinNode} (hj : n.nodes[join]? = some (.join j)) {t : TokenId}
    (ht : t ∈ n.held j.parent) {f : FactId} (hf : f ∈ n.arrived j.alpha) :
    Strict.passes n j t f = .ok (n.passes j.tests t f) := by
  obtain ⟨new, hnew⟩ := h.exists_fact hf
  have hroot := h.eq_root_iff ht
  have hle := h.le_of_held ht
  unfold Strict.passes passes
  rw [hnew]
  by_cases h₀ : t = rootToken
  · simp only [if_pos h₀, if_pos (hroot.1 h₀)]
  · obtain ⟨l, hl⟩ := TokenStore.exists_link? h₀ hle
    have hin : n.tokens.contains t = true := TokenStore.contains_iff.2 hle
    have htop : ¬ j.parent = topNode := fun htop => h₀ (hroot.2 htop)
    have hmap : j.tests.mapM (Strict.holds n t new) = .ok (j.tests.map (n.holds t new)) :=
      List.mapM_eq_pure_map fun test htest => h.holds_strict hj ht new htest
    simp only [if_neg h₀, if_neg htop, if_pos hin, hl, hmap, Except.map, List.all_map]
    rfl

/-- A pair that meets is delivered with a fact that is there and a chain that leads back to the root. -/
theorem deliver_strict {j : JoinNode} {t : TokenId} {f : FactId} (hm : n.Meets j t f) (c : Condition) (child : NodeId) :
    Strict.deliver c t f n child = deliver c t f n child := by
  rw [Strict.deliver, if_pos (TokenStore.getLast?_chain h.grounded (h.le_of_held hm.token)), if_pos (h.arrived_lt hm.fact)]

/-- What a pair that meets at a join sets off meets none of the errors. -/
theorem emit_strict {join : NodeId} {j : JoinNode} {t : TokenId} {f : FactId} (hj : n.nodes[join]? = some (.join j))
    (hm : n.Meets j t f) : Strict.emit n join t f = n.emit join t f := by
  rw [Strict.emit, emit, joinNode_eq hj]
  refine Strict.foldlM_eq h j.children fun child hc n₁ h₁ hg₁ => ?_
  have hm₁ := hg₁.meets h.toPaired h₁.toPaired hm
  obtain ⟨n₂, he, h₂, hg₂, -⟩ := deliver_ok h₁ ((join_iff_of_bare hg₁.bare _ _).2 hj) hc hm₁
  exact ⟨h₁.deliver_strict hm₁ j.condition child, n₂, he, h₂, hg₂⟩

/-- The work for a fact at a join that reads its memory meets none of the errors. -/
theorem activateRight_strict {join : NodeId} {j : JoinNode} {f : FactId} (hj : n.nodes[join]? = some (.join j))
    (hf : f ∈ n.arrived j.alpha) : Strict.activateRight n join f = n.activateRight join f := by
  have hselect : Strict.select (fun t => Strict.passes n j t f) (n.held j.parent) =
      .ok ((n.held j.parent).filter fun t => n.passes j.tests t f) :=
    Strict.select_eq fun t ht => h.passes_strict hj ht hf
  rw [Strict.activateRight, activateRight, joinNode_eq hj]
  simp only [Bind.bind, Except.bind, leftTokens_eq h.toTree hj, hselect]
  refine Strict.foldlM_eq h _ fun t ht n₁ h₁ hg₁ => ?_
  obtain ⟨hheld, hp⟩ := List.mem_filter.1 ht
  have hj₁ := (join_iff_of_bare hg₁.bare join j).2 hj
  have hm₁ := hg₁.meets h.toPaired h₁.toPaired ⟨hheld, hf, hp⟩
  obtain ⟨n₂, he, h₂, hg₂, -⟩ := emit_ok h₁ hj₁ hm₁
  exact ⟨h₁.emit_strict hj₁ hm₁, n₂, he, h₂, hg₂⟩

/-- The work for a token at a join below its node meets none of the errors. -/
theorem extend_strict {join : NodeId} {j : JoinNode} {t : TokenId} (hj : n.nodes[join]? = some (.join j))
    (ht : t ∈ n.held j.parent) : Strict.extend t n join = extend t n join := by
  obtain ⟨m, hm, -⟩ := (h.keyed _ _).1 (h.join_alpha hj)
  have hfacts : ∀ {f : FactId}, f ∈ m.newestFirst → f ∈ n.arrived j.alpha := by
    intro f hf
    rw [AlphaMemory.newestFirst, List.mem_reverse, ← arrived_eq hm] at hf
    exact hf
  have hselect : Strict.select (Strict.passes n j t) m.newestFirst = .ok (m.newestFirst.filter fun f => n.passes j.tests t f) :=
    Strict.select_eq fun f hf => h.passes_strict hj ht (hfacts hf)
  rw [Strict.extend, extend, joinNode_eq hj]
  simp only [Bind.bind, Except.bind, hm, hselect]
  refine Strict.foldlM_eq h _ fun f hf n₁ h₁ hg₁ => ?_
  obtain ⟨harr, hp⟩ := List.mem_filter.1 hf
  have hj₁ := (join_iff_of_bare hg₁.bare join j).2 hj
  have hm₁ := hg₁.meets h.toPaired h₁.toPaired ⟨ht, hfacts harr, hp⟩
  obtain ⟨n₂, he, h₂, hg₂, -⟩ := emit_ok h₁ hj₁ hm₁
  exact ⟨h₁.emit_strict hj₁ hm₁, n₂, he, h₂, hg₂⟩

/-- The work for a token of a memory meets none of the errors. -/
theorem activateLeft_strict {memory : NodeId} {m : MemoryNode} {t : TokenId} (hm : n.nodes[memory]? = some (.memory m))
    (ht : t ∈ n.held memory) : Strict.activateLeft n memory t = n.activateLeft memory t := by
  have hchildren : n.childrenOf memory = .ok m.children := by
    rw [childrenOf, node, hm]
    rfl
  rw [Strict.activateLeft, hm, activateLeft, hchildren]
  refine Strict.foldlM_eq h m.children fun join hc n₁ h₁ hg₁ => ?_
  obtain ⟨j, hj, rfl⟩ := h.join_of_child hm hc
  have hj₁ := (join_iff_of_bare hg₁.bare join j).2 hj
  have ht₁ := hg₁.held _ _ ht
  obtain ⟨n₂, he, h₂, hg₂, -⟩ := extend_ok h₁ hj₁ ht₁
  exact ⟨h₁.extend_strict hj₁ ht₁, n₂, he, h₂, hg₂⟩

/-- The work for an activation that waits meets none of the errors. -/
theorem activate_strict {a : Activation} (ha : n.Waits a) : Strict.activate n a = n.activate a := by
  cases a with
  | right join f =>
    obtain ⟨j, hj, hf⟩ := ha
    exact h.activateRight_strict hj hf
  | left memory t =>
    obtain ⟨⟨m, hm⟩, ht⟩ := ha
    exact h.activateLeft_strict hm ht

omit h in
/-- Running strictly is running, for any number of steps. -/
theorem runUpTo_strict (h : n.Sound) (k : Nat) : Strict.runUpTo k n = runUpTo k n := by
  induction k generalizing n with
  | zero => rfl
  | succ k ih =>
    cases hp : n.pending with
    | nil => rw [Strict.runUpTo, runUpTo, hp]
    | cons a rest =>
      have hw : (n.withPending rest).Waits a := h.waits a (by rw [hp]; exact List.mem_cons_self)
      have h₀ : (n.withPending rest).Sound := sound_withPending h fun b hb => by
        rw [hp]
        exact List.mem_cons_of_mem a hb
      obtain ⟨n₁, he, h₁, -, -⟩ := activate_top h hp
      rw [Strict.runUpTo, runUpTo, hp]
      simp only [Bind.bind, Except.bind]
      rw [h₀.activate_strict hw, show ({ n with pending := rest } : Network).activate a = .ok n₁ from he, he]
      exact ih h₁

/-- Inserting a fact strictly is inserting it. -/
theorem addFact_strict (f : Fact) : Strict.addFact n f = n.addFact f := by
  by_cases hf : n.seen.contains f = true
  · rw [Strict.addFact, if_pos hf, addFact, if_pos hf]
  · obtain ⟨n₁, he₁, h₁, -⟩ := arrive_ok h (mt h.contains_iff.2 hf)
    rw [Strict.addFact, if_neg hf, addFact_eq hf, he₁]
    simp only [Bind.bind, Except.bind, run, h₁.runUpTo_strict]

end Sound

/-! ## Failures -/

section

variable {n : Network} {rs : List Rule} (h : n.Sound) (hr : n.Registered rs)
include h hr

/-- A rule that is not accepted has a fault of its own. -/
theorem addRule_error {r : Rule} {e : Failure} (he : n.addRule r = .error e) : ∃ fault name k, e = .rule fault name k := by
  rcases bind_eq_error_iff.1 he with hc | ⟨_, hc, -⟩
  · exact Rule.check_error hc
  · obtain ⟨id, n', hok, -⟩ := addRule_ok h.toWired hr hc
    rw [he] at hok
    nomatch hok

/-- The bindings of a name can be asked for exactly if it is the name of a rule. Any other name is unknown. -/
theorem bindings_cases (name : String) : ((∃ r ∈ rs, r.name = name) ∧ ∃ b, n.bindings name = .ok b) ∨
    (∀ r ∈ rs, r.name ≠ name) ∧ n.bindings name = .error (.unknownRule name) := by
  cases hid : (n.satisfied.find? name).or (n.byName.find? name) with
  | none =>
    refine Or.inr ⟨?_, by rw [bindings, hid]⟩
    rintro r hmem rfl
    obtain ⟨id, hnew⟩ := hr.exists_newest hmem
    have hnone := (Option.or_eq_none_iff.1 hid).2
    rw [hr.named.2 hnew] at hnone
    cases hnone
  | some id =>
    obtain ⟨r, hmem, hname, p, hp⟩ : ∃ r ∈ rs, r.name = name ∧ ∃ p, n.nodes[id]? = some (.production p) := by
      rcases (find?_or_eq_some_iff h.toMarked h.toPaired hr).1 hid with ⟨⟨p, hp, rfl⟩, -⟩ | ⟨-, i, r, hi, hname, hprod, -⟩
      · obtain ⟨i, r, -, hi, hname, -⟩ := hr.exists_rule hp
        exact ⟨r, List.mem_of_getElem? hi, hname.symm, p, hp⟩
      · obtain ⟨p, -, hp, -⟩ := hr.production hprod hi
        exact ⟨r, List.mem_of_getElem? hi, hname, p, hp⟩
    have hprod : n.productionNode id = .ok p := by simp only [productionNode, node, hp]
    refine Or.inl ⟨⟨r, hmem, hname⟩, n.leastBindings p, ?_⟩
    rw [bindings, hid]
    simp only [hprod, Bind.bind, Except.bind]
    rfl

end

/-- Of ranked rules the choice of the most specific one fails only for a tie. -/
theorem mostSpecific_error {ranked : List RankedRule} {e : Failure} (he : mostSpecific ranked = .error e) :
    ∃ rules score, e = .ambiguous rules score := by
  unfold mostSpecific at he
  split at he
  · nomatch he
  · split at he
    · nomatch he
    · exact ⟨_, _, (Except.error.inj he).symm⟩

/-- Whatever rules, facts and resets a network is given, and in whatever order, nothing in it is ever out of place. Inserting a fact
succeeds, with nothing left to do, and nothing that an activation reads on the way is missing: the strict insertion does the same.
A rule is refused only for a fault of its own, bindings are refused exactly for the names that no accepted rule has, the rules can
be ranked, and the most specific one can be named unless there is a tie. -/
theorem calls_total (cs : List Call) : ∃ n rs, calls cs = .ok (n, rs) ∧
    (∀ f, ∃ b n', n.addFact f = .ok (b, n') ∧ n'.pending = [] ∧ Strict.addFact n f = .ok (b, n')) ∧
    (∀ r fault id, n.addRule r ≠ .error (.network fault id)) ∧
    (∀ name, ((∃ r ∈ rs, r.name = name) ∧ ∃ b, n.bindings name = .ok b) ∨
      (∀ r ∈ rs, r.name ≠ name) ∧ n.bindings name = .error (.unknownRule name)) ∧
    (∃ ranked, n.rankedRules = .ok ranked) ∧
    ∀ e, n.mostSpecificRule = .error e → ∃ rules score, e = .ambiguous rules score := by
  obtain ⟨n, rs, he, h⟩ := calls_ok cs
  have hs := h.toSound
  have hr := registered_of_addRules h.rules
  obtain ⟨ranked, hranked, -⟩ := mem_rankedRules hs.toTree hs.toMarked
  refine ⟨n, rs, he, fun f => ?_, fun r fault id hnet => ?_, bindings_cases hs hr, ⟨ranked, hranked⟩, fun e hmost => ?_⟩
  · obtain ⟨b, n', hadd, h'⟩ := h.fact f
    exact ⟨b, n', hadd, h'.settled, (hs.addFact_strict f).trans hadd⟩
  · obtain ⟨_, _, _, hrule⟩ := addRule_error hs hr hnet
    nomatch hrule
  · rw [mostSpecificRule, hranked] at hmost
    exact mostSpecific_error hmost

end TripleRules.Network

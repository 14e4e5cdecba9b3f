import TripleRules.Proofs.Histories

/-!
# A reset forgets the batch

A reset visits only what the batch is recorded to have written to, and leaves the counters of the alpha memories as they are. Nothing
reads these counters. So up to the counters a network after a reset is its compiled rules, whatever came before, and the next batch
is evaluated to the same tokens and matches as in a new network with these rules.
-/

namespace TripleRules

/-! ## Counters -/

/-- The memory without the number of facts that ever arrived. -/
def AlphaMemory.uncounted (m : AlphaMemory) : AlphaMemory := { m with received := 0 }

/-- The memories without their counters. -/
def AlphaIndex.uncounted (x : AlphaIndex) : AlphaIndex := { x with memories := x.memories.map AlphaMemory.uncounted }

/-- The network without the counters of its alpha memories. -/
def Network.uncounted (n : Network) : Network := { n with alpha := n.alpha.uncounted }

@[simp] theorem AlphaIndex.get?_uncounted (x : AlphaIndex) (a : AlphaId) :
    x.uncounted.get? a = (x.get? a).map AlphaMemory.uncounted := Array.getElem?_map

/-- The counters do not show in the routes. -/
@[simp] theorem AlphaIndex.route_uncounted (x : AlphaIndex) (f : Fact) : x.uncounted.route f = x.route f := by
  have hex : ∀ a o, x.uncounted.excludes a o = x.excludes a o := by
    intro a o
    rw [excludes, get?_uncounted, Option.any_map]
    rfl
  have hkey : x.uncounted.byKey = x.byKey := rfl
  unfold route
  simp only [hex, hkey]

/-- A node without tokens is as it is when it is cleared. -/
theorem Node.clear_of_held {x : Node} (h : x.held = []) : x.clear = x := by
  cases x with
  | top cs => rfl
  | join j => rfl
  | memory m =>
    have hm : m.tokens = #[] := Array.toList_eq_nil_iff.1 h
    rw [clear, ← hm]
  | production p =>
    have hp : p.tokens = #[] := Array.toList_eq_nil_iff.1 h
    rw [clear, ← hp]

namespace Network

/-- To leave the counters out twice is to leave them out once. -/
@[simp] theorem uncounted_uncounted (n : Network) : n.uncounted.uncounted = n.uncounted := by
  simp only [uncounted, AlphaIndex.uncounted, Array.map_map]
  rfl

/-! ## Activations do not read the counters -/

/-- A delivery does the same whatever the counters say. -/
theorem deliver_uncounted (c : Condition) (p : TokenId) (f : FactId) (n : Network) (child : NodeId) :
    deliver c p f n.uncounted child = (deliver c p f n child).map uncounted := by
  have hstored : n.uncounted.stored = n.stored := rfl
  have hnodes : n.uncounted.nodes = n.nodes := rfl
  rw [deliver_eq, deliver_eq, hstored, hnodes]
  split
  · rfl
  · cases n.nodes[child]? with
    | none => rfl
    | some x => cases x <;> rfl

/-- What a join lets through does not depend on the counters. -/
theorem emit_uncounted (n : Network) (join : NodeId) (t : TokenId) (f : FactId) :
    n.uncounted.emit join t f = (n.emit join t f).map uncounted := by
  have hj : n.uncounted.joinNode join = n.joinNode join := rfl
  unfold emit
  rw [hj]
  cases n.joinNode join with
  | error e => rfl
  | ok j => exact foldlM_map (fun n child => deliver_uncounted j.condition t f n child) n j.children

/-- The work for a fact at a join does not depend on the counters. -/
theorem activateRight_uncounted (n : Network) (join : NodeId) (f : FactId) :
    n.uncounted.activateRight join f = (n.activateRight join f).map uncounted := by
  have hj : n.uncounted.joinNode join = n.joinNode join := rfl
  have hleft : ∀ up, n.uncounted.leftTokens up = n.leftTokens up := fun up => rfl
  unfold activateRight
  rw [hj]
  cases n.joinNode join with
  | error e => rfl
  | ok j =>
    simp only [Bind.bind, Except.bind, hleft]
    cases n.leftTokens j.parent with
    | error e => rfl
    | ok ts => exact foldlM_map (fun n t => emit_uncounted n join t f) n (ts.filter fun t => n.passes j.tests t f)

/-- The work for a token at a join does not depend on the counters. -/
theorem extend_uncounted (t : TokenId) (n : Network) (join : NodeId) :
    extend t n.uncounted join = (extend t n join).map uncounted := by
  have hj : n.uncounted.joinNode join = n.joinNode join := rfl
  have ha : ∀ a, n.uncounted.alpha.get? a = (n.alpha.get? a).map AlphaMemory.uncounted := n.alpha.get?_uncounted
  unfold extend
  rw [hj]
  cases n.joinNode join with
  | error e => rfl
  | ok j =>
    simp only [Bind.bind, Except.bind, ha]
    cases n.alpha.get? j.alpha with
    | none => rfl
    | some m => exact foldlM_map (fun n f => emit_uncounted n join t f) n (m.newestFirst.filter fun f => n.passes j.tests t f)

/-- The work for an activation does not depend on the counters. -/
theorem activate_uncounted (n : Network) (a : Activation) : n.uncounted.activate a = (n.activate a).map uncounted := by
  cases a with
  | right join f => exact activateRight_uncounted n join f
  | left memory t =>
    have hc : n.uncounted.childrenOf memory = n.childrenOf memory := rfl
    simp only [activate, activateLeft, hc]
    cases n.childrenOf memory with
    | error e => rfl
    | ok cs => exact foldlM_map (extend_uncounted t) n cs

/-- Some steps of the work do not depend on the counters. -/
theorem runUpTo_uncounted (k : Nat) (n : Network) : runUpTo k n.uncounted = (runUpTo k n).map uncounted := by
  induction k generalizing n with
  | zero => rfl
  | succ k ih =>
    have hp : n.uncounted.pending = n.pending := rfl
    rw [runUpTo, hp, runUpTo]
    cases n.pending with
    | nil => rfl
    | cons a rest =>
      have ha := activate_uncounted { n with pending := rest } a
      simp only [Bind.bind, Except.bind]
      rw [show ({ n.uncounted with pending := rest } : Network).activate a = _ from ha]
      cases ({ n with pending := rest } : Network).activate a with
      | error e => rfl
      | ok n' => exact ih n'

/-- The whole work does not depend on the counters. -/
theorem run_uncounted (n : Network) : n.uncounted.run = n.run.map uncounted := runUpTo_uncounted n.workBound n

/-! ## Insertions count, and do not read what they counted -/

/-- Outcomes that agree under two maps are one failure, or two results with one image. -/
theorem map_eq_map_cases {α β γ : Type} {φ : α → γ} {ψ : β → γ} {x : Outcome α} {y : Outcome β} (h : x.map φ = y.map ψ) :
    (∃ e, x = .error e ∧ y = .error e) ∨ ∃ a b, x = .ok a ∧ y = .ok b ∧ φ a = ψ b := by
  cases x with
  | error e =>
    cases y with
    | error e' =>
      obtain rfl := Except.error.inj h
      exact Or.inl ⟨e, rfl, rfl⟩
    | ok b => nomatch h
  | ok a =>
    cases y with
    | error e' => nomatch h
    | ok b => exact Or.inr ⟨a, b, rfl, rfl, Except.ok.inj h⟩

/-- Steps that do the same up to the counters, wherever the counters stand, do so one after the other. -/
theorem foldlM_uncounted {α : Type} {step : Network → α → Outcome Network}
    (h : ∀ n x, (step n.uncounted x).map uncounted = (step n x).map uncounted) {n n' : Network}
    (hn : n.uncounted = n'.uncounted) (xs : List α) : (xs.foldlM step n).map uncounted = (xs.foldlM step n').map uncounted := by
  induction xs generalizing n n' with
  | nil => exact congrArg Except.ok hn
  | cons x xs ih =>
    have hstep : (step n x).map uncounted = (step n' x).map uncounted := by rw [← h n, hn, h n']
    rw [List.foldlM_cons, List.foldlM_cons]
    rcases map_eq_map_cases hstep with ⟨e, he, he'⟩ | ⟨m, m', he, he', hm⟩
    · rw [he, he']
    · rw [he, he']
      exact ih hm

/-- A fact arrives in one memory as well, wherever the counters stand. -/
theorem receive_uncounted (g : FactId) (n : Network) (a : AlphaId) :
    (receive g n.uncounted a).map uncounted = (receive g n a).map uncounted := by
  have ha : n.uncounted.alpha.get? a = (n.alpha.get? a).map AlphaMemory.uncounted := n.alpha.get?_uncounted a
  have hmod : (n.alpha.uncounted.modify a (·.receive g)).uncounted = (n.alpha.modify a (·.receive g)).uncounted := by
    have hreceive : ∀ xs : Array AlphaMemory, (xs.modify a (·.receive g)).map AlphaMemory.uncounted =
        (xs.map AlphaMemory.uncounted).modify a fun m => { m with facts := m.facts.push g } := by
      intro xs
      refine Array.map_modify ?_ xs a
      exact fun m => rfl
    simp only [AlphaIndex.uncounted, AlphaIndex.modify, hreceive, Array.map_map]
    rfl
  unfold receive
  rw [ha]
  cases n.alpha.get? a with
  | none => rfl
  | some m =>
    simp only [Option.map_some, Except.map, uncounted] at hmod ⊢
    rw [hmod]
    rfl

/-- A fact arrives in the same memories, wherever the counters stand. -/
theorem arrive_uncounted (n : Network) (f : Fact) : (n.uncounted.arrive f).map uncounted = (n.arrive f).map uncounted := by
  have hroute : n.uncounted.alpha.route f = n.alpha.route f := n.alpha.route_uncounted f
  rw [arrive, arrive, hroute]
  exact foldlM_uncounted (receive_uncounted n.facts.size) (uncounted_uncounted (n.withFact f)) (n.alpha.route f)

/-- An insertion does the same, up to the counters, whatever the counters say. -/
theorem addFact_uncounted (n : Network) (f : Fact) :
    (n.uncounted.addFact f).map (·.2.uncounted) = (n.addFact f).map (·.2.uncounted) := by
  have hseen : n.uncounted.seen = n.seen := rfl
  by_cases hf : n.seen.contains f = true
  · have hf' : n.uncounted.seen.contains f = true := by rw [hseen, hf]
    rw [addFact, if_pos hf', addFact, if_pos hf]
    exact congrArg Except.ok (uncounted_uncounted n)
  · have hf' : ¬ n.uncounted.seen.contains f = true := by
      rw [hseen]
      exact hf
    rw [addFact_eq hf', addFact_eq hf]
    rcases map_eq_map_cases (arrive_uncounted n f) with ⟨e, he, he'⟩ | ⟨m, m', he, he', hm⟩
    · rw [he, he']
    · -- the runs agree, since a run does not read the counters
      have hrun : m.run.map uncounted = m'.run.map uncounted := by rw [← run_uncounted, hm, run_uncounted]
      rw [he, he']
      simp only [Bind.bind, Except.bind]
      rcases map_eq_map_cases hrun with ⟨e, hr, hr'⟩ | ⟨k, k', hr, hr', hk⟩
      · rw [hr, hr']
      · rw [hr, hr']
        exact congrArg Except.ok hk

/-- The facts of a batch do the same up to the counters, wherever the counters stand. -/
theorem addFacts_uncounted {n n' : Network} (h : n.uncounted = n'.uncounted) (fs : List Fact) :
    (n.addFacts fs).map uncounted = (n'.addFacts fs).map uncounted := by
  refine foldlM_uncounted (fun n f => ?_) h fs
  have hf := addFact_uncounted n f
  cases he : n.addFact f <;> cases he' : n.uncounted.addFact f <;> rw [he, he'] at hf <;> exact hf

/-! ## Resets -/

/-- Without a batch a network is up to the counters its compiled rules. -/
theorem Clean.uncounted_eq {n : Network} (hw : n.Wired) (h : n.Clean) : n.uncounted = n.bare := by
  have hnodes : n.nodes.map Node.clear = n.nodes := by
    refine Array.ext_getElem? fun i => ?_
    rw [Array.getElem?_map]
    cases hx : n.nodes[i]? with
    | none => rfl
    | some x =>
      by_cases hi : i = topNode
      · obtain ⟨cs, hcs⟩ := hw.top
        obtain rfl := Option.some.inj ((hi ▸ hx).symm.trans hcs)
        rfl
      · have hheld := h.held hi
        rw [held_eq hx] at hheld
        rw [Option.map_some, Node.clear_of_held hheld]
  have halpha : n.alpha.bare = n.alpha.uncounted := by
    unfold AlphaIndex.bare AlphaIndex.uncounted
    congr 1
    refine Array.ext_getElem? fun i => ?_
    rw [Array.getElem?_map, Array.getElem?_map]
    cases hm : n.alpha.memories[i]? with
    | none => rfl
    | some m =>
      have hfacts := h.arrived i
      rw [arrived_eq hm, Array.toList_eq_nil_iff] at hfacts
      rw [Option.map_some, Option.map_some, AlphaMemory.bare, AlphaMemory.uncounted, hfacts]
  unfold bare uncounted
  rw [hnodes, halpha, h.tokens, h.facts, h.seen, h.stored, h.satisfied, h.pending, h.touchedAlphas, h.touchedNodes]

/-- A network that is reset is its compiled rules, but for the counters. -/
theorem uncounted_reset {n : Network} (hw : n.Wired) (hr : n.Recorded) : n.reset.uncounted = n.bare := by
  rw [(clean_reset hw hr).uncounted_eq (hw.of_bare (bare_reset n)), bare_reset]

/-- Every fact is new to a network without a batch. -/
theorem Clean.addFact_new {n : Network} (h : n.Clean) (hw : n.Wired) (f : Fact) : ∃ n', n.addFact f = .ok (true, n') := by
  rcases addFact_cases (finished_of_clean hw h).toSound f with ⟨hin, -⟩ | ⟨-, n', he, -⟩
  · rw [h.facts] at hin
    exact absurd hin (Array.not_mem_empty f)
  · exact ⟨n', he⟩

/-- The matches are read off without the counters. -/
theorem allMatches_uncounted (n : Network) : n.uncounted.allMatches = n.allMatches := rfl

/-- A reset leaves a network without a batch as it is. -/
theorem reset_bare (n : Network) : n.bare.reset = n.bare := rfl

end Network

/-! ## Histories -/

namespace Engine

/-- An engine with a network that no batch has been given to stands by its rules. -/
theorem Stands.bare {e : Engine} {rs : List Rule} (h : e.Stands rs) : Stands ⟨e.settings, e.network.bare⟩ rs := by
  have hw : e.network.bare.Wired := h.wired.of_bare e.network.bare_bare
  have hc := Network.clean_of_bare hw e.network.bare_bare
  exact ⟨by rw [Network.bare_bare]; exact h.rules, (Network.finished_of_clean hw hc).toRecorded⟩

/-- A batch is evaluated as an engine evaluates it that has the same rules and no history. -/
theorem evaluate_bare {e : Engine} {rs : List Rule} (h : e.Stands rs) {fs : List Fact} (hlen : fs.length ≤ e.settings.maxFacts) :
    ∃ m n n₀, e.evaluate fs = .ok (m, { e with network := n }) ∧
      evaluate ⟨e.settings, e.network.bare⟩ fs = .ok (m, ⟨e.settings, n₀⟩) ∧ n.uncounted = n₀.uncounted := by
  obtain ⟨m, n, he, -⟩ := h.evaluate_ok hlen
  obtain ⟨m₀, n₀, he₀, -⟩ := h.bare.evaluate_ok hlen
  obtain ⟨-, hadd, hm⟩ := evaluate_eq_ok he
  obtain ⟨-, hadd₀, hm₀⟩ := evaluate_eq_ok he₀
  have hreset : e.network.reset.uncounted = e.network.bare.reset.uncounted := by
    rw [Network.reset_bare, ← Network.uncounted_reset h.wired h.recorded, Network.uncounted_uncounted]
  have hfacts := Network.addFacts_uncounted hreset fs
  rw [hadd, hadd₀] at hfacts
  have hn : n.uncounted = n₀.uncounted := Except.ok.inj hfacts
  have hmatches : n.allMatches = n₀.allMatches := by
    rw [← Network.allMatches_uncounted, hn, Network.allMatches_uncounted]
  obtain rfl : m = m₀ := Except.ok.inj ((hm.symm.trans hmatches).trans hm₀)
  exact ⟨m, n, n₀, he, he₀, hn⟩

end Engine

/-- A reset forgets the batch. Whatever rules, facts and resets came before, and whichever rules were refused, the network after a
reset is up to the counters of its alpha memories what a new network becomes by the accepted rules in their order. It has no batch: the
root is its only token, and every fact that is inserted next is new to it, also one that the batch had. So after any rules and batches
an engine refuses a batch as a fresh engine with the accepted rules does, or both evaluate it with the same matches, and to networks
that are equal up to these counters. -/
theorem fresh_of_reset :
    (∀ cs : List Network.Call, ∃ n rs n₀, Network.calls (cs ++ [.reset]) = .ok (n, rs) ∧
      Network.empty.addRules rs = .ok n₀ ∧ n.uncounted = n₀ ∧ n.Clean ∧ n.tokens.slots = #[.root] ∧
      ∀ f : Fact, n.seen[f]? = none ∧ ∃ n', n.addFact f = .ok (true, n')) ∧
    ∀ (s : Settings) (cs : List Engine.Call), ∃ e rs e₀, Engine.calls s cs = (e, rs) ∧
      Engine.compileAll ⟨s, .empty⟩ rs = (e₀, .ok ()) ∧ ∀ fs : List Fact,
        (∃ m n n₀, e.evaluate fs = .ok (m, ⟨s, n⟩) ∧ e₀.evaluate fs = .ok (m, ⟨s, n₀⟩) ∧ n.uncounted = n₀.uncounted) ∨
        (e.evaluate fs = .error (.limit .largeBatch s.maxFacts fs.length) ∧
          e₀.evaluate fs = .error (.limit .largeBatch s.maxFacts fs.length)) := by
  constructor
  · intro cs
    obtain ⟨n, rs, he, h⟩ := Network.calls_ok cs
    obtain ⟨hclean, hrests⟩ := h.reset
    refine ⟨n.reset, rs, n.bare, ?_, h.rules, Network.uncounted_reset h.toWired h.toRecorded, hclean, ?_, fun f => ?_⟩
    · rw [Network.calls] at he
      rw [Network.calls, List.foldlM_append, he]
      rfl
    · rw [hclean.tokens]
      rfl
    · rw [hclean.seen]
      exact ⟨Std.TreeMap.getElem?_emptyc, hclean.addFact_new hrests.toWired f⟩
  · intro s cs
    have hk := Engine.keeps_calls s cs
    generalize Engine.calls s cs = p at hk
    obtain ⟨⟨s', n⟩, rs⟩ := p
    obtain rfl : s' = s := hk.settings
    refine ⟨⟨s', n⟩, rs, ⟨s', n.bare⟩, rfl, Engine.compileAll_eq hk.rules hk.limits, fun fs => ?_⟩
    by_cases hlen : fs.length ≤ s'.maxFacts
    · exact Or.inl (Engine.evaluate_bare hk.toStands hlen)
    · have hlt : fs.length > s'.maxFacts := Nat.lt_of_not_le hlen
      exact Or.inr ⟨if_pos hlt, if_pos hlt⟩

end TripleRules

import TripleRules.Proofs.Answers

/-!
# Histories of calls

A network takes rules, facts and resets in any order, so a rule may be compiled in the middle of a batch. Its new memories are empty
then, although the facts of the batch may match it: nothing is made up for. The network is no longer complete, but it stays sound,
and no call fails except for a rule that does not pass its check.
-/

namespace TripleRules

namespace Network

/-! ## Rules in the middle of a batch -/

namespace Widens

variable {n n' : Network} (h : n.Widens n')
include h

/-- A test that held goes on to hold. -/
theorem passes_eq (tests : List JoinTest) (t : TokenId) (f : FactId) : n'.passes tests t f = n.passes tests t f := by
  unfold passes holds
  rw [h.tokens, h.facts]

/-- What meets at a join does not depend on what hangs below the join. -/
theorem meets {j : JoinNode} {t : TokenId} {f : FactId} (hm : n.Meets j t f) (cs : List NodeId) :
    n'.Meets { j with children := cs } t f := by
  refine ⟨?_, ?_, ?_⟩
  · rw [h.held_eq]
    exact hm.token
  · rw [h.arrived]
    exact hm.fact
  · rw [h.passes_eq]
    exact hm.passes

/-- A node that holds tokens was there before. -/
theorem exists_of_held {id : NodeId} {x' : Node} (hx' : n'.nodes[id]? = some x') {t : TokenId} (ht : t ∈ n'.held id) :
    ∃ x cs, n.nodes[id]? = some x ∧ x' = x.withChildren cs := by
  cases hx : n.nodes[id]? with
  | none =>
    rw [Network.held_eq hx', h.nodes_new hx' hx] at ht
    exact absurd ht List.not_mem_nil
  | some x =>
    obtain ⟨cs, hcs⟩ := h.nodes hx
    exact ⟨x, cs, rfl, Option.some.inj (hx'.symm.trans hcs)⟩

/-- A production that holds something is not new. -/
theorem production_of_held {id : NodeId} {p : ProductionNode} (hp : n'.nodes[id]? = some (.production p)) {t : TokenId}
    (ht : t ∈ n'.held id) : n.nodes[id]? = some (.production p) := by
  obtain ⟨x, cs, hx, he⟩ := h.exists_of_held hp ht
  cases x with
  | production q => rw [hx, he, Node.withChildren]
  | top ds => cases he
  | join j => cases he
  | memory m => cases he

/-- A production that was there is still there, since nothing hangs below it. -/
theorem production {id : NodeId} {p : ProductionNode} (hp : n.nodes[id]? = some (.production p)) :
    n'.nodes[id]? = some (.production p) := by
  obtain ⟨cs, hcs⟩ := h.nodes hp
  exact hcs

/-- Below a join that is still there a node with tokens stands for the pairs that it stood for. -/
theorem justified (hw : n.Tree) (hp : n.Paired) {id up : NodeId} {j' : JoinNode} {t : TokenId} (hup : n'.parentOf id = some up)
    (hj : n'.nodes[up]? = some (.join j')) (ht : t ∈ n'.held id) : ∃ l, n'.tokens.link? t = some l ∧
      l.subjectVar = j'.condition.subjectVar? ∧ l.objectVar = j'.condition.objectVar? ∧ n'.Meets j' l.parent l.fact := by
  obtain ⟨x', hx', hxp⟩ := parentOf_eq_some.1 hup
  obtain ⟨x, cs, hx, rfl⟩ := h.exists_of_held hx' ht
  rw [Node.parent?_withChildren] at hxp
  obtain ⟨y, hy, -⟩ := hw.parent_carries hx hxp
  obtain ⟨ds, hy'⟩ := h.nodes hy
  have he := Option.some.inj (hj.symm.trans hy')
  cases y with
  | join j =>
    obtain rfl := Node.join.inj he
    rw [h.held_eq] at ht
    obtain ⟨l, hl, hs, ho, hm⟩ := hp.justified (parentOf_eq_some.2 ⟨x, hx, hxp⟩) hy ht
    exact ⟨l, by rw [h.tokens, hl], hs, ho, h.meets hm ds⟩
  | top es => nomatch he
  | memory m => nomatch he
  | production p => nomatch he

/-- A network that gets wider stays paired. -/
theorem paired (hw : n.Tree) (hp : n.Paired) : n'.Paired where
  grounded := by
    rw [h.tokens]
    exact hp.grounded
  owner_iff := by
    simp only [h.tokens, h.held_eq]
    exact hp.owner_iff
  owner_unique := by
    simp only [h.held_eq]
    exact hp.owner_unique
  nodup := by
    simp only [h.held_eq]
    exact hp.nodup
  distinct := by
    simp only [h.held_eq, h.tokens]
    exact hp.distinct
  justified := h.justified hw hp
  stored_iff := by
    simp only [h.held_eq, h.tokens, h.stored]
    exact hp.stored_iff
  arrived_lt := by
    simp only [h.arrived, h.facts]
    exact hp.arrived_lt

/-- The tokens on a match are the same. -/
theorem onMatch_iff (t : TokenId) : n'.OnMatch t ↔ n.OnMatch t := by
  unfold OnMatch
  constructor
  · rintro ⟨id, p, u, hp, hu, ht⟩
    have hp₀ := h.production_of_held hp hu
    rw [h.held_eq] at hu
    rw [h.tokens] at ht
    exact ⟨id, p, u, hp₀, hu, ht⟩
  · rintro ⟨id, p, u, hp, hu, ht⟩
    exact ⟨id, p, u, h.production hp, by rw [h.held_eq]; exact hu, by rw [h.tokens]; exact ht⟩

/-- A network that gets wider stays marked. -/
theorem marked (hm : n.Marked) : n'.Marked where
  flagged_iff := fun t => by
    rw [h.tokens, h.onMatch_iff]
    exact hm.flagged_iff t
  satisfied_some := fun {name id} hs => by
    rw [h.satisfied] at hs
    obtain ⟨p, hp, hname, hne⟩ := hm.satisfied_some hs
    exact ⟨p, h.production hp, hname, by rw [h.held_eq]; exact hne⟩
  satisfied_of := fun {id p} hp hne => by
    obtain ⟨t, ht⟩ := List.exists_mem_of_ne_nil _ hne
    rw [h.satisfied]
    rw [h.held_eq] at hne
    exact hm.satisfied_of (h.production_of_held hp ht) hne
  satisfied_newest := fun {name id} hs => by
    rw [h.satisfied] at hs
    obtain ⟨t, ht, hmax⟩ := hm.satisfied_newest hs
    refine ⟨t, by rw [h.held_eq]; exact ht, fun {id' p} hp hname u hu => ?_⟩
    have hp₀ := h.production_of_held hp hu
    rw [h.held_eq] at hu
    exact hmax hp₀ hname u hu

/-- A rule that is compiled in the middle of a batch keeps the network sound. -/
theorem sound (hw' : n'.Wired) (hs : n.Sound) : n'.Sound := by
  refine ⟨hw', h.paired hs.toTree hs.toPaired, h.marked hs.toMarked, h.recorded hs.toRecorded,
    hs.toKnown.congr h.seen h.facts, fun a ha => ?_⟩
  rw [h.pending] at ha
  have hwait := hs.waits a ha
  cases a with
  | right join f =>
    obtain ⟨j, hj, hf⟩ := hwait
    obtain ⟨cs, hcs⟩ := h.join hj
    exact ⟨_, hcs, by rw [h.arrived]; exact hf⟩
  | left memory t =>
    obtain ⟨⟨m, hm⟩, ht⟩ := hwait
    obtain ⟨cs, hcs⟩ := h.nodes hm
    exact ⟨⟨_, hcs⟩, by rw [h.held_eq]; exact ht⟩

end Widens

/-! ## Calls -/

/-- What a network can be asked to do. -/
inductive Call where
  | rule (r : Rule)
  | fact (f : Fact)
  | reset
  deriving DecidableEq, Repr

/-- A call, on a network and the rules that it has accepted. A rule that is refused changes nothing. -/
def call (p : Network × List Rule) : Call → Outcome (Network × List Rule)
  | .rule r =>
    match p.1.addRule r with
    | .ok (_, n) => .ok (n, p.2 ++ [r])
    | .error _ => .ok p
  | .fact f => (p.1.addFact f).map fun q => (q.2, p.2)
  | .reset => .ok (p.1.reset, p.2)

/-- The network after some calls, and the rules that it has accepted, in their order. -/
def calls (cs : List Call) : Outcome (Network × List Rule) := cs.foldlM call (empty, [])

/-- Between two calls a network is its compiled rules and a sound batch, of which nothing waits. -/
structure Rests (n : Network) (rs : List Rule) : Prop extends Sound n where
  rules : empty.addRules rs = .ok n.bare
  settled : n.pending = []

/-- A new network rests. -/
theorem rests_empty : empty.Rests [] := by
  have hc := clean_of_bare wired_empty bare_empty
  exact ⟨(finished_of_clean wired_empty hc).toSound, congrArg Except.ok bare_empty.symm, rfl⟩

/-- A network that accepts a rule rests. -/
theorem Rests.rule {n n' : Network} {rs : List Rule} (h : n.Rests rs) {r : Rule} {id : NodeId}
    (ha : n.addRule r = .ok (id, n')) : n'.Rests (rs ++ [r]) := by
  obtain ⟨id', n'', he, hw, hwid, -⟩ := addRule_ok h.toWired (registered_of_addRules h.rules) (check_of_addRule ha)
  obtain ⟨-, rfl⟩ := Prod.mk.inj (Except.ok.inj (ha.symm.trans he))
  exact ⟨hwid.sound hw h.toSound, addRules_append_singleton h.rules ha, hwid.pending.trans h.settled⟩

/-- An insertion succeeds, and the network rests after it. -/
theorem Rests.fact {n : Network} {rs : List Rule} (h : n.Rests rs) (f : Fact) :
    ∃ b n', n.addFact f = .ok (b, n') ∧ n'.Rests rs := by
  rcases addFact_cases h.toSound f with ⟨-, he⟩ | ⟨-, n', he, h', hp, -, hb, -, -⟩
  · exact ⟨false, n, he, h⟩
  · exact ⟨true, n', he, h', by rw [hb]; exact h.rules, hp⟩

/-- After a reset the network rests, and has no batch. -/
theorem Rests.reset {n : Network} {rs : List Rule} (h : n.Rests rs) : n.reset.Clean ∧ n.reset.Rests rs := by
  have hb := bare_reset n
  have hc := clean_reset h.toWired h.toRecorded
  have hs := (finished_of_clean (h.toWired.of_bare hb) hc).toSound
  exact ⟨hc, hs, by rw [hb]; exact h.rules, hc.pending⟩

/-- No call fails, and each leaves a network at rest. -/
theorem Rests.call_ok {p : Network × List Rule} (h : p.1.Rests p.2) (c : Call) :
    ∃ p', call p c = .ok p' ∧ p'.1.Rests p'.2 := by
  cases c with
  | rule r =>
    cases ha : p.1.addRule r with
    | error e => exact ⟨p, by simp only [call, ha], h⟩
    | ok q => exact ⟨(q.2, p.2 ++ [r]), by simp only [call, ha], h.rule ha⟩
  | fact f =>
    obtain ⟨b, n', he, h'⟩ := h.fact f
    exact ⟨(n', p.2), by rw [call, he]; rfl, h'⟩
  | reset => exact ⟨_, rfl, h.reset.2⟩

/-- What a call can do to a network at rest: a rule is refused or accepted, a fact is known to the batch or new, or the batch ends. -/
inductive Does (p : Network × List Rule) : Call → Network × List Rule → Prop where
  | refused (r : Rule) : Does p (.rule r) p
  | accepted {r : Rule} {id : NodeId} {n : Network} : p.1.addRule r = .ok (id, n) → p.1.Widens n → Does p (.rule r) (n, p.2 ++ [r])
  | known {f : Fact} : f ∈ p.1.facts → Does p (.fact f) p
  | new {f : Fact} {n : Network} : f ∉ p.1.facts → p.1.addFact f = .ok (true, n) → n.bare = p.1.bare →
      n.facts = p.1.facts.push f → Does p (.fact f) (n, p.2)
  | reset : Does p .reset (p.1.reset, p.2)

/-- What a call that succeeds does to a network that rests. -/
theorem Rests.does {p p' : Network × List Rule} (h : p.1.Rests p.2) {c : Call} (he : call p c = .ok p') : Does p c p' := by
  cases c with
  | rule r =>
    rw [call] at he
    split at he
    · rename_i id n ha
      obtain rfl := Except.ok.inj he
      obtain ⟨id', n', he', -, hwid, -⟩ := addRule_ok h.toWired (registered_of_addRules h.rules) (check_of_addRule ha)
      obtain ⟨-, rfl⟩ := Prod.mk.inj (Except.ok.inj (ha.symm.trans he'))
      exact .accepted ha hwid
    · obtain rfl := Except.ok.inj he
      exact .refused r
  | fact f =>
    obtain ⟨⟨b, n⟩, ha, rfl⟩ := map_eq_ok_iff.1 he
    rcases addFact_cases h.toSound f with ⟨hin, hsame⟩ | ⟨hnew, n', hadd, -, -, -, hb, hfacts, -⟩
    · obtain ⟨-, rfl⟩ := Prod.mk.inj (Except.ok.inj (ha.symm.trans hsame))
      exact .known hin
    · obtain ⟨-, rfl⟩ := Prod.mk.inj (Except.ok.inj (ha.symm.trans hadd))
      exact .new hnew hadd hb hfacts
  | reset =>
    obtain rfl := Except.ok.inj he
    exact .reset

/-- Whatever a network is asked to do, and in whatever order, it is done. -/
theorem calls_ok (cs : List Call) : ∃ n rs, calls cs = .ok (n, rs) ∧ n.Rests rs := by
  suffices hrun : ∀ p : Network × List Rule, p.1.Rests p.2 → ∃ p', cs.foldlM call p = .ok p' ∧ p'.1.Rests p'.2 by
    obtain ⟨p, he, h⟩ := hrun (empty, []) rests_empty
    exact ⟨p.1, p.2, he, h⟩
  induction cs with
  | nil => exact fun p h => ⟨p, rfl, h⟩
  | cons c cs ih =>
    intro p h
    obtain ⟨p₁, he₁, h₁⟩ := h.call_ok c
    obtain ⟨p₂, he₂, h₂⟩ := ih p₁ h₁
    refine ⟨p₂, ?_, h₂⟩
    rw [List.foldlM_cons, he₁]
    exact he₂

end Network

/-! ## The calls of an engine -/

namespace Engine

/-- What an engine can be asked to do. -/
inductive Call where
  | compile (r : Rule)
  | evaluate (fs : List Fact)
  deriving DecidableEq, Repr

/-- A call, on an engine and the rules that it has accepted. What is refused changes nothing. -/
def call (p : Engine × List Rule) : Call → Engine × List Rule
  | .compile r =>
    match p.1.compile r with
    | .ok (_, e) => (e, p.2 ++ [r])
    | .error _ => p
  | .evaluate fs =>
    match p.1.evaluate fs with
    | .ok (_, e) => (e, p.2)
    | .error _ => p

/-- An engine without rules after some calls, and the rules that it has accepted, in their order. -/
def calls (s : Settings) (cs : List Call) : Engine × List Rule := cs.foldl call (⟨s, .empty⟩, [])

/-- An engine stands by rules that keep to the limits of its settings. -/
structure Keeps (s : Settings) (e : Engine) (rs : List Rule) : Prop extends Stands e rs where
  settings : e.settings = s
  limits : ∀ r ∈ rs, checkLimits s r = .ok ()

/-- A call keeps the network of an engine as the calls that were accepted leave it. -/
theorem Keeps.call {s : Settings} {p : Engine × List Rule} (h : Keeps s p.1 p.2) (c : Call) :
    Keeps s (call p c).1 (call p c).2 := by
  cases c with
  | compile r =>
    cases hc : p.1.compile r with
    | error x =>
      simp only [Engine.call, hc]
      exact h
    | ok q =>
      simp only [Engine.call, hc]
      obtain ⟨hl, n, ha, he⟩ := compile_eq_ok.1 hc
      refine ⟨stands_compile h.toStands hc, by rw [he]; exact h.settings, fun r' hr' => ?_⟩
      rcases List.mem_append.1 hr' with hr' | hr'
      · exact h.limits r' hr'
      · rw [List.mem_singleton.1 hr', ← h.settings]
        exact hl
  | evaluate fs =>
    cases he : p.1.evaluate fs with
    | error x =>
      simp only [Engine.call, he]
      exact h
    | ok q =>
      simp only [Engine.call, he]
      obtain ⟨m, n, he', -⟩ := h.evaluate_ok (evaluate_eq_ok he).1
      have hq : q = (m, { p.1 with network := n }) := Except.ok.inj (he.symm.trans he')
      exact ⟨stands_evaluate h.toStands he, by rw [hq]; exact h.settings, h.limits⟩

/-- After any calls an engine stands by the rules that it has accepted. -/
theorem keeps_calls (s : Settings) (cs : List Call) : Keeps s (calls s cs).1 (calls s cs).2 := by
  suffices hrun : ∀ p : Engine × List Rule, Keeps s p.1 p.2 → Keeps s (cs.foldl call p).1 (cs.foldl call p).2 from
    hrun (⟨s, .empty⟩, []) ⟨stands_empty s, rfl, fun r hr => absurd hr List.not_mem_nil⟩
  induction cs with
  | nil => exact fun p h => h
  | cons c cs ih => exact fun p h => ih (Engine.call p c) (h.call c)

/-- A fresh engine accepts rules that a network accepts and that keep to its limits. -/
theorem compileAll_eq {s : Settings} {n n' : Network} {rs : List Rule} (ha : n.addRules rs = .ok n')
    (hl : ∀ r ∈ rs, checkLimits s r = .ok ()) : compileAll ⟨s, n⟩ rs = (⟨s, n'⟩, .ok ()) := by
  induction rs generalizing n with
  | nil =>
    obtain rfl := Except.ok.inj ha
    rfl
  | cons r rs ih =>
    obtain ⟨hr, hrs⟩ := List.forall_mem_cons.1 hl
    rw [Network.addRules, List.foldlM_cons] at ha
    cases hadd : n.addRule r with
    | error x =>
      rw [hadd] at ha
      cases ha
    | ok p =>
      rw [hadd] at ha
      have hc : compile ⟨s, n⟩ r = .ok (p.1, ⟨s, p.2⟩) := compile_eq_ok.2 ⟨hr, p.2, hadd, rfl⟩
      rw [compileAll, hc]
      exact ih ha hrs

end Engine

end TripleRules

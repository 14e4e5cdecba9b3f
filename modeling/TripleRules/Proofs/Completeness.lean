import TripleRules.Proofs.Matching

/-!
# Evaluation misses no match

Whatever facts of the batch a substitution asks for, the production of the rule holds them as a match and the rule is satisfied, if no
alpha memory of a variable object keeps one of them out. This is so for any history of the engine, any order of the facts, and
whatever parts of the network the rules share.
-/

namespace TripleRules

/-- A rule whose production holds a match is satisfied. -/
theorem Network.isSatisfied_of_held {n : Network} (h : n.Marked) {m : Matches} (hm : n.allMatches = .ok m) {id : NodeId}
    {p : ProductionNode} (hp : n.nodes[id]? = some (.production p)) {t : TokenId} (ht : t ∈ n.held id) :
    m.isSatisfied p.rule = true := by
  obtain ⟨id', hs⟩ := h.satisfied_of hp (List.ne_nil_of_mem ht)
  obtain ⟨q, u, -, -, -, -, hb⟩ := bindings_of_satisfied h hs
  obtain ⟨m', hm', hfind⟩ := allMatches_ok h
  obtain rfl := Except.ok.inj (hm.symm.trans hm')
  rw [Matches.isSatisfied, Table.contains, (hfind _ _).2 ⟨⟨id', hs⟩, hb⟩]
  rfl

/-- A memory keeps only objects out that it was asked to keep out. -/
theorem AlphaIndex.excludes_eq_false {x : AlphaIndex} {a : AlphaId} {o : Term}
    (h : ∀ m, x.get? a = some m → o ∉ m.excluded) : x.excludes a o = false := by
  rw [excludes]
  cases hm : x.get? a with
  | none => rfl
  | some m =>
    have hnot : m.excluded.contains o = false := by
      rw [← Bool.not_eq_true, List.contains_iff_mem]
      exact h m hm
    rw [Option.any_some, AlphaMemory.excludes, hnot, Bool.and_false]

namespace Engine

/-- Evaluating a batch within the limit succeeds. Where a substitution turns the conditions of a rule into facts of the batch, and no
object of a fact whose condition has a variable object is excluded by the memory that the join of the condition reads, the
production of the rule holds a token with exactly these facts on its chain, and the rule is satisfied. -/
theorem held_of_substitution {e : Engine} {rs : List Rule} (hb : e.Built rs) {fs : List Fact}
    (hlen : fs.length ≤ e.settings.maxFacts) :
    ∃ m e', e.evaluate fs = .ok (m, e') ∧ ∀ (i : Nat) (r : Rule), rs[i]? = some r →
      ∃ (id : NodeId) (p : ProductionNode) (js : List JoinNode), e'.network.productions[i]? = some id ∧
        e'.network.nodes[id]? = some (.production p) ∧ p.rule = r.name ∧ e'.network.Reaches id js r.conditions ∧
        ∀ (σ : String → Term) (gs : List Fact), r.conditions.map (·.apply σ) = gs → (∀ g ∈ gs, g ∈ fs) →
          (∀ (k : Nat) (c : Condition) (j : JoinNode) (g : Fact) (a : AlphaMemory), r.conditions[k]? = some c →
            js[k]? = some j → gs[k]? = some g → c.object.isVar = true → e'.network.alpha.get? j.alpha = some a →
            g.object ∉ a.excluded) →
          (∃ t ∈ e'.network.held id, e'.network.matchOf t = gs) ∧ m.isSatisfied r.name = true := by
  have hs := hb.stands
  obtain ⟨m, n, he, h, hbare, hmem, hm⟩ := hs.evaluate_ok hlen
  refine ⟨m, _, he, fun i r hi => ?_⟩
  obtain ⟨id, p, js, hid, hp, hname, hreach⟩ := (hs.registered.of_bare hbare).reaches h.toWired hi
  refine ⟨id, p, js, hid, hp, hname, hreach, fun σ gs hg hin hex => ?_⟩
  have hjoined : Joined n.alpha n.facts.toList js.reverse.reverse gs := by
    refine Network.joined_of_apply (σ := σ) h.toWired hreach.path ?_ (fun g hg => (hmem g).2 (hin g hg)) ?_
    · rw [List.reverse_reverse, ← hg, ← hreach.conditions, List.map_map]
      rfl
    · intro k j g hj hgk hvar
      rw [List.reverse_reverse] at hj
      have hc : r.conditions[k]? = some j.condition := by rw [← hreach.conditions, List.getElem?_map, hj]; rfl
      exact AlphaIndex.excludes_eq_false fun a ha => hex k j.condition j g a hc hj hgk hvar ha
  obtain ⟨t, ht, hmatch⟩ := h.exists_held_of_joined hreach.path hjoined
  refine ⟨⟨t, ht, hmatch⟩, ?_⟩
  rw [← hname]
  exact Network.isSatisfied_of_held h.toMarked hm hp ht

theorem held_of_substitution_tea : ∃ m e', (ofRules [.teaRule]).evaluate Fact.teaFacts = .ok (m, e') ∧
    (∃ id, ∃ t ∈ e'.network.held id, e'.network.matchOf t =
      [⟨.resource "ann", .resource "invites", .resource "bob"⟩, ⟨.resource "bob", .resource "drinks", .resource "tea"⟩]) ∧
    m.isSatisfied "tea" = true := by
  have hlen : Fact.teaFacts.length ≤ (ofRules [.teaRule]).settings.maxFacts := by decide
  obtain ⟨m, e', he, hrule⟩ := held_of_substitution (built_ofRules [.teaRule] rfl) hlen
  obtain ⟨id, p, js, -, -, -, -, hheld⟩ := hrule 0 .teaRule rfl
  have hnone : (ofRules [.teaRule]).evaluate Fact.teaFacts |>.toOption.all fun p =>
      p.2.network.alpha.memories.all (·.excluded.isEmpty) := by decide +kernel
  rw [he] at hnone
  obtain ⟨hin, hsat⟩ := hheld (fun name => if name = "?host" then .resource "ann" else .resource "bob") _ rfl (by decide)
    fun k c j g a _ _ _ _ ha => by
      have hmem := Array.mem_of_getElem? ha
      have hempty := Array.all_eq_true_iff_forall_mem.1 hnone a hmem
      rw [List.isEmpty_iff.1 hempty]
      exact List.not_mem_nil
  exact ⟨m, e', he, ⟨id, hin⟩, hsat⟩

end Engine

end TripleRules

import TripleRules.Proofs.Routing
import TripleRules.Proofs.Trie

/-!
# What compiling asks of the alpha index

Compiling does two things to the alpha index: each condition requests a memory, and each new join reads one. What is kept by both holds
of the index of every compiled network, with the requests of its rules in their order (`alpha_addRules`). So the index is what the
requests make of it, the handle of a memory is its position (`numbered_of_bare`), and a memory lists each of its readers once
(`nodup_successors_addRules`).
-/

namespace TripleRules

/-- The request of a stage for its memory. -/
def Stage.request (s : Stage) : Request := ⟨s.condition.predicate, s.condition.object, s.excluded⟩

/-- The requests of a rule, in the order of its conditions. -/
def Rule.requests (r : Rule) : List Request := r.conditions.map fun c => ⟨c.predicate, c.object, r.excludedBy c⟩

theorem Rule.map_request_stagesAfter (r : Rule) (earlier cs : List Condition) :
    (r.stagesAfter earlier cs).map Stage.request = cs.map fun c => ⟨c.predicate, c.object, r.excludedBy c⟩ := by
  induction cs generalizing earlier with
  | nil => rfl
  | cons c cs ih =>
    rw [stagesAfter, List.map_cons, List.map_cons, ih]
    rfl

/-- The stages of a rule ask for what its conditions do, in their order. -/
theorem Rule.map_request_stages (r : Rule) : r.stages.map Stage.request = r.requests :=
  r.map_request_stagesAfter [] r.conditions

/-- What was asked of an index does not depend on the facts that it holds. -/
theorem AlphaIndex.Serves.of_bare {x : AlphaIndex} {qs : List Request} (h : x.bare.Serves qs) : x.Serves qs := by
  have hbare : ∀ {a : AlphaId} {m : AlphaMemory}, x.get? a = some m → x.bare.get? a = some m.bare := fun hm => by
    rw [get?_bare, hm]
    rfl
  refine ⟨fun k a => ?_, h.known, fun hm => ?_, fun hm => ?_⟩
  · have hk := h.keyed k a
    simp only [byKey_bare, get?_bare, Option.map_eq_some_iff] at hk
    rw [hk]
    constructor
    · rintro ⟨m', ⟨m, hm, rfl⟩, hkey⟩
      exact ⟨m, hm, hkey⟩
    · rintro ⟨m, hm, hkey⟩
      exact ⟨m.bare, ⟨m, hm, rfl⟩, hkey⟩
  · have hfirst := h.first (hbare hm)
    exact hfirst
  · have hexcluded := h.excluded (hbare hm)
    exact hexcluded

/-- Handles do not depend on the facts that an index holds. -/
theorem AlphaIndex.Numbered.of_bare {x : AlphaIndex} (h : x.bare.Numbered) : x.Numbered := by
  intro a m hm
  have hbare : x.bare.get? a = some m.bare := by
    rw [get?_bare, hm]
    rfl
  exact h a m.bare hbare

/-- Whether a property of an alpha index and of the requests so far is kept by one more request and by a new reader. -/
structure AlphaIndex.Kept (P : List Request → AlphaIndex → Prop) : Prop where
  request : ∀ {qs : List Request} {x : AlphaIndex} (q : Request), P qs x →
    P (qs ++ [q]) (x.request q.predicate q.object q.excluded).2
  enlist : ∀ {qs : List Request} {x : AlphaIndex} (a : AlphaId) (join : NodeId), P qs x → P qs (x.modify a (·.addSuccessor join))

namespace Network

/-- A graft leaves the alpha index as it is. -/
theorem alpha_graft {n n' : Network} {up : NodeId} {x : Node} (hg : n.graft up x = .ok n') : n'.alpha = n.alpha := by
  obtain ⟨_, _, -, -, rfl⟩ := graft_eq_ok hg
  rfl

/-- Asking for the memory of a join leaves the alpha memories as they are. -/
theorem alpha_requestMemory {n n' : Network} {join id : NodeId} (hm : n.requestMemory join = .ok (id, n')) :
    n'.alpha = n.alpha := by
  rcases requestMemory_cases hm with rfl | ⟨-, n₁, hg, rfl⟩
  · rfl
  · rw [← alpha_graft hg]

/-- Adding a production leaves the alpha memories as they are. -/
theorem alpha_addProduction {n n' : Network} {join id : NodeId} {r : Rule} (hp : n.addProduction join r = .ok (id, n')) :
    n'.alpha = n.alpha := by
  rw [addProduction_eq] at hp
  obtain ⟨n₁, hg, he⟩ := map_eq_ok_iff.1 hp
  obtain ⟨-, rfl⟩ := Prod.mk.inj he
  rw [register, ← alpha_graft hg]

section Kept

variable {P : List Request → AlphaIndex → Prop} (hP : AlphaIndex.Kept P) {n n' : Network} {qs : List Request} (h : P qs n.alpha)
include hP h

/-- A join that is shared or created asks for no memory. -/
theorem alpha_requestJoin {up id : NodeId} {a : AlphaId} {s : Stage} (hj : n.requestJoin up a s = .ok (id, n')) : P qs n'.alpha := by
  rcases requestJoin_cases hj with rfl | ⟨-, n₁, hg, rfl⟩
  · exact h
  · rw [alpha_graft hg]
    exact hP.enlist a _ h

/-- A stage makes its request. -/
theorem alpha_addStage {up id : NodeId} {s : Stage} (hs : n.addStage up s = .ok (id, n')) : P (qs ++ [s.request]) n'.alpha := by
  obtain ⟨sharing, he⟩ := requestAlpha_eq n s
  rw [addStage, he] at hs
  exact alpha_requestJoin hP (hP.request s.request h) hs

/-- What outlasts requests and readers is so after the further stages of a rule. -/
theorem alpha_addStages {join id : NodeId} {ss : List Stage} (hs : n.addStages join ss = .ok (id, n')) :
    P (qs ++ ss.map Stage.request) n'.alpha := by
  induction ss generalizing n join qs with
  | nil =>
    obtain ⟨-, rfl⟩ := Prod.mk.inj (Except.ok.inj hs)
    rw [List.map_nil, List.append_nil]
    exact h
  | cons s ss ih =>
    obtain ⟨⟨memory, n₁⟩, hm, hs⟩ := bind_eq_ok_iff.1 hs
    obtain ⟨⟨next, n₂⟩, hn, hs⟩ := bind_eq_ok_iff.1 hs
    have h₁ : P qs n₁.alpha := by
      rw [alpha_requestMemory hm]
      exact h
    rw [List.map_cons, List.append_cons]
    exact ih (alpha_addStage hP h₁ hn) hs

/-- A rule makes the requests of its conditions, in their order. -/
theorem alpha_addRule {r : Rule} {id : NodeId} (ha : n.addRule r = .ok (id, n')) : P (qs ++ r.requests) n'.alpha := by
  obtain ⟨-, s, ss, join, n₁, last, n₂, hstages, hs, hss, hp⟩ := addRule_eq_ok ha
  rw [alpha_addProduction hp, ← r.map_request_stages, hstages, List.map_cons, List.append_cons]
  exact alpha_addStages hP (alpha_addStage hP h hs) hss

end Kept

/-- What is kept, and holds without memories and requests, holds of the alpha index of compiled rules and of all their requests. -/
theorem alpha_addRules {P : List Request → AlphaIndex → Prop} (hP : AlphaIndex.Kept P) (start : P [] .empty) {n : Network}
    {rs : List Rule} (ha : empty.addRules rs = .ok n) : P (rs.flatMap Rule.requests) n.alpha := by
  refine addRules_induction (P := fun n rs => P (rs.flatMap Rule.requests) n.alpha) start ?_ ha
  intro n n' rs r new _ _ h he
  rw [List.flatMap_append, List.flatMap_singleton]
  exact alpha_addRule hP h he

/-- That an index serves its requests outlasts requests and readers. -/
theorem kept_serves : AlphaIndex.Kept fun qs x => x.Serves qs where
  request q h := h.request q
  enlist a join h := by
    refine h.modify a fun m => ?_
    unfold AlphaMemory.addSuccessor
    split <;> exact ⟨rfl, rfl, rfl⟩

/-- The memories of a network are what its rules have asked for, whatever facts they hold. -/
theorem serves_of_bare {n n₀ : Network} {rs : List Rule} (hr : empty.addRules rs = .ok n₀) (hb : n.bare = n₀) :
    n.alpha.Serves (rs.flatMap Rule.requests) := by
  have h := alpha_addRules kept_serves AlphaIndex.serves_empty hr
  rw [← hb] at h
  exact AlphaIndex.Serves.of_bare h

/-- That the handles of memories are their positions outlasts requests and readers. -/
theorem kept_numbered : AlphaIndex.Kept fun _ x => x.Numbered where
  request q h := AlphaIndex.numbered_request h q.predicate q.object q.excluded
  enlist a join h := by
    refine AlphaIndex.numbered_modify h a fun m => ?_
    unfold AlphaMemory.addSuccessor
    split <;> rfl

/-- The memories of a network have their positions as their handles, whatever facts they hold. -/
theorem numbered_of_bare {n n₀ : Network} {rs : List Rule} (hr : empty.addRules rs = .ok n₀) (hb : n.bare = n₀) :
    n.alpha.Numbered := by
  have h := alpha_addRules kept_numbered AlphaIndex.numbered_empty hr
  rw [← hb] at h
  exact AlphaIndex.Numbered.of_bare h

/-- That no reader is listed twice outlasts requests and readers. -/
theorem kept_nodup_successors :
    AlphaIndex.Kept fun _ x => ∀ {a : AlphaId} {m : AlphaMemory}, x.get? a = some m → m.successors.Nodup where
  request q h a m' hm' := by
    rcases AlphaIndex.get?_request hm' with ⟨m, hm, hs⟩ | ⟨-, hs⟩
    · rw [hs]
      exact h hm
    · rw [hs]
      exact List.nodup_nil
  enlist b join h a m' hm' := by
    rw [AlphaIndex.get?_modify] at hm'
    split at hm'
    · obtain ⟨m, hm, rfl⟩ := Option.map_eq_some_iff.1 hm'
      exact AlphaMemory.nodup_successors_addSuccessor (h hm) join
    · exact h hm'

/-- A memory lists each of its readers once. -/
theorem nodup_successors_addRules {n : Network} {rs : List Rule} (ha : empty.addRules rs = .ok n) {a : AlphaId} {m : AlphaMemory}
    (hm : n.alpha.get? a = some m) : m.successors.Nodup :=
  alpha_addRules kept_nodup_successors (by intro a m hm; nomatch hm) ha hm

end Network

end TripleRules

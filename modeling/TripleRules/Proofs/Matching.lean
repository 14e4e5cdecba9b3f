import TripleRules.Proofs.Mentions
import TripleRules.Proofs.NaiveJoin

/-!
# Tuples and substitutions

The facts of a tuple that joins let through agree on the variables of the conditions: a test compares each mention of a variable with
the nearest one before. The other way round, the facts that a substitution asks for pass every test. What the alpha memories let
through is not as tight. A fact reaches the memory of a condition if they share a key, and an instance of a condition shares its key.
-/

namespace TripleRules

/-! ## Keys -/

/-- The keys of a fact: that of its predicate and object, and that of its predicate. -/
def Fact.keys (f : Fact) : List String := [constantKey f.predicate f.object, f.predicate.text]

/-- A fact in the memory of a condition has the key of the condition. -/
theorem AlphaIndex.key_mem_of_route {x : AlphaIndex} (h : x.Keyed) {c : Condition} {f : Fact} {a : AlphaId}
    (hc : x.byKey.find? c.key = some a) (ha : a ∈ x.route f) : c.key ∈ f.keys := by
  rcases mem_route.1 ha with hfind | ⟨hfind, -⟩
  · rw [← (h.find?_eq_some_iff hc _).1 hfind]
    exact List.mem_cons_self
  · rw [← (h.find?_eq_some_iff hc _).1 hfind]
    exact List.mem_cons_of_mem _ (List.mem_singleton_self _)

/-- An instance of a condition goes to the memory of the condition, unless the memory keeps its object out. -/
theorem AlphaIndex.mem_route_of_apply {x : AlphaIndex} {σ : String → Term} {c : Condition} {a : AlphaId}
    (hc : x.byKey.find? c.key = some a) (hex : c.object.isVar = true → x.excludes a (c.apply σ).object = false) :
    a ∈ x.route (c.apply σ) := by
  rw [mem_route]
  cases ho : c.object with
  | var name =>
    rw [Condition.key, ho] at hc
    exact Or.inr ⟨hc, hex (by rw [ho]; rfl)⟩
  | const term =>
    rw [Condition.key, ho] at hc
    left
    rw [Condition.apply, ho]
    exact hc

/-! ## Tests -/

namespace Network

variable {n : Network} (hw : n.Wired) {id : NodeId} {js : List JoinNode} (hp : n.Path topNode id js)
include hw hp

/-- The facts of a tuple that joins let through agree on the variables of the conditions: they pass the tests. -/
theorem agrees_of_joined {x : AlphaIndex} {fs gs : List Fact} (hj : Joined x fs js.reverse gs) :
    Agrees (pairs (js.reverse.map (·.condition)) gs) := by
  refine agrees_of_passesTests ⟨by rw [List.length_map, hj.length], fun i c g hc hg t ht => ?_⟩
  rw [List.getElem?_map] at hc
  obtain ⟨j, hji, rfl⟩ := Option.map_eq_some_iff.1 hc
  have hpos := Condition.levelsUp_pos ht
  rw [← (hp.reaches hw).tests hji] at ht
  obtain ⟨k, e, hk, he, hread⟩ := hj.tested hji hg t ht
  have hi := (List.getElem?_eq_some_iff.1 hg).1
  exact ⟨k, e, by rw [List.length_take]; omega, by rw [List.getElem?_take_of_lt (by omega), he], hread⟩

/-- The facts that a substitution asks for are let through by the joins, if they are inserted and no memory keeps one of them
out. -/
theorem joined_of_apply {fs gs : List Fact} {σ : String → Term} (hg : js.reverse.map (·.condition.apply σ) = gs)
    (hin : ∀ g ∈ gs, g ∈ fs)
    (hex : ∀ (k : Nat) (j : JoinNode) (g : Fact), js.reverse[k]? = some j → gs[k]? = some g → j.condition.object.isVar = true →
      n.alpha.excludes j.alpha g.object = false) :
    Joined n.alpha fs js.reverse gs := by
  subst hg
  have hreach := hp.reaches hw
  have hget : ∀ {k : Nat} {g : Fact}, (js.reverse.map (·.condition.apply σ))[k]? = some g →
      ∃ j, js.reverse[k]? = some j ∧ j.condition.apply σ = g := by
    intro k g hk
    rw [List.getElem?_map] at hk
    exact Option.map_eq_some_iff.1 hk
  refine ⟨List.length_map _, hin, fun {i j g} hj hg => ?_, fun {i j g} hj hg t ht => ?_⟩
  · obtain ⟨j', hj', rfl⟩ := hget hg
    obtain rfl := Option.some.inj (hj.symm.trans hj')
    exact AlphaIndex.mem_route_of_apply (hreach.alpha j (List.mem_of_getElem? hj)) (hex i j _ hj hg)
  · obtain ⟨j', hj', rfl⟩ := hget hg
    obtain rfl := Option.some.inj (hj.symm.trans hj')
    -- the test of a variable looks at the nearest mention of it, where the fact has the same term
    rw [hreach.tests hj, Condition.mem_tests] at ht
    obtain ⟨field, name, distance, old, hvar, hm, rfl⟩ := ht
    have hi := (List.getElem?_eq_some_iff.1 hj).1
    have hlen : ((js.reverse.map (·.condition)).take i).length = ((js.reverse.map (·.condition.apply σ)).take i).length := by
      simp
    rw [← map_fst_pairs hlen] at hm
    obtain ⟨p, hpn, hslot, -⟩ := termOf?_of_mention hm
    have hb := nearestMention?_bounds hm
    rw [map_fst_pairs hlen, List.length_reverse, List.length_take, List.length_map] at hb
    obtain ⟨k, hk⟩ : ∃ k, k + distance = i := ⟨i - distance, by omega⟩
    have hgk := getElem?_pairs hlen hb.1 (k := k) (by rw [List.length_take, List.length_map]; omega) hpn
    have hpair : p.2 = p.1.apply σ := by
      have hmem := List.mem_of_getElem? hpn
      rw [pairs, List.mem_reverse, ← List.map_take, ← List.map_take, List.zip_map', List.mem_map] at hmem
      obtain ⟨j', -, rfl⟩ := hmem
      rfl
    rw [List.getElem?_take] at hgk
    refine ⟨k, p.2, hk, ?_, ?_⟩
    · split at hgk
      · exact hgk
      · cases hgk
    · rw [hpair, read_apply, read_apply, hslot, Slot.varName?_eq_some.1 hvar]

end Network

end TripleRules

import TripleRules.Proofs.Runs

/-!
# Intake

A fact that is new to the batch goes to the memories that it is routed to, waits at the joins that read them, and all that follows is
done. So after each insertion every pair that meets is stored, and the memories hold exactly the facts that are routed to them. A
reset leaves a clean network, from which a batch starts.
-/

namespace TripleRules.Network

/-! ## The network between two facts -/

/-- A network after some facts of a batch. The facts are distinct, and each has arrived in the memories that it is routed to and in
no others. -/
structure Finished (n : Network) : Prop extends Saturated n where
  facts_nodup : n.facts.toList.Nodup
  arrived_iff : ∀ {a : AlphaId} {g : FactId}, g ∈ n.arrived a ↔ ∃ f, n.facts[g]? = some f ∧ a ∈ n.alpha.route f

/-- A network without a batch: there is no token but the root and no fact, no fact was seen and no pair is stored, no rule is
satisfied and nothing waits, nothing is recorded, and only the top node holds a token, the root. -/
structure Clean (n : Network) : Prop where
  tokens : n.tokens = .empty
  facts : n.facts = #[]
  seen : n.seen = ∅
  stored : n.stored = ∅
  satisfied : n.satisfied = .empty
  pending : n.pending = []
  touchedAlphas : n.touchedAlphas = []
  touchedNodes : n.touchedNodes = []
  held : ∀ {id : NodeId}, id ≠ topNode → n.held id = []
  arrived : ∀ a : AlphaId, n.arrived a = []

/-- The top node holds the root and nothing else. -/
theorem Tree.held_top {n : Network} (h : n.Tree) : n.held topNode = [rootToken] := by
  obtain ⟨cs, hcs⟩ := h.top
  rw [held_eq hcs]
  rfl

section

variable {n : Network} (hw : n.Wired) (h : n.Clean)
include hw h

/-- Without a batch the root is all that is held, by the top node. -/
theorem Clean.eq_of_held {id : NodeId} {t : TokenId} (ht : t ∈ n.held id) : id = topNode ∧ t = rootToken := by
  by_cases hid : id = topNode
  · subst hid
    rw [hw.held_top, List.mem_singleton] at ht
    exact ⟨rfl, ht⟩
  · rw [h.held hid] at ht
    exact absurd ht List.not_mem_nil

/-- The top node has no parent, and the others hold nothing. -/
theorem Clean.held_of_parent {id up : NodeId} (hup : n.parentOf id = some up) : n.held id = [] := by
  obtain ⟨x, hx, hp⟩ := parentOf_eq_some.1 hup
  refine h.held ?_
  rintro rfl
  rw [hw.not_parent_top hx] at hp
  cases hp

/-- Without a batch no production holds a token. -/
theorem Clean.held_production {id : NodeId} {p : ProductionNode} (hp : n.nodes[id]? = some (.production p)) : n.held id = [] :=
  h.held_of_parent hw (parentOf_eq_some.2 ⟨_, hp, rfl⟩)

/-- Without a batch a network is paired. -/
theorem paired_of_clean : n.Paired where
  grounded := by
    rw [h.tokens]
    exact TokenStore.grounded_empty
  owner_iff {t} := by
    rw [h.tokens]
    constructor
    · intro ht
      obtain rfl := Nat.le_zero.1 ht
      exact ⟨topNode, by rw [hw.held_top]; exact List.mem_singleton_self _⟩
    · rintro ⟨id, ht⟩
      rw [(h.eq_of_held hw ht).2]
      exact Nat.zero_le _
  owner_unique {t id id'} ht ht' := by rw [(h.eq_of_held hw ht).1, (h.eq_of_held hw ht').1]
  nodup id := by
    by_cases hid : id = topNode
    · subst hid
      rw [hw.held_top]
      simp
    · rw [h.held hid]
      exact List.nodup_nil
  distinct {id t t'} ht ht' _ _ := by rw [(h.eq_of_held hw ht).2, (h.eq_of_held hw ht').2]
  justified {id up j t} hup _ ht := by
    rw [h.held_of_parent hw hup] at ht
    exact absurd ht List.not_mem_nil
  stored_iff {id p f} := by
    rw [h.stored, PlacementSet.contains_empty]
    refine ⟨fun hf => absurd hf Bool.false_ne_true, ?_⟩
    rintro ⟨t, ht, htp, -⟩
    rw [(h.eq_of_held hw ht).2, TokenStore.parent?_root] at htp
    cases htp
  arrived_lt {a f} hf := by
    rw [h.arrived] at hf
    exact absurd hf List.not_mem_nil

/-- Without a batch a network is marked. -/
theorem marked_of_clean : n.Marked where
  flagged_iff t := by
    have hflag : n.tokens.isFlagged t = false := by
      rw [h.tokens, TokenStore.isFlagged, TokenStore.link?_empty]
      rfl
    rw [hflag]
    refine ⟨fun hf => absurd hf Bool.false_ne_true, ?_⟩
    rintro ⟨-, id, p, u, hp, hu, -⟩
    rw [h.held_production hw hp] at hu
    exact absurd hu List.not_mem_nil
  satisfied_some {name id} hs := by
    rw [h.satisfied] at hs
    cases hs
  satisfied_of {id p} hp hne := absurd (h.held_production hw hp) hne
  satisfied_newest {name id} hs := by
    rw [h.satisfied] at hs
    cases hs

omit hw in
/-- Without a batch nothing is known. -/
theorem known_of_clean : n.Known where
  seen_iff := by
    intro f g
    rw [h.seen, h.facts, Std.TreeMap.getElem?_emptyc]
    simp

/-- Without a batch there is nothing to do. -/
theorem finished_of_clean : n.Finished := by
  have hrecorded : n.Recorded := ⟨fun hid hne => absurd (h.held hid) hne, fun {a} hne => absurd (h.arrived a) hne⟩
  refine ⟨⟨⟨hw, paired_of_clean hw h, marked_of_clean hw h, hrecorded, known_of_clean h, ?_⟩, h.pending, ?_⟩, ?_, ?_⟩
  · rw [h.pending]
    exact fun a ha => absurd ha List.not_mem_nil
  · intro join j t f _ hm
    have hf := hm.fact
    rw [h.arrived] at hf
    exact absurd hf List.not_mem_nil
  · rw [h.facts]
    exact List.nodup_nil
  · intro a g
    rw [h.arrived, h.facts]
    simp

end

/-! ## A fact arrives -/

/-- The network with one more fact, which has not arrived anywhere yet. -/
def withFact (n : Network) (f : Fact) : Network :=
  { n with
    seen := n.seen.insert f n.facts.size
    facts := n.facts.push f }

/-- A new fact meets nothing before it has arrived, and the others meet what they met. -/
theorem meets_withFact {n : Network} (h : n.Paired) (hw : n.Wired) (f : Fact) (j : JoinNode) (t : TokenId) (g : FactId) :
    (n.withFact f).Meets j t g ↔ n.Meets j t g := by
  have hpasses : t ∈ n.held j.parent → g ∈ n.arrived j.alpha → (n.withFact f).passes j.tests t g = n.passes j.tests t g := by
    intro ht hg
    have hold : ∀ {k : FactId}, k < n.facts.size → (n.facts.push f)[k]? = n.facts[k]? := fun hk => by
      rw [Array.getElem?_push, if_neg (Nat.ne_of_lt hk)]
    have hle := h.le_of_held ht
    have hchain : ∀ k ∈ n.tokens.chainFacts t, (n.withFact f).facts[k]? = n.facts[k]? := fun k hk =>
      hold (h.lt_of_mem_chainFacts hw hle hk)
    have hgrounded : (n.withFact f).tokens.Grounded := h.grounded
    exact passes_congr h.grounded hgrounded hle hle rfl (hold (h.arrived_lt hg)) hchain _
  constructor
  · intro hm
    exact ⟨hm.token, hm.fact, by rw [← hpasses hm.token hm.fact]; exact hm.passes⟩
  · intro hm
    exact ⟨hm.token, hm.fact, by rw [hpasses hm.token hm.fact]; exact hm.passes⟩

/-- A fact that is new to the batch is known by the next handle, and the others by theirs. -/
theorem known_withFact {n : Network} (h : n.Known) {f : Fact} (hf : f ∉ n.facts) : (n.withFact f).Known where
  seen_iff := by
    intro f' g
    have hseen : (n.withFact f).seen[f']? = if f' = f then some n.facts.size else n.seen[f']? := FactTable.getElem?_insert _ _ _ _
    have hfacts : (n.withFact f).facts[g]? = if g = n.facts.size then some f else n.facts[g]? := Array.getElem?_push
    rw [hseen, hfacts]
    by_cases hf' : f' = f
    · subst hf'
      have hold : n.facts[g]? ≠ some f' := fun hg => hf (Array.mem_of_getElem? hg)
      by_cases hg : g = n.facts.size
      · simp [hg]
      · simp [hg, hold, Ne.symm hg]
    · by_cases hg : g = n.facts.size
      · have hnone : n.seen[f']? ≠ some g := fun hs => by
          have hlt := (Array.getElem?_eq_some_iff.1 (h.seen_iff.1 hs)).1
          exact absurd hg (Nat.ne_of_lt hlt)
        rw [if_neg hf', if_pos hg]
        exact ⟨fun hs => absurd hs hnone, fun hs => absurd (Option.some.inj hs).symm hf'⟩
      · rw [if_neg hf', if_neg hg]
        exact h.seen_iff

/-- A network takes a new fact in, before it has arrived anywhere. -/
theorem sound_withFact {n : Network} (h : n.Sound) {f : Fact} (hf : f ∉ n.facts) : (n.withFact f).Sound := by
  have hpaired : (n.withFact f).Paired := {
    h.toPaired with
    justified := fun hup hj ht => by
      obtain ⟨l, hl, hx, hy, hm⟩ := h.justified hup hj ht
      exact ⟨l, hl, hx, hy, (meets_withFact h.toPaired h.toWired f _ _ _).2 hm⟩
    arrived_lt := fun hg => by
      rw [withFact, Array.size_push]
      exact Nat.lt_succ_of_lt (h.arrived_lt hg) }
  refine ⟨h.toWired.of_bare rfl, hpaired, ⟨h.flagged_iff, h.satisfied_some, h.satisfied_of, h.satisfied_newest⟩, ⟨h.nodes, h.alphas⟩,
    known_withFact h.toKnown hf, ?_⟩
  exact fun a ha => h.waits a ha

/-- Entering a fact in the list of facts sets nothing off. -/
theorem covered_withFact {n : Network} (h : n.Sound) (hc : n.Covered) (f : Fact) : (n.withFact f).Covered := fun hj hm =>
  hc hj ((meets_withFact h.toPaired h.toWired f _ _ _).1 hm)

/-- The network after a fact has arrived in an alpha memory. -/
def withArrival (n : Network) (g : FactId) (a : AlphaId) (m : AlphaMemory) : Network :=
  { n with
    alpha := n.alpha.modify a (·.receive g)
    touchedAlphas := record n.touchedAlphas a
    pending := (m.successors.map (Activation.right · g)).reverse ++ n.pending }

/-- What the arrival of a fact in a memory does. -/
theorem receive_eq {n : Network} {a : AlphaId} {m : AlphaMemory} (hm : n.alpha.get? a = some m) (g : FactId) :
    receive g n a = .ok (n.withArrival g a m) := by
  simp only [receive, hm, withArrival]

/-- A fact that has arrived somewhere has arrived in a memory. -/
theorem receive_eq_ok {n n' : Network} {g : FactId} {a : AlphaId} (he : receive g n a = .ok n') :
    ∃ m, n.alpha.get? a = some m ∧ n' = n.withArrival g a m := by
  cases hm : n.alpha.get? a with
  | none =>
    rw [receive, hm] at he
    cases he
  | some m =>
    rw [receive_eq hm] at he
    exact ⟨m, rfl, (Except.ok.inj he).symm⟩

section

variable {n : Network} {g : FactId} {a : AlphaId} {m : AlphaMemory}

/-- An arrival leaves the compiled rules as they are. -/
theorem bare_withArrival : (n.withArrival g a m).bare = n.bare := by
  have hx : (n.alpha.memories.modify a (·.receive g)).map AlphaMemory.bare = n.alpha.memories.map AlphaMemory.bare := by
    refine Array.map_modify_of_eq ?_ _ _
    exact fun m => rfl
  simp only [withArrival, bare, AlphaIndex.bare, AlphaIndex.modify, hx]

variable (hm : n.alpha.get? a = some m)
include hm

/-- The fact arrives in the memory, after those that were there, and nowhere else. -/
theorem arrived_withArrival (b : AlphaId) : (n.withArrival g a m).arrived b = n.arrived b ++ if a = b then [g] else [] := by
  have ha : (n.withArrival g a m).alpha.get? b = if a = b then (n.alpha.get? b).map (·.receive g) else n.alpha.get? b :=
    AlphaIndex.get?_modify _ _ _ _
  rw [arrived, ha]
  split
  · rename_i hb
    subst hb
    rw [arrived_eq hm, hm]
    simp [AlphaMemory.receive]
  · rw [List.append_nil, arrived]

/-- The fact arrives in the memory, and nothing else does. -/
theorem mem_arrived_withArrival {b : AlphaId} {k : FactId} :
    k ∈ (n.withArrival g a m).arrived b ↔ k ∈ n.arrived b ∨ (b = a ∧ k = g) := by
  rw [arrived_withArrival hm, List.mem_append]
  by_cases hb : a = b
  · simp [hb]
  · simp [hb, Ne.symm hb]

/-- What meets after the arrival met before, or is about the fact and a reader of the memory. -/
theorem meets_withArrival (j : JoinNode) (t : TokenId) (k : FactId) : (n.withArrival g a m).Meets j t k ↔
    n.Meets j t k ∨ (t ∈ n.held j.parent ∧ (j.alpha = a ∧ k = g) ∧ n.passes j.tests t k = true) := by
  constructor
  · intro h
    rcases (mem_arrived_withArrival hm).1 h.fact with hk | hk
    · exact Or.inl ⟨h.token, hk, h.passes⟩
    · exact Or.inr ⟨h.token, hk, h.passes⟩
  · rintro (h | ⟨ht, hk, hp⟩)
    · exact ⟨h.token, (mem_arrived_withArrival hm).2 (Or.inl h.fact), h.passes⟩
    · exact ⟨ht, (mem_arrived_withArrival hm).2 (Or.inr hk), hp⟩

/-- The arrival waits at the readers of the memory. -/
theorem mem_pending_withArrival (hw : n.Wired) {x : Activation} : x ∈ (n.withArrival g a m).pending ↔
    (∃ join j, x = .right join g ∧ n.nodes[join]? = some (.join j) ∧ j.alpha = a) ∨ x ∈ n.pending := by
  have hp : (n.withArrival g a m).pending = (m.successors.map (Activation.right · g)).reverse ++ n.pending := rfl
  rw [hp, List.mem_append, List.mem_reverse, List.mem_map]
  simp only [hw.successors hm]
  refine or_congr_left ⟨?_, ?_⟩
  · rintro ⟨join, ⟨j, hj, ha⟩, rfl⟩
    exact ⟨join, j, rfl, hj, ha⟩
  · rintro ⟨join, j, rfl, hj, ha⟩
    exact ⟨join, ⟨j, hj, ha⟩, rfl⟩

/-- An arrival keeps a network sound. -/
theorem sound_withArrival (h : n.Sound) (hg : g < n.facts.size) : (n.withArrival g a m).Sound := by
  have hpaired : (n.withArrival g a m).Paired := {
    h.toPaired with
    justified := fun hup hj ht => by
      obtain ⟨l, hl, hx, hy, hmt⟩ := h.justified hup hj ht
      exact ⟨l, hl, hx, hy, (meets_withArrival hm _ _ _).2 (Or.inl hmt)⟩
    arrived_lt := fun hk => by
      rcases (mem_arrived_withArrival hm).1 hk with hk | ⟨-, rfl⟩
      · exact h.arrived_lt hk
      · exact hg }
  refine ⟨h.toWired.of_bare bare_withArrival, hpaired, ⟨h.flagged_iff, h.satisfied_some, h.satisfied_of, h.satisfied_newest⟩,
    ⟨h.nodes, fun {b} hne => ?_⟩, h.toKnown.congr rfl rfl, fun x hx => ?_⟩
  · obtain ⟨k, hk⟩ := List.exists_mem_of_ne_nil _ hne
    refine (mem_record _ _ _).2 ?_
    rcases (mem_arrived_withArrival hm).1 hk with hk | ⟨rfl, -⟩
    · exact Or.inr (h.alphas (List.ne_nil_of_mem hk))
    · exact Or.inl rfl
  · rcases (mem_pending_withArrival hm h.toWired).1 hx with ⟨join, j, rfl, hj, ha⟩ | hx
    · exact ⟨j, hj, (mem_arrived_withArrival hm).2 (Or.inr ⟨ha, rfl⟩)⟩
    · have hw := h.waits x hx
      cases x with
      | right join k =>
        obtain ⟨j, hj, hk⟩ := hw
        exact ⟨j, hj, (mem_arrived_withArrival hm).2 (Or.inl hk)⟩
      | left memory t => exact hw

/-- What was covered before an arrival is covered after it. -/
theorem covered_withArrival (hw : n.Wired) {P : TokenId → FactId → Prop} (hc : n.CoveredFor P) :
    (n.withArrival g a m).CoveredFor P := by
  intro join j t k hP hj hmt
  rcases (meets_withArrival hm j t k).1 hmt with hold | ⟨-, ⟨ha, rfl⟩, -⟩
  · rcases hc hP hj hold with hd | hr | hl
    · exact Or.inl hd
    · exact Or.inr (Or.inl ((mem_pending_withArrival hm hw).2 (Or.inr hr)))
    · exact Or.inr (Or.inr ((mem_pending_withArrival hm hw).2 (Or.inr hl)))
  · exact Or.inr (Or.inl ((mem_pending_withArrival hm hw).2 (Or.inl ⟨join, j, rfl, hj, ha⟩)))

end

/-- A fact arrives in memories that are there. -/
theorem receives_ok {n : Network} (h : n.Sound) {g : FactId} (hg : g < n.facts.size) (as : List AlphaId)
    (has : ∀ a ∈ as, a < n.alpha.size) :
    ∃ n', as.foldlM (receive g) n = .ok n' ∧ n'.Sound ∧ (∀ P, n.CoveredFor P → n'.CoveredFor P) ∧ n'.bare = n.bare ∧
      n'.facts = n.facts ∧ ∀ b k, k ∈ n'.arrived b ↔ k ∈ n.arrived b ∨ (b ∈ as ∧ k = g) := by
  induction as generalizing n with
  | nil => exact ⟨n, rfl, h, fun _ hc => hc, rfl, rfl, fun b k => by simp⟩
  | cons a as ih =>
    obtain ⟨m, hm⟩ : ∃ m, n.alpha.get? a = some m := ⟨_, Array.getElem?_eq_getElem (has a List.mem_cons_self)⟩
    obtain ⟨n', he, h', hc', hb', hf', harr⟩ := ih (sound_withArrival hm h hg) hg fun b hb => by
        rw [size_alpha_of_bare bare_withArrival]
        exact has b (List.mem_cons_of_mem _ hb)
    refine ⟨n', ?_, h', fun P hc => hc' P (covered_withArrival hm h.toWired hc), hb'.trans bare_withArrival, hf', fun b k => ?_⟩
    · rw [List.foldlM_cons, receive_eq hm]
      exact he
    · rw [harr, mem_arrived_withArrival hm, List.mem_cons]
      tauto

/-- Where a fact arrives, it waits at joins, and no token changes. -/
theorem receives_pending {n n' : Network} {g : FactId} {as : List AlphaId} (he : as.foldlM (receive g) n = .ok n') :
    n'.tokens = n.tokens ∧ ∀ a ∈ n'.pending, a ∈ n.pending ∨ ∃ join, a = .right join g := by
  induction as generalizing n with
  | nil =>
    obtain rfl := Except.ok.inj he
    exact ⟨rfl, fun a ha => Or.inl ha⟩
  | cons a as ih =>
    rw [List.foldlM_cons] at he
    obtain ⟨n₁, he₁, he⟩ := bind_eq_ok_iff.1 he
    obtain ⟨m, -, rfl⟩ := receive_eq_ok he₁
    obtain ⟨ht, hp⟩ := ih he
    refine ⟨ht, fun x hx => ?_⟩
    rcases hp x hx with hx | hx
    · rcases List.mem_append.1 hx with hx | hx
      · obtain ⟨join, -, rfl⟩ := List.mem_map.1 (List.mem_reverse.1 hx)
        exact Or.inr ⟨join, rfl⟩
      · exact Or.inl hx
    · exact Or.inr hx

/-- The network after a fact has arrived in the memories that it is routed to, before anything follows from it. -/
def arrive (n : Network) (f : Fact) : Outcome Network := (n.alpha.route f).foldlM (receive n.facts.size) (n.withFact f)

/-- A fact can be taken in. It has arrived where it is routed to then, and whatever has to do with it there waits. -/
theorem arrive_ok {n : Network} (h : n.Sound) {f : Fact} (hf : f ∉ n.facts) : ∃ n', n.arrive f = .ok n' ∧ n'.Sound ∧
    (∀ P, (n.withFact f).CoveredFor P → n'.CoveredFor P) ∧ n'.bare = n.bare ∧ n'.facts = n.facts.push f ∧
    ∀ a g, g ∈ n'.arrived a ↔ g ∈ n.arrived a ∨ (a ∈ n.alpha.route f ∧ g = n.facts.size) := by
  refine receives_ok (sound_withFact h hf) ?_ (n.alpha.route f) fun a ha => ?_
  · rw [withFact, Array.size_push]
    exact Nat.lt_succ_self _
  · obtain ⟨m, hm⟩ := AlphaIndex.exists_get?_of_mem_route h.keyed ha
    exact AlphaIndex.lt_size_of_get? hm

/-! ## Insertions -/

/-- Inserting a fact that was not seen yet is taking it in and doing all that follows. -/
theorem addFact_eq {n : Network} {f : Fact} (hf : ¬ n.seen.contains f = true) :
    n.addFact f = n.arrive f >>= fun n₀ => n₀.run >>= fun m => .ok (true, m) := by
  rw [addFact, if_neg hf]
  rfl

/-- Inserting a fact succeeds. A fact of the batch changes nothing; any other is a fact from then on, and has arrived in the memories
that it is routed to. Nothing waits afterwards, and nothing is left out where nothing was left out before. -/
theorem addFact_cases {n : Network} (h : n.Sound) (f : Fact) :
    (f ∈ n.facts ∧ n.addFact f = .ok (false, n)) ∨
    (f ∉ n.facts ∧ ∃ n', n.addFact f = .ok (true, n') ∧ n'.Sound ∧ n'.pending = [] ∧ (n.Covered → n'.Covered) ∧
      n'.bare = n.bare ∧ n'.facts = n.facts.push f ∧
      ∀ a g, g ∈ n'.arrived a ↔ g ∈ n.arrived a ∨ (a ∈ n.alpha.route f ∧ g = n.facts.size)) := by
  by_cases hin : f ∈ n.facts
  · exact Or.inl ⟨hin, by rw [addFact, if_pos (h.contains_iff.2 hin)]⟩
  · obtain ⟨n₁, he₁, h₁, hc₁, hb₁, hf₁, harr₁⟩ := arrive_ok h hin
    obtain ⟨n₂, he₂, h₂, hp₂, hc₂, hb₂, ha₂, hf₂⟩ := run_ok h₁
    have hcov : n.Covered → n₁.Covered := fun hc => covered_iff.2 (hc₁ _ (covered_iff.1 (covered_withFact h hc f)))
    refine Or.inr ⟨hin, n₂, ?_, h₂, hp₂, fun hc => hc₂ (hcov hc), hb₂.trans hb₁, hf₂.trans hf₁, fun a g => ?_⟩
    · rw [addFact_eq (mt h.contains_iff.1 hin), he₁]
      simp only [Bind.bind, Except.bind, he₂]
    · rw [arrived, ha₂]
      exact harr₁ a g

/-- After each insertion all that follows from the facts is done. -/
theorem addFact_ok {n : Network} (h : n.Finished) (f : Fact) :
    ∃ b n', n.addFact f = .ok (b, n') ∧ n'.Finished ∧ n'.bare = n.bare ∧ ∀ g, g ∈ n'.facts ↔ g = f ∨ g ∈ n.facts := by
  have hcov : n.Covered := fun hj hm => Or.inl (h.delivered hj hm)
  rcases addFact_cases h.toSound f with ⟨hin, he⟩ | ⟨hnew, n', he, h', hp, hc, hb, hfacts, harr⟩
  · refine ⟨false, n, he, h, rfl, fun g => ⟨Or.inr, ?_⟩⟩
    rintro (rfl | hg)
    · exact hin
    · exact hg
  · refine ⟨true, n', he, ⟨saturated_of_covered h' (hc hcov) hp, ?_, ?_⟩, hb, fun g => ?_⟩
    · rw [hfacts, Array.toList_push]
      refine List.nodup_append.2 ⟨h.facts_nodup, by simp, fun x hx y hy hxy => hnew ?_⟩
      rw [← List.mem_singleton.1 hy, ← hxy]
      exact Array.mem_toList_iff.1 hx
    · intro a g
      rw [harr, h.arrived_iff, hfacts, Array.getElem?_push]
      constructor
      · rintro (⟨f', hf', ha⟩ | ⟨ha, rfl⟩)
        · have hne : g ≠ n.facts.size := Nat.ne_of_lt (Array.getElem?_eq_some_iff.1 hf').1
          exact ⟨f', by rw [if_neg hne, hf'], by rw [route_of_bare hb]; exact ha⟩
        · exact ⟨f, if_pos rfl, by rw [route_of_bare hb]; exact ha⟩
      · rintro ⟨f', hf', ha⟩
        rw [route_of_bare hb] at ha
        split at hf'
        · rename_i hg
          obtain rfl := Option.some.inj hf'
          exact Or.inr ⟨ha, hg⟩
        · exact Or.inl ⟨f', hf', ha⟩
    · rw [hfacts, Array.mem_push, or_comm]

/-- Inserting facts succeeds, and the batch has these facts besides those that it had. -/
theorem addFacts_ok {n : Network} (h : n.Finished) (fs : List Fact) :
    ∃ n', n.addFacts fs = .ok n' ∧ n'.Finished ∧ n'.bare = n.bare ∧ ∀ g, g ∈ n'.facts ↔ g ∈ fs ∨ g ∈ n.facts := by
  induction fs generalizing n with
  | nil => exact ⟨n, rfl, h, rfl, fun g => by simp⟩
  | cons f fs ih =>
    obtain ⟨b, n₁, he₁, h₁, hb₁, hf₁⟩ := addFact_ok h f
    obtain ⟨n₂, he₂, h₂, hb₂, hf₂⟩ := ih h₁
    refine ⟨n₂, ?_, h₂, hb₂.trans hb₁, fun g => ?_⟩
    · rw [addFacts, List.foldlM_cons, he₁]
      exact he₂
    · rw [hf₂, hf₁, List.mem_cons]
      tauto

end TripleRules.Network

import TripleRules.Proofs.Delivery

/-!
# Activations

No pair is forgotten: two that meet at a join are stored below it, or the fact waits at the join, or the token waits in the memory
above. An activation stores what it is about with all that it meets at that moment; what comes up later waits on its own account.
So each activation keeps this, and when no activation is left every pair that meets is stored.
-/

namespace TripleRules.Network

/-- A pair is stored in every node below a join. -/
def Delivered (n : Network) (j : JoinNode) (t : TokenId) (f : FactId) : Prop :=
  ∀ child ∈ j.children, n.stored.contains ⟨child, t, f⟩ = true

/-- Two that meet at a join are stored below it, or one of them waits. -/
def Covered (n : Network) : Prop :=
  ∀ {join : NodeId} {j : JoinNode} {t : TokenId} {f : FactId}, n.nodes[join]? = some (.join j) → n.Meets j t f →
    n.Delivered j t f ∨ .right join f ∈ n.pending ∨ .left j.parent t ∈ n.pending

/-- Of the pairs that meet at a join, those that are singled out are stored below it, or one of the two waits. -/
def CoveredFor (n : Network) (P : TokenId → FactId → Prop) : Prop :=
  ∀ ⦃join : NodeId⦄ ⦃j : JoinNode⦄ ⦃t : TokenId⦄ ⦃f : FactId⦄, P t f → n.nodes[join]? = some (.join j) → n.Meets j t f →
    n.Delivered j t f ∨ .right join f ∈ n.pending ∨ .left j.parent t ∈ n.pending

/-- All pairs are covered if no pair is left out. -/
theorem covered_iff {n : Network} : n.Covered ↔ n.CoveredFor fun _ _ => True :=
  ⟨fun h _ _ _ _ _ hj hm => h hj hm, fun h _ _ _ _ => h trivial⟩

/-- What is delivered stays delivered. -/
theorem Grows.delivered {n n' : Network} (hg : n.Grows n') {j : JoinNode} {t : TokenId} {f : FactId} (hd : n.Delivered j t f) :
    n'.Delivered j t f := fun child hc => hg.stored _ (hd child hc)

/-- Where a pair is stored, a token stands for it. -/
theorem Sound.exists_link_of_delivered {n : Network} (h : n.Sound) {id up : NodeId} {j : JoinNode} (hup : n.parentOf id = some up)
    (hj : n.nodes[up]? = some (.join j)) {p : TokenId} {f : FactId} (hd : n.Delivered j p f) :
    ∃ t ∈ n.held id, ∃ l, n.tokens.link? t = some l ∧ l.parent = p ∧ l.fact = f := by
  obtain ⟨t, ht, hp, hf⟩ := h.stored_iff.1 (hd id ((h.child_iff hj id).2 (parentOf_eq_some.1 hup)))
  obtain ⟨l, hl, -⟩ := h.justified hup hj ht
  rw [TokenStore.parent?_eq_some hl] at hp
  rw [TokenStore.fact?_eq_some hl] at hf
  exact ⟨t, ht, l, hl, Option.some.inj hp, Option.some.inj hf⟩

/-- Steps that each keep a network sound and let it grow do so one after the other, and what each of them achieves lasts. -/
theorem foldlM_ok {α : Type} (step : Network → α → Outcome Network) (post : α → Network → Prop) {n : Network} (h : n.Sound)
    (xs : List α) (hpost : ∀ x n₁ n₂, n₁.Grows n₂ → post x n₁ → post x n₂)
    (hstep : ∀ x ∈ xs, ∀ n₁, n₁.Sound → n.Grows n₁ → ∃ n₂, step n₁ x = .ok n₂ ∧ n₂.Sound ∧ n₁.Grows n₂ ∧ post x n₂) :
    ∃ n', xs.foldlM step n = .ok n' ∧ n'.Sound ∧ n.Grows n' ∧ ∀ x ∈ xs, post x n' := by
  induction xs generalizing n with
  | nil => exact ⟨n, rfl, h, .refl n, fun x hx => absurd hx List.not_mem_nil⟩
  | cons x xs ih =>
    obtain ⟨n₁, he₁, h₁, hg₁, hp₁⟩ := hstep x List.mem_cons_self n h (.refl n)
    obtain ⟨n₂, he₂, h₂, hg₂, hp₂⟩ := ih h₁ fun y hy n₂ h₂ hg₂ => hstep y (List.mem_cons_of_mem _ hy) n₂ h₂ (hg₁.trans hg₂)
    refine ⟨n₂, ?_, h₂, hg₁.trans hg₂, fun y hy => ?_⟩
    · rw [List.foldlM_cons, he₁]
      exact he₂
    · rcases List.mem_cons.1 hy with rfl | hy
      · exact hpost y n₁ n₂ hg₂ hp₁
      · exact hp₂ y hy

/-- Steps that are the same elsewhere as in sound networks, where they succeed, are the same one after the other. -/
theorem foldlM_lift {M : Type → Type} [Monad M] (lift : Outcome Network → M Network) (hpure : ∀ n, lift (.ok n) = pure n)
    (hbind : ∀ (n : Network) (k : Network → M Network), (lift (.ok n) >>= k) = k n) {α : Type}
    {step : Network → α → Outcome Network} {step' : Network → α → M Network} {n : Network} (h : n.Sound) (xs : List α)
    (hstep : ∀ x ∈ xs, ∀ n₁, n₁.Sound → n.Grows n₁ →
      step' n₁ x = lift (step n₁ x) ∧ ∃ n₂, step n₁ x = .ok n₂ ∧ n₂.Sound ∧ n₁.Grows n₂) :
    xs.foldlM step' n = lift (xs.foldlM step n) := by
  induction xs generalizing n with
  | nil => exact (hpure n).symm
  | cons x xs ih =>
    obtain ⟨he, n₁, he₁, h₁, hg₁⟩ := hstep x List.mem_cons_self n h (.refl n)
    rw [List.foldlM_cons, List.foldlM_cons, he, he₁, hbind]
    exact ih h₁ fun y hy n₂ h₂ hg₂ => hstep y (List.mem_cons_of_mem x hy) n₂ h₂ (hg₁.trans hg₂)

theorem joinNode_eq {n : Network} {join : NodeId} {j : JoinNode} (hj : n.nodes[join]? = some (.join j)) :
    n.joinNode join = .ok j := by
  simp only [joinNode, node, hj]

/-- A pair that meets at a join is delivered below it. -/
theorem emit_ok {n : Network} (h : n.Sound) {join : NodeId} {j : JoinNode} {t : TokenId} {f : FactId}
    (hj : n.nodes[join]? = some (.join j)) (hm : n.Meets j t f) :
    ∃ n', n.emit join t f = .ok n' ∧ n'.Sound ∧ n.Grows n' ∧ n'.Delivered j t f := by
  obtain ⟨n', he, h', hg, hd⟩ := foldlM_ok (deliver j.condition t f)
    (fun child n' => n'.stored.contains ⟨child, t, f⟩ = true) h j.children
    (fun child n₁ n₂ hg hc => hg.stored _ hc) fun child hc n₁ h₁ hg₁ =>
      deliver_ok h₁ ((join_iff_of_bare hg₁.bare _ _).2 hj) hc (hg₁.meets h.toPaired h₁.toPaired hm)
  exact ⟨n', by rw [emit, joinNode_eq hj]; exact he, h', hg, hd⟩

/-! ## A fact at a join -/

/-- The tokens that reach a join are those that the node above it holds. -/
theorem leftTokens_eq {n : Network} (h : n.Tree) {join : NodeId} {j : JoinNode} (hj : n.nodes[join]? = some (.join j)) :
    n.leftTokens j.parent = .ok (n.held j.parent) := by
  rcases h.join_parent hj with ⟨cs, hy⟩ | ⟨m, hy⟩
  · rw [held_eq hy, leftTokens, node, hy]
    rfl
  · rw [held_eq hy, leftTokens, node, hy]
    rfl

/-- A fact that arrives at a join is paired with all tokens that it meets there. -/
theorem activateRight_ok {n : Network} (h : n.Sound) {join : NodeId} {j : JoinNode} {f : FactId}
    (hj : n.nodes[join]? = some (.join j)) (hf : f ∈ n.arrived j.alpha) :
    ∃ n', n.activateRight join f = .ok n' ∧ n'.Sound ∧ n.Grows n' ∧ ∀ t, n.Meets j t f → n'.Delivered j t f := by
  obtain ⟨n', he, h', hg, hd⟩ := foldlM_ok (fun n t => n.emit join t f) (fun t n' => n'.Delivered j t f) h
    ((n.held j.parent).filter fun t => n.passes j.tests t f) (fun t n₁ n₂ hg hd => hg.delivered hd)
    fun t ht n₁ h₁ hg₁ => by
      obtain ⟨hheld, hp⟩ := List.mem_filter.1 ht
      exact emit_ok h₁ ((join_iff_of_bare hg₁.bare _ _).2 hj) (hg₁.meets h.toPaired h₁.toPaired ⟨hheld, hf, hp⟩)
  refine ⟨n', ?_, h', hg, fun t hm => hd t (List.mem_filter.2 ⟨hm.token, hm.passes⟩)⟩
  rw [activateRight, joinNode_eq hj]
  simp only [Bind.bind, Except.bind, leftTokens_eq h.toTree hj]
  exact he

/-! ## A token in a memory -/

/-- A token from above is paired with all facts that it meets at a join. -/
theorem extend_ok {n : Network} (h : n.Sound) {join : NodeId} {j : JoinNode} {t : TokenId}
    (hj : n.nodes[join]? = some (.join j)) (ht : t ∈ n.held j.parent) :
    ∃ n', extend t n join = .ok n' ∧ n'.Sound ∧ n.Grows n' ∧ ∀ f, n.Meets j t f → n'.Delivered j t f := by
  obtain ⟨m, hm, -⟩ := (h.keyed _ _).1 (h.join_alpha hj)
  have hfacts : ∀ f, f ∈ m.newestFirst ↔ f ∈ n.arrived j.alpha := by
    intro f
    rw [AlphaMemory.newestFirst, List.mem_reverse, arrived_eq hm]
  obtain ⟨n', he, h', hg, hd⟩ := foldlM_ok (fun n f => n.emit join t f) (fun f n' => n'.Delivered j t f) h
    (m.newestFirst.filter fun f => n.passes j.tests t f) (fun f n₁ n₂ hg hd => hg.delivered hd)
    fun f hf n₁ h₁ hg₁ => by
      obtain ⟨harr, hp⟩ := List.mem_filter.1 hf
      exact emit_ok h₁ ((join_iff_of_bare hg₁.bare _ _).2 hj)
        (hg₁.meets h.toPaired h₁.toPaired ⟨ht, (hfacts f).1 harr, hp⟩)
  refine ⟨n', ?_, h', hg, fun f hmt => hd f (List.mem_filter.2 ⟨(hfacts f).2 hmt.fact, hmt.passes⟩)⟩
  rw [extend, joinNode_eq hj]
  simp only [Bind.bind, Except.bind, hm]
  exact he

/-- What hangs below a memory is a join. -/
theorem Tree.join_of_child {n : Network} (h : n.Tree) {memory : NodeId} {m : MemoryNode} (hm : n.nodes[memory]? = some (.memory m))
    {join : NodeId} (hc : join ∈ m.children) : ∃ j, n.nodes[join]? = some (.join j) ∧ j.parent = memory := by
  obtain ⟨x, hx, hp⟩ := (h.child_iff hm join).1 hc
  obtain ⟨y, hy, hcar⟩ := h.parent_carries hx hp
  obtain rfl := Option.some.inj (hm.symm.trans hy)
  cases x with
  | join j => exact ⟨j, hx, Option.some.inj hp⟩
  | top cs => nomatch hcar
  | memory k => nomatch hcar
  | production p => nomatch hcar

/-- A token in a memory is paired with all facts that it meets at the joins below. -/
theorem activateLeft_ok {n : Network} (h : n.Sound) {memory : NodeId} {m : MemoryNode} {t : TokenId}
    (hm : n.nodes[memory]? = some (.memory m)) (ht : t ∈ n.held memory) :
    ∃ n', n.activateLeft memory t = .ok n' ∧ n'.Sound ∧ n.Grows n' ∧
      ∀ (join : NodeId) j f, n.nodes[join]? = some (.join j) → j.parent = memory → n.Meets j t f → n'.Delivered j t f := by
  obtain ⟨n', he, h', hg, hd⟩ := foldlM_ok (extend t)
    (fun join n' => ∀ (j : JoinNode) (f : FactId), n.nodes[join]? = some (.join j) → n.Meets j t f → n'.Delivered j t f) h
    m.children
    (fun join n₁ n₂ hg hd j f hj hmt => hg.delivered (hd j f hj hmt)) fun join hc n₁ h₁ hg₁ => by
      obtain ⟨j, hj, rfl⟩ := h.join_of_child hm hc
      have hj₁ := (join_iff_of_bare hg₁.bare join j).2 hj
      obtain ⟨n₂, he₂, h₂, hg₂, hd₂⟩ := extend_ok h₁ hj₁ (hg₁.held _ _ ht)
      refine ⟨n₂, he₂, h₂, hg₂, fun k f hk hmt => ?_⟩
      obtain rfl := Node.join.inj (Option.some.inj (hj.symm.trans hk))
      exact hd₂ f (hg₁.meets h.toPaired h₁.toPaired hmt)
  refine ⟨n', ?_, h', hg, fun join j f hj hpar hmt => ?_⟩
  · rw [activateLeft, childrenOf, node, hm]
    exact he
  · refine hd join ((h.child_iff hm join).2 ⟨_, hj, ?_⟩) j f hj hmt
    exact congrArg some hpar

/-! ## One activation -/

/-- What an activation is about is stored with all that it meets. -/
def Settles (n : Network) (a : Activation) (n' : Network) : Prop :=
  ∀ (join : NodeId) j t f, n.nodes[join]? = some (.join j) → n.Meets j t f →
    a = .right join f ∨ a = .left j.parent t → n'.Delivered j t f

/-- Working off an activation succeeds, keeps the network sound and settles what the activation is about. -/
theorem activate_ok {n : Network} (h : n.Sound) {a : Activation} (ha : n.Waits a) :
    ∃ n', n.activate a = .ok n' ∧ n'.Sound ∧ n.Grows n' ∧ n.Settles a n' := by
  cases a with
  | right join f =>
    obtain ⟨j, hj, hf⟩ := ha
    obtain ⟨n', he, h', hg, hd⟩ := activateRight_ok h hj hf
    refine ⟨n', he, h', hg, fun join' k t g hk hm hor => ?_⟩
    obtain ⟨rfl, rfl⟩ : join = join' ∧ f = g := by simpa using hor
    obtain rfl := Node.join.inj (Option.some.inj (hj.symm.trans hk))
    exact hd t hm
  | left memory t =>
    obtain ⟨⟨m, hm⟩, ht⟩ := ha
    obtain ⟨n', he, h', hg, hd⟩ := activateLeft_ok h hm ht
    refine ⟨n', he, h', hg, fun join k u f hk hmt hor => ?_⟩
    obtain ⟨rfl, rfl⟩ : memory = k.parent ∧ t = u := by simpa using hor
    exact hd join k f hk rfl hmt

/-! ## The stack of activations -/

/-- The network with other activations on the stack. -/
def withPending (n : Network) (pending : List Activation) : Network := { n with pending }

/-- What meets at a join does not depend on what waits. -/
theorem meets_withPending (n : Network) (pending : List Activation) (j : JoinNode) (t : TokenId) (f : FactId) :
    (n.withPending pending).Meets j t f ↔ n.Meets j t f :=
  ⟨fun h => ⟨h.token, h.fact, h.passes⟩, fun h => ⟨h.token, h.fact, h.passes⟩⟩

/-- A network that forgets some of what is pending stays sound. -/
theorem sound_withPending {n : Network} (h : n.Sound) {pending : List Activation} (hp : ∀ a ∈ pending, a ∈ n.pending) :
    (n.withPending pending).Sound := by
  have hpaired : (n.withPending pending).Paired := {
    h.toPaired with
    justified := fun hup hj ht => by
      obtain ⟨l, hl, hx, hy, hm⟩ := h.justified hup hj ht
      exact ⟨l, hl, hx, hy, (meets_withPending n pending _ _ _).2 hm⟩ }
  refine ⟨h.toWired.of_bare rfl, hpaired, ⟨h.flagged_iff, h.satisfied_some, h.satisfied_of, h.satisfied_newest⟩, ⟨h.nodes, h.alphas⟩,
    h.toKnown.congr rfl rfl, ?_⟩
  exact fun a ha => h.waits a (hp a ha)

/-- Doing an activation that waits, wherever it waits, keeps a network sound, keeps it covered for the pairs that it was covered for,
and takes one from the work. -/
theorem activate_pending {n : Network} (h : n.Sound) {before after : List Activation} {a : Activation}
    (hp : n.pending = before ++ a :: after) :
    ∃ n', (n.withPending (before ++ after)).activate a = .ok n' ∧ n'.Sound ∧ (∀ P, n.CoveredFor P → n'.CoveredFor P) ∧
      (n.withPending (before ++ after)).Grows n' := by
  have hmem : ∀ b, b ∈ n.pending ↔ b = a ∨ b ∈ before ++ after := by
    intro b
    rw [hp, List.mem_append, List.mem_cons, List.mem_append, or_left_comm]
  have h₀ : (n.withPending (before ++ after)).Sound := sound_withPending h fun b hb => (hmem b).2 (Or.inr hb)
  have hw : (n.withPending (before ++ after)).Waits a := h.waits a ((hmem a).2 (Or.inl rfl))
  obtain ⟨n', he, h', hg, hs⟩ := activate_ok h₀ hw
  refine ⟨n', he, h', fun P hc join j t f hP hj hm => ?_, hg⟩
  have hj₀ : (n.withPending (before ++ after)).nodes[join]? = some (.join j) := (join_iff_of_bare hg.bare join j).1 hj
  -- a token that came up meanwhile waits on its own account
  have hold : t ∈ n.held j.parent ∨ .left j.parent t ∈ n'.pending := by
    rcases h₀.join_parent hj₀ with ⟨cs, hy⟩ | ⟨m, hy⟩
    · obtain ⟨y', hy', hcl⟩ := exists_of_bare hg.bare hy
      have hroot := hm.token
      cases y' with
      | top ds =>
        rw [held_eq hy'] at hroot
        have hy₀ : n.nodes[j.parent]? = some (.top cs) := hy
        rw [held_eq hy₀]
        exact Or.inl hroot
      | join k => nomatch hcl
      | memory k => nomatch hcl
      | production k => nomatch hcl
    · obtain ⟨m', hm'⟩ := memory_of_bare hg.bare hy
      exact hg.held_new hm' hm.token
  rcases hold with ht | hleft
  · have hm₀ := (hg.meets_iff h₀.toPaired h'.toPaired ht).1 hm
    rcases hc hP hj₀ ((meets_withPending _ _ _ _ _).1 hm₀) with hd | hr | hl
    · exact Or.inl (hg.delivered (n := n.withPending (before ++ after)) hd)
    · rcases (hmem _).1 hr with hr | hr
      · exact Or.inl (hs join j t f hj₀ hm₀ (Or.inl hr.symm))
      · exact Or.inr (Or.inl (hg.pending _ hr))
    · rcases (hmem _).1 hl with hl | hl
      · exact Or.inl (hs join j t f hj₀ hm₀ (Or.inr hl.symm))
      · exact Or.inr (Or.inr (hg.pending _ hl))
  · exact Or.inr (Or.inr hleft)

/-- Doing the activation on top of the stack keeps a network sound, keeps it covered if it is, and takes one from the work. -/
theorem activate_top {n : Network} (h : n.Sound) {a : Activation} {rest : List Activation} (hp : n.pending = a :: rest) :
    ∃ n', (n.withPending rest).activate a = .ok n' ∧ n'.Sound ∧ (n.Covered → n'.Covered) ∧ (n.withPending rest).Grows n' := by
  obtain ⟨n', he, h', hc, hg⟩ := activate_pending h (show n.pending = [] ++ a :: rest from hp)
  exact ⟨n', he, h', fun hcov => covered_iff.2 (hc _ (covered_iff.1 hcov)), hg⟩

end TripleRules.Network

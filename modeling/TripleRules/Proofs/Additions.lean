import TripleRules.Proofs.Checks
import TripleRules.Proofs.Placing

/-!
# What an activation adds

An activation stores pairs of one kind only: a fact that arrives at a join is part of each pair that is stored, and so is a token that
arrives in a memory. What it puts on the stack are tokens that it has stored. None of this depends on what the network is like.
-/

namespace TripleRules

namespace TokenStore

/-- The pair that a token stands for; the root stands for none. -/
def pair? (s : TokenStore) (t : TokenId) : Option (TokenId × FactId) := (s.link? t).map fun l => (l.parent, l.fact)

/-- A token stands for the pair in its link. -/
theorem pair?_eq_some {s : TokenStore} {t : TokenId} {l : Link} (h : s.link? t = some l) : s.pair? t = some (l.parent, l.fact) := by
  rw [pair?, h]
  rfl

/-- A push adds a token for its pair, and the others stand for what they stood for. -/
theorem pair?_push (s : TokenStore) (p : TokenId) (f : FactId) (x y : Option String) (t : TokenId) :
    (s.push p f x y).2.pair? t = if t = s.size + 1 then some (p, f) else s.pair? t := by
  rw [pair?, link?_push]
  split <;> rfl

/-- A flag does not change what a token stands for. -/
@[simp] theorem pair?_flag (s : TokenStore) (id t : TokenId) : (s.flag id).pair? t = s.pair? t := by
  rw [pair?, link?_flag, pair?]
  split <;> simp [Function.comp_def]

/-- Flags on a chain do not change what the tokens stand for. -/
@[simp] theorem pair?_flagUpTo (k : Nat) (id : TokenId) (s : TokenStore) (t : TokenId) : (flagUpTo k id s).pair? t = s.pair? t := by
  induction k generalizing id s with
  | zero => rfl
  | succ k ih =>
    rw [flagUpTo]
    split
    · rw [ih, pair?_flag]
    · rfl

end TokenStore

/-- Whether a token that comes up by an activation may stand for a pair: the fact of the activation, or its token, is part of it. -/
def Activation.Yields : Activation → TokenId → FactId → Prop
  | .right _ f, _, g => g = f
  | .left _ t, p, _ => p = t

namespace Network

/-! ## An activation as a sequence of deliveries -/

/-- Pairs of one kind are delivered, one after the other. -/
inductive Delivers (P : TokenId → FactId → Prop) : Network → Network → Prop where
  | refl (n : Network) : Delivers P n n
  | step {c : Condition} {t : TokenId} {f : FactId} {child : NodeId} {n n₁ n' : Network} :
      P t f → deliver c t f n child = .ok n₁ → Delivers P n₁ n' → Delivers P n n'

namespace Delivers

variable {P Q : TokenId → FactId → Prop}

/-- Deliveries after deliveries are deliveries. -/
theorem trans {a b c : Network} (h : Delivers P a b) (h' : Delivers P b c) : Delivers P a c := by
  induction h with
  | refl => exact h'
  | step hp he _ ih => exact .step hp he (ih h')

/-- What is so of each pair that is delivered may be weakened. -/
theorem mono {n n' : Network} (h : Delivers P n n') (hPQ : ∀ p f, P p f → Q p f) : Delivers Q n n' := by
  induction h with
  | refl => exact .refl _
  | step hp he _ ih => exact .step (hPQ _ _ hp) he ih

/-- Steps that each deliver pairs of one kind do so one after the other. -/
theorem foldlM {α : Type} {step : Network → α → Outcome Network} {xs : List α}
    (hstep : ∀ x ∈ xs, ∀ n n', step n x = .ok n' → Delivers P n n') {n n' : Network} (he : xs.foldlM step n = .ok n') :
    Delivers P n n' := by
  induction xs generalizing n with
  | nil =>
    obtain rfl := Except.ok.inj he
    exact .refl n
  | cons x xs ih =>
    rw [List.foldlM_cons] at he
    obtain ⟨n₁, he₁, he⟩ := bind_eq_ok_iff.1 he
    exact (hstep x List.mem_cons_self n n₁ he₁).trans (ih (fun y hy => hstep y (List.mem_cons_of_mem x hy)) he)

end Delivers

section

variable {n n' : Network} {join : NodeId} {t : TokenId} {f : FactId}

/-- What a join lets through is delivered as the pair that met there. -/
theorem delivers_emit (he : n.emit join t f = .ok n') : Delivers (fun p g => p = t ∧ g = f) n n' := by
  obtain ⟨j, -, he⟩ := bind_eq_ok_iff.1 he
  exact .foldlM (fun _ _ _ _ hd => .step ⟨rfl, rfl⟩ hd (.refl _)) he

/-- A fact that arrives at a join is delivered with the tokens that it meets. -/
theorem delivers_activateRight (he : n.activateRight join f = .ok n') : Delivers (fun _ g => g = f) n n' := by
  obtain ⟨j, -, he⟩ := bind_eq_ok_iff.1 he
  obtain ⟨ts, -, he⟩ := bind_eq_ok_iff.1 he
  exact .foldlM (fun _ _ _ _ hd => (delivers_emit hd).mono fun _ _ h => h.2) he

/-- A token that arrives at a join is delivered with the facts that it meets. -/
theorem delivers_extend (he : extend t n join = .ok n') : Delivers (fun p _ => p = t) n n' := by
  obtain ⟨j, -, he⟩ := bind_eq_ok_iff.1 he
  split at he
  · exact .foldlM (fun _ _ _ _ hd => (delivers_emit hd).mono fun _ _ h => h.1) he
  · nomatch he

/-- A token that is new in a memory is delivered by the joins below it. -/
theorem delivers_activateLeft {memory : NodeId} (he : n.activateLeft memory t = .ok n') : Delivers (fun p _ => p = t) n n' := by
  obtain ⟨js, -, he⟩ := bind_eq_ok_iff.1 he
  exact .foldlM (fun _ _ _ _ hd => delivers_extend hd) he

/-- The fact, or the token, that an activation is about is part of each pair that it delivers. -/
theorem delivers_activate {a : Activation} (he : n.activate a = .ok n') : Delivers a.Yields n n' := by
  cases a with
  | right join f => exact delivers_activateRight he
  | left memory t => exact delivers_activateLeft he

end

/-! ## What deliveries add -/

/-- Tokens are added that stand for pairs of one kind, and what waits did so before or is such a token. -/
structure Adds (P : TokenId → FactId → Prop) (n n' : Network) : Prop where
  size_le : n.tokens.size ≤ n'.tokens.size
  old : ∀ {t : TokenId}, t ≤ n.tokens.size → n'.tokens.pair? t = n.tokens.pair? t
  new : ∀ {t p : TokenId} {f : FactId}, n.tokens.size < t → n'.tokens.pair? t = some (p, f) → P p f
  pending : ∀ a ∈ n'.pending, a ∈ n.pending ∨ ∃ id t, a = .left id t ∧ n.tokens.size < t

namespace Adds

variable {P Q : TokenId → FactId → Prop}

theorem refl (P : TokenId → FactId → Prop) (n : Network) : Adds P n n where
  size_le := Nat.le_refl _
  old := fun _ => rfl
  new := fun {t p f} ht hp => by
    -- a handle past the last token has no link
    obtain ⟨l, hl, -⟩ := Option.map_eq_some_iff.1 hp
    exact absurd (TokenStore.le_size_of_link? hl) (Nat.not_le_of_lt ht)
  pending := fun _ ha => Or.inl ha

/-- What is added by two changes in a row is added by one or the other. -/
theorem trans {a b c : Network} (h : Adds P a b) (h' : Adds P b c) : Adds P a c where
  size_le := Nat.le_trans h.size_le h'.size_le
  old := fun ht => (h'.old (Nat.le_trans ht h.size_le)).trans (h.old ht)
  new := fun {t p f} ht hp => by
    rcases Nat.lt_or_ge b.tokens.size t with hb | hb
    · exact h'.new hb hp
    · exact h.new ht ((h'.old hb).symm.trans hp)
  pending := fun x hx => by
    rcases h'.pending x hx with hx | ⟨id, t, rfl, ht⟩
    · exact h.pending x hx
    · exact Or.inr ⟨id, t, rfl, Nat.lt_of_le_of_lt h.size_le ht⟩

/-- What is so of each pair that is added may be weakened. -/
theorem mono {n n' : Network} (h : Adds P n n') (hPQ : ∀ p f, P p f → Q p f) : Adds Q n n' where
  size_le := h.size_le
  old := h.old
  new := fun ht hp => hPQ _ _ (h.new ht hp)
  pending := h.pending

end Adds

section

variable {n n' : Network} {t : TokenId} {f : FactId}

/-- A new token for a pair is all that is added where the pair is stored. -/
theorem adds_of_push {x y : Option String} (hpair : ∀ u, n'.tokens.pair? u = (n.tokens.push t f x y).2.pair? u)
    (hsize : n'.tokens.size = n.tokens.size + 1)
    (hpending : ∀ a ∈ n'.pending, a ∈ n.pending ∨ ∃ id, a = .left id (n.tokens.size + 1)) :
    Adds (fun p g => p = t ∧ g = f) n n' where
  size_le := by
    rw [hsize]
    exact Nat.le_succ _
  old := fun {u} hu => by
    rw [hpair, TokenStore.pair?_push, if_neg (Nat.ne_of_lt (Nat.lt_succ_of_le hu))]
  new := fun {u p g} hu hp => by
    have hle : u ≤ n'.tokens.size := by
      obtain ⟨l, hl, -⟩ := Option.map_eq_some_iff.1 hp
      exact TokenStore.le_size_of_link? hl
    have hnew : u = n.tokens.size + 1 := Nat.le_antisymm (hsize ▸ hle) hu
    rw [hpair, TokenStore.pair?_push, if_pos hnew] at hp
    obtain ⟨rfl, rfl⟩ := Prod.mk.inj (Option.some.inj hp)
    exact ⟨rfl, rfl⟩
  pending := fun a ha => by
    rcases hpending a ha with ha | ⟨id, rfl⟩
    · exact Or.inl ha
    · exact Or.inr ⟨id, _, rfl, Nat.lt_succ_self _⟩

/-- A delivery adds the token for its pair, or nothing if the pair is stored. -/
theorem adds_deliver {c : Condition} {child : NodeId} (he : deliver c t f n child = .ok n') :
    Adds (fun p g => p = t ∧ g = f) n n' := by
  rw [deliver_eq] at he
  split at he
  · obtain rfl := Except.ok.inj he
    exact .refl _ n
  · split at he
    · obtain rfl := Except.ok.inj he
      refine adds_of_push (fun u => rfl) (TokenStore.size_push _ _ _ _ _) fun a ha => ?_
      rcases List.mem_cons.1 ha with rfl | ha
      · exact Or.inr ⟨child, rfl⟩
      · exact Or.inl ha
    · obtain rfl := Except.ok.inj he
      refine adds_of_push (fun u => TokenStore.pair?_flagUpTo _ _ _ u) ?_ fun a ha => Or.inl ha
      exact (TokenStore.size_flagChain _ _).trans (TokenStore.size_push _ _ _ _ _)
    · nomatch he

/-- Deliveries of pairs of one kind add tokens that stand for such pairs. -/
theorem Delivers.adds {P : TokenId → FactId → Prop} (h : Delivers P n n') : Adds P n n' := by
  induction h with
  | refl => exact .refl P _
  | step hp he _ ih =>
    refine ((adds_deliver he).mono fun p g hpair => ?_).trans ih
    obtain ⟨rfl, rfl⟩ := hpair
    exact hp

/-- The fact, or the token, that an activation is about is part of each pair that it stores. -/
theorem adds_activate {a : Activation} (he : n.activate a = .ok n') : Adds a.Yields n n' := (delivers_activate he).adds

end

end Network

end TripleRules

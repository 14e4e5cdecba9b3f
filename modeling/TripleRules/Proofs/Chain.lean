import TripleRules.Token

/-!
# Chains

In a store whose links all lead to older tokens every chain ends at the root. There the walk that reads a chain, and the one
that flags it, follow the links one by one, and a token that is pushed later changes no chain.
-/

namespace TripleRules.TokenStore

/-! ## Stores whose links lead to older tokens -/

/-- Every link leads to an older token. -/
def Grounded (s : TokenStore) : Prop := ∀ id l, s.link? id = some l → l.parent < id

/-- Every link of a store is a link of another one, up to its flag. -/
def Keeps (s s' : TokenStore) : Prop := ∀ id l, s.link? id = some l → ∃ b, s'.link? id = some { l with flagged := b }

theorem Keeps.refl (s : TokenStore) : s.Keeps s := fun _ l h => ⟨l.flagged, h⟩

/-- Keeping tokens is transitive. -/
theorem Keeps.trans {s s' s'' : TokenStore} (h : s.Keeps s') (h' : s'.Keeps s'') : s.Keeps s'' := by
  intro id l hl
  obtain ⟨b, hb⟩ := h id l hl
  obtain ⟨b', hb'⟩ := h' id _ hb
  exact ⟨b', hb'⟩

/-- A store with the root only is grounded. -/
theorem grounded_empty : empty.Grounded := by
  intro id l h
  rw [link?_empty] at h
  cases h

/-- A handle with a link is that of a token. -/
theorem le_size_of_link? {s : TokenStore} {id : TokenId} {l : Link} (h : s.link? id = some l) : id ≤ s.size := by
  have hs := (isSome_link? s id).1 (by rw [h]; rfl)
  exact contains_iff.1 hs.2

/-- The root has no link. -/
theorem ne_root_of_link? {s : TokenStore} {id : TokenId} {l : Link} (h : s.link? id = some l) : id ≠ rootToken :=
  ((isSome_link? s id).1 (by rw [h]; rfl)).1

/-- Every token but the root has a link. -/
theorem exists_link? {s : TokenStore} {id : TokenId} (h₀ : id ≠ rootToken) (h : id ≤ s.size) : ∃ l, s.link? id = some l :=
  Option.isSome_iff_exists.1 ((isSome_link? s id).2 ⟨h₀, contains_iff.2 h⟩)

/-- In a grounded store the parent of a link is a token, and not a newer one than any that the link is not newer than. -/
theorem Grounded.parent_le {s : TokenStore} (hs : s.Grounded) {id t : TokenId} {l : Link} (hl : s.link? id = some l)
    (h : id ≤ t) : l.parent ≤ t :=
  Nat.le_trans (Nat.le_of_lt (hs id l hl)) h

theorem parent?_eq_some {s : TokenStore} {id : TokenId} {l : Link} (h : s.link? id = some l) :
    s.parent? id = some l.parent := by
  rw [parent?, h]
  rfl

theorem fact?_eq_some {s : TokenStore} {id : TokenId} {l : Link} (h : s.link? id = some l) : s.fact? id = some l.fact := by
  rw [fact?, h]
  rfl

/-! ## The walk along a chain -/

/-- At a token a walk takes a step. -/
theorem next?_of_le {s : TokenStore} {id : TokenId} (h : id ≤ s.size) : s.next? (some id) = some (id, s.parent? id) := by
  rw [next?, Option.bind_some, if_pos (contains_iff.2 h)]

/-- Past the end of its chain a walk goes on to nothing, so only the steps up to the root count. -/
theorem walkUpTo_eq {s : TokenStore} (hs : s.Grounded) {id : TokenId} (h : id ≤ s.size) {n : Nat} (hn : id < n) :
    s.walkUpTo n (some id) = s.walkUpTo (id + 1) (some id) := by
  induction id using Nat.strongRecOn generalizing n with
  | ind id ih =>
    obtain ⟨n, rfl⟩ : ∃ k, n = k + 1 := Nat.exists_eq_add_one.2 (Nat.zero_lt_of_lt hn)
    have hnext := next?_of_le h
    simp only [walkUpTo, hnext]
    congr 1
    by_cases h₀ : id = rootToken
    · subst h₀
      rw [parent?_root]
      cases n <;> rfl
    · obtain ⟨l, hl⟩ := exists_link? h₀ h
      have hlt := hs id l hl
      have hle := hs.parent_le hl h
      rw [parent?_eq_some hl, ih l.parent hlt hle (Nat.lt_of_lt_of_le hlt (Nat.le_of_lt_succ hn)), ← ih l.parent hlt hle hlt]

/-- In a grounded store as many steps as the handle says, and one more, read the whole chain. -/
theorem chain_eq {s : TokenStore} (hs : s.Grounded) {id : TokenId} (h : id ≤ s.size) :
    s.chain id = s.walkUpTo (id + 1) (some id) :=
  walkUpTo_eq hs h (Nat.lt_succ_of_le h)

/-- The chain of the root is the root alone. -/
@[simp] theorem chain_root (s : TokenStore) : s.chain rootToken = [rootToken] := by
  have h : rootToken ≤ s.size := Nat.zero_le _
  rw [chain, walkUpTo, next?_of_le h, parent?_root]
  cases s.size <;> rfl

/-- The chain of any other token is the token and the chain of its parent. -/
theorem chain_of_link {s : TokenStore} (hs : s.Grounded) {id : TokenId} {l : Link} (hl : s.link? id = some l) :
    s.chain id = id :: s.chain l.parent := by
  have h := le_size_of_link? hl
  have hlt := hs id l hl
  have hle := hs.parent_le hl h
  rw [chain_eq hs h, walkUpTo, next?_of_le h, parent?_eq_some hl, chain_eq hs hle]
  exact congrArg _ (walkUpTo_eq hs hle hlt)

@[simp] theorem chainFacts_root (s : TokenStore) : s.chainFacts rootToken = [] := by
  rw [chainFacts, chain_root, List.filterMap_cons, fact?_root]
  rfl

/-- The facts on the chain of a token are its own and those on the chain of its parent. -/
theorem chainFacts_of_link {s : TokenStore} (hs : s.Grounded) {id : TokenId} {l : Link} (hl : s.link? id = some l) :
    s.chainFacts id = l.fact :: s.chainFacts l.parent := by
  rw [chainFacts, chain_of_link hs hl, List.filterMap_cons, fact?_eq_some hl]
  rfl

/-- Only the chain of the root has no facts. -/
theorem chainFacts_eq_nil_iff {s : TokenStore} (hs : s.Grounded) {id : TokenId} (h : id ≤ s.size) :
    s.chainFacts id = [] ↔ id = rootToken := by
  constructor
  · intro he
    refine Decidable.byContradiction fun h₀ => ?_
    obtain ⟨l, hl⟩ := exists_link? h₀ h
    rw [chainFacts_of_link hs hl] at he
    nomatch he
  · rintro rfl
    exact chainFacts_root s

/-- A token is on its own chain. -/
theorem mem_chain_self {s : TokenStore} (hs : s.Grounded) {id : TokenId} (h : id ≤ s.size) : id ∈ s.chain id := by
  by_cases h₀ : id = rootToken
  · subst h₀
    simp
  · obtain ⟨l, hl⟩ := exists_link? h₀ h
    rw [chain_of_link hs hl]
    exact List.mem_cons_self

/-- No token on a chain is newer than the one the chain is read from. -/
theorem le_of_mem_chain {s : TokenStore} (hs : s.Grounded) {id t : TokenId} (h : id ≤ s.size) (ht : t ∈ s.chain id) :
    t ≤ id := by
  induction id using Nat.strongRecOn with
  | ind id ih =>
    by_cases h₀ : id = rootToken
    · subst h₀
      rw [chain_root, List.mem_singleton] at ht
      exact Nat.le_of_eq ht
    · obtain ⟨l, hl⟩ := exists_link? h₀ h
      have hlt := hs id l hl
      rw [chain_of_link hs hl, List.mem_cons] at ht
      rcases ht with rfl | ht
      · exact Nat.le_refl _
      · exact Nat.le_of_lt (Nat.lt_of_le_of_lt (ih l.parent hlt (hs.parent_le hl h) ht) hlt)

/-- A chain in a grounded store leads back to the root. -/
theorem getLast?_chain {s : TokenStore} (hs : s.Grounded) {t : TokenId} (ht : t ≤ s.size) :
    (s.chain t).getLast? = some rootToken := by
  induction t using Nat.strongRecOn with
  | ind t ih =>
    by_cases h₀ : t = rootToken
    · subst h₀
      rw [chain_root]
      rfl
    · obtain ⟨l, hl⟩ := exists_link? h₀ ht
      have hlt := hs t l hl
      rw [chain_of_link hs hl, List.getLast?_cons, ih l.parent hlt (hs.parent_le hl ht)]
      rfl

/-- The fact that a number of steps lead to stands at that place of the chain. -/
theorem getElem?_chainFacts {s : TokenStore} (hs : s.Grounded) {id : TokenId} (h : id ≤ s.size) (k : Nat) :
    (s.chainFacts id)[k]? = (s.ancestor? id k).bind s.fact? := by
  induction k generalizing id with
  | zero =>
    by_cases h₀ : id = rootToken
    · subst h₀
      rw [chainFacts_root, ancestor?, Option.bind_some, fact?_root]
      rfl
    · obtain ⟨l, hl⟩ := exists_link? h₀ h
      rw [chainFacts_of_link hs hl]
      exact (fact?_eq_some hl).symm
  | succ k ih =>
    by_cases h₀ : id = rootToken
    · subst h₀
      rw [chainFacts_root, ancestor?, parent?_root]
      rfl
    · obtain ⟨l, hl⟩ := exists_link? h₀ h
      rw [chainFacts_of_link hs hl, List.getElem?_cons_succ, ih (hs.parent_le hl h), ancestor?, parent?_eq_some hl]

/-! ## Chains in a store that grows -/

/-- A chain stays as it is in a store that keeps the links. -/
theorem Keeps.chain_eq {s s' : TokenStore} (hk : s.Keeps s') (hs : s.Grounded) (hs' : s'.Grounded) {id : TokenId}
    (h : id ≤ s.size) : s'.chain id = s.chain id := by
  induction id using Nat.strongRecOn with
  | ind id ih =>
    by_cases h₀ : id = rootToken
    · subst h₀
      simp
    · obtain ⟨l, hl⟩ := exists_link? h₀ h
      obtain ⟨b, hb⟩ := hk id l hl
      have hlt := hs id l hl
      rw [chain_of_link hs hl, chain_of_link hs' hb, ih l.parent hlt (hs.parent_le hl h)]

/-- What keeps the tokens keeps the facts on their chains. -/
theorem Keeps.chainFacts_eq {s s' : TokenStore} (hk : s.Keeps s') (hs : s.Grounded) (hs' : s'.Grounded) {id : TokenId}
    (h : id ≤ s.size) : s'.chainFacts id = s.chainFacts id := by
  induction id using Nat.strongRecOn with
  | ind id ih =>
    by_cases h₀ : id = rootToken
    · subst h₀
      simp
    · obtain ⟨l, hl⟩ := exists_link? h₀ h
      obtain ⟨b, hb⟩ := hk id l hl
      have hlt := hs id l hl
      rw [chainFacts_of_link hs hl, chainFacts_of_link hs' hb, ih l.parent hlt (hs.parent_le hl h)]

/-- A push keeps the tokens that are there. -/
theorem keeps_push (s : TokenStore) (parent : TokenId) (fact : FactId) (x y : Option String) :
    s.Keeps (s.push parent fact x y).2 := by
  intro id l hl
  have hne : id ≠ s.size + 1 := Nat.ne_of_lt (Nat.lt_succ_of_le (le_size_of_link? hl))
  exact ⟨l.flagged, by rw [link?_push, if_neg hne, hl]⟩

/-- A push below a token that is there keeps the store grounded. -/
theorem grounded_push {s : TokenStore} (hs : s.Grounded) {parent : TokenId} (h : parent ≤ s.size) (fact : FactId)
    (x y : Option String) : (s.push parent fact x y).2.Grounded := by
  intro id l hl
  rw [link?_push] at hl
  split at hl
  · rename_i he
    cases hl
    subst he
    exact Nat.lt_succ_of_le h
  · exact hs id l hl

/-! ## Flagging a chain -/

/-- Flagging one token keeps all of them. -/
theorem keeps_flag (s : TokenStore) (id : TokenId) : s.Keeps (s.flag id) := by
  intro t l hl
  rw [link?_flag, hl]
  split
  · exact ⟨true, rfl⟩
  · exact ⟨l.flagged, rfl⟩

/-- Flagging one token keeps the store grounded. -/
theorem grounded_flag {s : TokenStore} (hs : s.Grounded) (id : TokenId) : (s.flag id).Grounded := by
  intro t l hl
  rw [link?_flag] at hl
  split at hl
  · obtain ⟨l', hl', rfl⟩ := Option.map_eq_some_iff.1 hl
    exact hs t l' hl'
  · exact hs t l hl

/-- Flagging a chain flags the links on it and nothing else. -/
theorem link?_flagUpTo {s : TokenStore} (hs : s.Grounded) {id : TokenId} (h : id ≤ s.size) {n : Nat} (hn : id ≤ n)
    (t : TokenId) :
    (flagUpTo n id s).link? t = (s.link? t).map fun l => { l with flagged := l.flagged || decide (t ∈ s.chain id) } := by
  induction n generalizing id s with
  | zero =>
    obtain rfl : id = rootToken := Nat.le_zero.1 hn
    by_cases ht : t = rootToken
    · subst ht
      rw [flagUpTo, link?_root]
      rfl
    · simp [flagUpTo, ht]
  | succ n ih =>
    by_cases h₀ : id = rootToken
    · subst h₀
      by_cases ht : t = rootToken
      · subst ht
        simp [flagUpTo]
      · simp [flagUpTo, ht]
    · obtain ⟨l, hl⟩ := exists_link? h₀ h
      have hlt := hs id l hl
      have hg := grounded_flag hs id
      have hp := hs.parent_le hl h
      have hle : l.parent ≤ (s.flag id).size := by
        rw [size_flag]
        exact hp
      have hc : (s.flag id).chain l.parent = s.chain l.parent := (keeps_flag s id).chain_eq hs hg hp
      simp only [flagUpTo, parent?_eq_some hl]
      rw [ih hg hle (Nat.le_of_lt_succ (Nat.lt_of_lt_of_le hlt hn)), hc, chain_of_link hs hl, link?_flag]
      by_cases ht : t = id
      · subst ht
        simp [hl]
      · simp [ht]

/-- Flagging a chain flags the tokens on it and leaves everything else as it was. -/
theorem link?_flagChain {s : TokenStore} (hs : s.Grounded) {id : TokenId} (h : id ≤ s.size) (t : TokenId) :
    (s.flagChain id).link? t = (s.link? t).map fun l => { l with flagged := l.flagged || decide (t ∈ s.chain id) } :=
  link?_flagUpTo hs h h t

@[simp] theorem size_flagUpTo (n : Nat) (id : TokenId) (s : TokenStore) : (flagUpTo n id s).size = s.size := by
  induction n generalizing id s with
  | zero => rfl
  | succ n ih =>
    simp only [flagUpTo]
    split
    · rw [ih, size_flag]
    · rfl

@[simp] theorem size_flagChain (s : TokenStore) (id : TokenId) : (s.flagChain id).size = s.size := size_flagUpTo _ _ _

/-- Flagging a chain keeps the tokens. -/
theorem keeps_flagChain {s : TokenStore} (hs : s.Grounded) {id : TokenId} (h : id ≤ s.size) : s.Keeps (s.flagChain id) := by
  intro t l hl
  exact ⟨_, by rw [link?_flagChain hs h, hl]; rfl⟩

/-- Flagging a chain keeps the store grounded. -/
theorem grounded_flagChain {s : TokenStore} (hs : s.Grounded) {id : TokenId} (h : id ≤ s.size) :
    (s.flagChain id).Grounded := by
  intro t l hl
  rw [link?_flagChain hs h] at hl
  obtain ⟨l', hl', rfl⟩ := Option.map_eq_some_iff.1 hl
  exact hs t l' hl'

/-- After a chain is flagged, a token is flagged if it was before, or if it is on the chain and not the root. -/
theorem isFlagged_flagChain {s : TokenStore} (hs : s.Grounded) {id : TokenId} (h : id ≤ s.size) (t : TokenId) :
    (s.flagChain id).isFlagged t = true ↔ s.isFlagged t = true ∨ (t ≠ rootToken ∧ t ∈ s.chain id) := by
  rw [isFlagged, link?_flagChain hs h, isFlagged]
  cases hl : s.link? t with
  | none =>
    have hnot : ¬(t ≠ rootToken ∧ t ∈ s.chain id) := by
      rintro ⟨h₀, ht⟩
      obtain ⟨l, hl'⟩ := exists_link? h₀ (Nat.le_trans (le_of_mem_chain hs h ht) h)
      simp [hl] at hl'
    simp [hnot]
  | some l =>
    have h₀ : t ≠ rootToken := by
      rintro rfl
      rw [link?_root] at hl
      cases hl
    simp [h₀]

/-- A new link is not flagged, and the flags of the others stay. -/
theorem isFlagged_push (s : TokenStore) (parent : TokenId) (fact : FactId) (x y : Option String) (t : TokenId) :
    (s.push parent fact x y).2.isFlagged t = s.isFlagged t := by
  rw [isFlagged, link?_push, isFlagged]
  split
  · rename_i he
    subst he
    cases hl : s.link? (s.size + 1) with
    | none => rfl
    | some l => exact absurd (le_size_of_link? hl) (Nat.not_succ_le_self _)
  · rfl

end TripleRules.TokenStore

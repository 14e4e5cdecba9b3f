import Mathlib.Computability.StateTransition
import Mathlib.Data.Fintype.Pigeonhole
import Mathlib.Data.List.Nodup
import TripleRules.Proofs.Chain

/-!
# Walks without a bound

The walk that reads a chain and the walk that flags it take no more steps than a chain that ends can have. Here are both walks
without that bound, as loops that go on for as long as there is a parent.

A store takes a link whatever its parent is, and the parent may be the link itself, or one that is pushed later. So a chain need
not be a list: its tokens can go round in a circle, and then neither walk ends. That is the only thing that can go wrong. Where the
parents lead to no circle both walks end, they meet no token twice, and they do what the bounded walks do.
-/

namespace TripleRules.TokenStore

/-! ## Stores that were filled by pushes -/

/-- What is pushed as one link. -/
structure Push where
  /-- The parent, which need not be a token. -/
  parent : TokenId
  /-- The fact. -/
  fact : FactId
  /-- The variable of the subject. -/
  subjectVar : Option String
  /-- The variable of the object. -/
  objectVar : Option String

/-- The store after some pushes. -/
def pushAll (ps : List Push) : TokenStore :=
  ps.foldl (fun s p => (s.push p.parent p.fact p.subjectVar p.objectVar).2) empty

/-- One more push comes last. -/
theorem pushAll_append_singleton (ps : List Push) (p : Push) :
    pushAll (ps ++ [p]) = ((pushAll ps).push p.parent p.fact p.subjectVar p.objectVar).2 := by
  rw [pushAll, List.foldl_append]
  rfl

/-- Each push adds one token. -/
@[simp] theorem size_pushAll (ps : List Push) : (pushAll ps).size = ps.length := by
  induction ps using List.reverseRecOn with
  | nil => rfl
  | append_singleton ps p ih =>
    rw [pushAll_append_singleton, size_push, ih, List.length_append]
    rfl

/-- The parents of the tokens are those of the pushes, in their order. -/
theorem parent?_pushAll (ps : List Push) (n : Nat) : (pushAll ps).parent? (n + 1) = ps[n]?.map (·.parent) := by
  induction ps using List.reverseRecOn with
  | nil => rfl
  | append_singleton ps p ih =>
    rw [parent?] at ih
    rw [pushAll_append_singleton, parent?, link?_push, size_pushAll, List.getElem?_append]
    by_cases hn : n < ps.length
    · rw [if_neg fun he => Nat.ne_of_lt hn (Nat.succ.inj he), if_pos hn, ih]
    · by_cases he : n = ps.length
      · subst he
        simp
      · have hend : [p].length ≤ n - ps.length := by
          rw [List.length_singleton]
          omega
        rw [if_neg fun h => he (Nat.succ.inj h), if_neg hn, ih, List.getElem?_eq_none (Nat.le_of_not_lt hn),
          List.getElem?_eq_none hend]

/-! ## The loops -/

/-- What was read and the cursor after one more token, if there is one. -/
def readNext (s : TokenStore) (walk : List TokenId × Option TokenId) : Option (List TokenId × Option TokenId) :=
  (s.next? walk.2).map fun step => (walk.1 ++ [step.1], step.2)

/-- The tokens from a cursor on, as long as there is one more. There is no list if the walk does not end. -/
def readChain (s : TokenStore) (cursor : Option TokenId) : Part (List TokenId) :=
  (StateTransition.eval s.readNext ([], cursor)).map (·.1)

/-- The store with one more flag, and the parent to go on with, if there is one. -/
def markNext (mark : TokenStore × TokenId) : Option (TokenStore × TokenId) :=
  (mark.1.parent? mark.2).map fun parent => (mark.1.flag mark.2, parent)

/-- Flags the links from a handle on, as long as there is one more, and gives the handle at which there is none. There is no result
if the walk does not end. -/
def markChain (s : TokenStore) (id : TokenId) : Part (TokenStore × TokenId) := StateTransition.eval markNext (s, id)

/-- The token that the walk from a cursor comes to after a number of steps, if it comes that far. -/
def visit? (s : TokenStore) : Nat → Option TokenId → Option TokenId
  | 0, cursor => (s.next? cursor).map (·.1)
  | k + 1, cursor => (s.next? cursor).bind fun step => visit? s k step.2

/-- The parents lead from a handle to a token that is an ancestor of its own. -/
def Circular (s : TokenStore) (id : TokenId) : Prop := ∃ k t m, s.ancestor? id k = some t ∧ s.ancestor? t (m + 1) = some t

/-- The chain of a handle is a list: the walk that reads it ends and meets no token twice, and the walk that flags it ends. -/
structure IsList (s : TokenStore) (id : TokenId) : Prop where
  /-- The tokens of the chain, each once. -/
  read : ∃ ts ∈ s.readChain (some id), ts.Nodup
  /-- The flags can be set. -/
  mark : (s.markChain id).Dom

/-! ## Walking and counting steps -/

/-- A cursor at a token that is there reads it and goes on to its parent. -/
theorem next?_some (s : TokenStore) (id : TokenId) :
    s.next? (some id) = if s.contains id then some (id, s.parent? id) else none := rfl

/-- Only tokens have parents. -/
theorem contains_of_parent? {s : TokenStore} {id parent : TokenId} (h : s.parent? id = some parent) : s.contains id = true := by
  obtain ⟨l, hl, -⟩ := Option.map_eq_some_iff.1 h
  exact contains_iff.2 (le_size_of_link? hl)

/-- What a walk comes to is the ancestor at that distance, provided that it is a token. -/
theorem visit?_eq (s : TokenStore) (id : TokenId) (k : Nat) : s.visit? k (some id) = (s.ancestor? id k).filter s.contains := by
  induction k generalizing id with
  | zero =>
    rw [visit?, next?_some, ancestor?, Option.filter_some]
    split <;> rfl
  | succ k ih =>
    rw [visit?, next?_some, ancestor?]
    cases hp : s.parent? id with
    | none =>
      split
      · cases k <;> rfl
      · rfl
    | some parent =>
      rw [if_pos (contains_of_parent? hp)]
      exact ih parent

/-- What a bounded walk reads at a place is the token where the walk is after as many steps. -/
theorem getElem?_walkUpTo (s : TokenStore) (n : Nat) (cursor : Option TokenId) (k : Nat) :
    (s.walkUpTo n cursor)[k]? = if k < n then s.visit? k cursor else none := by
  induction n generalizing cursor k with
  | zero => rfl
  | succ n ih =>
    rw [walkUpTo]
    cases hnext : s.next? cursor with
    | none => cases k <;> simp [visit?, hnext]
    | some step =>
      cases k with
      | zero => simp [visit?, hnext]
      | succ k => simp [visit?, hnext, ih]

/-- From where there is a parent after so many steps, there was one all the way. -/
theorem ancestor?_isSome_of_le {s : TokenStore} {id : TokenId} {k n : Nat} (h : (s.ancestor? id n).isSome) (hk : k ≤ n) :
    (s.ancestor? id k).isSome := by
  obtain ⟨m, rfl⟩ := Nat.exists_eq_add_of_le hk
  rw [ancestor?_add] at h
  exact Option.isSome_of_isSome_bind h

/-- The last of some steps goes to a parent. -/
theorem ancestor?_succ (s : TokenStore) (id : TokenId) (k : Nat) : s.ancestor? id (k + 1) = (s.ancestor? id k).bind s.parent? := by
  rw [ancestor?_add]
  congr 1
  funext t
  rw [ancestor?]
  cases s.parent? t <;> rfl

/-- The last of some steps is made from a token that has a parent. -/
theorem exists_parent?_of_isSome {s : TokenStore} {id : TokenId} {k : Nat} (h : (s.ancestor? id (k + 1)).isSome) :
    ∃ t p, s.ancestor? id k = some t ∧ s.parent? t = some p := by
  obtain ⟨p, hp⟩ := Option.isSome_iff_exists.1 h
  rw [ancestor?_succ] at hp
  obtain ⟨t, ht, hp⟩ := Option.bind_eq_some_iff.1 hp
  exact ⟨t, p, ht, hp⟩

/-! ## Circles -/

/-- Round a circle there is always one more step. -/
theorem ancestor?_mul {s : TokenStore} {t : TokenId} {m : Nat} (h : s.ancestor? t m = some t) (n : Nat) :
    s.ancestor? t (n * m) = some t := by
  induction n with
  | zero => rw [Nat.zero_mul, ancestor?]
  | succ n ih => rw [Nat.succ_mul, ancestor?_add, ih, Option.bind_some, h]

/-- On a circle there is an ancestor at every distance. -/
theorem Circular.isSome_ancestor? {s : TokenStore} {id : TokenId} (h : s.Circular id) (n : Nat) :
    (s.ancestor? id n).isSome := by
  obtain ⟨k, t, m, hk, hm⟩ := h
  have hfar : s.ancestor? id (k + n * (m + 1)) = some t := by
    rw [ancestor?_add, hk, Option.bind_some, ancestor?_mul hm]
  have hle : n ≤ n * (m + 1) := Nat.le_mul_of_pos_right n (Nat.succ_pos m)
  exact ancestor?_isSome_of_le (Option.isSome_of_eq_some hfar) (by omega)

/-- A walk that comes to one handle twice goes round. -/
theorem circular_of_ancestor?_eq {s : TokenStore} {id t : TokenId} {i j : Nat} (hij : i < j) (hi : s.ancestor? id i = some t)
    (hj : s.ancestor? id j = some t) : s.Circular id := by
  obtain ⟨m, rfl⟩ := Nat.exists_eq_add_of_lt hij
  rw [Nat.add_assoc, ancestor?_add, hi] at hj
  exact ⟨i, t, m, hi, hj⟩

/-- A walk that takes more steps than there are links goes round: it leaves each of its tokens by a link, so it leaves one of them
twice. -/
theorem circular_of_isSome {s : TokenStore} {id : TokenId} (h : (s.ancestor? id (s.size + 1)).isSome) : s.Circular id := by
  have hlink : ∀ k : Fin (s.size + 1), ∃ i : Fin s.size, s.ancestor? id k = some (i.val + 1) := by
    intro k
    obtain ⟨t, p, ht, hp⟩ := exists_parent?_of_isSome (ancestor?_isSome_of_le h (Nat.succ_le_of_lt k.isLt))
    obtain ⟨l, hl, -⟩ := Option.map_eq_some_iff.1 hp
    obtain ⟨i, rfl⟩ : ∃ i, t = i + 1 := Nat.exists_eq_succ_of_ne_zero (ne_root_of_link? hl)
    exact ⟨⟨i, Nat.lt_of_succ_le (le_size_of_link? hl)⟩, ht⟩
  choose place hplace using hlink
  obtain ⟨i, j, hne, he⟩ := Fintype.exists_ne_map_eq_of_card_lt place (by simp)
  have hj : s.ancestor? id j = some ((place i).val + 1) := by rw [he, hplace j]
  rcases Nat.lt_or_gt_of_ne (Fin.val_ne_of_ne hne) with hlt | hlt
  · exact circular_of_ancestor?_eq hlt (hplace i) hj
  · exact circular_of_ancestor?_eq hlt hj (hplace i)

/-- Whether there is a circle shows after one step more than there are links. -/
theorem circular_iff {s : TokenStore} {id : TokenId} : s.Circular id ↔ (s.ancestor? id (s.size + 1)).isSome :=
  ⟨fun h => h.isSome_ancestor? _, circular_of_isSome⟩

instance (s : TokenStore) (id : TokenId) : Decidable (s.Circular id) := decidable_of_iff _ circular_iff.symm

/-- On a way that goes round each step is made from a token, to one that has a parent again. -/
theorem Circular.exists_step {s : TokenStore} {id t : TokenId} {k : Nat} (h : s.Circular id) (ht : s.ancestor? id k = some t) :
    ∃ p, s.parent? t = some p ∧ s.ancestor? id (k + 1) = some p ∧ s.contains p = true := by
  obtain ⟨p, q, hp, hq⟩ := exists_parent?_of_isSome (h.isSome_ancestor? (k + 2))
  refine ⟨p, ?_, hp, contains_of_parent? hq⟩
  rwa [ancestor?_succ, ht] at hp

/-- No circle closes where each parent is older than its link, or no token at all. -/
theorem not_circular_of_older {s : TokenStore} (h : ∀ id p, s.parent? id = some p → p < id ∨ s.contains p = false) (id : TokenId) :
    ¬ s.Circular id := by
  intro hc
  -- on a way that never ends the handles would get smaller with each step
  have hdown : ∀ k, ∃ t, s.ancestor? id k = some t ∧ t + k ≤ id := by
    intro k
    induction k with
    | zero => exact ⟨id, rfl, Nat.le_refl _⟩
    | succ k ih =>
      obtain ⟨t, ht, hle⟩ := ih
      obtain ⟨p, hp, hstep, hin⟩ := hc.exists_step ht
      rcases h t p hp with hlt | hmiss
      · refine ⟨p, hstep, ?_⟩
        rw [← Nat.succ_add_eq_add_succ]
        exact Nat.le_trans (Nat.add_le_add_right (Nat.succ_le_of_lt hlt) k) hle
      · rw [hin] at hmiss
        nomatch hmiss
  obtain ⟨t, -, hle⟩ := hdown (id + 1)
  exact Nat.not_succ_le_self id (Nat.le_trans (Nat.le_add_left _ t) hle)

/-! ## When the loops end -/

/-- A loop is over if there is no next state. -/
theorem eval_of_none {σ : Type} {next : σ → Option σ} {x : σ} (h : next x = none) : StateTransition.eval next x = Part.some x :=
  Part.eq_some_iff.2 (StateTransition.mem_eval.2 ⟨Relation.ReflTransGen.refl, h⟩)

/-- A loop goes on with the next state. -/
theorem eval_of_some {σ : Type} {next : σ → Option σ} {x y : σ} (h : next x = some y) :
    StateTransition.eval next x = StateTransition.eval next y :=
  StateTransition.reaches_eval (Relation.ReflTransGen.single h)

section

variable {s : TokenStore} {cursor : Option TokenId}

/-- The reading loop ends where there is nothing to read. -/
theorem eval_readNext_of_none (h : s.next? cursor = none) (read : List TokenId) :
    StateTransition.eval s.readNext (read, cursor) = Part.some (read, cursor) :=
  eval_of_none (by rw [readNext, h]; rfl)

/-- The reading loop appends what it reads and goes on. -/
theorem eval_readNext_of_some {step : TokenId × Option TokenId} (h : s.next? cursor = some step) (read : List TokenId) :
    StateTransition.eval s.readNext (read, cursor) = StateTransition.eval s.readNext (read ++ [step.1], step.2) :=
  eval_of_some (by rw [readNext, h]; rfl)

/-- A walk that comes to an end after some steps appends what the bounded walk reads. -/
theorem eval_readNext {n : Nat} (h : s.visit? n cursor = none) (read : List TokenId) :
    ∃ c, StateTransition.eval s.readNext (read, cursor) = Part.some (read ++ s.walkUpTo n cursor, c) := by
  induction n generalizing cursor read with
  | zero =>
    rw [walkUpTo, List.append_nil]
    exact ⟨cursor, eval_readNext_of_none (Option.map_eq_none_iff.1 h) read⟩
  | succ n ih =>
    rw [walkUpTo]
    cases hnext : s.next? cursor with
    | none => exact ⟨cursor, by rw [eval_readNext_of_none hnext, List.append_nil]⟩
    | some step =>
      rw [visit?, hnext, Option.bind_some] at h
      obtain ⟨c, hc⟩ := ih h (read ++ [step.1])
      rw [List.append_assoc] at hc
      exact ⟨c, (eval_readNext_of_some hnext read).trans hc⟩

/-- A walk that comes to an end after some steps reads what the bounded walk reads. -/
theorem readChain_eq {n : Nat} (h : s.visit? n cursor = none) :
    s.readChain cursor = Part.some (s.walkUpTo n cursor) := by
  obtain ⟨c, hc⟩ := eval_readNext h []
  rw [readChain, hc, Part.map_some, List.nil_append]

/-- A walk that ends has a number of steps. -/
theorem exists_visit?_eq_none (h : (s.readChain cursor).Dom) : ∃ k, s.visit? k cursor = none := by
  obtain ⟨walk, hwalk⟩ := Part.dom_iff_mem.1 (show (StateTransition.eval s.readNext ([], cursor)).Dom from h)
  refine StateTransition.evalInduction (C := fun walk => ∃ k, s.visit? k walk.2 = none) hwalk fun walk _ ih => ?_
  cases hnext : s.next? walk.2 with
  | none => exact ⟨0, by rw [visit?, hnext]; rfl⟩
  | some step =>
    obtain ⟨k, hk⟩ := ih (walk.1 ++ [step.1], step.2) (by rw [readNext, hnext]; rfl)
    exact ⟨k + 1, by rw [visit?, hnext]; exact hk⟩

end

/-- Flags do not change where the parents lead. -/
@[simp] theorem ancestor?_flag (s : TokenStore) (id other : TokenId) (k : Nat) :
    (s.flag id).ancestor? other k = s.ancestor? other k := by
  induction k generalizing other with
  | zero => rfl
  | succ k ih => simp only [ancestor?, parent?_flag, ih]

/-- The marking loop ends at a token without a parent. -/
theorem markChain_of_none {s : TokenStore} {id : TokenId} (h : s.parent? id = none) : s.markChain id = Part.some (s, id) :=
  eval_of_none (by rw [markNext, h]; rfl)

/-- The marking loop flags a token that has a parent and goes on with the parent. -/
theorem markChain_of_some {s : TokenStore} {id parent : TokenId} (h : s.parent? id = some parent) :
    s.markChain id = (s.flag id).markChain parent :=
  eval_of_some (by rw [markNext, h]; rfl)

/-- A walk that comes to an end after some steps flags what the bounded walk flags, and stops at a handle that has no parent. -/
theorem markChain_eq {s : TokenStore} {n : Nat} {id : TokenId} (h : s.ancestor? id (n + 1) = none) :
    ∃ k t, s.markChain id = Part.some (flagUpTo n id s, t) ∧ s.ancestor? id k = some t ∧ s.parent? t = none := by
  induction n generalizing s id with
  | zero =>
    have hp : s.parent? id = none := by
      rw [ancestor?_succ] at h
      exact h
    exact ⟨0, id, markChain_of_none hp, rfl, hp⟩
  | succ n ih =>
    rw [flagUpTo]
    cases hp : s.parent? id with
    | none => exact ⟨0, id, markChain_of_none hp, rfl, hp⟩
    | some parent =>
      rw [ancestor?, hp] at h
      obtain ⟨k, t, hmark, hk, ht⟩ := @ih (s.flag id) parent (by rw [ancestor?_flag]; exact h)
      rw [ancestor?_flag] at hk
      rw [parent?_flag] at ht
      refine ⟨k + 1, t, (markChain_of_some hp).trans hmark, ?_, ht⟩
      rw [ancestor?, hp]
      exact hk

/-- A walk that flags to its end comes to where there are no more ancestors. -/
theorem exists_ancestor?_eq_none {s : TokenStore} {id : TokenId} (h : (s.markChain id).Dom) : ∃ n, s.ancestor? id n = none := by
  obtain ⟨r, hr⟩ := Part.dom_iff_mem.1 h
  refine StateTransition.evalInduction (C := fun mark => ∃ n, mark.1.ancestor? mark.2 n = none) hr fun mark _ ih => ?_
  cases hp : mark.1.parent? mark.2 with
  | none => exact ⟨1, by rw [ancestor?, hp]⟩
  | some parent =>
    obtain ⟨n, hn⟩ := ih (mark.1.flag mark.2, parent) (by rw [markNext, hp]; rfl)
    rw [ancestor?_flag] at hn
    exact ⟨n + 1, by rw [ancestor?, hp]; exact hn⟩

section

variable {s : TokenStore} {id : TokenId}

/-- Without a circle the walk is over after one step for each token. -/
theorem visit?_size_eq_none (h : ¬ s.Circular id) : s.visit? (s.size + 1) (some id) = none := by
  rw [visit?_eq, Option.not_isSome_iff_eq_none.1 (mt circular_iff.2 h)]
  rfl

/-- Without a circle the walk never comes to a token twice. -/
theorem nodup_chain_of_not_circular (h : ¬ s.Circular id) : (s.chain id).Nodup := by
  rw [List.nodup_iff_getElem?_ne_getElem?]
  intro i j hij hj he
  have hsome := List.getElem?_eq_getElem hj
  generalize (s.chain id)[j] = t at hsome
  have hvisit : ∀ k, (s.chain id)[k]? = some t → s.ancestor? id k = some t := by
    intro k hk
    rw [chain, getElem?_walkUpTo] at hk
    split at hk
    · rw [visit?_eq] at hk
      exact (Option.filter_eq_some_iff.1 hk).1
    · contradiction
  exact h (circular_of_ancestor?_eq hij (hvisit i (he.trans hsome)) (hvisit j hsome))

/-- Without a circle the loop reads the chain. -/
theorem readChain_of_not_circular (h : ¬ s.Circular id) : s.readChain (some id) = Part.some (s.chain id) :=
  readChain_eq (visit?_size_eq_none h)

/-- Without a circle the loop flags the chain, and stops where the parents end. -/
theorem markChain_of_not_circular (h : ¬ s.Circular id) :
    ∃ k t, s.markChain id = Part.some (s.flagChain id, t) ∧ s.ancestor? id k = some t ∧ s.parent? t = none :=
  markChain_eq (Option.not_isSome_iff_eq_none.1 (mt circular_iff.2 h))

/-- On a way that goes round each step leads to a token. -/
theorem Circular.isSome_visit? (h : s.Circular id) (k : Nat) : (s.visit? k (some id)).isSome := by
  obtain ⟨t, p, ht, hp⟩ := exists_parent?_of_isSome (h.isSome_ancestor? (k + 1))
  rw [visit?_eq, ht, Option.filter_some, if_pos (contains_of_parent? hp)]
  rfl

/-- On a circle the reading loop does not end. -/
theorem Circular.not_dom_readChain (h : s.Circular id) : ¬ (s.readChain (some id)).Dom := by
  intro hd
  obtain ⟨k, hk⟩ := exists_visit?_eq_none hd
  exact Option.isSome_iff_ne_none.1 (h.isSome_visit? k) hk

/-- On a circle the marking loop does not end. -/
theorem Circular.not_dom_markChain (h : s.Circular id) : ¬ (s.markChain id).Dom := by
  intro hd
  obtain ⟨n, hn⟩ := exists_ancestor?_eq_none hd
  exact Option.isSome_iff_ne_none.1 (h.isSome_ancestor? n) hn

/-- On a way that goes round some token is met twice. -/
theorem Circular.exists_twice (h : s.Circular id) :
    ∃ i j t, i < j ∧ s.visit? i (some id) = some t ∧ s.visit? j (some id) = some t := by
  have hc := h
  obtain ⟨k, t, m, hk, hm⟩ := h
  obtain ⟨p, hp, -⟩ := hc.exists_step hk
  have hfar : s.ancestor? id (k + (m + 1)) = some t := by rw [ancestor?_add, hk, Option.bind_some, hm]
  refine ⟨k, k + (m + 1), t, by omega, ?_, ?_⟩
  · rw [visit?_eq, hk, Option.filter_some, if_pos (contains_of_parent? hp)]
  · rw [visit?_eq, hfar, Option.filter_some, if_pos (contains_of_parent? hp)]

/-- The chain of a handle is a list exactly if there is no circle on the way from it. -/
theorem isList_iff_not_circular : s.IsList id ↔ ¬ s.Circular id := by
  constructor
  · exact fun hl hc => hc.not_dom_markChain hl.mark
  · intro h
    obtain ⟨-, t, hmark, -⟩ := markChain_of_not_circular h
    refine ⟨⟨s.chain id, Part.eq_some_iff.1 (readChain_of_not_circular h), nodup_chain_of_not_circular h⟩, ?_⟩
    rw [hmark]
    exact Part.some_dom _

/-- A chain that is a list is what the bounded walks read and flag. -/
theorem isList_iff_bounded : s.IsList id ↔ s.readChain (some id) = Part.some (s.chain id) ∧
    ∃ k t, s.markChain id = Part.some (s.flagChain id, t) ∧ s.ancestor? id k = some t ∧ s.parent? t = none := by
  rw [isList_iff_not_circular]
  constructor
  · exact fun h => ⟨readChain_of_not_circular h, markChain_of_not_circular h⟩
  · rintro ⟨hread, -⟩ hc
    exact hc.not_dom_readChain (Part.dom_iff_mem.2 ⟨s.chain id, Part.eq_some_iff.1 hread⟩)

/-- On a way that goes round neither loop ends. -/
theorem circular_iff_endless : s.Circular id ↔ ¬ (s.readChain (some id)).Dom ∧ ¬ (s.markChain id).Dom ∧
    ∃ i j t, i < j ∧ s.visit? i (some id) = some t ∧ s.visit? j (some id) = some t := by
  constructor
  · exact fun h => ⟨h.not_dom_readChain, h.not_dom_markChain, h.exists_twice⟩
  · rintro ⟨-, hmark, -⟩
    exact Decidable.byContradiction fun hc => hmark (isList_iff_not_circular.2 hc).mark

end

/-! ## Where links lead to older tokens -/

/-- A grounded store has no circle: parents have smaller handles. -/
theorem Grounded.not_circular {s : TokenStore} (hs : s.Grounded) (t : TokenId) : ¬ s.Circular t := by
  refine not_circular_of_older (fun id p hp => ?_) t
  obtain ⟨l, hl, rfl⟩ := Option.map_eq_some_iff.1 hp
  exact Or.inl (hs id l hl)

/-- In a grounded store an ancestor is not newer than the token. -/
theorem Grounded.ancestor?_le {s : TokenStore} (hs : s.Grounded) {id t : TokenId} {k : Nat} (h : s.ancestor? id k = some t) :
    t ≤ id := by
  induction k generalizing t with
  | zero => exact Nat.le_of_eq (Option.some.inj h).symm
  | succ k ih =>
    rw [ancestor?_succ] at h
    obtain ⟨u, hu, hp⟩ := Option.bind_eq_some_iff.1 h
    obtain ⟨l, hl, rfl⟩ := Option.map_eq_some_iff.1 hp
    exact Nat.le_trans (Nat.le_of_lt (hs u l hl)) (ih hu)

/-- Flagging a chain without a bound flags what the bounded walk flags, and stops at the root. -/
theorem Grounded.markChain_eq {s : TokenStore} (hs : s.Grounded) {t : TokenId} (ht : t ≤ s.size) :
    s.markChain t = Part.some (s.flagChain t, rootToken) := by
  obtain ⟨k, last, hmark, hk, hlast⟩ := markChain_of_not_circular (hs.not_circular t)
  obtain rfl : last = rootToken := by
    refine Decidable.byContradiction fun h₀ => ?_
    obtain ⟨l, hl⟩ := exists_link? h₀ (Nat.le_trans (hs.ancestor?_le hk) ht)
    rw [parent?_eq_some hl] at hlast
    nomatch hlast
  exact hmark

/-! ## Chains after any pushes -/

/-- In a store that was filled by pushes, whatever their parents and facts are, the chain of a handle is a list exactly if the
parents do not lead from there into a circle. Then the loops end with what the bounded walks give, and flagging stops at a handle
without a parent. Otherwise neither loop ends, and reading comes to some token twice. There is no circle, for any handle, if each
push has a parent that was there before it or that is never pushed. -/
theorem isList_pushAll (ps : List Push) (id : TokenId) :
    ((pushAll ps).IsList id ↔ ¬ (pushAll ps).Circular id) ∧
    ((pushAll ps).IsList id ↔ (pushAll ps).readChain (some id) = Part.some ((pushAll ps).chain id) ∧
      ∃ k t, (pushAll ps).markChain id = Part.some ((pushAll ps).flagChain id, t) ∧ (pushAll ps).ancestor? id k = some t ∧
        (pushAll ps).parent? t = none) ∧
    ((pushAll ps).Circular id ↔ ¬ ((pushAll ps).readChain (some id)).Dom ∧ ¬ ((pushAll ps).markChain id).Dom ∧
      ∃ i j t, i < j ∧ (pushAll ps).visit? i (some id) = some t ∧ (pushAll ps).visit? j (some id) = some t) ∧
    ((∀ (n : Nat) (p : Push), ps[n]? = some p → p.parent ≤ n ∨ ps.length < p.parent) → (pushAll ps).IsList id) := by
  refine ⟨isList_iff_not_circular, isList_iff_bounded, circular_iff_endless, fun h => ?_⟩
  refine isList_iff_not_circular.2 (not_circular_of_older (fun t parent hp => ?_) id)
  cases t with
  | zero =>
    have hroot : (pushAll ps).parent? 0 = none := (pushAll ps).parent?_root
    rw [hroot] at hp
    cases hp
  | succ n =>
    rw [parent?_pushAll] at hp
    obtain ⟨p, hget, rfl⟩ := Option.map_eq_some_iff.1 hp
    rcases h n p hget with hle | hlt
    · exact Or.inl (Nat.lt_succ_of_le hle)
    · refine Or.inr (contains_eq_false_iff.2 ?_)
      rw [size_pushAll]
      exact hlt

/-- A link can be pushed that is its own parent. Its chain is no list. -/
theorem not_isList_of_own_parent : ¬ (pushAll [⟨1, 0, none, none⟩]).IsList 1 ∧
    ¬ ((pushAll [⟨1, 0, none, none⟩]).readChain (some 1)).Dom ∧ ¬ ((pushAll [⟨1, 0, none, none⟩]).markChain 1).Dom := by
  have h : (pushAll [⟨1, 0, none, none⟩]).Circular 1 := by decide
  exact ⟨fun hl => isList_iff_not_circular.1 hl h, h.not_dom_readChain, h.not_dom_markChain⟩

end TripleRules.TokenStore

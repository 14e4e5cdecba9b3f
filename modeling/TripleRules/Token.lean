import TripleRules.Fact

/-!
# Tokens

A token is the root, or a link of a partial match: the fact that one condition matched, and the token of the conditions before
it. The root matches no condition and is the start of every match. A store keeps the root in its first place and the links in
the places after it, in the order of their creation; a token is known by its place. The links that lead from a token to the
root are its chain.

A store does not ask that the parent of a new link is there already. A chain ends at the root, or at a parent that is missing.
-/

namespace TripleRules

/-- The position of a token in the token store. -/
abbrev TokenId := Nat

/-- The place of the root in every store. -/
def rootToken : TokenId := 0

/-- One link of a partial match. -/
structure Link where
  /-- The token of the conditions before. -/
  parent : TokenId
  /-- The fact that was matched. -/
  fact : FactId
  /-- The variable that the subject of the fact stands for. -/
  subjectVar : Option String
  /-- The variable that the object of the fact stands for. -/
  objectVar : Option String
  /-- Whether the link lies on the chain of a complete match. -/
  flagged : Bool
  deriving DecidableEq, Repr

/-- A token. Only a link has a parent, a fact, and a flag to set. -/
inductive Token where
  | root
  | link (l : Link)
  deriving DecidableEq, Repr

namespace Token

/-- The link that a token is, if it is one. -/
def link? : Token → Option Link
  | root => none
  | link l => some l

/-- The token with the flag set. -/
def flag : Token → Token
  | root => root
  | link l => link { l with flagged := true }

/-- Only the root is the root after its flag was set. -/
theorem flag_eq_root {x : Token} : x.flag = root ↔ x = root := by
  cases x <;> simp [flag]

end Token

/-- The tokens of a batch. The root is in the first place, and in no other. -/
structure TokenStore where
  /-- The tokens, in the order of their creation. -/
  slots : Array Token
  /-- The root is where it was put at first. -/
  root_iff : ∀ id : TokenId, slots[id]? = some .root ↔ id = rootToken
  deriving DecidableEq, Repr

namespace TokenStore

/-- The store that holds the root only. -/
def empty : TokenStore where
  slots := #[.root]
  root_iff id := by cases id <;> simp [rootToken]

/-- The first place holds the root. -/
@[simp] theorem getElem?_root (s : TokenStore) : s.slots[rootToken]? = some .root := (s.root_iff rootToken).2 rfl

/-- There is a first place. -/
theorem size_slots_pos (s : TokenStore) : 0 < s.slots.size := (Array.getElem?_eq_some_iff.1 s.getElem?_root).1

/-- Before the second place there is the root and nothing else. -/
theorem take_slots (s : TokenStore) : s.slots.take 1 = #[.root] := by
  refine Array.ext_getElem? fun id => ?_
  rw [Array.take_eq_extract, Array.getElem?_extract, Nat.min_eq_left s.size_slots_pos]
  cases id with
  | zero => exact s.getElem?_root
  | succ n => rfl

/-- The number of tokens besides the root. -/
def size (s : TokenStore) : Nat := s.slots.size - 1

/-- Whether a handle belongs to a token, the root included. -/
def contains (s : TokenStore) (id : TokenId) : Bool := id < s.slots.size

/-- The link with a handle; the root has none. -/
def link? (s : TokenStore) (id : TokenId) : Option Link := (s.slots[id]?).bind Token.link?

/-- The parent of a token; the root has none. -/
def parent? (s : TokenStore) (id : TokenId) : Option TokenId := (s.link? id).map (·.parent)

/-- The fact of a token; the root has none. -/
def fact? (s : TokenStore) (id : TokenId) : Option FactId := (s.link? id).map (·.fact)

/-- Adds a link and gives its handle. -/
def push (s : TokenStore) (parent : TokenId) (fact : FactId) (subjectVar objectVar : Option String) :
    TokenId × TokenStore :=
  (s.slots.size, {
    slots := s.slots.push (.link ⟨parent, fact, subjectVar, objectVar, false⟩)
    root_iff := fun id => by
      rw [Array.getElem?_push]
      split
      · rename_i hid
        simp [hid, rootToken, Nat.ne_of_gt s.size_slots_pos]
      · exact s.root_iff id })

/-- The handle that a number of steps from child to parent lead to. No step leads to the handle itself, whether it belongs to
a token or not; a step from the root or from a missing token leads nowhere. -/
def ancestor? (s : TokenStore) (id : TokenId) : Nat → Option TokenId
  | 0 => some id
  | steps + 1 =>
    match s.parent? id with
    | some parent => ancestor? s parent steps
    | none => none

/-- One step along a chain. The cursor is at a token, at a handle without one, or behind the root; the step gives the token at
the cursor and the cursor behind it. -/
def next? (s : TokenStore) (cursor : Option TokenId) : Option (TokenId × Option TokenId) :=
  cursor.bind fun id => if s.contains id then some (id, s.parent? id) else none

/-- The tokens from a cursor on, at most the given number. -/
def walkUpTo (s : TokenStore) : Nat → Option TokenId → List TokenId
  | 0, _ => []
  | n + 1, cursor =>
    match s.next? cursor with
    | some (id, cursor) => id :: s.walkUpTo n cursor
    | none => []

/-- The tokens from one token back to the root, or to where a parent is missing. A chain that ends meets no token twice, so it
is no longer than the store. -/
def chain (s : TokenStore) (id : TokenId) : List TokenId := s.walkUpTo (s.size + 1) (some id)

/-- The facts of the links of a chain, the one of the last condition first. -/
def chainFacts (s : TokenStore) (id : TokenId) : List FactId := (s.chain id).filterMap s.fact?

/-- Flags the link with a handle. -/
def flag (s : TokenStore) (id : TokenId) : TokenStore where
  slots := s.slots.modify id Token.flag
  root_iff other := by
    rw [Array.getElem?_modify]
    split
    · simp [Token.flag_eq_root, s.root_iff]
    · exact s.root_iff other

/-- Flags the first links of a chain, at most the given number. -/
def flagUpTo : Nat → TokenId → TokenStore → TokenStore
  | 0, _, s => s
  | n + 1, id, s =>
    match s.parent? id with
    | some parent => flagUpTo n parent (s.flag id)
    | none => s

/-- Flags every link of a chain. -/
def flagChain (s : TokenStore) (id : TokenId) : TokenStore := flagUpTo s.size id s

/-- Whether a token is flagged. -/
def isFlagged (s : TokenStore) (id : TokenId) : Bool := (s.link? id).any (·.flagged)

/-- Cuts the store off behind its first place. -/
def clear (s : TokenStore) : TokenStore where
  slots := s.slots.take 1
  root_iff := s.take_slots ▸ empty.root_iff

/-! ## The root and the handles -/

/-- The places are the root and as many more as there are other tokens. -/
theorem size_slots (s : TokenStore) : s.slots.size = s.size + 1 := (Nat.sub_add_cancel s.size_slots_pos).symm

/-- The handles in use are those up to the number of links. -/
theorem contains_iff {s : TokenStore} {id : TokenId} : s.contains id = true ↔ id ≤ s.size := by
  rw [contains, decide_eq_true_iff, size_slots, Nat.lt_succ_iff]

/-- The handles that are not in use are those behind the last link. -/
theorem contains_eq_false_iff {s : TokenStore} {id : TokenId} : s.contains id = false ↔ s.size < id := by
  rw [← Bool.not_eq_true, contains_iff, Nat.not_le]

/-- The root is always there. -/
@[simp] theorem contains_root (s : TokenStore) : s.contains rootToken = true := contains_iff.2 (Nat.zero_le _)

@[simp] theorem link?_root (s : TokenStore) : s.link? rootToken = none := by
  rw [link?, getElem?_root]
  rfl

/-- The root has no parent. -/
@[simp] theorem parent?_root (s : TokenStore) : s.parent? rootToken = none := by
  rw [parent?, link?_root]
  rfl

/-- The root matches no fact. -/
@[simp] theorem fact?_root (s : TokenStore) : s.fact? rootToken = none := by
  rw [fact?, link?_root]
  rfl

/-- A handle has a link exactly if it is a token other than the root. -/
theorem isSome_link? (s : TokenStore) (id : TokenId) : (s.link? id).isSome ↔ id ≠ rootToken ∧ s.contains id := by
  rw [contains, decide_eq_true_iff, ne_eq, ← s.root_iff id, link?]
  cases hx : s.slots[id]? with
  | none => simp [Array.getElem?_eq_none_iff.1 hx]
  | some x =>
    have hid : id < s.slots.size := (Array.getElem?_eq_some_iff.1 hx).1
    cases x <;> simp [Token.link?, hid]

/-! ## Links after each operation -/

/-- A store without links has none at any handle. -/
@[simp] theorem link?_empty (id : TokenId) : empty.link? id = none := by
  cases id <;> rfl

/-- A new token gets the next handle. -/
@[simp] theorem push_fst (s : TokenStore) (parent : TokenId) (fact : FactId) (x y : Option String) :
    (s.push parent fact x y).1 = s.size + 1 := s.size_slots

@[simp] theorem size_push (s : TokenStore) (parent : TokenId) (fact : FactId) (x y : Option String) :
    (s.push parent fact x y).2.size = s.size + 1 := by
  rw [← s.size_slots]
  simp [push, size]

/-- A push gives the new handle its link and leaves every other handle as it was. -/
theorem link?_push (s : TokenStore) (parent : TokenId) (fact : FactId) (x y : Option String) (id : TokenId) :
    (s.push parent fact x y).2.link? id = if id = s.size + 1 then some ⟨parent, fact, x, y, false⟩ else s.link? id := by
  rw [← s.size_slots, link?, push, Array.getElem?_push]
  split
  · rfl
  · rw [link?]

@[simp] theorem size_flag (s : TokenStore) (id : TokenId) : (s.flag id).size = s.size := by
  simp [flag, size]

/-- Flagging changes the flag of one link and nothing else. -/
theorem link?_flag (s : TokenStore) (id other : TokenId) :
    (s.flag id).link? other =
      if other = id then (s.link? other).map fun l => { l with flagged := true } else s.link? other := by
  rw [link?, flag, Array.getElem?_modify, link?]
  by_cases h : other = id
  · rw [if_pos h, if_pos h.symm]
    cases s.slots[other]? with
    | none => rfl
    | some x => cases x <;> rfl
  · rw [if_neg h, if_neg (Ne.symm h)]

/-- What is left of a store that was cut off is the root alone. -/
theorem clear_eq_empty (s : TokenStore) : s.clear = empty := by
  simp only [clear, empty, s.take_slots]

/-- Flagging keeps the parents, so it keeps every chain. -/
@[simp] theorem parent?_flag (s : TokenStore) (id other : TokenId) : (s.flag id).parent? other = s.parent? other := by
  rw [parent?, link?_flag, parent?]
  split <;> simp [Function.comp_def]

/-- A walk of two parts is the second walk from where the first one ends. -/
theorem ancestor?_add (s : TokenStore) (id : TokenId) (k m : Nat) :
    s.ancestor? id (k + m) = (s.ancestor? id k).bind (s.ancestor? · m) := by
  induction k generalizing id with
  | zero => simp [ancestor?]
  | succ k ih =>
    rw [Nat.add_right_comm, ancestor?, ancestor?]
    cases s.parent? id with
    | none => rfl
    | some parent => exact ih parent

end TokenStore

end TripleRules

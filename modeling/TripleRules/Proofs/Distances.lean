import Mathlib.Data.Seq.Basic
import TripleRules.Proofs.Walks
import TripleRules.Proofs.WellFormed

/-!
# Facts at a distance

A chain is read in two ways. A test of a join goes a number of links back and takes the fact that it finds there; on its way it does
not ask whether what it comes to is a token. The bindings and the matches are read off the tokens that an iterator gives one after the
other, up to the root or to a parent that is missing.

Both read the same facts: what the iterator gives at a distance is the token that many links back, whatever the links of the store
are. Also where the links go round, and the iterator has no end.
-/

namespace TripleRules

namespace TokenStore

/-! ## The iterator -/

/-- The tokens that the iterator along a chain gives, one after the other. There is no last one if the parents go round. -/
def trail (s : TokenStore) (id : TokenId) : Stream'.Seq TokenId := .corec s.next? (some id)

/-- The steps from a handle and the iterator along its chain are one walk. -/
structure OneWalk (s : TokenStore) (id : TokenId) : Prop where
  /-- The iterator gives the tokens that the steps lead to, and nothing where they lead nowhere or to what is no token. -/
  reached : ∀ k t, (s.trail id).get? k = some t ↔ s.ancestor? id k = some t ∧ s.contains t = true
  /-- Steps can be made in two parts. -/
  add : ∀ k m, s.ancestor? id (k + m) = (s.ancestor? id k).bind (s.ancestor? · m)
  /-- The parts lead nowhere exactly if one of them does. -/
  nowhere : ∀ k m, s.ancestor? id (k + m) = none ↔
    s.ancestor? id k = none ∨ ∃ t, s.ancestor? id k = some t ∧ s.ancestor? t m = none
  /-- The chain is what the iterator gives, as far as there can be different tokens. -/
  start : s.chain id = (s.trail id).take (s.size + 1)
  /-- There is nothing more unless the parents go round. -/
  all : ¬ s.Circular id → s.trail id = Stream'.Seq.ofList (s.chain id)

/-- The iterator gives what the walk comes to. -/
theorem get?_corec_next? (s : TokenStore) (cursor : Option TokenId) (k : Nat) :
    (Stream'.Seq.corec s.next? cursor).get? k = s.visit? k cursor := by
  induction k generalizing cursor with
  | zero =>
    cases h : s.next? cursor with
    | none => rw [Stream'.Seq.corec_nil _ _ h, visit?, h, Stream'.Seq.get?_nil, Option.map_none]
    | some step => rw [Stream'.Seq.corec_cons h, visit?, h, Stream'.Seq.get?_cons_zero, Option.map_some]
  | succ k ih =>
    cases h : s.next? cursor with
    | none => rw [Stream'.Seq.corec_nil _ _ h, visit?, h, Stream'.Seq.get?_nil, Option.bind_none]
    | some step => rw [Stream'.Seq.corec_cons h, visit?, h, Stream'.Seq.get?_cons_succ, ih, Option.bind_some]

/-- At each distance the iterator gives the ancestor, provided that it is a token. -/
theorem get?_trail (s : TokenStore) (id : TokenId) (k : Nat) :
    (s.trail id).get? k = (s.ancestor? id k).filter s.contains := by
  rw [trail, get?_corec_next?, visit?_eq]

theorem get?_trail_eq_some {s : TokenStore} {id t : TokenId} {k : Nat} :
    (s.trail id).get? k = some t ↔ s.ancestor? id k = some t ∧ s.contains t = true := by
  rw [get?_trail, Option.filter_eq_some_iff]

/-- A chain is the start of what the iterator gives, one more than there are links. -/
theorem chain_eq_take (s : TokenStore) (id : TokenId) : s.chain id = (s.trail id).take (s.size + 1) := by
  refine List.ext_getElem? fun k => ?_
  rw [chain, getElem?_walkUpTo, Stream'.Seq.getElem?_take, trail, get?_corec_next?]

/-- Where the parents do not go round, the iterator gives the tokens of the chain and stops. -/
theorem trail_of_not_circular {s : TokenStore} {id : TokenId} (h : ¬ s.Circular id) :
    s.trail id = Stream'.Seq.ofList (s.chain id) := by
  have hend : (s.trail id).get? (s.size + 1) = none := by
    rw [trail, get?_corec_next?, visit?_size_eq_none h]
  refine Stream'.Seq.ext fun k => ?_
  rw [Stream'.Seq.ofList_get?, chain_eq_take, Stream'.Seq.getElem?_take]
  split
  · rfl
  · -- where the iterator has stopped it stays
    rename_i hk
    exact Stream'.Seq.le_stable _ (Nat.le_of_not_lt hk) hend

/-- A walk of two parts leads nowhere exactly if one of the parts does. -/
theorem ancestor?_add_eq_none {s : TokenStore} {id : TokenId} {k m : Nat} :
    s.ancestor? id (k + m) = none ↔ s.ancestor? id k = none ∨ ∃ t, s.ancestor? id k = some t ∧ s.ancestor? t m = none := by
  rw [ancestor?_add, Option.bind_eq_none_iff]
  cases s.ancestor? id k with
  | none => simp
  | some t => simp

/-- A bounded walk gives what it comes to at the distances below its bound. -/
theorem walkUpTo_eq_filterMap (s : TokenStore) (n : Nat) (cursor : Option TokenId) :
    s.walkUpTo n cursor = (List.range n).filterMap (s.visit? · cursor) := by
  induction n generalizing cursor with
  | zero => rfl
  | succ n ih =>
    rw [List.range_succ_eq_map, List.filterMap_cons, List.filterMap_map, walkUpTo, visit?]
    cases h : s.next? cursor with
    | none =>
      have hnone : ((s.visit? · cursor) ∘ Nat.succ) = fun _ => none := by
        funext k
        rw [Function.comp_apply, visit?, h, Option.bind_none]
      rw [hnone, Option.map_none, List.filterMap_none]
    | some step =>
      have hstep : ((s.visit? · cursor) ∘ Nat.succ) = (s.visit? · step.2) := by
        funext k
        rw [Function.comp_apply, visit?, h, Option.bind_some]
      rw [hstep, Option.map_some, ← ih]

theorem chain_eq_filterMap (s : TokenStore) (id : TokenId) :
    s.chain id = (List.range (s.size + 1)).filterMap fun k => (s.ancestor? id k).filter s.contains := by
  rw [chain, walkUpTo_eq_filterMap]
  simp only [visit?_eq]

/-! ## Links -/

/-- What is no token has no link. -/
theorem link?_eq_none {s : TokenStore} {t : TokenId} (h : s.contains t = false) : s.link? t = none := by
  refine Option.not_isSome_iff_eq_none.1 fun hsome => ?_
  rw [((s.isSome_link? t).1 hsome).2] at h
  nomatch h

/-- One step back from a token leads to its parent. -/
theorem ancestor?_succ_of_link? {s : TokenStore} {t : TokenId} {l : Link} (hl : s.link? t = some l) (k : Nat) :
    s.ancestor? t (k + 1) = s.ancestor? l.parent k := by
  rw [ancestor?, parent?_eq_some hl]

end TokenStore

namespace Network

/-! ## Facts -/

/-- The fact that a token stands for. -/
def factOf? (n : Network) (token : TokenId) : Option Fact := (n.tokens.fact? token).bind n.fact?

/-- The fact that is found a number of links back from a token. -/
def factAbove? (n : Network) (token : TokenId) (steps : Nat) : Option Fact := (n.tokens.ancestor? token steps).bind n.factOf?

/-- Binds the variables of the token that is a number of links back, to the terms of the fact that is found there. -/
def bindAbove (n : Network) (select : List String) (token : TokenId) (b : Bindings) (steps : Nat) : Bindings :=
  match (n.tokens.ancestor? token steps).bind n.tokens.link?, n.factAbove? token steps with
  | some l, some f => bind select (bind select b l.subjectVar f.subject) l.objectVar f.object
  | _, _ => b

variable {n : Network}

/-- What is no token stands for no fact. -/
theorem factOf?_eq_none {t : TokenId} (h : n.tokens.contains t = false) : n.factOf? t = none := by
  rw [factOf?, TokenStore.fact?, TokenStore.link?_eq_none h, Option.map_none, Option.bind_none]

/-- The fact at a distance is that of the token that the iterator gives there. -/
theorem factAbove?_eq_trail (n : Network) (t : TokenId) (k : Nat) :
    n.factAbove? t k = ((n.tokens.trail t).get? k).bind n.factOf? := by
  rw [TokenStore.get?_trail, factAbove?]
  cases n.tokens.ancestor? t k with
  | none => rfl
  | some a =>
    rw [Option.filter_some, Option.bind_some]
    cases h : n.tokens.contains a with
    | true => rw [if_pos rfl, Option.bind_some]
    | false => rw [if_neg Bool.false_ne_true, Option.bind_none, factOf?_eq_none h]

/-- What is found above a token is found one link nearer to its parent. -/
theorem factAbove?_succ {t : TokenId} {l : Link} (hl : n.tokens.link? t = some l) (k : Nat) :
    n.factAbove? t (k + 1) = n.factAbove? l.parent k := by
  rw [factAbove?, TokenStore.ancestor?_succ_of_link? hl, factAbove?]

/-- A test compares the new fact with the one that it finds, and holds if it finds none. -/
theorem holds_iff {t : TokenId} {new : Fact} {test : JoinTest} : n.holds t new test = true ↔
    ∀ old, n.factAbove? t (test.levelsUp - 1) = some old → test.newField.read new = test.oldField.read old := by
  have hold : (do
      let a ← n.tokens.ancestor? t (test.levelsUp - 1)
      let f ← n.tokens.fact? a
      n.facts[f]?) = n.factAbove? t (test.levelsUp - 1) := rfl
  rw [holds, hold]
  cases n.factAbove? t (test.levelsUp - 1) with
  | none => simp
  | some old => simp

/-- For the token that is stored for a pair, what a test found is as many links back as the test says. -/
theorem holds_iff_of_link? {t : TokenId} {l : Link} (hl : n.tokens.link? t = some l) {new : Fact} {test : JoinTest}
    (hup : 0 < test.levelsUp) : n.holds l.parent new test = true ↔
      ∀ old, n.factAbove? t test.levelsUp = some old → test.newField.read new = test.oldField.read old := by
  rw [holds_iff, ← factAbove?_succ hl, Nat.sub_add_cancel hup]

/-- A token gives the terms of its fact to the variables of its link. -/
theorem bindLink_eq (n : Network) (select : List String) (b : Bindings) (t : TokenId) : n.bindLink select b t =
    match n.tokens.link? t, n.factOf? t with
    | some l, some f => bind select (bind select b l.subjectVar f.subject) l.objectVar f.object
    | _, _ => b := by
  rw [bindLink, factOf?, TokenStore.fact?]
  cases n.tokens.link? t with
  | none => rfl
  | some l =>
    rw [Option.map_some, Option.bind_some]
    cases hf : n.fact? l.fact with
    | none => simp [hf]
    | some f => simp [hf]

/-- The bindings are read off the facts at the distances, one after the other. -/
theorem bindingsOf_eq_foldl (n : Network) (select : List String) (t : TokenId) :
    n.bindingsOf select t = (List.range (n.tokens.size + 1)).foldl (n.bindAbove select t) .empty := by
  rw [bindingsOf, TokenStore.chain_eq_filterMap, List.foldl_filterMap]
  congr 1
  funext b k
  rw [bindAbove, factAbove?]
  cases n.tokens.ancestor? t k with
  | none => rfl
  | some a =>
    rw [Option.filter_some, Option.bind_some, Option.bind_some]
    cases h : n.tokens.contains a with
    | true => exact n.bindLink_eq select b a
    | false => rw [if_neg Bool.false_ne_true, TokenStore.link?_eq_none h]

/-- A match is made of the facts at the distances, the furthest first. -/
theorem matchOf_eq (n : Network) (t : TokenId) :
    n.matchOf t = ((List.range (n.tokens.size + 1)).filterMap (n.factAbove? t)).reverse := by
  rw [matchOf, TokenStore.chainFacts, TokenStore.chain_eq_filterMap, List.filterMap_filterMap, List.filterMap_filterMap]
  congr 2
  funext k
  rw [factAbove?_eq_trail, TokenStore.get?_trail]
  rfl

/-! ## Networks that calls lead to -/

/-- Where a test of a join and the reading of a match find the facts of a token that is stored below the join: the earlier fact is as
many links back as the test says, for the parent that the join had, on the chain, and in the match from its end. -/
structure ReadsAlike (n : Network) (t : TokenId) (test : JoinTest) (l : Link) (old new : Fact) : Prop where
  link : n.tokens.link? t = some l
  /-- What the test found. -/
  found : n.factAbove? l.parent (test.levelsUp - 1) = some old
  /-- What is read for the bindings. -/
  chain : ((n.tokens.chain t)[test.levelsUp]?).bind n.factOf? = some old
  /-- What is read for the match. -/
  tuple : (n.matchOf t).reverse[test.levelsUp]? = some old
  /-- The fact of the token itself. -/
  own : n.factOf? t = some new
  equal : test.newField.read new = test.oldField.read old

/-- A sound network has the facts of a token at their distances from the end of its match. -/
theorem Sound.getElem?_reverse_matchOf (h : n.Sound) {id : NodeId} {t : TokenId} (ht : t ∈ n.held id) (k : Nat) :
    (n.matchOf t).reverse[k]? = n.factAbove? t k := by
  have hle := h.le_of_held ht
  rw [Network.getElem?_reverse_matchOf h.toWired h.toPaired hle, TokenStore.getElem?_chainFacts h.grounded hle, Option.bind_assoc]
  rfl

/-- In a sound network a test of a join and the reading of a match find the same facts, and the test holds between them. -/
theorem Sound.readsAlike (h : n.Sound) {join id : NodeId} {j : JoinNode} (hj : n.nodes[join]? = some (.join j))
    (hid : id ∈ j.children) {t : TokenId} (ht : t ∈ n.held id) {test : JoinTest} (htest : test ∈ j.tests) :
    0 < test.levelsUp ∧ ∃ l old new, n.ReadsAlike t test l old new := by
  obtain ⟨js, hpath, -⟩ := h.join_tests hj
  have hup := (h.levelsUp_bounds hj hpath htest).1
  obtain ⟨x, hx, hparent⟩ := (h.child_iff hj id).1 hid
  obtain ⟨l, hl, -, -, hm⟩ := h.justified (parentOf_eq_some.2 ⟨x, hx, hparent⟩) hj ht
  obtain ⟨a, f, old, new, ha, hf, hold, hnew, hread⟩ := h.exists_read_eq hj hm htest
  have hfound : n.factAbove? l.parent (test.levelsUp - 1) = some old := by
    rw [factAbove?, ha, Option.bind_some, factOf?, hf, Option.bind_some]
    exact hold
  have habove : n.factAbove? t test.levelsUp = some old := by
    rw [← hfound, ← factAbove?_succ hl, Nat.sub_add_cancel hup]
  refine ⟨hup, l, old, new, hl, hfound, ?_, ?_, ?_, hread⟩
  · rw [← habove, factAbove?_eq_trail, TokenStore.trail_of_not_circular (h.grounded.not_circular t), Stream'.Seq.ofList_get?]
  · rw [h.getElem?_reverse_matchOf ht, habove]
  · rw [factOf?, TokenStore.fact?_eq_some hl]
    exact hnew

/-! ## The two walks agree -/

/-- A test of a join finds the fact that the iterator has at the distance of the test, and so do the bindings and the match. -/
structure OneReading (n : Network) (t : TokenId) : Prop where
  reached : ∀ k, ((n.tokens.trail t).get? k).bind n.factOf? = n.factAbove? t k
  /-- The test was made for the parent of the token. -/
  test : ∀ (l : Link) (new : Fact) (test : JoinTest), n.tokens.link? t = some l → 0 < test.levelsUp →
    (n.holds l.parent new test = true ↔
      ∀ old, n.factAbove? t test.levelsUp = some old → test.newField.read new = test.oldField.read old)
  bindings : ∀ select, n.bindingsOf select t = (List.range (n.tokens.size + 1)).foldl (n.bindAbove select t) .empty
  tuple : n.matchOf t = ((List.range (n.tokens.size + 1)).filterMap (n.factAbove? t)).reverse

/-- In any store, whatever its links are, the iterator along a chain and the steps from parent to parent are one walk. So in any
network, whatever state it is in, a test of a join looks at the fact that the bindings and the match of the new token have at its
distance. In the networks that calls lead to these facts are there, and the test holds between them. -/
theorem walks_agree : (∀ (s : TokenStore) (id : TokenId), s.OneWalk id) ∧ (∀ (n : Network) (t : TokenId), n.OneReading t) ∧
    ∀ cs : List Call, ∃ n rs, calls cs = .ok (n, rs) ∧
      ∀ (join id : NodeId) (j : JoinNode) (t : TokenId) (test : JoinTest), n.nodes[join]? = some (.join j) → id ∈ j.children →
        t ∈ n.held id → test ∈ j.tests → 0 < test.levelsUp ∧ ∃ l old new, n.ReadsAlike t test l old new := by
  refine ⟨fun s id => ?_, fun n t => ?_, fun cs => ?_⟩
  · exact ⟨fun k t => TokenStore.get?_trail_eq_some, s.ancestor?_add id, fun k m => TokenStore.ancestor?_add_eq_none,
      s.chain_eq_take id, TokenStore.trail_of_not_circular⟩
  · exact ⟨fun k => (n.factAbove?_eq_trail t k).symm, fun l new test hl hup => holds_iff_of_link? hl hup,
      fun select => n.bindingsOf_eq_foldl select t, n.matchOf_eq t⟩
  · obtain ⟨n, rs, he, h⟩ := calls_ok cs
    exact ⟨n, rs, he, fun join id j t test hj hid ht htest => h.toSound.readsAlike hj hid ht htest⟩

/-- The host likes the guest who drinks tea: the two tests of the last condition look back to different conditions. -/
def fondRule : Rule := ⟨"fond", Rule.teaRule.conditions ++ [.between "?host" (.resource "likes") "?guest"], [], ["?guest"]⟩

/-- A match of the rule, and the beginning of another one. -/
def fondCalls : List Call :=
  .rule fondRule :: Fact.teaFacts.map .fact ++
    [.fact ⟨.resource "dan", .resource "drinks", .resource "tea"⟩, .fact ⟨.resource "cat", .resource "likes", .resource "dan"⟩]

/-- Two tokens are parents of each other, and the iterator goes on for ever. The parent of another one is missing, where the steps lead
to a handle and the iterator stops. The host of a match is found two links back. -/
theorem walks_agree_fond :
    ((TokenStore.pushAll [⟨2, 0, none, none⟩, ⟨1, 1, none, none⟩]).trail 1).get? 5 = some 2 ∧
    (TokenStore.pushAll [⟨7, 0, none, none⟩]).ancestor? 1 1 = some 7 ∧
    ((TokenStore.pushAll [⟨7, 0, none, none⟩]).trail 1).get? 1 = none ∧
    ∃ n rs l old new, calls fondCalls = .ok (n, rs) ∧ n.held 6 = [5] ∧
      n.ReadsAlike 5 ⟨"?host", .subject, 2, .subject⟩ l old new := by
  obtain ⟨hstore, -, hcalls⟩ := walks_agree
  have hmissing : (TokenStore.pushAll [⟨7, 0, none, none⟩]).ancestor? 1 1 = some 7 := by decide
  refine ⟨((hstore _ 1).reached 5 2).2 (by decide), hmissing, ?_, ?_⟩
  · refine Option.eq_none_iff_forall_ne_some.2 fun t ht => ?_
    obtain ⟨ha, hin⟩ := ((hstore _ 1).reached 1 t).1 ht
    obtain rfl : 7 = t := Option.some.inj (hmissing.symm.trans ha)
    nomatch hin
  · obtain ⟨n, rs, he, h⟩ := hcalls fondCalls
    have hrun : (calls fondCalls).map (fun p => (p.1.nodes[5]?, p.1.held 6)) =
        .ok (some (.join ⟨2, [⟨"?host", .subject, 2, .subject⟩, ⟨"?guest", .object, 1, .subject⟩],
          .between "?host" (.resource "likes") "?guest", 4, [6]⟩), [5]) := by
      decide +kernel
    rw [he] at hrun
    obtain ⟨hj, hheld⟩ := Prod.mk.inj (Except.ok.inj hrun)
    obtain ⟨-, l, old, new, hr⟩ := h 5 6 _ 5 ⟨"?host", .subject, 2, .subject⟩ hj (List.mem_singleton_self _)
      (by rw [hheld]; exact List.mem_singleton_self _) List.mem_cons_self
    exact ⟨n, rs, l, old, new, he, hheld, hr⟩

end Network

end TripleRules

import Mathlib.Data.List.Induction
import TripleRules.Proofs.Histories

/-!
# What the mentions of a variable read

A test compares a mention of a variable with the nearest one before it, and with no other. Along a tuple that passes its tests this
is enough: every condition that mentions the variable reads the same term for it, however far apart the conditions are, and one that
is not the first to mention it has the term in each of its places that hold the variable. So it does not matter off which of the
conditions the bindings read a term.
-/

namespace TripleRules

/-- Whether a fact passes the tests of its condition after the facts of other conditions: each test holds between the fact and the one
as many conditions before as the test says. -/
def Condition.PassedBy (c : Condition) (cs : List Condition) (gs : List Fact) (g : Fact) : Prop :=
  ∀ t ∈ c.tests cs.reverse, ∃ k h, k + t.levelsUp = gs.length ∧ gs[k]? = some h ∧ t.newField.read g = t.oldField.read h

/-- A tuple of facts, one for each condition, that pass the tests of their conditions after those before. -/
structure PassesTests (cs : List Condition) (gs : List Fact) : Prop where
  length : cs.length = gs.length
  passed : ∀ (i : Nat) (c : Condition) (g : Fact), cs[i]? = some c → gs[i]? = some g → c.PassedBy (cs.take i) (gs.take i) g

/-- What the conditions of a tuple read for a variable is one term. -/
structure ReadsAs (cs : List Condition) (gs : List Fact) (name : String) (v : Term) : Prop where
  /-- Each condition that mentions the variable reads the term, off the subject if that is the variable and off the object if not. -/
  read : ∀ (i : Nat) (c : Condition) (g : Fact), cs[i]? = some c → gs[i]? = some g → ∀ field, c.fieldOf? name = some field →
    field.read g = v
  /-- A condition after one that mentions the variable has the term wherever it has the variable. -/
  later : ∀ (k i : Nat) (d c : Condition) (g : Fact), k < i → cs[k]? = some d → d.mentions name = true → cs[i]? = some c →
    gs[i]? = some g → ∀ field, c.slot field = .var name → field.read g = v

/-! ## Tests -/

/-- One more condition takes the tuples so far, each with one more fact that passes the tests of the condition. -/
theorem passesTests_append {cs : List Condition} {gs : List Fact} {c : Condition} {g : Fact} (hlen : cs.length = gs.length) :
    PassesTests (cs ++ [c]) (gs ++ [g]) ↔ PassesTests cs gs ∧ c.PassedBy cs gs g := by
  -- what comes before a place is the same with one more element at the end
  have hpast : ∀ {i : Nat} {d : Condition} {e : Fact}, cs[i]? = some d →
      (d.PassedBy ((cs ++ [c]).take i) ((gs ++ [g]).take i) e ↔ d.PassedBy (cs.take i) (gs.take i) e) := by
    intro i d e hd
    have hi := Nat.le_of_lt (List.getElem?_eq_some_iff.1 hd).1
    rw [List.take_append_of_le_length hi, List.take_append_of_le_length (hlen ▸ hi)]
  have hlast : (cs ++ [c]).take cs.length = cs ∧ (gs ++ [g]).take cs.length = gs :=
    ⟨List.take_left, by rw [hlen, List.take_left]⟩
  constructor
  · intro h
    obtain ⟨hold, hnew⟩ := (List.forall_getElem?_append_singleton hlen).1 h.passed
    rw [hlast.1, hlast.2] at hnew
    exact ⟨⟨hlen, fun i d e hd he => (hpast hd).1 (hold i d e hd he)⟩, hnew⟩
  · rintro ⟨hold, hnew⟩
    refine ⟨by simp [hlen], (List.forall_getElem?_append_singleton hlen).2
      ⟨fun i d e hd he => (hpast hd).2 (hold.passed i d e hd he), ?_⟩⟩
    rw [hlast.1, hlast.2]
    exact hnew

/-- The facts of a tuple that passes the tests agree on the variables of the conditions. -/
theorem agrees_of_passesTests {cs : List Condition} {gs : List Fact} (h : PassesTests cs gs) : Agrees (pairs cs gs) := by
  induction cs using List.reverseRecOn generalizing gs with
  | nil =>
    obtain rfl := List.length_eq_zero_iff.1 h.length.symm
    trivial
  | append_singleton cs c ih =>
    have hlen := h.length
    rcases List.eq_nil_or_concat gs with rfl | ⟨hs, g, rfl⟩
    · simp at hlen
    · rw [List.concat_eq_append] at h hlen ⊢
      have hlen : cs.length = hs.length := by simpa using hlen
      obtain ⟨hold, hnew⟩ := (passesTests_append hlen).1 h
      rw [pairs_append hlen]
      refine ⟨ih hold, fun field name v hslot hterm => ?_⟩
      cases hm : nearestMention? name ((pairs cs hs).map Prod.fst) with
      | none =>
        rw [termOf?_eq_none hm] at hterm
        nomatch hterm
      | some mention =>
        obtain ⟨distance, old⟩ := mention
        obtain ⟨p, hp, -, hv⟩ := termOf?_of_mention hm
        rw [map_fst_pairs hlen] at hm
        obtain ⟨k, e, hk, he, hread⟩ := hnew ⟨name, field, distance, old⟩
          (Condition.mem_tests.2 ⟨field, name, distance, old, Slot.varName?_eq_some.2 hslot, hm, rfl⟩)
        obtain rfl := Option.some.inj (he.symm.trans (getElem?_pairs hlen (nearestMention?_bounds hm).1 hk hp))
        exact hread.trans (Option.some.inj (hv.symm.trans hterm))

/-! ## Terms -/

/-- Whichever condition mentions a variable, it reads the term that the last one reads. -/
theorem termOf?_of_fieldOf? {ps : List (Condition × Fact)} (ha : Agrees ps) {p : Condition × Fact} (hp : p ∈ ps) {name : String}
    {field : Field} (hf : p.1.fieldOf? name = some field) : termOf? name ps = some (field.read p.2) := by
  induction ps with
  | nil => exact absurd hp List.not_mem_nil
  | cons q ps ih =>
    obtain ⟨c, g⟩ := q
    rw [termOf?_cons]
    rcases List.mem_cons.1 hp with rfl | hp
    · rw [hf]
    · have hterm := ih ha.1 hp
      cases hc : c.fieldOf? name with
      | none => exact hterm
      | some f => exact congrArg some (ha.2 f name _ (Condition.fieldOf?_eq_some hc).1 hterm)

theorem Agrees.of_append {new old : List (Condition × Fact)} (ha : Agrees (new ++ old)) : Agrees old := by
  induction new with
  | nil => exact ha
  | cons p new ih => exact ih ha.1

/-- After a mention of a variable, a condition has the term in each of its places that hold the variable. -/
theorem termOf?_of_slot_after {new old : List (Condition × Fact)} {p q : Condition × Fact} (ha : Agrees (new ++ p :: old))
    (hq : q ∈ old) {name : String} (hm : q.1.mentions name = true) {field : Field} (hs : p.1.slot field = .var name) :
    termOf? name (new ++ p :: old) = some (field.read p.2) := by
  obtain ⟨hold, hnew⟩ := ha.of_append
  obtain ⟨earlier, hearlier⟩ := Condition.mentions_iff.1 hm
  obtain ⟨v, hv⟩ := exists_termOf? hq hearlier
  cases hf : p.1.fieldOf? name with
  | none => exact absurd hs (Condition.fieldOf?_eq_none hf field)
  | some f =>
    have hp : p ∈ new ++ p :: old := List.mem_append_right _ List.mem_cons_self
    rw [termOf?_of_fieldOf? ha hp hf, hnew f name v (Condition.fieldOf?_eq_some hf).1 hv, hnew field name v hs hv]

theorem mem_pairs {cs : List Condition} {gs : List Fact} {i : Nat} {c : Condition} {g : Fact} (hc : cs[i]? = some c)
    (hg : gs[i]? = some g) : (c, g) ∈ pairs cs gs :=
  List.mem_reverse.2 (List.mem_of_getElem? (List.getElem?_zip_eq_some.2 ⟨hc, hg⟩))

/-- A place of a tuple stands between what comes after it and what comes before it. -/
theorem pairs_eq_append {cs : List Condition} {gs : List Fact} {i : Nat} {c : Condition} {g : Fact} (hc : cs[i]? = some c)
    (hg : gs[i]? = some g) :
    pairs cs gs = pairs (cs.drop (i + 1)) (gs.drop (i + 1)) ++ (c, g) :: pairs (cs.take i) (gs.take i) := by
  obtain ⟨hi, hz⟩ := List.getElem?_eq_some_iff.1 (List.getElem?_zip_eq_some.2 ⟨hc, hg⟩ : (cs.zip gs)[i]? = some (c, g))
  have htake : (cs.zip gs).take i = (cs.take i).zip (gs.take i) := List.take_zipWith
  have hdrop : (cs.zip gs).drop (i + 1) = (cs.drop (i + 1)).zip (gs.drop (i + 1)) := List.drop_zipWith
  calc pairs cs gs = ((cs.zip gs).take i ++ (cs.zip gs).drop i).reverse := by rw [List.take_append_drop, pairs]
    _ = ((cs.zip gs).drop (i + 1)).reverse ++ (c, g) :: ((cs.zip gs).take i).reverse := by
      rw [List.drop_eq_getElem_cons hi, hz, List.reverse_append, List.reverse_cons, List.append_assoc, List.singleton_append]
    _ = pairs (cs.drop (i + 1)) (gs.drop (i + 1)) ++ (c, g) :: pairs (cs.take i) (gs.take i) := by rw [htake, hdrop, pairs, pairs]

/-- The substitution that is read off a tuple that passes the tests gives each variable what the conditions read for it. -/
theorem readsAs_substOf {cs : List Condition} {gs : List Fact} (h : PassesTests cs gs) (name : String) :
    ReadsAs cs gs name (substOf (pairs cs gs) name) := by
  have ha := agrees_of_passesTests h
  constructor
  · intro i c g hc hg field hf
    rw [substOf, termOf?_of_fieldOf? ha (mem_pairs hc hg) hf, Option.getD_some]
  · intro k i d c g hki hd hm hc hg field hs
    -- the earlier condition is among those that the place comes after, with its fact
    have hlt := (List.getElem?_eq_some_iff.1 hd).1
    rw [h.length] at hlt
    have hearlier : (d, gs[k]) ∈ pairs (cs.take i) (gs.take i) := by
      refine mem_pairs (i := k) ?_ ?_
      · rw [List.getElem?_take_of_lt hki, hd]
      · rw [List.getElem?_take_of_lt hki, List.getElem?_eq_getElem hlt]
    rw [pairs_eq_append hc hg] at ha ⊢
    rw [substOf, termOf?_of_slot_after ha hearlier hm hs, Option.getD_some]

/-! ## Tokens -/

namespace Network

/-- The facts on the chain of a token pass the tests of the conditions on the way down to its node. -/
theorem Sound.passesTests_of_held {n : Network} (h : n.Sound) {id : NodeId} {js : List JoinNode} (hp : n.Path topNode id js)
    {t : TokenId} (ht : t ∈ n.held id) : PassesTests (js.map (·.condition)).reverse (n.matchOf t) := by
  induction hp generalizing t with
  | here =>
    rw [h.held_top, List.mem_singleton] at ht
    rw [ht, matchOf_root]
    exact ⟨rfl, fun i c g hc => nomatch hc⟩
  | @down id up x j js hx hup hj hpath ih =>
    obtain ⟨l, hl, -, -, hm⟩ := h.justified (parentOf_eq_some.2 ⟨x, hx, hup⟩) hj ht
    obtain ⟨g, hg⟩ := h.exists_fact hm.fact
    have hold := ih hm.token
    rw [List.map_cons, List.reverse_cons, matchOf_of_link h.grounded hl hg, passesTests_append hold.length]
    refine ⟨hold, fun test htest => ?_⟩
    obtain ⟨js', hp', htests⟩ := h.join_tests hj
    obtain rfl := h.path_unique hpath hp'
    rw [List.reverse_reverse, ← htests] at htest
    exact (passes_iff h.toWired h.toPaired hj hpath hm.token (h.length_matchOf hpath hm.token) hg).1 hm.passes test htest

/-! ## Histories -/

/-- Along a tuple that passes its tests every mention of a variable reads one term, and after the first mention every place of the
variable has it. So whatever rules, facts and resets a network is given, and in whatever order, what the bindings of a name report for
a selected variable is what each condition of the rule that mentions the variable reads for it, in the match that is reported. -/
theorem readsAs_of_passesTests :
    (∀ {cs : List Condition} {gs : List Fact}, PassesTests cs gs → ∀ name, ∃ v, ReadsAs cs gs name v) ∧
    ∀ cs : List Call, ∃ n rs, calls cs = .ok (n, rs) ∧ ∀ name b, n.bindings name = .ok (some b) →
      ∃ (i : Nat) (r : Rule) (id : NodeId) (t : TokenId), rs[i]? = some r ∧ r.name = name ∧ n.productions[i]? = some id ∧
        t ∈ n.held id ∧ PassesTests r.conditions (n.matchOf t) ∧
        ∀ x ∈ r.select, ∃ v, b.find? x = some v ∧ ReadsAs r.conditions (n.matchOf t) x v := by
  refine ⟨fun h name => ⟨_, readsAs_substOf h name⟩, fun cs => ?_⟩
  obtain ⟨n, rs, he, h⟩ := calls_ok cs
  have hr := registered_of_addRules h.rules
  refine ⟨n, rs, he, fun name b hb => ?_⟩
  obtain ⟨id, hs⟩ := satisfied_of_bindings h.toMarked hr hb
  obtain ⟨p, t, hp, hname, ht, -, hb'⟩ := bindings_of_satisfied h.toMarked hs
  obtain rfl := Option.some.inj (Except.ok.inj (hb'.symm.trans hb))
  obtain ⟨i, r, hid, hi, hrule, hselect, js, hpath, hjs⟩ := hr.exists_rule hp
  have hpass := h.passesTests_of_held hpath ht
  rw [hjs, List.reverse_reverse] at hpass
  refine ⟨i, r, id, t, hi, hrule.symm.trans hname, hid, ht, hpass, fun x hx => ⟨_, ?_, readsAs_substOf hpass x⟩⟩
  obtain ⟨c, hc, hm⟩ := Rule.mentions_of_check (hr.checked r (List.mem_of_getElem? hi)) x hx
  obtain ⟨v, hv⟩ := exists_termOf?_of_mentions hpass.length hc hm
  rw [find?_bindingsOf h.toSound hpath hjs ht, hselect, if_pos (List.contains_iff_mem.2 hx), substOf, hv, Option.getD_some]

/-- Somebody who is known, and knows themselves. A condition that mentions neither stands in between. -/
def knownRule : Rule :=
  ⟨"known", [.between "?x" (.resource "knows") "?y", .between "?z" (.resource "likes") "?w",
    .between "?y" (.resource "knows") "?y"], [], ["?y"]⟩

/-- One match of the rule. -/
def knownFacts : List Fact :=
  [⟨.resource "ann", .resource "knows", .resource "bob"⟩, ⟨.resource "cat", .resource "likes", .resource "tea"⟩,
    ⟨.resource "bob", .resource "knows", .resource "bob"⟩]

/-- The places of the last condition are compared with the object two conditions before. -/
theorem readsAs_of_passesTests_known :
    PassesTests knownRule.conditions knownFacts ∧ (∃ v, ReadsAs knownRule.conditions knownFacts "?y" v) ∧
    ∃ n b t v, calls (.rule knownRule :: knownFacts.map .fact) = .ok (n, [knownRule]) ∧ n.bindings "known" = .ok (some b) ∧
      PassesTests knownRule.conditions (n.matchOf t) ∧ b.find? "?y" = some v ∧
      ReadsAs knownRule.conditions (n.matchOf t) "?y" v := by
  obtain ⟨hread, hcalls⟩ := readsAs_of_passesTests
  have hpass : PassesTests knownRule.conditions knownFacts := by
    refine ⟨rfl, fun i c g hc hg t ht => ?_⟩
    match i with
    | 0 | 1 =>
      obtain rfl := Option.some.inj hc
      nomatch ht
    | 2 =>
      obtain rfl := Option.some.inj hc
      obtain rfl := Option.some.inj hg
      have htests : t ∈ [⟨"?y", .subject, 2, .object⟩, ⟨"?y", .object, 2, .object⟩] := ht
      rcases List.mem_pair.1 htests with rfl | rfl <;> exact ⟨0, _, rfl, rfl, rfl⟩
    | i + 3 => nomatch hc
  obtain ⟨n, rs, he, h⟩ := hcalls (.rule knownRule :: knownFacts.map .fact)
  have hrun : (calls (.rule knownRule :: knownFacts.map .fact)).map (fun p =>
      (p.2, (p.1.bindings "known").toOption.join.isSome)) = .ok ([knownRule], true) := by decide +kernel
  rw [he] at hrun
  obtain ⟨rfl, hsome⟩ := Prod.mk.inj (Except.ok.inj hrun)
  cases hb : n.bindings "known" with
  | error e => simp [hb, Except.toOption] at hsome
  | ok b? =>
    obtain ⟨b, rfl⟩ := Option.isSome_iff_exists.1 (by simpa [hb, Except.toOption] using hsome)
    obtain ⟨i, r, id, t, hi, -, -, -, ht, hselect⟩ := h "known" b hb
    obtain rfl := List.mem_singleton.1 (List.mem_of_getElem? hi)
    obtain ⟨v, hv, hread'⟩ := hselect "?y" (List.mem_singleton_self _)
    exact ⟨hpass, hread hpass "?y", n, b, t, v, he, hb, ht, hv, hread'⟩

end Network

end TripleRules

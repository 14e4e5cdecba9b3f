import Mathlib.Data.List.Sort
import TripleRules.Proofs.Histories
import TripleRules.Proofs.RuleNames

/-!
# The ranking of the satisfied rules

The table of the satisfied rules lists them in no particular order. Their ranking lists each of them once, the highest score first and
equal ones by name, so the order of the table does not show in it. Nor does it show in the most specific rule, which is the one whose
score is above that of every other. If there is none although rules are satisfied, the rules that share the highest score are named,
all of them.
-/

namespace TripleRules

/-- Whether a ranked rule stands before another: it has the higher score, or the same and the smaller name. -/
def RankedRule.Before (a b : RankedRule) : Prop := b.score < a.score ∨ a.score = b.score ∧ a.rule < b.rule

/-- Whether the score of a rule is above that of every other. -/
def Wins (ranked : List RankedRule) (name : String) : Prop :=
  ∃ s, ⟨name, s⟩ ∈ ranked ∧ ∀ r ∈ ranked, r.rule ≠ name → r.score < s

/-- The names of all the rules that share the highest score, of which there are several. -/
structure Ties (ranked : List RankedRule) (names : List String) (top : Nat) : Prop where
  several : 2 ≤ names.length
  ascending : names.Pairwise (· < ·)
  mem_iff : ∀ name, name ∈ names ↔ ⟨name, top⟩ ∈ ranked
  highest : ∀ r ∈ ranked, r.score ≤ top

/-! ## Winners and ties -/

/-- There is one winner. -/
theorem Wins.unique {ranked : List RankedRule} {a b : String} (ha : Wins ranked a) (hb : Wins ranked b) : a = b := by
  obtain ⟨s, hs, hmax⟩ := ha
  obtain ⟨t, ht, hmax'⟩ := hb
  by_contra hne
  exact Nat.lt_asymm (hmax _ ht (Ne.symm hne)) (hmax' _ hs hne)

namespace Ties

variable {ranked : List RankedRule} {names : List String} {top : Nat} (h : Ties ranked names top)
include h

/-- Of several rules that share the highest score, one is not the winner. -/
theorem not_wins (name : String) : ¬Wins ranked name := by
  rintro ⟨s, hs, hmax⟩
  obtain ⟨other, hother, hne⟩ : ∃ other ∈ names, other ≠ name := by
    obtain ⟨a, b, rest, rfl⟩ : ∃ a b rest, names = a :: b :: rest := by
      match names, h.several with
      | a :: b :: rest, _ => exact ⟨a, b, rest, rfl⟩
    have hab : a < b := (List.pairwise_cons.1 h.ascending).1 b List.mem_cons_self
    by_cases ha : a = name
    · exact ⟨b, List.mem_cons_of_mem _ List.mem_cons_self, fun hb => String.lt_irrefl _ (ha.trans hb.symm ▸ hab)⟩
    · exact ⟨a, List.mem_cons_self, ha⟩
  exact Nat.not_le_of_lt (hmax _ ((h.mem_iff other).1 hother) hne) (h.highest _ hs)

/-- Some name is at the top. -/
theorem exists_mem : ∃ name, ⟨name, top⟩ ∈ ranked := by
  obtain ⟨name, hname⟩ := List.exists_mem_of_length_pos (Nat.lt_of_lt_of_le Nat.zero_lt_two h.several)
  exact ⟨name, (h.mem_iff name).1 hname⟩

theorem ranked_ne_nil : ranked ≠ [] := by
  obtain ⟨name, hmem⟩ := h.exists_mem
  exact List.ne_nil_of_mem hmem

/-- No tie is above another one. -/
theorem le_top {names' : List String} {top' : Nat} (h' : Ties ranked names' top') : top ≤ top' := by
  obtain ⟨name, hmem⟩ := h.exists_mem
  exact h'.highest _ hmem

/-- Ascending names are one list if they are the same names. -/
theorem unique {names' : List String} {top' : Nat} (h' : Ties ranked names' top') : names = names' ∧ top = top' := by
  obtain rfl := Nat.le_antisymm (h.le_top h') (h'.le_top h)
  refine ⟨?_, rfl⟩
  have hirrefl : Std.Irrefl (α := String) (· < ·) := ⟨String.lt_irrefl⟩
  have hanti : Std.Antisymm (α := String) (· < ·) := ⟨fun a b hab hba => absurd hba (String.lt_asymm hab)⟩
  exact h.ascending.eq_of_mem_iff h'.ascending fun name => (h.mem_iff name).trans (h'.mem_iff name).symm

end Ties

/-! ## The head of the ranking -/

/-- The rules with the highest score are those at the head of the list. -/
theorem takeWhile_eq_filter {ranked : List RankedRule} (h : ranked.Pairwise RankedRule.Before) {top : Nat}
    (htop : ∀ r ∈ ranked, r.score ≤ top) :
    ranked.takeWhile (·.score == top) = ranked.filter (·.score == top) := by
  induction ranked with
  | nil => rfl
  | cons r rest ih =>
    obtain ⟨hr, hrest⟩ := List.pairwise_cons.1 h
    obtain ⟨hle, hall⟩ := List.forall_mem_cons.1 htop
    by_cases he : r.score = top
    · have hpos := beq_iff_eq.2 he
      rw [List.takeWhile_cons, List.filter_cons, if_pos hpos, if_pos hpos, ih hrest hall]
    · -- below the head no score is higher than there
      have hnone : rest.filter (·.score == top) = [] := by
        refine List.filter_eq_nil_iff.2 fun x hx hxtop => ?_
        have hxtop := beq_iff_eq.1 hxtop
        rcases hr x hx with hlt | ⟨heq, -⟩ <;> omega
      have hne : ¬(r.score == top) = true := fun hb => he (beq_iff_eq.1 hb)
      rw [List.takeWhile_cons, List.filter_cons, if_neg hne, if_neg hne, hnone]

/-- The rules with the highest score tie if there are several. -/
theorem ties_filter {ranked : List RankedRule} (h : ranked.Pairwise RankedRule.Before) {top : Nat}
    (htop : ∀ r ∈ ranked, r.score ≤ top) (hseveral : 2 ≤ (ranked.filter (·.score == top)).length) :
    Ties ranked ((ranked.filter (·.score == top)).map (·.rule)) top := by
  refine ⟨by rwa [List.length_map], ?_, fun name => ?_, htop⟩
  · refine List.pairwise_map.2 ((h.filter _).imp_of_mem fun {a b} ha hb hab => ?_)
    have ha := beq_iff_eq.1 (List.mem_filter.1 ha).2
    have hb := beq_iff_eq.1 (List.mem_filter.1 hb).2
    rcases hab with hlt | ⟨-, hname⟩
    · omega
    · exact hname
  · rw [List.mem_map]
    constructor
    · rintro ⟨⟨name, s⟩, hr, rfl⟩
      obtain ⟨hmem, hs⟩ := List.mem_filter.1 hr
      exact beq_iff_eq.1 hs ▸ hmem
    · exact fun hmem => ⟨_, List.mem_filter.2 ⟨hmem, beq_self_eq_true top⟩, rfl⟩

/-- The head of a ranking has a winner or a tie, unless nothing is ranked. -/
theorem mostSpecific_cases {ranked : List RankedRule} (h : ranked.Pairwise RankedRule.Before) :
    (ranked = [] ∧ mostSpecific ranked = .ok none) ∨
    (∃ name, Wins ranked name ∧ mostSpecific ranked = .ok (some name)) ∨
    ∃ names top, Ties ranked names top ∧ mostSpecific ranked = .error (.ambiguous names top) := by
  cases ranked with
  | nil => exact Or.inl ⟨rfl, rfl⟩
  | cons best rest =>
    have hbest : ∀ r ∈ rest, r.score ≤ best.score := by
      intro r hr
      rcases (List.pairwise_cons.1 h).1 r hr with hlt | ⟨heq, -⟩ <;> omega
    have htied := takeWhile_eq_filter (List.pairwise_cons.1 h).2 hbest
    right
    cases hf : rest.filter (·.score == best.score) with
    | nil =>
      refine Or.inl ⟨best.rule, ⟨best.score, List.mem_cons_self, fun r hr hne => ?_⟩, by rw [mostSpecific, htied, hf]⟩
      rcases List.mem_cons.1 hr with rfl | hr
      · exact absurd rfl hne
      · exact Nat.lt_of_le_of_ne (hbest r hr) fun he => List.filter_eq_nil_iff.1 hf r hr (beq_iff_eq.2 he)
    | cons x xs =>
      have hfilter : (best :: rest).filter (·.score == best.score) = best :: x :: xs := by
        rw [List.filter_cons, if_pos (beq_self_eq_true _), hf]
      have hties := ties_filter h (List.forall_mem_cons.2 ⟨Nat.le_refl _, hbest⟩) (by simp [hfilter])
      rw [hfilter] at hties
      exact Or.inr ⟨_, _, hties, by rw [mostSpecific, htied, hf]; rfl⟩

section

variable {ranked : List RankedRule} (h : ranked.Pairwise RankedRule.Before)
include h

/-- There is no most specific rule exactly if no rule is ranked. -/
theorem mostSpecific_eq_none_iff : mostSpecific ranked = .ok none ↔ ranked = [] := by
  rcases mostSpecific_cases h with ⟨hnil, he⟩ | ⟨name, ⟨s, hs, -⟩, he⟩ | ⟨names, top, ht, he⟩
  · exact iff_of_true he hnil
  · exact iff_of_false (by rw [he]; exact nofun) (List.ne_nil_of_mem hs)
  · exact iff_of_false (by rw [he]; exact nofun) ht.ranked_ne_nil

/-- A rule is the most specific one exactly if it wins. -/
theorem mostSpecific_eq_some_iff {name : String} : mostSpecific ranked = .ok (some name) ↔ Wins ranked name := by
  rcases mostSpecific_cases h with ⟨rfl, he⟩ | ⟨winner, hw, he⟩ | ⟨names, top, ht, he⟩
  · exact iff_of_false (by rw [he]; exact nofun) fun ⟨s, hs, _⟩ => List.not_mem_nil hs
  · rw [he, Except.ok.injEq, Option.some.injEq]
    exact ⟨fun heq => heq ▸ hw, fun hw' => hw.unique hw'⟩
  · exact iff_of_false (by rw [he]; exact nofun) (ht.not_wins name)

/-- A tie is reported exactly if there is one, with its names and its score. -/
theorem mostSpecific_eq_error_iff {e : Failure} : mostSpecific ranked = .error e ↔
    ∃ names top, e = .ambiguous names top ∧ Ties ranked names top := by
  rcases mostSpecific_cases h with ⟨hnil, he⟩ | ⟨winner, hw, he⟩ | ⟨names, top, ht, he⟩
  · exact iff_of_false (by rw [he]; exact nofun) fun ⟨names, top, _, ht⟩ => ht.ranked_ne_nil hnil
  · exact iff_of_false (by rw [he]; exact nofun) fun ⟨names, top, _, ht⟩ => ht.not_wins winner hw
  · rw [he, Except.error.injEq]
    constructor
    · rintro rfl
      exact ⟨names, top, rfl, ht⟩
    · rintro ⟨names', top', rfl, ht'⟩
      obtain ⟨rfl, rfl⟩ := ht.unique ht'
      rfl

end

/-- Of rules with different names the one that is sorted first stands before the other. -/
theorem RankedRule.before_of_isLE {a b : RankedRule} (h : (a.compare b).isLE) (hne : a.rule ≠ b.rule) : a.Before b := by
  rcases Ordering.isLE_then_iff_or.1 h with hlt | ⟨heq, hle⟩
  · exact Or.inl (Nat.compare_eq_lt.1 hlt)
  · refine Or.inr ⟨(Nat.compare_eq_eq.1 heq).symm, ?_⟩
    cases hc : Ord.compare a.rule b.rule with
    | lt => exact compareOfLessAndEq_eq_lt.1 hc
    | eq => exact absurd (Std.LawfulEqOrd.eq_of_compare hc) hne
    | gt =>
      rw [hc] at hle
      nomatch hle

namespace Network

/-- A ranking of a network: each satisfied name once, with the score of its production, and in order. -/
structure Ranking (n : Network) (ranked : List RankedRule) : Prop where
  nodup : (ranked.map (·.rule)).Nodup
  names : ∀ name, name ∈ ranked.map (·.rule) ↔ name ∈ n.satisfiedNames
  scores : ∀ r ∈ ranked, ∃ id, n.satisfied.find? r.rule = some id ∧ n.score id = .ok r.score
  ordered : ranked.Pairwise RankedRule.Before

/-- The ranked rules are the satisfied names with the scores of their productions. -/
theorem Ranking.mem_iff {n : Network} {ranked : List RankedRule} (h : n.Ranking ranked) {name : String} {s : Nat} :
    ⟨name, s⟩ ∈ ranked ↔ ∃ id, n.satisfied.find? name = some id ∧ n.score id = .ok s := by
  constructor
  · exact h.scores ⟨name, s⟩
  · rintro ⟨id, hid, hs⟩
    obtain ⟨r, hr, rfl⟩ := List.mem_map.1 ((h.names name).2 (mem_satisfiedNames.2 ⟨id, hid⟩))
    obtain ⟨id', hid', hs'⟩ := h.scores r hr
    obtain rfl := Option.some.inj (hid.symm.trans hid')
    obtain rfl := Except.ok.inj (hs.symm.trans hs')
    exact hr

/-- A network with another table of satisfied rules. -/
def withSatisfied (n : Network) (t : Table NodeId) : Network := { n with satisfied := t }

/-! ## The table of the satisfied rules -/

/-- The satisfied rules can be ranked. -/
theorem exists_ranking {n : Network} (ht : n.Tree) (hm : n.Marked) : ∃ ranked, n.rankedRules = .ok ranked ∧ n.Ranking ranked := by
  obtain ⟨ranked, hranked, hmem⟩ := mem_rankedRules ht hm
  obtain ⟨scores, hscores⟩ := exists_scores ht hm
  have hsort := Except.ok.inj (hranked.symm.trans (rankedRules_eq hscores))
  have hnames : (ranked.map (·.rule)).Perm n.satisfied.names := by
    rw [hsort]
    refine ((Ordered.perm_sort _).map _).trans ?_
    rw [List.map_map]
    exact .refl _
  have hnodup := hnames.nodup_iff.2 n.satisfied.nodup_names
  refine ⟨ranked, hranked, hnodup, fun name => ?_, fun r hr => (hmem r.rule r.score).1 hr, ?_⟩
  · rw [hnames.mem_iff, mem_satisfiedNames, Table.mem_names_iff]
  · have hsorted : Ordered.Ascending RankedRule.compare ranked := hsort ▸ Ordered.ascending_sort _
    exact (hsorted.and (List.pairwise_map.1 hnodup)).imp fun h => RankedRule.before_of_isLE h.1 h.2

/-- Scores do not depend on which rules are satisfied. -/
theorem score_withSatisfied (n : Network) (t : Table NodeId) (id : NodeId) : (n.withSatisfied t).score id = n.score id := by
  have hup : ∀ k start, (n.withSatisfied t).scoreUpTo k start = n.scoreUpTo k start := by
    intro k
    induction k with
    | zero => intro start; cases start <;> rfl
    | succ k ih =>
      intro start
      cases start with
      | none => rfl
      | some id => exact bind_congr fun x => by rw [ih]; rfl
  exact bind_congr fun x => hup _ _

/-- The order of the table does not show in the ranking. -/
theorem rankedRules_withSatisfied {n : Network} (ht : n.Tree) (hm : n.Marked) {t : Table NodeId}
    (hp : t.entries.Perm n.satisfied.entries) : (n.withSatisfied t).rankedRules = n.rankedRules := by
  obtain ⟨scores, hscores⟩ := exists_scores ht hm
  have hscores' : ∀ e ∈ (n.withSatisfied t).satisfied.entries, (n.withSatisfied t).score e.2 = .ok (scores e.2) := by
    intro e he
    rw [score_withSatisfied]
    exact hscores e (hp.mem_iff.1 he)
  rw [rankedRules_eq hscores, rankedRules_eq hscores']
  exact congrArg Except.ok (Ordered.sort_eq_of_perm (hp.map _))

/-! ## Histories -/

/-- Whatever rules, facts and resets a network is given, and in whatever order, its satisfied rules have one ranking, and in whatever
order the table lists them it is what they are ranked as. There is no most specific rule exactly if no rule is satisfied; it is the
one whose score is above that of every other, if there is one; and otherwise the rules that share the highest score are named. -/
theorem calls_ranking (cs : List Call) : ∃ n rs, calls cs = .ok (n, rs) ∧ ∃ ranked, n.Ranking ranked ∧
    ∀ t : Table NodeId, t.entries.Perm n.satisfied.entries →
      (n.withSatisfied t).rankedRules = .ok ranked ∧
      ((n.withSatisfied t).mostSpecificRule = .ok none ↔ n.satisfiedNames = []) ∧
      (∀ name, (n.withSatisfied t).mostSpecificRule = .ok (some name) ↔ Wins ranked name) ∧
      ∀ e, (n.withSatisfied t).mostSpecificRule = .error e ↔ ∃ names top, e = .ambiguous names top ∧ Ties ranked names top := by
  obtain ⟨n, rs, he, h⟩ := calls_ok cs
  obtain ⟨ranked, hranked, hr⟩ := exists_ranking h.toTree h.toMarked
  refine ⟨n, rs, he, ranked, hr, fun t hp => ?_⟩
  have hranked' := (rankedRules_withSatisfied h.toTree h.toMarked hp).trans hranked
  have hmost : (n.withSatisfied t).mostSpecificRule = mostSpecific ranked := by
    rw [mostSpecificRule, hranked']
    rfl
  rw [hmost]
  refine ⟨hranked', ?_, fun name => mostSpecific_eq_some_iff hr.ordered, fun e => mostSpecific_eq_error_iff hr.ordered⟩
  rw [mostSpecific_eq_none_iff hr.ordered, ← List.map_eq_nil_iff (f := (·.rule)), List.eq_nil_iff_forall_not_mem,
    List.eq_nil_iff_forall_not_mem]
  simp only [hr.names]

/-- Somebody knows one who knows somebody, under any name. -/
def acquaintedRule (name : String) : Rule :=
  ⟨name, [.between "?x" (.resource "knows") "?y", .between "?y" (.resource "knows") "?z"], [], ["?x"]⟩

/-- Two rules with the same conditions, and one with the first of them only. -/
def rankedCalls : List Call :=
  [.rule (acquaintedRule "second"), .rule (acquaintedRule "first"), .rule .knowsRule, .fact .acquaintance,
    .fact ⟨.resource "bob", .resource "knows", .resource "carol"⟩]

/-- The rules are satisfied in the order of their scores from the lowest, and listed the other way round. The tie is the same. -/
theorem calls_ranking_reversed : ∃ n rs t ranked, calls rankedCalls = .ok (n, rs) ∧
    n.satisfied.names = ["r", "second", "first"] ∧ t.names = ["first", "second", "r"] ∧ n.Ranking ranked ∧
    (n.withSatisfied t).rankedRules = .ok ranked ∧ ranked = [⟨"first", 1⟩, ⟨"second", 1⟩, ⟨"r", 0⟩] ∧
    Ties ranked ["first", "second"] 1 ∧ (n.withSatisfied t).mostSpecificRule = .error (.ambiguous ["first", "second"] 1) := by
  obtain ⟨n, rs, he, ranked, hr, h⟩ := calls_ranking rankedCalls
  have hrun : (calls rankedCalls).map (fun p => (p.1.satisfied.names, p.1.rankedRules)) =
      .ok (["r", "second", "first"], .ok [⟨"first", 1⟩, ⟨"second", 1⟩, ⟨"r", 0⟩]) := by decide +kernel
  rw [he] at hrun
  obtain ⟨hnames, hranked⟩ := Prod.mk.inj (Except.ok.inj hrun)
  obtain rfl := Except.ok.inj (hranked.symm.trans (h n.satisfied (.refl _)).1)
  let t : Table NodeId := ⟨n.satisfied.entries.reverse, by
    rw [List.map_reverse]
    exact List.nodup_reverse.2 n.satisfied.nodup_names⟩
  have htnames : t.names = ["first", "second", "r"] := by
    rw [Table.names, List.map_reverse, ← Table.names, hnames]
    rfl
  have hties : Ties [⟨"first", 1⟩, ⟨"second", 1⟩, ⟨"r", 0⟩] ["first", "second"] 1 :=
    ⟨Nat.le_refl _, by decide, fun name => by simp, by decide⟩
  obtain ⟨hrankedt, -, -, herror⟩ := h t (List.reverse_perm _)
  exact ⟨n, rs, t, _, he, hnames, htnames, hr, hrankedt, rfl, hties, (herror _).2 ⟨_, _, rfl, hties⟩⟩

end Network

end TripleRules

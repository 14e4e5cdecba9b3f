import TripleRules.Proofs.Lifetime
import TripleRules.Proofs.Substitution

/-!
# Answers

What a network that has done all its work answers about its batch. The satisfied rules are those whose productions hold tokens, and
the bindings of each are read off the least of its tuples.
-/

namespace TripleRules

/-! ## Tables -/

/-- Where no name is listed twice, the value at a name is the one in its entry. -/
theorem valueAt?_eq_some_iff {α : Type} {es : List (String × α)} (h : (es.map Prod.fst).Nodup) {name : String} {v : α} :
    valueAt? name es = some v ↔ (name, v) ∈ es := by
  induction es with
  | nil => simp [valueAt?]
  | cons e es ih =>
    obtain ⟨k, w⟩ := e
    obtain ⟨hk, hes⟩ := List.nodup_cons.1 h
    rw [valueAt?, List.mem_cons]
    split
    · rename_i he
      subst he
      constructor
      · intro hw
        obtain rfl := Option.some.inj hw
        exact Or.inl rfl
      · rintro (he | hmem)
        · rw [(Prod.mk.inj he).2]
        · exact absurd (List.mem_map_of_mem (f := Prod.fst) hmem) hk
    · rename_i he
      rw [ih hes]
      refine ⟨Or.inr, ?_⟩
      rintro (heq | hmem)
      · exact absurd (Prod.mk.inj heq).1.symm he
      · exact hmem

/-- A table has the entries that look-ups find. -/
theorem Table.find?_eq_some_iff {α : Type} {t : Table α} {name : String} {v : α} :
    t.find? name = some v ↔ (name, v) ∈ t.entries := valueAt?_eq_some_iff t.nodup_names

/-- The names of a table are those that have a value. -/
theorem Table.mem_names_iff {α : Type} {t : Table α} {name : String} : name ∈ t.names ↔ ∃ v, t.find? name = some v := by
  simp only [Table.find?_eq_some_iff, names, List.mem_map]
  constructor
  · rintro ⟨⟨k, v⟩, he, rfl⟩
    exact ⟨v, he⟩
  · rintro ⟨v, he⟩
    exact ⟨_, he, rfl⟩

/-- Tables in which look-ups find the same have the same entries. -/
theorem Table.perm_entries {α : Type} {t t' : Table α} (h : ∀ name, t.find? name = t'.find? name) :
    t.entries.Perm t'.entries := by
  refine (List.perm_ext_iff_of_nodup t.nodup_names.of_map t'.nodup_names.of_map).2 fun e => ?_
  rw [← Table.find?_eq_some_iff, ← Table.find?_eq_some_iff, h]

namespace Network

/-- The satisfied names are those with a production. -/
theorem mem_satisfiedNames {n : Network} {name : String} :
    name ∈ n.satisfiedNames ↔ ∃ id, n.satisfied.find? name = some id := by
  rw [satisfiedNames, (Ordered.perm_sort _).mem_iff, Table.mem_names_iff]

/-! ## The least match -/

/-- The least match among some tokens is one of them, and none is smaller. -/
theorem leastFrom_spec (n : Network) (best : TokenId) (others : List TokenId) :
    n.leastFrom best others ∈ best :: others ∧
      ∀ t ∈ best :: others, (compare (n.matchOf (n.leastFrom best others)) (n.matchOf t)).isLE = true := by
  induction others generalizing best with
  | nil =>
    refine ⟨List.mem_singleton_self _, fun t ht => ?_⟩
    rw [List.mem_singleton.1 ht]
    exact Std.ReflCmp.isLE_rfl
  | cons u us ih =>
    have he : n.leastFrom best (u :: us) = n.leastFrom (if (compare (n.matchOf u) (n.matchOf best)).isLT then u else best) us := rfl
    rw [he]
    split
    · rename_i hlt
      obtain ⟨hmem, hle⟩ := ih u
      refine ⟨List.mem_cons_of_mem _ hmem, fun t ht => ?_⟩
      rcases List.mem_cons.1 ht with rfl | ht
      · exact Std.TransCmp.isLE_trans (hle u List.mem_cons_self) (Ordering.isLE_of_eq_lt (Ordering.isLT_iff_eq_lt.1 hlt))
      · exact hle t ht
    · rename_i hlt
      obtain ⟨hmem, hle⟩ := ih best
      refine ⟨?_, fun t ht => ?_⟩
      · rcases List.mem_cons.1 hmem with hm | hm
        · rw [hm]
          exact List.mem_cons_self
        · exact List.mem_cons_of_mem _ (List.mem_cons_of_mem _ hm)
      · rcases List.mem_cons.1 ht with rfl | ht
        · exact hle t List.mem_cons_self
        · rcases List.mem_cons.1 ht with rfl | ht
          · have hge : (compare (n.matchOf t) (n.matchOf best)).isGE = true :=
              Ordering.isGE_iff_ne_lt.2 fun hc => hlt (Ordering.isLT_iff_eq_lt.2 hc)
            exact Std.TransCmp.isLE_trans (hle best List.mem_cons_self) (Std.OrientedCmp.isLE_of_isGE hge)
          · exact hle t (List.mem_cons_of_mem _ ht)

/-- Among some tokens there is one with the least match, and it is found. -/
theorem exists_leastToken? (n : Network) {ts : List TokenId} (hne : ts ≠ []) :
    ∃ t, n.leastToken? ts = some t ∧ t ∈ ts ∧ ∀ u ∈ ts, (compare (n.matchOf t) (n.matchOf u)).isLE = true := by
  obtain ⟨t, us, rfl⟩ := List.exists_cons_of_ne_nil hne
  obtain ⟨hmem, hle⟩ := n.leastFrom_spec t us
  exact ⟨_, rfl, hmem, hle⟩

/-! ## Bindings -/

/-- The bindings of a satisfied rule are read off its least match. -/
theorem bindings_of_satisfied {n : Network} (h : n.Marked) {name : String} {id : NodeId}
    (hs : n.satisfied.find? name = some id) :
    ∃ p t, n.nodes[id]? = some (.production p) ∧ p.rule = name ∧ t ∈ n.held id ∧
      (∀ u ∈ n.held id, (compare (n.matchOf t) (n.matchOf u)).isLE = true) ∧
      n.bindings name = .ok (some (n.bindingsOf p.select t)) := by
  obtain ⟨p, hp, hname, hne⟩ := h.satisfied_some hs
  rw [held_eq hp] at hne ⊢
  have hrev : p.tokens.toList.reverse ≠ [] := by simpa [Node.held] using hne
  obtain ⟨t, hfind, ht, hle⟩ := n.exists_leastToken? hrev
  refine ⟨p, t, hp, hname, List.mem_reverse.1 ht, fun u hu => hle u (List.mem_reverse.2 hu), ?_⟩
  have hprod : n.productionNode id = .ok p := by simp only [productionNode, node, hp]
  simp only [bindings, hs, Option.some_or, hprod, Bind.bind, Except.bind, hfind]
  rfl

/-- Only a satisfied name has bindings: no production of another name holds a token, not even the newest. -/
theorem satisfied_of_bindings {n : Network} (h : n.Marked) {rs : List Rule} (hr : n.Registered rs) {name : String} {b : Bindings}
    (hb : n.bindings name = .ok (some b)) : ∃ id, n.satisfied.find? name = some id := by
  cases hs : n.satisfied.find? name with
  | some id => exact ⟨id, rfl⟩
  | none =>
    unfold bindings at hb
    rw [hs, Option.none_or] at hb
    cases hid : n.byName.find? name with
    | none =>
      rw [hid] at hb
      cases hb
    | some id =>
      obtain ⟨i, r, hi, hname, hprod, -⟩ := hr.named.1 hid
      obtain ⟨p, -, hp, hrule, -⟩ := hr.production hprod hi
      have hnode : n.productionNode id = .ok p := by simp only [productionNode, node, hp]
      have hnone : n.held id = [] := by
        by_contra hne
        obtain ⟨id', hs'⟩ := h.satisfied_of hp hne
        rw [hrule, hname, hs] at hs'
        cases hs'
      have htokens : p.tokens.toList = [] := by rw [← hnone, held_eq hp, Node.held]
      simp only [hid, hnode, htokens, Bind.bind, Except.bind] at hb
      cases hb

/-- The bindings of a token are read off its tuple. -/
theorem bindingsOf_eq {n : Network} (h : n.Sound) {id : NodeId} {js : List JoinNode} (hp : n.Path topNode id js) {t : TokenId}
    (ht : t ∈ n.held id) (select : List String) :
    n.bindingsOf select t = bindingsFrom select (pairs (js.reverse.map (·.condition)) (n.matchOf t)) := by
  suffices hfold : ∀ b, (n.tokens.chain t).foldl (n.bindLink select) b =
      (pairs (js.reverse.map (·.condition)) (n.matchOf t)).foldl (bindPair select) b from hfold .empty
  induction hp generalizing t with
  | here =>
    rw [h.held_top, List.mem_singleton] at ht
    subst ht
    intro b
    have hroot : n.bindLink select b rootToken = b := by rw [bindLink, TokenStore.link?_root]
    rw [TokenStore.chain_root, matchOf_root, List.foldl_cons, hroot]
    rfl
  | @down id up x j js hx hup hj hpath ih =>
    intro b
    obtain ⟨l, hl, hsv, hov, hm⟩ := h.justified (parentOf_eq_some.2 ⟨x, hx, hup⟩) hj ht
    obtain ⟨g, hg⟩ := h.exists_fact hm.fact
    have hlen : (js.reverse.map (·.condition)).length = (n.matchOf l.parent).length := by
      rw [List.length_map, List.length_reverse, h.length_matchOf hpath hm.token]
    have hlink : n.bindLink select b t = bindPair select b (j.condition, g) := by
      have hf : n.fact? l.fact = some g := hg
      simp only [bindLink, hl, hf, hsv, hov]
      rfl
    rw [TokenStore.chain_of_link h.grounded hl, matchOf_of_link h.grounded hl hg, List.reverse_cons, List.map_append,
      List.map_singleton, pairs_append hlen, List.foldl_cons, List.foldl_cons, hlink, ih hm.token]

/-- Below joins for some conditions, the bindings of a token are the terms that its tuple has for the selected variables. -/
theorem find?_bindingsOf {n : Network} (h : n.Sound) {id : NodeId} {js : List JoinNode} (hp : n.Path topNode id js)
    {cs : List Condition} (hjs : js.map (·.condition) = cs.reverse) {t : TokenId} (ht : t ∈ n.held id) (select : List String)
    (name : String) : (n.bindingsOf select t).find? name =
      if select.contains name then termOf? name (pairs cs (n.matchOf t)) else none := by
  rw [bindingsOf_eq h hp ht, List.map_reverse, hjs, List.reverse_reverse, find?_bindingsFrom]

/-! ## All matches -/

/-- Adds the bindings of a rule, if there are any. -/
def answer (n : Network) (t : Table Bindings) (rule : String) : Outcome (Table Bindings) :=
  (n.bindings rule).map fun
    | some b => t.insert rule b
    | none => t

/-- The matches are those of the satisfied names, one after the other. -/
theorem allMatches_eq (n : Network) : n.allMatches = (n.satisfiedNames.foldlM n.answer .empty).map Matches.mk := by
  have hfold : ∀ step step' : Table Bindings → String → Outcome (Table Bindings), step = step' →
      (Bind.bind (n.satisfiedNames.foldlM step .empty) fun rules => pure ⟨rules⟩) =
        (n.satisfiedNames.foldlM step' .empty).map Matches.mk := by
    rintro step _ rfl
    cases n.satisfiedNames.foldlM step .empty <;> rfl
  refine hfold _ _ ?_
  funext t rule
  rw [answer]
  cases n.bindings rule with
  | error e => rfl
  | ok b => cases b <;> rfl

/-- The answers for some names: the bindings of each, and nothing for other names. -/
theorem foldlM_answer_ok (n : Network) {names : List String} (hn : ∀ name ∈ names, ∃ b, n.bindings name = .ok (some b))
    (t : Table Bindings) : ∃ t', names.foldlM n.answer t = .ok t' ∧
      (∀ name ∈ names, ∀ b, n.bindings name = .ok (some b) → t'.find? name = some b) ∧
      ∀ name, name ∉ names → t'.find? name = t.find? name := by
  induction names generalizing t with
  | nil => exact ⟨t, rfl, fun name h => absurd h List.not_mem_nil, fun name _ => rfl⟩
  | cons a names ih =>
    obtain ⟨b, hb⟩ := hn a List.mem_cons_self
    obtain ⟨t', he, hin, hout⟩ := ih (fun name h => hn name (List.mem_cons_of_mem _ h)) (t.insert a b)
    refine ⟨t', ?_, fun name hmem c hc => ?_, fun name hnot => ?_⟩
    · rw [List.foldlM_cons, answer, hb]
      exact he
    · by_cases hname : name ∈ names
      · exact hin name hname c hc
      · obtain rfl := (List.mem_cons.1 hmem).resolve_right hname
        rw [hout name hname, Table.find?_insert, if_pos rfl]
        rw [hb] at hc
        exact Except.ok.inj hc
    · rw [List.mem_cons, not_or] at hnot
      obtain ⟨hne, hnames⟩ := hnot
      rw [hout name hnames, Table.find?_insert, if_neg hne]

/-- The matches list the bindings of each satisfied rule, and nothing else. -/
theorem allMatches_ok {n : Network} (h : n.Marked) : ∃ m, n.allMatches = .ok m ∧
    ∀ name b, m.rules.find? name = some b ↔
      (∃ id, n.satisfied.find? name = some id) ∧ n.bindings name = .ok (some b) := by
  have hbound : ∀ name ∈ n.satisfiedNames, ∃ b, n.bindings name = .ok (some b) := by
    intro name hn
    obtain ⟨id, hid⟩ := mem_satisfiedNames.1 hn
    obtain ⟨p, t, -, -, -, -, hb⟩ := bindings_of_satisfied h hid
    exact ⟨_, hb⟩
  obtain ⟨t, he, hin, hout⟩ := n.foldlM_answer_ok hbound .empty
  refine ⟨⟨t⟩, by rw [allMatches_eq, he]; rfl, fun name b => ?_⟩
  rw [← mem_satisfiedNames]
  by_cases hn : name ∈ n.satisfiedNames
  · obtain ⟨c, hc⟩ := hbound name hn
    rw [hin name hn c hc, hc]
    simp [hn]
  · rw [hout name hn]
    simp [hn]

end Network

/-! ## Evaluations -/

/-- A batch within the limit is evaluated: all that follows from its facts is done, and the matches are those of the network. -/
theorem Engine.Stands.evaluate_ok {e : Engine} {rs : List Rule} (h : e.Stands rs) {fs : List Fact}
    (hlen : fs.length ≤ e.settings.maxFacts) :
    ∃ m n, e.evaluate fs = .ok (m, { e with network := n }) ∧ n.Finished ∧ n.bare = e.network.bare ∧
      (∀ g, g ∈ n.facts.toList ↔ g ∈ fs) ∧ n.allMatches = .ok m := by
  obtain ⟨n, hn, hf, hb, hmem⟩ := Network.addFacts_reset h.wired h.recorded fs
  obtain ⟨m, hm, -⟩ := Network.allMatches_ok hf.toMarked
  refine ⟨m, n, ?_, hf, hb, fun g => by rw [Array.mem_toList_iff, hmem], hm⟩
  rw [evaluate, if_neg (Nat.not_lt.2 hlen)]
  simp only [hn, hm, Bind.bind, Except.bind]
  rfl

end TripleRules

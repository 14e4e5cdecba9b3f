import TripleRules.Engine
import TripleRules.Proofs.Intake

/-!
# The life of an engine

An engine compiles rules and evaluates batches, in any order. At each moment its network is what compiling the rules alone would
leave, and a batch, of which everything is recorded. So a reset leaves a clean network with the same rules, and the next batch is
evaluated as if it were the first.
-/

namespace TripleRules

namespace Network

/-! ## Rules without a batch -/

/-- Compiling rules does to the bare network what it does to the whole one. -/
theorem addRules_bare (n : Network) (rs : List Rule) : n.bare.addRules rs = (n.addRules rs).map bare := by
  refine foldlM_map (fun n r => ?_) n rs
  rw [addRule_bare]
  cases n.addRule r <;> rfl

/-- A rule that is compiled after others, in the middle of a batch or not, adds to the bare network what it adds to theirs. -/
theorem addRules_append_singleton {n n' : Network} {rs : List Rule} {r : Rule} {id : NodeId}
    (hrs : empty.addRules rs = .ok n.bare) (ha : n.addRule r = .ok (id, n')) : empty.addRules (rs ++ [r]) = .ok n'.bare := by
  have hb := addRule_bare n r
  rw [ha] at hb
  simp only [addRules] at hrs ⊢
  rw [List.foldlM_append, hrs]
  simp only [Bind.bind, Except.bind, List.foldlM_cons, List.foldlM_nil, hb]
  rfl

/-- Compiled rules alone are a bare network. -/
theorem bare_of_addRules {rs : List Rule} {n : Network} (h : empty.addRules rs = .ok n) : n.bare = n := by
  have hb := addRules_bare empty rs
  rw [bare_empty, h] at hb
  exact (Except.ok.inj hb).symm

/-- Without its batch a network is clean. -/
theorem clean_of_bare {n : Network} (hw : n.Wired) (hb : n.bare = n) : n.Clean := by
  rw [← hb]
  refine ⟨rfl, rfl, rfl, rfl, rfl, rfl, rfl, rfl, fun {id} hid => ?_, fun a => ?_⟩
  · cases hx : n.nodes[id]? with
    | none => rw [held, getElem?_nodes_bare, hx]; rfl
    | some x =>
      rw [held, getElem?_nodes_bare, hx]
      cases x with
      | top cs => exact absurd (hw.top_only hx) hid
      | join j => rfl
      | memory m => rfl
      | production p => rfl
  · have hg : n.bare.alpha.get? a = (n.alpha.get? a).map AlphaMemory.bare := n.alpha.get?_bare a
    rw [arrived, hg]
    cases n.alpha.get? a <;> rfl

/-! ## Resets -/

/-- A network that gets wider has recorded what it had. -/
theorem Widens.recorded {n n' : Network} (h : n.Widens n') (hr : n.Recorded) : n'.Recorded where
  nodes := fun {id} hid hne => by
    rw [h.held_eq] at hne
    rw [h.touchedNodes]
    exact hr.nodes hid hne
  alphas := fun {a} hne => by
    rw [h.arrived] at hne
    rw [h.touchedAlphas]
    exact hr.alphas hne

/-- The nodes after the recorded ones are cleared. -/
theorem getElem?_foldl_clear (ids : List NodeId) (xs : Array Node) (id : NodeId) :
    (ids.foldl (fun xs id => xs.modify id (·.clear)) xs)[id]? =
      if id ∈ ids then (xs[id]?).map Node.clear else xs[id]? := by
  have hcc : ∀ x : Node, x.clear.clear = x.clear := fun x => by cases x <;> rfl
  induction ids generalizing xs with
  | nil => simp
  | cons i ids ih =>
    rw [List.foldl_cons, ih, Array.getElem?_modify]
    by_cases hi : i = id
    · subst hi
      simp [Function.comp_def, hcc]
    · simp [hi, Ne.symm hi]

/-- The memories after the recorded ones are cleared. -/
theorem get?_foldl_clear (as : List AlphaId) (x : AlphaIndex) (a : AlphaId) :
    (as.foldl (fun x a => x.modify a (·.clear)) x).get? a =
      if a ∈ as then (x.get? a).map AlphaMemory.clear else x.get? a := by
  have hcc : ∀ m : AlphaMemory, m.clear.clear = m.clear := fun m => rfl
  induction as generalizing x with
  | nil => simp
  | cons b as ih =>
    rw [List.foldl_cons, ih, AlphaIndex.get?_modify]
    by_cases hb : b = a
    · subst hb
      simp [Function.comp_def, hcc]
    · simp [hb, Ne.symm hb]

/-- A reset keeps the rules. -/
theorem bare_reset (n : Network) : n.reset.bare = n.bare := by
  have hnodes : n.reset.nodes.map Node.clear = n.nodes.map Node.clear := by
    refine Array.ext_getElem? fun i => ?_
    rw [Array.getElem?_map, Array.getElem?_map, reset, getElem?_foldl_clear]
    split
    · cases n.nodes[i]? with
      | none => rfl
      | some x => cases x <;> rfl
    · rfl
  have halpha : n.reset.alpha.bare = n.alpha.bare := by
    have hkeep : ∀ (as : List AlphaId) (x : AlphaIndex), (as.foldl (fun x a => x.modify a (·.clear)) x).bare = x.bare := by
      intro as
      induction as with
      | nil => exact fun x => rfl
      | cons a as ih =>
        intro x
        have hx : (x.memories.modify a (·.clear)).map AlphaMemory.bare = x.memories.map AlphaMemory.bare := by
          refine Array.map_modify_of_eq ?_ _ _
          exact fun m => rfl
        rw [List.foldl_cons, ih]
        simp only [AlphaIndex.bare, AlphaIndex.modify, hx]
    exact hkeep _ _
  unfold bare
  rw [hnodes, halpha]
  rfl

/-- A reset of a network whose batch is recorded leaves no batch. -/
theorem clean_reset {n : Network} (hw : n.Wired) (hr : n.Recorded) : n.reset.Clean := by
  refine ⟨n.tokens.clear_eq_empty, rfl, rfl, rfl, rfl, rfl, rfl, rfl, fun {id} hid => ?_, fun a => ?_⟩
  · have hn : n.reset.nodes[id]? = _ := getElem?_foldl_clear n.touchedNodes n.nodes id
    rw [held, hn]
    split
    · cases hx : n.nodes[id]? with
      | none => rfl
      | some x =>
        cases x with
        | top cs => exact absurd (hw.top_only hx) hid
        | join j => rfl
        | memory m => rfl
        | production p => rfl
    · rename_i hnot
      by_contra hne
      exact hnot (hr.nodes hid hne)
  · have ha : n.reset.alpha.get? a = _ := get?_foldl_clear n.touchedAlphas n.alpha a
    rw [arrived, ha]
    split
    · cases n.alpha.get? a <;> rfl
    · rename_i hnot
      by_contra hne
      exact hnot (hr.alphas hne)

/-- A batch that starts after a reset holds its facts and nothing else, and all that follows from them is done. -/
theorem addFacts_reset {n : Network} (hw : n.Wired) (hr : n.Recorded) (fs : List Fact) :
    ∃ n', n.reset.addFacts fs = .ok n' ∧ n'.Finished ∧ n'.bare = n.bare ∧ ∀ g, g ∈ n'.facts ↔ g ∈ fs := by
  have hb := bare_reset n
  obtain ⟨n', he, h', hb', hf⟩ := addFacts_ok (finished_of_clean (hw.of_bare hb) (clean_reset hw hr)) fs
  refine ⟨n', he, h', hb'.trans hb, fun g => ?_⟩
  rw [hf, (clean_reset hw hr).facts]
  simp

end Network

/-! ## The history of an engine -/

namespace Engine

/-- An engine after compiling some rules, in the order in which they were accepted, and evaluating any batches in between. -/
inductive Built : Engine → List Rule → Prop where
  | created {s : Settings} {e : Engine} : create s = .ok e → Built e []
  | compiled {e e' : Engine} {rs : List Rule} {r : Rule} {id : NodeId} :
      Built e rs → e.compile r = .ok (id, e') → Built e' (rs ++ [r])
  | evaluated {e e' : Engine} {rs : List Rule} {fs : List Fact} {m : Matches} :
      Built e rs → e.evaluate fs = .ok (m, e') → Built e' rs

/-- The network of an engine is its compiled rules, and a batch of which everything is recorded. -/
structure Stands (e : Engine) (rs : List Rule) : Prop where
  rules : Network.empty.addRules rs = .ok e.network.bare
  recorded : e.network.Recorded

namespace Stands

variable {e : Engine} {rs : List Rule} (h : e.Stands rs)
include h

theorem wired : e.network.Wired :=
  (Network.wired_addRules Network.wired_empty Network.registered_empty h.rules).1.of_bare e.network.bare_bare.symm

theorem registered : e.network.Registered rs := Network.registered_of_addRules h.rules

end Stands

/-- An engine without rules stands by none. -/
theorem stands_empty (s : Settings) : Stands ⟨s, .empty⟩ [] := by
  have hc := Network.clean_of_bare Network.wired_empty Network.bare_empty
  exact ⟨congrArg Except.ok Network.bare_empty.symm, (Network.finished_of_clean Network.wired_empty hc).toRecorded⟩

/-- An engine that is created stands by no rules. -/
theorem stands_create {s : Settings} {e : Engine} (h : create s = .ok e) : e.Stands [] := by
  unfold create at h
  obtain ⟨-, -, h⟩ := bind_eq_ok_iff.1 h
  obtain rfl := Except.ok.inj h
  exact stands_empty s

/-- What compiling does: the rule keeps to the limits, and the network accepts it. -/
theorem compile_eq_ok {e e' : Engine} {r : Rule} {id : NodeId} : e.compile r = .ok (id, e') ↔
    checkLimits e.settings r = .ok () ∧ ∃ n, e.network.addRule r = .ok (id, n) ∧ e' = { e with network := n } := by
  unfold compile
  cases checkLimits e.settings r with
  | error x => simp [Bind.bind, Except.bind]
  | ok u =>
    cases e.network.addRule r with
    | error x => simp [Bind.bind, Except.bind]
    | ok p => simp [Bind.bind, Except.bind, pure, Except.pure, Prod.ext_iff, eq_comm]

/-- A rule that an engine compiles is one more rule that it stands by. -/
theorem stands_compile {e e' : Engine} {rs : List Rule} (h : e.Stands rs) {r : Rule} {id : NodeId}
    (hc : e.compile r = .ok (id, e')) : e'.Stands (rs ++ [r]) := by
  obtain ⟨-, n, ha, rfl⟩ := compile_eq_ok.1 hc
  obtain ⟨id', n', he, -, hwid, -⟩ := Network.addRule_ok h.wired h.registered (Network.check_of_addRule ha)
  obtain ⟨-, rfl⟩ := Prod.mk.inj (Except.ok.inj (ha.symm.trans he))
  exact ⟨Network.addRules_append_singleton h.rules ha, hwid.recorded h.recorded⟩

/-- What an evaluation does to the network. -/
theorem evaluate_eq_ok {e e' : Engine} {fs : List Fact} {m : Matches} (h : e.evaluate fs = .ok (m, e')) :
    fs.length ≤ e.settings.maxFacts ∧ e.network.reset.addFacts fs = .ok e'.network ∧ e'.network.allMatches = .ok m := by
  unfold evaluate at h
  split at h
  · nomatch h
  · rename_i hlen
    obtain ⟨n, hn, h⟩ := bind_eq_ok_iff.1 h
    obtain ⟨m', hm, h⟩ := bind_eq_ok_iff.1 h
    obtain ⟨rfl, rfl⟩ := Prod.mk.inj (Except.ok.inj h)
    exact ⟨Nat.le_of_not_lt hlen, hn, hm⟩

/-- An engine stands by the same rules after an evaluation. -/
theorem stands_evaluate {e e' : Engine} {rs : List Rule} (h : e.Stands rs) {fs : List Fact} {m : Matches}
    (he : e.evaluate fs = .ok (m, e')) : e'.Stands rs := by
  obtain ⟨-, hadd, -⟩ := evaluate_eq_ok he
  obtain ⟨n, hn, hf, hb, -⟩ := Network.addFacts_reset h.wired h.recorded fs
  obtain rfl := Except.ok.inj (hadd.symm.trans hn)
  exact ⟨by rw [hb]; exact h.rules, hf.toRecorded⟩

/-- At each moment the network of an engine is its compiled rules, and a batch of which everything is recorded. -/
theorem Built.stands {e : Engine} {rs : List Rule} (h : e.Built rs) : e.Stands rs := by
  induction h with
  | created hc => exact stands_create hc
  | compiled _ hc ih => exact stands_compile ih hc
  | evaluated _ he ih => exact stands_evaluate ih he

/-- Rules that are compiled one after the other are built in their order. -/
theorem built_compileAll {e : Engine} {qs rs : List Rule} (h : e.Built qs) (hc : (e.compileAll rs).2 = .ok ()) :
    (e.compileAll rs).1.Built (qs ++ rs) := by
  induction rs generalizing e qs with
  | nil =>
    rw [List.append_nil]
    exact h
  | cons r rs ih =>
    rw [compileAll] at hc ⊢
    cases he : e.compile r with
    | error x =>
      rw [he] at hc
      nomatch hc
    | ok p =>
      obtain ⟨id, e'⟩ := p
      rw [he] at hc
      have hb := ih (.compiled h he) hc
      rw [List.append_assoc] at hb
      exact hb

/-- The engine with the initial settings after compiling some rules. -/
def ofRules (rs : List Rule) : Engine := (compileAll ⟨.initial, .empty⟩ rs).1

/-- An engine of some rules has built them. -/
theorem built_ofRules (rs : List Rule) (hc : (compileAll ⟨.initial, .empty⟩ rs).2 = .ok ()) : (ofRules rs).Built rs :=
  built_compileAll (.created (s := .initial) rfl) hc

end Engine

end TripleRules

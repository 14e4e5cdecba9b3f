import TripleRules.Proofs.Histories

/-!
# The facts of a batch

A batch starts at a reset, or with the network. Its facts are those that were inserted since then, each of them once, in whatever order
rules were compiled between them.
-/

namespace TripleRules.Network

/-- What a call does to the facts that were inserted since the last reset. -/
def Call.insert (fs : List Fact) : Call → List Fact
  | .rule _ => fs
  | .fact f => fs ++ [f]
  | .reset => []

/-- The facts that calls insert after the last reset among them, in order and with repetitions. -/
def inserted (cs : List Call) : List Fact := cs.foldl Call.insert []

/-- The facts of a network are some facts, each of them once. -/
def Batch (n : Network) (fs : List Fact) : Prop := n.facts.toList.Nodup ∧ ∀ f, f ∈ n.facts ↔ f ∈ fs

/-- A call does to the facts of a network what it does to the facts that were inserted. -/
theorem Batch.call {p p' : Network × List Rule} {fs : List Fact} (h : p.1.Rests p.2) (hb : p.1.Batch fs) {c : Call}
    (he : call p c = .ok p') : p'.1.Batch (c.insert fs) := by
  obtain ⟨hnodup, hmem⟩ := hb
  have hins : ∀ f g, g ∈ fs ++ [f] ↔ g ∈ fs ∨ g = f := fun f g => by rw [List.mem_append, List.mem_singleton]
  cases h.does he with
  | refused r => exact ⟨hnodup, hmem⟩
  | accepted _ hwid =>
    rw [Batch, hwid.facts]
    exact ⟨hnodup, hmem⟩
  | known hin =>
    refine ⟨hnodup, fun g => ?_⟩
    rw [Call.insert, hins, hmem, or_iff_left_of_imp]
    rintro rfl
    exact (hmem g).1 hin
  | new hnew _ _ hfacts =>
    refine ⟨?_, fun g => ?_⟩
    · rw [hfacts, Array.toList_push]
      refine List.nodup_append.2 ⟨hnodup, by simp, fun x hx y hy hxy => hnew ?_⟩
      rw [← List.mem_singleton.1 hy, ← hxy]
      exact Array.mem_toList_iff.1 hx
    · rw [Call.insert, hins, hfacts, Array.mem_push, hmem]
  | reset => exact ⟨List.nodup_nil, fun g => by simp [Network.reset, Call.insert]⟩

/-- Between two calls the facts of a network are those that were inserted since the last reset. -/
theorem batch_of_calls {cs : List Call} {n : Network} {rs : List Rule} (he : calls cs = .ok (n, rs)) : n.Batch (inserted cs) := by
  suffices hrun : ∀ (p : Network × List Rule) (fs : List Fact), p.1.Rests p.2 → p.1.Batch fs → ∀ p',
      cs.foldlM Network.call p = .ok p' → p'.1.Batch (cs.foldl Call.insert fs) from
    hrun (empty, []) [] rests_empty ⟨List.nodup_nil, fun f => by simp [empty]⟩ (n, rs) he
  clear he
  induction cs with
  | nil =>
    intro p fs _ hb p' he
    obtain rfl := Except.ok.inj he
    exact hb
  | cons c cs ih =>
    intro p fs h hb p' he
    rw [List.foldlM_cons] at he
    obtain ⟨p₁, he₁, he⟩ := bind_eq_ok_iff.1 he
    obtain ⟨q, hq, h₁⟩ := h.call_ok c
    obtain rfl := Except.ok.inj (he₁.symm.trans hq)
    exact ih p₁ (c.insert fs) h₁ (hb.call h he₁) p' he

end TripleRules.Network

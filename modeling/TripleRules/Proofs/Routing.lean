import Mathlib.Data.List.Induction
import Mathlib.Data.String.Basic
import TripleRules.Proofs.Matching

/-!
# Routes and requests

An alpha index is what the requests for its memories have made of it. Requests are told apart by their keys and by nothing else: the
first one with a key says whether the memory may keep objects out, and all of them say which. So where a fact goes to is settled by
the keys of the requests. It is settled by their terms if no request shares a key with the fact without asking for its terms; without
blanks in predicates and quotes around names this is so.
-/

namespace TripleRules

/-- A request for a memory: a predicate, an object slot, and the objects to keep out. -/
structure Request where
  predicate : Term
  object : Slot
  excluded : List Term
  deriving DecidableEq, Repr

/-- The key of a request. -/
def Request.key (q : Request) : String := slotKey q.predicate q.object

namespace AlphaIndex

/-- Serves a request after others: the handles that were given for them, and the index. -/
def serve (p : List AlphaId × AlphaIndex) (q : Request) : List AlphaId × AlphaIndex :=
  (p.1 ++ [(p.2.request q.predicate q.object q.excluded).1], (p.2.request q.predicate q.object q.excluded).2)

/-- The handles that are given for some requests, and the index that they make. -/
def serveAll (qs : List Request) : List AlphaId × AlphaIndex := qs.foldl serve ([], .empty)

/-! ## What requests make of an index -/

/-- An index is made by some requests: each key that was asked for has a memory and no other has one. The first request with the key
says whether the memory is for any object, and the objects that are kept out are those of all requests with the key. -/
structure Serves (x : AlphaIndex) (qs : List Request) : Prop where
  keyed : x.Keyed
  known : ∀ q ∈ qs, ∃ a, x.byKey.find? q.key = some a
  first : ∀ {a : AlphaId} {m : AlphaMemory}, x.get? a = some m →
    ∃ q, qs.find? (·.key == m.key) = some q ∧ m.anyObject = q.object.isVar
  excluded : ∀ {a : AlphaId} {m : AlphaMemory}, x.get? a = some m →
    ∀ o, o ∈ m.excluded ↔ ∃ q ∈ qs, q.key = m.key ∧ o ∈ q.excluded

/-- An index without memories serves no requests. -/
theorem serves_empty : empty.Serves [] where
  keyed := keyed_empty
  known := fun q hq => absurd hq List.not_mem_nil
  first := fun hm => by simp [empty, get?] at hm
  excluded := fun hm => by simp [empty, get?] at hm

/-- A change that keeps the keys, the kinds and the excluded objects of the memories does not show. -/
theorem Serves.modify {x : AlphaIndex} {qs : List Request} (h : x.Serves qs) (a : AlphaId) {f : AlphaMemory → AlphaMemory}
    (hf : ∀ m, (f m).key = m.key ∧ (f m).anyObject = m.anyObject ∧ (f m).excluded = m.excluded) : (x.modify a f).Serves qs := by
  have hold : ∀ {b : AlphaId} {m' : AlphaMemory}, (x.modify a f).get? b = some m' →
      ∃ m, x.get? b = some m ∧ m'.key = m.key ∧ m'.anyObject = m.anyObject ∧ m'.excluded = m.excluded := by
    intro b m' hm'
    rw [get?_modify] at hm'
    split at hm'
    · obtain ⟨m, hm, rfl⟩ := Option.map_eq_some_iff.1 hm'
      exact ⟨m, hm, hf m⟩
    · exact ⟨m', hm', rfl, rfl, rfl⟩
  refine ⟨keyed_modify h.keyed a fun m => (hf m).1, h.known, fun hm' => ?_, fun hm' => ?_⟩
  · obtain ⟨m, hm, hkey, hany, -⟩ := hold hm'
    rw [hkey, hany]
    exact h.first hm
  · obtain ⟨m, hm, hkey, -, hex⟩ := hold hm'
    rw [hkey, hex]
    exact h.excluded hm

/-- A memory after a request was there before, and keeps the objects of the request out if it has the key of the request; or it is
the memory that the request creates. -/
theorem get?_request_cases {x : AlphaIndex} (h : x.Keyed) {q : Request} {a : AlphaId} {m' : AlphaMemory}
    (hm' : (x.request q.predicate q.object q.excluded).2.get? a = some m') :
    (∃ m, x.get? a = some m ∧ m'.key = m.key ∧ m'.anyObject = m.anyObject ∧
      ∀ o, o ∈ m'.excluded ↔ o ∈ m.excluded ∨ (q.key = m.key ∧ o ∈ q.excluded)) ∨
    (x.byKey.find? q.key = none ∧ m'.key = q.key ∧ m'.anyObject = q.object.isVar ∧ ∀ o, o ∈ m'.excluded ↔ o ∈ q.excluded) := by
  rcases request_cases x q.predicate q.object q.excluded with ⟨b, hb, he⟩ | ⟨hnone, he⟩
  · obtain ⟨mb, hmb, hkb⟩ := (h _ _).1 hb
    have hshared : ({ x with shared := x.shared + 1 } : AlphaIndex).get? a = x.get? a := rfl
    rw [he, get?_modify, hshared] at hm'
    split at hm'
    · rename_i hab
      subst hab
      rw [hmb] at hm'
      obtain rfl := Option.some.inj hm'
      have hkey : q.key = mb.key := hkb.symm
      refine Or.inl ⟨mb, hmb, rfl, rfl, fun o => ?_⟩
      rw [AlphaMemory.mem_excluded_exclude, or_comm]
      simp [hkey]
    · rename_i hab
      refine Or.inl ⟨m', hm', rfl, rfl, fun o => ⟨Or.inl, fun ho => ho.resolve_right ?_⟩⟩
      rintro ⟨hk, -⟩
      have ha := (h q.key a).2 ⟨m', hm', hk.symm⟩
      exact hab (Option.some.inj (hb.symm.trans ha))
  · rw [he, get?_push] at hm'
    split at hm'
    · obtain rfl := Option.some.inj hm'
      refine Or.inr ⟨hnone, rfl, rfl, fun o => ?_⟩
      rw [AlphaMemory.mem_excluded_exclude]
      simp [AlphaMemory.fresh]
    · refine Or.inl ⟨m', hm', rfl, rfl, fun o => ⟨Or.inl, fun ho => ho.resolve_right ?_⟩⟩
      rintro ⟨hk, -⟩
      have ha := (h q.key a).2 ⟨m', hm', hk.symm⟩
      rw [Request.key, hnone] at ha
      cases ha

/-- A key without a memory was not asked for. -/
theorem Serves.ne_key {x : AlphaIndex} {qs : List Request} (h : x.Serves qs) {k : String} (hk : x.byKey.find? k = none)
    {q : Request} (hq : q ∈ qs) : q.key ≠ k := by
  rintro rfl
  obtain ⟨a, ha⟩ := h.known q hq
  rw [hk] at ha
  nomatch ha

/-- One more request makes of an index what it makes of the requests. -/
theorem Serves.request {x : AlphaIndex} {qs : List Request} (h : x.Serves qs) (q : Request) :
    (x.request q.predicate q.object q.excluded).2.Serves (qs ++ [q]) where
  keyed := keyed_request h.keyed q.predicate q.object q.excluded
  known := fun q' hq' => by
    rcases List.mem_append.1 hq' with hq' | hq'
    · obtain ⟨a, ha⟩ := h.known q' hq'
      exact ⟨a, find?_request_of_some ha _ _ _⟩
    · rw [List.mem_singleton.1 hq']
      exact ⟨_, x.find?_request q.predicate q.object q.excluded⟩
  first := fun hm' => by
    rw [List.find?_append]
    rcases get?_request_cases h.keyed hm' with ⟨m, hm, hk, hany, -⟩ | ⟨hnone, hk, hany, -⟩
    · obtain ⟨q', hq', hvar⟩ := h.first hm
      exact ⟨q', by rw [hk, hq']; rfl, hany.trans hvar⟩
    · have hnot : qs.find? (·.key == q.key) = none := by
        rw [List.find?_eq_none]
        exact fun q' hq' he => h.ne_key hnone hq' (beq_iff_eq.1 he)
      exact ⟨q, by simp only [hk, hnot, Option.none_or, List.find?_singleton, beq_self_eq_true, if_true], hany⟩
  excluded := fun {a m'} hm' o => by
    have hsplit : (∃ q' ∈ qs ++ [q], q'.key = m'.key ∧ o ∈ q'.excluded) ↔
        (∃ q' ∈ qs, q'.key = m'.key ∧ o ∈ q'.excluded) ∨ (q.key = m'.key ∧ o ∈ q.excluded) := by
      simp only [List.mem_append, List.mem_singleton, or_and_right, exists_or, exists_eq_left]
    rw [hsplit]
    rcases get?_request_cases h.keyed hm' with ⟨m, hm, hk, -, hex⟩ | ⟨hnone, hk, -, hex⟩
    · rw [hex, h.excluded hm, hk]
    · rw [hex, hk]
      refine ⟨fun ho => Or.inr ⟨rfl, ho⟩, ?_⟩
      rintro (⟨q', hq', he, -⟩ | ⟨-, ho⟩)
      · exact absurd he (h.ne_key hnone hq')
      · exact ho

/-! ## The handles of requests -/

/-- An index that served some requests one after the other, with the handles that it gave. -/
structure Served (qs : List Request) (p : List AlphaId × AlphaIndex) : Prop where
  serves : p.2.Serves qs
  length : p.1.length = qs.length
  given : ∀ {i : Nat} {q : Request} {a : AlphaId}, qs[i]? = some q → p.1[i]? = some a → p.2.byKey.find? q.key = some a

/-- One more request is served by the memory of its key, and the requests before it keep theirs. -/
theorem Served.serve {qs : List Request} {p : List AlphaId × AlphaIndex} (h : Served qs p) (q : Request) :
    Served (qs ++ [q]) (serve p q) where
  serves := h.serves.request q
  length := by rw [AlphaIndex.serve, List.length_append, List.length_append, h.length]; rfl
  given := fun {i q' a} hq ha => by
    rw [AlphaIndex.serve, List.getElem?_append_singleton_eq_some] at ha
    rw [List.getElem?_append_singleton_eq_some] at hq
    rcases hq with hq | ⟨hi, rfl⟩
    · rcases ha with ha | ⟨hi, -⟩
      · exact find?_request_of_some (h.given hq ha) _ _ _
      · have hlt := (List.getElem?_eq_some_iff.1 hq).1
        rw [hi, h.length] at hlt
        exact absurd hlt (Nat.lt_irrefl _)
    · rcases ha with ha | ⟨-, rfl⟩
      · have hlt := (List.getElem?_eq_some_iff.1 ha).1
        rw [hi, h.length] at hlt
        exact absurd hlt (Nat.lt_irrefl _)
      · exact p.2.find?_request _ _ _

/-- The requests that are served one after the other are served. -/
theorem served_serveAll (qs : List Request) : Served qs (serveAll qs) := by
  induction qs using List.reverseRecOn with
  | nil => exact ⟨serves_empty, rfl, fun hq => nomatch hq⟩
  | append_singleton qs q ih =>
    rw [serveAll, List.foldl_append]
    exact ih.serve q

/-- A key stands for the handle that the requests with the key were given. -/
theorem Served.find?_eq_some_iff {qs : List Request} {p : List AlphaId × AlphaIndex} (h : Served qs p) {k : String} {a : AlphaId} :
    p.2.byKey.find? k = some a ↔ ∃ (i : Nat) (q : Request), qs[i]? = some q ∧ p.1[i]? = some a ∧ q.key = k := by
  constructor
  · intro hk
    obtain ⟨m, hm, hkey⟩ := (h.serves.keyed k a).1 hk
    obtain ⟨q, hq, -⟩ := h.serves.first hm
    obtain ⟨i, hi⟩ := List.mem_iff_getElem?.1 (List.mem_of_find?_eq_some hq)
    have hlt : i < p.1.length := by
      rw [h.length]
      exact (List.getElem?_eq_some_iff.1 hi).1
    have hfound := List.find?_some hq
    have hqk : q.key = k := (beq_iff_eq.1 hfound).trans hkey
    have hgiven := h.given hi (List.getElem?_eq_getElem hlt)
    rw [hqk, hk] at hgiven
    exact ⟨i, q, hi, by rw [List.getElem?_eq_getElem hlt, ← Option.some.inj hgiven], hqk⟩
  · rintro ⟨i, q, hi, ha, rfl⟩
    exact h.given hi ha

/-- A memory keeps an object out if the first request with its key is for any object, and some request with its key names the
object. -/
theorem Serves.excludes_iff {x : AlphaIndex} {qs : List Request} (h : x.Serves qs) {k : String} {a : AlphaId}
    (hk : x.byKey.find? k = some a) (o : Term) : x.excludes a o = true ↔
      (∃ q, qs.find? (·.key == k) = some q ∧ q.object.isVar = true) ∧ ∃ q ∈ qs, q.key = k ∧ o ∈ q.excluded := by
  obtain ⟨m, hm, rfl⟩ := (h.keyed k a).1 hk
  obtain ⟨q, hq, hvar⟩ := h.first hm
  rw [excludes, hm, Option.any_some, AlphaMemory.excludes, Bool.and_eq_true, List.contains_iff_mem, h.excluded hm, hvar, hq]
  simp

end AlphaIndex

/-! ## Keys that tell terms apart -/

/-- Whether a term is a literal, or a resource whose name does not begin with a quote. -/
def Term.unquoted : Term → Bool
  | .resource name => name.toList.head? != some '"'
  | .literal _ => true

/-- Such terms are told apart by their texts. -/
theorem Term.text_inj {s t : Term} (hs : s.unquoted = true) (ht : t.unquoted = true) (h : s.text = t.text) : s = t := by
  have hquoted : ∀ v : String, (Term.text (.literal v)).toList = '"' :: (v.toList ++ ['"']) := by
    intro v
    simp [text, String.toList_append]
  cases s with
  | resource n =>
    cases t with
    | resource n' => exact congrArg resource h
    | literal v =>
      have hn : n.toList = '"' :: (v.toList ++ ['"']) := by rw [← hquoted, ← h, text]
      simp [unquoted, hn] at hs
  | literal v =>
    cases t with
    | resource n' =>
      have hn : n'.toList = '"' :: (v.toList ++ ['"']) := by rw [← hquoted, h, text]
      simp [unquoted, hn] at ht
    | literal w =>
      have hlist := congrArg String.toList h
      rw [hquoted, hquoted, List.cons.injEq] at hlist
      exact congrArg literal (String.toList_inj.1 (List.append_cancel_right hlist.2))

/-- Whether the text of a predicate has no blank and tells the predicate from others. -/
def Term.plainPredicate (t : Term) : Bool := t.unquoted && !t.text.toList.contains ' '

theorem toList_constantKey (p o : Term) : (constantKey p o).toList = p.text.toList ++ ' ' :: o.text.toList := by
  simp [constantKey, String.toList_append]

/-- A key splits at its first blank into the texts of predicate and object. -/
theorem constantKey_inj {p p' o o' : Term} (hp : p.plainPredicate = true) (hp' : p'.plainPredicate = true)
    (ho : o.unquoted = true) (ho' : o'.unquoted = true) (h : constantKey p o = constantKey p' o') : p = p' ∧ o = o' := by
  simp only [Term.plainPredicate, Bool.and_eq_true, Bool.not_eq_true', List.contains_eq_mem, decide_eq_false_iff_not] at hp hp'
  have hlist := congrArg String.toList h
  rw [toList_constantKey, toList_constantKey] at hlist
  obtain ⟨hpp, hoo⟩ := List.append_cons_inj_left hp.2 hp'.2 hlist
  exact ⟨Term.text_inj hp.1 hp'.1 (String.toList_inj.1 hpp), Term.text_inj ho ho' (String.toList_inj.1 hoo)⟩

/-- The key of a predicate and an object is not the text of a predicate without a blank. -/
theorem constantKey_ne_text {p p' o : Term} (hp' : p'.plainPredicate = true) : constantKey p o ≠ p'.text := by
  intro h
  simp only [Term.plainPredicate, Bool.and_eq_true, Bool.not_eq_true', List.contains_eq_mem, decide_eq_false_iff_not] at hp'
  refine hp'.2 ?_
  rw [← h, toList_constantKey]
  exact List.mem_append_right _ List.mem_cons_self

/-! ## Requests for a fact -/

namespace Request

/-- Whether a request is for the predicate and the object of a fact. -/
def AsksFor (q : Request) (f : Fact) : Prop := q.predicate = f.predicate ∧ q.object = .const f.object

/-- Whether a request is for a predicate with any object. -/
def AsksAny (q : Request) (p : Term) : Prop := q.predicate = p ∧ q.object.isVar = true

instance (q : Request) (f : Fact) : Decidable (q.AsksFor f) := inferInstanceAs (Decidable (_ ∧ _))

instance (q : Request) (p : Term) : Decidable (q.AsksAny p) := inferInstanceAs (Decidable (_ ∧ _))

/-- A request for the object of a fact has the key of its predicate and object. -/
theorem AsksFor.key_eq {q : Request} {f : Fact} (h : q.AsksFor f) : q.key = constantKey f.predicate f.object := by
  rw [key, h.1, h.2, slotKey]

/-- A request for any object has the text of its predicate as its key. -/
theorem AsksAny.key_eq {q : Request} {p : Term} (h : q.AsksAny p) : q.key = p.text := by
  obtain ⟨hp, ho⟩ := h
  unfold key
  cases hv : q.object with
  | var name => rw [hp, slotKey]
  | const t => rw [hv] at ho; nomatch ho

/-- Whether one of some requests for a fact goes by its terms: it is for the predicate and the object, or for the predicate with any
object, and no request for the predicate with any object keeps the object of the fact out. -/
def Wants (qs : List Request) (q : Request) (f : Fact) : Prop :=
  q.AsksFor f ∨ (q.AsksAny f.predicate ∧ ∀ q' ∈ qs, q'.AsksAny f.predicate → f.object ∉ q'.excluded)

instance (qs : List Request) (q : Request) (f : Fact) : Decidable (Wants qs q f) := inferInstanceAs (Decidable (_ ∨ _))

/-- Whether each request that shares a key with a fact asks for the terms that the key is made of. -/
def Separated (qs : List Request) (f : Fact) : Prop :=
  ∀ q ∈ qs, (q.key = constantKey f.predicate f.object → q.AsksFor f) ∧ (q.key = f.predicate.text → q.AsksAny f.predicate)

instance (qs : List Request) (f : Fact) : Decidable (Separated qs f) := inferInstanceAs (Decidable (∀ _ ∈ _, _))

/-- Without blanks in predicates, and without quotes at the beginning of names, keys tell all terms apart. -/
theorem separated_of_plain {qs : List Request} {f : Fact} (hf : f.predicate.plainPredicate = true) (ho : f.object.unquoted = true)
    (hp : ∀ q ∈ qs, q.predicate.plainPredicate = true) (hq : ∀ q ∈ qs, ∀ t, q.object = .const t → t.unquoted = true) :
    Separated qs f := by
  intro q hmem
  have hqp := hp q hmem
  cases hv : q.object with
  | var name =>
    have hkey : q.key = q.predicate.text := by rw [key, hv, slotKey]
    rw [hkey]
    refine ⟨fun he => absurd he.symm (constantKey_ne_text hqp), fun he => ⟨?_, by rw [hv]; rfl⟩⟩
    simp only [Term.plainPredicate, Bool.and_eq_true] at hqp hf
    exact Term.text_inj hqp.1 hf.1 he
  | const t =>
    have hkey : q.key = constantKey q.predicate t := by rw [key, hv, slotKey]
    rw [hkey]
    refine ⟨fun he => ?_, fun he => absurd he (constantKey_ne_text hf)⟩
    obtain ⟨hpp, rfl⟩ := constantKey_inj hqp hf (hq q hmem t hv) ho he
    exact ⟨hpp, hv⟩

end Request

namespace AlphaIndex

/-- Whether a memory was given for one of the requests for a fact, as they go by its terms. -/
def Wanted (qs : List Request) (f : Fact) (a : AlphaId) : Prop :=
  ∃ (i : Nat) (q : Request), qs[i]? = some q ∧ (serveAll qs).1[i]? = some a ∧ Request.Wants qs q f

/-- Where a fact goes to is settled by keys: to the memory of each request that has the key of its predicate and object, and to that of
each request that has the key of its predicate, unless the first such request is for any object and one of them keeps the object
out. If each request that shares a key with the fact asks for the terms of the key, these are the memories of the requests for the
fact. -/
theorem mem_route_serveAll (qs : List Request) (f : Fact) (a : AlphaId) :
    (a ∈ (serveAll qs).2.route f ↔ ∃ (i : Nat) (q : Request), qs[i]? = some q ∧ (serveAll qs).1[i]? = some a ∧
      (q.key = constantKey f.predicate f.object ∨
        (q.key = f.predicate.text ∧ ¬((∃ q', qs.find? (·.key == f.predicate.text) = some q' ∧ q'.object.isVar = true) ∧
          ∃ q' ∈ qs, q'.key = f.predicate.text ∧ f.object ∈ q'.excluded)))) ∧
    (Request.Separated qs f → (a ∈ (serveAll qs).2.route f ↔ Wanted qs f a)) := by
  have h := served_serveAll qs
  have hkeys : a ∈ (serveAll qs).2.route f ↔ ∃ (i : Nat) (q : Request), qs[i]? = some q ∧ (serveAll qs).1[i]? = some a ∧
      (q.key = constantKey f.predicate f.object ∨
        (q.key = f.predicate.text ∧ ¬((∃ q', qs.find? (·.key == f.predicate.text) = some q' ∧ q'.object.isVar = true) ∧
          ∃ q' ∈ qs, q'.key = f.predicate.text ∧ f.object ∈ q'.excluded))) := by
    rw [mem_route]
    constructor
    · rintro (hk | ⟨hk, hex⟩)
      · obtain ⟨i, q, hi, ha, hkey⟩ := h.find?_eq_some_iff.1 hk
        exact ⟨i, q, hi, ha, Or.inl hkey⟩
      · obtain ⟨i, q, hi, ha, hkey⟩ := h.find?_eq_some_iff.1 hk
        refine ⟨i, q, hi, ha, Or.inr ⟨hkey, ?_⟩⟩
        rw [← h.serves.excludes_iff hk, hex]
        exact Bool.false_ne_true
    · rintro ⟨i, q, hi, ha, hkey | ⟨hkey, hex⟩⟩
      · exact Or.inl (h.find?_eq_some_iff.2 ⟨i, q, hi, ha, hkey⟩)
      · have hk := h.find?_eq_some_iff.2 ⟨i, q, hi, ha, hkey⟩
        rw [← h.serves.excludes_iff hk, Bool.not_eq_true] at hex
        exact Or.inr ⟨hk, hex⟩
  refine ⟨hkeys, fun hs => ?_⟩
  rw [hkeys]
  constructor
  · rintro ⟨i, q, hi, ha, hkey | ⟨hkey, hex⟩⟩
    · exact ⟨i, q, hi, ha, Or.inl ((hs q (List.mem_of_getElem? hi)).1 hkey)⟩
    · refine ⟨i, q, hi, ha, Or.inr ⟨(hs q (List.mem_of_getElem? hi)).2 hkey, fun q' hq' hany hin => hex ⟨?_, ?_⟩⟩⟩
      · -- the first request with the key is for any object, as all of them are
        cases hfirst : qs.find? (·.key == f.predicate.text) with
        | none =>
          have hnot := List.find?_eq_none.1 hfirst q (List.mem_of_getElem? hi)
          exact absurd (beq_iff_eq.2 hkey) hnot
        | some q₁ =>
          have hfound := List.find?_some hfirst
          exact ⟨q₁, rfl, ((hs q₁ (List.mem_of_find?_eq_some hfirst)).2 (beq_iff_eq.1 hfound)).2⟩
      · exact ⟨q', hq', hany.key_eq, hin⟩
  · rintro ⟨i, q, hi, ha, hfor | ⟨hany, hfree⟩⟩
    · exact ⟨i, q, hi, ha, Or.inl hfor.key_eq⟩
    · refine ⟨i, q, hi, ha, Or.inr ⟨hany.key_eq, ?_⟩⟩
      rintro ⟨-, q', hq', hkey, hin⟩
      exact hfree q' hq' ((hs q' hq').2 hkey) hin

/-- Who knows whom but the cat, and who knows Bob. -/
def acquaintances : List Request :=
  [⟨.resource "knows", .var "?y", [.resource "cat"]⟩, ⟨.resource "knows", .const (.resource "bob"), []⟩]

theorem mem_route_serveAll_acquaintances : Request.Separated acquaintances ⟨.resource "ann", .resource "knows", .resource "bob"⟩ ∧
    Wanted acquaintances ⟨.resource "ann", .resource "knows", .resource "bob"⟩ 0 ∧
    Wanted acquaintances ⟨.resource "ann", .resource "knows", .resource "bob"⟩ 1 := by
  have hs : Request.Separated acquaintances ⟨.resource "ann", .resource "knows", .resource "bob"⟩ := by
    refine Request.separated_of_plain (by decide) (by decide) (by decide) fun q hq t ht => ?_
    have hall : ∀ q ∈ acquaintances, q.object.constant?.all Term.unquoted = true := by decide
    have hq' := hall q hq
    rw [ht] at hq'
    exact hq'
  exact ⟨hs, ((mem_route_serveAll _ _ 0).2 hs).1 (by decide), ((mem_route_serveAll _ _ 1).2 hs).1 (by decide)⟩

/-- Requests for a predicate with a constant whose texts run together into the text of another predicate and another object. -/
def smithRequests : List Request := [⟨.resource "knows", .const (.resource "bob smith"), []⟩]

/-- A request for a predicate with a constant, and one for another predicate with any object but the cat. They share a key, and the
first one makes the memory. -/
def catRequests : List Request :=
  [⟨.resource "knows", .const (.resource "bob"), []⟩, ⟨.resource "knows bob", .var "?y", [.resource "cat"]⟩]

/-- A request for a literal as predicate with any object but the cat, and one for the resource with the same text and any object. -/
def quotedRequests : List Request :=
  [⟨.literal "knows", .var "?y", [.resource "cat"]⟩, ⟨.resource "\"knows\"", .var "?y", []⟩]

/-- A fact that no request wants is wanted by no memory. -/
theorem not_wanted {qs : List Request} {f : Fact} (h : ∀ q ∈ qs, ¬Request.Wants qs q f) (a : AlphaId) : ¬Wanted qs f a := by
  rintro ⟨i, q, hi, -, hw⟩
  exact h q (List.mem_of_getElem? hi) hw

/-- A fact goes to a memory that no request for it was given, to one whose only request for its predicate keeps its object out, and
not to one that the only request for its predicate was given, although this request keeps nothing out. -/
theorem exists_mem_route_ne_wanted :
    (0 ∈ (serveAll smithRequests).2.route ⟨.resource "alice", .resource "knows bob", .resource "smith"⟩ ∧
      ¬Wanted smithRequests ⟨.resource "alice", .resource "knows bob", .resource "smith"⟩ 0) ∧
    (0 ∈ (serveAll catRequests).2.route ⟨.resource "ann", .resource "knows bob", .resource "cat"⟩ ∧
      ¬Wanted catRequests ⟨.resource "ann", .resource "knows bob", .resource "cat"⟩ 0) ∧
    (0 ∉ (serveAll quotedRequests).2.route ⟨.resource "ann", .resource "\"knows\"", .resource "cat"⟩ ∧
      Wanted quotedRequests ⟨.resource "ann", .resource "\"knows\"", .resource "cat"⟩ 0) := by
  refine ⟨⟨by decide, not_wanted (by decide) 0⟩, ⟨by decide, not_wanted (by decide) 0⟩, by decide, ?_⟩
  exact ⟨1, ⟨.resource "\"knows\"", .var "?y", []⟩, rfl, by decide, by decide⟩

end AlphaIndex

end TripleRules

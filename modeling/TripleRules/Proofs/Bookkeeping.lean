import Mathlib.Data.List.Nodup
import TripleRules.Proofs.Batches
import TripleRules.Proofs.Requests

/-!
# The books of the alpha index

The alpha index is written to when a rule is compiled, when a fact is inserted and when a batch ends. What it says stays right: a
handle is the position of a memory and keeps its key for ever, the memories are what was asked for, their readers are the joins that
read them, and each memory lists the facts of the batch that were routed to it when they came. Later rules may share a memory and
keep more objects out of it; what it lists already stays.
-/

namespace TripleRules

/-! ## Routes -/

/-- The key of a predicate and an object is longer than that of the predicate alone. -/
theorem constantKey_ne_text_self (predicate object : Term) : constantKey predicate object ≠ predicate.text := by
  intro h
  have hlen := congrArg String.length h
  rw [constantKey, String.length_append, String.length_append] at hlen
  have hblank : " ".length = 1 := rfl
  omega

/-- No fact goes to a memory twice: the two keys of a fact are different, and a memory has one key. -/
theorem AlphaIndex.Keyed.nodup_route {x : AlphaIndex} (h : x.Keyed) (f : Fact) : (x.route f).Nodup := by
  rw [route]
  refine List.nodup_append.2 ⟨?_, ?_, ?_⟩
  · cases x.byKey.find? (constantKey f.predicate f.object) <;> simp
  · refine List.Nodup.filter _ ?_
    cases x.byKey.find? f.predicate.text <;> simp
  · rintro a ha b hb rfl
    have hspecific := Option.mem_toList.1 ha
    have hgeneral := Option.mem_toList.1 (List.mem_filter.1 hb).1
    exact constantKey_ne_text_self f.predicate f.object ((h.find?_eq_some_iff hgeneral _).1 hspecific)

/-! ## Handles -/

namespace AlphaIndex

/-- Indexes with the same table and as many memories give a request the same handle, and stay alike. -/
theorem request_congr {x y : AlphaIndex} (hk : x.byKey = y.byKey) (hs : x.size = y.size) (p : Term) (o : Slot)
    (excluded : List Term) : (x.request p o excluded).2.byKey = (y.request p o excluded).2.byKey ∧
      (x.request p o excluded).2.size = (y.request p o excluded).2.size := by
  rcases request_cases x p o excluded with ⟨a, ha, hx⟩ | ⟨hnone, hx⟩
  · rcases request_cases y p o excluded with ⟨b, -, hy⟩ | ⟨hnone, -⟩
    · rw [hx, hy]
      exact ⟨hk, by simpa [size, modify] using hs⟩
    · rw [hk, hnone] at ha
      cases ha
  · rcases request_cases y p o excluded with ⟨b, hb, -⟩ | ⟨-, hy⟩
    · rw [hk, hb] at hnone
      cases hnone
    · rw [hx, hy, hk, hs]
      exact ⟨rfl, by simpa [size] using hs⟩

end AlphaIndex

/-- What happens to a memory in the course of time: it may keep more objects out and get more readers. Its handle, its key and its
kind stay. -/
structure AlphaMemory.Grows (m m' : AlphaMemory) : Prop where
  id : m'.id = m.id
  key : m'.key = m.key
  anyObject : m'.anyObject = m.anyObject
  excluded : ∀ o ∈ m.excluded, o ∈ m'.excluded
  successors : m.successors <+: m'.successors

namespace AlphaMemory.Grows

theorem refl (m : AlphaMemory) : m.Grows m := ⟨rfl, rfl, rfl, fun _ ho => ho, List.prefix_rfl⟩

/-- A memory that grows and grows again grows. -/
theorem trans {a b c : AlphaMemory} (h : a.Grows b) (h' : b.Grows c) : a.Grows c :=
  ⟨h'.id.trans h.id, h'.key.trans h.key, h'.anyObject.trans h.anyObject, fun o ho => h'.excluded o (h.excluded o ho),
    h.successors.trans h'.successors⟩

/-- A memory grows by excluded objects. -/
theorem exclude (m : AlphaMemory) (objects : List Term) : m.Grows (m.exclude objects) :=
  ⟨rfl, rfl, rfl, fun _ ho => (mem_excluded_exclude _ _ _).2 (Or.inr ho), List.prefix_rfl⟩

/-- A memory grows by a reader. -/
theorem addSuccessor (m : AlphaMemory) (join : NodeId) : m.Grows (m.addSuccessor join) := by
  unfold AlphaMemory.addSuccessor
  split
  · exact refl m
  · exact ⟨rfl, rfl, rfl, fun _ ho => ho, List.prefix_append _ _⟩

/-- The facts of a memory do not count. -/
theorem of_bare {m m' : AlphaMemory} (h : m'.bare = m.bare) : m.Grows m' := by
  obtain ⟨hid, hkey, hany, hexcluded, hsuccessors⟩ := AlphaMemory.eq_of_bare h
  exact ⟨hid, hkey, hany, fun o ho => by rw [hexcluded]; exact ho, ⟨[], by rw [List.append_nil, hsuccessors]⟩⟩

end AlphaMemory.Grows

/-- What was handed out by an index stays: a key keeps its handle, and a handle its memory. -/
structure AlphaIndex.Keeps (x x' : AlphaIndex) : Prop where
  handle : ∀ k a, x.byKey.find? k = some a → x'.byKey.find? k = some a
  memory : ∀ a m, x.get? a = some m → ∃ m', x'.get? a = some m' ∧ m.Grows m'

namespace AlphaIndex.Keeps

theorem refl (x : AlphaIndex) : x.Keeps x := ⟨fun _ _ hk => hk, fun _ m hm => ⟨m, hm, .refl m⟩⟩

/-- An index that keeps its memories and keeps them again keeps them. -/
theorem trans {x y z : AlphaIndex} (h : x.Keeps y) (h' : y.Keeps z) : x.Keeps z := by
  refine ⟨fun k a hk => h'.handle k a (h.handle k a hk), fun a m hm => ?_⟩
  obtain ⟨m₁, hm₁, hg₁⟩ := h.memory a m hm
  obtain ⟨m₂, hm₂, hg₂⟩ := h'.memory a m₁ hm₁
  exact ⟨m₂, hm₂, hg₁.trans hg₂⟩

/-- An index whose memories grow keeps them. -/
theorem modify (x : AlphaIndex) (a : AlphaId) {f : AlphaMemory → AlphaMemory} (hf : ∀ m : AlphaMemory, m.Grows (f m)) :
    x.Keeps (x.modify a f) := by
  refine ⟨fun k b hk => hk, fun b m hm => ?_⟩
  rw [get?_modify, hm]
  split
  · exact ⟨f m, rfl, hf m⟩
  · exact ⟨m, rfl, .refl m⟩

/-- A request keeps the memories that are there. -/
theorem request (x : AlphaIndex) (p : Term) (o : Slot) (excluded : List Term) : x.Keeps (x.request p o excluded).2 := by
  refine ⟨fun k a hk => find?_request_of_some hk p o excluded, fun a m hm => ?_⟩
  rcases request_cases x p o excluded with ⟨b, -, he⟩ | ⟨-, he⟩
  · rw [he]
    exact (modify { x with shared := x.shared + 1 } b fun m => .exclude m excluded).memory a m hm
  · rw [he, get?_push, if_neg (Nat.ne_of_lt (lt_size_of_get? hm))]
    exact ⟨m, hm, .refl m⟩

end AlphaIndex.Keeps

namespace Network

/-- Whatever was handed out before some requests stays. -/
theorem kept_keeps (x₀ : AlphaIndex) : AlphaIndex.Kept fun _ x => x₀.Keeps x where
  request q h := h.trans (.request _ q.predicate q.object q.excluded)
  enlist a join h := h.trans (.modify _ a fun m => .addSuccessor m join)

/-- The table and the number of the memories are what the requests alone would make of them. -/
theorem kept_served : AlphaIndex.Kept fun qs x =>
    x.byKey = (AlphaIndex.serveAll qs).2.byKey ∧ x.size = (AlphaIndex.serveAll qs).2.size where
  request q h := by
    rw [AlphaIndex.serveAll, List.foldl_append]
    exact AlphaIndex.request_congr h.1 h.2 q.predicate q.object q.excluded
  enlist a join h := ⟨h.1, by rw [← h.2, AlphaIndex.size, AlphaIndex.size, AlphaIndex.modify, Array.size_modify]⟩

/-- With the same rules the memories are the same but for what arrived. -/
theorem keeps_of_bare {n n' : Network} (hb : n'.bare = n.bare) : n.alpha.Keeps n'.alpha := by
  refine ⟨fun k a hk => by rw [byKey_of_bare hb]; exact hk, fun a m hm => ?_⟩
  obtain ⟨m', hm', hbare⟩ := exists_alpha_of_bare hb hm
  exact ⟨m', hm', .of_bare hbare⟩

/-- No call takes back what the index has handed out. -/
theorem keeps_call {p p' : Network × List Rule} (h : p.1.Rests p.2) {c : Call} (he : call p c = .ok p') :
    p.1.alpha.Keeps p'.1.alpha := by
  cases h.does he with
  | refused r => exact .refl _
  | accepted ha _ => exact @alpha_addRule _ (kept_keeps p.1.alpha) _ _ [] (.refl _) _ _ ha
  | known _ => exact .refl _
  | new _ _ hb _ => exact keeps_of_bare hb
  | reset => exact keeps_of_bare (bare_reset p.1)

/-- Whatever calls follow, they are done and take nothing back that the index has handed out. -/
theorem keeps_calls {p : Network × List Rule} (h : p.1.Rests p.2) (ds : List Call) :
    ∃ p', ds.foldlM call p = .ok p' ∧ p.1.alpha.Keeps p'.1.alpha := by
  induction ds generalizing p with
  | nil => exact ⟨p, rfl, .refl _⟩
  | cons c ds ih =>
    obtain ⟨p₁, he₁, h₁⟩ := h.call_ok c
    obtain ⟨p₂, he₂, hk⟩ := ih h₁
    refine ⟨p₂, ?_, (keeps_call h he₁).trans hk⟩
    rw [List.foldlM_cons, he₁]
    exact he₂

/-! ## The memories and their readers -/

/-- What the index of a network says of the memories is what the requests of its rules and its joins say. -/
structure Indexed (n : Network) (qs : List Request) : Prop where
  /-- The handle that a memory keeps is its position. -/
  numbered : ∀ {a : AlphaId} {m : AlphaMemory}, n.alpha.get? a = some m → m.id = a
  /-- The handle that a request was given is the position of the memory with its key. -/
  given : ∀ {i : Nat} {q : Request}, qs[i]? = some q →
    ∃ a m, (AlphaIndex.serveAll qs).1[i]? = some a ∧ n.alpha.get? a = some m ∧ m.key = q.key
  /-- The table leads from the key of each memory to its position, and from nothing else to anything. -/
  table : ∀ k a, n.alpha.byKey.find? k = some a ↔ ∃ m, n.alpha.get? a = some m ∧ m.key = k
  /-- Each memory was asked for, and the first request with its key says of which kind it is. -/
  first : ∀ {a : AlphaId} {m : AlphaMemory}, n.alpha.get? a = some m →
    ∃ q, qs.find? (·.key == m.key) = some q ∧ m.anyObject = q.object.isVar
  /-- A memory lists the objects that some request with its key asked to keep out. -/
  excluded : ∀ {a : AlphaId} {m : AlphaMemory}, n.alpha.get? a = some m →
    ∀ o, o ∈ m.excluded ↔ ∃ q ∈ qs, q.key = m.key ∧ o ∈ q.excluded
  /-- A memory lists the joins that read it, each once. -/
  successors : ∀ {a : AlphaId} {m : AlphaMemory}, n.alpha.get? a = some m → m.successors.Nodup ∧
    ∀ id : NodeId, id ∈ m.successors ↔ ∃ j, n.nodes[id]? = some (.join j) ∧ j.alpha = a
  /-- A join reads the memory with the key of its condition. -/
  joins : ∀ {id : NodeId} {j : JoinNode}, n.nodes[id]? = some (.join j) →
    ∃ m, n.alpha.get? j.alpha = some m ∧ m.key = j.condition.key
  /-- A fact goes to memories that are there, to each of them once. -/
  routes : ∀ f : Fact, (n.alpha.route f).Nodup ∧ ∀ a ∈ n.alpha.route f, ∃ m, n.alpha.get? a = some m

/-- Between two calls the index says what the accepted rules have asked for. -/
theorem Rests.indexed {n : Network} {rs : List Rule} (h : n.Rests rs) : n.Indexed (rs.flatMap Rule.requests) where
  numbered {a m} hm := numbered_of_bare h.rules rfl a m hm
  given {i q} hq := by
    have hserved := AlphaIndex.served_serveAll (rs.flatMap Rule.requests)
    obtain ⟨hkeys, -⟩ := alpha_addRules kept_served ⟨rfl, rfl⟩ h.rules
    have hlt : i < (AlphaIndex.serveAll (rs.flatMap Rule.requests)).1.length := by
      rw [hserved.length]
      exact (List.getElem?_eq_some_iff.1 hq).1
    have ha := List.getElem?_eq_getElem hlt
    -- the table has the key of the request still, and leads to where the memory was put then
    have hk := hserved.given hq ha
    rw [← hkeys] at hk
    obtain ⟨m, hm, hkey⟩ := (h.keyed _ _).1 hk
    exact ⟨_, m, ha, hm, hkey⟩
  table := h.keyed
  first := (serves_of_bare h.rules rfl).first
  excluded := (serves_of_bare h.rules rfl).excluded
  successors {a m} hm := by
    have hbare : n.bare.alpha.get? a = some m.bare := by
      have hget : n.bare.alpha.get? a = (n.alpha.get? a).map AlphaMemory.bare := n.alpha.get?_bare a
      rw [hget, hm]
      rfl
    have hnodup := nodup_successors_addRules h.rules hbare
    exact ⟨hnodup, h.successors hm⟩
  joins hj := (h.keyed _ _).1 (h.join_alpha hj)
  routes f := ⟨h.keyed.nodup_route f, fun _ ha => AlphaIndex.exists_get?_of_mem_route h.keyed ha⟩

/-! ## The facts that a memory lists -/

/-- A fact that arrives in some memories comes last in each of them, as often as it arrives there. -/
theorem arrived_receives {n n' : Network} {g : FactId} {as : List AlphaId} (he : as.foldlM (receive g) n = .ok n') (b : AlphaId) :
    n'.arrived b = n.arrived b ++ List.replicate (as.count b) g := by
  induction as generalizing n with
  | nil =>
    obtain rfl := Except.ok.inj he
    rw [List.count_nil, List.replicate_zero, List.append_nil]
  | cons a as ih =>
    rw [List.foldlM_cons] at he
    obtain ⟨n₁, he₁, he⟩ := bind_eq_ok_iff.1 he
    obtain ⟨m, hm, rfl⟩ := receive_eq_ok he₁
    rw [ih he, arrived_withArrival hm, List.append_assoc]
    congr 1
    by_cases hab : a = b
    · rw [hab, if_pos rfl, List.count_cons_self, List.replicate_succ, List.singleton_append]
    · rw [if_neg hab, List.nil_append, List.count_cons_of_ne hab]

/-- A new fact comes last in each memory that it is routed to, once, and in no other. -/
theorem arrived_addFact {n n' : Network} (h : n.Sound) {f : Fact} (hf : f ∉ n.facts) {b : Bool} (he : n.addFact f = .ok (b, n'))
    (a : AlphaId) : n'.arrived a = n.arrived a ++ if a ∈ n.alpha.route f then [n.facts.size] else [] := by
  obtain ⟨n₁, he₁, h₁, -, -, -, -⟩ := arrive_ok h hf
  obtain ⟨n₂, he₂, -, -, -, -, hα, -⟩ := run_ok h₁
  have hadd : n.addFact f = .ok (true, n₂) := by
    rw [addFact_eq (mt h.contains_iff.1 hf), he₁]
    simp only [Bind.bind, Except.bind, he₂]
  obtain ⟨-, rfl⟩ := Prod.mk.inj (Except.ok.inj (he.symm.trans hadd))
  have hlast : n₁.arrived a = n.arrived a ++ List.replicate ((n.alpha.route f).count a) n.facts.size := arrived_receives he₁ a
  rw [arrived, hα, ← arrived, hlast, (h.keyed.nodup_route f).count]
  split <;> rfl

/-- A fact of a batch, and the memories that it was routed to when it was inserted. -/
structure Entry where
  fact : Fact
  memories : List AlphaId
  deriving DecidableEq, Repr

/-- What a call does to the entries of a batch. A fact that is new gets one, with the memories that the network routes it to then. -/
def Call.note (n : Network) (log : List Entry) : Call → List Entry
  | .rule _ => log
  | .fact f => if f ∈ log.map (·.fact) then log else log ++ [⟨f, n.alpha.route f⟩]
  | .reset => []

/-- A call, with the entries of the batch beside it. -/
def notedCall (p : (Network × List Rule) × List Entry) (c : Call) : Outcome ((Network × List Rule) × List Entry) :=
  (call p.1 c).map fun q => (q, c.note p.1.1 p.2)

/-- Some calls, with the entries of the facts that were inserted since the last reset. -/
def notedCalls (cs : List Call) : Outcome ((Network × List Rule) × List Entry) := cs.foldlM notedCall ((empty, []), [])

/-- The facts of a network, and those that each memory lists, are what the entries say: a handle is the position of an entry, and a
memory lists the handles of the facts that were routed to it. -/
structure Logged (n : Network) (fs : List Fact) (log : List Entry) : Prop where
  facts : n.facts.toList = log.map (·.fact)
  /-- Each fact that was inserted has one entry, at the place where it came first. -/
  inserted : log.map (·.fact) = fs.eraseDups
  arrived : ∀ a, n.arrived a = log.findIdxs (a ∈ ·.memories)

/-- The entries are those of the facts that were inserted. -/
theorem Logged.mem_iff {n : Network} {fs : List Fact} {log : List Entry} (h : n.Logged fs log) (f : Fact) :
    f ∈ log.map (·.fact) ↔ f ∈ fs := by
  rw [h.inserted, List.mem_eraseDups]

/-- A call does to a network and its memories what it does to the entries. -/
theorem Logged.call {p p' : Network × List Rule} (h : p.1.Rests p.2) {fs : List Fact} {log : List Entry} (hl : p.1.Logged fs log)
    {c : Call} (he : call p c = .ok p') : p'.1.Logged (c.insert fs) (c.note p.1 log) := by
  have hmem : ∀ f, f ∈ log.map (·.fact) ↔ f ∈ p.1.facts := fun f => by rw [← hl.facts, Array.mem_toList_iff]
  cases h.does he with
  | refused r => exact hl
  | accepted _ hwid => exact ⟨by rw [hwid.facts]; exact hl.facts, hl.inserted, fun a => by rw [hwid.arrived]; exact hl.arrived a⟩
  | @known f hin =>
    have hlog := (hmem f).2 hin
    rw [Call.note, if_pos hlog]
    refine ⟨hl.facts, ?_, hl.arrived⟩
    rw [Call.insert, List.eraseDups_append_singleton, if_pos ((hl.mem_iff f).1 hlog), hl.inserted]
  | @new f n hnew hadd _ hfacts =>
    have hlog := mt (hmem f).1 hnew
    rw [Call.note, if_neg hlog]
    refine ⟨?_, ?_, fun a => ?_⟩
    · rw [hfacts, Array.toList_push, hl.facts, List.map_append, List.map_singleton]
    · rw [Call.insert, List.eraseDups_append_singleton, if_neg (mt (hl.mem_iff f).2 hlog), ← hl.inserted, List.map_append,
        List.map_singleton]
    · have hsize : p.1.facts.size = log.length := by rw [← Array.length_toList, hl.facts, List.length_map]
      rw [arrived_addFact h.toSound hnew hadd, hl.arrived, hsize, List.findIdxs_append, List.findIdxs_singleton, Nat.zero_add]
      simp only [decide_eq_true_eq]
  | reset => exact ⟨rfl, rfl, h.reset.1.arrived⟩

/-- Calls that are noted do what they do, and the entries say what the memories list. -/
theorem notedCalls_ok (cs : List Call) :
    ∃ n rs log, notedCalls cs = .ok ((n, rs), log) ∧ calls cs = .ok (n, rs) ∧ n.Rests rs ∧ n.Logged (inserted cs) log := by
  suffices hrun : ∀ (p : Network × List Rule) (fs : List Fact) (log : List Entry), p.1.Rests p.2 → p.1.Logged fs log →
      ∃ p' log', cs.foldlM notedCall (p, log) = .ok (p', log') ∧ cs.foldlM call p = .ok p' ∧ p'.1.Rests p'.2 ∧
        p'.1.Logged (cs.foldl Call.insert fs) log' by
    obtain ⟨p, log, h⟩ := hrun (empty, []) [] [] rests_empty ⟨rfl, rfl, fun a => rfl⟩
    exact ⟨p.1, p.2, log, h⟩
  induction cs with
  | nil => exact fun p fs log h hl => ⟨p, log, rfl, rfl, h, hl⟩
  | cons c cs ih =>
    intro p fs log h hl
    obtain ⟨p₁, he₁, h₁⟩ := h.call_ok c
    obtain ⟨p', log', hnoted, hplain, h', hl'⟩ := ih p₁ (c.insert fs) (c.note p.1 log) h₁ (hl.call h he₁)
    refine ⟨p', log', ?_, ?_, h', hl'⟩
    · rw [List.foldlM_cons, notedCall, he₁]
      exact hnoted
    · rw [List.foldlM_cons, he₁]
      exact hplain

/-- A memory lists the handles of the facts that were routed to it, in the order in which they were inserted and each once. -/
theorem Logged.facts_eq {n : Network} {fs : List Fact} {log : List Entry} (h : n.Logged fs log) {a : AlphaId} {m : AlphaMemory}
    (hm : n.alpha.get? a = some m) : m.facts.toList = log.findIdxs (a ∈ ·.memories) ∧ m.facts.toList.Pairwise (· < ·) := by
  have he : m.facts.toList = log.findIdxs (a ∈ ·.memories) := by rw [← arrived_eq hm, h.arrived]
  exact ⟨he, by rw [he]; exact List.pairwise_findIdxs⟩

/-! ## The index after any calls -/

/-- Whatever rules, facts and resets a network is given, and in whatever order: its index says what the accepted rules have asked for
and which joins they have; each memory lists the handles of the facts that came since the last reset and were routed to it when they
came, in their order and each once; and whatever calls follow, what the index has handed out stays. -/
theorem calls_bookkept (cs : List Call) :
    ∃ n rs log, notedCalls cs = .ok ((n, rs), log) ∧ calls cs = .ok (n, rs) ∧ n.Indexed (rs.flatMap Rule.requests) ∧
      n.Logged (inserted cs) log ∧
      (∀ (a : AlphaId) (m : AlphaMemory), n.alpha.get? a = some m →
        m.facts.toList = log.findIdxs (a ∈ ·.memories) ∧ m.facts.toList.Pairwise (· < ·)) ∧
      ∀ ds, ∃ n' rs', calls (cs ++ ds) = .ok (n', rs') ∧ n.alpha.Keeps n'.alpha := by
  obtain ⟨n, rs, log, hnoted, he, h, hl⟩ := notedCalls_ok cs
  refine ⟨n, rs, log, hnoted, he, h.indexed, hl, fun a m hm => hl.facts_eq hm, fun ds => ?_⟩
  obtain ⟨p, hp, hk⟩ := keeps_calls (p := (n, rs)) h ds
  refine ⟨p.1, p.2, ?_, hk⟩
  rw [calls] at he
  rw [calls, List.foldlM_append, he]
  exact hp

/-- Who knows somebody but the cat. -/
def pickyRule : Rule :=
  ⟨"picky", [.between "?x" (.resource "knows") "?y"], [⟨.var "?y", .const (.resource "cat")⟩], ["?x"]⟩

/-- The rule comes after one that does not mind the cat, and after a fact about the cat. Then this fact comes again. -/
def pickyCalls : List Call :=
  [.rule { pickyRule with name := "knows", inequalities := [] }, .fact ⟨.resource "ann", .resource "knows", .resource "cat"⟩,
    .rule pickyRule, .fact ⟨.resource "bob", .resource "knows", .resource "cat"⟩,
    .fact ⟨.resource "bob", .resource "knows", .resource "dan"⟩, .fact ⟨.resource "ann", .resource "knows", .resource "cat"⟩]

/-- Both rules read one memory. It keeps the cat out since the second one, and still lists the fact that came before. -/
theorem calls_bookkept_picky : ∃ n rs log, notedCalls pickyCalls = .ok ((n, rs), log) ∧ n.Indexed (rs.flatMap Rule.requests) ∧
    log.map (·.memories) = [[0], [], [0]] ∧ ∃ m, n.alpha.get? 0 = some m ∧ m.excluded = [.resource "cat"] ∧
      m.facts.toList = [0, 2] ∧ m.facts.toList = log.findIdxs (0 ∈ ·.memories) := by
  obtain ⟨n, rs, log, hnoted, -, hi, -, hlist, -⟩ := calls_bookkept pickyCalls
  have hrun : (notedCalls pickyCalls).map (fun p =>
      (p.2.map (·.memories), (p.1.1.alpha.get? 0).map fun m => (m.excluded, m.facts))) =
        .ok ([[0], [], [0]], some ([.resource "cat"], #[0, 2])) := by decide +kernel
  rw [hnoted] at hrun
  obtain ⟨hlog, hmem⟩ := Prod.mk.inj (Except.ok.inj hrun)
  obtain ⟨m, hm, hparts⟩ := Option.map_eq_some_iff.1 hmem
  obtain ⟨hexcluded, hfacts⟩ := Prod.mk.inj hparts
  exact ⟨n, rs, log, hnoted, hi, hlog, m, hm, hexcluded, by rw [hfacts], (hlist 0 m hm).1⟩

end Network

end TripleRules

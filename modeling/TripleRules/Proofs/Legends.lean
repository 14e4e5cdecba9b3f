import TripleRules.Legend
import TripleRules.Proofs.Drawings
import TripleRules.Proofs.PrefixTrie
import TripleRules.Proofs.Refusals

/-!
# The lines of a legend

A legend is read line by line: a heading, a line for each node, a heading, a line for each alpha memory. Names and terms stand in it
as they are, and they may have line breaks. So a legend has one line for each item exactly if no name and no term that it shows has
a line break (`lined_iff`), and in a network that calls lead to these are the names and the terms of the accepted rules
(`lined_iff_oneLine`).
-/

namespace TripleRules

/-! ## Lines -/

namespace Text

/-- The lines of some characters. A line break ends a line, and what comes after the last one is a line as well. -/
def linesFrom : List Char → List (List Char)
  | [] => []
  | c :: cs =>
    if c = '\n' then [] :: linesFrom cs
    else
      match linesFrom cs with
      | [] => [[c]]
      | l :: ls => (c :: l) :: ls

/-- The lines of a text. -/
def lines (s : String) : List String := (linesFrom s.toList).map String.ofList

/-- Whether a text has no line break. -/
def OneLine (s : String) : Prop := '\n' ∉ s.toList

/-- The number of line breaks in a text. -/
def breaks (s : String) : Nat := s.toList.count '\n'

/-- Texts one after the other, with a line break after each. -/
def unlines (ts : List String) : String := String.join (ts.map (· ++ "\n"))

/-- The first line of a text ends at the first line feed. -/
theorem linesFrom_append {l : List Char} (h : '\n' ∉ l) (rest : List Char) :
    linesFrom (l ++ '\n' :: rest) = l :: linesFrom rest := by
  induction l with
  | nil => rfl
  | cons c l ih =>
    obtain ⟨hc, hl⟩ := List.ne_and_not_mem_of_not_mem_cons h
    rw [List.cons_append, linesFrom, if_neg hc.symm, ih hl]

/-- Each line feed that stands in an entry makes one more line of it. -/
theorem length_linesFrom_append (l rest : List Char) :
    (linesFrom (l ++ '\n' :: rest)).length = l.count '\n' + 1 + (linesFrom rest).length := by
  induction l with
  | nil => simp [linesFrom, Nat.add_comm]
  | cons c l ih =>
    rw [List.cons_append, linesFrom, List.count_cons]
    split
    · rename_i hc
      simp only [hc, List.length_cons, ih, beq_self_eq_true, if_true]
      omega
    · rename_i hc
      -- after the character there is the line that it begins
      cases hls : linesFrom (l ++ '\n' :: rest) with
      | nil =>
        rw [hls, List.length_nil] at ih
        omega
      | cons x xs =>
        rw [hls, List.length_cons] at ih
        simpa [hc] using ih

@[simp] theorem toList_unlines_cons (t : String) (ts : List String) :
    (unlines (t :: ts)).toList = t.toList ++ '\n' :: (unlines ts).toList := by
  simp [unlines]

/-- Entries are written one after the other. -/
theorem unlines_append (ts us : List String) : unlines (ts ++ us) = unlines ts ++ unlines us := by
  rw [unlines, List.map_append, String.join_append, unlines, unlines]

/-- Texts without line breaks are read back as the lines they are printed as. -/
theorem lines_unlines {ts : List String} (h : ∀ t ∈ ts, OneLine t) : lines (unlines ts) = ts := by
  induction ts with
  | nil => rfl
  | cons t ts ih =>
    obtain ⟨ht, hts⟩ := List.forall_mem_cons.1 h
    rw [lines, toList_unlines_cons, linesFrom_append ht, List.map_cons, String.ofList_toList]
    exact congrArg _ (ih hts)

/-- Each text is a line, and each line break in it begins another one. -/
theorem length_lines_unlines (ts : List String) : (lines (unlines ts)).length = ts.length + (ts.map breaks).sum := by
  induction ts with
  | nil => rfl
  | cons t ts ih =>
    rw [lines, List.length_map] at ih ⊢
    rw [toList_unlines_cons, length_linesFrom_append, ih, List.length_cons, List.map_cons, List.sum_cons, breaks]
    omega

/-- A text is one line exactly if it has no break. -/
theorem oneLine_iff {s : String} : OneLine s ↔ breaks s = 0 := List.count_eq_zero.symm

instance (s : String) : Decidable (OneLine s) := decidable_of_iff _ oneLine_iff.symm

@[simp] theorem oneLine_append {a b : String} : OneLine (a ++ b) ↔ OneLine a ∧ OneLine b := by
  simp [OneLine]

@[simp] theorem oneLine_repr (k : Nat) : OneLine k.repr := by
  intro h
  rw [Nat.toList_repr] at h
  nomatch Nat.isDigit_of_mem_toDigits (by decide) (by decide) h

@[simp] theorem oneLine_bracketed {ts : List String} : OneLine (bracketed ts) ↔ ∀ t ∈ ts, OneLine t := by
  have hsep : OneLine (", ".intercalate ts) ↔ ∀ t ∈ ts, OneLine t := by
    induction ts with
    | nil => simp [OneLine]
    | cons t ts ih =>
      cases ts with
      | nil => simp
      | cons u ts =>
        rw [String.intercalate_cons_cons, oneLine_append, oneLine_append, ih, List.forall_mem_cons]
        simp [show OneLine ", " by decide]
  rw [bracketed, oneLine_append, oneLine_append, hsep]
  simp [show OneLine "[" by decide, show OneLine "]" by decide]

end Text

open Text

/-! ## What a legend is made of -/

/-- The line of a node, up to its end. -/
def Node.entry (x : Node) (id : NodeId) : String := "  n" ++ toString id ++ " " ++ x.kind ++ x.remark

/-- The line of an alpha memory, up to its end. -/
def AlphaMemory.entry (m : AlphaMemory) : String :=
  "  a" ++ toString m.id ++ " \"" ++ m.key ++ "\" facts=" ++ toString m.facts.size ++
    (if m.excluded.isEmpty then "" else " excluding " ++ bracketed (m.excluded.map Term.text))

namespace Network

/-- What a legend says about the nodes. -/
def nodeEntries (n : Network) : List String := n.nodes.toList.zipIdx.map fun (x, id) => x.entry id

/-- What a legend says about the alpha memories. -/
def memoryEntries (n : Network) : List String := n.alpha.memories.toList.map AlphaMemory.entry

/-- The legend consists of two headings, of one line for each node, in order and with its handle and its kind in front, and of one
line for each alpha memory, in order and with its handle in front. -/
def Lined (n : Network) : Prop :=
  ∃ nodeLines memoryLines, lines n.legend = "Nodes" :: nodeLines ++ "Alpha memories" :: memoryLines ∧
    List.Forall₂ (fun p l => ∃ rest, l = "  n" ++ toString p.2 ++ " " ++ p.1.kind ++ rest) n.nodes.toList.zipIdx nodeLines ∧
    List.Forall₂ (fun p l => ∃ rest, l = "  a" ++ toString p.2 ++ " " ++ rest) n.alpha.memories.toList.zipIdx memoryLines

/-- All that a legend says, line by line. -/
def entries (n : Network) : List String := "Nodes" :: n.nodeEntries ++ "Alpha memories" :: n.memoryEntries

/-- The legend is the entries, one after the other. -/
theorem legend_eq (n : Network) : n.legend = unlines n.entries := by
  have hnodes : (n.nodes.toList.zipIdx.map fun (x, id) => x.legendLine id) = n.nodeEntries.map (· ++ "\n") := by
    rw [nodeEntries, List.map_map]
    rfl
  have hmemories : n.alpha.memories.toList.map AlphaMemory.legendLine = n.memoryEntries.map (· ++ "\n") := by
    rw [memoryEntries, List.map_map]
    rfl
  rw [legend, hnodes, hmemories, entries, unlines_append]
  simp only [unlines, List.map_cons, String.join_cons, String.append_assoc]
  rfl

/-- There is an entry for each of the two headings, for each node and for each memory. -/
theorem length_entries (n : Network) : n.entries.length = 2 + n.nodes.size + n.alpha.size := by
  simp only [entries, nodeEntries, memoryEntries, List.length_append, List.length_cons, List.length_map, List.length_zipIdx,
    Array.length_toList, AlphaIndex.size]
  omega

/-- The legend of any network has a line for each item, and one more for each line break in what it says. -/
theorem length_lines_legend (n : Network) :
    (lines n.legend).length = 2 + n.nodes.size + n.alpha.size + (n.entries.map breaks).sum := by
  rw [legend_eq, length_lines_unlines, length_entries]

/-- A legend has one line for each item exactly if there is no line break in what it says. -/
theorem lined_iff {n : Network} (hn : n.alpha.Numbered) : n.Lined ↔ ∀ e ∈ n.entries, OneLine e := by
  constructor
  · rintro ⟨nodeLines, memoryLines, hlines, hnodes, hmemories⟩
    have hlen := congrArg List.length hlines
    rw [length_lines_legend, List.length_append, List.length_cons, List.length_cons, ← hnodes.length_eq, ← hmemories.length_eq,
      List.length_zipIdx, List.length_zipIdx, Array.length_toList, Array.length_toList, ← AlphaIndex.size] at hlen
    have hzero : (n.entries.map breaks).sum = 0 := by omega
    exact fun e he => oneLine_iff.2 (List.sum_eq_zero_iff.1 hzero _ (List.mem_map_of_mem he))
  · intro h
    refine ⟨n.nodeEntries, n.memoryEntries, by rw [legend_eq, lines_unlines h, entries], ?_, ?_⟩
    · rw [nodeEntries, List.forall₂_map_right_iff]
      exact List.forall₂_same.2 fun p _ => ⟨p.1.remark, rfl⟩
    · have hplaces : n.memoryEntries = n.alpha.memories.toList.zipIdx.map (AlphaMemory.entry ∘ Prod.fst) := by
        rw [memoryEntries, ← List.map_map, List.zipIdx_map_fst]
      rw [hplaces, List.forall₂_map_right_iff]
      refine List.forall₂_same.2 fun p hp => ⟨"\"" ++ p.1.key ++ "\" facts=" ++ toString p.1.facts.size ++
        (if p.1.excluded.isEmpty then "" else " excluding " ++ bracketed (p.1.excluded.map Term.text)), ?_⟩
      have hid : p.1.id = p.2 := hn p.2 p.1 (Array.mem_zipIdx_toList.1 hp)
      simp only [Function.comp_apply, AlphaMemory.entry, hid, String.append_assoc]
      rfl

end Network

/-! ## What an entry shows -/

/-- The entry of a node is one line exactly if what it says about the node is. -/
theorem Node.oneLine_entry {x : Node} {id : NodeId} : OneLine (x.entry id) ↔ OneLine x.remark := by
  have hkind : OneLine x.kind := by cases x <;> simp +decide [kind]
  simp +decide [entry, hkind]

/-- The text of a test is one line exactly if its variable is. -/
theorem JoinTest.oneLine_text {t : JoinTest} : OneLine t.text ↔ OneLine t.variableName := by
  have hfield : ∀ f : Field, OneLine f.text := by
    intro f
    cases f <;> decide
  simp +decide [text, hfield]

/-- The text of a condition is one line exactly if its three texts are. -/
theorem Condition.oneLine_text {c : Condition} :
    OneLine c.text ↔ OneLine c.subject.text ∧ OneLine c.predicate.text ∧ OneLine c.object.text := by
  simp +decide [text, and_assoc]

/-- A join shows its condition and the variables that it tests. -/
theorem JoinNode.oneLine_remark {j : JoinNode} :
    OneLine (Node.join j).remark ↔ OneLine j.condition.text ∧ ∀ t ∈ j.tests, OneLine t.variableName := by
  rw [Node.remark]
  cases hts : j.tests with
  | nil => simp +decide
  | cons t ts => simp +decide [JoinTest.oneLine_text]

/-- A production shows the name of its rule and the variables that it reports. -/
theorem ProductionNode.oneLine_remark {p : ProductionNode} :
    OneLine (Node.production p).remark ↔ OneLine p.rule ∧ ∀ v ∈ p.select, OneLine v := by
  simp +decide [Node.remark]

/-- An alpha memory shows its key and the objects that it keeps out. -/
theorem AlphaMemory.oneLine_entry {m : AlphaMemory} :
    OneLine m.entry ↔ OneLine m.key ∧ ∀ t ∈ m.excluded, OneLine t.text := by
  rw [entry]
  cases hts : m.excluded with
  | nil => simp +decide
  | cons t ts => simp +decide

/-- All entries are one line exactly if what is said of each node is, and the key and the excluded objects of each memory are. -/
theorem Network.forall_entries_iff {n : Network} : (∀ e ∈ n.entries, OneLine e) ↔
    (∀ (id : NodeId) (x : Node), n.nodes[id]? = some x → OneLine x.remark) ∧
    ∀ (a : AlphaId) (m : AlphaMemory), n.alpha.get? a = some m → OneLine m.key ∧ ∀ t ∈ m.excluded, OneLine t.text := by
  have hheads : OneLine "Nodes" ∧ OneLine "Alpha memories" := by decide
  have hnodes : (∀ e ∈ n.nodeEntries, OneLine e) ↔ ∀ (id : NodeId) (x : Node), n.nodes[id]? = some x → OneLine x.remark := by
    simp only [nodeEntries, List.forall_mem_map, Array.mem_zipIdx_toList, Node.oneLine_entry, Prod.forall]
    exact forall_comm
  have hmemories : (∀ e ∈ n.memoryEntries, OneLine e) ↔
      ∀ (a : AlphaId) (m : AlphaMemory), n.alpha.get? a = some m → OneLine m.key ∧ ∀ t ∈ m.excluded, OneLine t.text := by
    simp only [memoryEntries, List.forall_mem_map, AlphaMemory.oneLine_entry, Array.mem_toList_iff, Array.mem_iff_getElem?]
    exact ⟨fun h a m hm => h m ⟨a, hm⟩, fun h m ⟨a, hm⟩ => h a m hm⟩
  simp only [entries, List.forall_mem_append, List.forall_mem_cons, hnodes, hmemories, hheads, true_and]

/-! ## Rules of one line -/

/-- No name and no term of a rule that a legend shows has a line break: its name, what stands in its conditions, and the constants
that the object of a condition differs from. -/
structure Rule.OneLine (r : Rule) : Prop where
  name : Text.OneLine r.name
  conditions : ∀ c ∈ r.conditions, Text.OneLine c.text
  excluded : ∀ c ∈ r.conditions, ∀ t ∈ r.excludedBy c, Text.OneLine t.text

/-- A variable of a condition is part of its text. -/
theorem Condition.oneLine_of_slot {c : Condition} {field : Field} {v : String} (hc : OneLine c.text) (hv : c.slot field = .var v) :
    OneLine v := by
  obtain ⟨hs, -, ho⟩ := oneLine_text.1 hc
  cases field with
  | subject => rwa [show c.subject = .var v from hv] at hs
  | object => rwa [show c.object = .var v from hv] at ho

/-- The key of a condition is made of its predicate and its object. -/
theorem Condition.oneLine_key {c : Condition} (hc : OneLine c.text) : OneLine (slotKey c.predicate c.object) := by
  obtain ⟨-, hp, ho⟩ := oneLine_text.1 hc
  cases h : c.object with
  | var v => exact hp
  | const t =>
    rw [h] at ho
    exact oneLine_append.2 ⟨oneLine_append.2 ⟨hp, by decide⟩, ho⟩

namespace Network

section

variable {n : Network} {rs : List Rule} (h : n.Rests rs)
include h

/-- Each name and each term of an accepted rule stands in the legend. -/
theorem Rests.oneLine_of_entries (he : ∀ e ∈ n.entries, OneLine e) : ∀ r ∈ rs, r.OneLine := by
  obtain ⟨hnodes, hmemories⟩ := forall_entries_iff.1 he
  have hreg := registered_of_addRules h.rules
  have hserves := serves_of_bare h.rules rfl
  intro r hr
  obtain ⟨i, hi, rfl⟩ := List.mem_iff_getElem.1 hr
  obtain ⟨p, js, hp, hname, -, hpath, hjs⟩ := hreg.production
    (Array.getElem?_eq_getElem (by rw [hreg.size]; exact hi)) (List.getElem?_eq_getElem hi)
  have hconditions : ∀ c ∈ rs[i].conditions, OneLine c.text := by
    intro c hc
    rw [← List.mem_reverse, ← hjs] at hc
    obtain ⟨j, hj, rfl⟩ := List.mem_map.1 hc
    obtain ⟨join, hjoin⟩ := hpath.exists_join hj
    exact (JoinNode.oneLine_remark.1 (hnodes join _ hjoin)).1
  refine ⟨?_, hconditions, fun c hc t ht => ?_⟩
  · rw [← hname]
    exact (ProductionNode.oneLine_remark.1 (hnodes _ _ hp)).1
  · have hq : (⟨c.predicate, c.object, rs[i].excludedBy c⟩ : Request) ∈ rs.flatMap Rule.requests :=
      List.mem_flatMap.2 ⟨rs[i], hr, List.mem_map_of_mem hc⟩
    obtain ⟨a, ha⟩ := hserves.known _ hq
    obtain ⟨m, hm, hkey⟩ := (hserves.keyed _ _).1 ha
    exact (hmemories a m hm).2 t ((hserves.excluded hm t).2 ⟨_, hq, hkey.symm, ht⟩)

/-- The legend shows nothing but names and terms of accepted rules. -/
theorem Rests.entries_of_oneLine (hrs : ∀ r ∈ rs, r.OneLine) : ∀ e ∈ n.entries, OneLine e := by
  have hreg := registered_of_addRules h.rules
  have hserves := serves_of_bare h.rules rfl
  have htrie := (trie_addRules h.rules).of_bare n.bare_bare.symm
  have hcondition : ∀ r ∈ rs, ∀ c ∈ r.conditions, OneLine c.text := fun r hr => (hrs r hr).conditions
  refine forall_entries_iff.2 ⟨fun id x hx => ?_, fun a m hm => ⟨?_, fun t ht => ?_⟩⟩
  · cases x with
    | top cs => exact List.not_mem_nil
    | memory m => simp +decide [Node.remark]
    | join j =>
      obtain ⟨js, -, hjoin⟩ := h.exists_joinOf hx
      obtain ⟨r, hr, hsuffix⟩ := htrie.join_starts hjoin
      have hc := hcondition r hr j.condition (List.mem_reverse.1 (hsuffix.subset List.mem_cons_self))
      refine JoinNode.oneLine_remark.2 ⟨hc, fun t ht => ?_⟩
      obtain ⟨ks, -, htests⟩ := h.join_tests hx
      rw [htests] at ht
      obtain ⟨field, name, distance, old, hslot, -, rfl⟩ := Condition.mem_tests.1 ht
      exact Condition.oneLine_of_slot hc (Slot.varName?_eq_some.1 hslot)
    | production p =>
      obtain ⟨i, r, -, hi, hname, hselect, -⟩ := hreg.exists_rule hx
      have hr := List.mem_of_getElem? hi
      refine ProductionNode.oneLine_remark.2 ⟨by rw [hname]; exact (hrs r hr).name, fun v hv => ?_⟩
      rw [hselect] at hv
      obtain ⟨-, -, -, -, hmentions⟩ := Rule.check_eq_ok_iff.1 (hreg.checked r hr)
      obtain ⟨c, hc, hslot⟩ := Rule.mentions_iff.1 (hmentions v hv)
      rcases hslot with hslot | hslot
      · exact Condition.oneLine_of_slot (hcondition r hr c hc) (show c.slot .subject = .var v from hslot)
      · exact Condition.oneLine_of_slot (hcondition r hr c hc) (show c.slot .object = .var v from hslot)
  · obtain ⟨q, hq, -⟩ := hserves.first hm
    have hbeq := List.find?_some hq
    have hkey : q.key = m.key := eq_of_beq hbeq
    obtain ⟨r, hr, hq⟩ := List.mem_flatMap.1 (List.mem_of_find?_eq_some hq)
    obtain ⟨c, hc, rfl⟩ := List.mem_map.1 hq
    rw [← hkey]
    exact Condition.oneLine_key (hcondition r hr c hc)
  · obtain ⟨q, hq, -, ht⟩ := (hserves.excluded hm t).1 ht
    obtain ⟨r, hr, hq⟩ := List.mem_flatMap.1 hq
    obtain ⟨c, hc, rfl⟩ := List.mem_map.1 hq
    exact (hrs r hr).excluded c hc t ht

/-- Between two calls the legend has a line for each entry exactly if the texts of the accepted rules have no line feed. -/
theorem Rests.lined_iff_oneLine : n.Lined ↔ ∀ r ∈ rs, r.OneLine :=
  (lined_iff (numbered_of_bare h.rules rfl)).trans ⟨h.oneLine_of_entries, h.entries_of_oneLine⟩

end

/-- Whatever rules, facts and resets a network is given, and in whatever order, its legend has one line for each item exactly if no
name and no term of an accepted rule that it shows has a line break. Each line break in what the legend says makes one line more. -/
theorem lined_of_calls (cs : List Call) : ∃ n rs, calls cs = .ok (n, rs) ∧ (n.Lined ↔ ∀ r ∈ rs, r.OneLine) ∧
    (lines n.legend).length = 2 + n.nodes.size + n.alpha.size + (n.entries.map breaks).sum := by
  obtain ⟨n, rs, he, h⟩ := calls_ok cs
  exact ⟨n, rs, he, h.lined_iff_oneLine, n.length_lines_legend⟩

/-- A rule whose name has a line break. -/
def brokenRule : Rule := ⟨"a\nb", [.between "?x" (.resource "knows") "?y"], [], ["?x"]⟩

/-- The name of a rule may have a line break, and then the rule has two lines in the legend. -/
theorem not_lined_brokenRule : ∃ n, calls [.rule brokenRule] = .ok (n, [brokenRule]) ∧ ¬ n.Lined ∧
    2 + n.nodes.size + n.alpha.size = 6 ∧ (lines n.legend).length = 7 := by
  obtain ⟨n, rs, he, h⟩ := calls_ok [.rule brokenRule]
  have hrun : (calls [.rule brokenRule]).map (fun p => (p.2, p.1.nodes.size, p.1.alpha.size, (p.1.entries.map breaks).sum)) =
      .ok ([brokenRule], 3, 1, 1) := by decide +kernel
  simp only [he, Except.map, Except.ok.injEq, Prod.mk.injEq] at hrun
  obtain ⟨rfl, hnodes, halpha, hbreaks⟩ := hrun
  refine ⟨n, he, fun hl => ?_, by omega, by rw [length_lines_legend]; omega⟩
  exact absurd (h.lined_iff_oneLine.1 hl brokenRule (List.mem_singleton_self _)).name (by decide)

end Network

end TripleRules

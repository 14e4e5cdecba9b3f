import Mathlib.Data.List.Flatten
import Mathlib.Data.List.Nodup
import TripleRules.Proofs.DotReader
import TripleRules.Proofs.Histories
import TripleRules.Proofs.Requests

/-!
# Drawings

A diagram is read back as what it shows. Main statement: a reader of DOT texts that knows how vertices are named and labelled
recovers the alpha memories with their keys, the nodes with their labels, and the edges of both kinds, each once and in order
(`read_diagram_of_calls`). Names of rules and texts of terms are free: they never end a label early, so they draw nothing.
-/

namespace TripleRules
namespace Diagram

/-! ## What a statement shows -/

/-- What a vertex stands for. -/
inductive Vertex where
  | alpha (id : AlphaId)
  | node (id : NodeId)
  deriving DecidableEq, Repr

/-- What a diagram shows. -/
inductive Part where
  | alpha (id : AlphaId) (key : String)
  | node (id : NodeId) (label : String)
  | edge (up down : NodeId)
  | reader (alpha : AlphaId) (join : NodeId)
  deriving DecidableEq, Repr

/-- The handle with some digits, which must be the ones it is printed with. -/
def handle? (ds : List Char) : Option Nat :=
  let id := Nat.ofDigitChars 10 ds 0
  if Nat.toDigits 10 id = ds then some id else none

/-- The vertex with a name. -/
def vertex? (name : String) : Option Vertex :=
  match name.toList with
  | 'a' :: ds => (handle? ds).map .alpha
  | 'n' :: ds => (handle? ds).map .node
  | _ => none

/-- What follows on the beginning of a text. -/
def after? (start s : String) : Option String :=
  if start.toList <+: s.toList then some (String.ofList (s.toList.drop start.toList.length)) else none

/-- What a statement shows. Settings and defaults show nothing; any other statement must be one that a diagram can have. -/
def shown? : Dot.Statement → Option (List Part)
  | .setting _ _ => some []
  | .named name attributes =>
    match vertex? name with
    | some (.alpha id) => do return [.alpha id (← after? "α " (← attributes.lookup "label"))]
    | some (.node id) => do return [.node id (← after? (toString id ++ ": ") (← attributes.lookup "label"))]
    | none => if name = "node" then some [] else none
  | .edge tail head attributes =>
    match vertex? tail, vertex? head, attributes.lookup "style" with
    | some (.node up), some (.node down), none => some [.edge up down]
    | some (.alpha id), some (.node join), some "dashed" => some [.reader id join]
    | _, _, _ => none

/-- What some statements show, in their order. -/
def allShown? : List Dot.Statement → Option (List Part)
  | [] => some []
  | s :: ss => (shown? s).bind fun ps => (allShown? ss).map (ps ++ ·)

/-- Two lists of statements show the parts of both, one after the other. -/
theorem allShown?_append {ss ts : List Dot.Statement} {ps qs : List Part} (hs : allShown? ss = some ps)
    (ht : allShown? ts = some qs) : allShown? (ss ++ ts) = some (ps ++ qs) := by
  induction ss generalizing ps with
  | nil =>
    obtain rfl := Option.some.inj hs
    exact ht
  | cons s ss ih =>
    obtain ⟨ps₁, hs₁, hs⟩ := Option.bind_eq_some_iff.1 hs
    obtain ⟨ps₂, hs₂, rfl⟩ := Option.map_eq_some_iff.1 hs
    rw [List.cons_append, allShown?, hs₁, Option.bind_some, ih hs₂, Option.map_some, List.append_assoc]

/-- Reads a diagram. -/
def read (s : String) : Option (List Part) := (Dot.document s).bind allShown?

/-! ## Names and labels -/

theorem toList_toString (id : Nat) : (toString id).toList = Nat.toDigits 10 id := by
  rw [Nat.toString_eq_repr, Nat.toList_repr]

/-- The digits of a handle are read as the handle. -/
theorem handle?_toDigits (id : Nat) : handle? (Nat.toDigits 10 id) = some id := by
  rw [handle?, Nat.ofDigitChars_toDigits (by decide) (by decide), if_pos rfl]

/-- The name of the vertex of a memory tells its handle. -/
theorem vertex?_alpha (id : AlphaId) : vertex? ("a" ++ toString id) = some (.alpha id) := by
  have hchars : ("a" ++ toString id).toList = 'a' :: Nat.toDigits 10 id := by simp
  rw [vertex?, hchars]
  exact congrArg (Option.map _) (handle?_toDigits id)

/-- The name of the vertex of a node tells its handle. -/
theorem vertex?_node (id : NodeId) : vertex? ("n" ++ toString id) = some (.node id) := by
  have hchars : ("n" ++ toString id).toList = 'n' :: Nat.toDigits 10 id := by simp
  rw [vertex?, hchars]
  exact congrArg (Option.map _) (handle?_toDigits id)

/-- A word stays one with digits after it. -/
theorem isWord_append_toString {s : String} (hs : Dot.IsWord s) (id : Nat) : Dot.IsWord (s ++ toString id) := by
  have hdigits : (Nat.toDigits 10 id).all Dot.isWordChar := by
    refine List.all_eq_true.2 fun c hc => ?_
    have hdigit := Nat.isDigit_of_mem_toDigits (by decide) (by decide) hc
    simp [Dot.isWordChar, Char.isAlphanum, hdigit]
  refine ⟨by simp [hs.1], ?_⟩
  rw [String.toList_append, List.all_append, toList_toString, hs.2, hdigits, Bool.and_true]

theorem isWord_alpha (id : AlphaId) : Dot.IsWord ("a" ++ toString id) := isWord_append_toString (by decide) id

theorem isWord_node (id : NodeId) : Dot.IsWord ("n" ++ toString id) := isWord_append_toString (by decide) id

theorem after?_append (start s : String) : after? start (start ++ s) = some s := by
  rw [after?, String.toList_append, if_pos (List.prefix_append _ _), List.drop_left, String.ofList_toList]

/-- A value with a character that no word has is printed between quotes. -/
theorem printValue_of_mem {s : String} {c : Char} (hc : c ∈ s.toList) (hw : Dot.isWordChar c = false) :
    Dot.printValue s = "\"" ++ escapeLabel s ++ "\"" := by
  refine if_neg fun h => ?_
  rw [List.all_eq_true.1 h.2 c hc] at hw
  nomatch hw

/-- Digits are not escaped. -/
theorem escapeLabel_toString (id : Nat) : escapeLabel (toString id) = toString id := by
  have hchars : (Nat.toDigits 10 id).flatMap escapeLabelChar = (Nat.toDigits 10 id).flatMap fun c => [c] := by
    refine List.flatMap_congr fun c hc => ?_
    have hdigit := Nat.isDigit_of_mem_toDigits (by decide) (by decide) hc
    unfold escapeLabelChar
    split
    · nomatch hdigit
    · nomatch hdigit
    · rfl
  rw [escapeLabel, toList_toString, hchars, List.flatMap_singleton', ← toList_toString, String.ofList_toList]

/-! ## Lines -/

/-- Whether a text is lines of statements that show some parts. -/
def Draws (text : String) (ps : List Part) : Prop :=
  ∃ ss : List Dot.Statement, (∀ s ∈ ss, s.Plain) ∧ text = String.join (ss.map fun s => "  " ++ s.print ++ ";\n") ∧
    allShown? ss = some ps

namespace Draws

theorem nil : Draws "" [] := ⟨[], fun _ hs => absurd hs List.not_mem_nil, rfl, rfl⟩

/-- A line with one statement draws what the statement shows. -/
theorem line {s : Dot.Statement} (h : s.Plain) {ps : List Part} (hs : shown? s = some ps) {text : String}
    (ht : text = "  " ++ s.print ++ ";\n") : Draws text ps := by
  refine ⟨[s], fun t ht => List.mem_singleton.1 ht ▸ h, ?_, ?_⟩
  · simp [ht]
  · simp [allShown?, hs]

/-- Two texts one after the other draw the parts of both. -/
theorem append {text text' : String} {ps qs : List Part} (h : Draws text ps) (h' : Draws text' qs) :
    Draws (text ++ text') (ps ++ qs) := by
  obtain ⟨ss, hss, rfl, hp⟩ := h
  obtain ⟨ts, hts, rfl, hq⟩ := h'
  exact ⟨ss ++ ts, fun s hs => (List.mem_append.1 hs).elim (hss s) (hts s), by simp, allShown?_append hp hq⟩

/-- Texts for the elements of a list draw the parts of all of them. -/
theorem join {α : Type} {f : α → String} {g : α → List Part} {xs : List α} (h : ∀ x ∈ xs, Draws (f x) (g x)) :
    Draws (String.join (xs.map f)) (xs.flatMap g) := by
  induction xs with
  | nil => exact .nil
  | cons x xs ih =>
    rw [List.map_cons, String.join_cons, List.flatMap_cons]
    exact (h x List.mem_cons_self).append (ih fun y hy => h y (List.mem_cons_of_mem x hy))

/-- Texts that show one part each show these parts one after the other. -/
theorem map {α : Type} {f : α → String} {g : α → Part} {xs : List α} (h : ∀ x ∈ xs, Draws (f x) [g x]) :
    Draws (String.join (xs.map f)) (xs.map g) := by
  rw [List.map_eq_flatMap (f := g)]
  exact join h

end Draws

/-- The header draws no part. -/
theorem draws_header : Draws "  rankdir=TB;\n  node [shape=box, style=rounded];\n" [] := by
  have hrankdir : Dot.IsWord "rankdir" := by decide
  have hnode : Dot.IsWord "node" ∧ ∀ a ∈ [("shape", "box"), ("style", "rounded")], Dot.IsWord a.1 := by decide
  have hsetting : Draws "  rankdir=TB;\n" [] := .line (s := .setting "rankdir" "TB") hrankdir rfl rfl
  have hdefaults : Draws "  node [shape=box, style=rounded];\n" [] :=
    .line (s := .named "node" [("shape", "box"), ("style", "rounded")]) hnode rfl rfl
  exact hsetting.append hdefaults

/-- The line of a memory draws the memory. -/
theorem draws_alphaLine (m : AlphaMemory) : Draws (alphaLine m) [.alpha m.id m.key] := by
  have hkeys : ∀ key ∈ ["label", "shape", "fillcolor", "style"], Dot.IsWord key := by decide
  have hlabel : Dot.printValue ("α " ++ m.key) = "\"α " ++ escapeLabel m.key ++ "\"" := by
    rw [printValue_of_mem (c := ' ') (by simp) rfl, escapeLabel_append]
    exact String.toList_inj.1 (by simp [escapeLabel, escapeLabelChar])
  have hshape : Dot.printValue "ellipse" = "ellipse" := by decide
  have hcolor : Dot.printValue "lightyellow" = "lightyellow" := by decide
  have hstyle : Dot.printValue "filled" = "filled" := by decide
  refine .line (s := .named ("a" ++ toString m.id) [("label", "α " ++ m.key), ("shape", "ellipse"), ("fillcolor", "lightyellow"),
    ("style", "filled")]) ⟨isWord_alpha m.id, fun a ha => hkeys a.1 (List.mem_map_of_mem (f := Prod.fst) ha)⟩ ?_ ?_
  · simp only [shown?, vertex?_alpha]
    simp [after?_append]
  · refine String.toList_inj.1 ?_
    simp [alphaLine, Dot.Statement.print, Dot.printAttributes, Dot.printAttribute, hlabel, hshape, hcolor, hstyle]

/-- The line of a node draws the node with its label. -/
theorem draws_nodeLine (x : Node) (id : NodeId) : Draws (nodeLine x id) [.node id x.label] := by
  have hkeys : ∀ key ∈ ["label", "fillcolor", "style"], Dot.IsWord key := by decide
  have hlabel : Dot.printValue (toString id ++ ": " ++ x.label) = "\"" ++ toString id ++ ": " ++ escapeLabel x.label ++ "\"" := by
    rw [printValue_of_mem (c := ' ') (by simp) rfl, escapeLabel_append, escapeLabel_append, escapeLabel_toString]
    exact String.toList_inj.1 (by simp [escapeLabel, escapeLabelChar])
  have hcolors : ∀ color ∈ ["lightgray", "lightblue", "lightgreen", "orange"], Dot.printValue color = color := by decide
  have hcolor : Dot.printValue x.color = x.color := by
    refine hcolors _ ?_
    cases x <;> simp [Node.color]
  have hstyle : Dot.printValue "rounded,filled" = "\"rounded,filled\"" := by decide
  refine .line (s := .named ("n" ++ toString id) [("label", toString id ++ ": " ++ x.label), ("fillcolor", x.color),
    ("style", "rounded,filled")]) ⟨isWord_node id, fun a ha => hkeys a.1 (List.mem_map_of_mem (f := Prod.fst) ha)⟩ ?_ ?_
  · simp only [shown?, vertex?_node]
    simp [after?_append]
  · rw [Dot.Statement.print, Dot.printAttributes, Dot.printAttribute, hlabel]
    refine String.toList_inj.1 ?_
    simp [nodeLine, Dot.printAttribute, hcolor, hstyle]

/-- The lines of a node draw the edges to its children. -/
theorem draws_childLines (x : Node) (id : NodeId) : Draws (childLines x id) (x.children.map (.edge id)) := by
  refine .map fun child _ => ?_
  refine .line (s := .edge ("n" ++ toString id) ("n" ++ toString child) []) ⟨isWord_node id, isWord_node child, ?_⟩ ?_ ?_
  · exact fun a ha => absurd ha List.not_mem_nil
  · simp only [shown?, vertex?_node]
    rfl
  · refine String.toList_inj.1 ?_
    simp [Dot.Statement.print, Dot.printAttributes]

/-- The lines of a memory draw the edges to its readers. -/
theorem draws_readerLines (m : AlphaMemory) : Draws (readerLines m) (m.successors.map (.reader m.id)) := by
  refine .map fun join _ => ?_
  have hkey : ∀ a ∈ [("style", "dashed")], Dot.IsWord a.1 := by decide
  have hstyle : Dot.printValue "dashed" = "dashed" := by decide
  refine .line (s := .edge ("a" ++ toString m.id) ("n" ++ toString join) [("style", "dashed")])
    ⟨isWord_alpha m.id, isWord_node join, hkey⟩ ?_ ?_
  · simp only [shown?, vertex?_alpha, vertex?_node]
    rfl
  · refine String.toList_inj.1 ?_
    simp [Dot.Statement.print, Dot.printAttributes, Dot.printAttribute, hstyle]

end Diagram

namespace Network

open Diagram

/-- What the diagram of a network shows, in its order. -/
def parts (n : Network) : List Part :=
  let alphas := n.alpha.memories.toList.zipIdx
  let nodes := n.nodes.toList.zipIdx
  (alphas.map fun (m, id) => .alpha id m.key) ++ (nodes.map fun (x, id) => .node id x.label) ++
    (nodes.flatMap fun (x, id) => x.children.map (.edge id)) ++ alphas.flatMap fun (m, id) => m.successors.map (.reader id)

/-- Where the handle of each memory is its position, it does not matter which of the two is taken. -/
theorem map_zipIdx_memories {β : Type} {x : AlphaIndex} (h : x.Numbered) (f : AlphaMemory → AlphaId → β) :
    x.memories.toList.zipIdx.map (fun (m, id) => f m id) = x.memories.toList.map fun m => f m m.id := by
  calc x.memories.toList.zipIdx.map (fun (m, id) => f m id)
      = x.memories.toList.zipIdx.map ((fun m => f m m.id) ∘ Prod.fst) := by
        refine List.map_congr_left fun p hp => ?_
        have hid : p.1.id = p.2 := h p.2 p.1 (Array.mem_zipIdx_toList.1 hp)
        rw [Function.comp_apply, hid]
    _ = x.memories.toList.map fun m => f m m.id := by rw [← List.map_map, List.zipIdx_map_fst]

/-- The diagram of a network is read back, whatever characters stand in its keys and labels. -/
theorem read_diagram_eq {n : Network} (hn : n.alpha.Numbered) : Diagram.read n.diagram = some n.parts := by
  have halphas : Draws (String.join (n.alpha.memories.toList.map alphaLine))
      (n.alpha.memories.toList.map fun m => .alpha m.id m.key) :=
    .map fun m _ => draws_alphaLine m
  have hnodes : Draws (String.join (n.nodes.toList.zipIdx.map fun (x, id) => nodeLine x id))
      (n.nodes.toList.zipIdx.map fun (x, id) => .node id x.label) :=
    .map fun p _ => draws_nodeLine p.1 p.2
  have hedges : Draws (String.join (n.nodes.toList.zipIdx.map fun (x, id) => childLines x id))
      (n.nodes.toList.zipIdx.flatMap fun (x, id) => x.children.map (.edge id)) :=
    .join fun p _ => draws_childLines p.1 p.2
  have hreaders : Draws (String.join (n.alpha.memories.toList.map readerLines))
      (n.alpha.memories.toList.flatMap fun m => m.successors.map (.reader m.id)) :=
    .join fun m _ => draws_readerLines m
  obtain ⟨ss, hplain, htext, hshown⟩ := (((draws_header.append halphas).append hnodes).append hedges).append hreaders
  have hprint : n.diagram = Dot.print "ReteNetwork" ss := by
    have hassoc : ∀ a b c d : String,
        "digraph ReteNetwork \x7b\n  rankdir=TB;\n  node [shape=box, style=rounded];\n" ++ a ++ b ++ c ++ d ++ "\x7d\n" =
          "digraph " ++ "ReteNetwork" ++ " \x7b\n" ++
            ("  rankdir=TB;\n  node [shape=box, style=rounded];\n" ++ a ++ b ++ c ++ d) ++ "\x7d\n" := by
      intro a b c d
      refine String.toList_inj.1 ?_
      simp
    rw [Dot.print, ← htext]
    exact hassoc _ _ _ _
  have hkeys := map_zipIdx_memories hn fun m id => Part.alpha id m.key
  have hreads := congrArg List.flatten (map_zipIdx_memories hn fun m id => m.successors.map (Part.reader id))
  rw [← List.flatMap_def, ← List.flatMap_def] at hreads
  rw [Diagram.read, hprint, Dot.document_print (by decide) hplain, Option.bind_some, hshown, parts, hkeys, hreads,
    List.nil_append]

/-! ## What a network is made of -/

/-- Whether a network has a part. -/
def Shows (n : Network) : Part → Prop
  | .alpha id key => ∃ m, n.alpha.get? id = some m ∧ m.key = key
  | .node id label => ∃ x, n.nodes[id]? = some x ∧ x.label = label
  | .edge up down => n.parentOf down = some up
  | .reader alpha join => ∃ j, n.nodes[join]? = some (.join j) ∧ j.alpha = alpha

/-- The parts in a diagram are those of the network. -/
theorem mem_parts_iff {n : Network} (h : n.Wired) (part : Part) : part ∈ n.parts ↔ n.Shows part := by
  simp only [parts, List.mem_append, List.mem_map, List.mem_flatMap, Array.mem_zipIdx_toList, Prod.exists]
  cases part with
  | alpha id key =>
    simp [Shows, AlphaIndex.get?]
  | node id label =>
    simp [Shows]
  | edge up down =>
    simp only [reduceCtorEq, and_false, exists_false, false_or, or_false, Part.edge.injEq, Shows, parentOf_eq_some]
    constructor
    · rintro ⟨y, _, hy, child, hchild, rfl, rfl⟩
      exact (h.child_iff hy _).1 hchild
    · rintro ⟨x, hx, hup⟩
      obtain ⟨y, hy, -⟩ := h.parent_carries hx hup
      exact ⟨y, up, hy, down, (h.child_iff hy down).2 ⟨x, hx, hup⟩, rfl, rfl⟩
  | reader a join =>
    simp only [reduceCtorEq, and_false, exists_false, false_or, Part.reader.injEq, Shows]
    constructor
    · rintro ⟨m, _, hm, reader, hreader, rfl, rfl⟩
      exact (h.successors hm _).1 hreader
    · rintro ⟨j, hj, rfl⟩
      obtain ⟨m, hm, -⟩ := (h.keyed _ _).1 (h.join_alpha hj)
      exact ⟨m, j.alpha, hm, join, (h.successors hm join).2 ⟨j, hj, rfl⟩, rfl, rfl⟩

/-- No part is drawn twice. -/
theorem nodup_parts {n : Network} (hchildren : ∀ {id : NodeId} {x : Node}, n.nodes[id]? = some x → x.children.Nodup)
    (hreaders : ∀ {a : AlphaId} {m : AlphaMemory}, n.alpha.get? a = some m → m.successors.Nodup) : n.parts.Nodup := by
  have halphas : (n.alpha.memories.toList.zipIdx.map fun (m, id) => Part.alpha id m.key).Nodup :=
    List.nodup_map_zipIdx (fun _ _ he => (Part.alpha.inj he).1) _
  have hnodes : (n.nodes.toList.zipIdx.map fun (x, id) => Part.node id x.label).Nodup :=
    List.nodup_map_zipIdx (fun _ _ he => (Part.node.inj he).1) _
  have hedges : (n.nodes.toList.zipIdx.flatMap fun (x, id) => x.children.map (Part.edge id)).Nodup :=
    List.nodup_flatMap_zipIdx (fun _ _ _ _ => Part.edge.inj) fun _ hp => hchildren (Array.mem_zipIdx_toList.1 hp)
  have hreads : (n.alpha.memories.toList.zipIdx.flatMap fun (m, id) => m.successors.map (Part.reader id)).Nodup :=
    List.nodup_flatMap_zipIdx (fun _ _ _ _ => Part.reader.inj) fun _ hp => hreaders (Array.mem_zipIdx_toList.1 hp)
  -- in each list all parts are of one kind, so no two of the lists share a part
  refine ((halphas.append hnodes ?_).append hedges ?_).append hreads ?_
  · intro part hp hq
    obtain ⟨_, -, rfl⟩ := List.mem_map.1 hq
    simp at hp
  · intro part hp hq
    obtain ⟨_, -, hq⟩ := List.mem_flatMap.1 hq
    obtain ⟨_, -, rfl⟩ := List.mem_map.1 hq
    simp at hp
  · intro part hp hq
    obtain ⟨_, -, hq⟩ := List.mem_flatMap.1 hq
    obtain ⟨_, -, rfl⟩ := List.mem_map.1 hq
    simp at hp

/-- A diagram can be read back. After any calls, with any characters in names, variables and terms, reading the diagram gives the
alpha memories with their keys, the nodes with their labels, the edges from each node to its children, and the edges from each alpha
memory to its readers, in this order. None of them is there twice, and they are the parts of the network: no text of a rule ends its
label or draws a vertex or an edge. -/
theorem read_diagram_of_calls (cs : List Call) : ∃ n rs, calls cs = .ok (n, rs) ∧
    Diagram.read n.diagram = some n.parts ∧ n.parts.Nodup ∧ ∀ part, part ∈ n.parts ↔ n.Shows part := by
  obtain ⟨n, rs, he, h⟩ := calls_ok cs
  refine ⟨n, rs, he, read_diagram_eq (numbered_of_bare h.rules rfl), nodup_parts ?_ ?_, mem_parts_iff h.toWired⟩
  · exact ((trie_addRules h.rules).of_bare n.bare_bare.symm).listed_once
  · intro a m hm
    obtain ⟨m', hm', hbare⟩ := exists_alpha_of_bare n.bare_bare hm
    have hsame : m'.successors = m.successors := congrArg (·.successors) hbare
    rw [← hsame]
    exact nodup_successors_addRules h.rules hm'

end Network

end TripleRules

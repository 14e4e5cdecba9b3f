import TripleRules.Diagram
import TripleRules.Legend

/-!
# Exports

An export writes the diagram of a network to one sink and its legend to another. Each sink is written to and then flushed, the
diagram first; the first call that is refused ends the export.
-/

namespace TripleRules

/-- What is asked of a sink. -/
inductive SinkCall where
  | write
  | flush
  deriving DecidableEq, Repr

/-- What is exported. -/
inductive ExportPart where
  | graph
  | legend
  deriving DecidableEq, Repr

/-- A sink for text. It may refuse one kind of call. -/
structure Sink where
  received : String
  refuses : Option SinkCall
  deriving DecidableEq, Repr

/-- A sink that has received nothing. -/
def Sink.opened (refuses : Option SinkCall) : Sink := ⟨"", refuses⟩

/-- Writes a text to a sink and flushes it. The sink after that, and the call that was refused. -/
def Sink.put (s : Sink) (text : String) : Sink × Option SinkCall :=
  match s.refuses with
  | some .write => (s, some .write)
  | some .flush => ({ s with received := s.received ++ text }, some .flush)
  | none => ({ s with received := s.received ++ text }, none)

/-- The part of an export and the call that was refused. -/
structure ExportFailure where
  part : ExportPart
  call : SinkCall
  deriving DecidableEq, Repr

/-- The wording of a failed export. -/
def ExportFailure.message (e : ExportFailure) : String :=
  let call := match e.call with
    | .write => "write"
    | .flush => "flush"
  let part := match e.part with
    | .graph => "graph"
    | .legend => "legend"
  "Failed to " ++ call ++ " network " ++ part

/-- The two sinks after an export, and why it ended early. -/
structure Exported where
  graph : Sink
  legend : Sink
  failure : Option ExportFailure
  deriving DecidableEq, Repr

/-- Exports a network to two sinks. -/
def Network.exportTo (n : Network) (graph legend : Sink) : Exported :=
  match graph.put n.diagram with
  | (graph, some call) => ⟨graph, legend, some ⟨.graph, call⟩⟩
  | (graph, none) =>
    let (legend, refused) := legend.put n.legend
    ⟨graph, legend, refused.map (⟨.legend, ·⟩)⟩

end TripleRules

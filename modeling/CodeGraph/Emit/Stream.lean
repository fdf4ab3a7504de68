import CodeGraph.Emit.Writer
import CodeGraph.Failure

/-!
Streams of records, one JSON object to a line. A node is written as its properties with its ID and
label among them, an edge as its two ends and its relation. All records go to one stream, or nodes
and edges to one each. A record that fails leaves behind the pieces of its line that were taken.
-/

namespace CodeGraph

inductive Record where
  | node (n : Node)
  | edge (e : Edge)
  deriving Repr, Inhabited

/-- The fields of a node. The ID and the label win over properties of the same names. -/
def Node.json (n : Node) : Json :=
  .object ((n.properties.set "id" (.str n.id)).set "type" (.str n.label))

def Edge.json (e : Edge) : Json :=
  .object [("source", .str e.source), ("target", .str e.target), ("type", .str e.relation)]

namespace Record

def json : Record → Json
  | node n => n.json
  | edge e => e.json

/-- The line of a record, with its line feed. -/
def line (r : Record) : List Char :=
  r.json.chars ++ ['\n']

end Record

/-- An effect on a destination that can fail; the destination survives a failure. -/
abbrev Emission (σ : Type) := ExceptT Failure (StateM σ)

/-- A destination for records. -/
class Emitter (σ : Type) where
  emit : Record → Emission σ Unit
  /-- Hands on all that is held back. -/
  close : Emission σ Unit

namespace Writer

/-- Runs an effect on the writer, with its refusal as a failure. -/
def reporting (fail : String → Failure) (act : Writing Unit) : Emission Writer Unit :=
  fun w =>
    match act w with
    | (.ok (), w) => (.ok (), w)
    | (.error reason, w) => (.error (fail reason), w)

def emit (r : Record) : Emission Writer Unit := do
  reporting .json (r.json.pieces.forM putText)
  reporting (fun reason => .emit ("write failed: " ++ reason)) (putText ['\n'])

def close : Emission Writer Unit :=
  reporting (fun reason => .emit ("flush failed: " ++ reason)) drain

end Writer

instance : Emitter Writer := ⟨Writer.emit, Writer.close⟩

/-- Nodes and edges in two streams. -/
structure SplitWriter where
  nodes : Writer := {}
  edges : Writer := {}
  deriving Repr, Inhabited

namespace SplitWriter

def onNodes (act : Emission Writer Unit) : Emission SplitWriter Unit :=
  fun s => let (r, w) := act s.nodes; (r, { s with nodes := w })

def onEdges (act : Emission Writer Unit) : Emission SplitWriter Unit :=
  fun s => let (r, w) := act s.edges; (r, { s with edges := w })

def emit : Record → Emission SplitWriter Unit
  | .node n => onNodes (Writer.emit (.node n))
  | .edge e => onEdges (Writer.emit (.edge e))

/-- Closes both streams; the edges stay open when the nodes fail. -/
def close : Emission SplitWriter Unit := do
  onNodes Writer.close
  onEdges Writer.close

end SplitWriter

instance : Emitter SplitWriter := ⟨SplitWriter.emit, SplitWriter.close⟩

/-- Emits records in order and stops at the first failure. -/
def emitAll {σ : Type} [Emitter σ] (rs : List Record) : Emission σ Unit :=
  rs.forM Emitter.emit

end CodeGraph

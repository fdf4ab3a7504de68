import CodeGraph.Graph.Schema
import CodeGraph.Json

/-!
Property graphs: nodes with an ID, a label and properties, and edges between IDs. A fragment is
what one file contributes; it keeps the order of discovery, and of two nodes with one ID or two
equal edges it keeps the first.
-/

namespace CodeGraph

/-- Named values in ascending order of their names. -/
abbrev Properties := List (String × Json)

namespace Properties

def set (key : String) (value : Json) : Properties → Properties
  | [] => [(key, value)]
  | (k, v) :: rest =>
      if key = k then (key, value) :: rest
      else if key < k then (key, value) :: (k, v) :: rest
      else (k, v) :: set key value rest

def get? (key : String) (props : Properties) : Option Json :=
  props.lookup key

def ofList (fields : List (String × Json)) : Properties :=
  fields.foldl (fun props (k, v) => props.set k v) []

end Properties

structure Node where
  id : String
  label : String
  properties : Properties := []
  deriving Repr, Inhabited

namespace Node

def set (n : Node) (key : String) (value : Json) : Node :=
  { n with properties := n.properties.set key value }

def get? (n : Node) (key : String) : Option Json :=
  n.properties.get? key

/-- A definition carries its name, its file and its first line. -/
def definition (id label name file : String) (line : Nat) : Node :=
  ((({ id, label } : Node).set Key.name (.str name)).set Key.file (.str file)).set Key.line
    (.int line)

/-- The name, if it is a string. -/
def name? (n : Node) : Option String :=
  (n.get? Key.name).bind Json.string?

/-- The line, if it is a natural number. -/
def line? (n : Node) : Option Nat :=
  (n.get? Key.line).bind Json.natural?

end Node

structure Edge where
  source : String
  target : String
  relation : String
  deriving DecidableEq, Repr, Inhabited

/-- The nodes and edges of one file. -/
structure Fragment where
  nodes : List Node := []
  edges : List Edge := []
  deriving Repr, Inhabited

namespace Fragment

def empty : Fragment := {}

def contains (f : Fragment) (id : String) : Bool :=
  f.nodes.any (·.id == id)

def node? (f : Fragment) (id : String) : Option Node :=
  f.nodes.find? (·.id == id)

/-- Adds a node unless its ID is taken. -/
def addNode (f : Fragment) (n : Node) : Fragment :=
  if f.contains n.id then f else { f with nodes := f.nodes ++ [n] }

/-- Adds an edge unless it is there. -/
def addEdge (f : Fragment) (source target relation : String) : Fragment :=
  let e : Edge := ⟨source, target, relation⟩
  if e ∈ f.edges then f else { f with edges := f.edges ++ [e] }

def addEdges (f : Fragment) (source : String) (targets : List String) (relation : String) :
    Fragment :=
  targets.foldl (fun f target => f.addEdge source target relation) f

/-- Sets a property of the node with an ID, if there is one. -/
def setProperty (f : Fragment) (id key : String) (value : Json) : Fragment :=
  { f with nodes := f.nodes.map fun n => if n.id == id then n.set key value else n }

def nodesNamed (f : Fragment) (name : String) : List Node :=
  f.nodes.filter fun n => n.name? == some name

def edgesOf (f : Fragment) (relation : String) : List Edge :=
  f.edges.filter (·.relation == relation)

def isEmpty (f : Fragment) : Bool :=
  f.nodes.isEmpty && f.edges.isEmpty

end Fragment

end CodeGraph

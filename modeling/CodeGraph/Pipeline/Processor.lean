import CodeGraph.Embedding.Basic
import CodeGraph.Emit.Stream
import CodeGraph.Files
import CodeGraph.Registry

/-!
What is done with one file: it is analyzed, a node for the file and links to it are added, the
routines get their embeddings, and the records are emitted. A file that cannot be read or analyzed
leaves nothing behind, and an embedder that fails costs only the embeddings.
-/

namespace CodeGraph

inductive Outcome where
  /-- Analyzed and emitted. -/
  | processed
  /-- There is no analyzer for the file. -/
  | skipped
  /-- The file could not be read or analyzed. -/
  | failed
  deriving DecidableEq, Repr, Inhabited

/-- The end of the work on a file: an outcome, or the failure of the output. -/
abbrev Verdict := Except Failure Outcome

structure Processor where
  registry : Registry
  embedder : Embedder
  /-- Whether what was found before a failed query is kept. -/
  keepFound : Bool := false
  read : String → Except AccessError FileContent

/-- What the study of a file comes to, before anything is emitted. -/
inductive Study where
  | skipped
  | failed
  | crashed
  | records (rs : List Record)
  deriving Inhabited

namespace Processor

def fileNode (path language : String) : Node :=
  ((({ id := path, label := Label.file } : Node).set Key.file (.str path)).set Key.name
    (.str path)).set "language" (.str language)

def definedIn (path : String) (nodes : List Node) : List Edge :=
  (nodes.filter fun n => Label.isDefinable n.label).map fun n => ⟨n.id, path, Relation.definedIn⟩

/-- The text that is embedded for a node, if it gets an embedding. -/
def embeddedText? (n : Node) : Option String :=
  if Label.isCallable n.label then n.name? else none

/-- Gives vectors, in order, to the nodes that get one. -/
def attach : List Node → List Embedding → List Node
  | n :: nodes, v :: vectors =>
      if (embeddedText? n).isSome then
        n.set Key.embedding (Embedding.json v) :: attach nodes vectors
      else n :: attach nodes (v :: vectors)
  | nodes, _ => nodes

/-- Attaches embeddings if the embedder answers with one for each text. -/
def embed (embedder : Embedder) (nodes : List Node) : List Node :=
  let texts := nodes.filterMap embeddedText?
  if texts.isEmpty then nodes
  else
    match embedder texts with
    | .ok vectors => if vectors.length = texts.length then attach nodes vectors else nodes
    | .error _ => nodes

/-- The records of a file in the order in which they are emitted. -/
def records (embedder : Embedder) (path language : String) (f : Fragment) : List Record :=
  .node (fileNode path language) :: (definedIn path f.nodes).map .edge
    ++ (embed embedder f.nodes).map .node ++ f.edges.map .edge

def study (p : Processor) (path : String) : Study :=
  match p.registry.lookupPath? path with
  | none => .skipped
  | some analyzer =>
      match p.read path with
      | .error _ => .failed
      | .ok content =>
          let finish (f : Fragment) : Study :=
            .records (records p.embedder path analyzer.language f)
          match analyzer.analyze ⟨path, content.bytes⟩ content.tree with
          | .ok f => finish f
          | .error .crash => .crashed
          | .error (.failure e) =>
              match e.found? with
              | some f => if p.keepFound then finish f else .failed
              | none => .failed

/-- Emits what a study came to. A crash has no verdict and emits nothing. -/
def conclude {σ : Type} [Emitter σ] : Study → StateM σ (Option Verdict)
  | .skipped => pure (some (.ok .skipped))
  | .failed => pure (some (.ok .failed))
  | .crashed => pure none
  | .records rs => do
      match ← (emitAll rs).run with
      | .ok () => return some (.ok .processed)
      | .error e => return some (.error e)

def process {σ : Type} [Emitter σ] (p : Processor) (path : String) : StateM σ (Option Verdict) :=
  conclude (p.study path)

end Processor

end CodeGraph

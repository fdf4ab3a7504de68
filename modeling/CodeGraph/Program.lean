import CodeGraph.CommandLine.Parse
import CodeGraph.Failure
import CodeGraph.Settings.File

/-!
The program: from the command line, the environment and the files to the records, the report and
the exit code. Nothing is made before the settings are known to be good.
-/

namespace CodeGraph

structure Completion where
  exitCode : Nat
  /-- The report, which a refused command line does not get. -/
  report : Option Json := none
  stdout : Bytes := []
  /-- The files after the run. -/
  root : Entry

namespace Program

/-- The settings of a run. -/
def settings (a : IngestArgs) (env : Environment) (root : Entry) : Except Failure Settings := do
  let s ←
    match a.config with
    | some path => Settings.load root path
    | none => pure {}
  let s := a.apply (← s.overrideBy env)
  s.validate
  return s

def makeFile (root : Entry) (path : String) : Except Failure Entry :=
  (root.create path).mapError (AccessError.failure path)

def ingest {σ : Type} [Emitter σ] (a : IngestArgs) (s : Settings) (embedder : Embedder)
    (root : Entry) : Emission σ WalkStats := do
  let processor : Processor := { registry := Registry.default, embedder, read := root.read }
  let stats ←
    match a.fileList with
    | some list => Walk.runList s.poolOptions processor root none list
    | none => Walk.runDirectory s.poolOptions processor s.exclude root none a.directory
  Emitter.close
  return stats

/-- The bytes that a stream has given away when the run ends. -/
def delivered (w : Writer) : Bytes :=
  w.finish.written.toList

def execute (a : IngestArgs) (env : Environment) (send : Embedding.Vertex.Transport)
    (root : Entry) : Except Failure WalkStats × Bytes × Entry :=
  let prepared := do
    let s ← settings a env root
    return (s, ← s.embedding.build send)
  match prepared with
  | .error e => (.error e, [], root)
  | .ok (s, embedder) =>
      match a.target with
      | .stdout =>
          let (r, w) := (ingest a s embedder root).run.run ({} : Writer)
          (r, delivered w, root)
      | .file path =>
          match makeFile root path with
          | .error e => (.error e, [], root)
          | .ok root =>
              let (r, w) := (ingest a s embedder root).run.run ({} : Writer)
              (r, [], root.overwrite path (delivered w))
      | .split nodes edges =>
          match makeFile root nodes with
          | .error e => (.error e, [], root)
          | .ok root =>
              match makeFile root edges with
              | .error e => (.error e, [], root)
              | .ok root =>
                  let (r, w) := (ingest a s embedder root).run.run ({} : SplitWriter)
                  (r, [], (root.overwrite nodes (delivered w.nodes)).overwrite edges
                    (delivered w.edges))

def report : Except Failure WalkStats → Json
  | .ok stats =>
      Report.success ("Processed " ++ toString stats.pool.processed ++ " of "
        ++ toString stats.pool.submitted ++ " files") stats.json
  | .error e => Report.failure e

/-- A run fails if it breaks off or if a file was not emitted whole. -/
def exitCode : Except Failure WalkStats → Nat
  | .ok stats => if stats.pool.emitFailures = 0 then 0 else 1
  | .error _ => 1

def run (words : List String) (env : Environment) (send : Embedding.Vertex.Transport)
    (root : Entry) : Completion :=
  match CommandLine.parse words with
  | .error u => { exitCode := u.exitCode, root }
  | .ok a =>
      let (r, stdout, root) := execute a env send root
      { exitCode := exitCode r, report := some (report r), stdout, root }

end Program

end CodeGraph

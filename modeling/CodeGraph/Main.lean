import CodeGraph.Program

/-!
The command line program. It reads what is below the current directory, runs, and writes what the
run leaves behind. No parser is linked in, so files have no syntax tree here and only the languages
that are read without one are analyzed.
-/

open CodeGraph

/-- Reads a directory entry with all that is below it. -/
partial def loadEntry (e : IO.FS.DirEntry) : IO Entry := do
  match (← e.path.metadata).type with
  | .file => return .file { bytes := (← IO.FS.readBinFile e.path).toList }
  | .dir =>
      let below ← (← e.path.readDir).mapM fun d => do return (d.fileName, ← loadEntry d)
      return .directory below.toList
  | _ => return .other

def loadEnvironment : IO Environment := do
  let names := [Variable.workers, Variable.project, Variable.location, Variable.model,
    Variable.token]
  let found ← names.filterMapM fun name => do return (← IO.getEnv name).map fun v => (name, v)
  return fun name => found.lookup name

def outputPaths (words : List String) : List String :=
  match CommandLine.parse words with
  | .ok a =>
      match a.target with
      | .stdout => []
      | .file path => [path]
      | .split nodes edges => [nodes, edges]
  | .error _ => []

def bytesOf (bytes : Bytes) : ByteArray :=
  ⟨bytes.toArray⟩

def main (words : List String) : IO UInt32 := do
  let below ← (← (← IO.currentDir).readDir).mapM fun d => do return (d.fileName, ← loadEntry d)
  let c := Program.run words (← loadEnvironment) Embedding.Vertex.offline (.directory below.toList)
  for path in outputPaths words do
    match c.root.read path with
    | .ok content => IO.FS.writeBinFile path (bytesOf content.bytes)
    | .error _ => pure ()
  (← IO.getStdout).write (bytesOf c.stdout)
  match c.report with
  | some report => IO.eprintln report.render
  | none =>
      match CommandLine.parse words with
      | .error u => IO.eprintln u.name
      | .ok _ => pure ()
  return UInt32.ofNat c.exitCode

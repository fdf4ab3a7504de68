import CodeGraph.Graph.Basic

/-!
What can go wrong, by cause, with the text that is shown for it, and the report that ends a run:
one JSON object that says how it went.
-/

namespace CodeGraph

inductive Failure where
  /-- A file could not be read or written. -/
  | io (path reason : String)
  | parse (file message : String)
  /-- A query on a tree failed; what was found before it is kept. -/
  | query (file message : String) (found : Fragment)
  /-- The embedding service failed, or its answer does not fit the question. -/
  | embedding (message : String)
  | http (message : String)
  | json (message : String)
  /-- The sink of the output failed. -/
  | emit (message : String)
  /-- A setting is invalid; `path` says where it came from. -/
  | config (path message : String)
  | other (message : String)
  deriving Repr, Inhabited

namespace Failure

def kind : Failure → String
  | io .. => "Io"
  | parse .. => "Parse"
  | query .. => "Query"
  | embedding _ => "Embedding"
  | http _ => "Http"
  | json _ => "Json"
  | emit _ => "Emit"
  | config .. => "Config"
  | other _ => "Other"

def message : Failure → String
  | io path reason => "I/O error for path " ++ path ++ ": " ++ reason
  | parse file text => "Parse error in " ++ file ++ ": " ++ text
  | query file text _ => "Query error in " ++ file ++ ": " ++ text
  | embedding text => "Embedding error: " ++ text
  | http text => "HTTP error: " ++ text
  | json text => "JSON error: " ++ text
  | emit text => "Emit error: " ++ text
  | config path text => "Config error in " ++ path ++ ": " ++ text
  | other text => text

/-- The path of a failure that names none. -/
def unknownPath : String := "<unknown>"

/-- What was found before the failure. -/
def found? : Failure → Option Fragment
  | query _ _ found => some found
  | _ => none

end Failure

/-- How an analysis can end without a fragment. A crash reports nothing and takes its worker
with it. -/
inductive Fault where
  | failure (f : Failure)
  | crash
  deriving Repr, Inhabited

namespace Report

def success (message : String) (data : Json) : Json :=
  .object [("status", .str "ok"), ("message", .str message), ("data", data)]

def failure (f : Failure) : Json :=
  .object [("status", .str "error"), ("kind", .str f.kind), ("message", .str f.message)]

end Report

end CodeGraph

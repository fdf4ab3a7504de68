import CodeGraph.Path

/-!
The languages that are analyzed, and how a file's extension tells its language. Extensions are
written with their dot and distinguish the case of letters.
-/

namespace CodeGraph

inductive Language where
  | cpp
  | csharp
  | java
  | typescript
  | tsx
  | sql
  | vbnet
  | asp
  deriving DecidableEq, Repr, Inhabited

namespace Language

def all : List Language :=
  [cpp, csharp, java, typescript, tsx, sql, vbnet, asp]

def name : Language → String
  | cpp => "cpp"
  | csharp => "csharp"
  | java => "java"
  | typescript => "typescript"
  | tsx => "tsx"
  | sql => "sql"
  | vbnet => "vbnet"
  | asp => "asp"

def extensions : Language → List String
  | cpp => [".c", ".h", ".cpp", ".hpp", ".cc", ".cxx", ".hh"]
  | csharp => [".cs"]
  | java => [".java"]
  | typescript => [".ts"]
  | tsx => [".tsx"]
  | sql => [".sql"]
  | vbnet => [".vb"]
  | asp => [".asp", ".aspx", ".ascx"]

/-- The extension of a path with its dot. -/
def extensionOf? (path : String) : Option String :=
  (Path.extension? path).map ("." ++ ·)

def ofPath? (path : String) : Option Language :=
  (extensionOf? path).bind fun ext => all.find? (·.extensions.contains ext)

end Language

end CodeGraph

import CodeGraph.Scope.Ident
import CodeGraph.Scope.Tables

/-!
The imports of a file in a language with namespaces or packages. A type reference is resolved to
every qualified name that it may denote: where neither a local type nor an exact import explains
it, there is one candidate for each imported namespace and one for the current namespace.
-/

namespace CodeGraph

structure NamespaceScope where
  current : String := ""
  namespaces : List String := []
  exact : Bindings String String := {}
  localTypes : Bindings String String := {}
  deriving Repr, Inhabited

namespace NamespaceScope

/-- The scope of a file whose declarations live in a namespace. -/
def of (current : String) : NamespaceScope :=
  { current }

def setCurrent (s : NamespaceScope) (space : String) : NamespaceScope :=
  { s with current := space }

def addNamespace (s : NamespaceScope) (space : String) : NamespaceScope :=
  if space == "" || s.namespaces.contains space then s
  else { s with namespaces := s.namespaces ++ [space] }

def addExact (s : NamespaceScope) (name full : String) : NamespaceScope :=
  { s with exact := s.exact.bind name full }

/-- Records a type that the file itself defines. -/
def addLocalType (s : NamespaceScope) (name id : String) : NamespaceScope :=
  { s with localTypes := s.localTypes.bind name id }

def localType? (s : NamespaceScope) (name : String) : Option String :=
  s.localTypes.get? name

/-- The candidates for a dotted name: what its head stands for, followed by the rest. -/
def dottedCandidate (s : NamespaceScope) (name head rest : String) : String :=
  match s.exact.get? head, s.localTypes.get? head with
  | some full, _ => full ++ "." ++ rest
  | none, some id => id ++ "." ++ rest
  | none, none => name

/-- The candidates for a simple name that nothing in the file explains. -/
def openCandidates (s : NamespaceScope) (space name : String) : List String :=
  let imported := s.namespaces.map (Ident.qualified · name)
  let own := Ident.qualified space name
  if imported.contains own then imported else imported ++ [own]

/-- The IDs that a type reference may denote in a namespace, in order of priority. -/
def candidatesIn (s : NamespaceScope) (space reference : String) : List String :=
  let name := Ident.baseType reference
  if name == "" then []
  else
    match s.localTypes.get? name, s.exact.get? name with
    | some id, _ => [id]
    | none, some full => [full]
    | none, none =>
        match Text.cut? "." name with
        | some (head, rest) => [s.dottedCandidate name head rest]
        | none => s.openCandidates space name

def candidates (s : NamespaceScope) (reference : String) : List String :=
  s.candidatesIn s.current reference

end NamespaceScope

end CodeGraph

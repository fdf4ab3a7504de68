import CodeGraph.Graph.Schema
import CodeGraph.Scope.Tables
import CodeGraph.Sql.Definitions

/-!
The references in the body of an SQL definition: executed and called routines, and tables. Names
do not distinguish the case of letters.
-/

namespace CodeGraph.Sql

open Pattern

/-- Names that are never taken for routines or tables. -/
def reserved : List String :=
  ["select", "where", "set", "values", "as", "on", "inner", "outer", "left", "right", "cross",
    "full", "join", "top", "distinct", "inserted", "deleted", "into", "from", "exec", "execute",
    "begin", "end", "if", "else", "while", "return", "declare", "case", "when", "then", "and",
    "or", "not", "in", "exists", "cast", "convert", "isnull", "coalesce", "count", "sum", "min",
    "max", "avg", "getdate", "nullif", "len", "substring", "openquery", "with", "over",
    "row_number"]

def isReserved (name : String) : Bool :=
  reserved.contains (Text.lower name)

/-- An executed routine is part 1. -/
def execPattern : Pattern :=
  seqs [edge, keyword "EXEC", opt (keyword "UTE"), spaces1,
    opt (seqs [char '@', word, spaces, char '=', spaces]),
    group 1 qualifiedName]

/-- A name before an opening parenthesis is part 1. -/
def callPattern : Pattern :=
  seqs [group 1 qualifiedName, spaces, char '(']

/-- A table behind a keyword is part 1. -/
def tablePattern : Pattern :=
  seqs [edge, keywords ["FROM", "JOIN", "UPDATE", "INTO"], spaces1,
    group 1 (seq (opt (one fun c => c == '#' || c == '@')) qualifiedName)]

/-- The routines and the tables that a script defines. -/
structure Names where
  routines : SymbolTable := { ignoresCase := true }
  tables : SymbolTable := { ignoresCase := true }

namespace Names

def add (path : String) (names : Names) (d : Definition) : Names :=
  if d.kind.isRoutine then { names with routines := names.routines.insert d.name (d.id path) }
  else { names with tables := names.tables.insert d.name (d.id path) }

def ofDefinitions (path : String) (ds : List Definition) : Names :=
  ds.foldl (add path) {}

/-- A table or view; failing that a routine, and failing that an unknown name. -/
def table (names : Names) (name : String) : String :=
  ((names.tables.get? name).or (names.routines.get? name)).getD (Ident.unresolved name)

end Names

structure Reference where
  place : Nat
  relation : String
  target : String
  deriving DecidableEq, Repr, Inhabited

def parts (p : Pattern) (body : List Char) : List Group :=
  (p.all (symbolsOf body)).filterMap (·.group? 1)

def execReference? (names : Names) (g : Group) : Option Reference :=
  let name := simpleName g.string
  if isReserved name then none
  else some ⟨g.start, Relation.calls, (names.routines.get? name).getD (Ident.unresolved name)⟩

def callReference? (names : Names) (g : Group) : Option Reference :=
  (names.routines.get? (simpleName g.string)).map fun id => ⟨g.start, Relation.calls, id⟩

/-- Temporary tables and table variables are not referred to. -/
def tableReference? (names : Names) (g : Group) : Option Reference :=
  if g.chars.head? == some '@' || g.chars.head? == some '#' then none
  else
    let name := simpleName g.string
    if isReserved name then none else some ⟨g.start, Relation.uses, names.table name⟩

/-- The references of a body in the order of their places. -/
def references (names : Names) (body : List Char) : List Reference :=
  let found :=
    (parts execPattern body).filterMap (execReference? names)
      ++ (parts callPattern body).filterMap (callReference? names)
      ++ (parts tablePattern body).filterMap (tableReference? names)
  found.mergeSort fun a b => a.place ≤ b.place

end CodeGraph.Sql

import CodeGraph.Text.Bytes
import CodeGraph.Vb.Blocks

/-!
The calls in the routines of a Visual Basic file. A name before a parenthesis is a call unless it
is reserved, local or constructed; names do not distinguish the case of letters.
-/

namespace CodeGraph.Vb

open Pattern

/-- Names that are never taken for routines. -/
def reserved : List String :=
  ["if", "elseif", "while", "for", "each", "not", "and", "or", "andalso", "orelse", "new",
    "return", "dim", "ctype", "directcast", "trycast", "cint", "cstr", "cdbl", "cbool", "clng",
    "cdate", "cdec", "csng", "cobj", "gettype", "typeof", "is", "isnot", "mod", "then", "else",
    "select", "case", "sub", "function", "call", "me", "mybase", "myclass", "nothing", "true",
    "false", "redim", "preserve", "array", "addressof", "using", "with", "try", "catch", "throw",
    "lbound", "ubound", "len", "mid", "left", "right", "trim", "ucase", "lcase", "isnothing",
    "isnull", "isempty", "isnumeric", "isarray", "isdate", "createobject", "nameof", "of", "as",
    "in", "to", "step", "until", "loop", "do", "set", "let", "get", "const", "byval", "byref"]

def isReserved (name : String) : Bool :=
  reserved.contains (Text.lower name)

/-! ### Locals -/

/-- The names that the parameter list of a header declares, in small letters. A list of type
parameters declares none. -/
def parameters (header : List Char) : List String :=
  match Seq.cut? ['('] header with
  | none => []
  | some (_, rest) =>
      match Seq.cutLast? (· == ')') rest with
      | none => []
      | some (inner, _) =>
          if Seq.startsWith "of ".toList (Chars.lower (Chars.trimStart inner)) then []
          else
            ((parameterPattern.all (symbolsOf inner)).filterMap (·.group? 1)).map fun g =>
              Text.lower g.string

/-- The entries of a list, cut at the commas outside parentheses. -/
def entriesFrom (depth : Nat) : List Char → List (List Char)
  | [] => [[]]
  | c :: s =>
      if c == ',' && depth == 0 then [] :: entriesFrom depth s
      else
        let depth := if c == '(' then depth + 1 else if c == ')' then depth - 1 else depth
        match entriesFrom depth s with
        | [] => [[c]]
        | entry :: entries => (c :: entry) :: entries

/-- The name that an entry begins with, in small letters. -/
def entryName? (entry : List Char) : Option String :=
  let name := (Chars.trimStart entry).takeWhile fun c => Text.isAlphanumeric c || c == '_'
  if name = [] then none else some (String.ofList (Chars.lower name))

/-- The names that a list of declarations declares. -/
def declaredNames (list : List Char) : List String :=
  (entriesFrom 0 list).filterMap entryName?

/-- The names that one line of a body declares. -/
def localsOnLine (line : List Char) : List String :=
  match (shapeOf? localLine line).bind (·.group? 1) with
  | some list => declaredNames list.chars
  | none => []

/-! ### Calls -/

structure Call where
  place : Nat
  name : String
  deriving DecidableEq, Repr, Inhabited

def isConstructed (line : List Char) (place : Nat) : Bool :=
  Seq.endsWith "new".toList (Chars.lower (Chars.trimEnd (line.take place)))

def callOf? (line : List Char) (locals : List String) (m : Match) : Option Call :=
  match m.group? 2 with
  | none => none
  | some g =>
      let name := g.string
      if isReserved name then none
      else if (m.group? 1).isSome then some ⟨g.start, name⟩
      else if locals.contains (Text.lower name) then none
      else if isConstructed line g.start then none
      else some ⟨g.start, name⟩

def statementCall? (m : Match) : Option Call :=
  match m.group? 1 with
  | none => none
  | some g => if isReserved g.string then none else some ⟨g.start, g.string⟩

/-- The calls on a line in the order of their places. -/
def callsOnLine (line : List Char) (locals : List String) : List Call :=
  let found :=
    (callPattern.all (symbolsOf line)).filterMap (callOf? line locals)
      ++ (callStatement.all (symbolsOf line)).filterMap statementCall?
  found.mergeSort fun a b => a.place ≤ b.place

def branchesOnLine (line : List Char) : Nat :=
  (if hasShape branchLine line then 1 else 0) + (shortCircuit.all (symbolsOf line)).length

namespace Blocks

/-- A called name: a routine of the same type, else a name of the file, else unknown. -/
def resolveCall (b : Blocks) (owner : Option String) (name : String) : String :=
  ((owner.bind fun o => b.members.get? (o, Text.lower name)).or (b.symbols.get? name)).getD
    (Ident.unresolved name)

def bodyLines (lines : List (List Char)) (r : Body) : List (List Char) :=
  (Seq.slice lines (r.start + 1) (max r.stop (r.start + 1))).map strip

def localsOf (lines : List (List Char)) (r : Body) : List String :=
  parameters (strip (lines[r.start]?.getD [])) ++ (bodyLines lines r).flatMap localsOnLine

def complexityOf (lines : List (List Char)) (r : Body) : Nat :=
  ((bodyLines lines r).map branchesOnLine).foldr (· + ·) 1

/-- Links the calls of one routine and records its complexity. -/
def linkCalls (lines : List (List Char)) (b : Blocks) (r : Body) : Blocks :=
  let locals := localsOf lines r
  let calls := (bodyLines lines r).flatMap fun line => callsOnLine line locals
  let targets := calls.map fun c => b.resolveCall r.owner c.name
  { b with
    fragment := (b.fragment.addEdges r.id targets Relation.calls).setProperty r.id Key.complexity
      (.int (complexityOf lines r)) }

end Blocks

def fragmentOf (path : String) (lines : List (List Char)) : Fragment :=
  let blocks := Blocks.ofLines path lines
  (blocks.bodies.foldl (Blocks.linkCalls lines) blocks).fragment

def analyze (f : SourceFile) : Fragment :=
  fragmentOf f.path (Chars.lines (Utf8.lossy f.bytes))

end CodeGraph.Vb

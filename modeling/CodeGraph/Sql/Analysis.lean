import CodeGraph.Outline
import CodeGraph.Sql.References

/-!
The fragment of an SQL script. Definitions become nodes in order, then each trigger is linked to
its table and each body to what it refers to. A script in which the header of a trigger runs into
the next definition has no fragment: the analysis crashes on it.
-/

namespace CodeGraph.Sql

open Pattern

/-- The characters that end a line besides the pair of carriage return and line feed. -/
def isLineBreak (c : Char) : Bool :=
  let n := c.toNat
  (10 ≤ n && n ≤ 13) || n == 0x85 || n == 0x2028 || n == 0x2029

/-- The number of line breaks; a carriage return before a line feed does not count. -/
def lineBreaks : List Char → Nat
  | [] => 0
  | c :: s => (if isLineBreak c && !(c == '\r' && s.head? == some '\n') then 1 else 0)
      + lineBreaks s

/-- The line of a place, counted from 1. -/
def lineAt (text : List Char) (place : Nat) : Nat :=
  lineBreaks (text.take place) + 1

/-- What precedes a batch separator at the end of a line of its own; both are given backwards. -/
def beforeBatchEnd? : List Char → Option (List Char)
  | 'O' :: 'G' :: c :: s | 'o' :: 'g' :: c :: s =>
      if c == '\n' || c == '\r' then some (c :: s) else none
  | _ => none

/-- Drops white space and batch separators from the end of a text that is given backwards. -/
def dropBatches : Nat → List Char → List Char
  | 0, s => s
  | fuel + 1, s =>
      let code := s.dropWhile Text.isSpace
      match beforeBatchEnd? code with
      | some rest => dropBatches fuel rest
      | none => code

/-- The length of a definition without white space and batch separators at its end. -/
def codeLength (span : List Char) : Nat :=
  (dropBatches span.length span.reverse).length

def bodyStartPattern : Pattern :=
  seqs [edge, keywords ["AS", "BEGIN"], edge]

def branchPattern : Pattern :=
  seqs [edge, keywords ["IF", "WHILE", "WHEN"], edge]

/-- The text between the header of a definition and its end; there is none when the header runs
past the end. -/
def body? (text : List Char) (d : Definition) : Option (List Char) :=
  if d.headerEnd ≤ d.stop then some (Seq.slice text d.headerEnd d.stop) else none

/-- The head of a routine: its text up to where the body starts. -/
def signature (text : List Char) (d : Definition) (body : List Char) : String :=
  let headEnd :=
    match bodyStartPattern.first? (symbolsOf body) with
    | some m => d.headerEnd + m.start
    | none => d.stop
  String.ofList (Chars.squeeze (Seq.slice text d.start headEnd))

def complexity (body : List Char) : Nat :=
  1 + (branchPattern.all (symbolsOf body)).length

/-- The node of a definition without what only routines have. -/
def baseNode (path : String) (text : List Char) (d : Definition) : Node :=
  let label := if d.kind.isRoutine then Label.function else Label.table
  let last := d.start + (codeLength (Seq.slice text d.start d.stop) - 1)
  ((Node.definition (d.id path) label d.name path (lineAt text d.start)).set Key.endLine
    (.int (lineAt text last))).set Key.kind (.str d.kind.name)

/-- The node of a definition; nothing when a routine has no body to look at. -/
def node? (path : String) (text : List Char) (d : Definition) : Option Node :=
  let node := baseNode path text d
  if d.kind.isRoutine then
    (body? text d).map fun body =>
      (node.set Key.signature (.str (signature text d body))).set Key.complexity
        (.int (complexity body))
  else some node

/-- The edges of a definition: to the watched table, and to what the body refers to, itself
apart. A table refers to nothing. -/
def edges? (path : String) (text : List Char) (names : Names) (d : Definition) :
    Option (List Edge) :=
  let id := d.id path
  let watching := (d.watched.map fun t => (⟨id, names.table t, Relation.watches⟩ : Edge)).toList
  if d.kind == .table then some watching
  else
    (body? text d).map fun body =>
      watching ++ ((references names body).filter fun r => r.target != id).map fun r =>
        ⟨id, r.target, r.relation⟩

def fragment? (path : String) (text : List Char) : Option Fragment :=
  let ds := definitions text
  let names := Names.ofDefinitions path ds
  match ds.mapM (node? path text), ds.mapM (edges? path text names) with
  | some nodes, some edges =>
      let withNodes := nodes.foldl Fragment.addNode {}
      some (edges.flatten.foldl (fun f e => f.addEdge e.source e.target e.relation) withNodes)
  | _, _ => none

def analyze (f : SourceFile) : Except Fault Fragment :=
  match fragment? f.path (Utf8.lossy (masked f.bytes)) with
  | some fragment => .ok fragment
  | none => .error .crash

end CodeGraph.Sql

import CodeGraph.Text.Basic
import CodeGraph.Text.Bytes

/-!
Concrete trees of a source text. Every token of the text is in the tree; a node covers the bytes
from `start` up to `stop`, may have a role (`field`) in its parent, and is told apart from all
other nodes by its key.
-/

namespace CodeGraph

abbrev Bytes := List UInt8

structure Tree.Info where
  kind : String
  field : String := ""
  named : Bool := true
  start : Nat := 0
  stop : Nat := 0
  key : Nat := 0
  deriving DecidableEq, Repr, Inhabited

inductive Tree where
  | node (info : Tree.Info) (children : List Tree)
  deriving Repr, Inhabited

namespace Tree

def info : Tree → Info
  | node i _ => i

def children : Tree → List Tree
  | node _ cs => cs

def kind (t : Tree) : String := t.info.kind

def field (t : Tree) : String := t.info.field

def named (t : Tree) : Bool := t.info.named

def start (t : Tree) : Nat := t.info.start

def stop (t : Tree) : Nat := t.info.stop

def key (t : Tree) : Nat := t.info.key

def isKind (t : Tree) (kinds : List String) : Bool :=
  kinds.contains t.kind

def namedChildren (t : Tree) : List Tree :=
  t.children.filter named

/-- The first child in a role. -/
def child? (t : Tree) (role : String) : Option Tree :=
  t.children.find? (·.field == role)

def childrenIn (t : Tree) (role : String) : List Tree :=
  t.children.filter (·.field == role)

/-- The first child of one of the kinds. -/
def childOfKind? (t : Tree) (kinds : List String) : Option Tree :=
  t.children.find? (·.isKind kinds)

/-- Whether a node is what its parent calls. -/
def isCallee (t : Tree) (parent : Option Tree) : Bool :=
  match parent with
  | some p => p.kind == "call_expression" && (p.child? "function").any (·.key == t.key)
  | none => false

/-- The text of a node, or nothing if its bytes are not UTF-8. -/
def text (src : Bytes) (t : Tree) : String :=
  match Utf8.strict? (Seq.slice src t.start t.stop) with
  | some cs => String.ofList cs
  | none => ""

def childText? (src : Bytes) (t : Tree) (role : String) : Option String :=
  (t.child? role).map (text src)

/-- The line that holds an offset, counted from 1 by the line feeds before it. -/
def lineAt (src : Bytes) (offset : Nat) : Nat :=
  (src.take offset).count 10 + 1

def startLine (src : Bytes) (t : Tree) : Nat :=
  lineAt src t.start

def endLine (src : Bytes) (t : Tree) : Nat :=
  lineAt src t.stop

mutual

/-- A node and everything below it, parents before children and children in order. -/
def preorder : Tree → List Tree
  | node i cs => node i cs :: preorderAll cs

def preorderAll : List Tree → List Tree
  | [] => []
  | t :: ts => preorder t ++ preorderAll ts

end

/-- The head of a definition: its text up to its body, with single blanks. -/
def signature (src : Bytes) (t : Tree) : String :=
  let stop := ((t.child? "body").map start).getD t.stop
  String.ofList (Chars.squeeze (Utf8.lossy (Seq.slice src t.start stop)))

/-- Whether a node opens a further path through a routine: a branch, or an operator that skips
its right side. -/
def isBranch (src : Bytes) (branches : List String) (t : Tree) : Bool :=
  if t.isKind branches then true
  else if t.kind == "binary_expression" then
    match t.childText? src "operator" with
    | some op => op == "&&" || op == "||"
    | none => false
  else false

/-- One more than the number of branches. -/
def complexity (src : Bytes) (branches : List String) (t : Tree) : Nat :=
  1 + (t.preorder.filter (isBranch src branches)).length

def isNameKind (kind : String) : Bool :=
  ["identifier", "field_identifier", "qualified_identifier", "destructor_name",
    "operator_name", "property_identifier", "type_identifier"].contains kind

def mayHoldName (t : Tree) : Bool :=
  t.named && (Text.endsWith "identifier" t.kind || Text.endsWith "declarator" t.kind)

/-- Of children with their answers, that of the declarator, or of the first one that may hold a
name. -/
def chooseName (answers : List (Tree × Option String)) : Option String :=
  match answers.find? (·.1.field == "declarator") with
  | some (_, name) => name
  | none => (answers.find? fun (t, _) => t.mayHoldName).bind (·.2)

mutual

/-- The name that a declarator declares, under any wrapping declarators. -/
def declaredName? (src : Bytes) : Tree → Option String
  | node i cs =>
      if isNameKind i.kind then some ((node i cs).text src)
      else chooseName (declaredNames src cs)

def declaredNames (src : Bytes) : List Tree → List (Tree × Option String)
  | [] => []
  | t :: ts => (t, declaredName? src t) :: declaredNames src ts

end

end Tree

end CodeGraph

import CodeGraph.CSharp.References
import CodeGraph.Page.Body
import CodeGraph.Page.Region
import CodeGraph.Vb.Calls

/-!
The fragment of a page. Its server code is put into a wrapper of the language at hand, analyzed
there, and the result is brought back onto the page: the wrapper disappears, what it owned belongs
to the page, and lines move up by the one line of the wrapper's head. The tree of a C# page is that
of the wrapped code. A page whose regions overlap has no class body, and the analysis crashes on it.
-/

namespace CodeGraph.Page

/-! ### Back onto the page -/

/-- The ID on the page of something that belongs to the wrapper. -/
def pageId? (path wrapper id : String) : Option String :=
  match Text.stripStart? wrapper id with
  | none => none
  | some rest =>
      ((Text.stripStart? ":" rest).or (Text.stripStart? "." rest)).map (Ident.inFile path)

/-- The ID on the page; what does not belong to the wrapper keeps its own. -/
def pageId (path wrapper id : String) : String :=
  (pageId? path wrapper id).getD id

/-- Moves a line up by one, but not above the first. -/
def liftLine (n : Node) (key : String) : Node :=
  match (n.get? key).bind Json.natural? with
  | some line => n.set key (.int (max (line - 1) 1))
  | none => n

def liftLines (n : Node) : Node :=
  liftLine (liftLine n Key.line) Key.endLine

/-- A method of the wrapper is a function of the page. -/
def unwrapNode (path wrapper : String) (n : Node) : Node :=
  match pageId? path wrapper n.id with
  | some id =>
      liftLines { n with
        id
        label := if n.label == Label.method then Label.function else n.label }
  | none => liftLines n

/-- The fragment of a page from that of its wrapped code. -/
def unwrap (path wrapper : String) (f : Fragment) : Fragment :=
  let nodes := (f.nodes.filter (·.id != wrapper)).map (unwrapNode path wrapper)
  let edges := f.edges.filter fun e => e.source != wrapper && e.target != wrapper
  edges.foldl
    (fun out e =>
      out.addEdge (pageId path wrapper e.source) (pageId path wrapper e.target) e.relation)
    (nodes.foldl Fragment.addNode {})

/-! ### Wrapped code -/

def encodeText (s : String) : List UInt8 :=
  Utf8.encode s.toList

def csharpWrapper : String := "AspPage"

def wrapCSharp (body : List UInt8) : List UInt8 :=
  encodeText "class AspPage \x7b\n" ++ body ++ encodeText "\n\x7d\n"

def vbWrapper (path : String) : String :=
  Ident.inFile path "AspWrapper"

def wrapVb (body : List UInt8) : List UInt8 :=
  encodeText "Module AspWrapper\n" ++ body ++ encodeText "\nEnd Module\n"

/-- The C# code of a page in its wrapper. -/
def wrappedCSharp? (bytes : List UInt8) : Option (List UInt8) :=
  (classBody? bytes).map wrapCSharp

def analyzeCSharp (f : SourceFile) (tree : Option Tree) : Except Fault Fragment :=
  match wrappedCSharp? f.bytes, tree with
  | none, _ => .error .crash
  | some _, none => .error f.noTree
  | some wrapped, some tree =>
      .ok (unwrap f.path csharpWrapper (CSharp.analyze ⟨f.path, wrapped⟩ tree))

def analyzeVb (f : SourceFile) : Fragment :=
  unwrap f.path (vbWrapper f.path) (Vb.analyze ⟨f.path, wrapVb (maskMarkup f.bytes)⟩)

def analyze (f : SourceFile) (tree : Option Tree) : Except Fault Fragment :=
  match language f.path f.bytes with
  | .csharp => analyzeCSharp f tree
  | .visualBasic => .ok (analyzeVb f)

end CodeGraph.Page

import CodeGraph.Path
import CodeGraph.Scope.Ident
import CodeGraph.Tree.Basic

/-!
Import statements: what a file brings into scope, as written. A statement of a TypeScript module
gives one import for each form of binding in it, and a statement without any is an import for
effects. In C and C++ a symbol is resolved through the headers that a file includes.
-/

namespace CodeGraph

/-- How an import is to be resolved. -/
inductive Import.Kind where
  /-- A header of the system. -/
  | systemHeader
  /-- A header of the project. -/
  | localHeader
  /-- A whole namespace. -/
  | space
  /-- A type under another name. -/
  | alias
  /-- The static members of a type. -/
  | staticSpace
  /-- A type of a package, or all of them. -/
  | packageType
  /-- A static member of a type, or all of them. -/
  | staticMember
  /-- Named exports of a module. -/
  | namedExports
  /-- The default export of a module. -/
  | defaultExport
  /-- All exports of a module under one name. -/
  | moduleObject
  /-- A module for its effects only. -/
  | effectsOnly
  deriving DecidableEq, Repr, Inhabited

/-- A name bound by an import: as it is known here, and as the module calls it. -/
structure Import.Name where
  here : String
  there : String
  deriving DecidableEq, Repr, Inhabited

structure Import where
  kind : Import.Kind
  path : String
  names : List Import.Name := []
  /-- Whether a whole namespace comes into scope. -/
  glob : Bool
  line : Nat
  deriving DecidableEq, Repr, Inhabited

namespace Import

/-! ### Java -/

/-- The last name in a declaration, which is its path. -/
def importPath (src : Bytes) (t : Tree) : String :=
  match (t.children.filter (·.isKind ["scoped_identifier", "identifier"])).getLast? with
  | some name => name.text src
  | none => ""

def ofImportDeclaration? (src : Bytes) (t : Tree) : Option Import :=
  let path := importPath src t
  if path == "" then none
  else
    let kind := if t.children.any (·.kind == "static") then Kind.staticMember else .packageType
    let glob := t.children.any (·.kind == "asterisk")
    let last := Text.lastPiece (· == '.') path
    some { kind, path, names := if glob then [] else [⟨last, last⟩], glob, line := t.startLine src }

/-- The imports at the top level of a file. -/
def packageImports (src : Bytes) (root : Tree) : List Import :=
  (root.children.filter (·.kind == "import_declaration")).filterMap (ofImportDeclaration? src)

/-! ### TypeScript -/

def isQuote (c : Char) : Bool :=
  c == '"' || c == '\'' || c.toNat == 96

/-- A module name without its quotes. -/
def unquote : String → String := Text.trimWhere isQuote

def specifierName? (src : Bytes) (t : Tree) : Option Name :=
  if t.kind == "import_specifier" then
    (t.childText? src "name").map fun there =>
      ⟨(t.childText? src "alias").getD there, there⟩
  else none

def ofClausePart? (src : Bytes) (path : String) (line : Nat) (t : Tree) : Option Import :=
  if t.kind == "identifier" then
    some { kind := .defaultExport, path, names := [⟨t.text src, "default"⟩], glob := false, line }
  else if t.kind == "named_imports" then
    some { kind := .namedExports, path, names := t.children.filterMap (specifierName? src),
           glob := false, line }
  else if t.kind == "namespace_import" then
    (t.childOfKind? ["identifier"]).map fun name =>
      { kind := .moduleObject, path, names := [⟨name.text src, "*"⟩], glob := true, line }
  else none

def ofImportStatement (src : Bytes) (t : Tree) : List Import :=
  match t.childText? src "source" with
  | none => []
  | some quoted =>
      let path := unquote quoted
      let line := t.startLine src
      match t.children.filter (·.kind == "import_clause") with
      | [] => [{ kind := .effectsOnly, path, glob := false, line }]
      | clauses =>
          clauses.flatMap fun clause => clause.children.filterMap (ofClausePart? src path line)

def moduleImports (src : Bytes) (root : Tree) : List Import :=
  (root.children.filter (·.kind == "import_statement")).flatMap (ofImportStatement src)

/-! ### C# -/

/-- A text without its white space. -/
def compact (s : List Char) : List Char :=
  s.filter fun c => !Text.isSpace c

/-- Drops a leading `global` and the white space after it. -/
def dropGlobal (s : List Char) : List Char :=
  match Seq.stripStart? "global".toList s with
  | some rest => Chars.trimStart rest
  | none => s

def dropSemicolon (s : List Char) : List Char :=
  (Seq.stripEnd? [';'] s).getD s

/-- Reads what stands between `using` and the semicolon. -/
def ofUsingBody? (body : List Char) (line : Nat) : Option Import :=
  let (isStatic, rest) :=
    match Seq.stripStart? "static ".toList body with
    | some rest => (true, Chars.trim rest)
    | none => (false, body)
  match Seq.cut? ['='] rest with
  | some (name, target) =>
      let path := String.ofList (compact target)
      if path == "" then none
      else
        let here := String.ofList (Chars.trim name)
        some { kind := .alias, path, names := [⟨here, path⟩], glob := false, line }
  | none =>
      let path := String.ofList (compact rest)
      if path == "" then none
      else if isStatic then some { kind := .staticSpace, path, glob := false, line }
      else some { kind := .space, path, glob := true, line }

def ofUsing? (text : List Char) (line : Nat) : Option Import :=
  match Seq.stripStart? "using".toList (dropGlobal (Chars.trim text)) with
  | none => none
  | some rest => ofUsingBody? (Chars.trim (dropSemicolon (Chars.trim rest))) line

def holdsUsings (kind : String) : Bool :=
  ["compilation_unit", "namespace_declaration", "file_scoped_namespace_declaration",
    "declaration_list"].contains kind

mutual

/-- The directives of a file and of its namespaces. -/
def usings (src : Bytes) : Tree → List Import
  | .node i cs =>
      if i.kind == "using_directive" then
        let t : Tree := .node i cs
        (ofUsing? (t.text src).toList (t.startLine src)).toList
      else if holdsUsings i.kind then usingsAll src cs
      else []

def usingsAll (src : Bytes) : List Tree → List Import
  | [] => []
  | t :: ts => usings src t ++ usingsAll src ts

end

/-! ### C and C++ -/

def isOpening (c : Char) : Bool :=
  c == '<' || c == '"'

def isClosing (c : Char) : Bool :=
  c == '>' || c == '"'

/-- A header name without its brackets or quotes. -/
def headerChars (s : List Char) : List Char :=
  ((s.dropWhile isOpening).reverse.dropWhile isClosing).reverse

def ofInclude? (src : Bytes) (t : Tree) : Option Import :=
  match t.child? "path" with
  | none => none
  | some header =>
      let path := Text.onChars headerChars (header.text src)
      if path == "" then none
      else
        let kind := if header.kind == "system_lib_string" then Kind.systemHeader else .localHeader
        some { kind, path, glob := true, line := t.startLine src }

mutual

/-- The include directives anywhere in a tree, none of them inside another. -/
def includes (src : Bytes) : Tree → List Import
  | .node i cs =>
      if i.kind == "preproc_include" then (ofInclude? src (.node i cs)).toList
      else includesAll src cs

def includesAll (src : Bytes) : List Tree → List Import
  | [] => []
  | t :: ts => includes src t ++ includesAll src ts

end

end Import

namespace Include

/-- The ID of a symbol whose leading segment is the base name of an included header, in any
letter case; the first such header decides. -/
def resolve? (symbol : String) (includes : List String) (file : String) : Option String :=
  let head := Text.before "::" symbol
  if head == "" then none
  else
    (includes.find? fun header => Text.sameIgnoringCase (Path.stem header) head).map fun header =>
      Ident.inFile (Path.joinRelative file header) symbol

end Include

end CodeGraph

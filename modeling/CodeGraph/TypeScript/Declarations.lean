import CodeGraph.Outline

/-!
The declarations of a TypeScript module. Everything at the top belongs to the file, and members
belong to their class; a variable bound to a function is that function.
-/

namespace CodeGraph.TypeScript

open Declaration

def functionKinds : List String :=
  ["function_declaration", "generator_function_declaration"]

def classKinds : List String :=
  ["class_declaration", "abstract_class_declaration", "class"]

def methodKinds : List String :=
  ["method_definition", "abstract_method_signature"]

/-- Expressions whose value is a function. -/
def functionValueKinds : List String :=
  ["arrow_function", "function_expression", "function", "generator_function"]

def branchKinds : List String :=
  ["if_statement", "for_statement", "for_in_statement", "while_statement", "do_statement",
    "switch_case", "catch_clause", "ternary_expression"]

/-- The type in an annotation such as `: Foo<Bar>`. -/
def annotationType : String → String :=
  Text.onChars fun s => Chars.trim ((Chars.trimStart s).dropWhile (· == ':'))

def annotatedType? (src : Bytes) (t : Tree) : Option String :=
  (t.childText? src "type").map annotationType

def functionDeclaration (f : SourceFile) (t : Tree) (name : String) : Declaration :=
  .routine t.key name
    (routineNode f branchKinds t (Ident.inFile f.path name) Label.function name) none

def classDeclaration (f : SourceFile) (t : Tree) (name : String) : Declaration :=
  let node := spanning f t (Ident.inFile f.path name) Label.class_ name
  .type t.key name (mark node "abstract" (t.kind == "abstract_class_declaration")) false

def interfaceDeclaration (f : SourceFile) (t : Tree) (name : String) : Declaration :=
  .type t.key name (spanning f t (Ident.inFile f.path name) Label.interface name) true

def methodDeclaration (f : SourceFile) (t : Tree) (owner name : String) : Declaration :=
  let node := routineNode f branchKinds t (Ident.member owner name) Label.method name
  .routine t.key name (mark node "abstract" (t.kind == "abstract_method_signature")) (some owner)

def fieldDeclaration (f : SourceFile) (t : Tree) (owner name : String) : Declaration :=
  let typeText := (annotatedType? f.bytes t).getD ""
  .field name (fieldNode f t (Ident.member owner name) Label.field name typeText) owner typeText

def isParameterProperty (src : Bytes) (parameter : Tree) : Bool :=
  parameter.children.any fun c => c.kind == "accessibility_modifier" || c.text src == "readonly"

/-- The fields that the parameters of a constructor declare. -/
def parameterProperties (f : SourceFile) (constructor : Tree) (owner : String) :
    List Declaration :=
  match constructor.child? "parameters" with
  | none => []
  | some parameters =>
      (parameters.namedChildren.filter (isParameterProperty f.bytes)).filterMap fun p =>
        (p.childText? f.bytes "pattern").map fun name => fieldDeclaration f p owner name

def methodDeclarations (f : SourceFile) (t : Tree) (owner : String) : List Declaration :=
  match t.childText? f.bytes "name" with
  | none => []
  | some name =>
      methodDeclaration f t owner name
        :: if name == "constructor" then parameterProperties f t owner else []

/-- Whether a declaration, given the nodes above it, stands at the top of the module. -/
def isTopLevel (aboveDeclaration : List Tree) : Bool :=
  match aboveDeclaration with
  | [] => false
  | p :: rest =>
      p.kind == "program"
        || (p.kind == "export_statement" && (rest.head?.any fun q => q.kind == "program"))

/-- What a variable declarator declares: a function, a global of the module, or nothing. -/
def variableDeclaration? (f : SourceFile) (above : List Tree) (t : Tree) : Option Declaration :=
  match t.child? "name" with
  | none => none
  | some nameNode =>
      if nameNode.kind != "identifier" then none
      else
        let name := nameNode.text f.bytes
        match (t.child? "value").filter (·.isKind functionValueKinds) with
        | some value => some (functionDeclaration f value name)
        | none =>
            match above with
            | [] => none
            | declaration :: rest =>
                if isTopLevel rest then
                  let kind := (declaration.children.head?.map (·.text f.bytes)).getD "var"
                  let node := (Node.definition (Ident.inFile f.path name) Label.global name f.path
                    (t.startLine f.bytes)).set Key.kind (.str kind)
                  let node :=
                    match annotatedType? f.bytes t with
                    | some typeText => node.set Key.dataType (.str typeText)
                    | none => node
                  some (.global name node)
                else none

/-- What a node itself declares, apart from classes and interfaces. -/
def ownDeclarations (f : SourceFile) (above : List Tree) (owner : Option String) (t : Tree) :
    List Declaration :=
  if t.isKind functionKinds then
    ((t.childText? f.bytes "name").map (functionDeclaration f t)).toList
  else if t.isKind methodKinds then
    match owner with
    | some owner => methodDeclarations f t owner
    | none => []
  else if t.kind == "public_field_definition" then
    match owner with
    | some owner => ((t.childText? f.bytes "name").map (fieldDeclaration f t owner)).toList
    | none => []
  else if t.kind == "variable_declarator" then (variableDeclaration? f above t).toList
  else []

mutual

/-- The declarations in a tree, each before those inside it; `above` are the nodes around the
tree. -/
def declarations (f : SourceFile) (above : List Tree) (owner : Option String) :
    Tree → List Declaration
  | .node i cs =>
      let t : Tree := .node i cs
      if classKinds.contains i.kind then
        match t.childText? f.bytes "name" with
        | none => []
        | some name =>
            classDeclaration f t name
              :: declarationsInBody f (t :: above) (Ident.inFile f.path name) cs
      else if i.kind == "interface_declaration" then
        ((t.childText? f.bytes "name").map (interfaceDeclaration f t)).toList
      else ownDeclarations f above owner t ++ declarationsAll f (t :: above) owner cs

def declarationsAll (f : SourceFile) (above : List Tree) (owner : Option String) :
    List Tree → List Declaration
  | [] => []
  | t :: ts => declarations f above owner t ++ declarationsAll f above owner ts

def declarationsInBody (f : SourceFile) (above : List Tree) (owner : String) :
    List Tree → List Declaration
  | [] => []
  | .node i cs :: ts =>
      if i.field == "body" then declarationsAll f (.node i cs :: above) (some owner) cs
      else declarationsInBody f above owner ts

end

end CodeGraph.TypeScript

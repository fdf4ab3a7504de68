import CodeGraph.Outline

/-!
The declarations of a C# file. Types are known by their qualified name, nested ones by that of
their owner and their own name; functions outside any type belong to the file.
-/

namespace CodeGraph.CSharp

open Declaration

def typeKinds : List String :=
  ["class_declaration", "struct_declaration", "record_declaration", "record_struct_declaration",
    "interface_declaration", "enum_declaration"]

def routineKinds : List String :=
  ["method_declaration", "constructor_declaration", "destructor_declaration",
    "local_function_statement"]

def fieldKinds : List String :=
  ["field_declaration", "event_field_declaration"]

def branchKinds : List String :=
  ["if_statement", "for_statement", "foreach_statement", "while_statement", "do_statement",
    "switch_section", "switch_expression_arm", "catch_clause", "conditional_expression"]

/-- The namespace that a file declares for all of its content. -/
def fileNamespace (src : Bytes) (root : Tree) : String :=
  match root.childOfKind? ["file_scoped_namespace_declaration"] with
  | none => ""
  | some declaration => (declaration.childText? src "name").getD ""

def namespaceNames (src : Bytes) (above : List Tree) : List String :=
  above.filterMap fun t =>
    if t.kind == "namespace_declaration" then t.childText? src "name" else none

/-- The dotted namespace at a place, from the nodes above it. -/
def namespaceAt (src : Bytes) (fileSpace : String) (above : List Tree) : String :=
  let inner := (namespaceNames src above).reverse
  Text.join "." (if fileSpace == "" then inner else fileSpace :: inner)

def hasModifier (src : Bytes) (t : Tree) (modifier : String) : Bool :=
  t.children.any fun c => c.kind == "modifier" && c.text src == modifier

def declaratorName? (src : Bytes) (declarator : Tree) : Option String :=
  match declarator.child? "name" with
  | some name => some (name.text src)
  | none => (declarator.namedChildren.find? (·.kind == "identifier")).map (·.text src)

def typeDeclaration (f : SourceFile) (space : String) (t : Tree) (id name : String) :
    Declaration :=
  let isInterface := t.kind == "interface_declaration"
  let label := if isInterface then Label.interface else Label.class_
  let node := ((spanning f t id label name).set Key.kind (.str (shortKind t.kind))).set
    "namespace" (.str space)
  .type t.key name node isInterface

/-- The name of a routine; a destructor is told from a constructor by a tilde. -/
def routineName (t : Tree) (name : String) : String :=
  if t.kind == "destructor_declaration" then "~" ++ name else name

def routineDeclaration (f : SourceFile) (t : Tree) (owner : Option String) (name : String) :
    Declaration :=
  let node :=
    match owner with
    | some owner => routineNode f branchKinds t (Ident.member owner name) Label.method name
    | none => routineNode f branchKinds t (Ident.inFile f.path name) Label.function name
  let node :=
    if t.kind == "constructor_declaration" then node.set Key.kind (.str "constructor") else node
  .routine t.key name (mark node "static" (hasModifier f.bytes t "static")) owner

def fieldDeclarations (f : SourceFile) (t : Tree) (owner : String) : List Declaration :=
  match t.namedChildren.find? (·.kind == "variable_declaration") with
  | none => []
  | some declaration =>
      let typeText := (declaration.childText? f.bytes "type").getD ""
      let isStatic := hasModifier f.bytes t "static"
      (declaration.namedChildren.filter (·.kind == "variable_declarator")).filterMap
        fun declarator =>
          (declaratorName? f.bytes declarator).map fun name =>
            let node := fieldNode f declarator (Ident.member owner name) Label.field name typeText
            .field name (mark node "static" isStatic) owner typeText

/-- The field that a property, or a parameter of a record, declares. -/
def propertyDeclaration? (f : SourceFile) (t : Tree) (owner : String) (isStatic : Bool) :
    Option Declaration :=
  match t.childText? f.bytes "name", t.childText? f.bytes "type" with
  | some name, some typeText =>
      let node := (fieldNode f t (Ident.member owner name) Label.field name typeText).set Key.kind
        (.str "property")
      some (.field name (mark node "static" isStatic) owner typeText)
  | _, _ => none

/-- The parameters of a record are its properties. -/
def parameterDeclarations (f : SourceFile) (t : Tree) (owner : String) : List Declaration :=
  if t.kind == "record_declaration" then
    match t.child? "parameters" with
    | none => []
    | some parameters =>
        parameters.namedChildren.filterMap fun p => propertyDeclaration? f p owner false
  else []

mutual

/-- The declarations in a tree, each before those inside it; `above` are the nodes around the
tree. -/
def declarations (f : SourceFile) (fileSpace : String) (above : List Tree)
    (owner : Option String) : Tree → List Declaration
  | .node i cs =>
      let t : Tree := .node i cs
      if typeKinds.contains i.kind then
        match t.childText? f.bytes "name" with
        | none => []
        | some name =>
            let space := namespaceAt f.bytes fileSpace above
            let id := Ident.typeIn space owner name
            typeDeclaration f space t id name :: parameterDeclarations f t id
              ++ declarationsInBody f fileSpace (t :: above) id cs
      else if routineKinds.contains i.kind then
        match t.childText? f.bytes "name" with
        | none => []
        | some name =>
            routineDeclaration f t owner (routineName t name)
              :: declarationsOfBody f fileSpace (t :: above) owner cs
      else if fieldKinds.contains i.kind then
        match owner with
        | some owner => fieldDeclarations f t owner
        | none => []
      else if i.kind == "property_declaration" then
        match owner with
        | some owner =>
            (propertyDeclaration? f t owner (hasModifier f.bytes t "static")).toList
        | none => []
      else declarationsAll f fileSpace (t :: above) owner cs

def declarationsAll (f : SourceFile) (fileSpace : String) (above : List Tree)
    (owner : Option String) : List Tree → List Declaration
  | [] => []
  | t :: ts => declarations f fileSpace above owner t ++ declarationsAll f fileSpace above owner ts

def declarationsInBody (f : SourceFile) (fileSpace : String) (above : List Tree)
    (owner : String) : List Tree → List Declaration
  | [] => []
  | .node i cs :: ts =>
      if i.field == "body" then
        declarationsAll f fileSpace (.node i cs :: above) (some owner) cs
      else declarationsInBody f fileSpace above owner ts

/-- The declarations in the body of a routine, such as local functions. -/
def declarationsOfBody (f : SourceFile) (fileSpace : String) (above : List Tree)
    (owner : Option String) : List Tree → List Declaration
  | [] => []
  | .node i cs :: ts =>
      if i.field == "body" then declarations f fileSpace above owner (.node i cs)
      else declarationsOfBody f fileSpace above owner ts

end

end CodeGraph.CSharp

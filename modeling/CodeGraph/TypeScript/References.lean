import CodeGraph.Import
import CodeGraph.Path
import CodeGraph.Scope.Tables
import CodeGraph.TypeScript.Declarations

/-!
The references in a TypeScript module: base types, calls, constructed classes and uses of fields
through `this`. What a name refers to depends on the parameters and local variables of the function,
those of nested functions included. An imported name stands for the export of the module that it
comes from.
-/

namespace CodeGraph.TypeScript

open CodeGraph.Tree (Site)

/-! ### Locals -/

def isIdentifier (t : Tree) : Bool :=
  t.kind == "identifier"

/-- The type that a variable is constructed with. -/
def constructedType? (src : Bytes) (declarator : Tree) : Option String :=
  match declarator.child? "value" with
  | none => none
  | some value =>
      if value.kind == "new_expression" then
        ((value.child? "constructor").filter isIdentifier).map (·.text src)
      else none

/-- A name without a type in one role of a node. -/
def untyped (src : Bytes) (t : Option Tree) : List (String × Option String) :=
  (t.map fun p => (p.text src, none)).toList

def localsOfNode (src : Bytes) (t : Tree) : List (String × Option String) :=
  if t.isKind ["required_parameter", "optional_parameter"] then
    match (t.child? "pattern").filter isIdentifier with
    | some pattern => [(pattern.text src, annotatedType? src t)]
    | none => []
  else if t.kind == "variable_declarator" then
    match (t.child? "name").filter isIdentifier with
    | some name => [(name.text src, (annotatedType? src t).or (constructedType? src t))]
    | none => []
  else if t.kind == "for_in_statement" then untyped src ((t.child? "left").filter isIdentifier)
  else if t.isKind ["catch_clause", "arrow_function"] then untyped src (t.child? "parameter")
  else []

/-- The locals that a function itself declares. -/
def localsOf (src : Bytes) (routine : Tree) : Locals :=
  Locals.ofDeclarations
    (untyped src (routine.child? "parameter") ++ routine.preorder.flatMap (localsOfNode src))

/-! ### References -/

/-- What is known of a module while its references are linked. -/
structure State where
  file : SourceFile
  /-- Names that the module defines. -/
  symbols : SymbolTable
  /-- Imported names with their IDs. -/
  imports : Bindings String String
  /-- Names that stand for whole modules, the latest import first. -/
  modules : List (String × String)
  outline : Outline

namespace State

def members (st : State) : TypeMembers := st.outline.members

def link (st : State) (source : String) (targets : List String) (relation : String) : State :=
  { st with outline := st.outline.link source targets relation }

/-- A name is one of the module, or imported, or taken to belong to the file. -/
def resolveName (st : State) (name : String) : String :=
  ((st.symbols.get? name).or (st.imports.get? name)).getD (Ident.inFile st.file.path name)

/-- A type by its first alternative. -/
def resolveType (st : State) (text : String) : String :=
  st.resolveName (Ident.baseType (Text.trim (Text.before "|" text)))

/-- The locals that a reference sees, those of the functions around its own included. -/
def locals (st : State) (ctx : Outline.Context) : Locals :=
  match ctx.routine with
  | some site => (st.outline.routinesAt site).flatMap fun r => localsOf st.file.bytes r.node
  | none => []

/-! ### Base types -/

def clauseTypes (clause : Tree) : List Tree :=
  match clause.childrenIn "value" with
  | [] => clause.namedChildren.filter (·.kind != "type_arguments")
  | values => values

def clauseRelation? (clause : Tree) : Option String :=
  if clause.kind == "extends_clause" then some Relation.extends_
  else if clause.kind == "implements_clause" then some Relation.implements
  else none

def classBases (st : State) (heritage : Tree) : List (String × String) :=
  heritage.children.flatMap fun clause =>
    match clauseRelation? clause with
    | none => []
    | some relation =>
        (clauseTypes clause).map fun base => (relation, st.resolveType (base.text st.file.bytes))

def linkClass (st : State) (t : Tree) : State :=
  match st.outline.types.get? t.key, t.childOfKind? ["class_heritage"] with
  | some id, some heritage =>
      { st with
        outline := (st.classBases heritage).foldl
          (fun o (relation, base) => o.addBase relation id base) st.outline }
  | _, _ => st

def interfaceBases (st : State) (t : Tree) : List String :=
  (t.children.filter (·.isKind ["extends_type_clause", "extends_clause"])).flatMap fun clause =>
    (clauseTypes clause).map fun base => st.resolveType (base.text st.file.bytes)

def linkInterface (st : State) (t : Tree) : State :=
  match st.outline.types.get? t.key with
  | some id => st.link id (st.interfaceBases t) Relation.extends_
  | none => st

/-! ### Calls -/

def exportOf (module name : String) : String :=
  module ++ ":" ++ name

/-- A member of a value whose type is written as `text`. -/
def memberOfType (st : State) (text name : String) : String :=
  st.members.resolveMember (st.resolveType text) name

/-- A member of a named value: of an imported module, of a local with or without a type, or of
what the name itself denotes. -/
def memberOfName (st : State) (ctx : Outline.Context) (object name : String) : String :=
  match st.modules.lookup object with
  | some module => exportOf module name
  | none =>
      match (st.locals ctx).find? object with
      | some (some typeText) => st.memberOfType typeText name
      | some none => Ident.unresolved name
      | none => st.members.resolveMember (st.resolveName object) name

/-- The type of a field of `this`, unless nothing is written. -/
def fieldTypeOfThis? (st : State) (ctx : Outline.Context) (inner : Tree) (field : String) :
    Option String :=
  if inner.kind == "this" then
    (ctx.owner.bind fun o => st.members.fieldType? o field).filter (· != "")
  else none

/-- The member that an access denotes. -/
def accessTarget? (st : State) (ctx : Outline.Context) (access : Tree) : Option String :=
  let src := st.file.bytes
  match access.childText? src "property", access.child? "object" with
  | some name, some object =>
      if object.kind == "this" then
        match ctx.owner with
        | some owner => some (st.members.resolveMember owner name)
        | none => some (Ident.unresolved name)
      else if object.kind == "super" then
        match (ctx.owner.map st.members.bases).getD [] with
        | base :: _ => some (st.members.resolveMember base name)
        | [] => some (Ident.unresolved name)
      else if object.kind == "identifier" then some (st.memberOfName ctx (object.text src) name)
      else if object.kind == "member_expression" then
        match object.child? "object", object.childText? src "property" with
        | some inner, some field =>
            match st.fieldTypeOfThis? ctx inner field with
            | some typeText => some (st.memberOfType typeText name)
            | none => some (Ident.unresolved name)
        | _, _ => none
      else some (Ident.unresolved name)
  | _, _ => none

def callTarget? (st : State) (ctx : Outline.Context) (callee : Tree) : Option String :=
  if callee.kind == "identifier" then
    let name := callee.text st.file.bytes
    if (st.locals ctx).declares name then none else some (st.resolveName name)
  else if callee.kind == "member_expression" then st.accessTarget? ctx callee
  else none

def linkCall (st : State) (s : Site) : State :=
  match s.node.child? "function", st.outline.context? s with
  | some callee, some ctx => st.link ctx.source (st.callTarget? ctx callee).toList Relation.calls
  | _, _ => st

/-- The class that a `new` expression constructs. -/
def constructedTarget? (st : State) (constructor : Tree) : Option String :=
  let src := st.file.bytes
  if constructor.kind == "identifier" then some (st.resolveName (constructor.text src))
  else if constructor.kind == "member_expression" then
    let object := (constructor.childText? src "object").getD ""
    (constructor.childText? src "property").map fun name =>
      match st.modules.lookup object with
      | some module => exportOf module name
      | none => Ident.unresolved name
  else none

def linkNew (st : State) (s : Site) : State :=
  match s.node.child? "constructor", st.outline.context? s with
  | some constructor, some ctx =>
      st.link ctx.source (st.constructedTarget? constructor).toList Relation.calls
  | _, _ => st

/-! ### Uses of fields -/

/-- An access to `this` that is not called uses a field. -/
def linkFieldUse (st : State) (s : Site) : State :=
  if !(s.node.child? "object").any (·.kind == "this") || s.node.isCallee s.above.head? then st
  else
    match s.node.childText? st.file.bytes "property", st.outline.context? s with
    | some name, some ctx => { st with outline := st.outline.linkField ctx name }
    | _, _ => st

def visit (st : State) (s : Site) : State :=
  if classKinds.contains s.kind then st.linkClass s.node
  else if s.kind == "interface_declaration" then st.linkInterface s.node
  else if s.kind == "call_expression" then st.linkCall s
  else if s.kind == "new_expression" then st.linkNew s
  else if s.kind == "member_expression" then st.linkFieldUse s
  else st

end State

def addImportedName (kind : Import.Kind) (module : String) (st : State) (n : Import.Name) :
    State :=
  if kind == .moduleObject then
    { st with
      modules := (n.here, module) :: st.modules
      imports := st.imports.bind n.here module }
  else { st with imports := st.imports.bind n.here (State.exportOf module n.there) }

def addImport (st : State) (imp : Import) : State :=
  imp.names.foldl (addImportedName imp.kind (Path.moduleFile st.file.path imp.path)) st

/-- Makes a declaration of the module known by its name. -/
def addSymbol (symbols : SymbolTable) : Declaration → SymbolTable
  | .type _ name node _ => symbols.insert name node.id
  | .routine _ name node none => symbols.insert name node.id
  | .global name node => symbols.insert name node.id
  | _ => symbols

def initialState (f : SourceFile) (root : Tree) : State :=
  let ds := declarations f [] none root
  let empty : State := ⟨f, ds.foldl addSymbol {}, {}, [], Outline.ofDeclarations ds⟩
  (Import.moduleImports f.bytes root).foldl addImport empty

def analyze (f : SourceFile) (root : Tree) : Fragment :=
  (root.sites.foldl State.visit (initialState f root)).outline.fragment

end CodeGraph.TypeScript

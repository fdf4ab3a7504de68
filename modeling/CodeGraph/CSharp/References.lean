import CodeGraph.CSharp.Declarations
import CodeGraph.Import
import CodeGraph.Scope.Namespace
import CodeGraph.Scope.Tables

/-!
The references in a C# file: base types, calls, constructed types and uses of fields. What a name
refers to depends on the parameters and local variables of the routine, those of nested functions
and lambdas in its body included. A type that the file does not define has one candidate for each
imported namespace and one for the namespace around the reference.
-/

namespace CodeGraph.CSharp

open CodeGraph.Tree (Site)

/-! ### Locals -/

/-- The written type of a node; `var` is none. -/
def writtenType? (src : Bytes) (t : Tree) : Option String :=
  (t.childText? src "type").filter (· != "var")

def valueOf? (child : Tree) : Option Tree :=
  if child.kind == "equals_value_clause" then child.namedChildren.head? else some child

def isCreation (t : Tree) : Bool :=
  t.kind == "object_creation_expression"

def createdType? (src : Bytes) (declarator : Tree) : Option String :=
  match (declarator.namedChildren.filterMap valueOf?).find? isCreation with
  | some value => value.childText? src "type"
  | none => none

def variableType? (src : Bytes) (declared : String) (declarator : Tree) : Option String :=
  if declared == "var" then createdType? src declarator else some declared

def parameterLocals (src : Bytes) (routine : Tree) : List (String × Option String) :=
  match routine.child? "parameters" with
  | none => []
  | some parameters =>
      parameters.namedChildren.filterMap fun p =>
        (p.childText? src "name").map fun name => (name, p.childText? src "type")

def localsOfNode (src : Bytes) (t : Tree) : List (String × Option String) :=
  if t.kind == "variable_declaration" then
    let declared := (t.childText? src "type").getD "var"
    (t.namedChildren.filter (·.kind == "variable_declarator")).filterMap fun declarator =>
      (declaratorName? src declarator).map fun n => (n, variableType? src declared declarator)
  else if t.kind == "foreach_statement" then
    ((t.childText? src "left").map fun n => (n, writtenType? src t)).toList
  else if t.isKind ["declaration_expression", "declaration_pattern", "catch_declaration",
      "parameter"] then
    ((t.childText? src "name").map fun n => (n, writtenType? src t)).toList
  else if t.kind == "implicit_parameter" then [(t.text src, none)]
  else []

/-- The locals that a routine itself declares. -/
def localsOf (src : Bytes) (routine : Tree) : Locals :=
  let inBody :=
    match routine.child? "body" with
    | none => []
    | some body => body.preorder.flatMap (localsOfNode src)
  Locals.ofDeclarations (parameterLocals src routine ++ inBody)

/-! ### References -/

/-- What is known of a file while its references are linked. -/
structure State where
  file : SourceFile
  fileSpace : String
  scope : NamespaceScope
  /-- Types whose static members are imported. -/
  staticTypes : List String
  /-- Functions outside any type. -/
  topLevel : SymbolTable
  outline : Outline

namespace State

def members (st : State) : TypeMembers := st.outline.members

def link (st : State) (source : String) (targets : List String) (relation : String) : State :=
  { st with outline := st.outline.link source targets relation }

/-- The namespace around a site. -/
def spaceAt (st : State) (s : Site) : String :=
  namespaceAt st.file.bytes st.fileSpace s.above

/-- The locals that a reference sees, those of the routines around its own included. -/
def locals (st : State) (ctx : Outline.Context) : Locals :=
  match ctx.routine with
  | some site => (st.outline.routinesAt site).flatMap fun r => localsOf st.file.bytes r.node
  | none => []

/-! ### Base types -/

/-- The type inside an entry of a base list. -/
def baseTypeOf (entry : Tree) : Tree :=
  if entry.isKind ["identifier", "qualified_name", "generic_name", "alias_qualified_name",
      "predefined_type"] then entry
  else ((entry.child? "type").or entry.namedChildren.head?).getD entry

/-- Whether a base is an interface: known of a type of this file, else judged by its name. -/
def namesInterface (st : State) (text : String) : Bool :=
  match st.scope.localType? (Ident.baseType text) with
  | some id => st.members.isInterface id
  | none => Ident.looksLikeInterface text

/-- The relation to a base: an interface extends its bases; a class implements interfaces and
inherits from the first base that is none. -/
def baseRelation (st : State) (ofInterface isFirst : Bool) (text : String) : String :=
  if ofInterface then Relation.extends_
  else if st.namesInterface text then Relation.implements
  else if isFirst then Relation.inherits
  else Relation.implements

def baseTexts (src : Bytes) (list : Tree) : List String :=
  (list.namedChildren.map fun entry => (baseTypeOf entry).text src).filter (· != "")

def addBases (st : State) (space id : String) (ofInterface isFirst : Bool) (text : String) :
    State :=
  let relation := st.baseRelation ofInterface isFirst text
  { st with
    outline := (st.scope.candidatesIn space text).foldl (fun o base => o.addBase relation id base)
      st.outline }

def linkBases (st : State) (s : Site) : State :=
  match st.outline.types.get? s.node.key, s.node.childOfKind? ["base_list"] with
  | some id, some list =>
      let space := st.spaceAt s
      let ofInterface := s.kind == "interface_declaration"
      (baseTexts st.file.bytes list).zipIdx.foldl
        (fun st (text, i) => st.addBases space id ofInterface (i == 0) text) st
  | _, _ => st

/-! ### Calls -/

/-- A name without type arguments. -/
def simpleName (src : Bytes) (t : Tree) : String :=
  Ident.baseType (t.text src)

def isThis (src : Bytes) (t : Tree) : Bool :=
  t.isKind ["this_expression", "this"] || t.text src == "this"

def isNamePart (part : List Char) : Bool :=
  part != [] && part.all fun c => Text.isAlphanumeric c || c == '_'

def isDottedName (text : String) : Bool :=
  (Seq.splitOn (· == '.') text.toList).all isNamePart

def plainCallTargets (st : State) (owner : Option String) (name : String) : List String :=
  match owner with
  | none => [(st.topLevel.get? name).getD (Ident.unresolved name)]
  | some owner =>
      match st.members.member? owner name with
      | some id => [id]
      | none =>
          st.members.resolveMember owner name :: st.staticTypes.map (Ident.member · name)

/-- The types that a receiver may have, where they can be told. -/
def receiverTypes? (st : State) (ctx : Outline.Context) (space : String) (receiver : Tree) :
    Option (List String) :=
  let src := st.file.bytes
  let candidates := st.scope.candidatesIn space
  if receiver.isKind ["this_expression", "this"] then ctx.owner.map fun o => [o]
  else if receiver.isKind ["base_expression", "base"] then ctx.owner.map st.members.bases
  else if receiver.kind == "identifier" then
    let name := receiver.text src
    match (st.locals ctx).find? name with
    | some declared => declared.map candidates
    | none =>
        match ctx.owner.bind fun o => st.members.fieldType? o name with
        | some typeText => some (candidates typeText)
        | none => some (candidates name)
  else if receiver.kind == "member_access_expression" then
    match receiver.child? "expression", receiver.childText? src "name" with
    | some inner, some member =>
        if isThis src inner then
          (ctx.owner.bind fun o => st.members.fieldType? o member).map candidates
        else
          let text := receiver.text src
          if isDottedName text then some (candidates text) else none
    | _, _ => none
  else if receiver.isKind ["generic_name", "qualified_name"] then
    some (candidates (receiver.text src))
  else if receiver.kind == "predefined_type" then some [receiver.text src]
  else none

def memberCallTargets (st : State) (ctx : Outline.Context) (space : String) (access : Tree) :
    List String :=
  match access.child? "name" with
  | none => []
  | some nameNode =>
      let name := simpleName st.file.bytes nameNode
      match (access.child? "expression").bind (st.receiverTypes? ctx space) with
      | none | some [] => [Ident.unresolved name]
      | some types => types.map (st.members.resolveMember · name)

def callTargets (st : State) (ctx : Outline.Context) (space : String) (callee : Tree) :
    List String :=
  if callee.isKind ["identifier", "generic_name"] then
    let name := simpleName st.file.bytes callee
    if (st.locals ctx).declares name then [] else st.plainCallTargets ctx.owner name
  else if callee.kind == "member_access_expression" then st.memberCallTargets ctx space callee
  else []

def linkInvocation (st : State) (s : Site) : State :=
  match s.node.child? "function", st.outline.context? s with
  | some callee, some ctx =>
      st.link ctx.source (st.callTargets ctx (st.spaceAt s) callee) Relation.calls
  | _, _ => st

def linkCreation (st : State) (s : Site) : State :=
  match s.node.childText? st.file.bytes "type", st.outline.context? s with
  | some typeText, some ctx =>
      st.link ctx.source (st.scope.candidatesIn (st.spaceAt s) typeText) Relation.calls
  | _, _ => st

/-! ### Uses of fields -/

def isDeclaringKind (kind : String) : Bool :=
  Text.endsWith "_declaration" kind
    || ["variable_declarator", "parameter", "local_function_statement"].contains kind

def fieldUse (src : Bytes) (parent ident : Tree) : Outline.FieldUse :=
  if parent.kind == "member_access_expression" then
    if !(parent.child? "name").any (·.key == ident.key) then .bare
    else if (parent.child? "expression").any (isThis src) then .ofThis
    else .none
  else if parent.kind == "invocation_expression" then .none
  else if isDeclaringKind parent.kind then .none
  else .bare

def linkFieldUse (st : State) (s : Site) : State :=
  match s.above.head? with
  | none => st
  | some parent =>
      let use := fieldUse st.file.bytes parent s.node
      if use == .none then st
      else
        match st.outline.context? s with
        | none => st
        | some ctx =>
            let name := s.node.text st.file.bytes
            { st with outline := st.outline.linkFieldUse ctx (st.locals ctx) use name }

def visit (st : State) (s : Site) : State :=
  if s.kind == "invocation_expression" then st.linkInvocation s
  else if s.kind == "object_creation_expression" then st.linkCreation s
  else if s.kind == "identifier" then st.linkFieldUse s
  else if typeKinds.contains s.kind && s.kind != "enum_declaration" then st.linkBases s
  else st

end State

def addImport (st : State) (imp : Import) : State :=
  match imp.kind with
  | .alias => { st with scope := imp.names.foldl (fun sc n => sc.addExact n.here n.there) st.scope }
  | .staticSpace => { st with staticTypes := st.staticTypes ++ [imp.path] }
  | _ => { st with scope := st.scope.addNamespace imp.path }

def addName (st : State) : Declaration → State
  | .type _ name node _ => { st with scope := st.scope.addLocalType name node.id }
  | .routine _ name node none => { st with topLevel := st.topLevel.insert name node.id }
  | _ => st

def initialState (f : SourceFile) (root : Tree) : State :=
  let fileSpace := fileNamespace f.bytes root
  let ds := declarations f fileSpace [] none root
  let empty : State := ⟨f, fileSpace, {}, [], {}, Outline.ofDeclarations ds⟩
  ds.foldl addName ((Import.usings f.bytes root).foldl addImport empty)

def analyze (f : SourceFile) (root : Tree) : Fragment :=
  (root.sites.foldl State.visit (initialState f root)).outline.fragment

end CodeGraph.CSharp

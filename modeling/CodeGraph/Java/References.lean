import CodeGraph.Import
import CodeGraph.Java.Declarations
import CodeGraph.Scope.Namespace
import CodeGraph.Scope.Tables
import CodeGraph.Tree.Basic

/-!
The references in a Java file: supertypes, calls, constructed types and uses of fields. What a name
refers to depends on the parameters and local variables of the method or constructor, those of
lambdas in it included.
-/

namespace CodeGraph.Java

open CodeGraph.Tree (Site)

/-! ### Locals -/

/-- The written type of a node; `var` is none. -/
def writtenType? (src : Bytes) (t : Tree) : Option String :=
  (t.childText? src "type").filter (· != "var")

/-- The type of a variable: the one that is written or, behind `var`, the one that its value
constructs. -/
def variableType? (src : Bytes) (declared : String) (declarator : Tree) : Option String :=
  if declared == "var" then
    match declarator.child? "value" with
    | some value =>
        if value.kind == "object_creation_expression" then value.childText? src "type" else none
    | none => none
  else some declared

def localsOfNode (src : Bytes) (t : Tree) : List (String × Option String) :=
  if t.isKind ["formal_parameter", "catch_formal_parameter", "enhanced_for_statement",
      "resource"] then
    match t.childText? src "name" with
    | some name => [(name, writtenType? src t)]
    | none => []
  else if t.kind == "spread_parameter" then
    match t.namedChildren.find? (·.kind == "variable_declarator") with
    | some declarator => ((declarator.childText? src "name").map fun n => (n, none)).toList
    | none => []
  else if t.kind == "local_variable_declaration" then
    let declared := (t.childText? src "type").getD "var"
    (t.childrenIn "declarator").filterMap fun declarator =>
      (declarator.childText? src "name").map fun n => (n, variableType? src declared declarator)
  else if t.kind == "lambda_expression" then
    match t.child? "parameters" with
    | none => []
    | some parameters =>
        if parameters.kind == "identifier" then [(parameters.text src, none)]
        else if parameters.kind == "inferred_parameters" then
          parameters.namedChildren.map fun p => (p.text src, none)
        else []
  else []

def localsOf (src : Bytes) (routine : Tree) : Locals :=
  Locals.ofDeclarations (routine.preorder.flatMap (localsOfNode src))

/-! ### References -/

/-- What is known of a file while its references are linked. -/
structure State where
  file : SourceFile
  scope : NamespaceScope
  /-- Types whose static members are all imported. -/
  staticTypes : List String
  /-- Imported static members with their IDs, the latest import first. -/
  staticMembers : List (String × String)
  outline : Outline

namespace State

def members (st : State) : TypeMembers := st.outline.members

def link (st : State) (source : String) (targets : List String) (relation : String) : State :=
  { st with outline := st.outline.link source targets relation }

/-- The locals that a reference sees. -/
def locals (st : State) (ctx : Outline.Context) : Locals :=
  match ctx.routine with
  | some site => localsOf st.file.bytes site.node
  | none => []

/-! ### Supertypes -/

def clauseRelation? (clause : Tree) : Option String :=
  if clause.isKind ["superclass", "extends_interfaces"] then some Relation.extends_
  else if clause.kind == "super_interfaces" then some Relation.implements
  else none

def clauseTypes (clause : Tree) : List Tree :=
  clause.namedChildren.flatMap fun t => if t.kind == "type_list" then t.namedChildren else [t]

def supertypes (st : State) (t : Tree) : List (String × String) :=
  t.children.flatMap fun clause =>
    match clauseRelation? clause with
    | none => []
    | some relation =>
        (clauseTypes clause).flatMap fun ref =>
          (st.scope.candidates (ref.text st.file.bytes)).map fun base => (relation, base)

def linkSupertypes (st : State) (t : Tree) : State :=
  match st.outline.types.get? t.key with
  | none => st
  | some id =>
      { st with
        outline := (st.supertypes t).foldl (fun o (relation, base) => o.addBase relation id base)
          st.outline }

/-! ### Calls -/

/-- The targets of a call without a receiver: the own member, else an imported static member,
else what the type would inherit and what the imported types would offer. -/
def plainCallTargets (st : State) (owner : Option String) (name : String) : List String :=
  match owner.bind fun o => st.members.member? o name with
  | some id => [id]
  | none =>
      match st.staticMembers.lookup name with
      | some id => [id]
      | none =>
          let inherited := (owner.map fun o => st.members.resolveMember o name).toList
          let targets := inherited ++ st.staticTypes.map (Ident.member · name)
          if targets.isEmpty then [Ident.unresolved name] else targets

/-- The types that a receiver may have, where they can be told. -/
def receiverTypes? (st : State) (ctx : Outline.Context) (receiver : Tree) : Option (List String) :=
  let src := st.file.bytes
  if receiver.kind == "this" then ctx.owner.map fun o => [o]
  else if receiver.kind == "super" then ctx.owner.map st.members.bases
  else if receiver.kind == "identifier" then
    let name := receiver.text src
    match (st.locals ctx).find? name with
    | some declared => declared.map st.scope.candidates
    | none =>
        match ctx.owner.bind fun o => st.members.fieldType? o name with
        | some typeText => some (st.scope.candidates typeText)
        | none => some (st.scope.candidates name)
  else if receiver.kind == "field_access" then
    match receiver.child? "object", ctx.owner, receiver.childText? src "field" with
    | some object, some owner, some field =>
        if object.kind == "this" then
          (st.members.fieldType? owner field).map st.scope.candidates
        else none
    | _, _, _ => none
  else none

def memberCallTargets (st : State) (ctx : Outline.Context) (receiver : Tree) (name : String) :
    List String :=
  match st.receiverTypes? ctx receiver with
  | none | some [] => [Ident.unresolved name]
  | some types => types.map (st.members.resolveMember · name)

def linkInvocation (st : State) (s : Site) : State :=
  match s.node.childText? st.file.bytes "name", st.outline.context? s with
  | some name, some ctx =>
      let targets :=
        match s.node.child? "object" with
        | none => st.plainCallTargets ctx.owner name
        | some receiver => st.memberCallTargets ctx receiver name
      st.link ctx.source targets Relation.calls
  | _, _ => st

def linkCreation (st : State) (s : Site) : State :=
  match s.node.childText? st.file.bytes "type", st.outline.context? s with
  | some typeText, some ctx => st.link ctx.source (st.scope.candidates typeText) Relation.calls
  | _, _ => st

/-! ### Uses of fields -/

def isDeclaringKind (kind : String) : Bool :=
  Text.endsWith "_declaration" kind
    || ["formal_parameter", "catch_formal_parameter", "enhanced_for_statement",
        "lambda_expression", "inferred_parameters", "scoped_identifier", "labeled_statement",
        "break_statement", "continue_statement"].contains kind

def fieldUse (parent ident : Tree) : Outline.FieldUse :=
  let isChild (role : String) := (parent.child? role).any (·.key == ident.key)
  if parent.kind == "field_access" && isChild "field" then
    if (parent.child? "object").any (·.kind == "this") then .ofThis else .none
  else if parent.kind == "method_invocation" && isChild "name" then .none
  else if parent.kind == "variable_declarator" && isChild "name" then .none
  else if isDeclaringKind parent.kind then .none
  else .bare

def linkFieldUse (st : State) (s : Site) : State :=
  match s.above.head? with
  | none => st
  | some parent =>
      let use := fieldUse parent s.node
      if use == .none then st
      else
        match st.outline.context? s with
        | none => st
        | some ctx =>
            let name := s.node.text st.file.bytes
            { st with outline := st.outline.linkFieldUse ctx (st.locals ctx) use name }

def visit (st : State) (s : Site) : State :=
  if s.kind == "method_invocation" then st.linkInvocation s
  else if s.kind == "object_creation_expression" then st.linkCreation s
  else if s.kind == "identifier" then st.linkFieldUse s
  else if typeKinds.contains s.kind then st.linkSupertypes s.node
  else st

end State

def addImport (st : State) (imp : Import) : State :=
  match imp.kind, imp.glob with
  | .staticMember, true => { st with staticTypes := st.staticTypes ++ [imp.path] }
  | .staticMember, false =>
      match Text.cutLast? (· == '.') imp.path with
      | some (owner, member) =>
          { st with staticMembers := (member, Ident.member owner member) :: st.staticMembers }
      | none => st
  | _, true => { st with scope := st.scope.addNamespace imp.path }
  | _, false =>
      { st with scope := imp.names.foldl (fun sc n => sc.addExact n.here imp.path) st.scope }

def addLocalType (scope : NamespaceScope) : Declaration → NamespaceScope
  | .type _ name node _ => scope.addLocalType name node.id
  | _ => scope

def initialState (f : SourceFile) (root : Tree) : State :=
  let package := packageName f.bytes root
  let ds := declarations f package none root
  let empty : State := ⟨f, NamespaceScope.of package, [], [], Outline.ofDeclarations ds⟩
  let imported := (Import.packageImports f.bytes root).foldl addImport empty
  { imported with scope := ds.foldl addLocalType (imported.scope.addNamespace "java.lang") }

def analyze (f : SourceFile) (root : Tree) : Fragment :=
  (root.sites.foldl State.visit (initialState f root)).outline.fragment

end CodeGraph.Java

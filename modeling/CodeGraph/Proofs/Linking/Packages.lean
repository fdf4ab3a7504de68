import CodeGraph.Proofs.Closure.Linking
import CodeGraph.Proofs.Graph.Declared
import CodeGraph.Proofs.Linking.Outlines
import CodeGraph.Proofs.Linking.Scopes

/-!
References across Java files. A type at the top of a file is known by its package and its name. In
another file that imports the type or its package, or lies in the same package, and in which no
other type goes by that name, a reference to the name has that ID among its candidates.
-/

namespace CodeGraph.Java

open CodeGraph.Tree (Site OwnedSite Search Way)
open Declaration

/-! ### Declarations of the defining file -/

def fileDeclarations (f : SourceFile) (root : Tree) : List Declaration :=
  declarations f (packageName f.bytes root) none root

/-- No declaration stands around the first node in the second one. -/
inductive Direct (t : Tree) : Tree → Prop where
  | self : Direct t t
  | child {i : Tree.Info} {cs : List Tree} {c : Tree} (htype : typeKinds.contains i.kind = false)
      (hmethod : methodKinds.contains i.kind = false) (hfield : fieldKinds.contains i.kind = false)
      (hc : c ∈ cs) (h : Direct t c) : Direct t (.node i cs)

/-- A type at the top of a file and a method in its body. -/
structure TopMethod (f : SourceFile) (root t t' : Tree) (type method : String) : Prop where
  top : Direct t root
  isType : typeKinds.contains t.kind = true
  typeName : t.childText? f.bytes "name" = some type
  inBody : ∃ body, t.child? "body" = some body ∧ ∃ c ∈ body.children, Direct t' c
  isMethod : methodKinds.contains t'.kind = true
  methodName : t'.childText? f.bytes "name" = some method

section Declared

variable (f : SourceFile) (package : String)

/-- The search goes from a node to what it stands around directly, with the same owner. -/
theorem Direct.leads {t u : Tree} (h : Direct t u) (above : List Tree) (owner : Option String) :
    ∃ above', (search f package).Leads (⟨u, above⟩, owner) (⟨t, above'⟩, owner) := by
  induction h generalizing above with
  | self => exact ⟨above, .refl⟩
  | @child i cs c htype hmethod hfield hc _ ih =>
      obtain ⟨above', hleads⟩ := ih (.node i cs :: above)
      have honward : onward f package (⟨.node i cs, above⟩, owner) = (.children, owner) := by
        have hkind (kinds : List String) :
            (Tree.node i cs).isKind kinds = kinds.contains i.kind := rfl
        rw [onward, hkind, hkind, hkind, htype, hmethod, hfield]
        rfl
      refine ⟨above', hleads.head (Search.mem_inside_iff.mpr ?_)⟩
      rw [show (search f package).onward = onward f package from rfl, honward]
      exact ⟨Way.mem_sites_children.mpr ⟨c, hc, rfl⟩, rfl⟩

variable {f package}

theorem onward_of_type {x : OwnedSite} (htype : x.1.node.isKind typeKinds = true) {name : String}
    (hname : x.1.node.childText? f.bytes "name" = some name) :
    onward f package x = (.inBody, some (Ident.typeIn package x.2 name)) := by
  rw [onward, if_pos htype, hname]

theorem typeDeclaration_mem_declaredAt {x : OwnedSite} (htype : x.1.node.isKind typeKinds = true)
    {name : String} (hname : x.1.node.childText? f.bytes "name" = some name) :
    typeDeclaration f package x.1.node (Ident.typeIn package x.2 name) name ∈
      declaredAt f package x := by
  rw [declaredAt, if_pos htype, hname]
  exact List.mem_cons_self

theorem methodDeclaration_mem_declaredAt {s : Site} (owner : String) {name : String}
    (hmethod : s.node.isKind methodKinds = true)
    (hname : s.node.childText? f.bytes "name" = some name) :
    methodDeclaration f s.node owner name ∈ declaredAt f package (s, some owner) := by
  have htype : s.node.isKind typeKinds = false := by
    have hdisjoint : ∀ kind ∈ methodKinds, typeKinds.contains kind = false := by decide
    exact hdisjoint s.node.kind (List.contains_iff_mem.mp hmethod)
  rw [declaredAt, htype, if_neg (by decide), if_pos hmethod, hname]
  exact List.mem_singleton_self _

variable {root t t' : Tree} {type method : String}

/-- The IDs that a file gives to a type at its top and to a method of it. -/
theorem TopMethod.declared (h : TopMethod f root t t' type method) :
    let package := packageName f.bytes root
    typeDeclaration f package t (Ident.qualified package type) type ∈ fileDeclarations f root ∧
      methodDeclaration f t' (Ident.qualified package type) method ∈ fileDeclarations f root := by
  intro package
  obtain ⟨above, htop⟩ := h.top.leads f package [] none
  obtain ⟨body, hbody, c, hc, hdirect⟩ := h.inBody
  have hstep : (⟨c, body :: t :: above⟩, some (Ident.qualified package type)) ∈
      (search f package).inside (⟨t, above⟩, none) := by
    have honward : onward f package (⟨t, above⟩, none) =
        (.inBody, some (Ident.qualified package type)) :=
      onward_of_type (x := (⟨t, above⟩, none)) h.isType h.typeName
    rw [Search.mem_inside_iff, show (search f package).onward = onward f package from rfl, honward]
    exact ⟨Way.mem_sites_inBody.mpr ⟨body, hbody, c, hc, rfl⟩, rfl⟩
  obtain ⟨above', hmethod⟩ := hdirect.leads f package (body :: t :: above) _
  constructor
  · exact mem_declarations_iff.mpr ⟨_, htop,
      typeDeclaration_mem_declaredAt (x := (⟨t, above⟩, none)) h.isType h.typeName⟩
  · exact mem_declarations_iff.mpr ⟨_, (htop.tail hstep).trans hmethod,
      methodDeclaration_mem_declaredAt (s := ⟨t', above'⟩) _ h.isMethod h.methodName⟩

end Declared

/-! ### What a file brings into scope -/

/-- The file imports the type, or all of its package, or lies in its package. -/
def Sees (f : SourceFile) (root : Tree) (package type : String) : Prop :=
  (∃ imp ∈ Import.packageImports f.bytes root, imp.kind = .packageType ∧
    (imp.glob = false ∧ imp.path = Ident.qualified package type ∨
      imp.glob = true ∧ imp.path = package)) ∨
  packageName f.bytes root = package

instance (f : SourceFile) (root : Tree) (package type : String) :
    Decidable (Sees f root package type) :=
  inferInstanceAs (Decidable (_ ∨ _))

def typesOf (f : SourceFile) (root : Tree) : List (String × String) :=
  (fileDeclarations f root).filterMap type?

/-- Neither a type of the file nor an imported one goes by the name of the type of the package. -/
structure Unrivalled (f : SourceFile) (root : Tree) (package type : String) : Prop where
  types : ∀ declared ∈ typesOf f root, declared.1 ≠ type ∧ '.' ∉ declared.1.toList
  imports : ∀ imp ∈ Import.packageImports f.bytes root, imp.kind = .packageType →
    imp.glob = false → Text.lastPiece (· == '.') imp.path = type →
      imp.path = Ident.qualified package type

instance (f : SourceFile) (root : Tree) (package type : String) :
    Decidable (Unrivalled f root package type) :=
  decidable_of_iff
    ((∀ declared ∈ typesOf f root, declared.1 ≠ type ∧ '.' ∉ declared.1.toList) ∧
      ∀ imp ∈ Import.packageImports f.bytes root, imp.kind = .packageType → imp.glob = false →
        Text.lastPiece (· == '.') imp.path = type → imp.path = Ident.qualified package type)
    ⟨fun h => ⟨h.1, h.2⟩, fun h => ⟨h.types, h.imports⟩⟩

theorem Unrivalled.type?_ne {f : SourceFile} {root : Tree} {package type name id : String}
    (h : Unrivalled f root package type) {d : Declaration} (hd : d ∈ fileDeclarations f root)
    (hname : d.type? = some (name, id)) : name ≠ type ∧ '.' ∉ name.toList :=
  h.types (name, id) (List.mem_filterMap.mpr ⟨d, hd, hname⟩)

theorem mem_packageImports {src : Bytes} {root : Tree} {imp : Import}
    (h : imp ∈ Import.packageImports src root) :
    imp.path ≠ "" ∧ (imp.kind = .packageType ∨ imp.kind = .staticMember) ∧
      imp.names = if imp.glob then [] else
        [⟨Text.lastPiece (· == '.') imp.path, Text.lastPiece (· == '.') imp.path⟩] := by
  obtain ⟨t, -, ht⟩ := List.mem_filterMap.mp h
  unfold Import.ofImportDeclaration? at ht
  dsimp only at ht
  split at ht
  case isTrue => cases ht
  case isFalse hpath =>
    cases ht
    refine ⟨by simpa using hpath, ?_, rfl⟩
    dsimp only
    split
    · exact .inr rfl
    · exact .inl rfl

/-- The effect of an import on the scope: none for static members, a namespace for a whole
package, and a name for a single type. -/
theorem scope_addImport (st : State) (imp : Import) :
    (addImport st imp).scope =
      if imp.kind = .staticMember then st.scope
      else if imp.glob then st.scope.addNamespace imp.path
      else { st.scope with
        exact := imp.names.foldl (fun t n => t.bind n.here imp.path) st.scope.exact } := by
  have hexact : ∀ (names : List Import.Name) (sc : NamespaceScope),
      names.foldl (fun sc n => sc.addExact n.here imp.path) sc =
        { sc with exact := names.foldl (fun t n => t.bind n.here imp.path) sc.exact } := by
    intro names
    induction names with
    | nil => exact fun _ => rfl
    | cons n names ih => exact fun sc => ih (sc.addExact n.here imp.path)
  unfold addImport
  split
  case h_1 hkind _ => rw [if_pos hkind]
  case h_2 hkind _ =>
    rw [if_pos hkind]
    split <;> rfl
  case h_3 hglob hkind => rw [if_neg hkind, if_pos hglob]
  case h_4 hglob hkind =>
    rw [if_neg hkind, if_neg (by simp [hglob])]
    exact hexact imp.names st.scope

/-- While a scope is filled, the type has no rival: the name stands for nothing else. -/
structure Undisputed (current full name : String) (sc : NamespaceScope) : Prop where
  current : sc.current = current
  localTypes : sc.localTypes.get? name = none
  exact : ∀ full', sc.exact.get? name = some full' → full' = full

namespace Undisputed

variable {current full name : String} {sc : NamespaceScope}

theorem addNamespace (h : Undisputed current full name sc) (space : String) :
    Undisputed current full name (sc.addNamespace space) := by
  unfold NamespaceScope.addNamespace
  split
  · exact h
  · exact ⟨h.current, h.localTypes, h.exact⟩

theorem addImport {st : State} (h : Undisputed current full name st.scope) {imp : Import}
    (himp : imp.kind ≠ .staticMember → ∀ n ∈ imp.names, n.here = name → imp.path = full) :
    Undisputed current full name (addImport st imp).scope := by
  rw [scope_addImport]
  split_ifs with hkind hglob
  · exact h
  · exact h.addNamespace imp.path
  · refine ⟨h.current, h.localTypes, fun full' hfull => ?_⟩
    rw [Bindings.get?_foldl_bind, Option.or_eq_some_iff] at hfull
    rcases hfull with hfull | ⟨-, hfull⟩
    · exact h.exact full' hfull
    · obtain ⟨n, hn, rfl⟩ := Option.map_eq_some_iff.mp hfull
      exact himp hkind n (List.mem_of_find?_eq_some hn) (by simpa using List.find?_some hn)

theorem addLocalType (h : Undisputed current full name sc) {d : Declaration}
    (hd : ∀ name' id, d.type? = some (name', id) → name' ≠ name) :
    Undisputed current full name (addLocalType sc d) := by
  cases d with
  | type key name' n isInterface =>
      refine ⟨h.current, ?_, h.exact⟩
      have hne : name ≠ name' := (hd name' n.id rfl).symm
      show (sc.localTypes.bind name' n.id).get? name = none
      rw [Bindings.get?_bind, h.localTypes, if_neg hne]
      rfl
  | routine => exact h
  | field => exact h
  | global => exact h

end Undisputed

theorem scope_foldl_addLocalType (ds : List Declaration) (sc : NamespaceScope) :
    (ds.foldl addLocalType sc).exact = sc.exact ∧
      (ds.foldl addLocalType sc).namespaces = sc.namespaces := by
  refine List.foldlRecOn (motive := fun sc' : NamespaceScope =>
    sc'.exact = sc.exact ∧ sc'.namespaces = sc.namespaces) ds addLocalType ⟨rfl, rfl⟩
    fun sc' h d _ => ?_
  cases d <;> exact h

/-- The state after the imports of a file, before its own types come into scope. -/
def importedState (f : SourceFile) (root : Tree) : State :=
  (Import.packageImports f.bytes root).foldl addImport
    ⟨f, NamespaceScope.of (packageName f.bytes root), [], [],
      Outline.ofDeclarations (fileDeclarations f root)⟩

section Scope

variable {f : SourceFile} {root : Tree} {package type : String}

theorem undisputed_initialState (h : Unrivalled f root package type) :
    Undisputed (packageName f.bytes root) (Ident.qualified package type) type
      (initialState f root).scope := by
  have himported : Undisputed (packageName f.bytes root) (Ident.qualified package type) type
      (importedState f root).scope := by
    refine List.foldlRecOn (motive := fun st => Undisputed _ _ type (State.scope st)) _ addImport ?_
      fun st hst imp himp => hst.addImport fun hkind n hn hname => ?_
    · exact ⟨rfl, rfl, fun _ h => by cases h⟩
    · obtain ⟨-, hkinds, hnames⟩ := mem_packageImports himp
      rw [hnames] at hn
      split at hn
      case isTrue => cases hn
      case isFalse hglob =>
        cases List.mem_singleton.mp hn
        exact h.imports imp himp (hkinds.resolve_right hkind) (Bool.eq_false_iff.mpr hglob) hname
  exact List.foldlRecOn (motive := Undisputed _ _ type) _ addLocalType
    (himported.addNamespace "java.lang") fun sc hsc d hd => hsc.addLocalType fun _ _ hname =>
      (h.type?_ne hd hname).1

/-- The scope of the imports is filled up with `java.lang` and the types of the file. -/
theorem scope_initialState (f : SourceFile) (root : Tree) :
    (initialState f root).scope.exact = (importedState f root).scope.exact ∧
      (importedState f root).scope.namespaces ⊆ (initialState f root).scope.namespaces := by
  obtain ⟨hexact, hspaces⟩ := scope_foldl_addLocalType (fileDeclarations f root)
    ((importedState f root).scope.addNamespace "java.lang")
  constructor
  · refine hexact.trans ?_
    unfold NamespaceScope.addNamespace
    split <;> rfl
  · intro space hspace
    have hadded : space ∈ ((importedState f root).scope.addNamespace "java.lang").namespaces :=
      NamespaceScope.mem_namespaces_addNamespace hspace
    exact hspaces ▸ hadded

theorem mem_namespaces_addImport {st : State} {space : String} (h : space ∈ st.scope.namespaces)
    (imp : Import) : space ∈ (addImport st imp).scope.namespaces := by
  rw [scope_addImport]
  split_ifs
  · exact h
  · exact NamespaceScope.mem_namespaces_addNamespace h
  · exact h

theorem exact_addImport_ne_none {st : State} {name : String}
    (h : st.scope.exact.get? name ≠ none) (imp : Import) :
    (addImport st imp).scope.exact.get? name ≠ none := by
  rw [scope_addImport]
  split_ifs
  · exact h
  · unfold NamespaceScope.addNamespace
    split <;> exact h
  · dsimp only
    rw [Bindings.get?_foldl_bind, Ne, Option.or_eq_none_iff]
    exact fun hnone => h hnone.1

/-- The package of a type that the file sees is in scope, or else the type is imported by its
name. -/
theorem namespace_of_sees (hsees : Sees f root package type) (hname : Ident.IsSimple type)
    (hexact : (initialState f root).scope.exact.get? type = none) :
    package ∈ (initialState f root).scope.namespaces ∨ package = packageName f.bytes root := by
  obtain ⟨hsame, hspaces⟩ := scope_initialState f root
  rw [hsame] at hexact
  rcases hsees with ⟨imp, himp, hkind, ⟨hglob, hpath⟩ | ⟨hglob, rfl⟩⟩ | hpackage
  · -- The import binds the last segment of its path, which is the name of the type.
    refine absurd hexact ?_
    refine foldl_of_mem (I := fun _ => True)
      (Q := fun st : State => st.scope.exact.get? type ≠ none) himp trivial
      (fun _ _ _ _ => trivial) (fun st _ => ?_) fun st imp _ h => exact_addImport_ne_none h imp
    have hlast : Text.lastPiece (· == '.') imp.path = type := by
      rw [Text.lastPiece, Text.onChars, hpath]
      exact (congrArg String.ofList (Ident.lastPiece_typeIn hname.dot_not_mem package none)).trans
        String.ofList_toList
    obtain ⟨-, -, hnames⟩ := mem_packageImports himp
    rw [scope_addImport, hkind, hglob, if_neg (by decide), if_neg (by decide), hnames, hglob,
      if_neg (by decide), hlast]
    dsimp only
    rw [Bindings.get?_foldl_bind, List.find?_cons_of_pos (by simp), Ne, Option.or_eq_none_iff]
    exact fun hnone => Option.some_ne_none _ hnone.2
  · refine .inl (hspaces ?_)
    refine foldl_of_mem (I := fun _ => True)
      (Q := fun st : State => imp.path ∈ st.scope.namespaces) himp trivial
      (fun _ _ _ _ => trivial) (fun st _ => ?_) fun st imp _ h => mem_namespaces_addImport h imp
    rw [scope_addImport, hkind, hglob, if_neg (by decide), if_pos rfl]
    exact NamespaceScope.mem_namespaces_addNamespace_self (mem_packageImports himp).1
  · exact .inr hpackage.symm

/-- Every reference to the type has its ID among the candidates. -/
theorem mem_candidates_initialState (hsees : Sees f root package type)
    (hrivals : Unrivalled f root package type) (hname : Ident.IsSimple type) {reference : String}
    (hreference : Ident.RefersTo reference type) :
    Ident.qualified package type ∈ (initialState f root).scope.candidates reference := by
  have hscope := undisputed_initialState hrivals
  refine NamespaceScope.mem_candidates hname hreference hscope.localTypes ?_
  cases hexact : (initialState f root).scope.exact.get? type with
  | some full => exact .inl (by rw [hscope.exact full hexact])
  | none =>
      refine .inr ⟨rfl, package, ?_, rfl⟩
      rw [hscope.current]
      exact namespace_of_sees hsees hname hexact

end Scope

end CodeGraph.Java

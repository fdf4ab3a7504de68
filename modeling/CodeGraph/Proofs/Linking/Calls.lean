import CodeGraph.Proofs.Linking.Packages

/-!
Calls across Java files. While the references of a file are linked, its scope and its members stay
what they are after its imports and declarations are recorded. So what a method or constructor
creates, or calls on a field of the type around it, is linked to the file that defines the type,
wherever in the file the reference stands.
-/

namespace CodeGraph.Java

open CodeGraph.Tree (Site leaf)
open Declaration

/-! ### IDs of declarations -/

section Declared

variable {f : SourceFile} {package owner : String} {t : Tree} {d : Declaration}

theorem field_of_mem_fieldDeclarations (h : d ∈ fieldDeclarations f t owner) :
    ∃ name n typeText, d = .field name n owner typeText ∧ n.id = Ident.member owner name := by
  obtain ⟨declarator, -, h⟩ := List.mem_filterMap.mp h
  obtain ⟨name, -, rfl⟩ := Option.map_eq_some_iff.mp h
  exact ⟨name, _, _, rfl, id_mark ..⟩

theorem field_of_mem_componentDeclarations (h : d ∈ componentDeclarations f t owner) :
    ∃ name n typeText, d = .field name n owner typeText ∧ n.id = Ident.member owner name := by
  unfold componentDeclarations at h
  split at h
  case isFalse => cases h
  case isTrue =>
    split at h
    case h_1 => cases h
    case h_2 =>
      obtain ⟨p, -, h⟩ := List.mem_filterMap.mp h
      split at h
      case h_1 name typeText _ _ =>
        cases h
        exact ⟨name, _, typeText, rfl, rfl⟩
      case h_2 => cases h

namespace Made

theorem member_id (h : Made f package d) {owner name : String}
    (hd : d.member? = some (owner, name)) : d.node.id = Ident.member owner name := by
  cases h with
  | type => cases hd
  | method t owner' name' =>
      cases hd
      rw [methodDeclaration, node, id_mark]
      split <;> rfl
  | field h =>
      obtain ⟨name', n, typeText, rfl, hid⟩ := field_of_mem_fieldDeclarations h
      cases hd
      exact hid
  | component h =>
      obtain ⟨name', n, typeText, rfl, hid⟩ := field_of_mem_componentDeclarations h
      cases hd
      exact hid

theorem type_id (h : Made f package d) {name id : String} (hd : d.type? = some (name, id)) :
    ∃ owner, id = Ident.typeIn package owner name := by
  cases h with
  | type t owner name' =>
      cases hd
      exact ⟨owner, rfl⟩
  | method => cases hd
  | field h =>
      obtain ⟨_, _, _, rfl, -⟩ := field_of_mem_fieldDeclarations h
      cases hd
  | component h =>
      obtain ⟨_, _, _, rfl, -⟩ := field_of_mem_componentDeclarations h
      cases hd

end Made

end Declared

/-! ### While references are linked -/

namespace State

variable (st : State)

theorem visit_eq (s : Site) : st.visit s = { st with outline := (st.visit s).outline } := by
  unfold visit linkInvocation linkCreation linkFieldUse linkSupertypes
  dsimp only
  repeat' split
  all_goals rfl

/-- The second state is the first one with references linked. -/
structure Follows (st st' : State) : Prop where
  rest : st' = { st with outline := st'.outline }
  grown : st.outline.Grown st'.outline

variable {st} {st' : State}

theorem Follows.visit (h : st.Follows st') (s : Site) : st.Follows (st'.visit s) := by
  refine ⟨?_, h.grown.trans (st'.grown_visit s)⟩
  rw [visit_eq, h.rest]

/-- The context of a reference in a routine. -/
theorem Follows.context? (h : st.Follows st') {s callable : Site} {r : Routine}
    (hroutine : st.outline.routineAround? s = some (callable, r)) :
    st'.outline.context? s = some ⟨r.id, r.owner, some callable⟩ := by
  have hsame : st'.outline.routineAround? s = st.outline.routineAround? s := by
    rw [Outline.routineAround?, h.grown.routines]
    rfl
  rw [Outline.context?, hsame, hroutine]

end State

/-- An edge that the visit of a site sets is in the fragment, whatever is linked before and
after it. -/
theorem mem_edges_analyze {f : SourceFile} {root : Tree} {s : Site} {e : Edge} (hs : s ∈ root.sites)
    (h : ∀ st, (initialState f root).Follows st → e ∈ (st.visit s).outline.fragment.edges) :
    e ∈ (analyze f root).edges :=
  foldl_of_mem (I := (initialState f root).Follows)
    (Q := fun st : State => e ∈ st.outline.fragment.edges) hs ⟨rfl, .refl _⟩
    (fun _ s _ hst => hst.visit s) h fun st s _ he => (st.grown_visit s).kept he

/-! ### Members of a type of another file -/

section Foreign

variable {f : SourceFile} {root : Tree} {package type : String} {st : State}

/-- No type of the file has the ID of the type of the other file, so that type has no supertypes
that the file knows of. -/
theorem bases_eq_nil (hrivals : Unrivalled f root package type) (hname : Ident.IsSimple type)
    (h : (initialState f root).Follows st) :
    st.members.bases (Ident.qualified package type) = [] := by
  have hempty : (initialState f root).outline.members.supertypes = [] := by
    rw [outline_initialState, Outline.supertypes_ofDeclarations]
  rw [TypeMembers.bases, List.map_eq_nil_iff, List.filter_eq_nil_iff]
  rintro ⟨id, base⟩ hpair hid
  rw [beq_iff_eq] at hid
  dsimp only at hid
  subst hid
  rcases h.grown.supertypes _ hpair with hpair | ⟨key, hkey⟩
  · rw [hempty] at hpair
    cases hpair
  · rw [outline_initialState] at hkey
    obtain ⟨d, hd, name, hd'⟩ := Outline.types_ofDeclarations hkey
    obtain ⟨owner, hid⟩ := (made_of_mem_declarations root d hd).type_id hd'
    obtain ⟨hne, hdot⟩ := hrivals.type?_ne hd hd'
    have heq : Ident.typeIn _ owner name = Ident.typeIn package none type := hid.symm
    exact hne (Ident.name_eq_of_typeIn_eq hdot hname.dot_not_mem heq)

/-- A member that is called on the type has the ID that its own file gives it. -/
theorem resolveMember_eq (hrivals : Unrivalled f root package type) (hname : Ident.IsSimple type)
    (h : (initialState f root).Follows st) (method : String) :
    st.members.resolveMember (Ident.qualified package type) method =
      Ident.member (Ident.qualified package type) method := by
  have hown : st.members.member? =
      (Outline.ofDeclarations (fileDeclarations f root)).members.member? := by
    funext owner name
    rw [TypeMembers.member?, State.members, h.grown.members, outline_initialState]
    rfl
  unfold TypeMembers.resolveMember
  split
  case h_1 id hid =>
    rw [hown] at hid
    exact Outline.member?_ofDeclarations
      (fun d hd owner name => (made_of_mem_declarations root d hd).member_id) hid
  case h_2 =>
    rw [bases_eq_nil hrivals hname h]
    rfl

end Foreign

/-! ### References to a type of another file -/

structure Creates (f : SourceFile) (s : Site) (type : String) : Prop where
  kind : s.kind = "object_creation_expression"
  type : ∃ reference, s.node.childText? f.bytes "type" = some reference ∧
    Ident.RefersTo reference type

/-- The site in a routine calls the method on a field of the type around the routine. The field is
the first one that is declared there under its name, and no local of the routine hides it. -/
structure CallsOnField (f : SourceFile) (root : Tree) (s callable : Site) (r : Routine)
    (type method : String) : Prop where
  kind : s.kind = "method_invocation"
  name : s.node.childText? f.bytes "name" = some method
  receiver : ∃ receiver owner reference, s.node.child? "object" = some receiver ∧
    receiver.kind = "identifier" ∧ r.owner = some owner ∧
    (fileDeclarations f root).findSome? (fieldType? owner (receiver.text f.bytes)) =
      some reference ∧ Ident.RefersTo reference type ∧
    (localsOf f.bytes callable.node).find? (receiver.text f.bytes) = none

section References

variable {f : SourceFile} {root : Tree} {package type method : String} {s callable : Site}
  {r : Routine} {st : State}

theorem State.Follows.file_eq (h : (initialState f root).Follows st) : st.file = f := by
  rw [h.rest]
  exact file_initialState f root

theorem State.memberCallTargets_of_receiverTypes? {ctx : Outline.Context} {receiver : Tree}
    {types : List String} (h : st.receiverTypes? ctx receiver = some types) (hne : types ≠ []) :
    st.memberCallTargets ctx receiver method = types.map (st.members.resolveMember · method) := by
  rw [memberCallTargets, h]
  split
  case h_1 hnone => cases hnone
  case h_2 hempty =>
    cases hempty
    exact absurd rfl hne
  case h_3 hsome =>
    cases hsome
    rfl

theorem mem_visit_of_creates (hst : (initialState f root).Follows st)
    (hroutine : (initialState f root).outline.routineAround? s = some (callable, r))
    (hcandidates : ∀ reference, Ident.RefersTo reference type →
      Ident.qualified package type ∈ (initialState f root).scope.candidates reference)
    (h : Creates f s type) :
    ⟨r.id, Ident.qualified package type, Relation.calls⟩ ∈
      (st.visit s).outline.fragment.edges := by
  obtain ⟨reference, htext, hreference⟩ := h.type
  have hscope : st.scope = (initialState f root).scope := by rw [hst.rest]
  rw [State.visit, h.kind, if_neg (by decide), if_pos (by decide), State.linkCreation,
    hst.file_eq, htext, hst.context? hroutine]
  refine Outline.mem_edges_link ?_ _
  rw [hscope]
  exact hcandidates reference hreference

theorem mem_visit_of_callsOnField (hst : (initialState f root).Follows st)
    (hroutine : (initialState f root).outline.routineAround? s = some (callable, r))
    (hcandidates : ∀ reference, Ident.RefersTo reference type →
      Ident.qualified package type ∈ (initialState f root).scope.candidates reference)
    (hrivals : Unrivalled f root package type) (hname : Ident.IsSimple type)
    (h : CallsOnField f root s callable r type method) :
    ⟨r.id, Ident.member (Ident.qualified package type) method, Relation.calls⟩ ∈
      (st.visit s).outline.fragment.edges := by
  obtain ⟨receiver, owner, reference, hobject, hkind, howner, hfield, hreference, hlocal⟩ :=
    h.receiver
  have hscope : st.scope = (initialState f root).scope := by rw [hst.rest]
  have hfieldType : st.members.fieldType? owner (receiver.text f.bytes) = some reference := by
    rw [TypeMembers.fieldType?, State.members, hst.grown.fieldTypes, outline_initialState]
    exact (Outline.fieldType?_ofDeclarations _ owner _).trans hfield
  have htypes : st.receiverTypes? ⟨r.id, r.owner, some callable⟩ receiver =
      some ((initialState f root).scope.candidates reference) := by
    rw [State.receiverTypes?, hkind, if_neg (by decide), if_neg (by decide), if_pos (by decide),
      hst.file_eq]
    dsimp only [State.locals]
    rw [hst.file_eq, hlocal, howner, Option.bind_some, hfieldType, hscope]
  have hmem := hcandidates reference hreference
  rw [State.visit, h.kind, if_pos (by decide), State.linkInvocation, hst.file_eq, h.name,
    hst.context? hroutine]
  dsimp only
  rw [hobject]
  refine Outline.mem_edges_link ?_ _
  dsimp only
  rw [State.memberCallTargets_of_receiverTypes? htypes (List.ne_nil_of_mem hmem)]
  exact List.mem_map.mpr ⟨_, hmem, resolveMember_eq hrivals hname hst method⟩

end References

/-- The type at the top of a file and its method have IDs of their own there, and a file that sees
the type links what its routines create and call to these IDs. -/
theorem type_references_link {f g : SourceFile} {root root' t t' : Tree} {type method : String}
    (hdefines : TopMethod g root' t t' type method) (hname : Ident.IsSimple type)
    (hsees : Sees f root (packageName g.bytes root') type)
    (hrivals : Unrivalled f root (packageName g.bytes root') type) :
    let package := packageName g.bytes root'
    let id := Ident.qualified package type
    (typeDeclaration g package t id type ∈ fileDeclarations g root' ∧
        id ∈ (analyze g root').ids) ∧
      (methodDeclaration g t' id method ∈ fileDeclarations g root' ∧
        Ident.member id method ∈ (analyze g root').ids) ∧
      ∀ s ∈ root.sites, ∀ callable r,
        (initialState f root).outline.routineAround? s = some (callable, r) →
          (Creates f s type → ⟨r.id, id, Relation.calls⟩ ∈ (analyze f root).edges) ∧
          (CallsOnField f root s callable r type method →
            ⟨r.id, Ident.member id method, Relation.calls⟩ ∈ (analyze f root).edges) := by
  intro package id
  obtain ⟨htype, hmethod⟩ := hdefines.declared
  have hmethodId : (methodDeclaration g t' id method).node.id = Ident.member id method :=
    (Made.method t' id method : Made g package _).member_id rfl
  have hcandidates : ∀ reference, Ident.RefersTo reference type →
      id ∈ (initialState f root).scope.candidates reference :=
    fun reference => mem_candidates_initialState hsees hrivals hname
  have hids : ∀ d ∈ fileDeclarations g root', d.node.id ∈ (analyze g root').ids := fun d hd =>
    Outline.id_mem_foldl_of_linked State.outline State.linked_visit
      (outline_initialState g root') root'.sites hd
  refine ⟨⟨htype, hids _ htype⟩, ⟨hmethod, hmethodId ▸ hids _ hmethod⟩, ?_⟩
  intro s hs callable r hroutine
  constructor
  · intro hcreates
    exact mem_edges_analyze hs fun st hst => mem_visit_of_creates hst hroutine hcandidates hcreates
  · intro hcalls
    exact mem_edges_analyze hs fun st hst =>
      mem_visit_of_callsOnField hst hroutine hcandidates hrivals hname hcalls

/-! ### Two files -/

namespace Sample

/-- The tree of a field `C f;`. -/
def field (key start : Nat) : Tree :=
  .node { kind := "field_declaration", start, stop := start + 4, key }
    [leaf "type_identifier" "type" (key + 1) start (start + 1),
      .node { kind := "variable_declarator", field := "declarator", start := start + 2,
              stop := start + 3, key := key + 2 }
        [leaf "identifier" "name" (key + 3) (start + 2) (start + 3)]]

/-- The tree of a call `f.m();`. -/
def call (key start : Nat) : Tree :=
  .node { kind := "expression_statement", start, stop := start + 6, key }
    [.node { kind := "method_invocation", start, stop := start + 5, key := key + 1 }
      [leaf "identifier" "object" (key + 2) start (start + 1),
        leaf "identifier" "name" (key + 3) (start + 2) (start + 3),
        leaf "argument_list" "arguments" (key + 4) (start + 3) (start + 5)]]

/-- The tree of a method whose name ends at an offset and that takes and returns nothing. -/
def method (key start nameStop stop : Nat) (body : List Tree) : Tree :=
  .node { kind := "method_declaration", start, stop, key }
    [leaf "void_type" "type" (key + 1) start (start + 4),
      leaf "identifier" "name" (key + 2) (start + 5) nameStop,
      leaf "formal_parameters" "parameters" (key + 3) nameStop (nameStop + 2),
      .node { kind := "block", field := "body", start := nameStop + 3, stop, key := key + 4 } body]

/-- The tree of a file with a class `X` that imports the class. -/
def importing (stop : Nat) (members : List Tree) : Tree :=
  .node { kind := "program", stop }
    [.node { kind := "package_declaration", stop := 10, key := 1 } [leaf "identifier" "" 2 8 9],
      .node { kind := "import_declaration", start := 11, stop := 22, key := 3 }
        [leaf "scoped_identifier" "" 4 18 21],
      .node { kind := "class_declaration", start := 23, stop, key := 5 }
        [leaf "identifier" "name" 6 29 30,
          .node { kind := "class_body", field := "body", start := 31, stop, key := 7 } members]]

def definingFile : SourceFile :=
  ⟨"C.java", Utf8.encode "package p; class C \x7b void m() \x7b\x7d \x7d".toList⟩

def definingMethod : Tree := method 5 21 27 32 []

def definingClass : Tree :=
  .node { kind := "class_declaration", start := 11, stop := 34, key := 2 }
    [leaf "identifier" "name" 3 17 18,
      .node { kind := "class_body", field := "body", start := 19, stop := 34, key := 4 }
        [definingMethod]]

def definingTree : Tree :=
  .node { kind := "program", stop := 34 }
    [.node { kind := "package_declaration", stop := 10, key := 1 } [leaf "identifier" "" 10 8 9],
      definingClass]

theorem topMethod : TopMethod definingFile definingTree definingClass definingMethod "C" "m" where
  top := .child rfl rfl rfl (by simp) .self
  isType := rfl
  typeName := by decide +kernel
  inBody := ⟨_, rfl, definingMethod, List.mem_singleton_self _, .self⟩
  isMethod := rfl
  methodName := by decide +kernel

def file : SourceFile :=
  ⟨"X.java", Utf8.encode ("package q; import p.C; class X \x7b C f; " ++
    "void run() \x7b new C(); f.m(); \x7d \x7d").toList⟩

def tree : Tree :=
  importing 70 [field 10 33, method 20 38 46 68 [
    .node { kind := "expression_statement", start := 51, stop := 59, key := 30 }
      [.node { kind := "object_creation_expression", start := 51, stop := 58, key := 31 }
        [leaf "type_identifier" "type" 32 55 56, leaf "argument_list" "arguments" 33 56 58]],
    call 40 60]]

/-- Searches a tree for a reference of a kind in a routine. -/
theorem exists_reference (o : Outline) (root : Tree) (kind : String)
    (p : Site → Site → Routine → Prop) [∀ s callable r, Decidable (p s callable r)]
    (h : (root.sites.any fun s =>
      s.kind == kind && (o.routineAround? s).any fun x => p s x.1 x.2) = true) :
    ∃ s ∈ root.sites, ∃ callable r, o.routineAround? s = some (callable, r) ∧ s.kind = kind ∧
      p s callable r := by
  obtain ⟨s, hs, h⟩ := List.any_eq_true.mp h
  obtain ⟨hkind, h⟩ := (Bool.and_eq_true _ _).mp h
  obtain ⟨⟨callable, r⟩, hroutine, h⟩ := (Option.any_eq_true _ _).mp h
  exact ⟨s, hs, callable, r, hroutine, beq_iff_eq.mp hkind, of_decide_eq_true h⟩

end Sample

/-- A class that creates an object of an imported class and calls a method on a field. -/
theorem imported_class_references_link :
    "p.C" ∈ (analyze Sample.definingFile Sample.definingTree).ids ∧
      "p.C:m" ∈ (analyze Sample.definingFile Sample.definingTree).ids ∧
      ⟨"q.X:run", "p.C", Relation.calls⟩ ∈ (analyze Sample.file Sample.tree).edges ∧
      ⟨"q.X:run", "p.C:m", Relation.calls⟩ ∈ (analyze Sample.file Sample.tree).edges := by
  have hpackage : packageName Sample.definingFile.bytes Sample.definingTree = "p" := by
    decide +kernel
  have hsees : Sees Sample.file Sample.tree "p" "C" := by decide +kernel
  have hrivals : Unrivalled Sample.file Sample.tree "p" "C" := by decide +kernel
  rw [← hpackage] at hsees hrivals
  obtain ⟨⟨-, htype⟩, ⟨-, hmethod⟩, hlinks⟩ :=
    type_references_link Sample.topMethod (by decide) hsees hrivals
  rw [hpackage] at htype hmethod hlinks
  refine ⟨htype, hmethod, ?_, ?_⟩
  · obtain ⟨s, hs, callable, r, hroutine, hkind, hr, htext⟩ := Sample.exists_reference
      (initialState Sample.file Sample.tree).outline Sample.tree "object_creation_expression"
      (fun s _ r => r.id = "q.X:run" ∧
        s.node.childText? Sample.file.bytes "type" = some "C") (by decide +kernel)
    exact hr ▸ (hlinks s hs callable r hroutine).1 ⟨hkind, "C", htext, .inl rfl⟩
  · obtain ⟨s, hs, callable, r, hroutine, hkind, hr, howner, htext, receiver, hobject, hreceiver,
        hfield, hlocal⟩ := Sample.exists_reference
      (initialState Sample.file Sample.tree).outline Sample.tree "method_invocation"
      (fun s callable r => r.id = "q.X:run" ∧ r.owner = some "q.X" ∧
        s.node.childText? Sample.file.bytes "name" = some "m" ∧
        ∃ receiver ∈ s.node.child? "object", receiver.kind = "identifier" ∧
          (fileDeclarations Sample.file Sample.tree).findSome?
            (fieldType? "q.X" (receiver.text Sample.file.bytes)) = some "C" ∧
          (localsOf Sample.file.bytes callable.node).find? (receiver.text Sample.file.bytes) =
            none) (by decide +kernel)
    exact hr ▸ (hlinks s hs callable r hroutine).2
      ⟨hkind, htext, receiver, "q.X", "C", hobject, hreceiver, howner, hfield, .inl rfl, hlocal⟩

/-- A class whose method makes an anonymous class with a field of the same name, and one whose
method has a local of the same name in a block. -/
def Sample.hidingFiles : List (SourceFile × Tree) :=
  [(⟨"X.java", Utf8.encode ("package q; import p.C; class X \x7b void run() \x7b " ++
        "new Object() \x7b D f; \x7d; f.m(); \x7d C f; \x7d").toList⟩,
      importing 84
        [method 10 33 41 77
          [.node { kind := "expression_statement", start := 46, stop := 68, key := 20 }
            [.node { kind := "object_creation_expression", start := 46, stop := 67, key := 21 }
              [leaf "type_identifier" "type" 22 50 56, leaf "argument_list" "arguments" 23 56 58,
                .node { kind := "class_body", start := 59, stop := 67, key := 24 } [field 30 61]]],
            call 40 69],
          field 50 78]),
    (⟨"X.java", Utf8.encode ("package q; import p.C; class X \x7b C f; void run() \x7b " ++
        "\x7b D f = null; \x7d f.m(); \x7d \x7d").toList⟩,
      importing 77
        [field 10 33,
          method 20 38 46 75
            [.node { kind := "block", start := 51, stop := 66, key := 30 }
              [.node { kind := "local_variable_declaration", start := 53, stop := 64, key := 31 }
                [leaf "type_identifier" "type" 32 53 54,
                  .node { kind := "variable_declarator", field := "declarator", start := 55,
                          stop := 63, key := 33 }
                    [leaf "identifier" "name" 34 55 56, leaf "null_literal" "value" 35 59 63]]],
              call 40 67]])]

/-- The locals that are declared by the nodes around a site or next to them. -/
def localsAround (src : Bytes) (s : Site) : Locals :=
  s.above.flatMap fun t => localsOfNode src t ++ t.children.flatMap (localsOfNode src)

/-- By the scopes of the language, the site calls the method on a field: the innermost body around
it declares a field of that name, and no local in scope has the name. -/
def CallsOwnField (f : SourceFile) (s : Site) (owner type method : String) : Prop :=
  s.node.childText? f.bytes "name" = some method ∧
    ∃ receiver ∈ s.node.child? "object", receiver.kind = "identifier" ∧
      (localsAround f.bytes s).find? (receiver.text f.bytes) = none ∧
      ∃ body ∈ s.above.find? (·.kind == "class_body"), ∃ t ∈ body.children,
        fieldKinds.contains t.kind = true ∧
          (fieldDeclarations f t owner).findSome? (fieldType? owner (receiver.text f.bytes)) =
            some type

instance (f : SourceFile) (s : Site) (owner type method : String) :
    Decidable (CallsOwnField f s owner type method) :=
  inferInstanceAs (Decidable (_ ∧ _))

/-- Calls on fields by the scopes of the language that are linked elsewhere: a field of an
anonymous class counts as one of the class around it, and a local of a block as one of the whole
method. -/
theorem field_calls_not_linked :
    TopMethod Sample.definingFile Sample.definingTree Sample.definingClass Sample.definingMethod
        "C" "m" ∧
      packageName Sample.definingFile.bytes Sample.definingTree = "p" ∧
      ∀ x ∈ Sample.hidingFiles,
        Sees x.1 x.2 "p" "C" ∧ Unrivalled x.1 x.2 "p" "C" ∧
          (∃ s ∈ x.2.sites, ∃ callable r,
            (initialState x.1 x.2).outline.routineAround? s = some (callable, r) ∧
              s.kind = "method_invocation" ∧ r = ⟨"q.X:run", some "q.X"⟩ ∧
              CallsOwnField x.1 s "q.X" "C" "m") ∧
          ⟨"q.X:run", "p.C:m", Relation.calls⟩ ∉ (analyze x.1 x.2).edges := by
  have hscope : ∀ x ∈ Sample.hidingFiles, Sees x.1 x.2 "p" "C" ∧ Unrivalled x.1 x.2 "p" "C" := by
    decide +kernel
  have hmissing : ∀ x ∈ Sample.hidingFiles,
      ⟨"q.X:run", "p.C:m", Relation.calls⟩ ∉ (analyze x.1 x.2).edges := by
    decide +kernel
  have hcall : ∀ x ∈ Sample.hidingFiles, (x.2.sites.any fun s => s.kind == "method_invocation" &&
      ((initialState x.1 x.2).outline.routineAround? s).any fun y =>
        y.2 = ⟨"q.X:run", some "q.X"⟩ ∧ CallsOwnField x.1 s "q.X" "C" "m") = true := by
    decide +kernel
  refine ⟨Sample.topMethod, by decide +kernel, fun x hx => ?_⟩
  exact ⟨(hscope x hx).1, (hscope x hx).2, Sample.exists_reference _ _ _ (fun s _ r =>
    r = ⟨"q.X:run", some "q.X"⟩ ∧ CallsOwnField x.1 s "q.X" "C" "m") (hcall x hx), hmissing x hx⟩

end CodeGraph.Java

import CodeGraph.Proofs.Linking.Calls
import CodeGraph.Proofs.Linking.Linkers
import CodeGraph.Registry

/-!
Calls of inherited members in Java, C# and TypeScript. All three link references in one walk over
the tree that records the supertypes of a type when it comes to the declaration of the type. A call
that stands before the declaration does not see them.
-/

namespace CodeGraph

open CodeGraph.Tree (Site leaf)
open Declaration

/-! ### Java -/

namespace Java

namespace State

variable (st : State)

/-- The supertypes that a type declaration lists. -/
def listed (s : Site) : List String :=
  (st.supertypes s.node).map (·.2)

/-- The types that the receiver of a call may have, and the name of the called method. -/
def called? (ctx : Outline.Context) (s : Site) : Option (List String × String) :=
  if s.kind = "method_invocation" then do
    let name ← s.node.childText? st.file.bytes "name"
    let receiver ← s.node.child? "object"
    let types ← st.receiverTypes? ctx receiver
    return (types, name)
  else none

theorem listed_visit (s : Site) : (st.visit s).listed = st.listed := by
  rw [visit_eq]
  rfl

theorem members_linkSupertypes (s : Site) :
    (st.linkSupertypes s.node).outline.members =
      st.outline.members.inherit (st.outline.heritage s (st.listed s)) := by
  cases htype : st.outline.types.get? s.node.key with
  | none =>
      rw [linkSupertypes, Outline.heritage, htype]
      rfl
  | some type =>
      rw [linkSupertypes, Outline.heritage, htype]
      dsimp only
      rw [listed, List.map_map]
      exact Outline.members_foldl_addBase Prod.fst Prod.snd type _ st.outline

theorem members_visit (s : Site) :
    (st.visit s).outline.members = st.outline.members.inherit
      (if typeKinds.contains s.kind then st.outline.heritage s (st.listed s) else []) := by
  have hkinds : ∀ kind ∈ typeKinds, kind ≠ "method_invocation" ∧
      kind ≠ "object_creation_expression" ∧ kind ≠ "identifier" := by
    decide
  by_cases htype : typeKinds.contains s.kind = true
  · obtain ⟨hcall, hnew, hident⟩ := hkinds s.kind (List.contains_iff_mem.mp htype)
    rw [visit, if_neg (by simpa using hcall), if_neg (by simpa using hnew),
      if_neg (by simpa using hident), if_pos htype, if_pos htype]
    exact st.members_linkSupertypes s
  · rw [visit, if_neg htype, if_neg htype, TypeMembers.inherit_nil]
    split_ifs
    · unfold linkInvocation
      split <;> dsimp only [link, Outline.link]
    · unfold linkCreation
      split <;> dsimp only [link, Outline.link]
    · unfold linkFieldUse
      dsimp only
      repeat' split
      · rfl
      · rfl
      · rfl
      · exact Outline.members_linkFieldUse ..
    · rfl

theorem visit_call {ctx : Outline.Context} {s : Site} {types : List String} {name : String}
    (hctx : st.outline.context? s = some ctx) (hcalled : st.called? ctx s = some (types, name))
    (hne : types ≠ []) :
    (st.visit s).outline = st.outline.link ctx.source
      (types.map (st.outline.members.resolveMember · name)) Relation.calls := by
  simp only [called?, Option.bind_eq_bind, Option.ite_none_right_eq_some,
    Option.bind_eq_some_iff] at hcalled
  obtain ⟨hkind, name', hname, receiver, hobject, types', htypes, heq⟩ := hcalled
  cases heq
  rw [visit, hkind, if_pos (by decide), linkInvocation, hname, hctx]
  dsimp only
  rw [hobject]
  dsimp only
  rw [memberCallTargets_of_receiverTypes? htypes hne]
  rfl

end State

abbrev linker : Linker where
  State := State
  declarations := fileDeclarations
  initialState := initialState
  file := State.file
  outline := State.outline
  visit := State.visit
  listed := State.listed
  records := fun s => typeKinds.contains s.kind
  called? := State.called?
  file_initialState := file_initialState
  outline_initialState := outline_initialState
  member_id := fun _ root d hd _ _ => (made_of_mem_declarations root d hd).member_id
  file_visit := fun st _ => by rw [st.visit_eq]
  grown_visit := State.grown_visit
  listed_visit := State.listed_visit
  members_visit := State.members_visit
  visit_call := fun st _ _ _ _ => st.visit_call

end Java

/-! ### C# -/

namespace CSharp

theorem Made.member_id {f : SourceFile} {d : Declaration} (h : Made f d) {owner name : String}
    (hd : d.member? = some (owner, name)) : d.node.id = Ident.member owner name := by
  cases h with
  | type => cases hd
  | routine t owner' name' =>
      cases owner' with
      | none => cases hd
      | some owner' =>
          cases hd
          rw [routineDeclaration, node, id_mark]
          split <;> rfl
  | @field t owner' d h =>
      unfold fieldDeclarations at h
      split at h
      case h_1 => cases h
      case h_2 =>
        obtain ⟨declarator, -, h⟩ := List.mem_filterMap.mp h
        obtain ⟨name', -, rfl⟩ := Option.map_eq_some_iff.mp h
        cases hd
        exact id_mark ..
  | @property t owner' isStatic d h =>
      unfold propertyDeclaration? at h
      split at h
      case h_1 =>
        cases h
        cases hd
        exact id_mark ..
      case h_2 => cases h

namespace State

variable (st : State)

def listed (s : Site) : List String :=
  match s.node.childOfKind? ["base_list"] with
  | none => []
  | some list => (baseTexts st.file.bytes list).flatMap (st.scope.candidatesIn (st.spaceAt s))

def called? (ctx : Outline.Context) (s : Site) : Option (List String × String) :=
  if s.kind = "invocation_expression" then do
    let access ← (s.node.child? "function").filter (·.kind == "member_access_expression")
    let nameNode ← access.child? "name"
    let receiver ← access.child? "expression"
    let types ← st.receiverTypes? ctx (st.spaceAt s) receiver
    return (types, simpleName st.file.bytes nameNode)
  else none

theorem linkBases_eq (s : Site) :
    st.linkBases s = { st with outline := (st.linkBases s).outline } := by
  unfold linkBases
  split
  case h_1 =>
    refine List.foldlRecOn (motive := fun st' : State => st' = { st with outline := st'.outline })
      _ _ rfl ?_
    intro st' h _ _
    dsimp only [addBases]
    rw [h]
  case h_2 => rfl

theorem visit_eq (s : Site) : st.visit s = { st with outline := (st.visit s).outline } := by
  unfold visit
  split_ifs
  · unfold linkInvocation
    split <;> rfl
  · unfold linkCreation
    split <;> rfl
  · unfold linkFieldUse
    dsimp only
    repeat' split
    all_goals rfl
  · exact st.linkBases_eq s
  · rfl

theorem listed_visit (s : Site) : (st.visit s).listed = st.listed := by
  rw [visit_eq]
  rfl

theorem members_foldl_addBases (space type : String) (ofInterface : Bool)
    (texts : List (String × Nat)) :
    (texts.foldl (fun st (text, i) => st.addBases space type ofInterface (i == 0) text)
        st).outline.members =
      st.outline.members.inherit
        ((texts.flatMap fun x => st.scope.candidatesIn space x.1).map (type, ·)) := by
  induction texts generalizing st with
  | nil => rfl
  | cons x texts ih =>
      have hscope : (st.addBases space type ofInterface (x.2 == 0) x.1).scope = st.scope := by
        dsimp only [addBases]
      have hbases : (st.addBases space type ofInterface (x.2 == 0) x.1).outline.members =
          st.outline.members.inherit ((st.scope.candidatesIn space x.1).map (type, ·)) := by
        dsimp only [addBases]
        exact Outline.members_foldl_addBase (fun _ => _) (fun base => base) type _ st.outline
      rw [List.foldl_cons, ih, hscope, hbases, List.flatMap_cons, List.map_append,
        TypeMembers.inherit_append]

theorem members_linkBases (s : Site) :
    (st.linkBases s).outline.members =
      st.outline.members.inherit (st.outline.heritage s (st.listed s)) := by
  cases htype : st.outline.types.get? s.node.key with
  | none =>
      rw [linkBases, Outline.heritage, htype]
      rfl
  | some type =>
      cases hlist : s.node.childOfKind? ["base_list"] with
      | none =>
          rw [linkBases, Outline.heritage, listed, htype, hlist]
          rfl
      | some list =>
          rw [linkBases, Outline.heritage, listed, htype, hlist]
          dsimp only
          rw [members_foldl_addBases, ← List.flatMap_map Prod.fst, List.zipIdx_map_fst]

theorem members_visit (s : Site) :
    (st.visit s).outline.members = st.outline.members.inherit
      (if typeKinds.contains s.kind && s.kind != "enum_declaration" then
        st.outline.heritage s (st.listed s) else []) := by
  have hkinds : ∀ kind ∈ typeKinds, kind ≠ "invocation_expression" ∧
      kind ≠ "object_creation_expression" ∧ kind ≠ "identifier" := by
    decide
  by_cases htype : (typeKinds.contains s.kind && s.kind != "enum_declaration") = true
  · obtain ⟨hcall, hnew, hident⟩ :=
      hkinds s.kind (List.contains_iff_mem.mp ((Bool.and_eq_true _ _).mp htype).1)
    rw [visit, if_neg (by simpa using hcall), if_neg (by simpa using hnew),
      if_neg (by simpa using hident), if_pos htype, if_pos htype]
    exact st.members_linkBases s
  · rw [visit, if_neg htype, if_neg htype, TypeMembers.inherit_nil]
    split_ifs
    · unfold linkInvocation
      split <;> dsimp only [link, Outline.link]
    · unfold linkCreation
      split <;> dsimp only [link, Outline.link]
    · unfold linkFieldUse
      dsimp only
      repeat' split
      · rfl
      · rfl
      · rfl
      · exact Outline.members_linkFieldUse ..
    · rfl

theorem visit_call {ctx : Outline.Context} {s : Site} {types : List String} {name : String}
    (hctx : st.outline.context? s = some ctx) (hcalled : st.called? ctx s = some (types, name))
    (hne : types ≠ []) :
    (st.visit s).outline = st.outline.link ctx.source
      (types.map (st.outline.members.resolveMember · name)) Relation.calls := by
  simp only [called?, Option.bind_eq_bind, Option.ite_none_right_eq_some,
    Option.bind_eq_some_iff, Option.filter_eq_some_iff] at hcalled
  obtain ⟨hkind, access, ⟨hcallee, haccess⟩, nameNode, hname, receiver, hreceiver, types', htypes,
    heq⟩ := hcalled
  cases heq
  have htargets : st.callTargets ctx (st.spaceAt s) access =
      types.map (st.members.resolveMember · (simpleName st.file.bytes nameNode)) := by
    rw [callTargets, Tree.isKind, beq_iff_eq.mp haccess, if_neg (by decide), if_pos (by decide),
      memberCallTargets, hname, hreceiver, Option.bind_some, htypes]
    cases types with
    | nil => exact absurd rfl hne
    | cons => rfl
  rw [visit, hkind, if_pos (by decide), linkInvocation, hcallee, hctx]
  dsimp only
  rw [htargets]
  rfl

end State

/-- The references of a C# file; an enum has no bases. -/
abbrev linker : Linker where
  State := State
  declarations := fun f root => declarations f (fileNamespace f.bytes root) [] none root
  initialState := initialState
  file := State.file
  outline := State.outline
  visit := State.visit
  listed := State.listed
  records := fun s => typeKinds.contains s.kind && s.kind != "enum_declaration"
  called? := State.called?
  file_initialState := file_initialState
  outline_initialState := outline_initialState
  member_id := fun _ root d hd _ _ => (made_of_mem_declarations root d hd).member_id
  file_visit := fun st _ => by rw [st.visit_eq]
  grown_visit := State.grown_visit
  listed_visit := State.listed_visit
  members_visit := State.members_visit
  visit_call := fun st _ _ _ _ => st.visit_call

end CSharp

/-! ### TypeScript -/

namespace TypeScript

theorem Made.member_id {f : SourceFile} {d : Declaration} (h : Made f d) {owner name : String}
    (hd : d.member? = some (owner, name)) : d.node.id = Ident.member owner name := by
  cases h with
  | class_ => cases hd
  | interface => cases hd
  | function => cases hd
  | method t owner' name' =>
      cases hd
      exact id_mark ..
  | field t owner' name' =>
      cases hd
      rfl
  | @declarator above t d h =>
      unfold variableDeclaration? at h
      dsimp only at h
      repeat' split at h
      all_goals cases h
      all_goals cases hd

namespace State

variable (st : State)

def listed (s : Site) : List String :=
  if s.kind == "interface_declaration" then st.interfaceBases s.node
  else
    match s.node.childOfKind? ["class_heritage"] with
    | none => []
    | some heritage => (st.classBases heritage).map (·.2)

/-- The type that a name stands for as a receiver, unless it is a whole module or a local without
a type. -/
def nameType? (ctx : Outline.Context) (name : String) : Option String :=
  match st.modules.lookup name with
  | some _ => none
  | none =>
      match (st.locals ctx).find? name with
      | some declared => declared.map st.resolveType
      | none => some (st.resolveName name)

def objectType? (ctx : Outline.Context) (object : Tree) : Option String :=
  let src := st.file.bytes
  if object.kind == "this" then ctx.owner
  else if object.kind == "super" then ((ctx.owner.map st.members.bases).getD []).head?
  else if object.kind == "identifier" then st.nameType? ctx (object.text src)
  else if object.kind == "member_expression" then do
    let inner ← object.child? "object"
    let field ← object.childText? src "property"
    (st.fieldTypeOfThis? ctx inner field).map st.resolveType
  else none

def called? (ctx : Outline.Context) (s : Site) : Option (List String × String) :=
  if s.kind = "call_expression" then do
    let access ← (s.node.child? "function").filter (·.kind == "member_expression")
    let name ← access.childText? st.file.bytes "property"
    let object ← access.child? "object"
    let type ← st.objectType? ctx object
    return ([type], name)
  else none

theorem visit_eq (s : Site) : st.visit s = { st with outline := (st.visit s).outline } := by
  unfold visit linkClass linkInterface linkCall linkNew linkFieldUse
  dsimp only
  repeat' split
  all_goals rfl

theorem listed_visit (s : Site) : (st.visit s).listed = st.listed := by
  rw [visit_eq]
  rfl

theorem members_linkClass {s : Site} (hkind : classKinds.contains s.kind = true) :
    (st.linkClass s.node).outline.members =
      st.outline.members.inherit (st.outline.heritage s (st.listed s)) := by
  have hkinds : ∀ kind ∈ classKinds, ¬(kind == "interface_declaration") = true := by decide
  have hclass := hkinds s.kind (List.contains_iff_mem.mp hkind)
  cases htype : st.outline.types.get? s.node.key with
  | none =>
      rw [linkClass, Outline.heritage, htype]
      rfl
  | some type =>
      cases hheritage : s.node.childOfKind? ["class_heritage"] with
      | none =>
          rw [linkClass, Outline.heritage, listed, if_neg hclass, htype, hheritage]
          rfl
      | some heritage =>
          rw [linkClass, Outline.heritage, listed, if_neg hclass, htype, hheritage]
          dsimp only
          rw [List.map_map]
          exact Outline.members_foldl_addBase Prod.fst Prod.snd type _ st.outline

theorem members_visit (s : Site) :
    (st.visit s).outline.members = st.outline.members.inherit
      (if classKinds.contains s.kind then st.outline.heritage s (st.listed s) else []) := by
  by_cases hclass : classKinds.contains s.kind = true
  · rw [visit, if_pos hclass, if_pos hclass]
    exact st.members_linkClass hclass
  · rw [visit, if_neg hclass, if_neg hclass, TypeMembers.inherit_nil]
    split_ifs
    · unfold linkInterface
      split <;> dsimp only [link, Outline.link]
    · unfold linkCall
      split <;> dsimp only [link, Outline.link]
    · unfold linkNew
      split <;> dsimp only [link, Outline.link]
    · unfold linkFieldUse
      split
      · rfl
      · split
        · exact Outline.members_linkField ..
        · rfl
    · rfl

theorem memberOfName_of_nameType? {ctx : Outline.Context} {object type : String}
    (h : st.nameType? ctx object = some type) (name : String) :
    st.memberOfName ctx object name = st.members.resolveMember type name := by
  unfold nameType? at h
  unfold memberOfName
  cases hmodule : st.modules.lookup object with
  | some module =>
      rw [hmodule] at h
      cases h
  | none =>
      rw [hmodule] at h
      dsimp only at h ⊢
      cases hlocal : (st.locals ctx).find? object with
      | some declared =>
          rw [hlocal] at h
          obtain ⟨typeText, rfl, rfl⟩ := Option.map_eq_some_iff.mp h
          rfl
      | none =>
          rw [hlocal] at h
          cases h
          rfl

theorem accessTarget?_of_objectType? {ctx : Outline.Context} {access object : Tree}
    {name type : String} (hname : access.childText? st.file.bytes "property" = some name)
    (hobject : access.child? "object" = some object) (h : st.objectType? ctx object = some type) :
    st.accessTarget? ctx access = some (st.members.resolveMember type name) := by
  unfold accessTarget?
  dsimp only
  rw [hname, hobject]
  unfold objectType? at h
  dsimp only at h ⊢
  split_ifs at h ⊢
  · rw [h]
  · cases hbases : (ctx.owner.map st.members.bases).getD [] with
    | nil => simp [hbases] at h
    | cons base bases =>
        rw [hbases] at h
        cases h
        rfl
  · rw [st.memberOfName_of_nameType? h]
  · simp only [Option.bind_eq_bind, Option.bind_eq_some_iff, Option.map_eq_some_iff] at h
    obtain ⟨inner, hinner, field, hfield, typeText, htype, rfl⟩ := h
    rw [hinner, hfield]
    dsimp only
    rw [htype]
    rfl

theorem visit_call {ctx : Outline.Context} {s : Site} {types : List String} {name : String}
    (hctx : st.outline.context? s = some ctx)
    (hcalled : st.called? ctx s = some (types, name)) :
    (st.visit s).outline = st.outline.link ctx.source
      (types.map (st.outline.members.resolveMember · name)) Relation.calls := by
  simp only [called?, Option.bind_eq_bind, Option.ite_none_right_eq_some,
    Option.bind_eq_some_iff, Option.filter_eq_some_iff] at hcalled
  obtain ⟨hkind, access, ⟨hcallee, haccess⟩, name', hname, object, hobject, type, htype, heq⟩ :=
    hcalled
  cases heq
  have htarget : st.callTarget? ctx access = some (st.members.resolveMember type name) := by
    rw [callTarget?, beq_iff_eq.mp haccess, if_neg (by decide), if_pos (by decide)]
    exact st.accessTarget?_of_objectType? hname hobject htype
  rw [visit, hkind, if_neg (by decide), if_neg (by decide), if_pos (by decide), linkCall, hcallee,
    hctx]
  dsimp only
  rw [htarget]
  rfl

end State

/-- The references of a TypeScript module; the bases of an interface are linked and not recorded. -/
abbrev linker : Linker where
  State := State
  declarations := fun f root => declarations f [] none root
  initialState := initialState
  file := State.file
  outline := State.outline
  visit := State.visit
  listed := State.listed
  records := fun s => classKinds.contains s.kind
  called? := State.called?
  file_initialState := file_initialState
  outline_initialState := outline_initialState
  member_id := fun _ root d hd _ _ => (made_of_mem_declarations root d hd).member_id
  file_visit := fun st _ => by rw [st.visit_eq]
  grown_visit := State.grown_visit
  listed_visit := State.listed_visit
  members_visit := State.members_visit
  visit_call := fun st _ _ _ _ hctx hcalled _ => st.visit_call hctx hcalled

end TypeScript

/-! ### Calls of inherited members -/

namespace Linker

/-- The linker of a language whose references are linked in one walk. -/
def ofLanguage? : Language → Option Linker
  | .java => some Java.linker
  | .csharp => some CSharp.linker
  | .typescript | .tsx => some TypeScript.linker
  | _ => none

theorem analyze_eq {lang : Language} {L : Linker} (hL : ofLanguage? lang = some L) (f : SourceFile)
    (root : Tree) : (Analyzer.ofLanguage lang).analyze f (some root) = .ok (L.analyze f root) := by
  cases lang with
  | java | csharp | typescript | tsx =>
      cases hL
      rfl
  | cpp | sql | vbnet | asp => cases hL

/-- A call in a routine is linked to one member for each type that its receiver may have. For a
type of the file that inherits the member, this is the member of the base exactly if the
declaration of the type stands before the call and its supertypes are recorded; else it is a member
that the type does not declare. -/
theorem inherited_call_linked_by_order {lang : Language} {L : Linker}
    (hL : ofLanguage? lang = some L) {f : SourceFile} {root : Tree}
    (hkeys : (root.sites.map (·.node.key)).Nodup) (hids : (L.typeIds f root).Nodup) {n k : Nat}
    {r : Routine} {types : List String} {type base name : String}
    (hcall : L.callAt? f root n = some (r, types, name))
    (htype : type ∈ types) (hinherits : L.Inherits f root k type base name) :
    let target := if k < n ∧ L.recordsAt root k = true then Ident.member base name
      else Ident.member type name
    (L.membersAt f root n).resolveMember type name = target ∧
      L.outline (L.stateAt f root (n + 1)) = (L.outline (L.stateAt f root n)).link r.id
        (types.map ((L.membersAt f root n).resolveMember · name)) Relation.calls ∧
      Ident.member base name ≠ Ident.member type name ∧
      ∃ g, (Analyzer.ofLanguage lang).analyze f (some root) = .ok g ∧
        Ident.member base name ∈ g.ids ∧ ⟨r.id, target, Relation.calls⟩ ∈ g.edges := by
  intro target
  have hresolve : (L.membersAt f root n).resolveMember type name = target :=
    resolveMember_membersAt hkeys hids hinherits n
  have hlink := outline_stateAt_succ hcall (List.ne_nil_of_mem htype)
  have hbase : L.Declares f root base name := by simpa using List.find?_some hinherits.first
  refine ⟨hresolve, hlink, ?_, L.analyze f root, analyze_eq hL f root, ?_, ?_⟩
  · intro heq
    rw [Ident.member, Ident.member, String.append_left_inj, String.append_left_inj] at heq
    exact hinherits.own (heq ▸ hbase)
  · obtain ⟨d, hd, hmember⟩ := hbase
    rw [← L.member_id f root d hd base name hmember]
    exact Outline.id_mem_foldl_of_linked L.outline (fun st s => (L.grown_visit st s).toLinked)
      (L.outline_initialState f root) root.sites hd
  · refine edges_stateAt_subset (n + 1) ?_
    rw [hlink]
    exact Outline.mem_edges_link (List.mem_map.mpr ⟨type, htype, hresolve⟩) _

end Linker

namespace Java

namespace Sample

/-- The tree of a class `T extends B` with an empty body. -/
def derivedClass (key start : Nat) : Tree :=
  .node { kind := "class_declaration", start, stop := start + 20, key }
    [leaf "identifier" "name" (key + 1) (start + 6) (start + 7),
      .node { kind := "superclass", field := "superclass", start := start + 8, stop := start + 17,
              key := key + 2 }
        [leaf "type_identifier" "" (key + 3) (start + 16) (start + 17)],
      leaf "class_body" "body" (key + 4) (start + 18) (start + 20)]

/-- The tree of a class `B` with a method `m`. -/
def baseClass (key start : Nat) : Tree :=
  .node { kind := "class_declaration", start, stop := start + 23, key }
    [leaf "identifier" "name" (key + 1) (start + 6) (start + 7),
      .node { kind := "class_body", field := "body", start := start + 8, stop := start + 23,
              key := key + 2 }
        [method (key + 3) (start + 10) (start + 16) (start + 21) []]]

/-- The tree of a class `A` with a field `T x` and a method that calls `x.m()`. -/
def callingClass (key start : Nat) : Tree :=
  .node { kind := "class_declaration", start, stop := start + 38, key }
    [leaf "identifier" "name" (key + 1) (start + 6) (start + 7),
      .node { kind := "class_body", field := "body", start := start + 8, stop := start + 38,
              key := key + 2 }
        [field (key + 3) (start + 10),
          method (key + 7) (start + 15) (start + 23) (start + 36) [call (key + 12) (start + 28)]]]

def derivedText : String := "class T extends B \x7b\x7d "

def baseText : String := "class B \x7b void m() \x7b\x7d \x7d "

def callingText : String := "class A \x7b T x; void run() \x7b x.m(); \x7d \x7d "

def callLast : SourceFile × Tree :=
  (⟨"A.java", Utf8.encode (derivedText ++ baseText ++ callingText).toList⟩,
    .node { kind := "program", stop := 84 } [derivedClass 1 0, baseClass 6 21, callingClass 14 45])

def callFirst : SourceFile × Tree :=
  (⟨"A.java", Utf8.encode (callingText ++ derivedText ++ baseText).toList⟩,
    .node { kind := "program", stop := 84 } [callingClass 1 0, derivedClass 18 39, baseClass 23 60])

end Sample

/-- A call behind the declaration of its type is linked to the inherited method. -/
theorem call_behind_declaration_linked :
    (linker.callAt? Sample.callLast.1 Sample.callLast.2 27 =
        some (⟨"A:run", some "A"⟩, ["T"], "m") ∧
      linker.Inherits Sample.callLast.1 Sample.callLast.2 1 "T" "B" "m") ∧
      ∃ g, (Analyzer.ofLanguage .java).analyze Sample.callLast.1 (some Sample.callLast.2) = .ok g ∧
        "B:m" ∈ g.ids ∧ ⟨"A:run", "B:m", Relation.calls⟩ ∈ g.edges := by
  have hcall : linker.callAt? Sample.callLast.1 Sample.callLast.2 27 =
      some (⟨"A:run", some "A"⟩, ["T"], "m") := by
    decide +kernel
  have hinherits : linker.Inherits Sample.callLast.1 Sample.callLast.2 1 "T" "B" "m" :=
    ⟨by decide +kernel, by decide +kernel, by decide +kernel⟩
  obtain ⟨-, -, -, hlinked⟩ := Linker.inherited_call_linked_by_order
    (rfl : Linker.ofLanguage? .java = some linker) (by decide +kernel) (by decide +kernel) hcall
    (List.mem_singleton_self _) hinherits
  exact ⟨⟨hcall, hinherits⟩, hlinked⟩

/-- A call before the declaration of its type is not linked to the inherited method. -/
theorem call_before_declaration_not_linked :
    (Sample.callFirst.2.sites.map (·.node.key)).Nodup ∧
      (linker.typeIds Sample.callFirst.1 Sample.callFirst.2).Nodup ∧
      linker.callAt? Sample.callFirst.1 Sample.callFirst.2 14 =
        some (⟨"A:run", some "A"⟩, ["T"], "m") ∧
      linker.Inherits Sample.callFirst.1 Sample.callFirst.2 18 "T" "B" "m" ∧
      ⟨"A:run", "B:m", Relation.calls⟩ ∉ (analyze Sample.callFirst.1 Sample.callFirst.2).edges := by
  refine ⟨by decide +kernel, by decide +kernel, by decide +kernel, ?_, by decide +kernel⟩
  exact ⟨by decide +kernel, by decide +kernel, by decide +kernel⟩

end Java

end CodeGraph

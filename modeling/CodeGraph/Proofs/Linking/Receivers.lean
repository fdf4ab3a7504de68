import CodeGraph.Proofs.Linking.Additions
import CodeGraph.Proofs.Linking.InnerFunctions
import CodeGraph.Proofs.Linking.Invocations

/-!
The calls of a Java file and the receivers on which they are made. The calls of a file are those of
its invocations and of the objects that it creates. A receiver that is a plain name is looked up in
the innermost routine around the call, in the fields of the type of this routine, and then as a
type; a local that a routine further out declares is not seen.
-/

namespace CodeGraph.Java

open CodeGraph.Tree (Site leaf)

/-! ### All calls of a file -/

namespace State

variable (st : State) (s : Site)

def targets (ctx : Outline.Context) : List String :=
  if s.kind == "method_invocation" then
    match s.node.childText? st.file.bytes "name", s.node.child? "object" with
    | some name, none => st.plainCallTargets ctx.owner name
    | some name, some receiver => st.memberCallTargets ctx receiver name
    | none, _ => []
  else if s.kind == "object_creation_expression" then
    match s.node.childText? st.file.bytes "type" with
    | some typeText => st.scope.candidates typeText
    | none => []
  else []

def calls : List Edge :=
  match st.outline.context? s with
  | some ctx => (st.targets s ctx).map fun target => ⟨ctx.source, target, Relation.calls⟩
  | none => []

/-- What a call is linked to. -/
theorem outline_visit_of_call {s : Site}
    (hkind : s.kind = "method_invocation" ∨ s.kind = "object_creation_expression") :
    (st.visit s).outline =
      match st.outline.context? s with
      | some ctx => st.outline.link ctx.source (st.targets s ctx) Relation.calls
      | none => st.outline := by
  rcases hkind with hkind | hkind
  · rw [visit, hkind, if_pos (by decide), linkInvocation]
    cases st.outline.context? s with
    | none => cases s.node.childText? st.file.bytes "name" <;> rfl
    | some ctx =>
        dsimp only
        rw [targets, hkind, if_pos (by decide)]
        cases s.node.childText? st.file.bytes "name" with
        | none => rfl
        | some name => cases s.node.child? "object" <;> rfl
  · rw [visit, hkind, if_neg (by decide), if_pos (by decide), linkCreation]
    cases st.outline.context? s with
    | none => cases s.node.childText? st.file.bytes "type" <;> rfl
    | some ctx =>
        dsimp only
        rw [targets, hkind, if_neg (by decide), if_pos (by decide)]
        cases s.node.childText? st.file.bytes "type" <;> rfl

theorem calls_eq_nil {s : Site} (hcall : s.kind ≠ "method_invocation")
    (hnew : s.kind ≠ "object_creation_expression") : st.calls s = [] := by
  have htargets (ctx : Outline.Context) : st.targets s ctx = [] := by
    rw [targets, if_neg (by simpa using hcall), if_neg (by simpa using hnew)]
  unfold calls
  split
  · rw [htargets, List.map_nil]
  · rfl

theorem mem_calls_linkSupertypes_iff {e : Edge} (he : e.relation = Relation.calls) (t : Tree) :
    e ∈ (st.linkSupertypes t).outline.fragment.edges ↔ e ∈ st.outline.fragment.edges := by
  have hsupertyping : ∀ relation ∈ Relation.supertyping, Relation.calls ≠ relation := by decide
  unfold linkSupertypes
  split
  case h_1 => rfl
  case h_2 =>
    refine Outline.mem_edges_foldl_addBase_of_ne Prod.fst Prod.snd ?_
    rintro ⟨relation, base⟩ hbase
    rw [he]
    exact hsupertyping relation (st.relation_of_mem_supertypes hbase)

/-- A visit adds the calls that are made at its site, and no other call. -/
theorem mem_calls_visit_iff {e : Edge} (he : e.relation = Relation.calls) :
    e ∈ (st.visit s).outline.fragment.edges ↔
      e ∈ st.outline.fragment.edges ∨ e ∈ st.calls s := by
  by_cases hkind : s.kind = "method_invocation" ∨ s.kind = "object_creation_expression"
  · rw [st.outline_visit_of_call hkind, calls]
    cases st.outline.context? s with
    | none => simp
    | some ctx => simp only [Outline.mem_edges_link_iff, List.mem_map]
  · obtain ⟨hcall, hnew⟩ := not_or.mp hkind
    rw [st.calls_eq_nil hcall hnew, visit, if_neg (by simpa using hcall),
      if_neg (by simpa using hnew)]
    simp only [List.not_mem_nil, or_false]
    split_ifs
    · unfold linkFieldUse
      dsimp only
      repeat' split
      · rfl
      · rfl
      · rfl
      · exact Outline.mem_edges_linkFieldUse_of_ne (by rw [he]; decide)
    · exact st.mem_calls_linkSupertypes_iff he s.node
    · rfl

end State

section Walk

variable (f : SourceFile) (root : Tree) (n : Nat)

theorem follows_stateAt : (initialState f root).Follows (linker.stateAt f root n) :=
  List.foldlRecOn (motive := (initialState f root).Follows) (root.sites.take n) State.visit
    ⟨rfl, .refl _⟩ fun _ h s _ => h.visit s

def callsAt : List Edge :=
  match root.sites[n]? with
  | some s => (linker.stateAt f root n).calls s
  | none => []

/-- The calls of a file are those that are made at its places. -/
theorem mem_calls_analyze_iff {e : Edge} (he : e.relation = Relation.calls) :
    e ∈ (analyze f root).edges ↔ ∃ n, e ∈ callsAt f root n := by
  have hlabels : ∀ x ∈ Relation.memberLabels, e.relation ≠ x.1 := by
    rw [he]
    decide
  have hlast : (∃ n, e ∈ callsAt f root n) ↔
      ∃ n < root.sites.length, e ∈ callsAt f root n := by
    refine exists_congr fun n => (and_iff_right_of_imp fun h => ?_).symm
    by_contra hn
    rw [callsAt, List.getElem?_eq_none (Nat.le_of_not_lt hn)] at h
    cases h
  rw [hlast]
  refine Linker.mem_edges_analyze_iff (L := linker) (fun n => e ∈ callsAt f root n) hlabels
    fun n hn => ?_
  have hs : root.sites[n]? = some root.sites[n] := List.getElem?_eq_getElem hn
  rw [Linker.stateAt_succ hs, callsAt, hs]
  exact (linker.stateAt f root n).mem_calls_visit_iff _ he

end Walk

/-! ### Receivers -/

def State.edgesOn (st : State) (source : String) (types : List String) (method : String) :
    List Edge :=
  match types with
  | [] => [⟨source, Ident.unresolved method, Relation.calls⟩]
  | types =>
      types.map fun type => ⟨source, st.members.resolveMember type method, Relation.calls⟩

section Receivers

variable (f : SourceFile) (root : Tree)

/-- The call at a place of a method on a receiver that is a plain name: the innermost routine around
the call, the name and the method. -/
def callOn? (n : Nat) : Option ((Site × Routine) × String × String) := do
  let s ← root.sites[n]?
  let around ← (initialState f root).outline.routineAround? s
  let method ← s.node.childText? f.bytes "name"
  let receiver ← s.node.child? "object"
  if s.kind = "method_invocation" ∧ receiver.kind = "identifier" then
    some (around, receiver.text f.bytes, method)
  else none

/-- The types that a name may stand for as a receiver in a routine: those of the local that the
routine declares, of the field of its owner, or of the name itself. -/
def namedTypes (g : Site) (r : Routine) (name : String) : List String :=
  match (localsOf f.bytes g.node).find? name with
  | some declared => (declared.map (initialState f root).scope.candidates).getD []
  | none =>
      match r.owner.bind fun owner =>
        (fileDeclarations f root).findSome? (Declaration.fieldType? owner name) with
      | some typeText => (initialState f root).scope.candidates typeText
      | none => (initialState f root).scope.candidates name

end Receivers

theorem State.map_memberCallTargets (st : State) (ctx : Outline.Context) (receiver : Tree)
    (method : String) :
    (st.memberCallTargets ctx receiver method).map
        (fun target => (⟨ctx.source, target, Relation.calls⟩ : Edge)) =
      st.edgesOn ctx.source ((st.receiverTypes? ctx receiver).getD []) method := by
  unfold memberCallTargets
  cases st.receiverTypes? ctx receiver with
  | none => rfl
  | some types =>
      cases types with
      | nil => rfl
      | cons type types => exact List.map_map

section Calls

variable {f : SourceFile} {root : Tree} {n : Nat} {g : Site} {r : Routine} {name method : String}

theorem getD_receiverTypes?_stateAt {receiver : Tree} (hkind : receiver.kind = "identifier")
    (hname : receiver.text f.bytes = name) :
    ((linker.stateAt f root n).receiverTypes? ⟨r.id, r.owner, some g⟩ receiver).getD [] =
      namedTypes f root g r name := by
  have hfollows := follows_stateAt f root n
  have hscope : (linker.stateAt f root n).scope = (initialState f root).scope := by
    rw [hfollows.rest]
  have hfields (owner : String) : (linker.stateAt f root n).members.fieldType? owner name =
      (fileDeclarations f root).findSome? (Declaration.fieldType? owner name) := by
    rw [← Outline.fieldType?_ofDeclarations, TypeMembers.fieldType?, State.members,
      hfollows.grown.fieldTypes, outline_initialState]
    rfl
  rw [State.receiverTypes?, hkind, if_neg (by decide), if_neg (by decide), if_pos (by decide),
    hfollows.file_eq, hname, hscope, State.locals, hfollows.file_eq, namedTypes]
  simp only [hfields]
  cases (localsOf f.bytes g.node).find? name with
  | some declared => rfl
  | none =>
      dsimp only
      cases r.owner.bind fun owner =>
          (fileDeclarations f root).findSome? (Declaration.fieldType? owner name) with
      | none => exact Option.getD_some
      | some typeText => exact Option.getD_some

/-- A call on a plain name is linked to the method of each type that the name may stand for. -/
theorem callsAt_of_callOn? (h : callOn? f root n = some ((g, r), name, method)) :
    callsAt f root n =
      (linker.stateAt f root n).edgesOn r.id (namedTypes f root g r name) method := by
  simp only [callOn?, Option.bind_eq_bind, Option.bind_eq_some_iff,
    Option.ite_none_right_eq_some] at h
  obtain ⟨s, hs, around, hg, method', hmethod, receiver, hreceiver, ⟨hkind, hidentifier⟩, heq⟩ := h
  cases heq
  have hfollows := follows_stateAt f root n
  have htargets : (linker.stateAt f root n).targets s ⟨r.id, r.owner, some g⟩ =
      (linker.stateAt f root n).memberCallTargets ⟨r.id, r.owner, some g⟩ receiver method := by
    rw [State.targets, hkind, if_pos (by decide), hfollows.file_eq, hmethod, hreceiver]
  rw [callsAt, hs]
  dsimp only
  rw [State.calls, hfollows.context? hg]
  dsimp only
  rw [htargets]
  refine (State.map_memberCallTargets _ ⟨r.id, r.owner, some g⟩ receiver method).trans ?_
  rw [getD_receiverTypes?_stateAt hidentifier rfl]

/-- A name in a routine is that of a local with a written type in another routine, and of nothing
that the routine sees: it does not declare the name, and its owner has no such field. -/
structure NamesLocalOf (f : SourceFile) (root : Tree) (g : Site) (r : Routine) (outer : Site)
    (name type : String) : Prop where
  registered : ((initialState f root).outline.routines.get? outer.node.key).isSome
  declared : (localsOf f.bytes outer.node).find? name = some (some type)
  own : (localsOf f.bytes g.node).find? name = none
  field : ∀ owner ∈ r.owner, ¬linker.DeclaresField f root owner name

instance (f : SourceFile) (root : Tree) (g : Site) (r : Routine) (outer : Site)
    (name type : String) : Decidable (NamesLocalOf f root g r outer name type) :=
  decidable_of_iff
    (((initialState f root).outline.routines.get? outer.node.key).isSome ∧
      (localsOf f.bytes outer.node).find? name = some (some type) ∧
      (localsOf f.bytes g.node).find? name = none ∧
      ∀ owner ∈ r.owner, ¬linker.DeclaresField f root owner name)
    ⟨fun h => ⟨h.1, h.2.1, h.2.2.1, h.2.2.2⟩, fun h => ⟨h.registered, h.declared, h.own, h.field⟩⟩

/-- A call on a local of a routine further out is linked as if the name of the local were that of a
type, whereas calls on the local in the routine that declares it are linked by the type of the
local. There are no other calls than those that are made at the places of the file. -/
theorem captured_receiver_read_as_type {outer : Site} {type : String}
    (hcall : callOn? f root n = some ((g, r), name, method))
    (h : outer ∈ g.ancestors ∧ NamesLocalOf f root g r outer name type) :
    callsAt f root n = (linker.stateAt f root n).edgesOn r.id
        ((initialState f root).scope.candidates name) method ∧
      (∀ k r' method', callOn? f root k = some ((outer, r'), name, method') →
        callsAt f root k = (linker.stateAt f root k).edgesOn r'.id
          ((initialState f root).scope.candidates type) method') ∧
      ∀ e : Edge, e.relation = Relation.calls →
        (e ∈ (analyze f root).edges ↔ ∃ k, e ∈ callsAt f root k) := by
  obtain ⟨-, hlocal⟩ := h
  have hfield : (r.owner.bind fun owner =>
      (fileDeclarations f root).findSome? (Declaration.fieldType? owner name)) = none := by
    rw [Option.bind_eq_none_iff]
    intro owner howner
    rw [List.findSome?_eq_none_iff]
    intro d hd
    by_contra hne
    exact hlocal.field owner howner ⟨d, hd, Option.isSome_iff_ne_none.mpr hne⟩
  refine ⟨?_, fun k r' method' hcall' => ?_, fun e he => mem_calls_analyze_iff f root he⟩
  · rw [callsAt_of_callOn? hcall, namedTypes, hlocal.own]
    dsimp only
    rw [hfield]
  · rw [callsAt_of_callOn? hcall', namedTypes, hlocal.declared]
    dsimp only [Option.map_some, Option.getD_some]

end Calls

namespace Sample

/-- A method with a parameter `B b` that calls `b.m()` itself and in a method of an anonymous
class. -/
def capturing : SourceFile × Tree :=
  (⟨"A.java", Utf8.encode ("class A \x7b void run(B b) \x7b b.m(); new Object() \x7b " ++
      "void go() \x7b b.m(); \x7d \x7d; \x7d \x7d class B \x7b void m() \x7b \x7d \x7d").toList⟩,
    .node { kind := "program", stop := 100 }
      [.node { kind := "class_declaration", stop := 75, key := 1 }
        [leaf "identifier" "name" 2 6 7,
          .node { kind := "class_body", field := "body", start := 8, stop := 75, key := 3 }
            [.node { kind := "method_declaration", start := 10, stop := 73, key := 4 }
              [leaf "void_type" "type" 5 10 14, leaf "identifier" "name" 6 15 18,
                .node { kind := "formal_parameters", field := "parameters", start := 18, stop := 23,
                        key := 7 }
                  [.node { kind := "formal_parameter", start := 19, stop := 22, key := 8 }
                    [leaf "type_identifier" "type" 9 19 20, leaf "identifier" "name" 10 21 22]],
                .node { kind := "block", field := "body", start := 24, stop := 73, key := 11 }
                  [call 12 26,
                    .node { kind := "expression_statement", start := 33, stop := 71, key := 17 }
                      [.node { kind := "object_creation_expression", start := 33, stop := 70,
                               key := 18 }
                        [leaf "type_identifier" "type" 19 37 43,
                          leaf "argument_list" "arguments" 20 43 45,
                          .node { kind := "class_body", start := 46, stop := 70, key := 21 }
                            [method 22 48 55 68 [call 27 60]]]]]]]],
        .node { kind := "class_declaration", start := 76, stop := 100, key := 32 }
          [leaf "identifier" "name" 33 82 83,
            .node { kind := "class_body", field := "body", start := 84, stop := 100, key := 34 }
              [method 35 86 92 98 []]]])

/-- At a place in the method `A:go`, the method `m` is called on the local `b` of a routine further
out, whose type is the class `B` of the file. -/
def CallsCaptured (x : SourceFile × Tree) (n : Nat) : Prop :=
  (initialState x.1 x.2).scope.candidates "B" = ["B"] ∧
    ∃ y ∈ callOn? x.1 x.2 n, y.1.2.id = "A:go" ∧ y.2 = ("b", "m") ∧
      ∃ outer ∈ y.1.1.ancestors, NamesLocalOf x.1 x.2 y.1.1 y.1.2 outer "b" "B"

instance (x : SourceFile × Tree) (n : Nat) : Decidable (CallsCaptured x n) :=
  inferInstanceAs (Decidable (_ ∧ _))

end Sample

/-- A call on a captured parameter gives an edge to a member of the name of the parameter. -/
theorem captured_receiver_call_linked :
    Sample.CallsCaptured Sample.capturing 28 ∧
      ⟨"A:go", "b:m", Relation.calls⟩ ∈
        (analyze Sample.capturing.1 Sample.capturing.2).edges := by
  have hcaptured : Sample.CallsCaptured Sample.capturing 28 := by decide +kernel
  have ⟨_, ⟨⟨g, r⟩, name, method⟩, hcall, hr, hnames, outer, hinside, hlocal⟩ := hcaptured
  obtain ⟨rfl, rfl⟩ : name = "b" ∧ method = "m" := Prod.mk.inj hnames
  obtain ⟨hcalls, -, hall⟩ := captured_receiver_read_as_type hcall ⟨hinside, hlocal⟩
  have hedge : ⟨"A:go", "b:m", Relation.calls⟩ ∈
      (linker.stateAt Sample.capturing.1 Sample.capturing.2 28).edgesOn "A:go"
        ((initialState Sample.capturing.1 Sample.capturing.2).scope.candidates "b") "m" := by
    decide +kernel
  refine ⟨hcaptured, (hall _ rfl).mpr ⟨28, ?_⟩⟩
  rw [hcalls, show r.id = "A:go" from hr]
  exact hedge

/-- A call on a captured parameter gives no edge to the method of its type. -/
theorem captured_receiver_call_not_linked :
    Sample.CallsCaptured Sample.capturing 28 ∧
      ⟨"A:go", "B:m", Relation.calls⟩ ∉
        (analyze Sample.capturing.1 Sample.capturing.2).edges := by
  decide +kernel

end CodeGraph.Java

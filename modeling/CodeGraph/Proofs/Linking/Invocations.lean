import CodeGraph.Proofs.Linking.Calls

/-!
No call of a Java file is lost. Whatever the receiver of a call is and whatever is known of its
type, the call has at least one target, and every target is a member with the name that is called:
one that the file or an import declares, one that a possible type would have, or the one that
nothing explains.
-/

namespace CodeGraph

open CodeGraph.Tree (Site leaf)

/-! ### Registered nodes -/

/-- The routine that a declaration registers under a key. -/
def Declaration.registeredAt? (key : Nat) : Declaration → Option Routine
  | routine key' _ n owner => if key = key' then some ⟨n.id, owner⟩ else none
  | _ => none

def Declaration.routineAt? (key : Nat) (d : Declaration) : Option String :=
  (d.registeredAt? key).map Routine.id

theorem Outline.routines_get?_eq_findSome? (ds : List Declaration) (key : Nat) :
    (ofDeclarations ds).routines.get? key = ds.findSome? (Declaration.registeredAt? key) := by
  refine read_ofDeclarations (fun o => o.routines.get? key) rfl ?_ ds
  intro o d
  cases d with
  | type key' name n isInterface => exact (Option.or_none ..).symm
  | routine key' name n owner => cases owner <;> exact Bindings.get?_bind ..
  | field name n owner typeText => exact (Option.or_none ..).symm
  | global name n => exact (Option.or_none ..).symm

theorem Outline.routines_eq_findSome? (ds : List Declaration) (key : Nat) :
    ((ofDeclarations ds).routines.get? key).map Routine.id =
      ds.findSome? (Declaration.routineAt? key) := by
  rw [routines_get?_eq_findSome?, List.map_findSome?]
  rfl

/-- A routine is known under the key of its declaration, with the owner that it has there. -/
theorem Outline.routine_mem_of_get? {ds : List Declaration} {key : Nat} {r : Routine}
    (h : (ofDeclarations ds).routines.get? key = some r) :
    ∃ name n, Declaration.routine key name n r.owner ∈ ds ∧ n.id = r.id := by
  rw [routines_get?_eq_findSome?] at h
  obtain ⟨d, hd, hr⟩ := List.exists_of_findSome?_eq_some h
  cases d with
  | routine key' name n owner =>
      obtain ⟨rfl, heq⟩ := Option.ite_none_right_eq_some.mp hr
      cases heq
      exact ⟨name, n, hd, rfl⟩
  | type => cases hr
  | field => cases hr
  | global => cases hr

/-- The innermost routine around a site is that of the innermost node that declares one. -/
theorem Outline.map_routineAround? (ds : List Declaration) (s : Site) :
    ((ofDeclarations ds).routineAround? s).map (·.2.id) =
      s.above.findSome? fun t => ds.findSome? (Declaration.routineAt? t.key) := by
  simp only [← routines_eq_findSome?]
  rw [routineAround?, Site.ancestors]
  induction s.above with
  | nil => rfl
  | cons t above ih =>
      rw [Site.chain, List.findSome?_cons, List.findSome?_cons, ← ih]
      cases (ofDeclarations ds).routines.get? t.key <;> rfl

namespace Outline

/-- A node of the tree at which one of the declarations declares a routine or a type. -/
def Registered (ds : List Declaration) (t : Tree) : Prop :=
  ∃ d ∈ ds, (Declaration.routineAt? t.key d).isSome ∨ (Declaration.typeAt? t.key d).isSome

instance (ds : List Declaration) (t : Tree) : Decidable (Registered ds t) :=
  inferInstanceAs (Decidable (∃ d ∈ _, _))

/-- The ID of the innermost routine around a site or, outside of all routines, that of the innermost
type. -/
def attributedTo? (ds : List Declaration) (s : Site) : Option String :=
  (s.above.findSome? fun t => ds.findSome? (Declaration.routineAt? t.key)).or
    (s.above.findSome? fun t => ds.findSome? (Declaration.typeAt? t.key))

theorem exists_attributedTo? {ds : List Declaration} {s : Site}
    (h : ∃ t ∈ s.above, Registered ds t) : ∃ source, attributedTo? ds s = some source := by
  obtain ⟨t, ht, d, hd, hregistered⟩ := h
  have hfound {find : Nat → Declaration → Option String} (hsome : (find t.key d).isSome) :
      (s.above.findSome? fun t => ds.findSome? (find t.key)).isSome :=
    List.findSome?_isSome_iff.mpr ⟨t, ht, List.findSome?_isSome_iff.mpr ⟨d, hd, hsome⟩⟩
  rw [← Option.isSome_iff_exists, attributedTo?, Option.isSome_or, Bool.or_eq_true]
  exact hregistered.imp hfound hfound

/-- The context of a reference tells what it is attributed to. -/
theorem map_source_context? (ds : List Declaration) (s : Site) :
    ((ofDeclarations ds).context? s).map (·.source) = attributedTo? ds s := by
  rw [attributedTo?]
  simp only [← map_routineAround?, ← types_eq_findSome?]
  rw [context?]
  cases (ofDeclarations ds).routineAround? s with
  | none => simp [Site.enclosing?, Function.comp_def]
  | some x => rfl

end Outline

/-! ### Members with a name -/

def IsMemberNamed (name target : String) : Prop :=
  ∃ owner, target = Ident.member owner name

theorem isMemberNamed_member (owner name : String) :
    IsMemberNamed name (Ident.member owner name) :=
  ⟨owner, rfl⟩

theorem isMemberNamed_unresolved (name : String) : IsMemberNamed name (Ident.unresolved name) :=
  ⟨Ident.unresolvedMark, rfl⟩

/-- The member that a name is resolved to has the name, if all members have theirs. -/
theorem TypeMembers.isMemberNamed_resolveMember {t : TypeMembers} {name : String}
    (h : ∀ owner id, t.member? owner name = some id → IsMemberNamed name id) (owner : String) :
    IsMemberNamed name (t.resolveMember owner name) := by
  unfold resolveMember
  split
  case h_1 id hid => exact h owner id hid
  case h_2 =>
    cases hbase : (t.bases owner).findSome? (t.member? · name) with
    | none => exact isMemberNamed_member owner name
    | some id =>
        obtain ⟨base, -, hid⟩ := List.exists_of_findSome?_eq_some hbase
        exact h base id hid

namespace Java

/-! ### Targets -/

/-- A member that is imported by its name has that name. -/
theorem isMemberNamed_of_staticMember {f : SourceFile} {root : Tree} {name id : String}
    (h : (initialState f root).staticMembers.lookup name = some id) : IsMemberNamed name id := by
  have hall : ∀ x ∈ (initialState f root).staticMembers, IsMemberNamed x.1 x.2 := by
    refine List.foldlRecOn
      (motive := fun st : State => ∀ x ∈ st.staticMembers, IsMemberNamed x.1 x.2) _ addImport
      (by simp) fun st hst imp _ => ?_
    unfold addImport
    split
    · exact hst
    · split
      · exact List.forall_mem_cons.mpr ⟨isMemberNamed_member _ _, hst⟩
      · exact hst
    · exact hst
    · exact hst
  obtain ⟨earlier, later, heq, -⟩ := List.lookup_eq_some_iff.mp h
  exact hall (name, id) (by simp [heq])

namespace State

variable {f : SourceFile} {root : Tree} {st : State} (hst : (initialState f root).Follows st)

include hst

theorem Follows.isMemberNamed_of_member? {owner name id : String}
    (h : st.members.member? owner name = some id) : IsMemberNamed name id := by
  rw [TypeMembers.member?, State.members, hst.grown.members, outline_initialState] at h
  rw [Outline.member?_ofDeclarations
    (fun d hd _ _ => (made_of_mem_declarations root d hd).member_id) h]
  exact isMemberNamed_member owner name

theorem Follows.isMemberNamed_resolveMember (owner name : String) :
    IsMemberNamed name (st.members.resolveMember owner name) :=
  TypeMembers.isMemberNamed_resolveMember (fun _ _ => hst.isMemberNamed_of_member?) owner

/-- A call without a receiver has a target, and all of its targets have its name. -/
theorem Follows.plainCallTargets (owner : Option String) (name : String) :
    st.plainCallTargets owner name ≠ [] ∧
      ∀ target ∈ st.plainCallTargets owner name, IsMemberNamed name target := by
  unfold State.plainCallTargets
  split
  case h_1 id hid =>
    obtain ⟨o, -, hid⟩ := Option.bind_eq_some_iff.mp hid
    simpa using hst.isMemberNamed_of_member? hid
  case h_2 =>
    split
    case h_1 id hid =>
      have hstatic : st.staticMembers = (initialState f root).staticMembers := by rw [hst.rest]
      simpa using isMemberNamed_of_staticMember (hstatic ▸ hid)
    case h_2 =>
      dsimp only
      split
      case isTrue => simpa using isMemberNamed_unresolved name
      case isFalse hne =>
        refine ⟨by simpa using hne, fun target htarget => ?_⟩
        rcases List.mem_append.mp htarget with htarget | htarget
        · obtain ⟨o, -, rfl⟩ := Option.map_eq_some_iff.mp (Option.mem_toList.mp htarget)
          exact hst.isMemberNamed_resolveMember o name
        · obtain ⟨type, -, rfl⟩ := List.mem_map.mp htarget
          exact isMemberNamed_member type name

/-- A call on a receiver has a target, and all of its targets have its name. -/
theorem Follows.memberCallTargets (ctx : Outline.Context) (receiver : Tree) (name : String) :
    st.memberCallTargets ctx receiver name ≠ [] ∧
      ∀ target ∈ st.memberCallTargets ctx receiver name, IsMemberNamed name target := by
  unfold State.memberCallTargets
  split
  case h_1 => simpa using isMemberNamed_unresolved name
  case h_2 => simpa using isMemberNamed_unresolved name
  case h_3 types hne _ =>
    refine ⟨by simpa using hne, fun target htarget => ?_⟩
    obtain ⟨type, -, rfl⟩ := List.mem_map.mp htarget
    exact hst.isMemberNamed_resolveMember type name

/-- The visit of a call links it. -/
theorem Follows.exists_mem_visit {s : Site} {name : String} {ctx : Outline.Context}
    (hkind : s.kind = "method_invocation") (hname : s.node.childText? f.bytes "name" = some name)
    (hctx : (initialState f root).outline.context? s = some ctx) :
    ∃ owner, ⟨ctx.source, Ident.member owner name, Relation.calls⟩ ∈
      (st.visit s).outline.fragment.edges := by
  have hctx' : st.outline.context? s = some ctx := (hst.grown.context?_eq s).trans hctx
  obtain ⟨targets, hvisit, hne, hall⟩ : ∃ targets,
      st.visit s = st.link ctx.source targets Relation.calls ∧ targets ≠ [] ∧
        ∀ target ∈ targets, IsMemberNamed name target := by
    rw [State.visit, hkind, if_pos (by decide), State.linkInvocation, hst.file_eq, hname, hctx']
    dsimp only
    cases s.node.child? "object" with
    | none => exact ⟨_, rfl, hst.plainCallTargets ctx.owner name⟩
    | some receiver => exact ⟨_, rfl, hst.memberCallTargets ctx receiver name⟩
  obtain ⟨target, htarget⟩ := List.exists_mem_of_ne_nil targets hne
  obtain ⟨owner, rfl⟩ := hall target htarget
  rw [hvisit]
  exact ⟨owner, Outline.mem_edges_link htarget st.outline⟩

end State

/-- Every call that stands in a routine or a type of the file gives an edge from the innermost
routine around it or, outside of all routines, from the innermost type, to a member with the name
that is called. -/
theorem invocation_linked {f : SourceFile} {root : Tree} {s : Site} (hs : s ∈ root.sites)
    (hkind : s.kind = "method_invocation") {name : String}
    (hname : s.node.childText? f.bytes "name" = some name)
    (haround : ∃ t ∈ s.above, Outline.Registered (fileDeclarations f root) t) :
    ∃ source, Outline.attributedTo? (fileDeclarations f root) s = some source ∧
      ∃ owner, ⟨source, owner ++ ":" ++ name, Relation.calls⟩ ∈ (analyze f root).edges := by
  obtain ⟨source, hsource⟩ := Outline.exists_attributedTo? haround
  obtain ⟨ctx, hctx, rfl⟩ := Option.map_eq_some_iff.mp
    ((Outline.map_source_context? _ s).trans hsource)
  rw [fileDeclarations, ← outline_initialState] at hctx
  refine ⟨ctx.source, hsource, ?_⟩
  -- Which member is found depends on the supertypes that are known by then, but one is.
  exact foldl_of_mem (I := (initialState f root).Follows)
    (Q := fun st : State => ∃ owner, ⟨ctx.source, Ident.member owner name, Relation.calls⟩ ∈
      st.outline.fragment.edges) hs ⟨rfl, .refl _⟩ (fun _ s _ hst => hst.visit s)
    (fun st hst => hst.exists_mem_visit hkind hname hctx)
    fun st s _ ⟨owner, he⟩ => ⟨owner, (st.grown_visit s).kept he⟩

/-- A class without a known supertype whose field is set by a call on `super`. -/
def Sample.initialized : SourceFile × Tree :=
  (⟨"A.java", Utf8.encode "class A \x7b int x = super.g(); \x7d".toList⟩,
    .node { kind := "program", stop := 30 }
      [.node { kind := "class_declaration", stop := 30, key := 1 }
        [leaf "identifier" "name" 2 6 7,
          .node { kind := "class_body", field := "body", start := 8, stop := 30, key := 3 }
            [.node { kind := "field_declaration", start := 10, stop := 28, key := 4 }
              [leaf "integral_type" "type" 5 10 13,
                .node { kind := "variable_declarator", field := "declarator", start := 14,
                        stop := 27, key := 6 }
                  [leaf "identifier" "name" 7 14 15,
                    .node { kind := "method_invocation", field := "value", start := 18,
                            stop := 27, key := 8 }
                      [leaf "super" "object" 9 18 23, leaf "identifier" "name" 10 24 25,
                        leaf "argument_list" "arguments" 11 25 27]]]]]])

/-- A call outside of all routines, on a receiver of which no type is known. -/
theorem initialized_call_linked :
    ∃ s ∈ Sample.initialized.2.sites, s.kind = "method_invocation" ∧
      (∃ t ∈ s.above, Outline.Registered
        (fileDeclarations Sample.initialized.1 Sample.initialized.2) t) ∧
      ∃ owner, ⟨"A", owner ++ ":" ++ "g", Relation.calls⟩ ∈
        (analyze Sample.initialized.1 Sample.initialized.2).edges := by
  obtain ⟨s, hs, hkind, hname, haround, hsource⟩ : ∃ s ∈ Sample.initialized.2.sites,
      s.kind = "method_invocation" ∧
        s.node.childText? Sample.initialized.1.bytes "name" = some "g" ∧
        (∃ t ∈ s.above, Outline.Registered
          (fileDeclarations Sample.initialized.1 Sample.initialized.2) t) ∧
        Outline.attributedTo? (fileDeclarations Sample.initialized.1 Sample.initialized.2) s =
          some "A" := by
    decide +kernel
  obtain ⟨source, hsource', hedge⟩ := invocation_linked hs hkind hname haround
  obtain rfl : "A" = source := Option.some_inj.mp (hsource.symm.trans hsource')
  exact ⟨s, hs, hkind, haround, hedge⟩

end Java

end CodeGraph

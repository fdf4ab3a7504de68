import CodeGraph.Proofs.Linking.Inheritance
import CodeGraph.Proofs.Linking.Invocations
import CodeGraph.Proofs.Linking.Scopes
import CodeGraph.Proofs.Linking.Sites

/-!
Calls of a C# file by the form of what is called. A call by a plain name that is no local and a call
of a member on a receiver have at least one target, and every target is a member with the name that
is called. A call on what may be null, where the callee is a member binding, is dropped.
-/

namespace CodeGraph.CSharp

open CodeGraph.Tree (Site leaf)

/-! ### Callees -/

def isPlain (callee : Tree) : Bool :=
  callee.isKind ["identifier", "generic_name"]

/-- The part `.M` of a callee `x?.M`, or the callee itself if it is such a part. -/
def binding? (callee : Tree) : Option Tree :=
  if callee.kind == "member_binding_expression" then some callee
  else if callee.kind == "conditional_access_expression" then
    callee.childOfKind? ["member_binding_expression"]
  else none

def methodNode? (callee : Tree) : Option Tree :=
  if isPlain callee then some callee
  else if callee.kind == "member_access_expression" then callee.child? "name"
  else (binding? callee).bind (·.child? "name")

/-- The name of the called method without type arguments. -/
def methodName? (src : Bytes) (callee : Tree) : Option String :=
  (methodNode? callee).map (State.simpleName src)

def localsAt (f : SourceFile) (root : Tree) (s : Site) : Locals :=
  match (initialState f root).outline.context? s with
  | some ctx => (initialState f root).locals ctx
  | none => []

theorem binding?_eq_none_of_isPlain {callee : Tree} (h : isPlain callee = true) :
    binding? callee = none := by
  have hkinds : ∀ kind ∈ ["identifier", "generic_name"],
      kind ≠ "member_binding_expression" ∧ kind ≠ "conditional_access_expression" := by
    decide
  obtain ⟨hbinding, hconditional⟩ := hkinds callee.kind (List.contains_iff_mem.mp h)
  rw [binding?, if_neg (by simpa using hbinding), if_neg (by simpa using hconditional)]

theorem binding?_eq_none_of_access {callee : Tree} (h : callee.kind = "member_access_expression") :
    binding? callee = none := by
  rw [binding?, h]
  rfl

/-! ### The state of a walk -/

section Walk

variable (f : SourceFile) (root : Tree) (n : Nat)

/-- The locals that a reference sees do not depend on what has been linked. -/
theorem locals_stateAt (ctx : Outline.Context) :
    (linker.stateAt f root n).locals ctx = (initialState f root).locals ctx := by
  have hfile : (linker.stateAt f root n).file = f := linker.file_stateAt n
  have hroutines : (linker.stateAt f root n).outline.routinesAt =
      (initialState f root).outline.routinesAt :=
    funext (linker.grown_stateAt n).routinesAt_eq
  rw [State.locals, hfile, hroutines, State.locals, file_initialState]

end Walk

/-! ### Functions outside any type -/

/-- A function outside any type is known as that of the file. -/
theorem Made.function_id {f : SourceFile} {d : Declaration} (h : Made f d) {key : Nat}
    {name : String} {n : Node} (hd : d = .routine key name n none) :
    n.id = Ident.inFile f.path name := by
  cases h with
  | type => cases hd
  | routine t owner name' =>
      cases owner with
      | some owner => cases hd
      | none =>
          cases hd
          rw [Declaration.id_mark]
          split <;> rfl
  | field h =>
      unfold fieldDeclarations at h
      split at h
      case h_1 => cases h
      case h_2 =>
        obtain ⟨declarator, -, h⟩ := List.mem_filterMap.mp h
        obtain ⟨name', -, rfl⟩ := Option.map_eq_some_iff.mp h
        cases hd
  | property h =>
      unfold propertyDeclaration? at h
      split at h
      case h_1 =>
        cases h
        cases hd
      case h_2 => cases h

structure State.NamesFunctions (st : State) : Prop where
  ignoresCase : st.topLevel.ignoresCase = false
  named : ∀ name id, st.topLevel.get? name = some id → IsMemberNamed name id

theorem State.NamesFunctions.addName {st : State} (h : st.NamesFunctions) {f : SourceFile}
    {d : Declaration} (hd : Made f d) : (addName st d).NamesFunctions := by
  unfold CSharp.addName
  split
  case h_1 => exact ⟨h.ignoresCase, h.named⟩
  case h_2 key name' n =>
    refine ⟨h.ignoresCase, fun name id hid => ?_⟩
    rw [SymbolTable.get?_insert h.ignoresCase, Option.or_eq_some_iff] at hid
    rcases hid with hid | ⟨-, hid⟩
    · exact h.named name id hid
    · obtain ⟨hname, hid⟩ := Option.ite_none_right_eq_some.mp hid
      cases hid
      exact ⟨f.path, hname ▸ hd.function_id rfl⟩
  case h_3 => exact h

theorem namesFunctions_initialState (f : SourceFile) (root : Tree) :
    (initialState f root).NamesFunctions := by
  refine List.foldlRecOn (motive := State.NamesFunctions) _ addName ?_
    fun st h d hd => h.addName (made_of_mem_declarations root d hd)
  refine List.foldlRecOn (motive := State.NamesFunctions) _ addImport ⟨rfl, ?_⟩
    fun st h imp _ => ?_
  · intro name id h
    cases h
  · unfold addImport
    split <;> exact ⟨h.ignoresCase, h.named⟩

/-! ### Targets -/

section Targets

variable (f : SourceFile) (root : Tree) (n : Nat)

theorem isMemberNamed_of_member? {owner name id : String}
    (h : (linker.stateAt f root n).members.member? owner name = some id) :
    IsMemberNamed name id := by
  have hown : linker.ownMember? f root name owner = some id :=
    (Linker.member?_membersAt n owner name).symm.trans h
  obtain ⟨-, hid⟩ := Option.ite_none_right_eq_some.mp hown
  cases hid
  exact isMemberNamed_member owner name

theorem isMemberNamed_resolveMember (owner name : String) :
    IsMemberNamed name ((linker.stateAt f root n).members.resolveMember owner name) :=
  TypeMembers.isMemberNamed_resolveMember (fun _ _ => isMemberNamed_of_member? f root n) owner

/-- A call without a receiver has a target, and all of its targets have its name. -/
theorem plainCallTargets_named (owner : Option String) (name : String) :
    (linker.stateAt f root n).plainCallTargets owner name ≠ [] ∧
      ∀ target ∈ (linker.stateAt f root n).plainCallTargets owner name,
        IsMemberNamed name target := by
  unfold State.plainCallTargets
  split
  case h_1 =>
    have hvisit (st : State) (s : Site) : (st.visit s).topLevel = st.topLevel := by
      rw [st.visit_eq]
    have htop : (linker.stateAt f root n).topLevel = (initialState f root).topLevel :=
      linker.read_stateAt State.topLevel hvisit n
    rw [htop]
    refine ⟨List.cons_ne_nil _ _, List.forall_mem_singleton.mpr ?_⟩
    cases hid : (initialState f root).topLevel.get? name with
    | none => exact isMemberNamed_unresolved name
    | some id => exact (namesFunctions_initialState f root).named name id hid
  case h_2 owner =>
    split
    case h_1 id hid =>
      exact ⟨List.cons_ne_nil _ _, List.forall_mem_singleton.mpr
        (isMemberNamed_of_member? f root n hid)⟩
    case h_2 =>
      refine ⟨List.cons_ne_nil _ _, List.forall_mem_cons.mpr
        ⟨isMemberNamed_resolveMember f root n owner name, List.forall_mem_map.mpr ?_⟩⟩
      exact fun type _ => isMemberNamed_member type name

/-- A call of a member has a target, and all of its targets have its name. -/
theorem memberCallTargets_named (ctx : Outline.Context) (space : String) {access nameNode : Tree}
    (hname : access.child? "name" = some nameNode) :
    (linker.stateAt f root n).memberCallTargets ctx space access ≠ [] ∧
      ∀ target ∈ (linker.stateAt f root n).memberCallTargets ctx space access,
        IsMemberNamed (State.simpleName f.bytes nameNode) target := by
  have hfile : (linker.stateAt f root n).file = f := linker.file_stateAt n
  unfold State.memberCallTargets
  rw [hname, hfile]
  dsimp only
  split
  case h_1 => simpa using isMemberNamed_unresolved _
  case h_2 => simpa using isMemberNamed_unresolved _
  case h_3 types hne _ =>
    refine ⟨by simpa using hne, List.forall_mem_map.mpr fun type _ => ?_⟩
    exact isMemberNamed_resolveMember f root n type _

/-- A call of a named method has a target unless the callee is a member binding, and all of its
targets have the name. -/
theorem callTargets_named {ctx : Outline.Context} (space : String) {callee : Tree} {name : String}
    (hname : methodName? f.bytes callee = some name)
    (hlocal : isPlain callee = true → ((initialState f root).locals ctx).declares name = false) :
    ((linker.stateAt f root n).callTargets ctx space callee ≠ [] ↔ binding? callee = none) ∧
      ∀ target ∈ (linker.stateAt f root n).callTargets ctx space callee,
        IsMemberNamed name target := by
  obtain ⟨nameNode, hnode, rfl⟩ := Option.map_eq_some_iff.mp hname
  unfold methodNode? at hnode
  unfold State.callTargets
  split at hnode
  case isTrue hplain =>
    cases hnode
    obtain ⟨hne, hall⟩ := plainCallTargets_named f root n ctx.owner
      (State.simpleName f.bytes callee)
    have hfile : (linker.stateAt f root n).file = f := linker.file_stateAt n
    rw [if_pos (show callee.isKind _ = true from hplain), hfile, locals_stateAt]
    dsimp only
    rw [hlocal hplain]
    exact ⟨iff_of_true hne (binding?_eq_none_of_isPlain hplain), hall⟩
  case isFalse hplain =>
    rw [if_neg (show ¬callee.isKind _ = true from hplain)]
    split at hnode
    case isTrue haccess =>
      obtain ⟨hne, hall⟩ := memberCallTargets_named f root n ctx space hnode
      rw [if_pos haccess]
      exact ⟨iff_of_true hne (binding?_eq_none_of_access (beq_iff_eq.mp haccess)), hall⟩
    case isFalse haccess =>
      rw [if_neg haccess]
      obtain ⟨binding, hbinding, -⟩ := Option.bind_eq_some_iff.mp hnode
      exact ⟨iff_of_false (not_not_intro rfl) (by simp [hbinding]), List.forall_mem_nil _⟩

end Targets

/-- Every call of a method by its name that stands in a routine or a type of the file is attributed
to the innermost routine around it or, outside of all routines, to the innermost type, and linked to
members with the name that is called. There is such a member exactly if the callee is no member
binding. -/
theorem named_call_linked {f : SourceFile} {root : Tree} {n : Nat} {s : Site}
    (hs : root.sites[n]? = some s) (hkind : s.kind = "invocation_expression")
    (haround : ∃ t ∈ s.above, Outline.Registered (linker.declarations f root) t)
    {callee : Tree} (hcallee : s.node.child? "function" = some callee) {name : String}
    (hname : methodName? f.bytes callee = some name)
    (hlocal : isPlain callee = true → (localsAt f root s).declares name = false) :
    ∃ source targets, Outline.attributedTo? (linker.declarations f root) s = some source ∧
      (linker.stateAt f root (n + 1)).outline =
        (linker.stateAt f root n).outline.link source targets Relation.calls ∧
      (targets ≠ [] ↔ binding? callee = none) ∧
      ∀ target ∈ targets, (∃ owner, target = owner ++ ":" ++ name) ∧
        ⟨source, target, Relation.calls⟩ ∈ (analyze f root).edges := by
  obtain ⟨source, hsource⟩ := Outline.exists_attributedTo? haround
  obtain ⟨ctx, hctx, rfl⟩ := Option.map_eq_some_iff.mp
    ((Outline.map_source_context? _ s).trans hsource)
  rw [← linker.outline_initialState] at hctx
  have hctx' : (linker.stateAt f root n).outline.context? s = some ctx :=
    ((linker.grown_stateAt n).context?_eq s).trans hctx
  have hlocals : localsAt f root s = (initialState f root).locals ctx := by
    unfold localsAt
    rw [show (initialState f root).outline.context? s = some ctx from hctx]
  rw [hlocals] at hlocal
  have hlink : (linker.stateAt f root (n + 1)).outline =
      (linker.stateAt f root n).outline.link ctx.source
        ((linker.stateAt f root n).callTargets ctx ((linker.stateAt f root n).spaceAt s) callee)
        Relation.calls := by
    rw [Linker.stateAt_succ hs]
    show ((linker.stateAt f root n).visit s).outline = _
    rw [State.visit, hkind, if_pos (by decide), State.linkInvocation, hcallee, hctx']
    rfl
  obtain ⟨hne, hall⟩ :=
    callTargets_named f root n ((linker.stateAt f root n).spaceAt s) hname hlocal
  exact ⟨ctx.source, _, hsource, hlink, hne, fun target htarget =>
    ⟨hall target htarget, Linker.mem_edges_of_link (L := linker) hlink htarget⟩⟩

namespace Sample

/-- A class with a method `M` and a method that has a parameter `x` and makes one call. -/
def calling (callee : Tree) : Tree :=
  .node { kind := "compilation_unit", stop := 50 }
    [.node { kind := "class_declaration", stop := 50, key := 1 }
      [leaf "identifier" "name" 2 6 7,
        .node { kind := "declaration_list", field := "body", start := 8, stop := 50, key := 3 }
          [.node { kind := "method_declaration", start := 10, stop := 22, key := 4 }
            [leaf "predefined_type" "returns" 5 10 14, leaf "identifier" "name" 6 15 16,
              leaf "parameter_list" "parameters" 7 16 18, leaf "block" "body" 8 19 22],
          .node { kind := "method_declaration", start := 23, stop := 48, key := 9 }
            [leaf "predefined_type" "returns" 10 23 27, leaf "identifier" "name" 11 28 31,
              .node { kind := "parameter_list", field := "parameters", start := 31, stop := 36,
                      key := 12 }
                [.node { kind := "parameter", start := 32, stop := 35, key := 13 }
                  [leaf "identifier" "type" 14 32 33, leaf "identifier" "name" 15 34 35]],
              .node { kind := "block", field := "body", start := 37, stop := 48, key := 16 }
                [.node { kind := "expression_statement", start := 39, stop := 46, key := 17 }
                  [.node { kind := "invocation_expression", start := 39, stop := 45, key := 18 }
                    [callee, leaf "argument_list" "arguments" 23 43 45]]]]]]]

def generic : SourceFile × Tree :=
  (⟨"A.cs", Utf8.encode
      "class A \x7b void M() \x7b \x7d void Run(A x) \x7b M<A>(); \x7d \x7d".toList⟩,
    calling (.node { kind := "generic_name", field := "function", start := 39, stop := 43,
                     key := 19 }
      [leaf "identifier" "" 20 39 40, leaf "type_argument_list" "" 21 40 43]))

def conditional : SourceFile × Tree :=
  (⟨"A.cs", Utf8.encode
      "class A \x7b void M() \x7b \x7d void Run(A x) \x7b x?.M(); \x7d \x7d".toList⟩,
    calling (.node { kind := "conditional_access_expression", field := "function", start := 39,
                     stop := 43, key := 19 }
      [leaf "identifier" "condition" 20 39 40,
        .node { kind := "member_binding_expression", start := 41, stop := 43, key := 21 }
          [leaf "identifier" "name" 22 42 43]]))

/-- The call at a place names the method, and no local has its name. -/
def NamesAt (x : SourceFile × Tree) (s : Site) (name : String) : Prop :=
  s.kind = "invocation_expression" ∧
    (∃ t ∈ s.above, Outline.Registered (linker.declarations x.1 x.2) t) ∧
    Outline.attributedTo? (linker.declarations x.1 x.2) s = some "A:Run" ∧
    (localsAt x.1 x.2 s).declares name = false ∧
    ∃ callee ∈ s.node.child? "function", methodName? x.1.bytes callee = some name

instance (x : SourceFile × Tree) (s : Site) (name : String) : Decidable (NamesAt x s name) :=
  inferInstanceAs (Decidable (_ ∧ _))

end Sample

/-- A generic method is called by its name, and the edge has the name without type arguments. -/
theorem generic_call_linked :
    ∃ s ∈ Sample.generic.2.sites, Sample.NamesAt Sample.generic s "M" ∧
      ∃ owner, ⟨"A:Run", owner ++ ":" ++ "M", Relation.calls⟩ ∈
        (analyze Sample.generic.1 Sample.generic.2).edges := by
  obtain ⟨s, hs, hfound⟩ := (Option.any_eq_true _ _).mp
    (show (Sample.generic.2.sites[18]?).any (fun s => decide (Sample.NamesAt Sample.generic s "M" ∧
      ∃ callee ∈ s.node.child? "function", methodName? Sample.generic.1.bytes callee = some "M" ∧
        (binding? callee).isNone)) = true by decide +kernel)
  obtain ⟨hnames, callee, hcallee, hname, hbinding⟩ := of_decide_eq_true hfound
  have ⟨hkind, haround, hsource, hlocal, _⟩ := hnames
  obtain ⟨source, targets, hsource', -, hne, hall⟩ :=
    named_call_linked hs hkind haround hcallee hname fun _ => hlocal
  obtain rfl : "A:Run" = source := Option.some_inj.mp (hsource.symm.trans hsource')
  obtain ⟨target, htarget⟩ :=
    List.exists_mem_of_ne_nil targets (hne.mpr (Option.isNone_iff_eq_none.mp hbinding))
  obtain ⟨⟨owner, rfl⟩, hedge⟩ := hall target htarget
  exact ⟨s, List.mem_of_getElem? hs, hnames, owner, hedge⟩

/-- A method that is called on what may be null gives no edge. -/
theorem conditional_call_not_linked :
    (∃ s ∈ Sample.conditional.2.sites, Sample.NamesAt Sample.conditional s "M") ∧
      ∀ e ∈ (analyze Sample.conditional.1 Sample.conditional.2).edges,
        ¬(e.source = "A:Run" ∧ e.relation = Relation.calls) := by
  decide +kernel

end CodeGraph.CSharp

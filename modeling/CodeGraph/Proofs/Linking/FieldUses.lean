import CodeGraph.Proofs.Linking.Additions
import CodeGraph.Proofs.Linking.InnerFunctions
import CodeGraph.Proofs.Linking.NamedCalls

/-!
Uses of fields in a C# file. An identifier that names a field of the type around it is linked to the
field unless it is bare and a routine around it has a local of that name; a file has no other uses.
The locals of a routine are those of its whole body, so that what a local function declares hides a
field in the routine around the local function as well.
-/

namespace CodeGraph

open CodeGraph.Tree (Site leaf)

namespace Locals

variable {ls ls' : Locals} {name : String}

theorem declares_append_iff :
    Locals.declares (ls ++ ls') name = true ↔
      ls.declares name = true ∨ ls'.declares name = true := by
  simp only [declares_iff, List.mem_append, or_and_right, exists_or]

theorem declares_ofDeclarations_iff :
    (ofDeclarations ls).declares name = true ↔ ls.declares name = true := by
  simp only [declares_iff, ofDeclarations, List.mem_reverse]

theorem declares_flatMap_iff {α : Type} {xs : List α} {locals : α → Locals} :
    Locals.declares (xs.flatMap locals) name = true ↔
      ∃ x ∈ xs, (locals x).declares name = true := by
  simp only [declares_iff, List.mem_flatMap]
  constructor
  · rintro ⟨entry, ⟨x, hx, hentry⟩, hname⟩
    exact ⟨x, hx, entry, hentry, hname⟩
  · rintro ⟨x, hx, entry, hentry, hname⟩
    exact ⟨entry, ⟨x, hx, hentry⟩, hname⟩

end Locals

namespace CSharp

/-! ### Local functions -/

def isLocalFunction (t : Tree) : Bool :=
  t.kind == "local_function_statement"

mutual

/-- The nodes of a tree in pre-order, without those inside its local functions. -/
def outerNodes : Tree → List Tree
  | .node i cs =>
      .node i cs :: if isLocalFunction (.node i cs) then [] else outerNodesAll cs

def outerNodesAll : List Tree → List Tree
  | [] => []
  | t :: ts => outerNodes t ++ outerNodesAll ts

end

def outerBody (routine : Tree) : List Tree :=
  match routine.child? "body" with
  | none => []
  | some body => outerNodes body

/-- The parameters of a routine and the variables of its body outside its local functions. -/
def outerLocals (src : Bytes) (routine : Tree) : Locals :=
  parameterLocals src routine ++ (outerBody routine).flatMap (localsOfNode src)

/-- The local functions of a routine that are not inside another one of them. -/
def localFunctions (routine : Tree) : List Tree :=
  (outerBody routine).filter isLocalFunction

/-- The parameters and variables of a local function and of those inside it. -/
def innerLocals (src : Bytes) (function : Tree) : Locals :=
  function.preorder.flatMap (localsOfNode src)

section Nodes

variable {t : Tree}

mutual

theorem mem_preorder_iff_outer : (root : Tree) → (t ∈ root.preorder ↔
    t ∈ outerNodes root ∨ ∃ v ∈ outerNodes root, isLocalFunction v = true ∧ t ∈ v.preorder)
  | .node i cs => by
      by_cases hfunction : isLocalFunction (.node i cs) = true
      · simp [outerNodes, hfunction, Tree.preorder]
      · rw [Tree.preorder, outerNodes, if_neg hfunction, List.mem_cons, List.mem_cons,
          mem_preorderAll_iff_outer cs, List.exists_mem_cons_iff, or_assoc]
        simp [hfunction]

theorem mem_preorderAll_iff_outer : (ts : List Tree) → (t ∈ Tree.preorderAll ts ↔
    t ∈ outerNodesAll ts ∨ ∃ v ∈ outerNodesAll ts, isLocalFunction v = true ∧ t ∈ v.preorder)
  | [] => by simp [Tree.preorderAll, outerNodesAll]
  | root :: ts => by
      rw [Tree.preorderAll, outerNodesAll, List.mem_append, List.mem_append,
        mem_preorder_iff_outer root, mem_preorderAll_iff_outer ts, or_or_or_comm,
        ← exists_or]
      simp only [List.mem_append, or_and_right]

end

end Nodes

/-- The locals of a routine are its own ones and those of its local functions. -/
theorem declares_localsOf_iff {src : Bytes} {routine : Tree} {name : String} :
    (localsOf src routine).declares name = true ↔
      (outerLocals src routine).declares name = true ∨
        ∃ v ∈ localFunctions routine, (innerLocals src v).declares name = true := by
  rw [localsOf, Locals.declares_ofDeclarations_iff, Locals.declares_append_iff, outerLocals,
    Locals.declares_append_iff, or_assoc]
  refine or_congr_right ?_
  unfold localFunctions outerBody innerLocals
  cases routine.child? "body" with
  | none => simp [Locals.declares]
  | some body =>
      simp only [Locals.declares_flatMap_iff, mem_preorder_iff_outer body, List.mem_filter]
      constructor
      · rintro ⟨t, ht | ⟨v, hv, hfunction, ht⟩, hdeclares⟩
        · exact .inl ⟨t, ht, hdeclares⟩
        · exact .inr ⟨v, ⟨hv, hfunction⟩, t, ht, hdeclares⟩
      · rintro (⟨t, ht, hdeclares⟩ | ⟨v, ⟨hv, hfunction⟩, t, ht, hdeclares⟩)
        · exact ⟨t, .inl ht, hdeclares⟩
        · exact ⟨t, .inr ⟨v, hv, hfunction, ht⟩, hdeclares⟩

/-! ### Uses -/

section Uses

variable (f : SourceFile) (root : Tree) (s : Site)

def useAt : Outline.FieldUse :=
  match s.above.head? with
  | none => .none
  | some parent => State.fieldUse f.bytes parent s.node

/-- Whether a local hides the field that the identifier at a site names in a context. -/
def Hidden (ctx : Outline.Context) : Prop :=
  useAt f s = .bare ∧
    ((initialState f root).locals ctx).declares (s.node.text f.bytes) = true

instance (ctx : Outline.Context) : Decidable (Hidden f root s ctx) :=
  inferInstanceAs (Decidable (_ ∧ _))

/-- The edge of an identifier that names a field of a type, in a context, unless a local hides the
field. -/
def useOf? (ctx : Outline.Context) (type : String) : Option Edge :=
  let name := s.node.text f.bytes
  if useAt f s ≠ .none ∧ linker.DeclaresField f root type name ∧ ¬Hidden f root s ctx then
    some ⟨ctx.source, Ident.member type name, Relation.uses⟩
  else none

def use? : Option Edge :=
  if s.kind = "identifier" then
    ((initialState f root).outline.context? s).bind fun ctx =>
      ctx.owner.bind (useOf? f root s ctx)
  else none

end Uses

variable {f : SourceFile} {root : Tree} {n : Nat} {s : Site}

theorem linkField_stateAt (ctx : Outline.Context) (name : String) :
    (linker.stateAt f root n).outline.linkField ctx name =
      match ctx.owner with
      | none => (linker.stateAt f root n).outline
      | some type =>
          if linker.DeclaresField f root type name then
            (linker.stateAt f root n).outline.link ctx.source [Ident.member type name] Relation.uses
          else (linker.stateAt f root n).outline := by
  unfold Outline.linkField
  cases ctx.owner with
  | none => rfl
  | some type =>
      have hisField : (linker.stateAt f root n).outline.members.isField type name = true ↔
          linker.DeclaresField f root type name :=
        Linker.isField_membersAt_iff (L := linker)
      dsimp only
      by_cases hfield : linker.DeclaresField f root type name
      · have hmember : (linker.stateAt f root n).outline.members.resolveMember type name =
            Ident.member type name :=
          Linker.resolveMember_of_declares (L := linker) hfield.declares n
        rw [if_pos hfield, if_pos (hisField.mpr hfield), hmember]
      · rw [if_neg hfield, if_neg (mt hisField.mp hfield)]

theorem State.outline_linkFieldUse (st : State) (s : Site) :
    (st.linkFieldUse s).outline =
      match st.outline.context? s with
      | none => st.outline
      | some ctx =>
          st.outline.linkFieldUse ctx (st.locals ctx) (useAt st.file s)
            (s.node.text st.file.bytes) := by
  unfold linkFieldUse useAt
  cases s.above.head? with
  | none => cases st.outline.context? s <;> rfl
  | some parent =>
      dsimp only
      cases fieldUse st.file.bytes parent s.node <;> cases st.outline.context? s <;> rfl

/-- An identifier in a context adds the edge of its use. -/
theorem linkFieldUse_stateAt (ctx : Outline.Context) :
    (linker.stateAt f root n).outline.linkFieldUse ctx ((linker.stateAt f root n).locals ctx)
        (useAt f s) (s.node.text f.bytes) =
      match ctx.owner.bind (useOf? f root s ctx) with
      | none => (linker.stateAt f root n).outline
      | some e => (linker.stateAt f root n).outline.link e.source [e.target] e.relation := by
  -- What is not hidden is looked up as a field of the owner, whatever its role is.
  have hfield (huse : useAt f s ≠ .none) (hseen : ¬Hidden f root s ctx) :
      (linker.stateAt f root n).outline.linkField ctx (s.node.text f.bytes) =
        match ctx.owner.bind (useOf? f root s ctx) with
        | none => (linker.stateAt f root n).outline
        | some e => (linker.stateAt f root n).outline.link e.source [e.target] e.relation := by
    rw [linkField_stateAt]
    cases ctx.owner with
    | none => rfl
    | some type =>
        by_cases hdeclares : linker.DeclaresField f root type (s.node.text f.bytes)
        · simp [useOf?, huse, hseen, hdeclares]
        · simp [useOf?, hdeclares]
  have hnone (h : useAt f s = .none ∨ Hidden f root s ctx) :
      ctx.owner.bind (useOf? f root s ctx) = none := by
    rw [Option.bind_eq_none_iff]
    intro type _
    rw [useOf?, if_neg]
    rintro ⟨huse, -, hseen⟩
    exact h.elim huse hseen
  rw [locals_stateAt]
  cases huse : useAt f s with
  | none => rw [hnone (.inl huse), Outline.linkFieldUse]
  | bare =>
      rw [Outline.linkFieldUse]
      by_cases hhidden : Hidden f root s ctx
      · rw [if_pos hhidden.2, hnone (.inr hhidden)]
      · rw [if_neg fun hlocal => hhidden ⟨huse, hlocal⟩, hfield (by simp [huse]) hhidden]
  | ofThis =>
      have hseen : ¬Hidden f root s ctx := fun h => absurd (huse.symm.trans h.1) (by decide)
      rw [Outline.linkFieldUse, hfield (by simp [huse]) hseen]

/-- The visit of an identifier adds the edge of its use. -/
theorem outline_stateAt_succ_of_identifier (hs : root.sites[n]? = some s)
    (hkind : s.kind = "identifier") :
    (linker.stateAt f root (n + 1)).outline =
      match use? f root s with
      | none => (linker.stateAt f root n).outline
      | some e => (linker.stateAt f root n).outline.link e.source [e.target] e.relation := by
  have hfile : (linker.stateAt f root n).file = f := linker.file_stateAt n
  have hctx : (linker.stateAt f root n).outline.context? s =
      (initialState f root).outline.context? s := (linker.grown_stateAt n).context?_eq s
  rw [Linker.stateAt_succ hs]
  show ((linker.stateAt f root n).visit s).outline = _
  rw [State.visit, hkind, if_neg (by decide), if_neg (by decide), if_pos (by decide),
    State.outline_linkFieldUse, hctx, hfile, use?, if_pos hkind]
  cases (initialState f root).outline.context? s with
  | none => rfl
  | some ctx => exact linkFieldUse_stateAt ctx

/-! ### All uses of a file -/

section Uses

variable {e : Edge} (he : e.relation = Relation.uses)

include he

theorem State.mem_uses_addBases_iff (st : State) (space type : String) (ofInterface isFirst : Bool)
    (text : String) :
    e ∈ (st.addBases space type ofInterface isFirst text).outline.fragment.edges ↔
      e ∈ st.outline.fragment.edges := by
  have hsupertyping : ∀ relation ∈ Relation.supertyping, Relation.uses ≠ relation := by decide
  dsimp only [addBases]
  refine Outline.mem_edges_foldl_addBase_of_ne (fun _ => st.baseRelation ofInterface isFirst text)
    (fun base => base) fun _ _ => ?_
  rw [he]
  exact hsupertyping _ (st.baseRelation_mem ofInterface isFirst text)

theorem State.mem_uses_linkBases_iff (st : State) (s : Site) :
    e ∈ (st.linkBases s).outline.fragment.edges ↔ e ∈ st.outline.fragment.edges := by
  unfold linkBases
  split
  case h_1 =>
    refine List.foldlRecOn (motive := fun st' : State =>
      e ∈ st'.outline.fragment.edges ↔ e ∈ st.outline.fragment.edges) _ _ Iff.rfl ?_
    rintro st' h ⟨text, i⟩ _
    dsimp only
    rw [st'.mem_uses_addBases_iff he]
    exact h
  case h_2 => rfl

/-- A site that is no identifier adds no use of a field. -/
theorem State.mem_uses_visit_iff {st : State} (hkind : s.kind ≠ "identifier") :
    e ∈ (st.visit s).outline.fragment.edges ↔ e ∈ st.outline.fragment.edges := by
  have hcalls : e.relation ≠ Relation.calls := by
    rw [he]
    decide
  unfold visit
  rw [if_neg (show ¬(s.kind == "identifier") = true by simpa using hkind)]
  split_ifs
  · unfold linkInvocation
    split
    · exact Outline.mem_edges_link_of_ne hcalls
    · rfl
  · unfold linkCreation
    split
    · exact Outline.mem_edges_link_of_ne hcalls
    · rfl
  · exact st.mem_uses_linkBases_iff he s
  · rfl

/-- A visit adds the use of a field at its site, and no other use. -/
theorem mem_uses_stateAt_succ_iff (hs : root.sites[n]? = some s) :
    e ∈ (linker.stateAt f root (n + 1)).outline.fragment.edges ↔
      e ∈ (linker.stateAt f root n).outline.fragment.edges ∨ use? f root s = some e := by
  by_cases hkind : s.kind = "identifier"
  · rw [outline_stateAt_succ_of_identifier hs hkind]
    cases use? f root s with
    | none => simp
    | some e' => simp [Outline.mem_edges_link_iff]
  · have hnone : use? f root s = none := if_neg hkind
    rw [Linker.stateAt_succ hs, hnone]
    exact (State.mem_uses_visit_iff he hkind).trans (by simp)

/-- The uses of fields in a file are those of its identifiers. -/
theorem mem_uses_analyze_iff :
    e ∈ (analyze f root).edges ↔ ∃ s ∈ root.sites, use? f root s = some e := by
  have hlabels : ∀ x ∈ Relation.memberLabels, e.relation ≠ x.1 := by
    rw [he]
    decide
  refine (Linker.mem_edges_analyze_iff (L := linker)
    (fun n => ∃ s, root.sites[n]? = some s ∧ use? f root s = some e) hlabels
    fun n hn => ?_).trans ?_
  · have hs : root.sites[n]? = some root.sites[n] := List.getElem?_eq_getElem hn
    exact (mem_uses_stateAt_succ_iff he hs).trans (or_congr_right (by simp [hs]))
  · constructor
    · rintro ⟨n, -, s, hs, huse⟩
      exact ⟨s, List.mem_of_getElem? hs, huse⟩
    · rintro ⟨s, hs, huse⟩
      obtain ⟨n, hn⟩ := List.mem_iff_getElem?.mp hs
      exact ⟨n, (List.getElem?_eq_some_iff.mp hn).1, s, hn, huse⟩

end Uses

/-! ### Names that local functions hide -/

section Hiding

variable (f : SourceFile) (root : Tree) (g : Site) (name : String)

/-- The routine at a site, or one around it, has a local of the name outside its local functions. -/
def DeclaredOutside : Prop :=
  ∃ u ∈ (initialState f root).outline.routinesAt g,
    (outerLocals f.bytes u.node).declares name = true

/-- A local function in the routine at a site, or in one around it, has a local of the name. -/
def DeclaredInside : Prop :=
  ∃ u ∈ (initialState f root).outline.routinesAt g, ∃ v ∈ localFunctions u.node,
    (innerLocals f.bytes v).declares name = true

instance : Decidable (DeclaredOutside f root g name) :=
  inferInstanceAs (Decidable (∃ u ∈ _, _))

instance : Decidable (DeclaredInside f root g name) :=
  inferInstanceAs (Decidable (∃ u ∈ _, ∃ v ∈ _, _))

end Hiding

/-- A reference in a routine sees the locals of the routines around it and of all of their local
functions. -/
theorem declares_locals_iff {source name : String} {owner : Option String} {g : Site} :
    ((initialState f root).locals ⟨source, owner, some g⟩).declares name = true ↔
      DeclaredOutside f root g name ∨ DeclaredInside f root g name := by
  rw [State.locals, file_initialState]
  dsimp only
  rw [Locals.declares_flatMap_iff]
  simp only [declares_localsOf_iff, and_or_left, exists_or]
  rfl

/-- A use of a field of the own type in a routine, where no routine around it has a local with the
name of the field outside its local functions, is linked exactly if the field is named through
`this` or no local function has such a local. The fragment has no such edge without a use that is
linked. -/
theorem field_use_linked_unless_declared_inside {g : Site} {r : Routine} {type name : String}
    (hs : s ∈ root.sites) (hkind : s.kind = "identifier") (huse : useAt f s ≠ .none)
    (hname : s.node.text f.bytes = name)
    (hg : (initialState f root).outline.routineAround? s = some (g, r))
    (howner : r.owner = some type) (hfield : linker.DeclaresField f root type name)
    (hown : ¬DeclaredOutside f root g name) :
    let hidden := useAt f s = .bare ∧ DeclaredInside f root g name
    let edge : Edge := ⟨r.id, Ident.member type name, Relation.uses⟩
    use? f root s = (if hidden then none else some edge) ∧
      (¬hidden → edge ∈ (analyze f root).edges) ∧
      (edge ∈ (analyze f root).edges → ∃ s' ∈ root.sites, use? f root s' = some edge) := by
  intro hidden edge
  have hctx : (initialState f root).outline.context? s = some ⟨r.id, some type, some g⟩ := by
    rw [Outline.context?, hg, ← howner]
  have hhidden : Hidden f root s ⟨r.id, some type, some g⟩ ↔ hidden := by
    rw [Hidden, hname, declares_locals_iff, or_iff_right hown]
  have hat : use? f root s = if hidden then none else some edge := by
    rw [use?, if_pos hkind, hctx, Option.bind_some, Option.bind_some, useOf?, hname]
    by_cases h : hidden
    · rw [if_pos h, if_neg fun hseen => hseen.2.2 (hhidden.mpr h)]
    · rw [if_neg h, if_pos ⟨huse, hfield, mt hhidden.mp h⟩]
  refine ⟨hat, fun hseen => ?_, (mem_uses_analyze_iff rfl).mp⟩
  exact (mem_uses_analyze_iff rfl).mpr ⟨s, hs, hat.trans (if_neg hseen)⟩

namespace Sample

/-- A class with a field `x` whose method `M` uses the field and has a local function with one
parameter. -/
def nesting (parameter : String) : SourceFile × Tree :=
  (⟨"T.cs", Utf8.encode
      (("class T \x7b int x; void M() \x7b x = 1; void L(int " ++ parameter) ++
        ") \x7b \x7d \x7d \x7d").toList⟩,
    .node { kind := "compilation_unit", stop := 56 }
      [.node { kind := "class_declaration", stop := 56, key := 1 }
        [leaf "identifier" "name" 2 6 7,
          .node { kind := "declaration_list", field := "body", start := 8, stop := 56, key := 3 }
            [.node { kind := "field_declaration", start := 10, stop := 16, key := 4 }
              [.node { kind := "variable_declaration", start := 10, stop := 15, key := 5 }
                [leaf "predefined_type" "type" 6 10 13,
                  .node { kind := "variable_declarator", start := 14, stop := 15, key := 7 }
                    [leaf "identifier" "name" 8 14 15]]],
              .node { kind := "method_declaration", start := 17, stop := 54, key := 9 }
                [leaf "predefined_type" "returns" 10 17 21, leaf "identifier" "name" 11 22 23,
                  leaf "parameter_list" "parameters" 12 23 25,
                  .node { kind := "block", field := "body", start := 26, stop := 54, key := 13 }
                    [.node { kind := "expression_statement", start := 28, stop := 34, key := 14 }
                      [.node { kind := "assignment_expression", start := 28, stop := 33,
                               key := 15 }
                        [leaf "identifier" "left" 16 28 29,
                          leaf "integer_literal" "right" 17 32 33]],
                      .node { kind := "local_function_statement", start := 35, stop := 52,
                              key := 18 }
                        [leaf "predefined_type" "type" 19 35 39, leaf "identifier" "name" 20 40 41,
                          .node { kind := "parameter_list", field := "parameters", start := 41,
                                  stop := 48, key := 21 }
                            [.node { kind := "parameter", start := 42, stop := 47, key := 22 }
                              [leaf "predefined_type" "type" 23 42 45,
                                leaf "identifier" "name" 24 46 47]],
                          leaf "block" "body" 25 49 52]]]]]])

/-- The site in the method `M` names the field `x` of the class, and `M` has no local `x` outside
its local function; `inside` tells whether that function has one. -/
def NamesField (x : SourceFile × Tree) (s : Site) (inside : Prop) : Prop :=
  s.kind = "identifier" ∧ useAt x.1 s = .bare ∧ s.node.text x.1.bytes = "x" ∧
    linker.DeclaresField x.1 x.2 "T" "x" ∧
    ∃ y ∈ (initialState x.1 x.2).outline.routineAround? s, y.2 = ⟨"T:M", some "T"⟩ ∧
      ¬DeclaredOutside x.1 x.2 y.1 "x" ∧ (DeclaredInside x.1 x.2 y.1 "x" ↔ inside)

instance (x : SourceFile × Tree) (s : Site) (inside : Prop) [Decidable inside] :
    Decidable (NamesField x s inside) :=
  inferInstanceAs (Decidable (_ ∧ _))

end Sample

/-- A method uses a field beside a local function without a local of that name. -/
theorem field_use_linked_beside_local_function :
    ∃ s ∈ (Sample.nesting "y").2.sites, Sample.NamesField (Sample.nesting "y") s False ∧
      ⟨"T:M", "T:x", Relation.uses⟩ ∈
        (analyze (Sample.nesting "y").1 (Sample.nesting "y").2).edges := by
  obtain ⟨s, hs, hfound⟩ := (Option.any_eq_true _ _).mp
    (show ((Sample.nesting "y").2.sites[16]?).any (fun s =>
      decide (Sample.NamesField (Sample.nesting "y") s False)) = true by decide +kernel)
  have hnames := of_decide_eq_true hfound
  have ⟨hkind, huse, htext, hfield, ⟨g, r⟩, hg, hr, hown, hinside⟩ := hnames
  obtain rfl : r = ⟨"T:M", some "T"⟩ := hr
  obtain ⟨-, hedge, -⟩ := field_use_linked_unless_declared_inside (List.mem_of_getElem? hs) hkind
    (by rw [huse]; decide) htext hg rfl hfield hown
  exact ⟨s, List.mem_of_getElem? hs, hnames, hedge fun hhidden => hinside.mp hhidden.2⟩

/-- A parameter of a local function hides a field of its name in the method around it. -/
theorem field_use_not_linked_beside_local_function :
    (∃ s ∈ (Sample.nesting "x").2.sites, Sample.NamesField (Sample.nesting "x") s True) ∧
      ⟨"T:M", "T:x", Relation.uses⟩ ∉
        (analyze (Sample.nesting "x").1 (Sample.nesting "x").2).edges := by
  decide +kernel

end CSharp

end CodeGraph

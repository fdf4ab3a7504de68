import CodeGraph.Proofs.Linking.Receivers

/-!
Static members that a Java file imports one by one. Where several types have a member of one name
and the file imports each of them, the last import stands for the name: a call of the name in a type
that does not declare it itself is linked to the member of that one type.
-/

namespace CodeGraph.Java

open CodeGraph.Tree (Site leaf)

/-! ### The table of static members -/

/-- The type of which an import takes the single static member with the name. -/
def importedType? (name : String) (imp : Import) : Option String :=
  if imp.kind = .staticMember ∧ imp.glob = false then
    (Text.cutLast? (· == '.') imp.path).bind fun (type, member) =>
      if member = name then some type else none
  else none

def importedFrom (f : SourceFile) (root : Tree) (name : String) : List String :=
  (Import.packageImports f.bytes root).filterMap (importedType? name)

theorem lookup_addImport (st : State) (imp : Import) (name : String) :
    (addImport st imp).staticMembers.lookup name =
      ((importedType? name imp).map (Ident.member · name)).or
        (st.staticMembers.lookup name) := by
  unfold addImport importedType?
  split
  case h_1 hkind hglob => rw [if_neg (by simp [hglob])]; rfl
  case h_2 hkind hglob =>
    rw [if_pos ⟨hkind, hglob⟩]
    split
    case h_1 type member hcut =>
      rw [hcut, Option.bind_some, List.lookup_cons]
      by_cases hname : member = name
      · simp [hname]
      · have hother : (name == member) = false := beq_eq_false_iff_ne.mpr (Ne.symm hname)
        rw [hother]
        dsimp only
        rw [if_neg hname]
        rfl
    case h_2 hcut => rw [hcut]; rfl
  case h_3 hglob hkind => rw [if_neg fun h => hkind h.1]; rfl
  case h_4 hglob hkind => rw [if_neg fun h => hkind h.1]; rfl

/-- A later import of a name stands before an earlier one. -/
theorem lookup_foldl_addImport (imports : List Import) (st : State) (name : String) :
    (imports.foldl addImport st).staticMembers.lookup name =
      ((imports.filterMap (importedType? name)).getLast?.map (Ident.member · name)).or
        (st.staticMembers.lookup name) := by
  induction imports generalizing st with
  | nil => rfl
  | cons imp imports ih =>
      rw [List.foldl_cons, ih, lookup_addImport]
      cases htype : importedType? name imp with
      | none => simp [htype]
      | some type =>
          cases hlast : (imports.filterMap (importedType? name)).getLast? <;>
            simp [htype, hlast, List.getLast?_cons]

theorem lookup_staticMembers (f : SourceFile) (root : Tree) (name : String) :
    (initialState f root).staticMembers.lookup name =
      (importedFrom f root name).getLast?.map (Ident.member · name) := by
  refine (lookup_foldl_addImport (Import.packageImports f.bytes root) _ name).trans ?_
  exact Option.or_none

/-! ### Calls without a receiver -/

/-- The call at a place without a receiver: the innermost routine around the call, and the name that
is called. -/
def plainCall? (f : SourceFile) (root : Tree) (n : Nat) : Option ((Site × Routine) × String) := do
  let s ← root.sites[n]?
  let around ← (initialState f root).outline.routineAround? s
  let name ← s.node.childText? f.bytes "name"
  if s.kind = "method_invocation" ∧ s.node.child? "object" = none then some (around, name) else none

section Calls

variable {f : SourceFile} {root : Tree} {n : Nat} {g : Site} {r : Routine} {name : String}

/-- A call of a static member that its owner does not declare goes to the last type of which the
member is imported. -/
theorem plainCallTargets_stateAt (hown : ∀ owner ∈ r.owner, ¬linker.Declares f root owner name)
    {last : String} (hlast : (importedFrom f root name).getLast? = some last) :
    (linker.stateAt f root n).plainCallTargets r.owner name = [Ident.member last name] := by
  have hmember : (r.owner.bind fun owner => (linker.stateAt f root n).members.member? owner name) =
      none := by
    rw [Option.bind_eq_none_iff]
    intro owner howner
    exact (Linker.member?_membersAt (L := linker) n owner name).trans (if_neg (hown owner howner))
  have hstatic :
      (linker.stateAt f root n).staticMembers.lookup name = some (Ident.member last name) := by
    rw [(follows_stateAt f root n).rest]
    exact (lookup_staticMembers f root name).trans (by rw [hlast]; rfl)
  rw [State.plainCallTargets, hmember]
  dsimp only
  rw [hstatic]

theorem callsAt_of_plainCall? (h : plainCall? f root n = some ((g, r), name)) :
    callsAt f root n = ((linker.stateAt f root n).plainCallTargets r.owner name).map fun target =>
      ⟨r.id, target, Relation.calls⟩ := by
  simp only [plainCall?, Option.bind_eq_bind, Option.bind_eq_some_iff,
    Option.ite_none_right_eq_some] at h
  obtain ⟨s, hs, around, hg, name', hname, ⟨hkind, hobject⟩, heq⟩ := h
  cases heq
  have hfollows := follows_stateAt f root n
  have htargets : (linker.stateAt f root n).targets s ⟨r.id, r.owner, some g⟩ =
      (linker.stateAt f root n).plainCallTargets r.owner name := by
    rw [State.targets, hkind, if_pos (by decide), hfollows.file_eq, hname, hobject]
  rw [callsAt, hs]
  dsimp only
  rw [State.calls, hfollows.context? hg]
  dsimp only
  rw [htargets]

/-- A call without a receiver of a name of which static members are imported one by one, in a
routine whose owner declares no such member, is linked to the member of one type, which the last of
these imports names. So it is linked to the member of an imported type exactly if the last one is of
that type. There are no other calls than those that are made at the places of the file. -/
theorem static_call_linked_to_last_import {type : String}
    (hcall : plainCall? f root n = some ((g, r), name))
    (hown : ∀ owner ∈ r.owner, ¬linker.Declares f root owner name)
    (htype : type ∈ importedFrom f root name) :
    ∃ last, (importedFrom f root name).getLast? = some last ∧
      callsAt f root n = [⟨r.id, Ident.member last name, Relation.calls⟩] ∧
      ⟨r.id, Ident.member last name, Relation.calls⟩ ∈ (analyze f root).edges ∧
      (⟨r.id, Ident.member type name, Relation.calls⟩ ∈ callsAt f root n ↔ type = last) ∧
      ∀ e : Edge, e.relation = Relation.calls →
        (e ∈ (analyze f root).edges ↔ ∃ k, e ∈ callsAt f root k) := by
  obtain ⟨last, hlast⟩ : ∃ last, (importedFrom f root name).getLast? = some last :=
    ⟨_, List.getLast?_eq_some_getLast (List.ne_nil_of_mem htype)⟩
  have hcalls : callsAt f root n = [⟨r.id, Ident.member last name, Relation.calls⟩] := by
    rw [callsAt_of_plainCall? hcall, plainCallTargets_stateAt hown hlast, List.map_singleton]
  refine ⟨last, hlast, hcalls, (mem_calls_analyze_iff f root rfl).mpr ⟨n, ?_⟩, ?_,
    fun e he => mem_calls_analyze_iff f root he⟩
  · rw [hcalls]
    exact List.mem_singleton_self _
  · rw [hcalls, List.mem_singleton, Edge.mk.injEq, Ident.member, Ident.member,
      String.append_left_inj, String.append_left_inj]
    simp

end Calls

namespace Sample

/-- The tree of an import of a static member `p.C.m`. -/
def staticImport (key start : Nat) : Tree :=
  .node { kind := "import_declaration", start, stop := start + 20, key }
    [.node { kind := "static", named := false, start := start + 7, stop := start + 13,
             key := key + 1 } [],
      leaf "scoped_identifier" "" (key + 2) (start + 14) (start + 19)]

/-- A class that calls `m`, which is imported from `p.X` and then from `p.Y`. -/
def importingTwice : SourceFile × Tree :=
  (⟨"A.java", Utf8.encode ("import static p.X.m; import static p.Y.m; " ++
      "class A \x7b void run() \x7b m(); \x7d \x7d").toList⟩,
    .node { kind := "program", stop := 73 }
      [staticImport 1 0, staticImport 4 21,
        .node { kind := "class_declaration", start := 42, stop := 73, key := 7 }
          [leaf "identifier" "name" 8 48 49,
            .node { kind := "class_body", field := "body", start := 50, stop := 73, key := 9 }
              [method 10 52 60 71
                [.node { kind := "expression_statement", start := 65, stop := 69, key := 15 }
                  [.node { kind := "method_invocation", start := 65, stop := 68, key := 16 }
                    [leaf "identifier" "name" 17 65 66,
                      leaf "argument_list" "arguments" 18 66 68]]]]]])

/-- At a place in the method `A:run`, the name `m` is called without a receiver; the class declares
no such member, and the file imports that of the type. -/
def CallsImported (x : SourceFile × Tree) (type : String) (n : Nat) : Prop :=
  type ∈ importedFrom x.1 x.2 "m" ∧ ¬linker.Declares x.1 x.2 "A" "m" ∧
    ∃ y ∈ plainCall? x.1 x.2 n, y.1.2 = ⟨"A:run", some "A"⟩ ∧ y.2 = "m"

instance (x : SourceFile × Tree) (type : String) (n : Nat) : Decidable (CallsImported x type n) :=
  inferInstanceAs (Decidable (_ ∧ _))

end Sample

/-- A call of a member that is imported from two types gives an edge to that of the last one. -/
theorem last_static_import_call_linked :
    Sample.CallsImported Sample.importingTwice "p.Y" 16 ∧
      ⟨"A:run", "p.Y:m", Relation.calls⟩ ∈
        (analyze Sample.importingTwice.1 Sample.importingTwice.2).edges := by
  have hcalls : Sample.CallsImported Sample.importingTwice "p.Y" 16 := by decide +kernel
  have ⟨htype, hown, ⟨⟨g, r⟩, name⟩, hcall, hr, hname⟩ := hcalls
  obtain rfl : name = "m" := hname
  obtain rfl : r = ⟨"A:run", some "A"⟩ := hr
  obtain ⟨last, hlast, -, hedge, -⟩ := static_call_linked_to_last_import hcall
    (fun owner howner => Option.mem_some.mp howner ▸ hown) htype
  have hY : (importedFrom Sample.importingTwice.1 Sample.importingTwice.2 "m").getLast? =
      some "p.Y" := by
    decide +kernel
  obtain rfl : last = "p.Y" := Option.some_inj.mp (hlast.symm.trans hY)
  exact ⟨hcalls, hedge⟩

/-- A call of a member that is imported from two types gives no edge to that of the first one. -/
theorem first_static_import_call_not_linked :
    Sample.CallsImported Sample.importingTwice "p.X" 16 ∧
      ⟨"A:run", "p.X:m", Relation.calls⟩ ∉
        (analyze Sample.importingTwice.1 Sample.importingTwice.2).edges := by
  decide +kernel

end CodeGraph.Java

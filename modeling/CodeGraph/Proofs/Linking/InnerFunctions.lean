import CodeGraph.Proofs.Linking.Descent
import CodeGraph.Proofs.Linking.Inheritance
import CodeGraph.Proofs.Linking.Modules

/-!
Calls of the functions that a routine of a TypeScript module defines inside. Each of them is a
function of the module, whether it is declared as one or bound to a variable. A call of its name is
linked to it exactly if the routine sees no local of that name. The variable that a function is
bound to is such a local, so that calls of a bound function are dropped.
-/

namespace CodeGraph

open CodeGraph.Tree (Site OwnedSite leaf)

theorem Locals.declares_iff {ls : Locals} {name : String} :
    ls.declares name = true ↔ ∃ x ∈ ls, x.1 = name := by
  rw [declares, List.lookup_isSome_iff]
  simp only [beq_iff_eq, eq_comm (a := name)]

/-- The innermost routine around a site is registered and stands around the site. -/
theorem Outline.of_routineAround? {o : Outline} {s g : Site} {r : Routine}
    (h : o.routineAround? s = some (g, r)) :
    g ∈ s.ancestors ∧ o.routines.get? g.node.key = some r := by
  obtain ⟨a, ha, h⟩ := List.exists_of_findSome?_eq_some h
  obtain ⟨r', hr, heq⟩ := Option.map_eq_some_iff.mp h
  cases heq
  exact ⟨ha, hr⟩

namespace TypeScript

/-! ### Functions inside a routine -/

/-- The node defines a function with the name: it declares one, or it binds one to a variable. -/
inductive DefinesFunction (src : Bytes) (name : String) (t : Tree) : Prop where
  | declared (hkind : t.isKind functionKinds = true) (hname : t.childText? src "name" = some name)
  | bound {nameNode value : Tree} (hkind : t.kind = "variable_declarator")
      (hname : t.child? "name" = some nameNode) (hidentifier : nameNode.kind = "identifier")
      (htext : nameNode.text src = name) (hvalue : t.child? "value" = some value)
      (hfunction : value.isKind functionValueKinds = true)

/-- A function is a declaration of the place that defines it. -/
theorem DefinesFunction.exists_mem_declaredAt {f : SourceFile} {name : String} {x : OwnedSite}
    (h : DefinesFunction f.bytes name x.1.node) :
    ∃ u, functionDeclaration f u name ∈ declaredAt f x := by
  cases h with
  | declared hkind hname =>
      refine ⟨x.1.node, ?_⟩
      rw [declaredAt_of_not_opensType (opensType_eq_false_of_isKind (by decide) hkind)]
      unfold ownDeclarations
      rw [if_pos hkind, hname]
      exact List.mem_singleton_self _
  | @bound nameNode value hkind hname hidentifier htext hvalue hfunction =>
      have hopens : opensType x.1.node = false := by rw [opensType, Tree.isKind, hkind]; decide
      have hfilter : (x.1.node.child? "value").filter (·.isKind functionValueKinds) = some value :=
        Option.filter_eq_some_iff.mpr ⟨hvalue, hfunction⟩
      have hvariable : variableDeclaration? f x.1.above x.1.node =
          some (functionDeclaration f value name) := by
        rw [variableDeclaration?, hname]
        simp only [hidentifier, bne_self_eq_false, Bool.false_eq_true, if_false, hfilter, htext]
      refine ⟨value, ?_⟩
      rw [declaredAt_of_not_opensType hopens]
      unfold ownDeclarations
      rw [Tree.isKind, Tree.isKind, hkind, hvariable]
      exact List.mem_singleton_self _

/-- A variable that a function is bound to is a local. -/
theorem exists_mem_localsOfNode {src : Bytes} {name : String} {t : Tree}
    (h : DefinesFunction src name t) (hkind : t.kind = "variable_declarator") :
    ∃ type, (name, type) ∈ localsOfNode src t := by
  cases h with
  | declared hfunction =>
      rw [Tree.isKind, hkind] at hfunction
      exact absurd hfunction (by decide)
  | bound _ hname hidentifier htext =>
      have hfilter := Option.filter_eq_some_iff.mpr
        ⟨hname, show isIdentifier _ = true from beq_iff_eq.mpr hidentifier⟩
      rw [localsOfNode, Tree.isKind, hkind, hfilter, ← htext]
      exact ⟨_, List.mem_singleton_self _⟩

/-! ### The state of a walk -/

section Walk

variable (f : SourceFile) (root : Tree) (n : Nat)

def localsAt (g : Site) : Locals :=
  ((initialState f root).outline.routinesAt g).flatMap fun r => localsOf f.bytes r.node

/-- The locals that a reference sees do not depend on what has been linked. -/
theorem locals_stateAt (source : String) (owner : Option String) (g : Site) :
    (linker.stateAt f root n).locals ⟨source, owner, some g⟩ = localsAt f root g := by
  have hfile : (linker.stateAt f root n).file = f := linker.file_stateAt n
  have hroutines : (linker.stateAt f root n).outline.routinesAt g =
      (initialState f root).outline.routinesAt g :=
    (linker.grown_stateAt n).routinesAt_eq g
  rw [State.locals, localsAt, hfile]
  dsimp only
  rw [hroutines]

end Walk

/-! ### Names -/

theorem get?_addSymbol {symbols : SymbolTable} (hcase : symbols.ignoresCase = false)
    (d : Declaration) (name : String) :
    (addSymbol symbols d).ignoresCase = false ∧
      (addSymbol symbols d).get? name =
        (symbols.get? name).or (if symbol? d = some name then some d.node.id else none) := by
  have hinsert (key id : String) : (symbols.insert key id).get? name =
      (symbols.get? name).or (if some key = some name then some id else none) := by
    simp only [SymbolTable.get?_insert hcase, Option.some_inj, eq_comm]
  cases d with
  | type key name' node isInterface => exact ⟨hcase, hinsert name' node.id⟩
  | routine key name' node owner =>
      cases owner with
      | none => exact ⟨hcase, hinsert name' node.id⟩
      | some owner => exact ⟨hcase, (Option.or_none ..).symm⟩
  | field => exact ⟨hcase, (Option.or_none ..).symm⟩
  | global name' node => exact ⟨hcase, hinsert name' node.id⟩

/-- A name stands for its first declaration. -/
theorem get?_foldl_addSymbol (ds : List Declaration) (name : String) :
    (ds.foldl addSymbol {}).get? name =
      (ds.find? fun d => symbol? d = some name).map (·.node.id) := by
  have hall : ∀ symbols : SymbolTable, symbols.ignoresCase = false →
      (ds.foldl addSymbol symbols).get? name =
        (symbols.get? name).or ((ds.find? fun d => symbol? d = some name).map (·.node.id)) := by
    induction ds with
    | nil => simp
    | cons d ds ih =>
        intro symbols hcase
        obtain ⟨hcase', hadd⟩ := get?_addSymbol hcase d name
        rw [List.foldl_cons, ih _ hcase', hadd, Option.or_assoc, List.find?_cons]
        by_cases hname : symbol? d = some name <;> simp [hname]
  rw [hall {} rfl]
  rfl

/-- The name of a function of the module stands for the function, whatever is imported. -/
theorem resolveName_stateAt {f : SourceFile} {root u : Tree} {name : String}
    (h : functionDeclaration f u name ∈ declarations f [] none root) (n : Nat) :
    (linker.stateAt f root n).resolveName name = Ident.inFile f.path name := by
  obtain ⟨d, hd⟩ : ∃ d, (declarations f [] none root).find? (fun d => symbol? d = some name) =
      some d :=
    Option.isSome_iff_exists.mp
      (List.find?_isSome.mpr ⟨_, h, by simp [functionDeclaration, symbol?]⟩)
  have hid : d.node.id = Ident.inFile f.path name :=
    (made_of_mem_declarations root d (List.mem_of_find?_eq_some hd)).id_of_symbol?
      (by simpa using List.find?_some hd)
  have hvisit (st : State) (s : Site) : (st.visit s).symbols = st.symbols := by rw [st.visit_eq]
  have hsymbols : (linker.stateAt f root n).symbols = (initialState f root).symbols :=
    linker.read_stateAt State.symbols hvisit n
  rw [State.resolveName, hsymbols, symbols_initialState, get?_foldl_addSymbol, hd,
    Option.map_some, hid]
  rfl

/-! ### Calls -/

section Calls

variable {f : SourceFile} {root : Tree} {n : Nat} {s g : Site} {r : Routine} {callee v : Tree}
  {name : String}

/-- A bound function is a local of every routine that holds it. -/
theorem declares_localsAt
    (hroutine : (initialState f root).outline.routines.get? g.node.key = some r)
    (hheld : Holds g.node v) (hdefines : DefinesFunction f.bytes name v)
    (hkind : v.kind = "variable_declarator") : (localsAt f root g).declares name = true := by
  obtain ⟨type, hlocal⟩ := exists_mem_localsOfNode hdefines hkind
  have hregistered : g ∈ (initialState f root).outline.routinesAt g := by
    rw [Outline.routinesAt, List.mem_filter]
    exact ⟨List.mem_cons_self, by rw [Bindings.contains, hroutine]; rfl⟩
  refine Locals.declares_iff.mpr ⟨(name, type), List.mem_flatMap_of_mem hregistered ?_, rfl⟩
  rw [localsOf, Locals.ofDeclarations, List.mem_reverse]
  exact List.mem_append_right _ (List.mem_flatMap_of_mem hheld.mem_preorder hlocal)

/-- The visit of a call by a name links it to what the name stands for, unless it is a local. -/
theorem outline_stateAt_succ_of_call (hs : root.sites[n]? = some s)
    (hkind : s.kind = "call_expression") (hcallee : s.node.child? "function" = some callee)
    (hidentifier : callee.kind = "identifier") (hname : callee.text f.bytes = name)
    (hg : (initialState f root).outline.routineAround? s = some (g, r)) :
    (linker.stateAt f root (n + 1)).outline = (linker.stateAt f root n).outline.link r.id
      (if (localsAt f root g).declares name then []
        else [(linker.stateAt f root n).resolveName name])
      Relation.calls := by
  have hctx : (linker.stateAt f root n).outline.context? s = some ⟨r.id, r.owner, some g⟩ := by
    refine ((linker.grown_stateAt n).context?_eq s).trans ?_
    rw [Outline.context?, show linker.outline (initialState f root) = _ from rfl, hg]
  have hfile : (linker.stateAt f root n).file = f := linker.file_stateAt n
  rw [Linker.stateAt_succ hs]
  show ((linker.stateAt f root n).visit s).outline = _
  rw [State.visit, hkind, if_neg (by decide), if_neg (by decide), if_pos (by decide),
    State.linkCall, hcallee, hctx]
  dsimp only
  rw [State.callTarget?, hidentifier, if_pos (by decide), hfile, hname, locals_stateAt]
  dsimp only
  split <;> rfl

/-- A function that is defined inside a routine is a function of the module. The call of its name in
the routine is linked to it exactly if the routine sees no local of that name, which it does if the
function is bound to a variable. -/
theorem inner_function_call_linked (hkeys : (root.sites.map (·.node.key)).Nodup)
    (hs : root.sites[n]? = some s) (hkind : s.kind = "call_expression")
    (hcallee : s.node.child? "function" = some callee) (hidentifier : callee.kind = "identifier")
    (hname : callee.text f.bytes = name)
    (hg : (initialState f root).outline.routineAround? s = some (g, r))
    (hheld : Holds g.node v) (hdefines : DefinesFunction f.bytes name v) :
    Ident.inFile f.path name ∈ (analyze f root).ids ∧
      (linker.stateAt f root (n + 1)).outline = (linker.stateAt f root n).outline.link r.id
        (if (localsAt f root g).declares name then [] else [Ident.inFile f.path name])
        Relation.calls ∧
      ((localsAt f root g).declares name = false →
        ⟨r.id, Ident.inFile f.path name, Relation.calls⟩ ∈ (analyze f root).edges) ∧
      (v.kind = "variable_declarator" → (localsAt f root g).declares name = true) := by
  obtain ⟨haround, hroutine⟩ := Outline.of_routineAround? hg
  have hsite : g ∈ root.sites := Tree.ancestors_subset_sites s (List.mem_of_getElem? hs) haround
  obtain ⟨owner, hreaches⟩ := exists_reaches_of_routine hkeys hsite hroutine
  obtain ⟨above, hv⟩ := hreaches.of_holds hheld
  obtain ⟨u, hu⟩ := DefinesFunction.exists_mem_declaredAt (x := (⟨v, above⟩, owner)) hdefines
  have hd : functionDeclaration f u name ∈ declarations f [] none root :=
    mem_declarations_iff.mpr ⟨_, hv, hu⟩
  have hlink := outline_stateAt_succ_of_call hs hkind hcallee hidentifier hname hg
  rw [resolveName_stateAt hd] at hlink
  refine ⟨?_, hlink, fun hlocal => ?_, declares_localsAt hroutine hheld hdefines⟩
  · exact Outline.id_mem_foldl_of_linked State.outline State.linked_visit
      (outline_initialState f root) root.sites hd
  · exact Linker.mem_edges_of_link (L := linker) hlink (by simp [hlocal])

end Calls

namespace Sample

/-- A function `g` that makes a definition and then calls `f`. -/
def calling (key start stop : Nat) (definition : Tree) : Tree :=
  .node { kind := "program", stop }
    [.node { kind := "function_declaration", stop, key := 1 }
      [leaf "identifier" "name" 2 9 10, leaf "formal_parameters" "parameters" 3 10 12,
        .node { kind := "statement_block", field := "body", start := 13, stop, key := 4 }
          [definition,
            .node { kind := "expression_statement", start, stop := start + 4, key }
              [.node { kind := "call_expression", start, stop := start + 3, key := key + 1 }
                [leaf "identifier" "function" (key + 2) start (start + 1),
                  leaf "arguments" "arguments" (key + 3) (start + 1) (start + 3)]]]]]

def declaring : SourceFile × Tree :=
  (⟨"a.ts", Utf8.encode "function g() \x7b function f() \x7b \x7d f(); \x7d".toList⟩,
    calling 9 32 38 (.node { kind := "function_declaration", start := 15, stop := 31, key := 5 }
      [leaf "identifier" "name" 6 24 25, leaf "formal_parameters" "parameters" 7 25 27,
        leaf "statement_block" "body" 8 28 31]))

def binding : SourceFile × Tree :=
  (⟨"a.ts", Utf8.encode "function g() \x7b const f = () => 1; f(); \x7d".toList⟩,
    calling 11 34 40 (.node { kind := "lexical_declaration", start := 15, stop := 33, key := 5 }
      [.node { kind := "variable_declarator", start := 21, stop := 32, key := 6 }
        [leaf "identifier" "name" 7 21 22,
          .node { kind := "arrow_function", field := "value", start := 25, stop := 32, key := 8 }
            [leaf "formal_parameters" "parameters" 9 25 27, leaf "number" "body" 10 31 32]]]))

def CallsInner (x : SourceFile × Tree) (s : Site) : Prop :=
  s.kind = "call_expression" ∧
    (∃ callee ∈ s.node.child? "function", callee.kind = "identifier" ∧
      callee.text x.1.bytes = "f") ∧
    ((initialState x.1 x.2).outline.routineAround? s).map (·.2.id) = some "a.ts:g"

instance (x : SourceFile × Tree) (s : Site) : Decidable (CallsInner x s) :=
  inferInstanceAs (Decidable (_ ∧ _))

end Sample

/-- A function that is declared inside another one is called there. -/
theorem declared_function_call_linked :
    ∃ s ∈ Sample.declaring.2.sites, Sample.CallsInner Sample.declaring s ∧
      "a.ts:f" ∈ (analyze Sample.declaring.1 Sample.declaring.2).ids ∧
      ⟨"a.ts:g", "a.ts:f", Relation.calls⟩ ∈
        (analyze Sample.declaring.1 Sample.declaring.2).edges := by
  obtain ⟨s, hs, hcall⟩ := (Option.any_eq_true _ _).mp
    (show (Sample.declaring.2.sites[10]?).any (fun s =>
      decide (Sample.CallsInner Sample.declaring s) &&
      ((initialState Sample.declaring.1 Sample.declaring.2).outline.routineAround? s).any
        fun x => decide (x.2.id = "a.ts:g" ∧ opensType x.1.node = false ∧
          (localsAt Sample.declaring.1 Sample.declaring.2 x.1).declares "f" = false ∧
          ∃ body ∈ x.1.node.children, opensType body = false ∧ ∃ v ∈ body.children,
            v.isKind functionKinds = true ∧
              v.childText? Sample.declaring.1.bytes "name" = some "f")) = true by decide +kernel)
  obtain ⟨hcall, hroutine⟩ := (Bool.and_eq_true _ _).mp hcall
  obtain ⟨⟨g, r⟩, hg, hinside⟩ := (Option.any_eq_true _ _).mp hroutine
  obtain ⟨hr, hopens, hlocal, body, hbody, hopens', v, hv, hfunction, hname⟩ :=
    of_decide_eq_true hinside
  have hcalls := of_decide_eq_true hcall
  have ⟨hkind, ⟨callee, hcallee, hidentifier, htext⟩, _⟩ := hcalls
  have hheld : Holds g.node v :=
    (Relation.ReflTransGen.single ⟨hopens, hbody⟩).tail ⟨hopens', hv⟩
  obtain ⟨hid, -, hedge, -⟩ := inner_function_call_linked (by decide +kernel) hs hkind hcallee
    hidentifier htext hg hheld (.declared hfunction hname)
  exact ⟨s, List.mem_of_getElem? hs, hcalls, hid, hr ▸ hedge hlocal⟩

/-- A function that is bound to a variable inside another one is called there, without an edge. -/
theorem bound_function_call_not_linked :
    (∃ s ∈ Sample.binding.2.sites, Sample.CallsInner Sample.binding s) ∧
      (∃ t ∈ Sample.binding.2.preorder, t.kind = "variable_declarator" ∧
        t.childText? Sample.binding.1.bytes "name" = some "f" ∧
        (t.child? "value").any (·.isKind functionValueKinds) = true) ∧
      "a.ts:f" ∈ (analyze Sample.binding.1 Sample.binding.2).ids ∧
      ⟨"a.ts:g", "a.ts:f", Relation.calls⟩ ∉
        (analyze Sample.binding.1 Sample.binding.2).edges := by
  decide +kernel

end TypeScript

end CodeGraph

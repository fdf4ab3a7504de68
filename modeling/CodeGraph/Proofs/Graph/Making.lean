import CodeGraph.Cpp.References
import CodeGraph.Proofs.Closure.Linking
import CodeGraph.Proofs.Closure.Scripts
import CodeGraph.Proofs.Graph.Declared
import CodeGraph.Proofs.Graph.Properties

/-!
How the nodes of a fragment come about. The analyzers that work on a tree make their nodes in three
ways, for a plain definition, for a block and for a routine, and add details under a few keys.
A condition that holds for what is made in these ways, and that details leave alone, holds for
every node of a fragment. What is known of all nodes of the tree may be used for it. In a script
each node is that of a definition.
-/

namespace CodeGraph

open Declaration

/-- The keys of the details that are added to a node once it is made. -/
def Key.details : List String :=
  [Key.kind, Key.dataType, "package", "namespace", "static", "abstract"]

/-- The condition holds for the nodes that the trees with `Q` of a file are made into. -/
structure Makes (P : Node → Prop) (Q : Tree → Prop) (f : SourceFile) : Prop where
  definition : ∀ (t : Tree) (id : String) {label : String} (name : String),
    Label.isCallable label = false →
      P (Node.definition id label name f.path (t.startLine f.bytes))
  spanning : ∀ {t : Tree} (id : String) {label : String} (name : String), Q t →
    Label.isCallable label = false → P (spanning f t id label name)
  routine : ∀ (branches : List String) {t : Tree} (id label name : String), Q t →
    P (routineNode f branches t id label name)
  detail : ∀ {n : Node} {key : String} {value : Json}, P n → key ∈ Key.details →
    value.Canonical → P (n.set key value)

namespace Makes

variable {P : Node → Prop} {Q : Tree → Prop} {f : SourceFile} (hP : Makes P Q f)

include hP

theorem field (t : Tree) (id name typeText : String) :
    P (fieldNode f t id Label.field name typeText) :=
  hP.detail (hP.definition t id name (by decide)) (by decide) (.str _)

theorem mark {n : Node} (h : P n) {key : String} (hkey : key ∈ Key.details) (holds : Bool) :
    P (mark n key holds) := by
  unfold Declaration.mark
  split
  · exact hP.detail h hkey (.bool true)
  · exact h

end Makes

variable {P : Node → Prop} {Q : Tree → Prop} {f : SourceFile} {d : Declaration}

/-! ### Declarations -/

theorem Java.MadeFrom.holds {package : String} (h : MadeFrom Q f package d) (hP : Makes P Q f) :
    P d.node := by
  cases h with
  | type t owner name ht =>
      refine hP.detail (hP.detail (hP.spanning _ _ ht ?_) (by decide) (.str _)) (by decide) (.str _)
      split <;> decide
  | method t owner name ht =>
      refine hP.mark ?_ (by decide) _
      split
      · exact hP.routine _ _ _ _ ht
      · exact hP.detail (hP.routine _ _ _ _ ht) (by decide) (.str _)
  | field h =>
      obtain ⟨declarator, -, h⟩ := List.mem_filterMap.mp h
      obtain ⟨name, -, rfl⟩ := Option.map_eq_some_iff.mp h
      exact hP.mark (hP.field ..) (by decide) _
  | component h =>
      unfold componentDeclarations at h
      split at h
      · split at h
        · cases h
        · obtain ⟨p, -, hp⟩ := List.mem_filterMap.mp h
          split at hp
          · cases hp
            exact hP.field ..
          · cases hp
      · cases h

theorem CSharp.MadeFrom.holds (h : MadeFrom Q f d) (hP : Makes P Q f) : P d.node := by
  cases h with
  | type space t owner name ht =>
      refine hP.detail (hP.detail (hP.spanning _ _ ht ?_) (by decide) (.str _)) (by decide) (.str _)
      split <;> decide
  | routine t owner name ht =>
      refine hP.mark ?_ (by decide) _
      have hkind {n : Node} (hn : P n) : P (if t.kind == "constructor_declaration" then
          n.set Key.kind (.str "constructor") else n) := by
        split
        · exact hP.detail hn (by decide) (.str _)
        · exact hn
      cases owner with
      | none => exact hkind (hP.routine _ _ _ _ ht)
      | some owner => exact hkind (hP.routine _ _ _ _ ht)
  | field h =>
      unfold fieldDeclarations at h
      split at h
      · cases h
      · obtain ⟨declarator, -, h⟩ := List.mem_filterMap.mp h
        obtain ⟨name, -, rfl⟩ := Option.map_eq_some_iff.mp h
        exact hP.mark (hP.field ..) (by decide) _
  | property h =>
      unfold propertyDeclaration? at h
      split at h
      · cases h
        exact hP.mark (hP.detail (hP.field ..) (by decide) (.str _)) (by decide) _
      · cases h

namespace TypeScript

/-- A function that is the value of a variable is made from the value. -/
theorem holds_of_variableDeclaration? {above : List Tree} {t : Tree} (hQ : Tree.Hereditary Q)
    (ht : Q t) (hP : Makes P Q f) (h : variableDeclaration? f above t = some d) : P d.node := by
  have hglobal : ∀ id name kind, P ((Node.definition id Label.global name f.path
      (t.startLine f.bytes)).set Key.kind (.str kind)) :=
    fun id name kind => hP.detail (hP.definition t id name (by decide)) (by decide) (.str kind)
  unfold variableDeclaration? at h
  split at h
  · cases h
  · split at h
    · cases h
    · dsimp only at h
      split at h
      case h_1 value hvalue =>
        cases h
        have hchild := (Option.filter_eq_some_iff.mp hvalue).1
        exact hP.routine _ _ _ _ (hQ t ht value (List.mem_of_find?_eq_some hchild))
      case h_2 =>
        split at h
        · cases h
        · split at h
          · cases h
            dsimp only [Declaration.node]
            split
            · exact hP.detail (hglobal ..) (by decide) (.str _)
            · exact hglobal ..
          · cases h

theorem MadeFrom.holds (h : MadeFrom Q f d) (hQ : Tree.Hereditary Q) (hP : Makes P Q f) :
    P d.node := by
  cases h with
  | class_ t name ht => exact hP.mark (hP.spanning _ _ ht (by decide)) (by decide) _
  | interface t name ht => exact hP.spanning _ _ ht (by decide)
  | function t name ht => exact hP.routine _ _ _ _ ht
  | method t owner name ht => exact hP.mark (hP.routine _ _ _ _ ht) (by decide) _
  | field t owner name => exact hP.field ..
  | declarator h ht => exact holds_of_variableDeclaration? hQ ht hP h

end TypeScript

namespace Outline

theorem each_record {o : Outline} (h : o.fragment.Each P) (hd : P d.node) :
    (o.record d).fragment.Each P := by
  rw [Fragment.Each, nodes_record]
  exact h.addNode hd

theorem each_ofDeclarations {ds : List Declaration} (h : ∀ d ∈ ds, P d.node) :
    (ofDeclarations ds).fragment.Each P :=
  List.foldlRecOn (motive := fun o => Fragment.Each P (Outline.fragment o)) ds record
    (Fragment.each_empty P) fun _ ho d hd => each_record ho (h d hd)

/-- Visiting sites links references and leaves the nodes as they were declared. -/
theorem each_foldl_of_linked {σ α : Type} (outline : σ → Outline) {visit : σ → α → σ}
    (hvisit : ∀ st x, (outline st).Linked (outline (visit st x))) {st : σ}
    {ds : List Declaration} (hst : outline st = ofDeclarations ds) (hds : ∀ d ∈ ds, P d.node)
    (xs : List α) : (outline (xs.foldl visit st)).fragment.Each P := by
  have hlinked := Linked.foldl outline (fun st x (_ : x ∈ xs) => hvisit st x) st
  rw [Fragment.Each, hlinked.nodes, hst]
  exact each_ofDeclarations hds

end Outline

/-! ### Items of a C or C++ file -/

namespace Cpp

def Item.From (Q : Tree → Prop) : Item → Prop
  | .class_ t _ | .function t _ => Q t
  | .fields .. | .globals _ | .space _ => True

theorem from_of_mem_ownItems {src : Bytes} {owner : Option String} {t : Tree} {item : Item}
    (h : item ∈ ownItems src owner t) : item.From Q := by
  unfold ownItems at h
  split at h
  · split at h
    · rw [List.mem_singleton.mp h]
      trivial
    · cases h
  · split at h
    · split at h
      · cases h
      · rw [List.mem_singleton.mp h]
        trivial
    · split at h
      · obtain ⟨name, -, rfl⟩ := Option.map_eq_some_iff.mp (Option.mem_toList.mp h)
        trivial
      · cases h

theorem from_of_mem_itemsAt {x : Tree.OwnedSite} (hx : Q x.1.node) :
    ∀ item ∈ itemsAt f x, item.From Q := by
  intro item h
  unfold itemsAt at h
  dsimp only at h
  split at h
  · obtain ⟨name, -, rfl⟩ := Option.map_eq_some_iff.mp (Option.mem_toList.mp h)
    exact hx
  · split at h
    · rw [List.mem_singleton.mp h]
      exact hx
    · exact from_of_mem_ownItems h

theorem from_of_mem_items (hQ : Tree.Hereditary Q) {root : Tree} (hroot : Q root) :
    ∀ item ∈ items f none root, item.From Q :=
  Tree.Search.forall_mem_all (S := search f) hQ hroot fun _ => from_of_mem_itemsAt

/-- Every node recorded so far satisfies the condition. -/
structure Tables.Each (P : Node → Prop) (f : SourceFile) (tb : Tables) : Prop where
  file : tb.file = f
  nodes : tb.fragment.Each P

namespace Tables.Each

variable {tb : Tables} (h : tb.Each P f) (hP : Makes P Q f)

include h hP

theorem recordClass {t : Tree} (ht : Q t) (name : String) : (tb.recordClass t name).Each P f := by
  obtain ⟨rfl, hnodes⟩ := h
  exact ⟨rfl, hnodes.addNode (hP.detail (hP.spanning _ _ ht (by decide)) (by decide) (.str _))⟩

theorem recordFunction {t : Tree} (ht : Q t) (owner : Option String) :
    (tb.recordFunction t owner).Each P f := by
  obtain ⟨rfl, hnodes⟩ := h
  unfold Tables.recordFunction
  split
  case h_1 => exact ⟨rfl, hnodes⟩
  case h_2 full _ =>
    generalize tb.functionTarget owner full = d
    have hadded := hnodes.addNode (hP.routine branchKinds d.id d.label d.name ht)
    rcases d with ⟨id, label, name, _ | owner⟩
    · exact ⟨rfl, hadded⟩
    · exact ⟨rfl, hadded.addEdge _ _ _⟩

theorem recordField (owner typeText : String) (declarator : Tree) :
    (tb.recordField owner typeText declarator).Each P f := by
  obtain ⟨rfl, hnodes⟩ := h
  unfold Tables.recordField
  split
  · exact ⟨rfl, hnodes⟩
  · dsimp only
    split
    · exact ⟨rfl, hnodes⟩
    · exact ⟨rfl, (hnodes.addNode (hP.field ..)).addEdge _ _ _⟩

theorem recordGlobal (typeText : String) (declarator : Tree) :
    (tb.recordGlobal typeText declarator).Each P f := by
  obtain ⟨rfl, hnodes⟩ := h
  have hglobal (id name : String) :
      P (fieldNode tb.file declarator id Label.global name typeText) :=
    hP.detail (hP.definition declarator id name (by decide)) (by decide) (.str _)
  unfold Tables.recordGlobal
  split
  · exact ⟨rfl, hnodes⟩
  · dsimp only
    split
    · exact ⟨rfl, hnodes⟩
    · exact ⟨rfl, hnodes.addNode (hglobal ..)⟩

theorem record {item : Item} (hitem : item.From Q) : (tb.record item).Each P f := by
  cases item with
  | class_ t name => exact h.recordClass hP hitem name
  | function t owner => exact h.recordFunction hP hitem owner
  | fields t owner =>
      exact List.foldlRecOn (motive := Tables.Each P f) _ _ h
        fun tb h d _ => h.recordField hP owner _ d
  | globals t =>
      exact List.foldlRecOn (motive := Tables.Each P f) _ _ h fun tb h d _ => h.recordGlobal hP _ d
  | space name => exact ⟨h.file, h.nodes⟩

end Tables.Each

end Cpp

/-! ### Fragments -/

section Fragments

variable (hQ : Tree.Hereditary Q) (hP : Makes P Q f) {root : Tree} (hroot : Q root)

include hQ hP hroot

theorem Cpp.each_analyze : (analyze f root).Each P := by
  have hrecorded : (initialTables f root).Each P f :=
    List.foldlRecOn (motive := Tables.Each P f) _ _ ⟨rfl, Fragment.each_empty P⟩
      fun _ h item hitem => h.record hP (from_of_mem_items hQ hroot item hitem)
  have hbases : (root.sites.foldl Tables.linkBase (initialTables f root)).fragment.Each P := by
    refine List.foldlRecOn (motive := fun tb => Fragment.Each P (Tables.fragment tb)) _ _
      hrecorded.nodes fun tb h s _ => ?_
    unfold Tables.linkBase
    split
    · exact h
    · exact h.addEdge _ _ _
  refine List.foldlRecOn (motive := fun tb => Fragment.Each P (Tables.fragment tb)) _ _ hbases
    fun tb h s _ => ?_
  unfold Tables.linkReference
  split
  · exact h
  · split
    · exact h
    · split
      · exact h.addEdge _ _ _
      · exact h

theorem Java.each_analyze : (analyze f root).Each P :=
  Outline.each_foldl_of_linked State.outline State.linked_visit (outline_initialState f root)
    (fun d hd => (madeFrom_of_mem_declarations hQ hroot d hd).holds hP) root.sites

theorem CSharp.each_analyze : (analyze f root).Each P :=
  Outline.each_foldl_of_linked State.outline State.linked_visit (outline_initialState f root)
    (fun d hd => (madeFrom_of_mem_declarations hQ hroot d hd).holds hP) root.sites

theorem TypeScript.each_analyze : (analyze f root).Each P :=
  Outline.each_foldl_of_linked State.outline State.linked_visit (outline_initialState f root)
    (fun d hd => (madeFrom_of_mem_declarations hQ hroot d hd).holds hQ hP) root.sites

end Fragments

/-- The nodes of a script are those of its definitions. -/
theorem Sql.each_of_analyze_eq_ok {g : Fragment} (h : analyze f = .ok g)
    (hP : ∀ d n, node? f.path (Utf8.lossy (masked f.bytes)) d = some n → P n) : g.Each P := by
  unfold analyze at h
  split at h
  case h_2 => cases h
  case h_1 hfragment =>
    cases h
    unfold fragment? at hfragment
    dsimp only at hfragment
    split at hfragment
    case h_2 => cases hfragment
    case h_1 nodes edges hnodes _ =>
      cases hfragment
      rw [mapM_eq_some_iff] at hnodes
      have hadded : (nodes.foldl Fragment.addNode {}).Each P := by
        refine List.foldlRecOn nodes Fragment.addNode (Fragment.each_empty _) fun _ h n hn => ?_
        obtain ⟨d, -, hd⟩ := List.mem_map.mp (hnodes ▸ List.mem_map_of_mem hn)
        exact h.addNode (hP d n hd)
      exact hadded.addAll edges.flatten

end CodeGraph

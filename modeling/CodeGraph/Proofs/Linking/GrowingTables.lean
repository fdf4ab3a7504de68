import CodeGraph.Cpp.References
import CodeGraph.Proofs.Closure.Outlines
import CodeGraph.Proofs.Graph.Lookup

/-!
The tables of a C or C++ file only grow. What is registered for a function definition, the members
of classes, nodes and edges stay as they are while further items are recorded and references are
linked.
-/

namespace CodeGraph.Cpp

open CodeGraph.Tree (Site)
open Declaration

namespace Tables

/-- What the first tables tell, the second ones tell as well. -/
structure Extends (tb tb' : Tables) : Prop where
  file : tb'.file = tb.file
  routines : ∀ key r, tb.routines.get? key = some r → tb'.routines.get? key = some r
  members : ∀ owner name id, tb.memberOf? owner name = some id →
    tb'.memberOf? owner name = some id
  nodes : ∀ id n, tb.fragment.node? id = some n → tb'.fragment.node? id = some n
  edges : tb.fragment.edges ⊆ tb'.fragment.edges

namespace Extends

variable {tb tb' tb'' : Tables}

theorem refl (tb : Tables) : tb.Extends tb :=
  ⟨rfl, fun _ _ h => h, fun _ _ _ h => h, fun _ _ h => h, List.Subset.refl _⟩

theorem trans (h : tb.Extends tb') (h' : tb'.Extends tb'') : tb.Extends tb'' where
  file := h'.file.trans h.file
  routines key r hr := h'.routines key r (h.routines key r hr)
  members owner name id hid := h'.members owner name id (h.members owner name id hid)
  nodes id n hn := h'.nodes id n (h.nodes id n hn)
  edges := List.Subset.trans h.edges h'.edges

theorem addNode (h : tb.Extends tb') (n : Node) : tb.Extends (tb'.addNode n) :=
  { h with
    nodes := fun id m hm => by
      rw [Tables.addNode, Fragment.node?_addNode, h.nodes id m hm, Option.some_or]
    edges := by
      rw [Tables.addNode, Fragment.edges_addNode]
      exact h.edges }

theorem addEdge (h : tb.Extends tb') (source target relation : String) :
    tb.Extends (tb'.addEdge source target relation) :=
  { h with
    nodes := fun id m hm => by
      rw [Tables.addEdge, Fragment.node?_addEdge, h.nodes id m hm]
    edges := fun e he => Fragment.mem_edges_addEdge.mpr (.inl (h.edges he)) }

theorem addMember (h : tb.Extends tb') (owner name id : String) :
    tb.Extends (tb'.addMember owner name id) :=
  { h with
    members := fun o n i hi => by
      rw [memberOf?, Tables.addMember, Bindings.get?_bind, Option.or_eq_some_iff]
      exact .inl (h.members o n i hi) }

theorem addSymbol (h : tb.Extends tb') (name id : String) : tb.Extends (tb'.addSymbol name id) :=
  { h with }

theorem bindRoutine (h : tb.Extends tb') (key : Nat) (r : Routine) :
    tb.Extends { tb' with routines := tb'.routines.bind key r } :=
  { h with
    routines := fun k r' hr => by
      rw [Bindings.get?_bind, Option.or_eq_some_iff]
      exact .inl (h.routines k r' hr) }

/-- What every step only adds to, a whole run only adds to. -/
theorem foldl {α : Type} {step : Tables → α → Tables}
    (hstep : ∀ (tb : Tables) x, tb.Extends (step tb x))
    (xs : List α) (tb : Tables) : tb.Extends (xs.foldl step tb) :=
  List.foldlRecOn (motive := tb.Extends) xs step (refl tb) fun _ h x _ => h.trans (hstep _ x)

end Extends

/-! ### Recording items -/

variable (tb : Tables)

theorem extends_recordClass (t : Tree) (name : String) : tb.Extends (tb.recordClass t name) :=
  { (Extends.refl tb).addNode _ with }

theorem extends_recordFunction (t : Tree) (owner : Option String) :
    tb.Extends (tb.recordFunction t owner) := by
  unfold recordFunction
  split
  case h_1 => exact .refl tb
  case h_2 full _ =>
    generalize tb.functionTarget owner full = d
    have hnamed := (((Extends.refl tb).addNode
      (routineNode tb.file branchKinds t d.id d.label d.name)).addSymbol full d.id).addSymbol
      d.name d.id
    rcases d with ⟨id, label, name, _ | owner⟩
    · exact hnamed.bindRoutine _ _
    · exact ((hnamed.addEdge owner id Relation.hasMethod).addMember owner name id).bindRoutine _ _

theorem extends_recordField (owner typeText : String) (d : Tree) :
    tb.Extends (tb.recordField owner typeText d) := by
  unfold recordField
  split
  case h_1 => exact .refl tb
  case h_2 name _ =>
    dsimp only
    split
    · exact (Extends.refl tb).addMember _ _ _
    · exact { (((Extends.refl tb).addNode _).addEdge _ _ _).addMember _ _ _ with }

theorem extends_recordGlobal (typeText : String) (d : Tree) :
    tb.Extends (tb.recordGlobal typeText d) := by
  unfold recordGlobal
  split
  case h_1 => exact .refl tb
  case h_2 name _ =>
    dsimp only
    split
    · exact (Extends.refl tb).addSymbol _ _
    · exact ((Extends.refl tb).addNode _).addSymbol _ _

theorem extends_record (item : Item) : tb.Extends (tb.record item) := by
  cases item with
  | class_ t name => exact tb.extends_recordClass t name
  | function t owner => exact tb.extends_recordFunction t owner
  | fields t owner => exact Extends.foldl (fun tb d => tb.extends_recordField owner _ d) _ tb
  | globals t => exact Extends.foldl (fun tb d => tb.extends_recordGlobal _ d) _ tb
  | space name => exact { Extends.refl tb with }

/-! ### Linking references -/

theorem extends_linkBase (s : Site) : tb.Extends (tb.linkBase s) := by
  unfold linkBase
  split
  · exact .refl tb
  · exact (Extends.refl tb).addEdge _ _ _

theorem extends_linkReference (s : Site) : tb.Extends (tb.linkReference s) := by
  have hrefl := Extends.refl tb
  unfold linkReference
  split
  · exact hrefl
  · split
    · exact hrefl
    · split
      · exact hrefl.addEdge _ _ _
      · exact hrefl

end Tables

end CodeGraph.Cpp

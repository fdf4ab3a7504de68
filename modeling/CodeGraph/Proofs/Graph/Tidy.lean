import CodeGraph.Outline
import CodeGraph.Proofs.Graph.Properties

/-!
Tidy nodes: the properties are in strictly ascending order of their names, none of them has a name
that the line of a record needs for itself, and their values can be told from their text. Every
node is built by setting properties one after the other, and setting a property under a name that
is not reserved keeps a node tidy.
-/

namespace CodeGraph

/-! ### Values that can be told from their text -/

/-- All numbers are finite and all objects have their keys in strictly ascending order. Infinities
have the text of null, and a key that comes twice is lost. -/
inductive Json.Canonical : Json → Prop where
  | null : Canonical .null
  | bool (b : Bool) : Canonical (.bool b)
  | int (n : Int) : Canonical (.int n)
  | float {x : Binary64} (h : x.isFinite = true) : Canonical (.float x)
  | str (s : String) : Canonical (.str s)
  | list {items : List Json} (h : ∀ v ∈ items, Canonical v) : Canonical (.list items)
  | object {fields : Properties} (hsorted : fields.Pairwise (·.1 < ·.1))
      (h : ∀ entry ∈ fields, Canonical entry.2) : Canonical (.object fields)

/-! ### Ordered properties -/

namespace Properties

variable {props : Properties} {key : String} {value : Json}

/-- The names are in strictly ascending order, so that none comes twice. -/
def Sorted (props : Properties) : Prop :=
  props.Pairwise (·.1 < ·.1)

theorem mem_set {entry : String × Json} (h : entry ∈ props.set key value) :
    entry = (key, value) ∨ entry ∈ props := by
  induction props with
  | nil => exact .inl (List.mem_singleton.mp h)
  | cons first rest ih =>
      obtain ⟨k, v⟩ := first
      rw [set] at h
      split_ifs at h
      · exact (List.mem_cons.mp h).imp_right (List.mem_cons_of_mem _)
      · exact List.mem_cons.mp h
      · rcases List.mem_cons.mp h with rfl | h
        · exact .inr List.mem_cons_self
        · exact (ih h).imp_right (List.mem_cons_of_mem _)

theorem Sorted.set (h : props.Sorted) (key : String) (value : Json) :
    (props.set key value).Sorted := by
  induction props with
  | nil => exact List.pairwise_singleton _ _
  | cons first rest ih =>
      obtain ⟨k, v⟩ := first
      obtain ⟨hfirst, hrest⟩ := List.pairwise_cons.mp h
      rw [Properties.set]
      split_ifs with heq hlt
      · subst heq
        exact List.pairwise_cons.mpr ⟨hfirst, hrest⟩
      · refine List.pairwise_cons.mpr ⟨fun entry hentry => ?_, h⟩
        rcases List.mem_cons.mp hentry with rfl | hentry
        · exact hlt
        · exact String.lt_trans hlt (hfirst entry hentry)
      · refine List.pairwise_cons.mpr ⟨fun entry hentry => ?_, ih hrest⟩
        rcases mem_set hentry with rfl | hentry
        · exact Std.lt_of_le_of_ne (Std.not_lt.mp hlt) (Ne.symm heq)
        · exact hfirst entry hentry

end Properties

/-! ### Tidy nodes -/

/-- The names that tell the line of a node from that of an edge, and hold their ends. -/
def Key.reserved : List String := ["id", "type", "source", "target"]

structure Node.Tidy (n : Node) : Prop where
  sorted : n.properties.Sorted
  free : ∀ entry ∈ n.properties, entry.1 ∉ Key.reserved
  canonical : ∀ entry ∈ n.properties, entry.2.Canonical

namespace Node

variable {n : Node} {key : String} {value : Json}

theorem tidy_bare (id label : String) : Tidy { id, label } := by
  refine ⟨List.Pairwise.nil, ?_, ?_⟩ <;> intro _ h <;> cases h

theorem Tidy.set (h : n.Tidy) (hkey : key ∉ Key.reserved) (hvalue : value.Canonical) :
    (n.set key value).Tidy := by
  refine ⟨h.sorted.set key value, fun entry hentry => ?_, fun entry hentry => ?_⟩
  · rcases Properties.mem_set hentry with rfl | hentry
    · exact hkey
    · exact h.free entry hentry
  · rcases Properties.mem_set hentry with rfl | hentry
    · exact hvalue
    · exact h.canonical entry hentry

/-- Only the properties matter. -/
theorem Tidy.renamed (h : n.Tidy) (id label : String) : Tidy { n with id, label } :=
  ⟨h.sorted, h.free, h.canonical⟩

theorem Tidy.get?_eq_none (h : n.Tidy) (hkey : key ∈ Key.reserved) : n.get? key = none :=
  Properties.get?_eq_none_iff.mpr fun entry hentry heq => h.free entry hentry (heq ▸ hkey)

theorem tidy_definition (id label name file : String) (line : Nat) :
    (definition id label name file line).Tidy :=
  (((tidy_bare id label).set (by decide) (.str name)).set (by decide) (.str file)).set (by decide)
    (.int line)

end Node

namespace Declaration

variable (f : SourceFile) (t : Tree) (id label name : String)

theorem tidy_spanning : (spanning f t id label name).Tidy :=
  (Node.tidy_definition ..).set (by decide) (.int _)

theorem tidy_routineNode (branches : List String) :
    (routineNode f branches t id label name).Tidy :=
  ((tidy_spanning ..).set (by decide) (.str _)).set (by decide) (.int _)

end Declaration

end CodeGraph

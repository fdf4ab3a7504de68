import CodeGraph.Proofs.Graph.Properties
import Mathlib.Data.List.Nodup

/-!
Looking up the node with an ID. An ID is taken by the first node that is added with it, a property
is set on the node with its ID and on no other, and edges do not matter. In a fragment that was
built by these operations no two nodes share an ID, so the lookup finds every node.
-/

namespace CodeGraph.Fragment

variable {f : Fragment} {id : String}

theorem node?_addNode (f : Fragment) (n : Node) (id : String) :
    (f.addNode n).node? id = (f.node? id).or (if n.id = id then some n else none) := by
  unfold addNode node?
  split
  case isTrue h =>
    obtain ⟨m, hm, hid⟩ := List.any_eq_true.mp h
    by_cases hn : n.id = id
    · subst hn
      have hfound : (f.nodes.find? (·.id == n.id)).isSome := List.find?_isSome.mpr ⟨m, hm, hid⟩
      rw [Option.or_of_isSome hfound]
    · simp [hn]
  case isFalse h => simp [List.find?_append, List.find?_singleton]

theorem node?_foldl_addNode (ns : List Node) (f : Fragment) (id : String) :
    (ns.foldl addNode f).node? id = (f.node? id).or (ns.find? (·.id == id)) := by
  induction ns generalizing f with
  | nil => simp
  | cons n ns ih =>
      rw [List.foldl_cons, ih, node?_addNode, Option.or_assoc, List.find?_cons]
      by_cases hid : n.id = id
      · simp [hid]
      · rw [if_neg hid, beq_false_of_ne hid, Option.none_or]

theorem node?_setProperty (f : Fragment) (id' key : String) (value : Json) (id : String) :
    (f.setProperty id' key value).node? id =
      (f.node? id).map fun n => if id = id' then n.set key value else n := by
  have hid : ((fun n : Node => n.id == id) ∘ fun n => if n.id == id' then n.set key value else n) =
      fun n : Node => n.id == id := by
    funext n
    simp only [Function.comp_apply]
    split <;> rfl
  rw [node?, setProperty, List.find?_map, hid, node?]
  cases h : f.nodes.find? (·.id == id) with
  | none => rfl
  | some n =>
      obtain rfl : n.id = id := by simpa using List.find?_some h
      simp

@[simp] theorem node?_addEdge (f : Fragment) (source target relation id : String) :
    (f.addEdge source target relation).node? id = f.node? id := by
  rw [node?, nodes_addEdge, node?]

@[simp] theorem node?_addEdges (f : Fragment) (source : String) (targets : List String)
    (relation id : String) : (f.addEdges source targets relation).node? id = f.node? id := by
  rw [addEdges_eq_addAll, node?, nodes_addAll, node?]

theorem id_of_node? {n : Node} (h : f.node? id = some n) : n.id = id := by
  simpa using List.find?_some h

theorem mem_nodes_of_node? {n : Node} (h : f.node? id = some n) : n ∈ f.nodes ∧ n.id = id :=
  ⟨List.mem_of_find?_eq_some h, id_of_node? h⟩

theorem isSome_node?_iff_mem : (f.node? id).isSome ↔ id ∈ f.ids := by
  rw [node?, List.find?_isSome, ids, List.mem_map]
  simp

/-! ### Distinct IDs -/

theorem nodup_addNode (h : f.ids.Nodup) (n : Node) : (f.addNode n).ids.Nodup := by
  unfold addNode
  split
  case isTrue => exact h
  case isFalse hnew =>
    have hn : n.id ∉ f.ids := fun hmem => hnew (contains_iff.mpr hmem)
    simp only [ids, List.map_append, List.map_cons, List.map_nil]
    exact List.nodup_append.mpr ⟨h, List.nodup_singleton _, by
      rintro a ha b hb rfl
      exact hn (List.mem_singleton.mp hb ▸ ha)⟩

theorem nodup_foldl_addNode (ns : List Node) : (ns.foldl addNode {}).ids.Nodup :=
  List.foldlRecOn (motive := fun f : Fragment => f.ids.Nodup) ns addNode .nil
    fun _ h n _ => nodup_addNode h n

/-- Where IDs are distinct, every node is the one that is found under its ID. -/
theorem node?_of_mem (h : f.ids.Nodup) {n : Node} (hn : n ∈ f.nodes) : f.node? n.id = some n := by
  cases hfound : f.node? n.id with
  | none =>
      have hnone := List.find?_eq_none.mp hfound n hn
      simp at hnone
  | some m =>
      have hm : m ∈ f.nodes := List.mem_of_find?_eq_some hfound
      rw [List.inj_on_of_nodup_map h hm hn (id_of_node? hfound)]

end CodeGraph.Fragment

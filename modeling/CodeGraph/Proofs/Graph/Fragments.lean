import CodeGraph.Graph.Basic
import Mathlib.Data.List.Basic

/-!
What the building operations do to the IDs and the edges of a fragment, and the fragments that are
closed: an edge that starts in a definition, or leads from a type to its member, has that
definition or member among the nodes of the same fragment. The other ends may lie elsewhere.
-/

namespace CodeGraph

/-- In a run that keeps `I`, what one step sets up and all steps keep holds in the end. -/
theorem foldl_of_mem {σ α : Type} {step : σ → α → σ} {I Q : σ → Prop} {xs : List α} {x : α}
    (hx : x ∈ xs) {st : σ} (hst : I st) (hI : ∀ st, ∀ y ∈ xs, I st → I (step st y))
    (hset : ∀ st, I st → Q (step st x)) (hkeep : ∀ st, ∀ y ∈ xs, Q st → Q (step st y)) :
    Q (xs.foldl step st) := by
  obtain ⟨before, after, rfl⟩ := List.append_of_mem hx
  rw [List.foldl_append, List.foldl_cons]
  have hbefore : I (before.foldl step st) :=
    List.foldlRecOn before step hst fun st h y hy => hI st y (List.mem_append_left _ hy) h
  exact List.foldlRecOn after step (hset _ hbefore) fun st h y hy =>
    hkeep st y (List.mem_append_right _ (List.mem_cons_of_mem _ hy)) h

/-- What no step changes is after a run what it was before. -/
theorem foldl_read {σ α β : Type} (read : σ → β) {step : σ → α → σ}
    (hstep : ∀ st x, read (step st x) = read st) (xs : List α) (st : σ) :
    read (xs.foldl step st) = read st := by
  induction xs generalizing st with
  | nil => rfl
  | cons x xs ih => rw [List.foldl_cons, ih, hstep]

/-- Where every step adds at most one entry behind what is read, a run adds the first of the
entries. Which entry a step adds may depend on what no step changes. -/
theorem read_foldl {σ α β : Type} (read : σ → Option β) {step : σ → α → σ}
    {entry : σ → α → Option β} (hstep : ∀ st x, read (step st x) = (read st).or (entry st x))
    (hentry : ∀ st x, entry (step st x) = entry st) (xs : List α) (st : σ) :
    read (xs.foldl step st) = (read st).or (xs.findSome? (entry st)) := by
  induction xs generalizing st with
  | nil => simp
  | cons x xs ih =>
      rw [List.foldl_cons, ih, hentry, hstep, Option.or_assoc, List.findSome?_cons]
      cases entry st x <;> rfl

/-! ### IDs and edges -/

namespace Fragment

variable {f : Fragment} {e : Edge} {id : String}

def ids (f : Fragment) : List String :=
  f.nodes.map Node.id

theorem contains_iff : f.contains id = true ↔ id ∈ f.ids := by
  simp [contains, ids, List.any_eq_true]

theorem mem_ids_addNode {n : Node} : id ∈ (f.addNode n).ids ↔ id ∈ f.ids ∨ id = n.id := by
  unfold addNode
  split
  case isTrue h =>
    -- Nothing is added, but the ID is there already.
    have hn : n.id ∈ f.ids := contains_iff.mp h
    constructor
    · exact Or.inl
    · rintro (hid | rfl)
      · exact hid
      · exact hn
  case isFalse => simp [ids]

theorem ids_subset_addNode (n : Node) : f.ids ⊆ (f.addNode n).ids :=
  fun _ h => mem_ids_addNode.mpr (.inl h)

theorem id_mem_addNode (n : Node) : n.id ∈ (f.addNode n).ids :=
  mem_ids_addNode.mpr (.inr rfl)

theorem mem_ids_foldl_addNode {ns : List Node} :
    id ∈ (ns.foldl addNode f).ids ↔ id ∈ f.ids ∨ id ∈ ns.map Node.id := by
  induction ns generalizing f with
  | nil => simp
  | cons n ns ih =>
      rw [List.foldl_cons, ih, mem_ids_addNode, List.map_cons, List.mem_cons, or_assoc]

@[simp] theorem edges_addNode (f : Fragment) (n : Node) : (f.addNode n).edges = f.edges := by
  unfold addNode
  split <;> rfl

@[simp] theorem edges_foldl_addNode (ns : List Node) (f : Fragment) :
    (ns.foldl addNode f).edges = f.edges :=
  foldl_read edges edges_addNode ns f

@[simp] theorem nodes_addEdge (f : Fragment) (source target relation : String) :
    (f.addEdge source target relation).nodes = f.nodes := by
  dsimp only [addEdge]
  split <;> rfl

theorem mem_edges_addEdge {source target relation : String} :
    e ∈ (f.addEdge source target relation).edges ↔
      e ∈ f.edges ∨ e = ⟨source, target, relation⟩ := by
  dsimp only [addEdge]
  split
  case isTrue h =>
    constructor
    · exact Or.inl
    · rintro (he | rfl)
      · exact he
      · exact h
  case isFalse => simp

/-- The edges of a list are added one by one, each at most once. -/
def addAll (f : Fragment) (es : List Edge) : Fragment :=
  es.foldl (fun f e => f.addEdge e.source e.target e.relation) f

@[simp] theorem nodes_addAll (es : List Edge) (f : Fragment) : (f.addAll es).nodes = f.nodes :=
  foldl_read nodes (fun _ _ => nodes_addEdge ..) es f

theorem mem_edges_addAll {es : List Edge} : e ∈ (f.addAll es).edges ↔ e ∈ f.edges ∨ e ∈ es := by
  induction es generalizing f with
  | nil => simp [addAll]
  | cons e₀ es ih =>
      change e ∈ ((f.addEdge e₀.source e₀.target e₀.relation).addAll es).edges ↔ _
      rw [ih, mem_edges_addEdge, List.mem_cons, or_assoc]

theorem addEdges_eq_addAll (f : Fragment) (source : String) (targets : List String)
    (relation : String) :
    f.addEdges source targets relation =
      f.addAll (targets.map fun target => ⟨source, target, relation⟩) := by
  rw [addAll, List.foldl_map]
  rfl

/-- An edge of one relation does not matter to another. -/
theorem edgesOf_addEdge_of_ne (f : Fragment) (source target : String) {relation other : String}
    (h : other ≠ relation) :
    (f.addEdge source target other).edgesOf relation = f.edgesOf relation := by
  dsimp only [addEdge, edgesOf]
  split
  · rfl
  · simp [List.filter_append, h]

theorem edgesOf_addAll_of_ne {es : List Edge} {relation : String} (f : Fragment)
    (h : ∀ e ∈ es, e.relation ≠ relation) :
    (f.addAll es).edgesOf relation = f.edgesOf relation := by
  refine List.foldlRecOn (motive := fun g : Fragment => g.edgesOf relation = f.edgesOf relation)
    es _ rfl fun g hg e he => ?_
  rw [edgesOf_addEdge_of_ne g _ _ (h e he), hg]

@[simp] theorem edges_setProperty (f : Fragment) (id key : String) (value : Json) :
    (f.setProperty id key value).edges = f.edges := rfl

@[simp] theorem ids_setProperty (f : Fragment) (id key : String) (value : Json) :
    (f.setProperty id key value).ids = f.ids := by
  simp only [ids, setProperty, List.map_map]
  refine List.map_congr_left fun n _ => ?_
  simp only [Function.comp_apply]
  split <;> rfl

@[simp] theorem ids_addEdge (f : Fragment) (source target relation : String) :
    (f.addEdge source target relation).ids = f.ids := by
  rw [ids, nodes_addEdge, ids]

@[simp] theorem ids_addAll (f : Fragment) (es : List Edge) : (f.addAll es).ids = f.ids := by
  rw [ids, nodes_addAll, ids]

end Fragment

/-! ### Anchored edges -/

/-- The relations that start in a definition of the file. -/
def Relation.outgoing : List String := [Relation.calls, Relation.uses, Relation.watches]

def Relation.owning : List String := [Relation.hasMethod, Relation.defines]

def Relation.supertyping : List String :=
  [Relation.inherits, Relation.extends_, Relation.implements]

/-- An edge is anchored in a list of IDs if the end that belongs to the file is in it. -/
def Edge.Anchored (ids : List String) (e : Edge) : Prop :=
  (e.relation ∈ Relation.outgoing → e.source ∈ ids) ∧
    (e.relation ∈ Relation.owning → e.target ∈ ids)

instance (ids : List String) (e : Edge) : Decidable (e.Anchored ids) :=
  inferInstanceAs (Decidable (_ ∧ _))

namespace Edge

variable {ids ids' : List String} {e : Edge} {source target relation : String}

theorem Anchored.mono (h : e.Anchored ids) (hids : ids ⊆ ids') : e.Anchored ids' :=
  ⟨fun hr => hids (h.1 hr), fun hr => hids (h.2 hr)⟩

theorem anchored_of_outgoing (hr : relation ∈ Relation.outgoing) (hs : source ∈ ids) :
    Anchored ids ⟨source, target, relation⟩ := by
  have hdisjoint : ∀ r ∈ Relation.outgoing, r ∉ Relation.owning := by decide
  exact ⟨fun _ => hs, fun howning => absurd howning (hdisjoint _ hr)⟩

theorem anchored_of_owning (hr : relation ∈ Relation.owning) (ht : target ∈ ids) :
    Anchored ids ⟨source, target, relation⟩ := by
  have hdisjoint : ∀ r ∈ Relation.owning, r ∉ Relation.outgoing := by decide
  exact ⟨fun houtgoing => absurd houtgoing (hdisjoint _ hr), fun _ => ht⟩

theorem anchored_of_supertyping (hr : relation ∈ Relation.supertyping) :
    Anchored ids ⟨source, target, relation⟩ := by
  have hdisjoint : ∀ r ∈ Relation.supertyping, r ∉ Relation.outgoing ∧ r ∉ Relation.owning := by
    decide
  exact ⟨fun h => absurd h (hdisjoint _ hr).1, fun h => absurd h (hdisjoint _ hr).2⟩

end Edge

/-! ### Closed fragments -/

namespace Fragment

variable {f : Fragment}

/-- Every edge of the fragment is anchored in its nodes. -/
def Closed (f : Fragment) : Prop :=
  ∀ e ∈ f.edges, e.Anchored f.ids

instance (f : Fragment) : Decidable f.Closed :=
  inferInstanceAs (Decidable (∀ e ∈ f.edges, e.Anchored f.ids))

example : ¬Closed { edges := [⟨"a", "b", Relation.calls⟩] } := by decide

example : Closed { edges := [⟨"a", "b", Relation.inherits⟩] } := by decide

theorem closed_empty : Closed {} := by
  intro e he
  cases he

theorem Closed.addNode (h : f.Closed) (n : Node) : (f.addNode n).Closed := by
  intro e he
  rw [edges_addNode] at he
  exact (h e he).mono (ids_subset_addNode n)

theorem Closed.addEdge (h : f.Closed) {source target relation : String}
    (hedge : Edge.Anchored f.ids ⟨source, target, relation⟩) :
    (f.addEdge source target relation).Closed := by
  intro e he
  rw [ids_addEdge]
  rcases mem_edges_addEdge.mp he with he | rfl
  · exact h e he
  · exact hedge

theorem Closed.addAll (h : f.Closed) {es : List Edge} (hes : ∀ e ∈ es, e.Anchored f.ids) :
    (f.addAll es).Closed := by
  intro e he
  rw [ids_addAll]
  rcases mem_edges_addAll.mp he with he | he
  · exact h e he
  · exact hes e he

/-- A member comes with its node and with the edge from its owner. -/
theorem Closed.addMember (h : f.Closed) (n : Node) (owner : String) {relation : String}
    (hrelation : relation ∈ Relation.owning) :
    ((f.addNode n).addEdge owner n.id relation).Closed :=
  (h.addNode n).addEdge (Edge.anchored_of_owning hrelation (id_mem_addNode n))

theorem ids_subset_addMember (n : Node) (owner relation : String) :
    f.ids ⊆ ((f.addNode n).addEdge owner n.id relation).ids := by
  rw [ids_addEdge]
  exact ids_subset_addNode n

theorem id_mem_addMember (n : Node) (owner relation : String) :
    n.id ∈ ((f.addNode n).addEdge owner n.id relation).ids := by
  rw [ids_addEdge]
  exact id_mem_addNode n

theorem Closed.setProperty (h : f.Closed) (id key : String) (value : Json) :
    (f.setProperty id key value).Closed := by
  intro e he
  rw [edges_setProperty] at he
  rw [ids_setProperty]
  exact h e he

end Fragment

end CodeGraph

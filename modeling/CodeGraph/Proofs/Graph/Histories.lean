import CodeGraph.Proofs.Graph.Lookup
import CodeGraph.Proofs.Graph.Occurrences
import Mathlib.Data.Finset.Insert

/-!
What a history of building steps makes of a fragment. The nodes are the first that were added with
each ID, with what was set on them later, and the edges are those that were added, each once. The
lists only grow at their ends, so a copy that was taken on the way is the beginning of every later
one but for properties. A builder that keeps the IDs and the edges as sets beside the lists builds
the same fragment.
-/

namespace CodeGraph.Fragment

/-- A step in the building of a fragment. -/
inductive Step where
  | addNode (n : Node)
  | addEdge (e : Edge)
  | setProperty (id key : String) (value : Json)
  | snapshot

namespace Step

def apply (f : Fragment) : Step → Fragment
  | addNode n => f.addNode n
  | addEdge e => f.addEdge e.source e.target e.relation
  | setProperty id key value => f.setProperty id key value
  | snapshot => f

def node? : Step → Option Node
  | addNode n => some n
  | _ => none

def id? (step : Step) : Option String :=
  step.node?.map Node.id

def edge? : Step → Option Edge
  | addEdge e => some e
  | _ => none

/-- What the step sets on the node with an ID. -/
def setting? (id : String) : Step → Option (String × Json)
  | setProperty id' key value => if id' = id then some (key, value) else none
  | _ => none

end Step

def build (steps : List Step) : Fragment :=
  steps.foldl Step.apply {}

/-- What the steps set on the node with an ID, in order. -/
def settings (id : String) (steps : List Step) : List (String × Json) :=
  steps.filterMap (Step.setting? id)

/-- A node with everything that later steps set on it. -/
def settled (n : Node) (later : List Step) : Node :=
  { n with properties :=
      (settings n.id later).foldl (fun props entry => props.set entry.1 entry.2) n.properties }

/-- The nodes that are added, each with the steps after that. -/
def additions : List Step → List (Node × List Step)
  | [] => []
  | step :: later => (step.node?.toList.map fun n => (n, later)) ++ additions later

/-- The copies that are taken while steps go on from a fragment. -/
def snapshotsFrom (f : Fragment) : List Step → List Fragment
  | [] => []
  | .snapshot :: later => f :: snapshotsFrom f later
  | step :: later => snapshotsFrom (step.apply f) later

/-- The second fragment is the first one with more nodes and edges behind it. -/
def Begins (f g : Fragment) : Prop :=
  f.ids <+: g.ids ∧ f.edges <+: g.edges

variable {f g h : Fragment} {n : Node} {step : Step} {steps : List Step} {id key : String}

/-! ### Settled nodes -/

@[simp] theorem settled_nil (n : Node) : settled n [] = n := rfl

/-- What is set first is covered by what is set later. -/
theorem settled_append (n : Node) (later later' : List Step) :
    settled n (later ++ later') = settled (settled n later) later' := by
  simp only [settled, settings, List.filterMap_append, List.foldl_append]

theorem settled_singleton_of_none (hnone : step.setting? n.id = none) : settled n [step] = n := by
  rw [settled, settings, List.filterMap_cons_none hnone]
  rfl

/-- A property has the value that was set last, or else the one that it had. -/
theorem get?_settled (n : Node) (later : List Step) (key : String) :
    (settled n later).get? key = ((settings n.id later).reverse.lookup key).or (n.get? key) := by
  rw [settled, Node.get?, Node.get?]
  dsimp only
  induction settings n.id later using List.reverseRecOn with
  | nil => rfl
  | append_singleton entries entry ih =>
      rw [List.foldl_append, List.foldl_cons, List.foldl_nil, Properties.get?_set, ih,
        List.reverse_append, List.reverse_singleton, List.singleton_append, List.lookup_cons]
      by_cases hkey : key = entry.1
      · simp [hkey]
      · rw [if_neg hkey, beq_false_of_ne hkey]

/-! ### Nodes -/

theorem contains_apply : (step.apply f).contains id = true ↔
    f.contains id = true ∨ id ∈ step.id? := by
  rw [contains_iff, contains_iff]
  cases step with
  | addNode n => simp [Step.apply, Step.id?, Step.node?, mem_ids_addNode, eq_comm]
  | _ => simp [Step.apply, Step.id?, Step.node?]

/-- A step sets properties of the nodes that are there, and may add one behind them. -/
theorem nodes_apply (f : Fragment) (step : Step) : (step.apply f).nodes =
    f.nodes.map (settled · [step]) ++ step.node?.toList.filter fun n => !f.contains n.id := by
  have hkept (hnone : ∀ id, step.setting? id = none) : f.nodes.map (settled · [step]) = f.nodes :=
    List.map_id'' (fun n => settled_singleton_of_none (hnone n.id)) f.nodes
  cases step with
  | addNode n =>
      rw [hkept fun _ => rfl, Step.apply, addNode]
      by_cases hn : f.contains n.id <;> simp [hn, Step.node?]
  | addEdge e => simp [hkept fun _ => rfl, Step.apply, Step.node?]
  | snapshot => simp [hkept fun _ => rfl, Step.apply, Step.node?]
  | setProperty id key value =>
      simp only [Step.apply, setProperty, Step.node?, Option.toList_none, List.filter_nil,
        List.append_nil]
      refine List.map_congr_left fun n _ => ?_
      by_cases hid : n.id = id
      · simp [settled, settings, Step.setting?, Node.set, hid]
      · simp [settled, settings, Step.setting?, hid, Ne.symm hid]

/-- The nodes that are there are settled, and of the nodes that are added those with new IDs come
behind them, of each ID the first. -/
theorem nodes_foldl_apply (steps : List Step) (f : Fragment) :
    (steps.foldl Step.apply f).nodes = f.nodes.map (settled · steps) ++
      (((additions steps).filter fun a => !f.contains a.1.id).eraseDupsBy
        fun a b => sameId a.1 b.1).map fun a => settled a.1 a.2 := by
  induction steps generalizing f with
  | nil => simp [additions]
  | cons step steps ih =>
      have hsettled : f.nodes.map (settled · (step :: steps)) =
          (f.nodes.map (settled · [step])).map (settled · steps) := by
        rw [List.map_map]
        exact List.map_congr_left fun n _ => settled_append n [step] steps
      rw [List.foldl_cons, ih, nodes_apply, hsettled, List.map_append, List.append_assoc, additions]
      congr 1
      cases hnode : step.node? with
      | none =>
          have hsame (id : String) : (step.apply f).contains id = f.contains id :=
            Bool.eq_iff_iff.mpr (by simp [contains_apply, Step.id?, hnode])
          simp [hsame]
      | some n =>
          by_cases hn : f.contains n.id
          · have hsame (id : String) : (step.apply f).contains id = f.contains id := by
              rw [Bool.eq_iff_iff, contains_apply, Step.id?, hnode]
              simp only [Option.map_some, Option.mem_some_iff, or_iff_left_iff_imp]
              rintro rfl
              exact hn
            simp [hn, hsame]
          · -- What is added later with the ID of the new node is not new any more.
            have hrest : ((additions steps).filter fun a => !(step.apply f).contains a.1.id) =
                ((additions steps).filter fun a => !f.contains a.1.id).filter fun a =>
                  sameId a.1 n = false := by
              rw [List.filter_filter]
              refine List.filter_congr fun a _ => ?_
              rw [Bool.eq_iff_iff, Bool.not_eq_true', ← Bool.not_eq_true, contains_apply,
                Step.id?, hnode]
              simp [sameId, and_comm]
            rw [hrest]
            simp [hn, List.eraseDupsBy_cons]

theorem nodes_build (steps : List Step) : (build steps).nodes =
    ((additions steps).eraseDupsBy fun a b => sameId a.1 b.1).map fun a => settled a.1 a.2 := by
  rw [build, nodes_foldl_apply]
  simp [contains]

/-! ### IDs and edges -/

theorem ids_apply (f : Fragment) (step : Step) :
    (step.apply f).ids = f.ids ++ step.id?.toList.filter fun id => id ∉ f.ids := by
  have hcontains (n : Node) : f.contains n.id = decide (n.id ∈ f.ids) :=
    Bool.eq_iff_iff.mpr (contains_iff.trans decide_eq_true_iff.symm)
  rw [ids, nodes_apply, List.map_append, List.map_map, Step.id?]
  congr 1
  cases step.node? with
  | none => rfl
  | some n => by_cases hn : n.id ∈ f.ids <;> simp [hcontains, hn]

theorem ids_build (steps : List Step) :
    (build steps).ids = (steps.filterMap Step.id?).eraseDups :=
  foldl_append_fresh ids ids_apply steps rfl

theorem edges_apply (f : Fragment) (step : Step) :
    (step.apply f).edges = f.edges ++ step.edge?.toList.filter fun e => e ∉ f.edges := by
  cases step with
  | addEdge e =>
      dsimp only [Step.apply, addEdge, Step.edge?]
      by_cases he : e ∈ f.edges <;> simp [he]
  | addNode n => simp [Step.apply, Step.edge?]
  | _ => simp [Step.apply, Step.edge?]

theorem edges_build (steps : List Step) :
    (build steps).edges = (steps.filterMap Step.edge?).eraseDups :=
  foldl_append_fresh edges edges_apply steps rfl

/-! ### Copies -/

theorem Begins.refl (f : Fragment) : f.Begins f :=
  ⟨List.prefix_rfl, List.prefix_rfl⟩

theorem Begins.trans (hfg : f.Begins g) (hgh : g.Begins h) : f.Begins h :=
  ⟨hfg.1.trans hgh.1, hfg.2.trans hgh.2⟩

theorem begins_apply (f : Fragment) (step : Step) : f.Begins (step.apply f) :=
  ⟨⟨_, (ids_apply f step).symm⟩, ⟨_, (edges_apply f step).symm⟩⟩

/-- What is built begins with every copy that is taken on the way, and so does each later copy. -/
theorem pairwise_begins (steps : List Step) (f : Fragment) :
    (∀ g ∈ snapshotsFrom f steps ++ [steps.foldl Step.apply f], f.Begins g) ∧
      (snapshotsFrom f steps ++ [steps.foldl Step.apply f]).Pairwise Begins := by
  induction steps generalizing f with
  | nil => simp [snapshotsFrom, Begins.refl]
  | cons step steps ih =>
      obtain ⟨hfirst, hpairwise⟩ := ih (step.apply f)
      have hlater (g) (hg : g ∈ snapshotsFrom (step.apply f) steps ++
          [(step :: steps).foldl Step.apply f]) : f.Begins g :=
        (begins_apply f step).trans (hfirst g hg)
      cases step with
      | snapshot =>
          rw [snapshotsFrom, List.cons_append]
          exact ⟨List.forall_mem_cons.mpr ⟨.refl f, hlater⟩,
            List.pairwise_cons.mpr ⟨hlater, hpairwise⟩⟩
      | _ => exact ⟨hlater, hpairwise⟩

/-! ### Indexes -/

/-- A fragment in the making, with the IDs of its nodes and its edges at hand as sets. -/
structure Builder where
  fragment : Fragment := {}
  nodeIds : Finset String := ∅
  edgeKeys : Finset Edge := ∅

namespace Builder

/-- Adds a node unless its ID is taken, and tells whether it was added. -/
def addNode (b : Builder) (n : Node) : Builder × Bool :=
  if n.id ∈ b.nodeIds then (b, false)
  else
    ({ b with
        fragment := { b.fragment with nodes := b.fragment.nodes ++ [n] }
        nodeIds := insert n.id b.nodeIds }, true)

def addEdge (b : Builder) (e : Edge) : Builder :=
  if e ∈ b.edgeKeys then b
  else
    { b with
      fragment := { b.fragment with edges := b.fragment.edges ++ [e] }
      edgeKeys := insert e b.edgeKeys }

def setProperty (b : Builder) (id key : String) (value : Json) : Builder :=
  let place := b.fragment.nodes.findIdx (·.id == id)
  { b with fragment :=
      { b.fragment with nodes := b.fragment.nodes.modify place (·.set key value) } }

def contains (b : Builder) (id : String) : Bool :=
  id ∈ b.nodeIds

def apply (b : Builder) : Step → Builder
  | .addNode n => (b.addNode n).1
  | .addEdge e => b.addEdge e
  | .setProperty id key value => b.setProperty id key value
  | .snapshot => b

def after (steps : List Step) : Builder :=
  steps.foldl apply {}

/-- The sets hold what the lists hold. -/
structure InStep (b : Builder) : Prop where
  nodeIds : ∀ id, id ∈ b.nodeIds ↔ id ∈ b.fragment.ids
  edgeKeys : ∀ e, e ∈ b.edgeKeys ↔ e ∈ b.fragment.edges
  nodup : b.fragment.ids.Nodup

variable {b : Builder}

/-- Where IDs are distinct, the first node with an ID is the only one. -/
theorem modify_findIdx_id {ns : List Node} (hnodup : (ns.map Node.id).Nodup) (id : String)
    (change : Node → Node) : ns.modify (ns.findIdx (·.id == id)) change =
      ns.map fun n => if n.id == id then change n else n := by
  induction ns with
  | nil => simp
  | cons n ns ih =>
      obtain ⟨hn, hrest⟩ := List.nodup_cons.mp hnodup
      rw [List.findIdx_cons, List.map_cons]
      by_cases hid : n.id = id
      · have hkept : (ns.map fun m => if m.id == id then change m else m) = ns := by
          conv_rhs => rw [← List.map_id ns]
          refine List.map_congr_left fun m hm => if_neg ?_
          rw [beq_iff_eq]
          exact fun hmid => hn (List.mem_map.mpr ⟨m, hm, hmid.trans hid.symm⟩)
        rw [hkept, hid, beq_self_eq_true, cond_true, List.modify_zero_cons, if_pos rfl]
      · rw [beq_false_of_ne hid, cond_false, List.modify_succ_cons, ih hrest]
        rfl

/-- A step keeps the sets in step with the lists, and does to the fragment what it does to one
without sets. -/
theorem InStep.apply (hb : b.InStep) (step : Step) :
    (b.apply step).InStep ∧ (b.apply step).fragment = step.apply b.fragment := by
  cases step with
  | addNode n =>
      have hcontains : b.fragment.contains n.id = true ↔ n.id ∈ b.nodeIds :=
        contains_iff.trans (hb.nodeIds n.id).symm
      rw [Builder.apply, Builder.addNode, Step.apply]
      by_cases hn : n.id ∈ b.nodeIds
      · rw [if_pos hn, Fragment.addNode, if_pos (hcontains.mpr hn)]
        exact ⟨hb, rfl⟩
      · have hadded : b.fragment.addNode n =
            { b.fragment with nodes := b.fragment.nodes ++ [n] } :=
          if_neg (mt hcontains.mp hn)
        rw [if_neg hn, ← hadded]
        refine ⟨⟨fun id => ?_, fun e => ?_, nodup_addNode hb.nodup n⟩, rfl⟩
        · rw [Finset.mem_insert, mem_ids_addNode, hb.nodeIds, or_comm]
        · rw [edges_addNode]
          exact hb.edgeKeys e
  | addEdge e =>
      rw [Builder.apply, Builder.addEdge, Step.apply]
      dsimp only [Fragment.addEdge]
      by_cases he : e ∈ b.edgeKeys
      · rw [if_pos he, if_pos ((hb.edgeKeys e).mp he)]
        exact ⟨hb, rfl⟩
      · rw [if_neg he, if_neg (mt (hb.edgeKeys e).mpr he)]
        exact ⟨⟨hb.nodeIds, fun e' => by simp [hb.edgeKeys, or_comm], hb.nodup⟩, rfl⟩
  | setProperty id key value =>
      have hfragment :
          (b.setProperty id key value).fragment = b.fragment.setProperty id key value := by
        simp only [Builder.setProperty, Fragment.setProperty, modify_findIdx_id hb.nodup]
      refine ⟨⟨fun id' => ?_, fun e => ?_, ?_⟩, hfragment⟩ <;> rw [Builder.apply, hfragment]
      · rw [ids_setProperty]
        exact hb.nodeIds id'
      · exact hb.edgeKeys e
      · rw [ids_setProperty]
        exact hb.nodup
  | snapshot => exact ⟨hb, rfl⟩

theorem inStep_after (steps : List Step) :
    (after steps).InStep ∧ (after steps).fragment = build steps := by
  induction steps using List.reverseRecOn with
  | nil => exact ⟨⟨by simp [after, ids], by simp [after], List.nodup_nil⟩, rfl⟩
  | append_singleton steps step ih =>
      rw [build, after, List.foldl_append, List.foldl_append, ← build, ← after, ← ih.2]
      exact ih.1.apply step

end Builder

/-! ### First occurrences -/

theorem contains_after (steps : List Step) (id : String) :
    (Builder.after steps).contains id = (build steps).contains id := by
  obtain ⟨hb, hfragment⟩ := Builder.inStep_after steps
  rw [Builder.contains, Bool.eq_iff_iff, decide_eq_true_iff, hb.nodeIds, hfragment, contains_iff]

/-- Whatever steps build a fragment, its nodes are the first that were added with each ID, with what
was set on them later, and its edges are those that were added, each once. A node is added exactly
if its ID is new, no step takes away or moves what is there, and a builder that answers from sets
gives the same fragment and the same answers. -/
theorem built_of_first_occurrences (steps : List Step) :
    (build steps).nodes =
      ((additions steps).eraseDupsBy fun a b => sameId a.1 b.1).map (fun a => settled a.1 a.2) ∧
    (∀ n later key, (settled n later).get? key =
      ((settings n.id later).reverse.lookup key).or (n.get? key)) ∧
    (build steps).edges = (steps.filterMap Step.edge?).eraseDups ∧
    (∀ id, (build steps).contains id = true ↔ id ∈ (build steps).ids) ∧
    (snapshotsFrom {} steps ++ [build steps]).Pairwise Begins ∧
    (Builder.after steps).fragment = build steps ∧
    (∀ id, (Builder.after steps).contains id = (build steps).contains id) ∧
    (∀ n, ((Builder.after steps).addNode n).2 = true ↔ n.id ∉ steps.filterMap Step.id?) := by
  refine ⟨nodes_build steps, get?_settled, edges_build steps, fun id => contains_iff,
    (pairwise_begins steps {}).2, (Builder.inStep_after steps).2, contains_after steps, fun n => ?_⟩
  have hknown : n.id ∈ (Builder.after steps).nodeIds ↔ n.id ∈ steps.filterMap Step.id? := by
    obtain ⟨hb, hfragment⟩ := Builder.inStep_after steps
    rw [hb.nodeIds, hfragment, ids_build, List.mem_eraseDups]
  rw [Builder.addNode, ← hknown]
  split
  case isTrue hold => simp [hold]
  case isFalse hnew => simp [hnew]

end CodeGraph.Fragment

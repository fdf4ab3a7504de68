import CodeGraph.Proofs.Graph.Fragments
import Mathlib.Data.List.Induction

/-!
Building a fragment keeps first occurrences. Nodes that are added one after the other are the nodes
of the list in order, of each ID the first; edges are the edges of the list in order, each once.
-/

namespace CodeGraph

/-- Steps that each append an item unless it is related to one that is there keep the first of all
related items. -/
theorem foldl_append_new {σ α : Type} {items : σ → List α} {step : σ → α → σ} {r : α → α → Bool}
    (hstep : ∀ st x, items (step st x) =
      if (items st).any (r x) then items st else items st ++ [x]) (xs : List α) (st : σ) :
    items (xs.foldl step st) =
      items st ++ (xs.filter fun x => !(items st).any (r x)).eraseDupsBy r := by
  induction xs generalizing st with
  | nil => simp
  | cons x xs ih =>
      rw [List.foldl_cons, ih, hstep, List.filter_cons]
      by_cases hx : (items st).any (r x)
      · simp only [hx, if_true, Bool.not_true, Bool.false_eq_true, if_false]
      · -- What is left behind `x` is related neither to what was there nor to `x`.
        have hrest : (xs.filter fun y => !(items st ++ [x]).any (r y)) =
            (xs.filter fun y => !(items st).any (r y)).filter fun y => r y x = false := by
          rw [List.filter_filter]
          refine List.filter_congr fun y _ => ?_
          rw [List.any_append]
          cases (items st).any (r y) <;> cases hy : r y x <;> simp [hy]
        rw [if_neg hx, if_pos (by simpa using hx), List.eraseDupsBy_cons, hrest, List.append_assoc,
          List.singleton_append]

/-- Where every step appends at most one item, and only one that is not there, a run appends the
items of the steps in order, each once. -/
theorem foldl_append_fresh {σ α β : Type} [DecidableEq β] (items : σ → List β)
    {item? : α → Option β} {step : σ → α → σ} (hstep : ∀ st x, items (step st x) =
      items st ++ (item? x).toList.filter fun y => y ∉ items st) (xs : List α) {st : σ}
    (hst : items st = []) : items (xs.foldl step st) = (xs.filterMap item?).eraseDups := by
  induction xs using List.reverseRecOn with
  | nil => exact hst
  | append_singleton xs x ih =>
      have hlast : [x].filterMap item? = (item? x).toList := by
        cases h : item? x <;> simp [h]
      rw [List.foldl_append, List.foldl_cons, List.foldl_nil, hstep, ih, List.filterMap_append,
        hlast, List.eraseDups_append]
      generalize xs.filterMap item? = ys
      cases item? x with
      | none => simp
      | some y => by_cases hy : y ∈ ys <;> simp [hy, List.removeAll, List.eraseDups_cons]

namespace Fragment

def sameId (n m : Node) : Bool :=
  m.id == n.id

theorem nodes_foldl_addNode (ns : List Node) :
    (ns.foldl addNode {}).nodes = ns.eraseDupsBy sameId := by
  have hstep : ∀ (f : Fragment) (n : Node), (f.addNode n).nodes =
      if f.nodes.any (sameId n) then f.nodes else f.nodes ++ [n] := fun f n =>
    apply_ite Fragment.nodes (f.contains n.id = true) f { f with nodes := f.nodes ++ [n] }
  rw [foldl_append_new hstep]
  simp

theorem edges_addAll {f : Fragment} (hf : f.edges = []) (es : List Edge) :
    (f.addAll es).edges = es.eraseDups := by
  have hstep : ∀ (f : Fragment) (e : Edge), (f.addEdge e.source e.target e.relation).edges =
      if f.edges.any (e == ·) then f.edges else f.edges ++ [e] := by
    intro f e
    rw [addEdge]
    by_cases he : e ∈ f.edges <;> simp [List.any_beq, he]
  rw [addAll, foldl_append_new hstep, hf]
  simp [List.eraseDups]

end Fragment

end CodeGraph

import CodeGraph.Proofs.Graph.Fragments
import CodeGraph.Sql.Analysis
import CodeGraph.Vb.Calls
import Mathlib.Data.List.Basic

/-!
The analyses of SQL scripts and of Visual Basic files give closed fragments. All edges of a script
start at a definition, and each definition has its node. In a Visual Basic file the calls are
linked to the routines whose bodies the scan of the lines has found, and the scan has given each
of them its node.
-/

namespace CodeGraph

/-! ### SQL -/

namespace Sql

theorem mapM_eq_some_iff {α β : Type} {f : α → Option β} {xs : List α} {ys : List β} :
    xs.mapM f = some ys ↔ xs.map f = ys.map some := by
  induction xs generalizing ys with
  | nil => cases ys <;> simp
  | cons x xs ih =>
      cases hx : f x with
      | none => cases ys <;> simp [hx]
      | some y =>
          cases ys with
          | nil =>
              rw [List.mapM_cons, hx]
              cases xs.mapM f <;> simp
          | cons y' ys =>
              rw [List.map_cons, List.map_cons, hx, List.cons.injEq, ← ih, List.mapM_cons, hx]
              cases xs.mapM f <;> simp

variable {path : String} {text : List Char} {names : Names} {d : Definition}

theorem id_of_node? {n : Node} (h : node? path text d = some n) : n.id = d.id path := by
  unfold node? at h
  dsimp only at h
  split at h
  · obtain ⟨body, -, rfl⟩ := Option.map_eq_some_iff.mp h
    rfl
  · cases h
    rfl

theorem relation_of_mem_references {body : List Char} {r : Reference}
    (h : r ∈ references names body) : r.relation ∈ Relation.outgoing := by
  unfold references at h
  rw [List.mem_mergeSort, List.mem_append, List.mem_append] at h
  rcases h with (h | h) | h
  · obtain ⟨g, -, hg⟩ := List.mem_filterMap.mp h
    unfold execReference? at hg
    dsimp only at hg
    split at hg <;> cases hg
    show Relation.calls ∈ Relation.outgoing
    decide
  · obtain ⟨g, -, hg⟩ := List.mem_filterMap.mp h
    obtain ⟨id, -, rfl⟩ := Option.map_eq_some_iff.mp hg
    show Relation.calls ∈ Relation.outgoing
    decide
  · obtain ⟨g, -, hg⟩ := List.mem_filterMap.mp h
    unfold tableReference? at hg
    dsimp only at hg
    split_ifs at hg
    cases hg
    show Relation.uses ∈ Relation.outgoing
    decide

/-- What a definition refers to or watches, it refers to or watches itself. -/
theorem mem_edges? {es : List Edge} (h : edges? path text names d = some es) {e : Edge}
    (he : e ∈ es) : e.source = d.id path ∧ e.relation ∈ Relation.outgoing := by
  have hwatching : ∀ e ∈ (d.watched.map fun t =>
      (⟨d.id path, names.table t, Relation.watches⟩ : Edge)).toList,
      e.source = d.id path ∧ e.relation ∈ Relation.outgoing := by
    intro e he
    obtain ⟨t, -, rfl⟩ := Option.map_eq_some_iff.mp (Option.mem_toList.mp he)
    refine ⟨rfl, ?_⟩
    show Relation.watches ∈ Relation.outgoing
    decide
  unfold edges? at h
  dsimp only at h
  split at h
  · cases h
    exact hwatching e he
  · obtain ⟨body, -, rfl⟩ := Option.map_eq_some_iff.mp h
    rcases List.mem_append.mp he with he | he
    · exact hwatching e he
    · obtain ⟨r, hr, rfl⟩ := List.mem_map.mp he
      exact ⟨rfl, relation_of_mem_references (List.mem_of_mem_filter hr)⟩

theorem closed_fragment? {g : Fragment} (h : fragment? path text = some g) : g.Closed := by
  unfold fragment? at h
  dsimp only at h
  split at h
  case h_2 => cases h
  case h_1 nodes edges hnodes hedges =>
    cases h
    rw [mapM_eq_some_iff] at hnodes hedges
    have hempty : (nodes.foldl Fragment.addNode {}).Closed :=
      List.foldlRecOn nodes Fragment.addNode Fragment.closed_empty fun _ h n _ => h.addNode n
    refine hempty.addAll fun e he => ?_
    obtain ⟨es, hes, he⟩ := List.mem_flatten.mp he
    -- The edge comes from one definition, and the node of that definition is among the nodes.
    obtain ⟨d, hd, hdes⟩ : ∃ d ∈ definitions text, edges? path text _ d = some es :=
      List.mem_map.mp (hedges ▸ List.mem_map_of_mem hes)
    obtain ⟨n, hn, hdn⟩ : ∃ n ∈ nodes, some n = node? path text d :=
      List.mem_map.mp (hnodes ▸ List.mem_map_of_mem hd)
    obtain ⟨hsource, hrelation⟩ := mem_edges? hdes he
    have hid : e.source ∈ nodes.map Node.id := by
      rw [hsource, ← id_of_node? hdn.symm]
      exact List.mem_map_of_mem hn
    exact Edge.anchored_of_outgoing hrelation (Fragment.mem_ids_foldl_addNode.mpr (.inr hid))

theorem closed_of_analyze_eq_ok {f : SourceFile} {g : Fragment} (h : analyze f = .ok g) :
    g.Closed := by
  unfold analyze at h
  split at h
  · cases h
    exact closed_fragment? ‹_›
  · cases h

end Sql

/-! ### Visual Basic -/

namespace Vb

namespace Blocks

/-- The fragment is closed, every routine with a body has its node, whether it is open or done,
and the supertypes are related as such. -/
structure Closed (b : Blocks) : Prop where
  fragment : b.fragment.Closed
  routine : ∀ r, b.routine = some r → r.id ∈ b.fragment.ids
  bodies : ∀ r ∈ b.bodies, r.id ∈ b.fragment.ids
  supertypes : ∀ s ∈ b.supertypes, s.relation ∈ Relation.supertyping

variable {b b' : Blocks}

/-- The invariant looks at no more than the fragment, the routines and the supertypes. -/
theorem Closed.of_fragment (h : b.Closed) (hfragment : b'.fragment.Closed)
    (hids : b.fragment.ids ⊆ b'.fragment.ids) (hroutine : b'.routine = b.routine)
    (hbodies : b'.bodies = b.bodies) (hsupertypes : b'.supertypes = b.supertypes) : b'.Closed where
  fragment := hfragment
  routine r hr := hids (h.routine r (hroutine ▸ hr))
  bodies r hr := hids (h.bodies r (hbodies ▸ hr))
  supertypes s hs := h.supertypes s (hsupertypes ▸ hs)

@[simp] theorem ids_close (b : Blocks) (id : String) (line : Nat) :
    (b.close id line).fragment.ids = b.fragment.ids :=
  Fragment.ids_setProperty ..

theorem Closed.close (h : b.Closed) (id : String) (line : Nat) : (b.close id line).Closed := by
  refine h.of_fragment (h.fragment.setProperty _ _ _) ?_ rfl rfl rfl
  rw [ids_close]
  exact List.Subset.refl _

/-! #### Reading lines -/

theorem Closed.openType (h : b.Closed) (index : Nat) (keyword name : String) :
    (b.openType index keyword name).Closed :=
  h.of_fragment (h.fragment.addNode _) (Fragment.ids_subset_addNode _) rfl rfl rfl

theorem Closed.closeType (h : b.Closed) (index : Nat) : (b.closeType index).Closed := by
  unfold Blocks.closeType
  split
  case h_1 => exact h
  case h_2 t rest _ =>
    have hclosed := h.close t.id (index + 1)
    exact ⟨hclosed.fragment, hclosed.routine, hclosed.bodies, hclosed.supertypes⟩

theorem supertypeRelation_mem (keyword : String) (ofInterface : Bool) :
    supertypeRelation keyword ofInterface ∈ Relation.supertyping := by
  unfold supertypeRelation
  split <;> decide

theorem Closed.addSupertypes (h : b.Closed) (keyword list : String) :
    (b.addSupertypes keyword list).Closed := by
  unfold Blocks.addSupertypes
  split
  case h_1 => exact h
  case h_2 t _ =>
    refine ⟨h.fragment, h.routine, h.bodies, fun s hs => ?_⟩
    rcases List.mem_append.mp hs with hs | hs
    · exact h.supertypes s hs
    · obtain ⟨base, -, rfl⟩ := List.mem_map.mp hs
      exact supertypeRelation_mem keyword t.isInterface

theorem Closed.addRoutine (h : b.Closed) (index : Nat) (raw : List Char) (name : String) :
    (b.addRoutine index raw name).Closed := by
  unfold Blocks.addRoutine
  dsimp only
  split
  · exact h.of_fragment (h.fragment.addMember _ _ (by decide))
      (Fragment.ids_subset_addMember _ _ _) rfl rfl rfl
  · exact h.of_fragment (h.fragment.addNode _) (Fragment.ids_subset_addNode _) rfl rfl rfl

theorem routineId_mem_addRoutine (b : Blocks) (index : Nat) (raw : List Char) (name : String) :
    b.routineId name ∈ (b.addRoutine index raw name).fragment.ids := by
  unfold addRoutine
  dsimp only
  split
  · exact Fragment.id_mem_addMember _ _ _
  · exact Fragment.id_mem_addNode _

theorem Closed.openRoutine (h : b.Closed) (index : Nat) (raw line : List Char) (name : String) :
    (b.openRoutine index raw line name).Closed := by
  have hadded := h.addRoutine index raw name
  unfold Blocks.openRoutine
  dsimp only
  split
  · refine ⟨hadded.fragment, fun r hr => ?_, hadded.bodies, hadded.supertypes⟩
    cases hr
    exact b.routineId_mem_addRoutine index raw name
  · exact hadded.close _ _

/-- Closes the open routine and keeps its body. -/
theorem Closed.endRoutine (h : b.Closed) {r : Body} (hr : b.routine = some r)
    (line stop : Nat) :
    Closed { b.close r.id line with
      routine := none
      bodies := b.bodies ++ [{ r with stop := stop }] } := by
  have hclosed := h.close r.id line
  refine ⟨hclosed.fragment, ?_, fun r' hr' => ?_, h.supertypes⟩
  · intro _ hnone
    cases hnone
  rcases List.mem_append.mp hr' with hr' | hr'
  · exact hclosed.bodies r' hr'
  · rw [List.mem_singleton.mp hr']
    exact hclosed.routine r hr

theorem Closed.outerLine (h : b.Closed) (index : Nat) (raw line : List Char) :
    (b.outerLine index raw line).Closed := by
  -- The shapes are tried in order: a type begins, a type ends, supertypes, a routine begins.
  unfold Blocks.outerLine
  split
  · split
    · exact h.openType index _ _
    · exact h
  · split
    · exact h.closeType index
    · split
      · split
        · exact h.addSupertypes _ _
        · exact h
      · split
        · exact h.openRoutine index raw line _
        · exact h

theorem Closed.step (h : b.Closed) (raw : List Char) (index : Nat) :
    (b.step raw index).Closed := by
  unfold Blocks.step
  dsimp only
  split
  case h_1 r hr =>
    unfold bodyLine
    split
    · exact h.endRoutine hr _ _
    · exact h
  case h_2 => exact h.outerLine index raw _

theorem Closed.finish (h : b.Closed) (count : Nat) : (b.finish count).Closed := by
  unfold Blocks.finish
  dsimp only
  refine List.foldlRecOn (motive := Blocks.Closed) _ _ ?_ fun _ h t _ => h.close t.id count
  split
  case h_1 r hr => exact h.endRoutine hr _ _
  case h_2 => exact h

/-! #### Linking -/

theorem Closed.linkSupertype (h : b.Closed) {s : Supertype}
    (hs : s.relation ∈ Relation.supertyping) : (b.linkSupertype s).Closed := by
  refine h.of_fragment (h.fragment.addEdge (Edge.anchored_of_supertyping hs)) ?_ rfl rfl rfl
  rw [Blocks.linkSupertype, Fragment.ids_addEdge]
  exact List.Subset.refl _

theorem Closed.linkCalls (h : b.Closed) (lines : List (List Char)) {r : Body}
    (hr : r ∈ b.bodies) : (linkCalls lines b r).Closed := by
  unfold Blocks.linkCalls
  dsimp only
  rw [Fragment.addEdges_eq_addAll]
  refine h.of_fragment ((h.fragment.addAll fun e he => ?_).setProperty _ _ _) ?_ rfl rfl rfl
  · obtain ⟨target, -, rfl⟩ := List.mem_map.mp he
    exact Edge.anchored_of_outgoing (by decide) (h.bodies r hr)
  · rw [Fragment.ids_setProperty, Fragment.ids_addAll]
    exact List.Subset.refl _

theorem closed_ofLines (path : String) (lines : List (List Char)) :
    (ofLines path lines).Closed := by
  have hstart : Closed { path := path } := by
    refine ⟨Fragment.closed_empty, ?_, ?_, ?_⟩ <;> intro _ h <;> cases h
  have hscanned : (lines.zipIdx.foldl (fun (b : Blocks) x => b.step x.1 x.2)
      { path := path }).Closed :=
    List.foldlRecOn (motive := Blocks.Closed) _ _ hstart fun _ h x _ => h.step x.1 x.2
  -- Linking goes through the supertypes that were found when all lines were read.
  have hclosed := hscanned.finish lines.length
  exact List.foldlRecOn (motive := Blocks.Closed) _ _ hclosed
    fun _ h s hs => h.linkSupertype (hclosed.supertypes s hs)

end Blocks

theorem closed_analyze (f : SourceFile) : (analyze f).Closed := by
  let lines := Chars.lines (Utf8.lossy f.bytes)
  let start := Blocks.ofLines f.path lines
  have hstart : start.Closed := Blocks.closed_ofLines f.path lines
  -- Linking calls does not change the list of bodies that it goes through.
  have hlinked : (start.bodies.foldl (Blocks.linkCalls lines) start).Closed ∧
      (start.bodies.foldl (Blocks.linkCalls lines) start).bodies = start.bodies := by
    refine List.foldlRecOn (motive := fun b => Blocks.Closed b ∧ b.bodies = start.bodies) _ _
      ⟨hstart, rfl⟩ fun b h r hr => ?_
    obtain ⟨hclosed, hbodies⟩ := h
    exact ⟨hclosed.linkCalls lines (hbodies ▸ hr), hbodies⟩
  exact hlinked.1.fragment

end Vb

end CodeGraph

import CodeGraph.Proofs.Graph.Lookup
import CodeGraph.Proofs.Vb.Declarations
import CodeGraph.Proofs.Vb.Extents

/-!
Files that declare an ID more than once. Of the declarations with one ID, the first gives the node
with its line and its signature, but whenever a block is closed or a body is measured, the result is
written to the node that has the ID. So the node ends where its last declaration ends, and it
describes its first declaration exactly if there is no other one.
-/

namespace CodeGraph

/-- Sets one property to each of some numbers in turn. -/
def Node.setEach (key : String) (values : List Nat) (n : Node) : Node :=
  values.foldl (fun n (value : Nat) => n.set key (.int value)) n

@[simp] theorem Node.setEach_nil (key : String) : Node.setEach key [] = fun n => n := rfl

@[simp] theorem Node.setEach_singleton (key : String) (value : Nat) :
    Node.setEach key [value] = fun n => n.set key (.int value) := rfl

theorem Node.setEach_append (key : String) (values values' : List Nat) :
    Node.setEach key (values ++ values') = Node.setEach key values' ∘ Node.setEach key values := by
  funext n
  exact List.foldl_append

theorem Node.get?_setEach (key key' : String) (values : List Nat) (n : Node) :
    (n.setEach key values).get? key' =
      if key' = key then (values.getLast?.map fun value : Nat => Json.int value).or (n.get? key)
      else n.get? key' := by
  induction values using List.reverseRecOn with
  | nil =>
      split
      case isTrue h => rw [h]; rfl
      case isFalse => rfl
  | append_singleton values value ih =>
      simp only [setEach, List.foldl_append, List.foldl_cons, List.foldl_nil] at ih ⊢
      by_cases h : key' = key
      · simp [h]
      · rw [get?_set_of_ne h, ih, if_neg h, if_neg h]

/-- A property that is set for an ID reaches the node with that ID. -/
theorem Fragment.node?_setProperty_int (f : Fragment) (id key : String) (value : Nat)
    (id' : String) :
    (f.setProperty id key (.int value)).node? id' =
      (f.node? id').map (Node.setEach key (if id = id' then [value] else [])) := by
  rw [node?_setProperty]
  by_cases hid : id = id'
  · simp [hid]
  · simp [hid, Ne.symm hid]

theorem map_filter_cons {α : Type} (idOf : α → String) (id : String) (g : α → Nat) (a : α)
    (l : List α) : ((a :: l).filter (idOf · == id)).map g =
      (if idOf a = id then [g a] else []) ++ (l.filter (idOf · == id)).map g := by
  by_cases h : idOf a = id <;> simp [h]

@[simp] theorem Node.id_setEach (key : String) (values : List Nat) (n : Node) :
    (n.setEach key values).id = n.id :=
  List.foldlRecOn (motive := fun m : Node => m.id = n.id) _ _ rfl fun _ h _ _ => h

@[simp] theorem Node.label_setEach (key : String) (values : List Nat) (n : Node) :
    (n.setEach key values).label = n.label :=
  List.foldlRecOn (motive := fun m : Node => m.label = n.label) _ _ rfl fun _ h _ _ => h

namespace Vb

namespace Blocks

variable {b : Blocks} {index : Nat} {id : String}

/-! ### The node with an ID -/

theorem node?_close (b : Blocks) (closed : String) (line : Nat) (id : String) :
    (b.close closed line).fragment.node? id =
      (b.fragment.node? id).map (Node.setEach Key.endLine (if closed = id then [line] else [])) :=
  Fragment.node?_setProperty_int ..

theorem node?_openRoutine (raw line : List Char) (name : String) :
    (b.openRoutine index raw line name).fragment.node? id =
      ((b.fragment.addNode (b.routineNode index raw name)).node? id).map fun n =>
        if b.startsBody line = false ∧ b.routineId name = id then
          n.set Key.endLine (.int (index + 1 : Nat))
        else n := by
  have hadded : (b.addRoutine index raw name).fragment.node? id =
      (b.fragment.addNode (b.routineNode index raw name)).node? id :=
    congrArg (List.find? fun n : Node => n.id == id) (b.nodes_addRoutine index raw name)
  rw [fragment_openRoutine]
  cases b.startsBody line with
  | true => simp [hadded]
  | false => simp [Fragment.node?_setProperty, hadded, eq_comm]

/-- One line: the first declaration of an ID gives the node, and every closing is written to it. -/
theorem node?_step (b : Blocks) (index : Nat) (raw : List Char) (rest : List (List Char))
    (id : String) :
    (b.step raw index).fragment.node? id =
      ((b.fragment.node? id).or (((b.declared? index raw rest).toList.filter
        (·.node.id == id)).head?.map Declared.node)).map
          (Node.setEach Key.endLine (if b.closes? raw = some id then [index + 1] else [])) := by
  rw [step_eq_act]
  cases hreading : b.reading raw with
  | plain => simp [act, declared?, closes?, hreading]
  | supertypes keyword list => simp [act, declared?, closes?, hreading]
  | typeStart keyword name =>
      simp only [act, fragment_openType, Fragment.node?_addNode, declared?, closes?, hreading]
      by_cases hid : b.typeId name = id <;> simp [hid]
  | typeEnd =>
      simp only [act, closeType, declared?, closes?, hreading]
      cases htypes : b.types with
      | nil => simp
      | cons t around => simp [node?_close]
  | routineStart name =>
      simp only [act, node?_openRoutine, Fragment.node?_addNode, declared?, closes?, hreading]
      by_cases hid : b.routineId name = id <;> cases b.startsBody (strip raw) <;>
        simp [hid]
  | routineEnd =>
      obtain ⟨r, hr⟩ := exists_routine hreading
      simp [act, endRoutine, declared?, closes?, hreading, hr, node?_close]

/-- A line closes nothing but what is open or declared on it. -/
theorem mem_openIds_or_declared? {raw : List Char} (hcloses : b.closes? raw = some id)
    (index : Nat) (rest : List (List Char)) :
    id ∈ b.openIds ∨ ∃ d, b.declared? index raw rest = some d ∧ d.node.id = id := by
  cases hreading : b.reading raw with
  | plain | typeStart _ _ | supertypes _ _ => simp [closes?, hreading] at hcloses
  | typeEnd =>
      left
      cases htypes : b.types with
      | nil => simp [closes?, hreading, htypes] at hcloses
      | cons t around =>
          obtain rfl : t.id = id := by simpa [closes?, hreading, htypes] using hcloses
          simp [openIds, htypes]
  | routineStart name =>
      right
      cases hbody : b.startsBody (strip raw) with
      | true => simp [closes?, hreading, hbody] at hcloses
      | false =>
          obtain rfl : b.routineId name = id := by simpa [closes?, hreading, hbody] using hcloses
          simp [declared?, hreading, hbody]
  | routineEnd =>
      left
      obtain ⟨r, hr⟩ := exists_routine hreading
      obtain rfl : r.id = id := by simpa [closes?, hreading, hr] using hcloses
      simp [openIds, hr]

theorem node?_foldl_close (ts : List OpenType) (b : Blocks) (count : Nat) (id : String) :
    (ts.foldl (fun b t => b.close t.id count) b).fragment.node? id =
      (b.fragment.node? id).map (Node.setEach Key.endLine
        (((ts.map (·.id)).filter (· == id)).map fun _ => count)) := by
  induction ts generalizing b with
  | nil => simp
  | cons t ts ih =>
      rw [List.foldl_cons, ih, node?_close, Option.map_map, List.map_cons,
        map_filter_cons fun id => id, Node.setEach_append]

/-- The end of the file is written as the last line of what is still open. -/
theorem node?_finish (b : Blocks) (count : Nat) (id : String) :
    (b.finish count).fragment.node? id = (b.fragment.node? id).map
      (Node.setEach Key.endLine ((b.openIds.filter (· == id)).map fun _ => count)) := by
  rw [finish_eq, node?_foldl_close, openIds, List.filter_append, List.map_append,
    Node.setEach_append, ← Option.map_map]
  congr 1
  unfold endRoutine
  cases b.routine with
  | none => simp
  | some r =>
      by_cases hid : r.id = id <;> simp [node?_close, hid]

/-- All lines: the first declaration of an ID gives the node, and all closings are written to it in
their order. -/
theorem node?_readFrom (id : String) (index : Nat) (h : b.Stacked) (lines : List (List Char)) :
    ((b.readFrom index lines).finish (index + lines.length)).fragment.node? id =
      ((b.fragment.node? id).or ((declaredAs id b index lines).head?.map Declared.node)).map
        (Node.setEach Key.endLine (endsFrom id b index lines)) := by
  induction lines generalizing b index with
  | nil =>
      rw [readFrom, List.length_nil, Nat.add_zero, node?_finish]
      simp [declaredAs, declarationsFrom, endsFrom]
  | cons raw rest ih =>
      have hcount : index + (raw :: rest).length = index + 1 + rest.length := by
        simp only [List.length_cons]
        omega
      rw [hcount, readFrom, ih (index + 1) (h.step raw), node?_step b index raw rest,
        declaredAs_cons, endsFrom, List.head?_append, Option.map_or (f := Declared.node),
        ← Option.or_assoc, Node.setEach_append]
      generalize hnew : (b.fragment.node? id).or (((b.declared? index raw rest).toList.filter
        (·.node.id == id)).head?.map Declared.node) = new
      cases new with
      | some n => simp
      | none =>
          -- Nothing has the ID yet, so nothing with the ID is closed.
          have hcloses : ¬ b.closes? raw = some id := by
            intro hcloses
            rcases mem_openIds_or_declared? hcloses index rest with hopen | ⟨d, hd, hid⟩
            · have hknown := Fragment.isSome_node?_iff_mem.mpr (h.known id hopen)
              simp [(Option.or_eq_none_iff.mp hnew).1] at hknown
            · simp [hd, hid] at hnew
          simp [hcloses, Function.comp_def]

/-! ### Complexity -/

theorem node?_ofLines (path : String) (lines : List (List Char)) (id : String) :
    (ofLines path lines).fragment.node? id = (scanned path lines).fragment.node? id := by
  rw [ofLines_eq]
  refine List.foldlRecOn (motive := fun b : Blocks =>
    b.fragment.node? id = (scanned path lines).fragment.node? id) _ _ rfl fun b h s _ => ?_
  rw [linkSupertype, Fragment.node?_addEdge, h]

/-- The complexity of every body is written to the node that has its ID. -/
theorem node?_foldl_linkCalls (lines : List (List Char)) (bodies : List Body) (b : Blocks)
    (id : String) :
    (bodies.foldl (linkCalls lines) b).fragment.node? id = (b.fragment.node? id).map
      (Node.setEach Key.complexity ((bodies.filter (·.id == id)).map (complexityOf lines))) := by
  induction bodies generalizing b with
  | nil => simp
  | cons r bodies ih =>
      rw [List.foldl_cons, ih, linkCalls, Fragment.node?_setProperty_int, Fragment.node?_addEdges,
        Option.map_map, map_filter_cons Body.id, Node.setEach_append]

/-! ### IDs of a file -/

/-- Closing blocks and linking add no nodes. -/
theorem ids_fragmentOf (path : String) (lines : List (List Char)) :
    (fragmentOf path lines).ids = (readFrom { path } 0 lines).fragment.ids := by
  have hscanned : (scanned path lines).fragment.ids = (readFrom { path } 0 lines).fragment.ids := by
    rw [scanned, finish_eq]
    exact List.foldlRecOn (motive := fun b : Blocks => b.fragment.ids = _) _ _ (ids_endRoutine ..)
      fun b h t _ => (ids_close b t.id _).trans h
  have hlinked : (ofLines path lines).fragment.ids = (scanned path lines).fragment.ids := by
    rw [ofLines_eq]
    exact List.foldlRecOn (motive := fun b : Blocks => b.fragment.ids = _) _ _ rfl
      fun b h s _ => (Fragment.ids_addEdge ..).trans h
  have hcalls : (fragmentOf path lines).ids = (ofLines path lines).fragment.ids := by
    refine List.foldlRecOn (motive := fun b : Blocks => b.fragment.ids = _) _ _ rfl
      fun b h r _ => ?_
    rw [linkCalls, Fragment.ids_setProperty, Fragment.addEdges_eq_addAll, Fragment.ids_addAll, h]
  rw [hcalls, hlinked, hscanned]

theorem nodup_ids_fragmentOf (path : String) (lines : List (List Char)) :
    (fragmentOf path lines).ids.Nodup := by
  rw [ids_fragmentOf]
  refine readFrom_induction (I := fun _ b => b.fragment.ids.Nodup) (fun b index raw h => ?_)
    (by simp [Fragment.ids]) lines
  cases b.reading raw with
  | plain => exact h
  | typeStart keyword name => exact Fragment.nodup_addNode h _
  | typeEnd => simpa [act] using h
  | supertypes keyword list => simpa [act] using h
  | routineStart name =>
      rw [act, ids_openRoutine]
      exact Fragment.nodup_addNode h _
  | routineEnd => simpa [act] using h

end Blocks

/-! ### Repeated declarations -/

namespace Declared

def complexity? (lines : List (List Char)) (d : Declared) : Option Nat :=
  d.body.map (Blocks.complexityOf lines)

/-- A declaration is consistent in itself, and its first line does not tell where it ends. -/
structure Sound (d : Declared) : Prop where
  body : ∀ r ∈ d.body, r.id = d.node.id
  fresh : ∀ key ∈ laterKeys, d.node.get? key = none

/-- The node of the first one of some declarations, to which the others are written too. -/
def recorded (lines : List (List Char)) (ds : List Declared) (first : Declared) : Node :=
  (first.node.setEach Key.endLine (ds.map endLine)).setEach Key.complexity
    (ds.filterMap (complexity? lines))

/-- All that a node records is what a declaration among these lines says. -/
structure DescribedBy (lines : List (List Char)) (n : Node) (d : Declared) : Prop where
  id : n.id = d.node.id
  label : n.label = d.node.label
  declared : ∀ key ∉ laterKeys, n.get? key = d.node.get? key
  endLine : n.get? Key.endLine = some (.int d.endLine)
  complexity : n.get? Key.complexity = (d.complexity? lines).map fun c : Nat => .int c

section

variable {lines : List (List Char)} {ds : List Declared} {first last : Declared}

@[simp] theorem id_recorded : (recorded lines ds first).id = first.node.id := by
  simp only [recorded, Node.id_setEach]

@[simp] theorem label_recorded : (recorded lines ds first).label = first.node.label := by
  simp only [recorded, Node.label_setEach]

theorem get?_recorded_of_notMem {key : String} (hkey : key ∉ laterKeys) :
    (recorded lines ds first).get? key = first.node.get? key := by
  have hne : key ≠ Key.endLine ∧ key ≠ Key.complexity := by
    constructor <;> rintro rfl <;> exact hkey (by decide)
  rw [recorded, Node.get?_setEach, if_neg hne.2, Node.get?_setEach, if_neg hne.1]

theorem get?_recorded_endLine (hlast : ds.getLast? = some last) :
    (recorded lines ds first).get? Key.endLine = some (.int last.endLine) := by
  rw [recorded, Node.get?_setEach, if_neg (by decide), Node.get?_setEach, if_pos rfl,
    List.getLast?_map, hlast]
  rfl

theorem get?_recorded_complexity (hfirst : first.Sound) :
    (recorded lines ds first).get? Key.complexity =
      (ds.filterMap (complexity? lines)).getLast?.map fun c : Nat => .int c := by
  rw [recorded, Node.get?_setEach, if_pos rfl, Node.get?_setEach, if_neg (by decide),
    hfirst.fresh _ (by decide), Option.or_none]

/-- Later declarations end later, so only a single one is described. -/
theorem describedBy_recorded_iff (hfirst : first.Sound) (hhead : ds.head? = some first)
    (hgrows : ds.Pairwise fun d later => d.endLine < later.endLine) :
    DescribedBy lines (recorded lines ds first) first ↔ ds = [first] := by
  obtain ⟨rest, rfl⟩ := List.head?_eq_some_iff.mp hhead
  constructor
  · intro h
    cases rest with
    | nil => rfl
    | cons d rest =>
        have hlast : (first :: d :: rest).getLast? = some ((d :: rest).getLast (by simp)) := by
          rw [List.getLast?_cons_cons, List.getLast?_eq_some_getLast]
        have hlt := (List.pairwise_cons.mp hgrows).1 _ (List.getLast_mem (l := d :: rest) (by simp))
        have hend := h.endLine
        rw [get?_recorded_endLine hlast, Option.some_inj, Json.int.injEq, Int.ofNat_inj] at hend
        omega
  · intro h
    obtain rfl : rest = [] := by simpa using h
    refine ⟨id_recorded, label_recorded, fun key hkey => get?_recorded_of_notMem hkey,
      get?_recorded_endLine rfl, ?_⟩
    rw [get?_recorded_complexity hfirst]
    cases hbody : first.complexity? lines <;> simp [hbody]

end

end Declared

namespace Blocks

theorem get?_introduced (id label name file : String) (line : Nat) {declaring : String}
    (hdeclaring : declaring ∈ declaringKeys) (value : Json) :
    ∀ key ∈ laterKeys,
      ((Node.definition id label name file line).set declaring value).get? key = none := by
  have hother : ∀ key ∈ laterKeys, (∀ declaring ∈ declaringKeys, key ≠ declaring) ∧
      key ≠ Key.line ∧ key ≠ Key.file ∧ key ≠ Key.name := by decide
  intro key hkey
  obtain ⟨hfirst, hline, hfile, hname⟩ := hother key hkey
  rw [Node.get?_set_of_ne (hfirst declaring hdeclaring), Node.definition,
    Node.get?_set_of_ne hline, Node.get?_set_of_ne hfile, Node.get?_set_of_ne hname]
  rfl

theorem sound_of_declared? {b : Blocks} {index : Nat} {raw : List Char} {rest : List (List Char)}
    {d : Declared} (h : b.declared? index raw rest = some d) : d.Sound := by
  unfold declared? at h
  split at h
  · cases h
    exact ⟨by simp, get?_introduced _ _ _ _ _ (by decide) _⟩
  · split at h
    · cases h
      exact ⟨by simp [opened], get?_introduced _ _ _ _ _ (by decide) _⟩
    · cases h
      exact ⟨by simp, get?_introduced _ _ _ _ _ (by decide) _⟩
  all_goals cases h

theorem sound_of_mem {b : Blocks} {index : Nat} {lines : List (List Char)} {d : Declared}
    (h : d ∈ b.declarationsFrom index lines) : d.Sound := by
  obtain ⟨_, _, _, _, -, hd⟩ := exists_declared?_of_mem (I := fun _ _ => True)
    (fun _ _ _ _ => trivial) trivial h
  exact sound_of_declared? hd

/-- The complexities of the bodies with an ID are those of the declarations with the ID. -/
theorem complexities_eq (path : String) (lines : List (List Char)) (id : String) :
    ((scanned path lines).bodies.filter (·.id == id)).map (complexityOf lines) =
      (declaredAs id { path } 0 lines).filterMap (Declared.complexity? lines) := by
  have hfilter (ds : List Declared) (hds : ∀ d ∈ ds, d.Sound) :
      ((ds.filterMap Declared.body).filter (·.id == id)).map (complexityOf lines) =
        (ds.filter (·.node.id == id)).filterMap (Declared.complexity? lines) := by
    induction ds with
    | nil => rfl
    | cons d ds ih =>
        have ih := ih fun d' hd' => hds d' (List.mem_cons_of_mem _ hd')
        have hid := (hds d List.mem_cons_self).body
        cases hbody : d.body with
        | none =>
            by_cases hd : d.node.id = id <;> simp [hbody, hd, ih, Declared.complexity?]
        | some r =>
            have hr : r.id = d.node.id := hid r hbody
            by_cases hd : d.node.id = id <;> simp [hbody, hr, hd, ih, Declared.complexity?]
  rw [bodies_scanned]
  exact hfilter _ fun d hd => sound_of_mem hd

theorem stacked_start (path : String) : Stacked { path } := by
  constructor <;> simp [openIds]

/-- What is written as last line of the node with an ID are the last lines of the declarations. -/
theorem endsFrom_start (path : String) (lines : List (List Char)) (id : String) :
    endsFrom id { path } 0 lines = (declaredAs id { path } 0 lines).map Declared.endLine := by
  rw [endsFrom_eq (stacked_start path), pending_eq_nil (by simp [openIds])]
  rfl

theorem pairwise_declaredAs (path : String) (lines : List (List Char)) (id : String) :
    (declaredAs id { path } 0 lines).Pairwise fun d later => d.endLine < later.endLine := by
  rw [← List.pairwise_map (f := Declared.endLine) (R := (· < ·)), ← endsFrom_start]
  exact pairwise_endsFrom (stacked_start path) lines

/-- The node with an ID in terms of the declarations with the ID. -/
theorem node?_fragmentOf (path : String) (lines : List (List Char)) (id : String) :
    (fragmentOf path lines).node? id = (declaredAs id { path } 0 lines).head?.map
      (Declared.recorded lines (declaredAs id { path } 0 lines)) := by
  have hread := node?_readFrom id 0 (stacked_start path) lines
  rw [Nat.zero_add, endsFrom_start] at hread
  show ((ofLines path lines).bodies.foldl (linkCalls lines) _).fragment.node? id = _
  rw [node?_foldl_linkCalls, node?_ofLines, bodies_ofLines, complexities_eq, scanned, hread]
  simp only [Fragment.node?, List.find?_nil, Option.none_or, Option.map_map]
  rfl

end Blocks

def declarationsOf (f : SourceFile) (id : String) : List Declared :=
  Blocks.declaredAs id { path := f.path } 0 (Chars.lines (Utf8.lossy f.bytes))

/-- A node takes its label and what its first line tells from the first declaration with its ID,
its last line from the last one, and its complexity from the last one with a body. So it describes
the first declaration if and only if there is no other one with its ID. -/
theorem describes_first_iff_declared_once (f : SourceFile) {n : Node}
    (hn : n ∈ (analyze f).nodes) :
    let lines := Chars.lines (Utf8.lossy f.bytes)
    ∃ first last, (declarationsOf f n.id).head? = some first ∧
      (declarationsOf f n.id).getLast? = some last ∧
      n.label = first.node.label ∧
      (∀ key ∉ laterKeys, n.get? key = first.node.get? key) ∧
      n.get? Key.endLine = some (.int last.endLine) ∧
      n.get? Key.complexity = ((declarationsOf f n.id).filterMap
        (Declared.complexity? lines)).getLast?.map (fun c : Nat => .int c) ∧
      (Declared.DescribedBy lines n first ↔ declarationsOf f n.id = [first]) := by
  intro lines
  have hfound : (fragmentOf f.path lines).node? n.id = some n :=
    Fragment.node?_of_mem (Blocks.nodup_ids_fragmentOf f.path lines) hn
  have hgrows : (declarationsOf f n.id).Pairwise fun d later => d.endLine < later.endLine :=
    Blocks.pairwise_declaredAs f.path lines n.id
  rw [Blocks.node?_fragmentOf] at hfound
  change (declarationsOf f n.id).head?.map (Declared.recorded lines (declarationsOf f n.id)) =
    some n at hfound
  obtain ⟨first, hfirst, hnode⟩ := Option.map_eq_some_iff.mp hfound
  have hmem : first ∈ declarationsOf f n.id := List.mem_of_head? hfirst
  have hsound : first.Sound := Blocks.sound_of_mem (List.mem_filter.mp hmem).1
  obtain ⟨last, hlast⟩ : ∃ last, (declarationsOf f n.id).getLast? = some last :=
    ⟨_, List.getLast?_eq_some_getLast (List.ne_nil_of_mem hmem)⟩
  generalize declarationsOf f n.id = ds at *
  subst hnode
  exact ⟨first, last, hfirst, hlast, Declared.label_recorded,
    fun key hkey => Declared.get?_recorded_of_notMem hkey, Declared.get?_recorded_endLine hlast,
    Declared.get?_recorded_complexity hsound,
    Declared.describedBy_recorded_iff hsound hfirst hgrows⟩

/-- A file in which a routine is declared twice, the second time with a branch. -/
def overloadFile : SourceFile :=
  ⟨"a.vb", Utf8.encode
    "Class A\nSub F()\nEnd Sub\nSub F(x)\nIf x Then\nEnd Sub\nEnd Class\n".toList⟩

/-- The type of the file is declared once, so its node describes it. -/
theorem overloadFile_type_described :
    ∃ n ∈ (analyze overloadFile).nodes, n.id = "a.vb:A" ∧ ∃ first,
      declarationsOf overloadFile "a.vb:A" = [first] ∧ first.endLine = 7 ∧
      Declared.DescribedBy (Chars.lines (Utf8.lossy overloadFile.bytes)) n first := by
  have hfound : ((analyze overloadFile).node? "a.vb:A").isSome = true := by decide +kernel
  obtain ⟨n, hnode⟩ := Option.isSome_iff_exists.mp hfound
  have hn : n ∈ (analyze overloadFile).nodes := List.mem_of_find?_eq_some hnode
  have hid : n.id = "a.vb:A" := Fragment.id_of_node? hnode
  obtain ⟨first, -, hfirst, -, -, -, -, -, hiff⟩ :=
    describes_first_iff_declared_once overloadFile hn
  rw [hid] at hfirst hiff
  have hends : (declarationsOf overloadFile "a.vb:A").map Declared.endLine = [7] := by
    decide +kernel
  obtain ⟨rest, hds⟩ := List.head?_eq_some_iff.mp hfirst
  obtain ⟨hend, rfl⟩ : first.endLine = 7 ∧ rest = [] := by simpa [hds] using hends
  exact ⟨n, hn, hid, first, hds, hend, hiff.mpr hds⟩

/-- The routine is declared twice: its node begins with the first declaration, but it ends with the
second one and has its complexity. -/
theorem overloadFile_routine_not_described :
    ∃ n ∈ (analyze overloadFile).nodes, n.id = "a.vb:A:F" ∧ ∃ first,
      (declarationsOf overloadFile n.id).head? = some first ∧
      n.line? = some 2 ∧ first.node.line? = some 2 ∧
      (n.get? Key.endLine).bind Json.natural? = some 6 ∧ first.endLine = 3 ∧
      (n.get? Key.complexity).bind Json.natural? = some 2 ∧
      first.complexity? (Chars.lines (Utf8.lossy overloadFile.bytes)) = some 1 ∧
      ¬ Declared.DescribedBy (Chars.lines (Utf8.lossy overloadFile.bytes)) n first := by
  have hfound : ((analyze overloadFile).node? "a.vb:A:F").map (fun n =>
      (n.line?, (n.get? Key.endLine).bind Json.natural?,
        (n.get? Key.complexity).bind Json.natural?)) = some (some 2, some 6, some 2) := by
    decide +kernel
  have hdeclared : (declarationsOf overloadFile "a.vb:A:F").head?.map (fun d =>
      (d.node.line?, d.endLine, d.complexity? (Chars.lines (Utf8.lossy overloadFile.bytes)))) =
      some (some 2, 3, some 1) := by
    decide +kernel
  obtain ⟨n, hnode, hn⟩ := Option.map_eq_some_iff.mp hfound
  obtain ⟨first, hfirst, hd⟩ := Option.map_eq_some_iff.mp hdeclared
  simp only [Prod.mk.injEq] at hn hd
  have hid : n.id = "a.vb:A:F" := Fragment.id_of_node? hnode
  rw [← hid] at hfirst
  refine ⟨n, List.mem_of_find?_eq_some hnode, hid, first, hfirst, hn.1, hd.1, hn.2.1, hd.2.1,
    hn.2.2, hd.2.2, fun h => ?_⟩
  have hend := hn.2.1
  rw [h.endLine, hd.2.1] at hend
  simp [Json.natural?] at hend

end Vb

end CodeGraph

import CodeGraph.Proofs.Graph.Lookup
import CodeGraph.Proofs.Text.Encoding
import CodeGraph.Proofs.Text.Lines
import CodeGraph.Proofs.Vb.Headers

/-!
Nested blocks and what is found of them. A file is written from a list of blocks: types with blocks
inside them and routines with lines inside them, each between a line that opens it and a line that
closes it. The scan of these lines gives one node for every block, in the order of the first lines,
and one edge from every type to every routine directly inside it.
-/

namespace CodeGraph.Vb

/-! ### Blocks -/

inductive Block where
  | type (keyword : TypeKeyword) (name : String) (children : List Block)
  | routine (keyword : RoutineKeyword) (name : String) (body : List (List Char))

mutual

/-- The lines of a block. A routine of an interface is its first line only. -/
def Block.lines (inInterface : Bool) : Block → List (List Char)
  | .type keyword name children =>
      keyword.header name :: (linesOf keyword.isInterface children ++ [ending keyword.text])
  | .routine keyword name body =>
      keyword.header name :: if inInterface then [] else body ++ [ending keyword.text]

def linesOf (inInterface : Bool) : List Block → List (List Char)
  | [] => []
  | block :: rest => block.lines inInterface ++ linesOf inInterface rest

end

def fileOf (path : String) (blocks : List Block) : SourceFile :=
  ⟨path, Utf8.encode ((linesOf false blocks).flatMap fun line => line ++ ['\n'])⟩

/-- A line that may stand in a routine: any text without a line break that does not end the
routine. -/
structure IsBodyLine (line : List Char) : Prop where
  newline : '\n' ∉ line
  carriageReturn : line.getLast? ≠ some '\r'
  inside : endsRoutine line = false

inductive Block.WellFormed : Block → Prop where
  | type {keyword : TypeKeyword} {name : String} {children : List Block} (hname : IsName name)
      (hchildren : ∀ child ∈ children, child.WellFormed) :
      (Block.type keyword name children).WellFormed
  | routine {keyword : RoutineKeyword} {name : String} {body : List (List Char)}
      (hname : IsName name)
      (hword : Seq.contains "mustoverride".toList (Chars.lower name.toList) = false)
      (hbody : ∀ line ∈ body, IsBodyLine line) : (Block.routine keyword name body).WellFormed

/-! ### What is expected of blocks -/

/-- What a block is to give: a node with an ID, a label, a name and its lines, and an edge from the
owner of a routine. -/
structure Entry where
  id : String
  label : String
  name : String
  line : Nat
  endLine : Nat
  owner : Option String
  deriving DecidableEq, Repr

def inInterface (owner : Option OpenType) : Bool :=
  owner.any (·.isInterface)

/-- The ID of a type, in the type around it or in the file. -/
def typeIdIn (path : String) (owner : Option OpenType) (name : String) : String :=
  match owner with
  | some around => around.id ++ "." ++ name
  | none => path ++ ":" ++ name

def routineIdIn (path : String) (owner : Option OpenType) (name : String) : String :=
  match owner with
  | some around => around.id ++ ":" ++ name
  | none => path ++ ":" ++ name

mutual

/-- What a block gives whose first line is at `index`, the block itself first. -/
def Block.entries (path : String) (owner : Option OpenType) (index : Nat) : Block → List Entry
  | .type keyword name children =>
      let id := typeIdIn path owner name
      { id
        label := if keyword.isInterface then Label.interface else Label.class_
        name
        line := index + 1
        endLine := index + (Block.lines (inInterface owner) (.type keyword name children)).length
        owner := none } ::
        entriesOf path (some ⟨id, keyword.isInterface⟩) (index + 1) children
  | .routine keyword name body =>
      [{ id := routineIdIn path owner name
         label := if owner.isSome then Label.method else Label.function
         name
         line := index + 1
         endLine := index + (Block.lines (inInterface owner) (.routine keyword name body)).length
         owner := owner.map (·.id) }]

def entriesOf (path : String) (owner : Option OpenType) (index : Nat) : List Block → List Entry
  | [] => []
  | block :: rest =>
      block.entries path owner index ++
        entriesOf path owner (index + (block.lines (inInterface owner)).length) rest

end

structure Extent where
  id : String
  label : String
  name : Option String
  line : Option Nat
  endLine : Option Nat
  deriving DecidableEq, Repr

def Extent.of (n : Node) : Extent :=
  ⟨n.id, n.label, n.name?, n.line?, (n.get? Key.endLine).bind Json.natural?⟩

def Entry.extent (e : Entry) : Extent :=
  ⟨e.id, e.label, some e.name, some e.line, some e.endLine⟩

def Entry.method? (e : Entry) : Option Edge :=
  e.owner.map fun owner => ⟨owner, e.id, Relation.hasMethod⟩

theorem extent_set_endLine (n : Node) (line : Nat) :
    Extent.of (n.set Key.endLine (.int line)) = { Extent.of n with endLine := some line } := by
  have hname : (n.set Key.endLine (.int line)).name? = n.name? := Node.name?_set_of_ne (by decide)
  have hline : (n.set Key.endLine (.int line)).line? = n.line? := Node.line?_set_of_ne (by decide)
  simp only [Extent.of, hname, hline, Node.get?_set_self]
  rfl

theorem extent_set_complexity (n : Node) (value : Json) :
    Extent.of (n.set Key.complexity value) = Extent.of n := by
  have hname : (n.set Key.complexity value).name? = n.name? := Node.name?_set_of_ne (by decide)
  have hline : (n.set Key.complexity value).line? = n.line? := Node.line?_set_of_ne (by decide)
  have hend : (n.set Key.complexity value).get? Key.endLine = n.get? Key.endLine :=
    Node.get?_set_of_ne (by decide)
  simp only [Extent.of, hname, hline, hend]
  rfl

namespace Blocks

def extents (b : Blocks) : List Extent :=
  b.fragment.nodes.map Extent.of

theorem ids_eq (b : Blocks) : b.fragment.ids = b.extents.map Extent.id := by
  simp [Fragment.ids, extents, Function.comp_def, Extent.of]

/-- Closing a block changes what is known of its node and of no other one. -/
theorem extents_close (b : Blocks) (id : String) (line : Nat) :
    (b.close id line).extents =
      b.extents.map fun e => if e.id = id then { e with endLine := some line } else e := by
  simp only [extents, close, Fragment.setProperty, List.map_map]
  refine List.map_congr_left fun n _ => ?_
  by_cases hid : n.id = id
  · simp only [Function.comp_apply, hid, beq_self_eq_true, if_true, extent_set_endLine]
    rw [if_pos (by exact hid)]
  · simp only [Function.comp_apply, beq_eq_false_iff_ne.mpr hid, Bool.false_eq_true, if_false]
    rw [if_neg (by exact hid)]

/-- Closing the block of one node among others. -/
theorem extents_close_of_eq {b : Blocks} {id : String} {before after : List Extent} {e : Extent}
    (h : b.extents = before ++ e :: after) (hid : e.id = id) (hbefore : id ∉ before.map Extent.id)
    (hafter : id ∉ after.map Extent.id) (line : Nat) :
    (b.close id line).extents = before ++ { e with endLine := some line } :: after := by
  have hother (es : List Extent) (hes : id ∉ es.map Extent.id) :
      es.map (fun e => if e.id = id then { e with endLine := some line } else e) = es := by
    conv_rhs => rw [← List.map_id es]
    refine List.map_congr_left fun e he => if_neg ?_
    rintro rfl
    exact hes (List.mem_map_of_mem he)
  rw [extents_close, h, List.map_append, List.map_cons, hother before hbefore, hother after hafter,
    if_pos hid]

/-- The scan has added these entries and is otherwise where it was. -/
structure Grown (b b' : Blocks) (new : List Entry) : Prop where
  path : b'.path = b.path
  types : b'.types = b.types
  routine : b'.routine = none
  supertypes : b'.supertypes = b.supertypes
  extents : b'.extents = b.extents ++ new.map Entry.extent
  edges : b'.fragment.edges = b.fragment.edges ++ new.filterMap Entry.method?

/-- No routine is open, and these entries have IDs that are new. -/
structure Ready (b : Blocks) (new : List Entry) : Prop where
  routine : b.routine = none
  fresh : (b.fragment.ids ++ new.map Entry.id).Nodup
  targets : ∀ e ∈ b.fragment.edges, e.target ∈ b.fragment.ids

variable {b b' b'' : Blocks} {new new' : List Entry} {index : Nat}

theorem Grown.refl (h : b.routine = none) : Grown b b [] :=
  ⟨rfl, rfl, h, rfl, by simp, by simp⟩

theorem Grown.trans (h : Grown b b' new) (h' : Grown b' b'' new') : Grown b b'' (new ++ new') := by
  refine ⟨h'.path.trans h.path, h'.types.trans h.types, h'.routine,
    h'.supertypes.trans h.supertypes, ?_, ?_⟩
  · rw [h'.extents, h.extents, List.map_append, List.append_assoc]
  · rw [h'.edges, h.edges, List.filterMap_append, List.append_assoc]

theorem Grown.ids (h : Grown b b' new) : b'.fragment.ids = b.fragment.ids ++ new.map Entry.id := by
  rw [ids_eq, ids_eq, h.extents, List.map_append, List.map_map]
  rfl

theorem Ready.left (h : Ready b (new ++ new')) : Ready b new := by
  refine ⟨h.routine, ?_, h.targets⟩
  have hfresh := h.fresh
  rw [List.map_append, ← List.append_assoc] at hfresh
  exact (List.nodup_append.mp hfresh).1

theorem Ready.right (h : Ready b (new ++ new')) (hgrown : Grown b b' new) : Ready b' new' := by
  refine ⟨hgrown.routine, ?_, fun e he => ?_⟩
  · rw [hgrown.ids, List.append_assoc, ← List.map_append]
    exact h.fresh
  · rw [hgrown.edges] at he
    rw [hgrown.ids]
    rcases List.mem_append.mp he with he | he
    · exact List.mem_append_left _ (h.targets e he)
    · obtain ⟨entry, hentry, hmethod⟩ := List.mem_filterMap.mp he
      obtain ⟨owner, -, rfl⟩ := Option.map_eq_some_iff.mp hmethod
      exact List.mem_append_right _ (List.mem_map_of_mem hentry)

/-! ### Single blocks -/

theorem nodes_addNode_of_notMem {f : Fragment} {n : Node} (h : n.id ∉ f.ids) :
    (f.addNode n).nodes = f.nodes ++ [n] := by
  rw [Fragment.addNode, if_neg (by rwa [Fragment.contains_iff])]

/-- What the first line of a block tells. -/
theorem extent_introduced (id label name path : String) (line : Nat) {key : String}
    (hkey : key ∈ [Key.kind, Key.signature]) (value : Json) :
    Extent.of ((Node.definition id label name path line).set key value) =
      ⟨id, label, some name, some line, none⟩ := by
  have hother : ∀ key ∈ [Key.kind, Key.signature], key ≠ Key.name ∧ key ≠ Key.line ∧
      Key.endLine ≠ key := by decide
  obtain ⟨hname, hline, hend⟩ := hother key hkey
  simp only [Extent.of, Node.name?_set_of_ne hname, Node.name?_definition,
    Node.line?_set_of_ne hline, Node.line?_definition, Node.get?_set_of_ne hend]
  rfl

def typeEntry (b : Blocks) (index last : Nat) (keyword : TypeKeyword) (name : String) : Entry :=
  { id := typeIdIn b.path b.types.head? name
    label := if keyword.isInterface then Label.interface else Label.class_
    name
    line := index + 1
    endLine := last + 1
    owner := none }

/-- The first line of a type opens it. -/
theorem step_typeHeader {keyword : TypeKeyword} {name : String} (hname : IsName name)
    (h : b.routine = none) :
    b.step (keyword.header name) index = b.openType index keyword.text name := by
  rw [step_eq_act, reading_of_no_routine h, keyword.outside_header hname]
  rfl

/-- The last line of a type closes the type that is open. -/
theorem step_typeEnding (keyword : TypeKeyword) {t : OpenType} {around : List OpenType}
    (h : b.routine = none) (htypes : b.types = t :: around) :
    b.step (ending keyword.text) index = { b.close t.id (index + 1) with types := around } := by
  rw [step_eq_act, reading_of_no_routine h, keyword.outside_ending]
  simp only [act, closeType, htypes]

theorem extents_openType (index : Nat) (keyword : TypeKeyword) {name : String}
    (h : b.typeId name ∉ b.fragment.ids) :
    (b.openType index keyword.text name).extents = b.extents ++
      [⟨b.typeId name, if keyword.isInterface then Label.interface else Label.class_, some name,
        some (index + 1), none⟩] := by
  have hnodes : (b.openType index keyword.text name).fragment.nodes =
      b.fragment.nodes ++ [b.typeNode index keyword.text name] := nodes_addNode_of_notMem h
  rw [extents, hnodes, List.map_append, List.map_singleton, typeNode, keyword.isInterface_text,
    extent_introduced _ _ _ _ _ (by decide)]
  rfl

/-- A type with what is inside it. -/
theorem grown_type {keyword : TypeKeyword} {name : String} {last : Nat}
    (h : Ready b (b.typeEntry index last keyword name :: new))
    (hchildren : Ready (b.openType index keyword.text name) new →
      Grown (b.openType index keyword.text name) b' new) :
    Grown b (b'.step (ending keyword.text) last) (b.typeEntry index last keyword name :: new) := by
  obtain ⟨-, hnew, hdisjoint⟩ := List.nodup_append.mp h.fresh
  obtain ⟨hid, -⟩ := List.nodup_cons.mp hnew
  have hold : b.typeId name ∉ b.fragment.ids := fun hmem =>
    hdisjoint _ hmem _ List.mem_cons_self rfl
  have hextents := extents_openType index keyword hold
  have hids : (b.openType index keyword.text name).fragment.ids =
      b.fragment.ids ++ [b.typeId name] := by
    rw [ids_eq, hextents, ids_eq, List.map_append]
    rfl
  have hopened : Ready (b.openType index keyword.text name) new := by
    refine ⟨h.routine, ?_, fun e he => ?_⟩
    · rw [hids, List.append_assoc]
      exact h.fresh
    · rw [hids]
      rw [fragment_openType, Fragment.edges_addNode] at he
      exact List.mem_append_left _ (h.targets e he)
  have hgrown := hchildren hopened
  rw [step_typeEnding keyword hgrown.routine hgrown.types]
  refine ⟨hgrown.path, rfl, hgrown.routine, hgrown.supertypes, ?_, ?_⟩
  · have hsplit := hgrown.extents
    rw [hextents, List.append_assoc, List.singleton_append] at hsplit
    exact extents_close_of_eq hsplit rfl (by rwa [← ids_eq]) (by rwa [List.map_map]) (last + 1)
  · show b'.fragment.edges = _
    rw [hgrown.edges, fragment_openType, Fragment.edges_addNode]
    rfl

def routineEntry (b : Blocks) (index last : Nat) (name : String) : Entry :=
  { id := routineIdIn b.path b.types.head? name
    label := if b.types.head?.isSome then Label.method else Label.function
    name
    line := index + 1
    endLine := last + 1
    owner := b.types.head?.map (·.id) }

theorem extents_addRoutine {raw : List Char} {name : String}
    (h : b.routineId name ∉ b.fragment.ids) :
    (b.addRoutine index raw name).extents = b.extents ++
      [⟨b.routineId name, if b.types.head?.isSome then Label.method else Label.function, some name,
        some (index + 1), none⟩] := by
  have hnodes : (b.addRoutine index raw name).fragment.nodes =
      b.fragment.nodes ++ [b.routineNode index raw name] :=
    (b.nodes_addRoutine index raw name).trans (nodes_addNode_of_notMem h)
  rw [extents, hnodes, List.map_append, List.map_singleton, routineNode,
    extent_introduced _ _ _ _ _ (by decide)]
  cases b.types <;> rfl

/-- A routine with a new ID is a new target. -/
theorem edges_addRoutine {raw : List Char} {name : String} (h : b.routineId name ∉ b.fragment.ids)
    (htargets : ∀ e ∈ b.fragment.edges, e.target ∈ b.fragment.ids) :
    (b.addRoutine index raw name).fragment.edges = b.fragment.edges ++
      (b.types.head?.map fun t => ⟨t.id, b.routineId name, Relation.hasMethod⟩).toList := by
  unfold addRoutine
  dsimp only
  cases b.types.head? with
  | none => simp
  | some t =>
      have hnew : (⟨t.id, b.routineId name, Relation.hasMethod⟩ : Edge) ∉ b.fragment.edges :=
        fun he => h (htargets _ he)
      simp [Fragment.addEdge, hnew]

/-- A routine that has been opened and closed. -/
theorem grown_routine {raw : List Char} {name : String} {last : Nat}
    (h : Ready b [b.routineEntry index last name]) (hroutine : b'.routine = none)
    (hpath : b'.path = b.path) (htypes : b'.types = b.types)
    (hsupertypes : b'.supertypes = b.supertypes)
    (hfragment : b'.fragment =
      ((b.addRoutine index raw name).close (b.routineId name) (last + 1)).fragment) :
    Grown b b' [b.routineEntry index last name] := by
  have hold : b.routineId name ∉ b.fragment.ids := fun hmem =>
    (List.nodup_append.mp h.fresh).2.2 _ hmem _ List.mem_cons_self rfl
  refine ⟨hpath, htypes, hroutine, hsupertypes, ?_, ?_⟩
  · have hextents : b'.extents =
        ((b.addRoutine index raw name).close (b.routineId name) (last + 1)).extents := by
      rw [extents, hfragment, extents]
    rw [hextents, extents_close_of_eq (extents_addRoutine hold) rfl (by rwa [← ids_eq]) (by simp)]
    rfl
  · rw [hfragment]
    show (b.addRoutine index raw name).fragment.edges = _
    rw [edges_addRoutine hold h.targets]
    cases hhead : b.types.head? <;>
      simp [routineEntry, Entry.method?, hhead, routineId, routineIdIn, Ident.member]

/-- A routine is open until its end. -/
theorem readFrom_body {r : Body} (h : b.routine = some r) {body : List (List Char)}
    (hbody : ∀ line ∈ body, endsRoutine line = false) : b.readFrom index body = b := by
  induction body generalizing index with
  | nil => rfl
  | cons line body ih =>
      obtain ⟨hline, hbody⟩ := List.forall_mem_cons.mp hbody
      rw [readFrom, step_eq_act, reading_of_routine h, hline, if_neg Bool.false_ne_true]
      exact ih hbody

/-- The first line of a routine opens it, and closes it too in an interface. -/
theorem step_routineHeader {keyword : RoutineKeyword} {name : String} (hname : IsName name)
    (h : b.routine = none) :
    b.step (keyword.header name) index =
      b.openRoutine index (keyword.header name) (keyword.header name) name := by
  rw [step_eq_act, reading_of_no_routine h, keyword.outside_header hname, act,
    keyword.strip_header hname]

theorem startsBody_header (b : Blocks) (keyword : RoutineKeyword) {name : String}
    (hword : Seq.contains "mustoverride".toList (Chars.lower name.toList) = false) :
    b.startsBody (keyword.header name) = !inInterface b.types.head? := by
  rw [startsBody, keyword.not_mustoverride_header hword, inInterface, Bool.not_false, Bool.and_true]

end Blocks

open Blocks

/-- A routine with its lines. -/
theorem Block.grown_routine {keyword : RoutineKeyword} {name : String} {body : List (List Char)}
    (hname : IsName name)
    (hword : Seq.contains "mustoverride".toList (Chars.lower name.toList) = false)
    (hbody : ∀ line ∈ body, IsBodyLine line) {b : Blocks} {index : Nat}
    (h : b.Ready ((Block.routine keyword name body).entries b.path b.types.head? index)) :
    b.Grown
      (b.readFrom index ((Block.routine keyword name body).lines (inInterface b.types.head?)))
      ((Block.routine keyword name body).entries b.path b.types.head? index) := by
  have hstarts := startsBody_header b keyword hword
  cases hin : inInterface b.types.head? with
  | true =>
      have hentries : (Block.routine keyword name body).entries b.path b.types.head? index =
          [b.routineEntry index index name] := by
        simp [Block.entries, Block.lines, hin, routineEntry]
      rw [hentries] at h ⊢
      rw [hin, Bool.not_true] at hstarts
      simp only [Block.lines, if_true, readFrom, step_routineHeader hname h.routine, openRoutine,
        hstarts, Bool.false_eq_true, if_false]
      exact Blocks.grown_routine h (by simp [h.routine]) (by simp) (by simp) (by simp) rfl
  | false =>
      have hentries : (Block.routine keyword name body).entries b.path b.types.head? index =
          [b.routineEntry index (index + 1 + body.length) name] := by
        simp [Block.entries, Block.lines, hin, routineEntry]
        omega
      rw [hentries] at h ⊢
      rw [hin, Bool.not_false] at hstarts
      have hinside : ∀ line ∈ body, endsRoutine line = false := fun line hline =>
        (hbody line hline).inside
      let opened : Blocks :=
        { b.addRoutine index (keyword.header name) name with
          routine := some (b.opened index name) }
      have hopened : b.step (keyword.header name) index = opened := by
        simp only [step_routineHeader hname h.routine, openRoutine, hstarts, if_true]
        rfl
      have hread : b.readFrom index ((Block.routine keyword name body).lines false) =
          opened.endRoutine (index + 1 + body.length) (index + 1 + body.length + 1) := by
        simp only [Block.lines, Bool.false_eq_true, if_false, readFrom, hopened, readFrom_append,
          readFrom_body (b := opened) rfl hinside]
        rw [step_eq_act, reading_of_routine (b := opened) rfl, keyword.endsRoutine_ending,
          if_pos rfl]
        rfl
      rw [hread]
      exact Blocks.grown_routine h rfl (b.path_addRoutine ..) (b.types_addRoutine ..)
        (b.supertypes_addRoutine ..) rfl

mutual

/-- The lines of a block add what is expected of the block. -/
theorem Block.grown (block : Block) (hblock : block.WellFormed) {b : Blocks} {index : Nat}
    (h : b.Ready (block.entries b.path b.types.head? index)) :
    b.Grown (b.readFrom index (block.lines (inInterface b.types.head?)))
      (block.entries b.path b.types.head? index) := by
  cases block with
  | type keyword name children =>
      cases hblock with
      | type hname hchildren =>
          let last := index + 1 + (linesOf keyword.isInterface children).length
          have hentries : (Block.type keyword name children).entries b.path b.types.head? index =
              b.typeEntry index last keyword name :: entriesOf b.path
                (some ⟨b.typeId name, keyword.isInterface⟩) (index + 1) children := by
            have hlast : index + ((Block.type keyword name children).lines
                (inInterface b.types.head?)).length = last + 1 := by
              simp only [Block.lines, List.length_cons, List.length_append, List.length_nil, last]
              omega
            rw [Block.entries, hlast]
            rfl
          rw [hentries] at h ⊢
          have hread : b.readFrom index ((Block.type keyword name children).lines
              (inInterface b.types.head?)) =
              ((b.openType index keyword.text name).readFrom (index + 1)
                (linesOf keyword.isInterface children)).step (ending keyword.text) last := by
            simp only [Block.lines, readFrom, readFrom_append, step_typeHeader hname h.routine,
              last]
          rw [hread]
          refine grown_type h fun hready => ?_
          have hhead : (b.openType index keyword.text name).types.head? =
              some ⟨b.typeId name, keyword.isInterface⟩ := by
            rw [types_openType, keyword.isInterface_text, List.head?_cons]
          rw [← hhead] at hready
          have hchildren := grown_all children hchildren hready
          rwa [hhead] at hchildren
  | routine keyword name body =>
      cases hblock with
      | routine hname hword hbody => exact Block.grown_routine hname hword hbody h

/-- The lines of some blocks add what is expected of the blocks. -/
theorem grown_all (blocks : List Block) (hblocks : ∀ block ∈ blocks, block.WellFormed) {b : Blocks}
    {index : Nat} (h : b.Ready (entriesOf b.path b.types.head? index blocks)) :
    b.Grown (b.readFrom index (linesOf (inInterface b.types.head?) blocks))
      (entriesOf b.path b.types.head? index blocks) := by
  cases blocks with
  | nil => exact Grown.refl h.routine
  | cons block rest =>
      obtain ⟨hblock, hrest⟩ := List.forall_mem_cons.mp hblocks
      rw [entriesOf] at h ⊢
      rw [linesOf, readFrom_append]
      have hfirst := block.grown hblock h.left
      have hready := h.right hfirst
      generalize b.readFrom index (block.lines (inInterface b.types.head?)) = b' at hfirst hready ⊢
      rw [← hfirst.path, ← hfirst.types] at hready
      have hlater := grown_all rest hrest hready
      rw [hfirst.path, hfirst.types] at hlater
      exact hfirst.trans hlater

end

/-! ### Whole files -/

/-- A line that is read back as it is written. -/
def IsLine (line : List Char) : Prop :=
  '\n' ∉ line ∧ line.getLast? ≠ some '\r'

theorem isLine_of_notMem {line : List Char} (hnewline : '\n' ∉ line) (hreturn : '\r' ∉ line) :
    IsLine line :=
  ⟨hnewline, fun h => hreturn (List.mem_of_getLast? h)⟩

theorem TypeKeyword.isLine_ending (keyword : TypeKeyword) : IsLine (ending keyword.text) :=
  isLine_of_notMem (by cases keyword <;> decide) (by cases keyword <;> decide)

theorem RoutineKeyword.isLine_ending (keyword : RoutineKeyword) : IsLine (ending keyword.text) :=
  isLine_of_notMem (by cases keyword <;> decide) (by cases keyword <;> decide)

theorem isLine_heading {text name : String} {tail : List Char}
    (htext : ∀ c ∈ text.toList, isNameChar c = true) (hname : IsName name)
    (htail : ∀ c ∈ tail, c ≠ '\n' ∧ c ≠ '\r') : IsLine (heading text name tail) :=
  isLine_of_notMem
    (notMem_heading htext hname (by decide) (by decide) fun h => (htail _ h).1 rfl)
    (notMem_heading htext hname (by decide) (by decide) fun h => (htail _ h).2 rfl)

mutual

theorem Block.isLine_of_mem (block : Block) (hblock : block.WellFormed) (inInterface : Bool) :
    ∀ line ∈ block.lines inInterface, IsLine line := by
  intro line hline
  cases hblock with
  | @type keyword name children hname hchildren =>
      rcases List.mem_cons.mp hline with rfl | hline
      · exact isLine_heading keyword.isNameChar_text hname (by simp)
      · rcases List.mem_append.mp hline with hline | hline
        · exact isLine_of_mem children hchildren _ line hline
        · obtain rfl := List.mem_singleton.mp hline
          exact keyword.isLine_ending
  | @routine keyword name body hname hword hbody =>
      rcases List.mem_cons.mp hline with rfl | hline
      · exact isLine_heading keyword.isNameChar_text hname (by simp)
      · split at hline
        · cases hline
        · rcases List.mem_append.mp hline with hline | hline
          · exact ⟨(hbody line hline).newline, (hbody line hline).carriageReturn⟩
          · obtain rfl := List.mem_singleton.mp hline
            exact keyword.isLine_ending

theorem isLine_of_mem (blocks : List Block) (hblocks : ∀ block ∈ blocks, block.WellFormed)
    (inInterface : Bool) : ∀ line ∈ linesOf inInterface blocks, IsLine line := by
  cases blocks with
  | nil => simp [linesOf]
  | cons block rest =>
      obtain ⟨hblock, hrest⟩ := List.forall_mem_cons.mp hblocks
      intro line hline
      rcases List.mem_append.mp hline with hline | hline
      · exact block.isLine_of_mem hblock inInterface line hline
      · exact isLine_of_mem rest hrest inInterface line hline

end

/-- Lines are read back from the text that they make. -/
theorem lines_flatMap {ls : List (List Char)} (h : ∀ line ∈ ls, IsLine line) :
    Chars.lines (ls.flatMap fun line => line ++ ['\n']) = ls := by
  have hsplit : Seq.splitOn (· == '\n') (ls.flatMap fun line => line ++ ['\n']) = ls ++ [[]] :=
    Seq.splitOn_flatMap (· == '\n') (beq_self_eq_true '\n') fun line hline c hc =>
      beq_eq_false_iff_ne.mpr fun heq => (h line hline).1 (heq ▸ hc)
  have hreturn : ls.map Chars.dropReturn = ls := by
    conv_rhs => rw [← List.map_id ls]
    exact List.map_congr_left fun line hline => Chars.dropReturn_eq_self (h line hline).2
  rw [Chars.lines_eq hsplit, hreturn, if_pos rfl, List.append_nil]

theorem lines_fileOf {blocks : List Block} (hblocks : ∀ block ∈ blocks, block.WellFormed)
    (path : String) :
    Chars.lines (Utf8.lossy (fileOf path blocks).bytes) = linesOf false blocks := by
  rw [fileOf, Utf8.lossy_encode, lines_flatMap (isLine_of_mem blocks hblocks false)]

/-- Measuring routines and linking their calls does not change what is told of blocks. -/
theorem extents_foldl_linkCalls (lines : List (List Char)) (bodies : List Body) (b : Blocks) :
    (bodies.foldl (linkCalls lines) b).extents = b.extents := by
  refine List.foldlRecOn (motive := fun c : Blocks => c.extents = b.extents) _ _ rfl
    fun c hc r _ => ?_
  rw [← hc]
  simp only [extents, linkCalls, Fragment.setProperty, Fragment.addEdges_eq_addAll,
    Fragment.nodes_addAll, List.map_map]
  refine List.map_congr_left fun n _ => ?_
  simp only [Function.comp_apply]
  split
  · exact extent_set_complexity ..
  · rfl

theorem methods_foldl_linkCalls (lines : List (List Char)) (bodies : List Body) (b : Blocks) :
    (bodies.foldl (linkCalls lines) b).fragment.edgesOf Relation.hasMethod =
      b.fragment.edgesOf Relation.hasMethod := by
  refine List.foldlRecOn (motive := fun c : Blocks => c.fragment.edgesOf Relation.hasMethod =
    b.fragment.edgesOf Relation.hasMethod) _ _ rfl fun c hc r _ => ?_
  have hcalls (targets : List String) :
      (c.fragment.addEdges r.id targets Relation.calls).edgesOf Relation.hasMethod =
        c.fragment.edgesOf Relation.hasMethod := by
    rw [Fragment.addEdges_eq_addAll]
    refine Fragment.edgesOf_addAll_of_ne _ fun e he => ?_
    obtain ⟨target, -, rfl⟩ := List.mem_map.mp he
    show Relation.calls ≠ Relation.hasMethod
    decide
  exact (hcalls _).trans hc

/-- The nodes of a file that is written from blocks are those of its blocks in the order of their
first lines, and its edges to methods are those from the types to their routines. -/
theorem nodes_of_blocks (path : String) {blocks : List Block}
    (hblocks : ∀ block ∈ blocks, block.WellFormed)
    (hids : ((entriesOf path none 0 blocks).map Entry.id).Nodup) :
    (analyze (fileOf path blocks)).nodes.map Extent.of =
        (entriesOf path none 0 blocks).map Entry.extent ∧
      (analyze (fileOf path blocks)).edgesOf Relation.hasMethod =
        (entriesOf path none 0 blocks).filterMap Entry.method? := by
  have hready : Ready { path } (entriesOf path none 0 blocks) :=
    ⟨rfl, by simpa [Fragment.ids] using hids, by simp⟩
  have hgrown : Grown { path } (readFrom { path } 0 (linesOf false blocks))
      (entriesOf path none 0 blocks) := grown_all blocks hblocks hready
  -- Nothing is open behind the last line, and no supertypes are named.
  have hscanned : ofLines path (linesOf false blocks) =
      readFrom { path } 0 (linesOf false blocks) := by
    simp only [ofLines_eq, scanned, finish_eq, endRoutine, hgrown.routine, hgrown.types,
      hgrown.supertypes, List.foldl_nil]
  have hanalyze : analyze (fileOf path blocks) = fragmentOf path (linesOf false blocks) := by
    rw [analyze, lines_fileOf hblocks]
    rfl
  rw [hanalyze, fragmentOf, hscanned]
  generalize readFrom { path } 0 (linesOf false blocks) = b at hgrown ⊢
  constructor
  · show (b.bodies.foldl (linkCalls _) b).extents = _
    rw [extents_foldl_linkCalls, hgrown.extents]
    rfl
  · have hmethods : b.fragment.edges = (entriesOf path none 0 blocks).filterMap Entry.method? :=
      hgrown.edges
    rw [methods_foldl_linkCalls, Fragment.edgesOf, hmethods, List.filter_eq_self]
    intro e he
    obtain ⟨entry, -, hmethod⟩ := List.mem_filterMap.mp he
    obtain ⟨owner, -, rfl⟩ := Option.map_eq_some_iff.mp hmethod
    exact beq_self_eq_true Relation.hasMethod

/-- A class with an interface and a routine in it, and a free routine behind it. The lines of the
routine look like the end of the class and the beginning of another routine. -/
def nestedBlocks : List Block :=
  [.type .class_ "Outer"
    [.type .interface "Inner" [.routine .function "Size" []],
      .routine .sub "Run" ["End Class".toList, "Sub Other()".toList]],
    .routine .function "Main" []]

theorem nestedBlocks_nodes :
    (analyze (fileOf "a.vb" nestedBlocks)).nodes.map Extent.of =
        [⟨"a.vb:Outer", Label.class_, some "Outer", some 1, some 9⟩,
          ⟨"a.vb:Outer.Inner", Label.interface, some "Inner", some 2, some 4⟩,
          ⟨"a.vb:Outer.Inner:Size", Label.method, some "Size", some 3, some 3⟩,
          ⟨"a.vb:Outer:Run", Label.method, some "Run", some 5, some 8⟩,
          ⟨"a.vb:Main", Label.function, some "Main", some 10, some 11⟩] ∧
      (analyze (fileOf "a.vb" nestedBlocks)).edgesOf Relation.hasMethod =
        [⟨"a.vb:Outer.Inner", "a.vb:Outer.Inner:Size", Relation.hasMethod⟩,
          ⟨"a.vb:Outer", "a.vb:Outer:Run", Relation.hasMethod⟩] := by
  have hsize : (Block.routine .function "Size" []).WellFormed :=
    .routine (by decide +kernel) (by decide +kernel) (by simp)
  have hmain : (Block.routine .function "Main" []).WellFormed :=
    .routine (by decide +kernel) (by decide +kernel) (by simp)
  have hrun : (Block.routine .sub "Run" ["End Class".toList, "Sub Other()".toList]).WellFormed := by
    refine .routine (by decide +kernel) (by decide +kernel) fun line hline => ?_
    have hcases : line = "End Class".toList ∨ line = "Sub Other()".toList := by simpa using hline
    rcases hcases with rfl | rfl <;> exact ⟨by decide, by decide, by decide +kernel⟩
  have hinner : (Block.type .interface "Inner" [.routine .function "Size" []]).WellFormed :=
    .type (by decide +kernel) (List.forall_mem_singleton.mpr hsize)
  have hblocks : ∀ block ∈ nestedBlocks, block.WellFormed := by
    refine List.forall_mem_cons.mpr ⟨.type (by decide +kernel) ?_, ?_⟩
    · exact List.forall_mem_cons.mpr ⟨hinner, List.forall_mem_singleton.mpr hrun⟩
    · exact List.forall_mem_singleton.mpr hmain
  exact nodes_of_blocks "a.vb" hblocks (by decide)

end CodeGraph.Vb

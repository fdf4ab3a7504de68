import CodeGraph.Proofs.Graph.Fragments
import CodeGraph.Vb.Calls

/-!
The scan of a Visual Basic file, one line at a time. What a line is taken for depends only on its
shape and on whether a routine is open, and each of the six readings has one effect on the state.
The lemmas below say which fields an effect leaves alone, so that an invariant of the scan is
proved by one look at each reading.
-/

namespace CodeGraph.Vb

/-! ### Readings of a line -/

inductive Reading where
  | plain
  | typeStart (keyword name : String)
  | typeEnd
  | supertypes (keyword list : String)
  | routineStart (name : String)
  | routineEnd
  deriving DecidableEq, Repr

/-- A line outside routines has the first of these shapes that fits. -/
def Reading.outside (line : List Char) : Reading :=
  match shapeOf? Vb.typeStart line with
  | some m =>
      match m.group? 1, m.group? 2 with
      | some keyword, some name => .typeStart keyword.string name.string
      | _, _ => .plain
  | none =>
      if hasShape Vb.typeEnd line then .typeEnd
      else
        match shapeOf? supertypeLine line with
        | some m =>
            match m.group? 1, m.group? 2 with
            | some keyword, some list => .supertypes keyword.string list.string
            | _, _ => .plain
        | none =>
            match (shapeOf? Vb.routineStart line).bind (·.group? 2) with
            | some name => .routineStart name.string
            | none => .plain

def endsRoutine (raw : List Char) : Bool :=
  hasShape Vb.routineEnd (strip raw)

namespace Blocks

/-- What a line is taken for in this state. -/
def reading (b : Blocks) (raw : List Char) : Reading :=
  if b.routine.isSome then if endsRoutine raw then .routineEnd else .plain
  else .outside (strip raw)

/-- Closes the open routine in front of or on the line at `stop`. -/
def endRoutine (b : Blocks) (stop line : Nat) : Blocks :=
  match b.routine with
  | none => b
  | some r =>
      { b.close r.id line with
        routine := none
        bodies := b.bodies ++ [{ r with stop }] }

def act (b : Blocks) (index : Nat) (raw : List Char) : Reading → Blocks
  | .plain => b
  | .typeStart keyword name => b.openType index keyword name
  | .typeEnd => b.closeType index
  | .supertypes keyword list => b.addSupertypes keyword list
  | .routineStart name => b.openRoutine index raw (strip raw) name
  | .routineEnd => b.endRoutine index (index + 1)

theorem bodyLine_eq_act {b : Blocks} {r : Body} (h : b.routine = some r) (index : Nat)
    (raw : List Char) :
    b.bodyLine index (strip raw) r =
      b.act index raw (if endsRoutine raw then .routineEnd else .plain) := by
  rw [bodyLine, endsRoutine]
  split
  · simp only [act, endRoutine, h]
  · rfl

theorem outerLine_eq_act (b : Blocks) (index : Nat) (raw : List Char) :
    b.outerLine index raw (strip raw) = b.act index raw (.outside (strip raw)) := by
  rw [outerLine, Reading.outside]
  cases shapeOf? Vb.typeStart (strip raw) with
  | some m =>
      dsimp only
      cases m.group? 1 <;> cases m.group? 2 <;> rfl
  | none =>
      cases hasShape Vb.typeEnd (strip raw) with
      | true => rfl
      | false =>
          cases shapeOf? supertypeLine (strip raw) with
          | some m =>
              simp only [Bool.false_eq_true, if_false]
              cases m.group? 1 <;> cases m.group? 2 <;> rfl
          | none => cases (shapeOf? Vb.routineStart (strip raw)).bind (·.group? 2) <;> rfl

theorem reading_of_routine {b : Blocks} {r : Body} (h : b.routine = some r) (raw : List Char) :
    b.reading raw = if endsRoutine raw then .routineEnd else .plain := by
  simp [reading, h]

theorem reading_of_no_routine {b : Blocks} (h : b.routine = none) (raw : List Char) :
    b.reading raw = .outside (strip raw) := by
  simp [reading, h]

theorem step_eq_act (b : Blocks) (raw : List Char) (index : Nat) :
    b.step raw index = b.act index raw (b.reading raw) := by
  cases h : b.routine with
  | none =>
      rw [reading_of_no_routine h, ← outerLine_eq_act]
      simp only [step, h]
  | some r =>
      rw [reading_of_routine h, ← bodyLine_eq_act h]
      simp only [step, h]

theorem outside_ne_routineEnd (line : List Char) : Reading.outside line ≠ .routineEnd := by
  unfold Reading.outside
  split
  · split <;> simp
  · split
    · simp
    · split
      · split <;> simp
      · split <;> simp

/-- While a routine is open, nothing but its end is read. -/
theorem routine_eq_none {b : Blocks} {raw : List Char} {reading : Reading}
    (h : b.reading raw = reading) (hplain : reading ≠ .plain) (hend : reading ≠ .routineEnd) :
    b.routine = none := by
  cases hr : b.routine with
  | none => rfl
  | some r =>
      rw [reading_of_routine hr] at h
      split at h
      · exact absurd h.symm hend
      · exact absurd h.symm hplain

theorem exists_routine {b : Blocks} {raw : List Char} (h : b.reading raw = .routineEnd) :
    ∃ r, b.routine = some r := by
  cases hr : b.routine with
  | none =>
      rw [reading_of_no_routine hr] at h
      exact absurd h (outside_ne_routineEnd _)
  | some r => exact ⟨r, rfl⟩

/-! ### Nodes that a line introduces -/

/-- A type belongs to the innermost open type, or else to the file. -/
def typeId (b : Blocks) (name : String) : String :=
  match b.types.head? with
  | some outer => outer.id ++ "." ++ name
  | none => Ident.inFile b.path name

def isInterface (keyword : String) : Bool :=
  Text.sameIgnoringCase keyword "interface"

def typeNode (b : Blocks) (index : Nat) (keyword name : String) : Node :=
  (Node.definition (b.typeId name) (if isInterface keyword then Label.interface else Label.class_)
    name b.path (index + 1)).set Key.kind (.str (Text.lower keyword))

def routineNode (b : Blocks) (index : Nat) (raw : List Char) (name : String) : Node :=
  (Node.definition (b.routineId name)
    (if b.types.isEmpty then Label.function else Label.method) name b.path (index + 1)).set
      Key.signature (.str (String.ofList (Chars.trim raw)))

section

variable (b : Blocks) (index : Nat)

@[simp] theorem id_typeNode (keyword name : String) :
    (b.typeNode index keyword name).id = b.typeId name := rfl

@[simp] theorem id_routineNode (raw : List Char) (name : String) :
    (b.routineNode index raw name).id = b.routineId name := rfl

@[simp] theorem types_openType (keyword name : String) :
    (b.openType index keyword name).types = ⟨b.typeId name, isInterface keyword⟩ :: b.types := rfl

@[simp] theorem fragment_openType (keyword name : String) :
    (b.openType index keyword name).fragment =
      b.fragment.addNode (b.typeNode index keyword name) := rfl

theorem nodes_addRoutine (raw : List Char) (name : String) :
    (b.addRoutine index raw name).fragment.nodes =
      (b.fragment.addNode (b.routineNode index raw name)).nodes := by
  unfold addRoutine
  dsimp only
  split
  · exact Fragment.nodes_addEdge ..
  · rfl

/-- A routine that has no body is closed on its own line. -/
theorem fragment_openRoutine (raw line : List Char) (name : String) :
    (b.openRoutine index raw line name).fragment =
      if b.startsBody line then (b.addRoutine index raw name).fragment
      else (b.addRoutine index raw name).fragment.setProperty (b.routineId name) Key.endLine
        (.int (index + 1 : Nat)) := by
  unfold openRoutine
  dsimp only
  split <;> rfl

end

/-! ### Fields that an effect leaves alone -/

section

variable (b : Blocks) (index : Nat)

@[simp] theorem types_close (id : String) (line : Nat) : (b.close id line).types = b.types := rfl

@[simp] theorem routine_close (id : String) (line : Nat) :
    (b.close id line).routine = b.routine := rfl

@[simp] theorem bodies_close (id : String) (line : Nat) :
    (b.close id line).bodies = b.bodies := rfl

@[simp] theorem path_close (id : String) (line : Nat) : (b.close id line).path = b.path := rfl

@[simp] theorem supertypes_close (id : String) (line : Nat) :
    (b.close id line).supertypes = b.supertypes := rfl

@[simp] theorem routine_openType (keyword name : String) :
    (b.openType index keyword name).routine = b.routine := rfl

@[simp] theorem bodies_openType (keyword name : String) :
    (b.openType index keyword name).bodies = b.bodies := rfl

@[simp] theorem routine_closeType : (b.closeType index).routine = b.routine := by
  unfold closeType
  split <;> rfl

@[simp] theorem bodies_closeType : (b.closeType index).bodies = b.bodies := by
  unfold closeType
  split <;> rfl

@[simp] theorem types_closeType : (b.closeType index).types = b.types.tail := by
  unfold closeType
  split <;> simp [*]

@[simp] theorem fragment_addSupertypes (keyword list : String) :
    (b.addSupertypes keyword list).fragment = b.fragment := by
  unfold addSupertypes
  split <;> rfl

@[simp] theorem types_addSupertypes (keyword list : String) :
    (b.addSupertypes keyword list).types = b.types := by
  unfold addSupertypes
  split <;> rfl

@[simp] theorem routine_addSupertypes (keyword list : String) :
    (b.addSupertypes keyword list).routine = b.routine := by
  unfold addSupertypes
  split <;> rfl

@[simp] theorem bodies_addSupertypes (keyword list : String) :
    (b.addSupertypes keyword list).bodies = b.bodies := by
  unfold addSupertypes
  split <;> rfl

variable (raw line : List Char) (name : String)

@[simp] theorem types_addRoutine : (b.addRoutine index raw name).types = b.types := by
  unfold addRoutine
  dsimp only
  split <;> rfl

@[simp] theorem routine_addRoutine : (b.addRoutine index raw name).routine = b.routine := by
  unfold addRoutine
  dsimp only
  split <;> rfl

@[simp] theorem bodies_addRoutine : (b.addRoutine index raw name).bodies = b.bodies := by
  unfold addRoutine
  dsimp only
  split <;> rfl

@[simp] theorem supertypes_addRoutine :
    (b.addRoutine index raw name).supertypes = b.supertypes := by
  unfold addRoutine
  dsimp only
  split <;> rfl

@[simp] theorem path_addRoutine : (b.addRoutine index raw name).path = b.path := by
  unfold addRoutine
  dsimp only
  split <;> rfl

@[simp] theorem types_openRoutine : (b.openRoutine index raw line name).types = b.types := by
  unfold openRoutine
  dsimp only
  split <;> simp

@[simp] theorem bodies_openRoutine : (b.openRoutine index raw line name).bodies = b.bodies := by
  unfold openRoutine
  dsimp only
  split <;> simp

/-- The body that opens with a routine, as long as its end is not known. -/
def opened : Body :=
  ⟨b.routineId name, b.types.head?.map (·.id), index, index⟩

@[simp] theorem routine_openRoutine : (b.openRoutine index raw line name).routine =
    if b.startsBody line then some (b.opened index name) else b.routine := by
  unfold openRoutine
  dsimp only
  split
  · rfl
  · simp

end

/-! ### All lines -/

def readFrom (b : Blocks) (index : Nat) : List (List Char) → Blocks
  | [] => b
  | raw :: rest => (b.step raw index).readFrom (index + 1) rest

theorem readFrom_eq_foldl (b : Blocks) (index : Nat) (lines : List (List Char)) :
    b.readFrom index lines =
      (lines.zipIdx index).foldl (fun (b : Blocks) x => b.step x.1 x.2) b := by
  induction lines generalizing b index with
  | nil => rfl
  | cons raw rest ih =>
      rw [List.zipIdx_cons, List.foldl_cons]
      exact ih _ _

theorem readFrom_append (b : Blocks) (index : Nat) (lines rest : List (List Char)) :
    b.readFrom index (lines ++ rest) =
      (b.readFrom index lines).readFrom (index + lines.length) rest := by
  induction lines generalizing b index with
  | nil => rfl
  | cons raw lines ih =>
      rw [List.length_cons, Nat.add_comm lines.length, ← Nat.add_assoc]
      exact ih _ _

/-- What one line keeps is kept by all lines. -/
theorem readFrom_induction {I : Nat → Blocks → Prop} {b : Blocks} {index : Nat}
    (hstep : ∀ b index raw, I index b → I (index + 1) (b.act index raw (b.reading raw)))
    (h : I index b) (lines : List (List Char)) :
    I (index + lines.length) (b.readFrom index lines) := by
  induction lines generalizing b index with
  | nil => exact h
  | cons raw rest ih =>
      rw [List.length_cons, Nat.add_comm rest.length, ← Nat.add_assoc, readFrom, step_eq_act]
      exact ih (hstep b index raw h)

/-- The state after all lines, with what was open closed. -/
def scanned (path : String) (lines : List (List Char)) : Blocks :=
  (readFrom { path } 0 lines).finish lines.length

theorem ofLines_eq (path : String) (lines : List (List Char)) :
    ofLines path lines =
      (scanned path lines).supertypes.foldl linkSupertype (scanned path lines) := by
  rw [scanned, readFrom_eq_foldl]
  rfl

theorem finish_eq (b : Blocks) (count : Nat) :
    b.finish count =
      b.types.foldl (fun b t => b.close t.id count) (b.endRoutine count count) := by
  unfold finish endRoutine
  cases b.routine <;> rfl

@[simp] theorem bodies_finish (b : Blocks) (count : Nat) :
    (b.finish count).bodies = (b.endRoutine count count).bodies := by
  rw [finish_eq]
  exact List.foldlRecOn
    (motive := fun c : Blocks => c.bodies = (b.endRoutine count count).bodies) _ _ rfl
    fun _ h _ _ => h

@[simp] theorem edges_finish (b : Blocks) (count : Nat) :
    (b.finish count).fragment.edges = b.fragment.edges := by
  rw [finish_eq]
  refine List.foldlRecOn (motive := fun c : Blocks => c.fragment.edges = b.fragment.edges) _ _ ?_
    fun _ h _ _ => h
  unfold endRoutine
  split <;> rfl

end Blocks

end CodeGraph.Vb

import CodeGraph.Proofs.Vb.Intervals

/-!
Where declarations begin and end. Every declaration of a file has a first line, a last line and
perhaps a body of its own, whatever its ID is. An open block has a longer ID than the blocks around
it, so at most one open block has a given ID, and the lines on which blocks with that ID are closed
are the last lines of its declarations, in the same order.
-/

namespace CodeGraph.Vb

/-! ### Declarations -/

/-- A declaration: the node that its first line introduces, the number of its last line, and its
body if it has one. -/
structure Declared where
  node : Node
  endLine : Nat
  body : Option Body

namespace Blocks

/-- The last line of a block that is open: the first line behind which it is not open any more, or
the last line of the file. -/
def lastLine (isOpen : Blocks → Bool) (b : Blocks) (index : Nat) : List (List Char) → Nat
  | [] => index
  | raw :: rest =>
      if isOpen (b.step raw index) then lastLine isOpen (b.step raw index) (index + 1) rest
      else index + 1

def deeperThan (depth : Nat) (b : Blocks) : Bool :=
  depth < b.types.length

def inRoutine (b : Blocks) : Bool :=
  b.routine.isSome

/-- What a line declares, where `rest` are the lines behind it. -/
def declared? (b : Blocks) (index : Nat) (raw : List Char) (rest : List (List Char)) :
    Option Declared :=
  match b.reading raw with
  | .typeStart keyword name =>
      some ⟨b.typeNode index keyword name,
        lastLine (deeperThan b.types.length) (b.step raw index) (index + 1) rest, none⟩
  | .routineStart name =>
      if b.startsBody (strip raw) then
        some ⟨b.routineNode index raw name,
          lastLine inRoutine (b.step raw index) (index + 1) rest,
          some { b.opened index name with stop := index + 1 + rest.findIdx endsRoutine }⟩
      else some ⟨b.routineNode index raw name, index + 1, none⟩
  | .plain | .typeEnd | .supertypes _ _ | .routineEnd => none

def declarationsFrom (b : Blocks) (index : Nat) : List (List Char) → List Declared
  | [] => []
  | raw :: rest =>
      (b.declared? index raw rest).toList ++ (b.step raw index).declarationsFrom (index + 1) rest

/-- The ID whose block a line closes. -/
def closes? (b : Blocks) (raw : List Char) : Option String :=
  match b.reading raw with
  | .typeEnd => b.types.head?.map (·.id)
  | .routineEnd => b.routine.map (·.id)
  | .routineStart name => if b.startsBody (strip raw) then none else some (b.routineId name)
  | .plain | .typeStart _ _ | .supertypes _ _ => none

/-! ### Open blocks -/

def openIds (b : Blocks) : List String :=
  b.routine.toList.map (·.id) ++ b.types.map (·.id)

/-- An open block has a longer ID than the blocks around it, and each has its node. -/
structure Stacked (b : Blocks) : Prop where
  types : b.types.Pairwise fun t around => around.id.length < t.id.length
  routine : ∀ r ∈ b.routine, ∀ t ∈ b.types, t.id.length < r.id.length
  known : ∀ id ∈ b.openIds, id ∈ b.fragment.ids

variable {b : Blocks} {index : Nat} {id : String}

/-- What extends the ID of the innermost open type is longer than that of every open type. -/
theorem Stacked.length_lt (h : b.Stacked) {new : String}
    (hnew : ∀ t ∈ b.types.head?, t.id.length < new.length) {t : OpenType} (ht : t ∈ b.types) :
    t.id.length < new.length := by
  have htypes := h.types
  cases hb : b.types with
  | nil => simp [hb] at ht
  | cons inner around =>
      rw [hb] at ht hnew htypes
      have hinner := hnew inner rfl
      rcases List.mem_cons.mp ht with rfl | ht
      · exact hinner
      · exact Nat.lt_trans ((List.pairwise_cons.mp htypes).1 t ht) hinner

theorem Stacked.length_lt_typeId (h : b.Stacked) (name : String) {t : OpenType}
    (ht : t ∈ b.types) : t.id.length < (b.typeId name).length := by
  refine h.length_lt (fun inner hinner => ?_) ht
  have hhead : b.types.head? = some inner := hinner
  simp only [typeId, hhead, String.length_append]
  have hdot : ".".length = 1 := rfl
  omega

theorem Stacked.length_lt_routineId (h : b.Stacked) (name : String) {t : OpenType}
    (ht : t ∈ b.types) : t.id.length < (b.routineId name).length := by
  refine h.length_lt (fun inner hinner => ?_) ht
  have hhead : b.types.head? = some inner := hinner
  simp only [routineId, hhead, Ident.member, String.length_append]
  have hcolon : ":".length = 1 := rfl
  omega

@[simp] theorem ids_closeType (b : Blocks) (index : Nat) :
    (b.closeType index).fragment.ids = b.fragment.ids := by
  unfold closeType
  split
  · rfl
  · exact ids_close ..

@[simp] theorem ids_endRoutine (b : Blocks) (stop line : Nat) :
    (b.endRoutine stop line).fragment.ids = b.fragment.ids := by
  unfold endRoutine
  split
  · rfl
  · exact ids_close ..

theorem ids_openRoutine (b : Blocks) (index : Nat) (raw line : List Char) (name : String) :
    (b.openRoutine index raw line name).fragment.ids =
      (b.fragment.addNode (b.routineNode index raw name)).ids := by
  have hadded : (b.addRoutine index raw name).fragment.ids =
      (b.fragment.addNode (b.routineNode index raw name)).ids :=
    congrArg (List.map Node.id) (b.nodes_addRoutine index raw name)
  rw [fragment_openRoutine]
  split
  · exact hadded
  · rw [Fragment.ids_setProperty, hadded]

theorem Stacked.act (h : b.Stacked) {raw : List Char} {reading : Reading}
    (hreading : b.reading raw = reading) : (b.act index raw reading).Stacked := by
  cases reading with
  | plain => exact h
  | typeStart keyword name =>
      have hroutine : b.routine = none := routine_eq_none hreading (by simp) (by simp)
      refine ⟨?_, by simp [Blocks.act, hroutine], ?_⟩
      · exact List.pairwise_cons.mpr ⟨fun t ht => h.length_lt_typeId name ht, h.types⟩
      · intro id hid
        have hid' : id = b.typeId name ∨ id ∈ b.openIds := by
          simpa [openIds, Blocks.act, hroutine] using hid
        show id ∈ (b.fragment.addNode (b.typeNode index keyword name)).ids
        rcases hid' with rfl | hid'
        · exact Fragment.id_mem_addNode (b.typeNode index keyword name)
        · exact Fragment.ids_subset_addNode _ (h.known id hid')
  | typeEnd =>
      refine ⟨?_, ?_, ?_⟩
      · simpa [Blocks.act] using h.types.tail
      · simpa [Blocks.act] using fun r hr t ht => h.routine r hr t (List.mem_of_mem_tail ht)
      · intro id hid
        show id ∈ (b.closeType index).fragment.ids
        rw [ids_closeType]
        refine h.known id ?_
        simp only [openIds, Blocks.act, routine_closeType, types_closeType,
          List.mem_append] at hid ⊢
        exact hid.imp_right fun hid => List.map_subset _ (List.tail_subset _) hid
  | supertypes keyword list =>
      refine ⟨?_, ?_, ?_⟩
      · simpa [Blocks.act] using h.types
      · simpa [Blocks.act] using h.routine
      · simpa [openIds, Blocks.act] using h.known
  | routineStart name =>
      have hroutine : b.routine = none := routine_eq_none hreading (by simp) (by simp)
      refine ⟨by simpa [Blocks.act] using h.types, ?_, ?_⟩
      · intro r hr t ht
        simp only [Blocks.act, types_openRoutine] at ht
        simp only [Blocks.act, routine_openRoutine, hroutine] at hr
        obtain ⟨-, heq⟩ := Option.ite_none_right_eq_some.mp hr
        obtain rfl := Option.some.inj heq
        exact h.length_lt_routineId name ht
      · intro id hid
        show id ∈ (b.openRoutine index raw (strip raw) name).fragment.ids
        rw [ids_openRoutine]
        have hid' : id = b.routineId name ∨ id ∈ b.openIds := by
          simp only [openIds, Blocks.act, routine_openRoutine, types_openRoutine, hroutine] at hid ⊢
          split at hid
          · simpa [opened] using hid
          · exact .inr hid
        rcases hid' with rfl | hid'
        · exact Fragment.id_mem_addNode (b.routineNode index raw name)
        · exact Fragment.ids_subset_addNode _ (h.known id hid')
  | routineEnd =>
      obtain ⟨r, hr⟩ := exists_routine hreading
      simp only [Blocks.act, endRoutine, hr]
      refine ⟨h.types, by simp, ?_⟩
      intro id hid
      show id ∈ (b.close r.id (index + 1)).fragment.ids
      rw [ids_close]
      exact h.known id (by simp_all [openIds])

theorem Stacked.step (h : b.Stacked) (raw : List Char) : (b.step raw index).Stacked := by
  rw [step_eq_act]
  exact h.act rfl

/-! ### When open blocks are closed -/

/-- The last lines of those of some open types that have an ID. -/
def pendingTypes (id : String) (b : Blocks) (index : Nat) (lines : List (List Char)) :
    List OpenType → List Nat
  | [] => []
  | t :: around =>
      (if t.id = id then [lastLine (deeperThan around.length) b index lines] else []) ++
        pendingTypes id b index lines around

/-- The last lines of the open blocks that have an ID. -/
def pending (id : String) (b : Blocks) (index : Nat) (lines : List (List Char)) : List Nat :=
  (if b.routine.map (·.id) = some id then [lastLine inRoutine b index lines] else []) ++
    pendingTypes id b index lines b.types

theorem pendingTypes_cons {raw : List Char} {rest : List (List Char)} {ts : List OpenType}
    (h : ts.length ≤ (b.step raw index).types.length) :
    pendingTypes id b index (raw :: rest) ts =
      pendingTypes id (b.step raw index) (index + 1) rest ts := by
  induction ts with
  | nil => rfl
  | cons t around ih =>
      have hopen : deeperThan around.length (b.step raw index) = true := decide_eq_true h
      rw [pendingTypes, pendingTypes, lastLine, if_pos hopen,
        ih (Nat.le_of_succ_le h)]

theorem pendingTypes_eq_nil {lines : List (List Char)} {ts : List OpenType}
    (h : ∀ t ∈ ts, t.id.length < id.length) : pendingTypes id b index lines ts = [] := by
  induction ts with
  | nil => rfl
  | cons t around ih =>
      have hne : t.id ≠ id := by
        rintro rfl
        exact Nat.lt_irrefl _ (h t List.mem_cons_self)
      rw [pendingTypes, if_neg hne, List.nil_append, ih fun t ht => h t (List.mem_cons_of_mem _ ht)]

/-- A line that opens and closes nothing. -/
theorem pending_of_unchanged {raw : List Char} {rest : List (List Char)}
    (hroutine : (b.step raw index).routine = b.routine)
    (htypes : (b.step raw index).types = b.types) :
    pending id b index (raw :: rest) = pending id (b.step raw index) (index + 1) rest := by
  have hopen : b.routine.map (·.id) = some id → inRoutine (b.step raw index) = true := by
    intro h
    obtain ⟨r, hr, -⟩ := Option.map_eq_some_iff.mp h
    simp [inRoutine, hroutine, hr]
  rw [pending, pending, pendingTypes_cons (by rw [htypes]), hroutine, htypes]
  congr 1
  split
  case isTrue h => rw [lastLine, if_pos (hopen h)]
  case isFalse => rfl

/-- One line: the blocks that were open or are declared on it are those that it closes and those
that are still open. -/
theorem pending_step (h : b.Stacked) (raw : List Char) (rest : List (List Char)) :
    pending id b index (raw :: rest) ++
        ((b.declared? index raw rest).toList.filter (·.node.id == id)).map Declared.endLine =
      (if b.closes? raw = some id then [index + 1] else []) ++
        pending id (b.step raw index) (index + 1) rest := by
  have hstep := step_eq_act b raw index
  cases hreading : b.reading raw with
  | plain =>
      rw [hreading] at hstep
      rw [pending_of_unchanged (by rw [hstep]; rfl) (by rw [hstep]; rfl)]
      simp [declared?, closes?, hreading]
  | supertypes keyword list =>
      rw [hreading] at hstep
      rw [pending_of_unchanged (by simp [hstep, act]) (by simp [hstep, act])]
      simp [declared?, closes?, hreading]
  | typeStart keyword name =>
      rw [hreading] at hstep
      have hroutine : b.routine = none := routine_eq_none hreading (by simp) (by simp)
      have htypes : (b.step raw index).types = ⟨b.typeId name, isInterface keyword⟩ :: b.types := by
        rw [hstep]
        rfl
      have hnext : (b.step raw index).routine = none := by simp [hstep, act, hroutine]
      have hkept : pendingTypes id b index (raw :: rest) b.types =
          pendingTypes id (b.step raw index) (index + 1) rest b.types :=
        pendingTypes_cons (by simp [htypes])
      simp only [pending, hroutine, hnext, htypes, pendingTypes, ← hkept]
      by_cases hid : b.typeId name = id
      · -- No block around the new one has its ID.
        have hnone : pendingTypes id b index (raw :: rest) b.types = [] :=
          pendingTypes_eq_nil fun t ht => hid ▸ h.length_lt_typeId name ht
        simp [declared?, closes?, hreading, hid, hnone]
      · simp [declared?, closes?, hreading, hid]
  | typeEnd =>
      rw [hreading] at hstep
      cases htypes : b.types with
      | nil =>
          rw [pending_of_unchanged (by simp [hstep, act]) (by simp [hstep, act, htypes])]
          simp [declared?, closes?, hreading, htypes]
      | cons t around =>
          have hroutine : b.routine = none := routine_eq_none hreading (by simp) (by simp)
          have hnext : (b.step raw index).routine = none := by simp [hstep, act, hroutine]
          have haround : (b.step raw index).types = around := by simp [hstep, act, htypes]
          have hclosed : deeperThan around.length (b.step raw index) = false := by
            simp [deeperThan, haround]
          have hkept : pendingTypes id b index (raw :: rest) around =
              pendingTypes id (b.step raw index) (index + 1) rest around :=
            pendingTypes_cons (by simp [haround])
          simp [pending, hroutine, hnext, htypes, haround, pendingTypes, hkept, lastLine, hclosed,
            declared?, closes?, hreading]
  | routineStart name =>
      rw [hreading] at hstep
      have hroutine : b.routine = none := routine_eq_none hreading (by simp) (by simp)
      have htypes : (b.step raw index).types = b.types := by simp [hstep, act]
      have hkept : pendingTypes id b index (raw :: rest) b.types =
          pendingTypes id (b.step raw index) (index + 1) rest b.types :=
        pendingTypes_cons (by simp [htypes])
      have hnext : (b.step raw index).routine =
          if b.startsBody (strip raw) then some (b.opened index name) else none := by
        simp [hstep, act, hroutine]
      simp only [pending, hroutine, htypes, ← hkept, hnext]
      by_cases hid : b.routineId name = id
      · have hnone : pendingTypes id b index (raw :: rest) b.types = [] :=
          pendingTypes_eq_nil fun t ht => hid ▸ h.length_lt_routineId name ht
        cases hbody : b.startsBody (strip raw) <;>
          simp [declared?, closes?, hreading, hbody, opened, hid, hnone]
      · cases hbody : b.startsBody (strip raw) <;>
          simp [declared?, closes?, hreading, hbody, opened, hid]
  | routineEnd =>
      rw [hreading] at hstep
      obtain ⟨r, hr⟩ := exists_routine hreading
      have hnext : (b.step raw index).routine = none := by simp [hstep, act, endRoutine, hr]
      have htypes : (b.step raw index).types = b.types := by simp [hstep, act, endRoutine, hr]
      have hclosed : inRoutine (b.step raw index) = false := by simp [inRoutine, hnext]
      have hkept : pendingTypes id b index (raw :: rest) b.types =
          pendingTypes id (b.step raw index) (index + 1) rest b.types :=
        pendingTypes_cons (by simp [htypes])
      simp [pending, hr, hnext, htypes, hkept, lastLine, hclosed, declared?, closes?, hreading]

/-! ### Last lines of declarations -/

def declaredAs (id : String) (b : Blocks) (index : Nat) (lines : List (List Char)) :
    List Declared :=
  (b.declarationsFrom index lines).filter (·.node.id == id)

theorem declaredAs_cons (id : String) (b : Blocks) (index : Nat) (raw : List Char)
    (rest : List (List Char)) :
    declaredAs id b index (raw :: rest) =
      (b.declared? index raw rest).toList.filter (·.node.id == id) ++
        declaredAs id (b.step raw index) (index + 1) rest := by
  rw [declaredAs, declarationsFrom, List.filter_append]
  rfl

/-- The lines that are written as the last line of the node with an ID, one after the other. -/
def endsFrom (id : String) (b : Blocks) (index : Nat) : List (List Char) → List Nat
  | [] => (b.openIds.filter (· == id)).map fun _ => index
  | raw :: rest =>
      (if b.closes? raw = some id then [index + 1] else []) ++
        endsFrom id (b.step raw index) (index + 1) rest

theorem pending_nil (id : String) (b : Blocks) (index : Nat) :
    pending id b index [] = (b.openIds.filter (· == id)).map fun _ => index := by
  have htypes (ts : List OpenType) : pendingTypes id b index [] ts =
      ((ts.map (·.id)).filter (· == id)).map fun _ => index := by
    induction ts with
    | nil => rfl
    | cons t around ih => by_cases ht : t.id = id <;> simp [pendingTypes, lastLine, ht, ih]
  rw [pending, htypes, openIds, List.filter_append, List.map_append]
  cases b.routine with
  | none => rfl
  | some r => by_cases hr : r.id = id <;> simp [lastLine, hr]

/-- What is written for an ID are the last lines of its open block and of its declarations. -/
theorem endsFrom_eq (h : b.Stacked) (lines : List (List Char)) :
    endsFrom id b index lines =
      pending id b index lines ++ (declaredAs id b index lines).map Declared.endLine := by
  induction lines generalizing b index with
  | nil =>
      rw [pending_nil]
      exact (List.append_nil _).symm
  | cons raw rest ih =>
      rw [endsFrom, ih (h.step raw), ← List.append_assoc, ← pending_step h, declaredAs_cons,
        List.map_append, List.append_assoc]

theorem le_lastLine (isOpen : Blocks → Bool) (b : Blocks) (index : Nat)
    (lines : List (List Char)) : index ≤ lastLine isOpen b index lines := by
  induction lines generalizing b index with
  | nil => exact Nat.le_refl index
  | cons raw rest ih =>
      rw [lastLine]
      split
      · exact Nat.le_of_succ_le (ih _ _)
      · exact Nat.le_succ index

theorem lt_endLine_of_declared? {raw : List Char} {rest : List (List Char)} {d : Declared}
    (h : b.declared? index raw rest = some d) : index < d.endLine := by
  unfold declared? at h
  split at h
  · cases h
    exact le_lastLine _ _ _ _
  · split at h
    · cases h
      exact le_lastLine _ _ _ _
    · cases h
      exact Nat.lt_succ_self index
  all_goals cases h

/-- What one line keeps holds in front of every line that declares something. -/
theorem exists_declared?_of_mem {I : Nat → Blocks → Prop}
    (hstep : ∀ b index raw, I index b → I (index + 1) (b.step raw index)) (hI : I index b)
    {lines : List (List Char)} {d : Declared} (h : d ∈ b.declarationsFrom index lines) :
    ∃ b' index' raw rest, I index' b' ∧ b'.declared? index' raw rest = some d := by
  induction lines generalizing b index with
  | nil => cases h
  | cons raw rest ih =>
      rcases List.mem_append.mp h with h | h
      · exact ⟨b, index, raw, rest, hI, Option.mem_toList.mp h⟩
      · exact ih (hstep b index raw hI) h

theorem lt_endLine {lines : List (List Char)} {d : Declared}
    (h : d ∈ b.declarationsFrom index lines) : index < d.endLine := by
  obtain ⟨_, index', _, _, hle, hd⟩ := exists_declared?_of_mem (I := fun i _ => index ≤ i)
    (fun _ _ _ hle => Nat.le_succ_of_le hle) (Nat.le_refl index) h
  exact Nat.lt_of_le_of_lt hle (lt_endLine_of_declared? hd)

theorem Stacked.pairwise_openIds (h : b.Stacked) :
    b.openIds.Pairwise fun id around => around.length < id.length := by
  refine List.pairwise_append.mpr ⟨?_, List.pairwise_map.mpr h.types, fun id hid around ht => ?_⟩
  · cases b.routine <;> simp
  · obtain ⟨r, hr, rfl⟩ := List.mem_map.mp hid
    obtain ⟨t, hmem, rfl⟩ := List.mem_map.mp ht
    exact h.routine r (Option.mem_toList.mp hr) t hmem

theorem pending_eq_nil (h : id ∉ b.openIds) (lines : List (List Char)) :
    pending id b index lines = [] := by
  have htypes (ts : List OpenType) (hts : id ∉ ts.map (·.id)) :
      pendingTypes id b index lines ts = [] := by
    induction ts with
    | nil => rfl
    | cons t around ih =>
        simp only [List.map_cons, List.mem_cons, not_or] at hts
        rw [pendingTypes, if_neg (Ne.symm hts.1), ih hts.2]
        rfl
  rw [openIds, List.mem_append, not_or] at h
  rw [pending, htypes _ h.2, List.append_nil]
  cases hr : b.routine with
  | none => rfl
  | some r =>
      have hne : r.id ≠ id := by simpa [hr, eq_comm] using h.1
      simp [hne]

/-- A block that a line closes is not open behind it. -/
theorem not_mem_openIds_of_closes (h : b.Stacked) {raw : List Char}
    (hcloses : b.closes? raw = some id) : id ∉ (b.step raw index).openIds := by
  have hshorter (ts : List OpenType) (hts : ∀ t ∈ ts, t.id.length < id.length) :
      id ∉ ts.map (·.id) := by
    intro hid
    obtain ⟨t, ht, rfl⟩ := List.mem_map.mp hid
    exact Nat.lt_irrefl _ (hts t ht)
  rw [step_eq_act]
  cases hreading : b.reading raw with
  | plain | typeStart _ _ | supertypes _ _ => simp [closes?, hreading] at hcloses
  | typeEnd =>
      have hroutine : b.routine = none := routine_eq_none hreading (by simp) (by simp)
      cases htypes : b.types with
      | nil => simp [closes?, hreading, htypes] at hcloses
      | cons t around =>
          obtain rfl : t.id = id := by simpa [closes?, hreading, htypes] using hcloses
          have hlonger := (List.pairwise_cons.mp (htypes ▸ h.types)).1
          simpa [openIds, act, hroutine, htypes] using hshorter around hlonger
  | routineStart name =>
      have hroutine : b.routine = none := routine_eq_none hreading (by simp) (by simp)
      by_cases hbody : b.startsBody (strip raw) = true
      · simp [closes?, hreading, hbody] at hcloses
      · obtain rfl : b.routineId name = id := by simpa [closes?, hreading, hbody] using hcloses
        have hlonger : ∀ t ∈ b.types, t.id.length < (b.routineId name).length :=
          fun t ht => h.length_lt_routineId name ht
        simpa [openIds, act, hroutine, hbody] using hshorter b.types hlonger
  | routineEnd =>
      obtain ⟨r, hr⟩ := exists_routine hreading
      obtain rfl : r.id = id := by simpa [closes?, hreading, hr] using hcloses
      simpa [openIds, act, endRoutine, hr] using hshorter b.types (h.routine r hr)

/-- The lines that are written for an ID grow. -/
theorem pairwise_endsFrom (h : b.Stacked) (lines : List (List Char)) :
    (endsFrom id b index lines).Pairwise (· < ·) := by
  induction lines generalizing b index with
  | nil =>
      refine List.pairwise_map.mpr (List.Pairwise.imp_of_mem (fun {a c} ha hc hlt => ?_)
        (h.pairwise_openIds.filter _))
      -- At most one block with the ID is open.
      obtain rfl : a = id := by simpa using (List.mem_filter.mp ha).2
      obtain rfl : c = a := by simpa using (List.mem_filter.mp hc).2
      exact absurd hlt (Nat.lt_irrefl _)
  | cons raw rest ih =>
      rw [endsFrom]
      refine List.pairwise_append.mpr ⟨?_, ih (h.step raw), fun line hline later hlater => ?_⟩
      · split <;> simp
      · obtain ⟨hcloses, hline⟩ : b.closes? raw = some id ∧ line = index + 1 := by
          split at hline
          case isTrue hcloses => exact ⟨hcloses, List.mem_singleton.mp hline⟩
          case isFalse => cases hline
        rw [endsFrom_eq (h.step raw),
          pending_eq_nil (not_mem_openIds_of_closes h hcloses), List.nil_append] at hlater
        obtain ⟨d, hd, rfl⟩ := List.mem_map.mp hlater
        rw [hline]
        exact lt_endLine (List.mem_filter.mp hd).1

/-! ### Bodies of declarations -/

/-- The body of the open routine, which ends on one of the lines from `index` on or behind them. -/
def openBody (b : Blocks) (index : Nat) (lines : List (List Char)) : List Body :=
  b.routine.toList.map fun r => { r with stop := index + lines.findIdx endsRoutine }

/-- One line: the bodies that are known, open or declared on it are known or open behind it. -/
theorem bodies_step (b : Blocks) (index : Nat) (raw : List Char) (rest : List (List Char)) :
    (b.step raw index).bodies ++ (b.step raw index).openBody (index + 1) rest =
      b.bodies ++ b.openBody index (raw :: rest) ++
        (b.declared? index raw rest).toList.filterMap Declared.body := by
  rw [step_eq_act]
  cases hroutine : b.routine with
  | some r =>
      have hreading := reading_of_routine hroutine raw
      cases hend : endsRoutine raw with
      | true =>
          simp only [hend, if_true] at hreading
          simp [hreading, act, endRoutine, hroutine, openBody, declared?, List.findIdx_cons, hend]
      | false =>
          simp only [hend, Bool.false_eq_true, if_false] at hreading
          simp only [hreading, act, hroutine, openBody, declared?, List.findIdx_cons, hend,
            cond_false]
          simp [Nat.add_comm, Nat.add_left_comm]
  | none =>
      cases hreading : b.reading raw with
      | plain | typeStart _ _ | typeEnd | supertypes _ _ =>
          simp [act, openBody, declared?, hreading, hroutine]
      | routineEnd =>
          obtain ⟨r, hr⟩ := exists_routine hreading
          simp [hroutine] at hr
      | routineStart name =>
          cases hbody : b.startsBody (strip raw) <;>
            simp [act, openBody, declared?, hreading, hroutine, hbody]

/-- The bodies of all lines are those of the open routine and of the declarations. -/
theorem bodies_readFrom (b : Blocks) (index : Nat) (lines : List (List Char)) (line : Nat) :
    ((b.readFrom index lines).endRoutine (index + lines.length) line).bodies =
      b.bodies ++ b.openBody index lines ++
        (b.declarationsFrom index lines).filterMap Declared.body := by
  induction lines generalizing b index with
  | nil =>
      simp only [readFrom, endRoutine, openBody, declarationsFrom]
      cases b.routine <;> simp
  | cons raw rest ih =>
      rw [List.length_cons, Nat.add_comm rest.length, ← Nat.add_assoc, readFrom, ih, bodies_step,
        declarationsFrom, List.filterMap_append, List.append_assoc, List.append_assoc]

theorem bodies_scanned (path : String) (lines : List (List Char)) :
    (scanned path lines).bodies =
      (declarationsFrom { path } 0 lines).filterMap Declared.body := by
  have hread := bodies_readFrom { path } 0 lines lines.length
  rw [Nat.zero_add] at hread
  rw [scanned, bodies_finish, hread]
  rfl

end Blocks

end CodeGraph.Vb

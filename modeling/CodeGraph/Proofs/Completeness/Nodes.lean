import CodeGraph.Proofs.Graph.Making
import CodeGraph.Proofs.Page.Lines

/-!
Complete nodes. A node has its place if it says its name, its file and its line; a routine has its
extent if it also says its signature and a last line that does not come before the first, and it
is measured if it says a complexity. Every analyzer but that of Visual Basic makes all of its
nodes complete at once, and to unwrap a page leaves nothing out.
-/

namespace CodeGraph

/-! ### Single nodes -/

namespace Node

structure Placed (path : String) (n : Node) : Prop where
  name : ∃ name, n.get? Key.name = some (.str name)
  file : n.get? Key.file = some (.str path)
  line : ∃ line : Nat, 1 ≤ line ∧ n.get? Key.line = some (.int line)

/-- The node says its signature and its last line, which is not before the first. -/
structure Extended (n : Node) : Prop where
  signature : ∃ signature, n.get? Key.signature = some (.str signature)
  lines : ∃ line endLine : Nat, line ≤ endLine ∧ n.get? Key.line = some (.int line) ∧
    n.get? Key.endLine = some (.int endLine)

/-- The node says a complexity of at least 1. -/
def Measured (n : Node) : Prop :=
  ∃ complexity : Nat, 1 ≤ complexity ∧ n.get? Key.complexity = some (.int complexity)

/-- The node has its place, and if it is that of a routine it has its extent and is measured. -/
structure Complete (path : String) (n : Node) : Prop where
  placed : n.Placed path
  routine : Label.isCallable n.label = true → n.Extended ∧ n.Measured

def placeKeys : List String := [Key.name, Key.file, Key.line]

def extentKeys : List String := [Key.signature, Key.line, Key.endLine]

variable {n n' : Node} {path key : String}

theorem Placed.of_get?_eq (h : n.Placed path)
    (hget : ∀ key ∈ placeKeys, n'.get? key = n.get? key) : n'.Placed path where
  name := by rw [hget _ (by decide)]; exact h.name
  file := by rw [hget _ (by decide)]; exact h.file
  line := by rw [hget _ (by decide)]; exact h.line

theorem Placed.set (h : n.Placed path) (hkey : key ∉ placeKeys) (value : Json) :
    (n.set key value).Placed path :=
  h.of_get?_eq fun _ hmem => get?_set_of_ne fun heq => hkey (heq ▸ hmem)

theorem Extended.of_get?_eq (h : n.Extended)
    (hget : ∀ key ∈ extentKeys, n'.get? key = n.get? key) : n'.Extended where
  signature := by rw [hget _ (by decide)]; exact h.signature
  lines := by rw [hget Key.line (by decide), hget Key.endLine (by decide)]; exact h.lines

theorem Extended.set (h : n.Extended) (hkey : key ∉ extentKeys) (value : Json) :
    (n.set key value).Extended :=
  h.of_get?_eq fun _ hmem => get?_set_of_ne fun heq => hkey (heq ▸ hmem)

theorem measured_iff_of_get?_eq (h : n'.get? Key.complexity = n.get? Key.complexity) :
    n'.Measured ↔ n.Measured := by
  rw [Measured, h, Measured]

theorem Complete.set (h : n.Complete path) (hplace : key ∉ placeKeys) (hextent : key ∉ extentKeys)
    (hcomplexity : Key.complexity ≠ key) (value : Json) : (n.set key value).Complete path where
  placed := h.placed.set hplace value
  routine := fun hlabel => by
    obtain ⟨hextended, hmeasured⟩ := h.routine hlabel
    exact ⟨hextended.set hextent value,
      (measured_iff_of_get?_eq (get?_set_of_ne hcomplexity)).mpr hmeasured⟩

theorem Placed.complete (h : n.Placed path) (hlabel : Label.isCallable n.label = false) :
    n.Complete path :=
  ⟨h, fun hcallable => by simp [hlabel] at hcallable⟩

theorem get?_line_definition (id label name file : String) (line : Nat) :
    (definition id label name file line).get? Key.line = some (.int line) :=
  get?_set_self ..

theorem get?_definition_of_not_mem (id label name file : String) (line : Nat)
    (hkey : key ∉ placeKeys) : (definition id label name file line).get? key = none := by
  simp only [placeKeys, List.mem_cons, List.not_mem_nil, or_false, not_or] at hkey
  rw [definition, get?_set_of_ne hkey.2.2, get?_set_of_ne hkey.2.1, get?_set_of_ne hkey.1]
  rfl

theorem placed_definition (id label name file : String) {line : Nat} (hline : 1 ≤ line) :
    (definition id label name file line).Placed file where
  name := ⟨name, by
    rw [definition, get?_set_of_ne (by decide), get?_set_of_ne (by decide), get?_set_self]⟩
  file := by rw [definition, get?_set_of_ne (by decide), get?_set_self]
  line := ⟨line, hline, get?_line_definition ..⟩

end Node

/-! ### Nodes of a tree -/

/-- No node of the tree ends before it starts. -/
inductive Tree.Spanned : Tree → Prop where
  | node {i : Tree.Info} {cs : List Tree} (h : i.start ≤ i.stop) (hcs : ∀ c ∈ cs, Spanned c) :
      Spanned (.node i cs)

namespace Tree

theorem hereditary_spanned : Hereditary Spanned := by
  rintro _ ⟨-, hcs⟩ c hc
  exact hcs c hc

theorem lineAt_mono (src : Bytes) {a b : Nat} (h : a ≤ b) : lineAt src a ≤ lineAt src b :=
  Nat.succ_le_succ ((List.take_sublist_take_left h).count_le 10)

theorem Spanned.startLine_le_endLine {t : Tree} (h : t.Spanned) (src : Bytes) :
    t.startLine src ≤ t.endLine src := by
  cases h with
  | node h => exact lineAt_mono src h

end Tree

section Makers

open Declaration

variable (f : SourceFile) {t : Tree} (id label name : String)

theorem placed_spanning : (spanning f t id label name).Placed f.path :=
  (Node.placed_definition _ _ _ _ (Nat.succ_pos _)).set (by decide) _

theorem complete_routineNode (branches : List String) (ht : t.Spanned) :
    (routineNode f branches t id label name).Complete f.path := by
  have hline : (routineNode f branches t id label name).get? Key.line =
      some (.int (t.startLine f.bytes)) := by
    rw [routineNode, spanning, Node.get?_set_of_ne (by decide), Node.get?_set_of_ne (by decide),
      Node.get?_set_of_ne (by decide), Node.get?_line_definition]
  have hendLine : (routineNode f branches t id label name).get? Key.endLine =
      some (.int (t.endLine f.bytes)) := by
    rw [routineNode, spanning, Node.get?_set_of_ne (by decide), Node.get?_set_of_ne (by decide),
      Node.get?_set_self]
  have hsignature : (routineNode f branches t id label name).get? Key.signature =
      some (.str (t.signature f.bytes)) := by
    rw [routineNode, Node.get?_set_of_ne (by decide), Node.get?_set_self]
  constructor
  case placed => exact ((placed_spanning f id label name).set (by decide) _).set (by decide) _
  case routine =>
    intro _
    exact ⟨⟨⟨_, hsignature⟩, _, _, ht.startLine_le_endLine f.bytes, hline, hendLine⟩,
      _, Nat.le_add_right 1 _, Node.get?_set_self ..⟩

theorem makes_complete : Makes (Node.Complete f.path) Tree.Spanned f where
  definition := fun t id label name hlabel =>
    (Node.placed_definition _ _ _ _ (Nat.succ_pos _)).complete hlabel
  spanning := fun id label name _ hlabel => (placed_spanning f id label name).complete hlabel
  routine := fun branches _ id label name ht => complete_routineNode f id label name branches ht
  detail := fun h hkey _ => by
    have hother : ∀ key ∈ Key.details,
        key ∉ Node.placeKeys ∧ key ∉ Node.extentKeys ∧ Key.complexity ≠ key := by decide
    obtain ⟨hplace, hextent, hcomplexity⟩ := hother _ hkey
    exact h.set hplace hextent hcomplexity _

end Makers

/-! ### Nodes of a script -/

namespace Sql

theorem lineBreaks_le_append (s t : List Char) : lineBreaks s ≤ lineBreaks (s ++ t) := by
  induction s with
  | nil => exact Nat.zero_le _
  | cons c s ih =>
      cases s with
      | cons d s => exact Nat.add_le_add_left ih _
      | nil =>
          -- A carriage return at the end counts; when a line feed follows, that one counts.
          by_cases hpair : (c == '\r' && t.head? == some '\n') = true
          · obtain ⟨hc, ht⟩ := Bool.and_eq_true_iff.mp hpair
            obtain ⟨t, rfl⟩ : ∃ rest, t = '\n' :: rest := by
              cases t with
              | nil => simp at ht
              | cons d t => exact ⟨t, by simpa using ht⟩
            obtain rfl : c = '\r' := by simpa using hc
            simp [lineBreaks, isLineBreak]
          · rw [Bool.not_eq_true] at hpair
            simp only [lineBreaks, List.head?_nil, List.cons_append, List.nil_append, hpair]
            simp

theorem lineAt_mono (text : List Char) {a b : Nat} (h : a ≤ b) : lineAt text a ≤ lineAt text b := by
  obtain ⟨c, rfl⟩ := Nat.le.dest h
  rw [lineAt, lineAt, List.take_add]
  exact Nat.succ_le_succ (lineBreaks_le_append _ _)

section

variable {path : String} {text : List Char} {d : Definition}

theorem get?_line_baseNode :
    (baseNode path text d).get? Key.line = some (.int (lineAt text d.start)) := by
  rw [baseNode, Node.get?_set_of_ne (by decide), Node.get?_set_of_ne (by decide),
    Node.get?_line_definition]

theorem get?_endLine_baseNode :
    (baseNode path text d).get? Key.endLine =
      some (.int (lineAt text (d.start + (codeLength (Seq.slice text d.start d.stop) - 1)))) := by
  rw [baseNode, Node.get?_set_of_ne (by decide), Node.get?_set_self]

/-- What only routines have is their signature and their complexity. -/
theorem get?_of_node? {n : Node} (h : node? path text d = some n) {key : String}
    (hsignature : key ≠ Key.signature) (hcomplexity : key ≠ Key.complexity) :
    n.get? key = (baseNode path text d).get? key := by
  unfold node? at h
  dsimp only at h
  split at h
  case isTrue =>
    obtain ⟨body, -, rfl⟩ := Option.map_eq_some_iff.mp h
    rw [Node.get?_set_of_ne hcomplexity, Node.get?_set_of_ne hsignature]
  case isFalse =>
    cases h
    rfl

theorem complete_of_node? {n : Node} (h : node? path text d = some n) : n.Complete path := by
  have hplaced : (baseNode path text d).Placed path :=
    ((Node.placed_definition _ _ _ _ (Nat.succ_pos _)).set (by decide) _).set (by decide) _
  have hle : lineAt text d.start ≤
      lineAt text (d.start + (codeLength (Seq.slice text d.start d.stop) - 1)) :=
    lineAt_mono text (Nat.le_add_right _ _)
  have hline := (get?_of_node? h (by decide) (by decide)).trans get?_line_baseNode
  have hendLine := (get?_of_node? h (by decide) (by decide)).trans get?_endLine_baseNode
  unfold node? at h
  dsimp only at h
  split at h
  case isTrue =>
    obtain ⟨body, -, rfl⟩ := Option.map_eq_some_iff.mp h
    refine ⟨(hplaced.set (by decide) _).set (by decide) _, fun _ => ⟨⟨⟨signature text d body, ?_⟩,
      _, _, hle, hline, hendLine⟩, _, Nat.le_add_right 1 _, Node.get?_set_self ..⟩⟩
    rw [Node.get?_set_of_ne (by decide), Node.get?_set_self]
  case isFalse hroutine =>
    cases h
    have hlabel : (baseNode path text d).label = Label.table := if_neg hroutine
    exact hplaced.complete (by rw [hlabel]; decide)

end

end Sql

/-! ### Nodes of a page -/

namespace Page

variable {path wrapper : String} {n : Node}

theorem get?_liftLine_self {key : String} {line : Nat} (h : n.get? key = some (.int line)) :
    (liftLine n key).get? key = some (.int (max (line - 1) 1 : Nat)) := by
  have hmax : max ((line : Int) - 1) 1 = ((max (line - 1) 1 : Nat) : Int) := by omega
  have hnatural : (n.get? key).bind Json.natural? = some line := by
    rw [h]
    rfl
  rw [liftLine, hnatural, Node.get?_set_self, hmax]

/-- A line number of a node on the page. -/
theorem get?_unwrapNode_line {key : String} (hkey : key = Key.line ∨ key = Key.endLine)
    {line : Nat} (h : n.get? key = some (.int line)) :
    (unwrapNode path wrapper n).get? key = some (.int (max (line - 1) 1 : Nat)) := by
  have hlift (m : Node) (hm : m.get? key = some (.int line)) :
      (liftLines m).get? key = some (.int (max (line - 1) 1 : Nat)) := by
    rcases hkey with rfl | rfl
    · rw [liftLines, get?_liftLine_of_ne (by decide)]
      exact get?_liftLine_self hm
    · refine get?_liftLine_self ?_
      rwa [get?_liftLine_of_ne (by decide)]
  unfold unwrapNode
  split
  · exact hlift _ h
  · exact hlift _ h

theorem label_unwrapNode (path wrapper : String) (n : Node) :
    Label.isCallable (unwrapNode path wrapper n).label = Label.isCallable n.label := by
  have hlift (m : Node) : (liftLines m).label = m.label := by
    rw [liftLines]
    unfold liftLine
    split <;> split <;> rfl
  unfold unwrapNode
  split
  · rw [hlift]
    dsimp only
    split
    · rename_i hmethod
      rw [beq_iff_eq.mp hmethod]
      decide
    · rfl
  · rw [hlift]

theorem placed_unwrapNode {file : String} (h : n.Placed file) :
    (unwrapNode path wrapper n).Placed file where
  name := by
    rw [get?_unwrapNode (by decide) (by decide)]
    exact h.name
  file := by
    rw [get?_unwrapNode (by decide) (by decide)]
    exact h.file
  line := by
    obtain ⟨line, -, hline⟩ := h.line
    exact ⟨_, Nat.le_max_right _ _, get?_unwrapNode_line (.inl rfl) hline⟩

theorem extended_unwrapNode (h : n.Extended) : (unwrapNode path wrapper n).Extended where
  signature := by
    rw [get?_unwrapNode (by decide) (by decide)]
    exact h.signature
  lines := by
    obtain ⟨line, endLine, hle, hline, hendLine⟩ := h.lines
    exact ⟨_, _, by omega, get?_unwrapNode_line (.inl rfl) hline,
      get?_unwrapNode_line (.inr rfl) hendLine⟩

theorem measured_unwrapNode_iff (path wrapper : String) (n : Node) :
    (unwrapNode path wrapper n).Measured ↔ n.Measured :=
  Node.measured_iff_of_get?_eq (get?_unwrapNode (by decide) (by decide) ..)

end Page

end CodeGraph

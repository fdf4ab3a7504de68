import CodeGraph.Proofs.Completeness.Nodes

/-!
Complete nodes of a Visual Basic file. A node is placed when its line is read, but a routine gets
its last line only where its block ends, at the latest with the file, and its complexity only when
the calls of its body are linked. So a routine always has its extent, and it is measured exactly
if a routine of its ID has a body.
-/

namespace CodeGraph.Vb

/-- What is known of a node after some lines, while the routine with an ID may be open. -/
structure Recorded (path : String) (count : Nat) (opened : Option String) (n : Node) : Prop where
  placed : n.Placed path
  lines : ∃ line : Nat, line ≤ count ∧ n.get? Key.line = some (.int line) ∧
    (n.get? Key.endLine = none ∨
      ∃ endLine : Nat, line ≤ endLine ∧ n.get? Key.endLine = some (.int endLine))
  routine : Label.isCallable n.label = true →
    (∃ signature, n.get? Key.signature = some (.str signature)) ∧
      (n.get? Key.endLine ≠ none ∨ opened = some n.id)
  -- Calls are linked only after all lines have been read.
  unmeasured : n.get? Key.complexity = none

namespace Recorded

variable {path : String} {count : Nat} {opened opened' : Option String} {n : Node}

theorem mono (h : Recorded path count opened n) {count' : Nat} (hcount : count ≤ count') :
    Recorded path count' opened n := by
  obtain ⟨line, hle, hline⟩ := h.lines
  exact ⟨h.placed, ⟨line, Nat.le_trans hle hcount, hline⟩, h.routine, h.unmeasured⟩

/-- Closing a block gives its node a last line behind all lines so far; other blocks stay open. -/
theorem close (h : Recorded path count opened n) {last : Nat} (hlast : count ≤ last) {id : String}
    (hopened : opened = opened' ∨ opened = some id) :
    Recorded path count opened' (if n.id == id then n.set Key.endLine (.int last) else n) := by
  obtain ⟨line, hle, hline, hend⟩ := h.lines
  split
  case isTrue hid =>
    constructor
    case placed => exact h.placed.set (by decide) _
    case lines =>
      refine ⟨line, hle, ?_, .inr ⟨last, Nat.le_trans hle hlast, Node.get?_set_self ..⟩⟩
      rw [Node.get?_set_of_ne (by decide), hline]
    case routine =>
      intro hlabel
      rw [Node.get?_set_of_ne (by decide), Node.get?_set_self]
      exact ⟨(h.routine hlabel).1, .inl (by simp)⟩
    case unmeasured => rw [Node.get?_set_of_ne (by decide), h.unmeasured]
  case isFalse hid =>
    refine ⟨h.placed, ⟨line, hle, hline, hend⟩, fun hlabel => ?_, h.unmeasured⟩
    obtain ⟨hsignature, hclosed | hopen⟩ := h.routine hlabel
    · exact ⟨hsignature, .inl hclosed⟩
    · rcases hopened with rfl | hother
      · exact ⟨hsignature, .inr hopen⟩
      · obtain rfl : id = n.id := by simpa using hother.symm.trans hopen
        simp at hid

/-- When no routine is open, all of them are closed, whichever is opened next. -/
theorem of_none (h : Recorded path count none n) (opened : Option String) :
    Recorded path count opened n := by
  refine ⟨h.placed, h.lines, fun hlabel => ?_, h.unmeasured⟩
  obtain ⟨hsignature, hclosed⟩ := h.routine hlabel
  exact ⟨hsignature, .inl (hclosed.resolve_right (by simp))⟩

/-- A line introduces a type, or a routine that is open. -/
theorem introduced {index : Nat} {id label name key value : String}
    (hkey : key = Key.kind ∧ Label.isCallable label = false ∨
      key = Key.signature ∧ opened = some id) :
    Recorded path (index + 1) opened
      ((Node.definition id label name path (index + 1)).set key (.str value)) := by
  have hother : key ∉ Node.placeKeys ∧ Key.line ≠ key ∧ Key.endLine ≠ key ∧
      Key.complexity ≠ key := by
    rcases hkey with ⟨rfl, -⟩ | ⟨rfl, -⟩ <;> decide
  obtain ⟨hplace, hline, hendLine, hcomplexity⟩ := hother
  constructor
  case placed => exact (Node.placed_definition _ _ _ _ (Nat.succ_pos _)).set hplace _
  case lines =>
    refine ⟨index + 1, Nat.le_refl _, ?_, .inl ?_⟩
    · rw [Node.get?_set_of_ne hline, Node.get?_line_definition]
    · rw [Node.get?_set_of_ne hendLine, Node.get?_definition_of_not_mem _ _ _ _ _ (by decide)]
  case routine =>
    intro hlabel
    rcases hkey with ⟨-, htype⟩ | ⟨rfl, hopened⟩
    · exact absurd (htype.symm.trans hlabel) (by decide)
    · exact ⟨⟨value, Node.get?_set_self ..⟩, .inr hopened⟩
  case unmeasured =>
    rw [Node.get?_set_of_ne hcomplexity, Node.get?_definition_of_not_mem _ _ _ _ _ (by decide)]

theorem extended (h : Recorded path count none n) (hlabel : Label.isCallable n.label = true) :
    n.Extended := by
  obtain ⟨line, -, hline, hend⟩ := h.lines
  obtain ⟨hsignature, hclosed⟩ := h.routine hlabel
  rcases hend with hnone | ⟨endLine, hle, hendLine⟩
  · rcases hclosed with hclosed | hopen
    · exact absurd hnone hclosed
    · cases hopen
  · exact ⟨hsignature, line, endLine, hle, hline, hendLine⟩

end Recorded

namespace Blocks

structure Recording (path : String) (count : Nat) (opened : Option String) (b : Blocks) :
    Prop where
  nodes : b.fragment.Each (Recorded path count opened)
  file : b.path = path

variable {path : String} {count : Nat} {opened opened' : Option String} {b : Blocks}

def opened? (b : Blocks) : Option String :=
  b.routine.map Body.id

namespace Recording

theorem mono (h : b.Recording path count opened) {count' : Nat} (hcount : count ≤ count') :
    b.Recording path count' opened :=
  ⟨fun n hn => (h.nodes n hn).mono hcount, h.file⟩

theorem close (h : b.Recording path count opened) {last : Nat} (hlast : count ≤ last) (id : String)
    (hopened : opened = opened' ∨ opened = some id) :
    (b.close id last).Recording path count opened' := by
  refine ⟨fun m hm => ?_, h.file⟩
  obtain ⟨n, hn, rfl⟩ := List.mem_map.mp hm
  exact (h.nodes n hn).close hlast hopened

theorem closeType (h : b.Recording path count none) {index : Nat} (hindex : count ≤ index + 1) :
    (b.closeType index).Recording path count none := by
  unfold Blocks.closeType
  split
  · exact h
  · exact ⟨(h.close hindex _ (.inl rfl)).nodes, h.file⟩

theorem openType {index : Nat} (h : b.Recording path index none) (keyword name : String) :
    (b.openType index keyword name).Recording path (index + 1) none := by
  obtain ⟨hnodes, rfl⟩ := h.mono (Nat.le_succ index)
  refine ⟨hnodes.addNode (.introduced (.inl ⟨rfl, ?_⟩)), rfl⟩
  split <;> decide

theorem addRoutine {index : Nat} (h : b.Recording path index none) (raw : List Char)
    (name : String) :
    (b.addRoutine index raw name).Recording path (index + 1) (some (b.routineId name)) := by
  obtain ⟨hnodes, rfl⟩ := h.mono (Nat.le_succ index)
  have hopen : b.fragment.Each (Recorded b.path (index + 1) (some (b.routineId name))) :=
    fun n hn => (hnodes n hn).of_none _
  unfold Blocks.addRoutine
  dsimp only
  split
  · exact ⟨(hopen.addNode (.introduced (.inr ⟨rfl, rfl⟩))).addEdge _ _ _, rfl⟩
  · exact ⟨hopen.addNode (.introduced (.inr ⟨rfl, rfl⟩)), rfl⟩

theorem openRoutine {index : Nat} (h : b.Recording path index none) (hroutine : b.routine = none)
    (raw line : List Char) (name : String) :
    (b.openRoutine index raw line name).Recording path (index + 1)
      (b.openRoutine index raw line name).opened? := by
  have hadded := h.addRoutine raw name
  have hnone : ((b.addRoutine index raw name).close (b.routineId name) (index + 1)).opened? =
      none := by
    have hkept : (b.addRoutine index raw name).routine = none := by
      unfold Blocks.addRoutine
      dsimp only
      split <;> exact hroutine
    rw [opened?, Blocks.close, hkept]
    rfl
  unfold Blocks.openRoutine
  dsimp only
  split
  · exact ⟨hadded.nodes, hadded.file⟩
  · rw [hnone]
    exact hadded.close (Nat.le_refl _) _ (.inr rfl)

theorem outerLine {index : Nat} (h : b.Recording path index none) (hroutine : b.routine = none)
    (raw line : List Char) :
    (b.outerLine index raw line).Recording path (index + 1)
      (b.outerLine index raw line).opened? := by
  have hstay := h.mono (Nat.le_succ index)
  have hnone : b.opened? = none := by
    rw [opened?, hroutine]
    rfl
  unfold Blocks.outerLine
  split
  · split
    · exact hnone ▸ h.openType _ _
    · exact hnone ▸ hstay
  · split
    · have hkept : (b.closeType index).opened? = none := by
        unfold Blocks.closeType
        split <;> exact hnone
      exact hkept ▸ hstay.closeType (Nat.le_refl _)
    · split
      · split
        · unfold Blocks.addSupertypes
          split <;> exact hnone ▸ ⟨hstay.nodes, hstay.file⟩
        · exact hnone ▸ hstay
      · split
        · exact h.openRoutine hroutine _ _ _
        · exact hnone ▸ hstay

/-- A line keeps the record. -/
theorem step {index : Nat} (h : b.Recording path index b.opened?) (raw : List Char) :
    (b.step raw index).Recording path (index + 1) (b.step raw index).opened? := by
  have hstay := h.mono (Nat.le_succ index)
  unfold Blocks.step
  dsimp only
  split
  case h_1 r hr =>
    unfold bodyLine
    split
    · have hopened : b.opened? = some r.id := by
        rw [opened?, hr]
        rfl
      have hclosed : (b.close r.id (index + 1)).Recording path (index + 1) none :=
        hstay.close (Nat.le_refl _) r.id (.inr hopened)
      exact ⟨hclosed.nodes, hclosed.file⟩
    · exact hstay
  case h_2 hr =>
    refine outerLine ?_ hr raw _
    rwa [show b.opened? = none by rw [opened?, hr]; rfl] at h

/-- All lines keep the record. -/
theorem scan {index : Nat} (h : b.Recording path index b.opened?) (lines : List (List Char)) :
    ((lines.zipIdx index).foldl (fun (b : Blocks) x => b.step x.1 x.2) b).Recording path
      (index + lines.length)
      ((lines.zipIdx index).foldl (fun (b : Blocks) x => b.step x.1 x.2) b).opened? := by
  induction lines generalizing index b with
  | nil => exact h
  | cons raw lines ih =>
      rw [List.zipIdx_cons, List.foldl_cons, List.length_cons, ← Nat.add_assoc,
        Nat.add_right_comm]
      exact ih (h.step raw)

/-- Whatever is still open is closed with the file. -/
theorem finish (h : b.Recording path count b.opened?) :
    (b.finish count).Recording path count none := by
  unfold Blocks.finish
  dsimp only
  refine List.foldlRecOn (motive := Recording path count none) _ _ ?_
    fun b h t _ => h.close (Nat.le_refl _) t.id (.inl rfl)
  split
  case h_1 r hr =>
    have hclosed : (b.close r.id count).Recording path count none := by
      refine h.close (Nat.le_refl _) r.id (.inr ?_)
      rw [opened?, hr]
      rfl
    exact ⟨hclosed.nodes, hclosed.file⟩
  case h_2 hr =>
    rwa [show b.opened? = none by rw [opened?, hr]; rfl] at h

end Recording

theorem recording_ofLines (path : String) (lines : List (List Char)) :
    (ofLines path lines).Recording path lines.length none := by
  have hstart : Recording path 0 none { path } := ⟨Fragment.each_empty _, rfl⟩
  have hscanned := Recording.scan (b := { path }) hstart lines
  rw [Nat.zero_add] at hscanned
  exact List.foldlRecOn (motive := Recording path lines.length none) _ _ hscanned.finish
    fun b h s _ => ⟨h.nodes.addEdge _ _ _, h.file⟩

/-! ### Complexity -/

end Blocks

/-- What linking the calls of some bodies makes of a node: the nodes with the IDs of the bodies are
measured, and nothing else changes. -/
structure MeasuredBy (bodies : List Body) (m n : Node) : Prop where
  id : n.id = m.id
  label : n.label = m.label
  other : ∀ key, key ≠ Key.complexity → n.get? key = m.get? key
  measured : n.Measured ↔ m.Measured ∨ ∃ r ∈ bodies, r.id = m.id

theorem measuredBy_nil (n : Node) : MeasuredBy [] n n :=
  ⟨rfl, rfl, fun _ _ => rfl, by simp⟩

theorem MeasuredBy.cons {r : Body} {bodies : List Body} {m k n : Node} (h : MeasuredBy [r] m k)
    (hk : MeasuredBy bodies k n) : MeasuredBy (r :: bodies) m n where
  id := hk.id.trans h.id
  label := hk.label.trans h.label
  other := fun key hkey => (hk.other key hkey).trans (h.other key hkey)
  measured := by
    rw [hk.measured, h.measured, h.id]
    simp [or_assoc]

theorem measuredBy_set {r : Body} {m : Node} (hr : r.id = m.id) {complexity : Nat}
    (hpos : 1 ≤ complexity) : MeasuredBy [r] m (m.set Key.complexity (.int complexity)) where
  id := rfl
  label := rfl
  other := fun _ hkey => Node.get?_set_of_ne hkey
  measured := ⟨fun _ => .inr ⟨r, List.mem_singleton_self r, hr⟩,
    fun _ => ⟨complexity, hpos, Node.get?_set_self ..⟩⟩

namespace Blocks

theorem one_le_complexityOf (lines : List (List Char)) (r : Body) : 1 ≤ complexityOf lines r := by
  rw [complexityOf]
  induction (bodyLines lines r).map branchesOnLine with
  | nil => exact Nat.le_refl 1
  | cons n ns ih => exact Nat.le_add_left_of_le ih

theorem measuredBy_of_mem_linkCalls {lines : List (List Char)} {r : Body} {n : Node}
    (h : n ∈ (linkCalls lines b r).fragment.nodes) :
    ∃ m ∈ b.fragment.nodes, MeasuredBy [r] m n := by
  rw [linkCalls, Fragment.addEdges_eq_addAll] at h
  obtain ⟨m, hm, rfl⟩ := List.mem_map.mp h
  rw [Fragment.nodes_addAll] at hm
  refine ⟨m, hm, ?_⟩
  split
  case isTrue hid =>
    exact measuredBy_set (beq_iff_eq.mp hid).symm (one_le_complexityOf lines r)
  case isFalse hid =>
    have hne : r.id ≠ m.id := fun heq => hid (beq_iff_eq.mpr heq.symm)
    exact ⟨rfl, rfl, fun _ _ => rfl, by simp [hne]⟩

theorem measuredBy_of_mem_foldl {lines : List (List Char)} {bodies : List Body} {n : Node}
    (h : n ∈ (bodies.foldl (linkCalls lines) b).fragment.nodes) :
    ∃ m ∈ b.fragment.nodes, MeasuredBy bodies m n := by
  induction bodies generalizing b with
  | nil => exact ⟨n, h, measuredBy_nil n⟩
  | cons r bodies ih =>
      obtain ⟨k, hk, hkn⟩ := ih h
      obtain ⟨m, hm, hmk⟩ := measuredBy_of_mem_linkCalls hk
      exact ⟨m, hm, hmk.cons hkn⟩

end Blocks

def bodiesOf (f : SourceFile) : List Body :=
  (Blocks.ofLines f.path (Chars.lines (Utf8.lossy f.bytes))).bodies

/-- Every node of a file has its place and every routine its extent; a routine is measured exactly
if one of its ID has a body. -/
theorem complete_of_mem_analyze {f : SourceFile} {n : Node} (hn : n ∈ (analyze f).nodes) :
    n.Placed f.path ∧ (Label.isCallable n.label = true →
      n.Extended ∧ (n.Measured ↔ ∃ r ∈ bodiesOf f, r.id = n.id)) := by
  obtain ⟨m, hm, hmn⟩ := Blocks.measuredBy_of_mem_foldl hn
  have hrecorded := (Blocks.recording_ofLines f.path _).nodes m hm
  have hunmeasured : ¬m.Measured := by
    rintro ⟨complexity, -, hcomplexity⟩
    rw [hrecorded.unmeasured] at hcomplexity
    cases hcomplexity
  have hplace : ∀ key ∈ Node.placeKeys, key ≠ Key.complexity := by decide
  have hextent : ∀ key ∈ Node.extentKeys, key ≠ Key.complexity := by decide
  refine ⟨hrecorded.placed.of_get?_eq fun key hkey => hmn.other key (hplace key hkey),
    fun hlabel => ⟨?_, ?_⟩⟩
  · rw [hmn.label] at hlabel
    exact (hrecorded.extended hlabel).of_get?_eq fun key hkey => hmn.other key (hextent key hkey)
  · rw [hmn.measured, hmn.id]
    simp only [hunmeasured, false_or]
    rfl

end CodeGraph.Vb

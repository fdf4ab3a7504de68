import CodeGraph.Proofs.Graph.Properties
import CodeGraph.Vb.Calls

/-!
The nodes of a Visual Basic file come from lines that declare them. A line declares a type or a
routine if it has the shape of its first line; the node then has the name and the keyword or the
text of that line, and its line is the number of that line. Whatever is recorded about a node
later, when its block is closed or its calls are linked, leaves this as it is.
-/

namespace CodeGraph.Vb

/-! ### Declaring lines -/

/-- The node is what the line declares: a type under the keyword that introduces it, or a routine
whose signature is the line. -/
inductive DeclaredOn (line : List Char) (n : Node) : Prop where
  | type {m : Pattern.Match} {keyword name : Pattern.Group}
      (hshape : shapeOf? typeStart (strip line) = some m)
      (hkeyword : m.group? 1 = some keyword) (hname : m.group? 2 = some name)
      (hnode : n.name? = some name.string)
      (hkind : n.get? Key.kind = some (.str (Text.lower keyword.string)))
  | routine {m : Pattern.Match} {name : Pattern.Group}
      (hshape : shapeOf? routineStart (strip line) = some m) (hname : m.group? 2 = some name)
      (hnode : n.name? = some name.string)
      (hsignature : n.get? Key.signature = some (.str (String.ofList (Chars.trim line))))

theorem DeclaredOn.shape {line : List Char} {n : Node} (h : DeclaredOn line n) :
    (shapeOf? typeStart (strip line)).isSome ∨ (shapeOf? routineStart (strip line)).isSome := by
  cases h with
  | type hshape => exact .inl (by rw [hshape]; rfl)
  | routine hshape => exact .inr (by rw [hshape]; rfl)

theorem not_declaredOn_nil (n : Node) : ¬ DeclaredOn [] n := by
  intro h
  exact absurd h.shape (by decide +kernel)

/-- The properties that are recorded about a node after its declaration. -/
def laterKeys : List String := [Key.endLine, Key.complexity]

/-- A condition on nodes that does not depend on what is recorded later. -/
def Lasting (P : Node → Prop) : Prop :=
  ∀ n key (count : Nat), key ∈ laterKeys → P n → P (n.set key (.int count))

def declaringKeys : List String := [Key.name, Key.kind, Key.signature]

theorem DeclaredOn.of_get?_eq {line : List Char} {n n' : Node} (h : DeclaredOn line n)
    (hget : ∀ key ∈ declaringKeys, n'.get? key = n.get? key) : DeclaredOn line n' := by
  have hname : n'.name? = n.name? := by rw [Node.name?, hget _ (by decide), Node.name?]
  cases h with
  | type hshape hkeyword hgroup hnode hkind =>
      exact .type hshape hkeyword hgroup (hname.trans hnode) ((hget _ (by decide)).trans hkind)
  | routine hshape hgroup hnode hsignature =>
      exact .routine hshape hgroup (hname.trans hnode) ((hget _ (by decide)).trans hsignature)

theorem lasting_declaredOn (line : List Char) : Lasting (DeclaredOn line) := by
  intro n key count hkey h
  have hother : ∀ key ∈ laterKeys, ∀ key' ∈ declaringKeys, key' ≠ key := by decide
  exact h.of_get?_eq fun key' hkey' => Node.get?_set_of_ne (hother key hkey key' hkey')

theorem lasting_line? (line : Option Nat) : Lasting fun n => n.line? = line := by
  intro n key count hkey h
  have hother : ∀ key ∈ laterKeys, key ≠ Key.line := by decide
  rw [Node.line?_set_of_ne (hother key hkey), h]

/-- The node as a line with a number introduces it, whatever its ID, its label and its file. -/
inductive IntroducedOn (line : List Char) (number : Nat) : Node → Prop where
  | type {m : Pattern.Match} {keyword name : Pattern.Group}
      (hshape : shapeOf? typeStart (strip line) = some m)
      (hkeyword : m.group? 1 = some keyword) (hname : m.group? 2 = some name)
      (id label path : String) :
      IntroducedOn line number ((Node.definition id label name.string path number).set Key.kind
        (.str (Text.lower keyword.string)))
  | routine {m : Pattern.Match} {name : Pattern.Group}
      (hshape : shapeOf? routineStart (strip line) = some m) (hname : m.group? 2 = some name)
      (id label path : String) :
      IntroducedOn line number ((Node.definition id label name.string path number).set
        Key.signature (.str (String.ofList (Chars.trim line))))

namespace IntroducedOn

variable {line : List Char} {number : Nat} {n : Node}

theorem declaredOn (h : IntroducedOn line number n) : DeclaredOn line n := by
  cases h with
  | type hshape hkeyword hname =>
      refine .type hshape hkeyword hname ?_ (Node.get?_set_self ..)
      rw [Node.name?_set_of_ne (by decide), Node.name?_definition]
  | routine hshape hname =>
      refine .routine hshape hname ?_ (Node.get?_set_self ..)
      rw [Node.name?_set_of_ne (by decide), Node.name?_definition]

theorem line? (h : IntroducedOn line number n) : n.line? = some number := by
  cases h <;> rw [Node.line?_set_of_ne (by decide), Node.line?_definition]

end IntroducedOn

/-! ### One line -/

namespace Blocks

variable {P : Node → Prop} {b : Blocks}

def Each (P : Node → Prop) (b : Blocks) : Prop :=
  b.fragment.Each P

theorem Each.close (h : b.Each P) (hP : Lasting P) (id : String) (line : Nat) :
    (b.close id line).Each P :=
  h.setProperty (fun n hn => hP n _ _ (by decide) hn) id

theorem Each.closeType (h : b.Each P) (hP : Lasting P) (index : Nat) :
    (b.closeType index).Each P := by
  unfold Blocks.closeType
  split
  · exact h
  · exact h.close hP _ _

theorem Each.addSupertypes (h : b.Each P) (keyword list : String) :
    (b.addSupertypes keyword list).Each P := by
  unfold Blocks.addSupertypes
  split <;> exact h

theorem Each.openRoutine (h : b.Each P) (hP : Lasting P) {index : Nat} {raw line : List Char}
    {name : String}
    (hnew : ∀ id label, P ((Node.definition id label name b.path (index + 1)).set Key.signature
      (.str (String.ofList (Chars.trim raw))))) :
    (b.openRoutine index raw line name).Each P := by
  have hadded : (b.addRoutine index raw name).Each P := by
    unfold addRoutine
    dsimp only
    split
    · exact (Fragment.Each.addNode h (hnew _ _)).addEdge _ _ _
    · exact Fragment.Each.addNode h (hnew _ _)
  unfold Blocks.openRoutine
  dsimp only
  split
  · exact hadded
  · exact hadded.close hP _ _

/-- A line outside routines adds no node but the one that it introduces. -/
theorem Each.outerLine (h : b.Each P) (hP : Lasting P) {index : Nat} {raw : List Char}
    (hnew : ∀ n, IntroducedOn raw (index + 1) n → P n) :
    (b.outerLine index raw (strip raw)).Each P := by
  unfold Blocks.outerLine
  split
  case h_1 m hshape =>
    split
    case h_1 keyword name hkeyword hname =>
      exact Fragment.Each.addNode h (hnew _ (.type hshape hkeyword hname _ _ _))
    case h_2 => exact h
  case h_2 =>
    split
    · exact h.closeType hP index
    · split
      · split
        · exact h.addSupertypes _ _
        · exact h
      · split
        case h_1 name hname =>
          obtain ⟨m, hshape, hname⟩ := Option.bind_eq_some_iff.mp hname
          exact h.openRoutine hP fun id label => hnew _ (.routine hshape hname _ _ _)
        case h_2 => exact h

theorem Each.step (h : b.Each P) (hP : Lasting P) {index : Nat} {raw : List Char}
    (hnew : ∀ n, IntroducedOn raw (index + 1) n → P n) :
    (b.step raw index).Each P := by
  unfold Blocks.step
  dsimp only
  split
  case h_1 r _ =>
    unfold bodyLine
    split
    · exact h.close hP _ _
    · exact h
  case h_2 => exact h.outerLine hP hnew

/-! ### All lines -/

theorem Each.scan (h : b.Each P) (hP : Lasting P) {lines : List (List Char × Nat)}
    (hnew : ∀ x ∈ lines, ∀ n, IntroducedOn x.1 (x.2 + 1) n → P n) :
    (lines.foldl (fun (b : Blocks) x => b.step x.1 x.2) b).Each P :=
  List.foldlRecOn (motive := Blocks.Each P) _ _ h fun _ h x hx => h.step hP (hnew x hx)

theorem Each.finish (h : b.Each P) (hP : Lasting P) (count : Nat) : (b.finish count).Each P := by
  unfold Blocks.finish
  dsimp only
  refine List.foldlRecOn (motive := Blocks.Each P) _ _ ?_ fun _ h t _ => h.close hP t.id count
  split
  · exact h.close hP _ _
  · exact h

theorem Each.linkCalls (h : b.Each P) (hP : Lasting P) (lines : List (List Char)) (r : Body) :
    (linkCalls lines b r).Each P := by
  unfold Blocks.linkCalls Each
  dsimp only
  rw [Fragment.addEdges_eq_addAll]
  exact (Fragment.Each.addAll h _).setProperty (fun n hn => hP n _ _ (by decide) hn) _

end Blocks

/-- Closing blocks and linking only record more about the nodes that the lines have given. -/
theorem each_fragmentOf_of_scan {P : Node → Prop} (hP : Lasting P) {path : String}
    {lines : List (List Char)}
    (h : (lines.zipIdx.foldl (fun (b : Blocks) x => b.step x.1 x.2) { path }).Each P) :
    (fragmentOf path lines).Each P := by
  have hlinked : (Blocks.ofLines path lines).Each P :=
    List.foldlRecOn (motive := Blocks.Each P) _ _ (h.finish hP _)
      fun _ h s _ => Fragment.Each.addEdge h _ _ _
  exact List.foldlRecOn (motive := Blocks.Each P) _ _ hlinked fun _ h r _ => h.linkCalls hP _ r

/-- What holds for whatever a line introduces holds for all nodes of a file. -/
theorem each_fragmentOf {P : Node → Prop} (hP : Lasting P)
    (hnew : ∀ raw number n, IntroducedOn raw number n → P n) (path : String)
    (lines : List (List Char)) : (fragmentOf path lines).Each P := by
  have hstart : Blocks.Each P { path } := Fragment.each_empty P
  exact each_fragmentOf_of_scan hP (hstart.scan hP fun x _ => hnew x.1 (x.2 + 1))

/-- What holds for the nodes of the first line and for whatever a later line introduces holds for
all nodes of a file. -/
theorem each_fragmentOf_cons {P : Node → Prop} (hP : Lasting P) {path : String}
    {first : List Char} {rest : List (List Char)} (hfirst : (Blocks.step { path } first 0).Each P)
    (hrest : ∀ i raw n, rest[i]? = some raw → IntroducedOn raw (i + 2) n → P n) :
    (fragmentOf path (first :: rest)).Each P := by
  refine each_fragmentOf_of_scan hP ?_
  rw [List.zipIdx_cons, List.foldl_cons]
  refine hfirst.scan hP fun x hx n hnew => ?_
  obtain ⟨raw, number⟩ := x
  obtain ⟨hle, hraw⟩ := List.mem_zipIdx_iff_le_and_getElem?_sub.mp hx
  have hnumber : number + 1 = number - 1 + 2 := by omega
  rw [hnumber] at hnew
  exact hrest _ raw n hraw hnew

end CodeGraph.Vb

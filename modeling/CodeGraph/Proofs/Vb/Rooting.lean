import CodeGraph.Proofs.Vb.Extents

/-!
What belongs to a file in Visual Basic. The ID of every type and routine begins with the path of the
file, since it continues the ID of the innermost open type or else the path, and each edge of the
scan leads from a type to one of its members.
-/

namespace CodeGraph.Vb.Blocks

/-- The open types belong to the file, and every edge leads from a type of the file to one of its
members. -/
structure Rooted (path : String) (b : Blocks) : Prop where
  path_eq : b.path = path
  types : ∀ t ∈ b.types, ∃ rest, t.id = Ident.inFile path rest
  edges : ∀ e ∈ b.fragment.edges,
    ∃ rest name, e.source = Ident.inFile path rest ∧ e.target = Ident.member e.source name

variable {path : String} {b b' : Blocks} {index : Nat}

namespace Rooted

theorem of_eq (h : b.Rooted path) (hpath : b'.path = b.path) (htypes : b'.types ⊆ b.types)
    (hedges : b'.fragment.edges = b.fragment.edges) : b'.Rooted path :=
  ⟨hpath.trans h.path_eq, fun t ht => h.types t (htypes ht), fun e he => h.edges e (hedges ▸ he)⟩

/-! ### IDs -/

theorem typeId (h : b.Rooted path) (name : String) :
    ∃ rest, b.typeId name = Ident.inFile path rest := by
  unfold Blocks.typeId
  split
  case h_1 outer houter =>
    obtain ⟨rest, hrest⟩ := h.types outer (List.mem_of_head? houter)
    exact ⟨rest ++ "." ++ name, by simp only [hrest, Ident.inFile, String.append_assoc]⟩
  case h_2 => exact ⟨name, by rw [h.path_eq]⟩

theorem routineId (h : b.Rooted path) (name : String) :
    ∃ rest, b.routineId name = Ident.inFile path rest := by
  unfold Blocks.routineId
  split
  case h_1 owner howner =>
    obtain ⟨rest, hrest⟩ := h.types owner (List.mem_of_head? howner)
    exact ⟨rest ++ ":" ++ name, by
      simp only [hrest, Ident.member, Ident.inFile, String.append_assoc]⟩
  case h_2 => exact ⟨name, by rw [h.path_eq]⟩

/-! ### Lines -/

theorem openType (h : b.Rooted path) (index : Nat) (keyword name : String) :
    (b.openType index keyword name).Rooted path := by
  refine ⟨h.path_eq, List.forall_mem_cons.mpr ⟨h.typeId name, h.types⟩, ?_⟩
  intro e he
  simp only [Blocks.openType, Fragment.edges_addNode] at he
  exact h.edges e he

theorem addRoutine (h : b.Rooted path) (raw : List Char) (name : String) :
    (b.addRoutine index raw name).Rooted path := by
  refine ⟨by rw [path_addRoutine, h.path_eq], by rw [types_addRoutine]; exact h.types, ?_⟩
  intro e he
  unfold Blocks.addRoutine at he
  dsimp only at he
  split at he
  case h_1 t ht =>
    rcases Fragment.mem_edges_addEdge.mp he with he | rfl
    · rw [Fragment.edges_addNode] at he
      exact h.edges e he
    · obtain ⟨rest, hrest⟩ := h.types t (List.mem_of_head? ht)
      exact ⟨rest, name, hrest, by rw [Blocks.routineId, ht]⟩
  case h_2 =>
    rw [Fragment.edges_addNode] at he
    exact h.edges e he

theorem openRoutine (h : b.Rooted path) (raw line : List Char) (name : String) :
    (b.openRoutine index raw line name).Rooted path := by
  have hadded : (b.addRoutine index raw name).Rooted path := h.addRoutine raw name
  unfold Blocks.openRoutine
  dsimp only
  split
  · exact hadded.of_eq rfl (List.Subset.refl _) rfl
  · exact hadded.of_eq rfl (List.Subset.refl _) rfl

theorem act (h : b.Rooted path) (raw : List Char) (reading : Reading) :
    (b.act index raw reading).Rooted path := by
  cases reading with
  | plain => exact h
  | typeStart keyword name => exact h.openType index keyword name
  | typeEnd =>
      refine h.of_eq ?_ ?_ (edges_closeType b index)
      · unfold Blocks.act closeType
        dsimp only
        split <;> rfl
      · rw [Blocks.act, types_closeType]
        exact List.tail_subset _
  | supertypes keyword list =>
      refine h.of_eq ?_ ?_ ?_
      · unfold Blocks.act addSupertypes
        dsimp only
        split <;> rfl
      · rw [Blocks.act, types_addSupertypes]
        exact List.Subset.refl _
      · rw [Blocks.act, fragment_addSupertypes]
  | routineStart name => exact h.openRoutine raw (strip raw) name
  | routineEnd =>
      have hsame : (b.endRoutine index (index + 1)).path = b.path ∧
          (b.endRoutine index (index + 1)).types = b.types := by
        unfold endRoutine
        split <;> exact ⟨rfl, rfl⟩
      exact h.of_eq hsame.1 (hsame.2 ▸ List.Subset.refl _) (edges_endRoutine b _ _)

theorem start (path : String) : Rooted path { path } :=
  ⟨rfl, by simp, by simp⟩

end Rooted

theorem rooted_of_mem_edges_scanned {lines : List (List Char)} {e : Edge}
    (h : e ∈ (scanned path lines).fragment.edges) :
    ∃ rest name, e.source = Ident.inFile path rest ∧ e.target = Ident.member e.source name := by
  rw [scanned, edges_finish] at h
  have hread : (readFrom { path } 0 lines).Rooted path :=
    readFrom_induction (I := fun _ b => b.Rooted path) (fun _ _ raw hb => hb.act raw _)
      (.start path) lines
  exact hread.edges e h

/-! ### Declarations -/

theorem Rooted.declared? (h : b.Rooted path) {raw : List Char} {rest : List (List Char)}
    {d : Declared} (hd : b.declared? index raw rest = some d) :
    ∃ tail, d.node.id = Ident.inFile path tail := by
  unfold Blocks.declared? at hd
  split at hd
  · cases hd
    exact h.typeId _
  · split at hd <;> cases hd <;> exact h.routineId _
  all_goals cases hd

theorem Rooted.declarationsFrom (h : b.Rooted path) {lines : List (List Char)} {d : Declared}
    (hd : d ∈ b.declarationsFrom index lines) : ∃ tail, d.node.id = Ident.inFile path tail := by
  obtain ⟨_, _, _, _, hrooted, hd⟩ := exists_declared?_of_mem (I := fun _ b => b.Rooted path)
    (fun b index raw h => step_eq_act b raw index ▸ h.act raw _) h hd
  exact hrooted.declared? hd

end CodeGraph.Vb.Blocks

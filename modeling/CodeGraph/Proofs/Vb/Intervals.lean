import CodeGraph.Proofs.Closure.Scripts
import CodeGraph.Proofs.Completeness.Blocks
import CodeGraph.Proofs.Text.Seq
import CodeGraph.Proofs.Vb.Steps

/-!
The lines that belong to routines. A routine is opened and closed on different lines, and none is
opened while another one is open, so the bodies of a file are intervals of its lines that follow one
another. The calls of a file are those on the lines inside these intervals: each comes from a line
strictly between the first and the last line of a routine, under the ID of that routine.
-/

namespace CodeGraph.Vb

/-- The line stands strictly between the first line of a routine and its last one. -/
def Body.Covers (r : Body) (i : Nat) : Prop :=
  r.start < i ∧ i < r.stop

instance (r : Body) (i : Nat) : Decidable (r.Covers i) :=
  inferInstanceAs (Decidable (_ ∧ _))

namespace Blocks

variable {b : Blocks} {index : Nat}

/-! ### Bodies -/

/-- The bodies found in front of the line at `index` follow one another, and the open routine
starts behind all of them. -/
structure Spaced (index : Nat) (b : Blocks) : Prop where
  start_lt : ∀ r ∈ b.bodies, r.start < r.stop
  stop_lt : ∀ r ∈ b.bodies, r.stop < index
  apart : b.bodies.Pairwise fun r r' => r.stop ≤ r'.start
  opened : ∀ r ∈ b.routine, r.start < index ∧ ∀ r' ∈ b.bodies, r'.stop ≤ r.start

namespace Spaced

theorem of_eq {b' : Blocks} (h : b.Spaced index) (hbodies : b'.bodies = b.bodies)
    (hroutine : b'.routine = b.routine) : b'.Spaced (index + 1) := by
  refine ⟨?_, ?_, ?_, ?_⟩
  · rw [hbodies]
    exact h.start_lt
  · rw [hbodies]
    exact fun r hr => Nat.lt_succ_of_lt (h.stop_lt r hr)
  · rw [hbodies]
    exact h.apart
  · rw [hbodies, hroutine]
    exact fun r hr => ⟨Nat.lt_succ_of_lt (h.opened r hr).1, (h.opened r hr).2⟩

theorem openRoutine (h : b.Spaced index) (raw line : List Char) (name : String) :
    (b.openRoutine index raw line name).Spaced (index + 1) := by
  by_cases hbody : b.startsBody line = true
  · refine ⟨?_, ?_, ?_, ?_⟩
    · simpa using h.start_lt
    · simpa using fun r hr => Nat.lt_succ_of_lt (h.stop_lt r hr)
    · simpa using h.apart
    · intro r hr
      obtain rfl : b.opened index name = r := by simpa [hbody] using hr
      refine ⟨Nat.lt_succ_self index, fun r' hr' => ?_⟩
      rw [bodies_openRoutine] at hr'
      exact Nat.le_of_lt (h.stop_lt r' hr')
  · exact h.of_eq (by simp) (by simp [hbody])

/-- Closing the open routine at a line that is not in front of `index`. -/
theorem endRoutine (h : b.Spaced index) {stop : Nat} (hstop : index ≤ stop) (line : Nat) :
    (b.endRoutine stop line).Spaced (stop + 1) := by
  unfold Blocks.endRoutine
  cases hr : b.routine with
  | none =>
      refine ⟨h.start_lt, fun r hmem => ?_, h.apart, by simp [hr]⟩
      have hlt := h.stop_lt r hmem
      omega
  | some r =>
      obtain ⟨hstart, hbehind⟩ := h.opened r hr
      refine ⟨fun r' hr' => ?_, fun r' hr' => ?_, ?_, by simp⟩
      · rcases List.mem_append.mp hr' with hr' | hr'
        · exact h.start_lt r' hr'
        · obtain rfl := List.mem_singleton.mp hr'
          show r.start < stop
          omega
      · rcases List.mem_append.mp hr' with hr' | hr'
        · have hlt := h.stop_lt r' hr'
          omega
        · obtain rfl := List.mem_singleton.mp hr'
          exact Nat.lt_succ_self stop
      · refine List.pairwise_append.mpr
          ⟨h.apart, List.pairwise_singleton _ _, fun r' hr' s hs => ?_⟩
        obtain rfl := List.mem_singleton.mp hs
        exact hbehind r' hr'

/-- A line keeps the bodies apart. -/
theorem act (h : b.Spaced index) (raw : List Char) (reading : Reading) :
    (b.act index raw reading).Spaced (index + 1) := by
  cases reading with
  | plain => exact h.of_eq rfl rfl
  | typeStart keyword name => exact h.of_eq rfl rfl
  | typeEnd => exact h.of_eq (by simp [Blocks.act]) (by simp [Blocks.act])
  | supertypes keyword list => exact h.of_eq (by simp [Blocks.act]) (by simp [Blocks.act])
  | routineStart name => exact h.openRoutine raw (strip raw) name
  | routineEnd => exact h.endRoutine (Nat.le_refl index) (index + 1)

end Spaced

/-- All lines keep the bodies apart, and so does the end of the file. -/
theorem spaced_scanned (path : String) (lines : List (List Char)) :
    (∀ r ∈ (scanned path lines).bodies, r.start < r.stop ∧ r.stop ≤ lines.length) ∧
      (scanned path lines).bodies.Pairwise fun r r' => r.stop ≤ r'.start := by
  have hstart : Spaced 0 { path } := by constructor <;> simp
  have hread : (readFrom { path } 0 lines).Spaced (0 + lines.length) :=
    readFrom_induction (fun _ _ raw h => h.act raw _) hstart lines
  rw [Nat.zero_add] at hread
  have hended := hread.endRoutine (Nat.le_refl _) lines.length
  rw [scanned, bodies_finish]
  exact ⟨fun r hr => ⟨hended.start_lt r hr, Nat.le_of_lt_succ (hended.stop_lt r hr)⟩, hended.apart⟩

theorem bodies_ofLines (path : String) (lines : List (List Char)) :
    (ofLines path lines).bodies = (scanned path lines).bodies := by
  rw [ofLines_eq]
  exact List.foldlRecOn (motive := fun b : Blocks => b.bodies = (scanned path lines).bodies) _ _ rfl
    fun _ h _ _ => h

/-- A line lies in at most one body. -/
theorem length_filter_covers_le {bodies : List Body}
    (h : bodies.Pairwise fun r r' => r.stop ≤ r'.start) (i : Nat) :
    (bodies.filter (·.Covers i)).length ≤ 1 := by
  induction bodies with
  | nil => simp
  | cons r bodies ih =>
      obtain ⟨hr, hrest⟩ := List.pairwise_cons.mp h
      rw [List.filter_cons]
      split
      case isFalse => exact ih hrest
      case isTrue hcovers =>
        -- The other bodies start where this one has ended.
        have hnone : bodies.filter (·.Covers i) = [] := by
          refine List.filter_eq_nil_iff.mpr fun r' hr' hcovers' => ?_
          obtain ⟨-, hstop⟩ := of_decide_eq_true hcovers
          obtain ⟨hstart, -⟩ := of_decide_eq_true hcovers'
          have hapart := hr r' hr'
          omega
        rw [hnone]
        rfl

theorem mem_bodyLines {lines : List (List Char)} {r : Body} {line : List Char} :
    line ∈ bodyLines lines r ↔ ∃ i raw, r.Covers i ∧ lines[i]? = some raw ∧ line = strip raw := by
  rw [bodyLines, List.mem_map]
  constructor
  · rintro ⟨raw, hmem, rfl⟩
    obtain ⟨k, hk⟩ := List.mem_iff_getElem?.mp hmem
    rw [Seq.getElem?_slice] at hk
    obtain ⟨hlt, hraw⟩ := Option.ite_none_right_eq_some.mp hk
    exact ⟨r.start + 1 + k, raw, ⟨by omega, by omega⟩, hraw, rfl⟩
  · rintro ⟨i, raw, ⟨hstart, hstop⟩, hraw, rfl⟩
    refine ⟨raw, List.mem_iff_getElem?.mpr ⟨i - (r.start + 1), ?_⟩, rfl⟩
    have hi : r.start + 1 + (i - (r.start + 1)) = i := by omega
    rw [Seq.getElem?_slice, if_pos (by omega), hi, hraw]

/-! ### Edges -/

theorem mem_edges_addRoutine {raw : List Char} {name : String} {e : Edge}
    (h : e ∈ (b.addRoutine index raw name).fragment.edges) :
    e ∈ b.fragment.edges ∨ e.relation = Relation.hasMethod := by
  unfold addRoutine at h
  dsimp only at h
  split at h
  · rcases Fragment.mem_edges_addEdge.mp h with h | rfl
    · rw [Fragment.edges_addNode] at h
      exact .inl h
    · exact .inr rfl
  · rw [Fragment.edges_addNode] at h
    exact .inl h

theorem mem_edges_openRoutine {raw line : List Char} {name : String} {e : Edge}
    (h : e ∈ (b.openRoutine index raw line name).fragment.edges) :
    e ∈ b.fragment.edges ∨ e.relation = Relation.hasMethod := by
  unfold openRoutine at h
  dsimp only at h
  split at h <;> exact mem_edges_addRoutine h

theorem edges_closeType (b : Blocks) (index : Nat) :
    (b.closeType index).fragment.edges = b.fragment.edges := by
  unfold closeType
  split <;> rfl

theorem edges_endRoutine (b : Blocks) (stop line : Nat) :
    (b.endRoutine stop line).fragment.edges = b.fragment.edges := by
  unfold endRoutine
  split <;> rfl

/-- A line adds no edge but that to a routine of a type. -/
theorem mem_edges_act {raw : List Char} {reading : Reading} {e : Edge}
    (h : e ∈ (b.act index raw reading).fragment.edges) :
    e ∈ b.fragment.edges ∨ e.relation = Relation.hasMethod := by
  cases reading with
  | plain => exact .inl h
  | typeStart keyword name =>
      simp only [act, openType, Fragment.edges_addNode] at h
      exact .inl h
  | typeEnd => exact .inl (edges_closeType b index ▸ h)
  | supertypes keyword list =>
      simp only [act, fragment_addSupertypes] at h
      exact .inl h
  | routineStart name => exact mem_edges_openRoutine h
  | routineEnd => exact .inl (edges_endRoutine b _ _ ▸ h)

theorem relation_of_mem_edges_scanned {path : String} {lines : List (List Char)} {e : Edge}
    (h : e ∈ (scanned path lines).fragment.edges) : e.relation = Relation.hasMethod := by
  rw [scanned, edges_finish] at h
  refine readFrom_induction
    (I := fun _ b => ∀ e ∈ b.fragment.edges, e.relation = Relation.hasMethod)
    (fun b index raw hb e he => ?_) (by simp) lines e h
  rcases mem_edges_act he with he | hmethod
  · exact hb e he
  · exact hmethod

theorem closed_scanned (path : String) (lines : List (List Char)) :
    (scanned path lines).Closed := by
  have hstart : Closed { path } := by
    refine ⟨Fragment.closed_empty, ?_, ?_, ?_⟩ <;> simp
  have hread : (readFrom { path } 0 lines).Closed :=
    readFrom_induction (I := fun _ b => b.Closed)
      (fun b index raw h => step_eq_act b raw index ▸ h.step raw index) hstart lines
  exact hread.finish lines.length

theorem relation_of_mem_edges_ofLines {path : String} {lines : List (List Char)} {e : Edge}
    (h : e ∈ (ofLines path lines).fragment.edges) : e.relation ≠ Relation.calls := by
  rw [ofLines_eq] at h
  refine List.foldlRecOn (motive := fun b : Blocks => ∀ e ∈ b.fragment.edges,
    e.relation ≠ Relation.calls) _ _ (fun e he => ?_) (fun b hb s hs e he => ?_) e h
  · rw [relation_of_mem_edges_scanned he]
    decide
  · rcases Fragment.mem_edges_addEdge.mp he with he | rfl
    · exact hb e he
    · have hother : ∀ relation ∈ Relation.supertyping, relation ≠ Relation.calls := by decide
      exact hother _ ((closed_scanned path lines).supertypes s hs)

theorem mem_edges_linkCalls {lines : List (List Char)} {r : Body} {e : Edge} :
    e ∈ (linkCalls lines b r).fragment.edges ↔ e ∈ b.fragment.edges ∨
      ∃ line ∈ bodyLines lines r, ∃ c ∈ callsOnLine line (localsOf lines r),
        e = ⟨r.id, b.resolveCall r.owner c.name, Relation.calls⟩ := by
  simp only [linkCalls, Fragment.edges_setProperty, Fragment.addEdges_eq_addAll,
    Fragment.mem_edges_addAll, List.map_map, List.mem_map, List.mem_flatMap, Function.comp_apply]
  refine or_congr_right ⟨?_, ?_⟩
  · rintro ⟨c, ⟨line, hline, hc⟩, rfl⟩
    exact ⟨line, hline, c, hc, rfl⟩
  · rintro ⟨line, hline, c, hc, rfl⟩
    exact ⟨c, ⟨line, hline, hc⟩, rfl⟩

/-- Linking all bodies: names are resolved as before the first of them was linked. -/
theorem mem_edges_foldl_linkCalls (b : Blocks) (lines : List (List Char)) (bodies : List Body)
    {e : Edge} :
    e ∈ (bodies.foldl (linkCalls lines) b).fragment.edges ↔ e ∈ b.fragment.edges ∨
      ∃ r ∈ bodies, ∃ line ∈ bodyLines lines r, ∃ c ∈ callsOnLine line (localsOf lines r),
        e = ⟨r.id, b.resolveCall r.owner c.name, Relation.calls⟩ := by
  induction bodies generalizing b with
  | nil => simp
  | cons r bodies ih =>
      have hresolve : (linkCalls lines b r).resolveCall = b.resolveCall := rfl
      rw [List.foldl_cons, ih, mem_edges_linkCalls, hresolve, or_assoc]
      simp only [List.mem_cons, or_and_right, exists_or, exists_eq_left]

end Blocks

/-- The bodies of a file lie inside it and follow one another, so that a line belongs to at most one
of them and every line that is read for a body exists. The calls of the file are exactly those on
the lines inside the bodies, each from the routine that the line belongs to. -/
theorem calls_lie_in_separate_bodies (f : SourceFile) :
    let lines := Chars.lines (Utf8.lossy f.bytes)
    (∀ r ∈ bodiesOf f, r.start < lines.length ∧ r.start < r.stop ∧ r.stop ≤ lines.length) ∧
      (bodiesOf f).Pairwise (fun r r' => r.stop ≤ r'.start) ∧
      (∀ i, ((bodiesOf f).filter (·.Covers i)).length ≤ 1) ∧
      (∀ r ∈ bodiesOf f, (∃ header, lines[r.start]? = some header) ∧
        r.start + 1 ≤ max r.stop (r.start + 1) ∧ max r.stop (r.start + 1) ≤ lines.length ∧
        (Blocks.bodyLines lines r).length = r.stop - (r.start + 1)) ∧
      ∀ e, e ∈ (analyze f).edgesOf Relation.calls ↔
        ∃ r ∈ bodiesOf f, ∃ i raw, r.Covers i ∧ lines[i]? = some raw ∧
          ∃ c ∈ callsOnLine (strip raw) (Blocks.localsOf lines r),
            e = ⟨r.id, (Blocks.ofLines f.path lines).resolveCall r.owner c.name,
              Relation.calls⟩ := by
  intro lines
  obtain ⟨hbounds, hapart⟩ := Blocks.spaced_scanned f.path lines
  rw [← Blocks.bodies_ofLines] at hbounds hapart
  refine ⟨fun r hr => ?_, hapart, Blocks.length_filter_covers_le hapart, fun r hr => ?_,
    fun e => ?_⟩
  · obtain ⟨hlt, hle⟩ := hbounds r hr
    exact ⟨by omega, hlt, hle⟩
  · obtain ⟨hlt, hle⟩ := hbounds r hr
    have hmax : max r.stop (r.start + 1) = r.stop := Nat.max_eq_left hlt
    refine ⟨⟨_, List.getElem?_eq_getElem (by omega)⟩, Nat.le_max_right _ _, ?_, ?_⟩
    · rwa [hmax]
    · rw [Blocks.bodyLines, List.length_map, hmax, Seq.length_slice hle]
  · have hedges : e ∈ (analyze f).edges ↔ _ :=
      Blocks.mem_edges_foldl_linkCalls (Blocks.ofLines f.path lines) lines (bodiesOf f)
    rw [Fragment.edgesOf, List.mem_filter, hedges, beq_iff_eq]
    constructor
    · rintro ⟨he | ⟨r, hr, line, hline, c, hc, rfl⟩, hcalls⟩
      · exact absurd hcalls (Blocks.relation_of_mem_edges_ofLines he)
      · obtain ⟨i, raw, hcovers, hraw, rfl⟩ := Blocks.mem_bodyLines.mp hline
        exact ⟨r, hr, i, raw, hcovers, hraw, c, hc, rfl⟩
    · rintro ⟨r, hr, i, raw, hcovers, hraw, c, hc, rfl⟩
      have hline := Blocks.mem_bodyLines.mpr ⟨i, raw, hcovers, hraw, rfl⟩
      exact ⟨.inr ⟨r, hr, strip raw, hline, c, hc, rfl⟩, rfl⟩

/-- A file with a call between two routines, the second of which is not closed. -/
def openEndedFile : SourceFile :=
  ⟨"a.vb", Utf8.encode "Sub A()\nB()\nEnd Sub\nC()\nSub D()\nE()".toList⟩

theorem openEndedFile_calls :
    bodiesOf openEndedFile = [⟨"a.vb:A", none, 0, 2⟩, ⟨"a.vb:D", none, 4, 6⟩] ∧
      ⟨"a.vb:D", "UNKNOWN:E", Relation.calls⟩ ∈ (analyze openEndedFile).edgesOf Relation.calls ∧
      ∀ e ∈ (analyze openEndedFile).edgesOf Relation.calls, e.source ∈ ["a.vb:A", "a.vb:D"] := by
  have hbodies : bodiesOf openEndedFile = [⟨"a.vb:A", none, 0, 2⟩, ⟨"a.vb:D", none, 4, 6⟩] := by
    decide +kernel
  obtain ⟨-, -, -, -, hcalls⟩ := calls_lie_in_separate_bodies openEndedFile
  refine ⟨hbodies, (hcalls _).mpr ?_, fun e he => ?_⟩
  · refine ⟨⟨"a.vb:D", none, 4, 6⟩, by simp [hbodies], 5, "E()".toList, by decide, ?_,
      ⟨0, "E"⟩, ?_, ?_⟩ <;> decide +kernel
  · obtain ⟨r, hr, -, -, -, -, -, -, rfl⟩ := (hcalls e).mp he
    have hids : ∀ r ∈ bodiesOf openEndedFile, r.id ∈ ["a.vb:A", "a.vb:D"] := by
      rw [hbodies]
      decide
    exact hids r hr

end CodeGraph.Vb

import CodeGraph.Proofs.Closure.Scripts
import CodeGraph.Proofs.Completeness.Nodes
import CodeGraph.Proofs.Graph.Occurrences
import Mathlib.Data.List.Pairwise

/-!
Where the definitions of a script lie. Each begins behind the one before it and ends where the next
one begins, so that from the first definition on they cover the text. A header can run past the end
of its definition only if it is that of a trigger with its table, and exactly then the script has
no fragment; otherwise the lines of each definition end before the next one begins.
-/

namespace CodeGraph.Sql

open Pattern

/-! ### Closing each definition -/

/-- A trigger whose header includes the table that fires it. -/
def Definition.WatchesTable (d : Definition) : Prop :=
  d.kind = .trigger ∧ d.watched.isSome = true

/-- The first definition begins before the second, and so does all of its header unless that
includes a table. -/
def Definition.Precedes (d e : Definition) : Prop :=
  d.start < e.start ∧ (¬ d.WatchesTable → d.headerEnd ≤ e.start)

section

variable {ds : List Definition} {d e : Definition}

theorem mem_closeEach (h : d ∈ closeEach ds) :
    ∃ d' ∈ ds, ∃ stop, d = { d' with stop := stop } := by
  fun_induction closeEach ds with
  | case1 => cases h
  | case2 d' => exact ⟨d', List.mem_singleton_self d', d'.stop, List.mem_singleton.mp h⟩
  | case3 d' e ds ih =>
      rcases List.mem_cons.mp h with rfl | h
      · exact ⟨d', List.mem_cons_self, e.start, rfl⟩
      · obtain ⟨found, hfound, stop, rfl⟩ := ih h
        exact ⟨found, List.mem_cons_of_mem d' hfound, stop, rfl⟩

theorem pairwise_closeEach (h : ds.Pairwise Definition.Precedes) :
    (closeEach ds).Pairwise Definition.Precedes := by
  fun_induction closeEach ds with
  | case1 => exact .nil
  | case2 d => exact h
  | case3 d e ds ih =>
      obtain ⟨hd, hrest⟩ := List.pairwise_cons.mp h
      refine List.Pairwise.cons (fun x hx => ?_) (ih hrest)
      obtain ⟨found, hfound, stop, rfl⟩ := mem_closeEach hx
      exact hd found hfound

theorem head?_closeEach (ds : List Definition) :
    (closeEach ds).head?.map Definition.start = ds.head?.map Definition.start := by
  fun_cases closeEach ds <;> rfl

/-- A definition that another one follows ends where that begins. -/
theorem stop_eq_of_infix_closeEach (h : [d, e] <:+: closeEach ds) : d.stop = e.start := by
  fun_induction closeEach ds with
  | case1 => cases List.infix_nil.mp h
  | case2 d' =>
      have hlength := h.length_le
      simp at hlength
  | case3 d' e' ds ih =>
      rcases List.infix_cons_iff.mp h with ⟨rest, hrest⟩ | h
      · obtain ⟨rfl, htail⟩ := List.cons.inj hrest
        have hhead := head?_closeEach (e' :: ds)
        rw [← htail] at hhead
        exact (Option.some.inj hhead).symm
      · exact ih h

theorem stop_eq_of_getLast?_closeEach {length : Nat} (hstop : ∀ d ∈ ds, d.stop = length)
    (h : (closeEach ds).getLast? = some d) : d.stop = length := by
  fun_induction closeEach ds with
  | case1 => cases h
  | case2 d' =>
      obtain rfl := Option.some.inj h
      exact hstop d' List.mem_cons_self
  | case3 d' e ds ih =>
      have hne : closeEach (e :: ds) ≠ [] := by
        intro hnil
        have hhead := head?_closeEach (e :: ds)
        rw [hnil] at hhead
        cases hhead
      rw [List.getLast?_cons_of_ne_nil hne] at h
      exact ih (fun x hx => hstop x (List.mem_cons_of_mem d' hx)) h

/-- The definitions cover the text from the first one on. -/
theorem flatMap_slice_closeEach {text : List Char}
    (hds : (d :: ds).Pairwise Definition.Precedes) (hstop : ∀ x ∈ d :: ds, x.stop = text.length) :
    (closeEach (d :: ds)).flatMap (fun d => Seq.slice text d.start d.stop) =
      text.drop d.start := by
  induction ds generalizing d with
  | nil =>
      rw [closeEach, List.flatMap_singleton, hstop d List.mem_cons_self, Seq.slice_length]
  | cons e ds ih =>
      obtain ⟨hd, hrest⟩ := List.pairwise_cons.mp hds
      have hlt : d.start < e.start := (hd e List.mem_cons_self).1
      rw [closeEach, List.flatMap_cons, ih hrest fun x hx => hstop x (List.mem_cons_of_mem d hx)]
      exact Seq.slice_append_drop text (Nat.le_of_lt hlt)

end

/-! ### Reading definitions -/

section

variable {text : List Char} {d e : Definition}

theorem length_symbolsOf (text : List Char) : (symbolsOf text).length = text.length :=
  List.length_map _

/-- The table of a trigger ends inside the text. -/
theorem triggerTarget?_le {n headerEnd : Nat} {watched : String} (hn : n ≤ text.length)
    (h : triggerTarget? text n = some (headerEnd, watched)) : headerEnd ≤ text.length := by
  unfold triggerTarget? at h
  split at h
  case h_1 => cases h
  case h_2 m hm =>
    obtain ⟨g, hg, heq⟩ := Option.map_eq_some_iff.mp h
    obtain ⟨before, rest, last, hsplit, hhere⟩ := exists_here?_of_firstFrom? hm
    obtain ⟨-, -, hstop, hgroups⟩ := bounds_of_here? hhere
    have hgroup : g.stop ≤ m.stop := hgroups g (List.mem_reverse.mp (List.mem_of_find?_eq_some hg))
    have hlength : before.length + rest.length = text.length - n := by
      rw [← List.length_append, ← hsplit, length_symbolsOf, List.length_drop]
    obtain rfl : n + g.stop = headerEnd := congrArg Prod.fst heq
    omega

/-- What is read from a match: the definition begins there, and its header ends there unless it is
that of a trigger with its table. -/
theorem ofMatch?_eq_some {m : Match} (h : ofMatch? text m = some d) (hm : m.stop ≤ text.length) :
    d.start = m.start ∧ d.stop = text.length ∧ d.headerEnd ≤ text.length ∧
      (d.headerEnd = m.stop ∨ d.WatchesTable) := by
  unfold ofMatch? at h
  split at h
  case h_2 => cases h
  case h_1 =>
    split at h
    case h_1 => cases h
    case h_2 kind hkind =>
      dsimp only at h
      split at h
      case h_2 =>
        cases h
        exact ⟨rfl, rfl, hm, .inl rfl⟩
      case h_1 headerEnd watched htarget =>
        cases h
        split_ifs at htarget with htrigger
        exact ⟨rfl, rfl, triggerTarget?_le hm htarget, .inr ⟨beq_iff_eq.mp htrigger, rfl⟩⟩

def openDefinitions (text : List Char) : List Definition :=
  (definitionPattern.all (symbolsOf text)).filterMap (ofMatch? text)

theorem bounds_of_mem_all {m : Match} (h : m ∈ definitionPattern.all (symbolsOf text)) :
    m.start ≤ m.stop ∧ m.stop ≤ text.length := by
  obtain ⟨before, rest, last, hsplit, -, hhere⟩ := exists_here?_of_mem_allFrom h
  obtain ⟨-, horder, hstop, -⟩ := bounds_of_here? hhere
  have hlength : before.length + rest.length = text.length := by
    rw [← List.length_append, ← hsplit, length_symbolsOf]
  omega

theorem bounds_of_mem_openDefinitions (h : d ∈ openDefinitions text) :
    d.stop = text.length ∧ d.start ≤ text.length ∧ d.headerEnd ≤ text.length := by
  obtain ⟨m, hm, hd⟩ := List.mem_filterMap.mp h
  obtain ⟨horder, hm⟩ := bounds_of_mem_all hm
  obtain ⟨hstart, hstop, hheader, -⟩ := ofMatch?_eq_some hd hm
  exact ⟨hstop, by omega, hheader⟩

theorem pairwise_openDefinitions (text : List Char) :
    (openDefinitions text).Pairwise Definition.Precedes := by
  have hmatches : (definitionPattern.all (symbolsOf text)).Pairwise fun m m' =>
      m.start < m'.start ∧ m.stop ≤ m'.start :=
    (pairwise_start_allFrom _ _ _ _ _).and (pairwise_all _ _)
  rw [openDefinitions, List.pairwise_filterMap]
  refine List.Pairwise.imp_of_mem (fun {m m'} hm hm' hmm' d hd d' hd' => ?_) hmatches
  obtain ⟨hstart, -, -, hheader⟩ := ofMatch?_eq_some hd (bounds_of_mem_all hm).2
  obtain ⟨hstart', -⟩ := ofMatch?_eq_some hd' (bounds_of_mem_all hm').2
  refine ⟨by omega, fun hwatches => ?_⟩
  have hend : d.headerEnd = m.stop := hheader.resolve_right hwatches
  omega

theorem definitions_eq (text : List Char) : definitions text = closeEach (openDefinitions text) :=
  rfl

end

/-! ### The spans of a text -/

/-- The spans of definitions follow one another and cover the text from the first one on, and they
include the headers of all but triggers with a table. -/
structure Spans (text : List Char) (ds : List Definition) : Prop where
  increasing : ds.Pairwise fun d e => d.start < e.start
  stop_of_next : ∀ d e, [d, e] <:+: ds → d.stop = e.start
  stop_of_last : ∀ d, ds.getLast? = some d → d.stop = text.length
  cover : ∀ d, ds.head? = some d →
    ds.flatMap (fun d => Seq.slice text d.start d.stop) = text.drop d.start
  headerEnd_le : ∀ d ∈ ds, ¬ d.WatchesTable → d.headerEnd ≤ d.stop

section

variable {text : List Char} {d e : Definition}

theorem pairwise_definitions (text : List Char) :
    (definitions text).Pairwise Definition.Precedes :=
  pairwise_closeEach (pairwise_openDefinitions text)

/-- Each definition is the last one or has one behind it. -/
theorem next_or_last {α : Type} {x : α} {xs : List α} (h : x ∈ xs) :
    (∃ y, [x, y] <:+: xs) ∨ xs.getLast? = some x := by
  obtain ⟨before, after, rfl⟩ := List.append_of_mem h
  cases after with
  | nil => exact .inr (by simp)
  | cons y after => exact .inl ⟨y, before, after, by simp⟩

theorem le_length_of_mem_definitions (h : d ∈ definitions text) :
    d.start ≤ text.length ∧ d.headerEnd ≤ text.length := by
  obtain ⟨d', hd', stop, rfl⟩ := mem_closeEach h
  exact (bounds_of_mem_openDefinitions hd').2

theorem precedes_of_adjacent (h : [d, e] <:+: definitions text) : d.Precedes e :=
  List.pairwise_pair.mp ((pairwise_definitions text).sublist h.sublist)

theorem stop_eq_of_getLast? (h : (definitions text).getLast? = some d) : d.stop = text.length :=
  stop_eq_of_getLast?_closeEach (fun _ hd => (bounds_of_mem_openDefinitions hd).1) h

theorem cover_definitions (h : (definitions text).head? = some d) :
    (definitions text).flatMap (fun d => Seq.slice text d.start d.stop) = text.drop d.start := by
  have hstart := head?_closeEach (openDefinitions text)
  have hpairwise := pairwise_openDefinitions text
  have hstop : ∀ d ∈ openDefinitions text, d.stop = text.length :=
    fun _ hd => (bounds_of_mem_openDefinitions hd).1
  rw [definitions_eq] at h ⊢
  cases hopen : openDefinitions text with
  | nil =>
      rw [hopen] at h
      cases h
  | cons d' ds =>
      rw [hopen] at h hstart hpairwise hstop
      rw [h] at hstart
      rw [flatMap_slice_closeEach hpairwise hstop]
      exact congrArg text.drop (Option.some.inj hstart).symm

theorem spans_definitions (text : List Char) : Spans text (definitions text) where
  increasing := (pairwise_definitions text).imp fun h => h.1
  stop_of_next := fun _ _ => stop_eq_of_infix_closeEach
  stop_of_last := fun _ => stop_eq_of_getLast?
  cover := fun _ => cover_definitions
  headerEnd_le := fun d hd hwatches => by
    rcases next_or_last hd with ⟨e, he⟩ | hlast
    · rw [stop_eq_of_infix_closeEach he]
      exact (precedes_of_adjacent he).2 hwatches
    · rw [stop_eq_of_getLast? hlast]
      exact (le_length_of_mem_definitions hd).2

theorem start_le_stop (h : d ∈ definitions text) : d.start ≤ d.stop := by
  rcases next_or_last h with ⟨e, he⟩ | hlast
  · rw [stop_eq_of_infix_closeEach he]
    exact Nat.le_of_lt (precedes_of_adjacent he).1
  · rw [stop_eq_of_getLast? hlast]
    exact (le_length_of_mem_definitions h).1

end

/-! ### Crashes -/

/-- The table of a trigger ends behind the beginning of the next definition. -/
def Overrun (text : List Char) : Prop :=
  ∃ d e, [d, e] <:+: definitions text ∧ d.WatchesTable ∧ e.start < d.headerEnd

theorem isSome_mapM_iff {α β : Type} {f : α → Option β} {xs : List α} :
    (xs.mapM f).isSome ↔ ∀ x ∈ xs, (f x).isSome := by
  induction xs with
  | nil => simp
  | cons x xs ih =>
      rw [List.mapM_cons, List.forall_mem_cons, ← ih]
      cases f x <;> cases xs.mapM f <;> simp

section

variable {path : String} {text : List Char} {names : Names} {d : Definition}

theorem isSome_body?_iff (text : List Char) (d : Definition) :
    (body? text d).isSome ↔ d.headerEnd ≤ d.stop := by
  rw [body?]
  split <;> simp_all

theorem isSome_node?_iff :
    (node? path text d).isSome ↔ (d.kind.isRoutine = true → d.headerEnd ≤ d.stop) := by
  rw [← isSome_body?_iff text, node?]
  split <;> simp_all

theorem isSome_edges?_iff :
    (edges? path text names d).isSome ↔ (d.kind ≠ .table → d.headerEnd ≤ d.stop) := by
  rw [← isSome_body?_iff text, edges?]
  split <;> simp_all

/-- A text has a fragment exactly if no header runs past the end of its definition. -/
theorem isSome_fragment?_iff :
    (fragment? path text).isSome ↔ ∀ d ∈ definitions text, d.headerEnd ≤ d.stop := by
  have hparts : (fragment? path text).isSome ↔
      ((definitions text).mapM (node? path text)).isSome ∧
        ((definitions text).mapM
          (edges? path text (Names.ofDefinitions path (definitions text)))).isSome := by
    rw [fragment?]
    dsimp only
    cases (definitions text).mapM (node? path text) <;>
      cases (definitions text).mapM
        (edges? path text (Names.ofDefinitions path (definitions text))) <;> simp
  simp only [hparts, isSome_mapM_iff, isSome_node?_iff, isSome_edges?_iff]
  constructor
  · rintro ⟨-, hedges⟩ d hd
    by_cases hkind : d.kind = .table
    · refine (spans_definitions text).headerEnd_le d hd fun hwatches => ?_
      rw [hwatches.1] at hkind
      cases hkind
    · exact hedges d hd hkind
  · intro h
    exact ⟨fun d hd _ => h d hd, fun d hd _ => h d hd⟩

theorem overrun_iff : Overrun text ↔ ∃ d ∈ definitions text, d.stop < d.headerEnd := by
  constructor
  · rintro ⟨d, e, hde, -, hoverrun⟩
    refine ⟨d, hde.subset List.mem_cons_self, ?_⟩
    rwa [stop_eq_of_infix_closeEach hde]
  · rintro ⟨d, hd, hoverrun⟩
    have hwatches : d.WatchesTable := by
      by_contra hwatches
      exact Nat.not_le_of_lt hoverrun ((spans_definitions text).headerEnd_le d hd hwatches)
    rcases next_or_last hd with ⟨e, he⟩ | hlast
    · rw [stop_eq_of_infix_closeEach he] at hoverrun
      exact ⟨d, e, he, hwatches, hoverrun⟩
    · -- The last definition ends with the text, and no header ends behind that.
      rw [stop_eq_of_getLast? hlast] at hoverrun
      exact absurd hoverrun (Nat.not_lt_of_le (le_length_of_mem_definitions hd).2)

theorem fragment?_eq_none_iff (path : String) (text : List Char) :
    fragment? path text = none ↔ Overrun text := by
  rw [overrun_iff, ← Option.not_isSome_iff_eq_none, isSome_fragment?_iff]
  simp only [not_forall, Nat.not_le, exists_prop]

theorem analyze_eq_crash_iff {bytes : List UInt8} :
    analyze ⟨path, bytes⟩ = .error .crash ↔ Overrun (Utf8.lossy (masked bytes)) := by
  rw [← fragment?_eq_none_iff path, analyze]
  split <;> simp_all

/-- The nodes of a fragment are those of the definitions, of each ID the first. -/
theorem exists_nodes_of_fragment? {f : Fragment} (h : fragment? path text = some f) :
    ∃ nodes : List Node, (definitions text).map (node? path text) = nodes.map some ∧
      f.nodes = nodes.eraseDupsBy Fragment.sameId := by
  unfold fragment? at h
  dsimp only at h
  split at h
  case h_2 => cases h
  case h_1 nodes edges hnodes hedges =>
    cases h
    refine ⟨nodes, mapM_eq_some_iff.mp hnodes, ?_⟩
    rw [← Fragment.nodes_foldl_addNode]
    exact Fragment.nodes_addAll _ _

end

/-! ### Lines -/

theorem length_beforeBatchEnd? {s rest : List Char} (h : beforeBatchEnd? s = some rest) :
    rest.length ≤ s.length := by
  unfold beforeBatchEnd? at h
  split at h
  case h_3 => cases h
  all_goals
    split at h
    · cases h
      simp
    · cases h

theorem length_dropBatches_le (fuel : Nat) (s : List Char) :
    (dropBatches fuel s).length ≤ s.length := by
  induction fuel generalizing s with
  | zero => exact Nat.le_refl _
  | succ fuel ih =>
      have hcode : (s.dropWhile Text.isSpace).length ≤ s.length :=
        (List.dropWhile_sublist _).length_le
      rw [dropBatches]
      split
      case h_1 rest hrest =>
        calc (dropBatches fuel rest).length ≤ rest.length := ih rest
          _ ≤ (s.dropWhile Text.isSpace).length := length_beforeBatchEnd? hrest
          _ ≤ s.length := hcode
      case h_2 => exact hcode

theorem codeLength_le (span : List Char) : codeLength span ≤ span.length := by
  have hdropped := length_dropBatches_le span.length span.reverse
  rwa [List.length_reverse] at hdropped

section

variable {path : String} {text : List Char} {d e : Definition} {n : Node}

/-- The lines of a definition end where the next one begins, or before. -/
theorem lines_of_node? (hd : d ∈ definitions text) (h : node? path text d = some n) :
    ∃ endLine : Nat, n.get? Key.line = some (.int (lineAt text d.start)) ∧
      n.get? Key.endLine = some (.int endLine) ∧ lineAt text d.start ≤ endLine ∧
      endLine ≤ lineAt text d.stop := by
  have hcode : codeLength (Seq.slice text d.start d.stop) ≤ d.stop - d.start :=
    (codeLength_le _).trans (List.length_take_le _ _)
  have horder : d.start ≤ d.stop := start_le_stop hd
  refine ⟨_, (get?_of_node? h (by decide) (by decide)).trans get?_line_baseNode,
    (get?_of_node? h (by decide) (by decide)).trans get?_endLine_baseNode,
    lineAt_mono text (Nat.le_add_right _ _), lineAt_mono text ?_⟩
  omega

end

/-- The definitions of every text follow one another and cover it from the first one on, and their
headers lie inside them unless a trigger names its table. Hence a script crashes the analysis
exactly if the table of a trigger ends behind the beginning of the next definition. Otherwise each
definition gives a node, whose last line is not before its first one and not behind the line on
which the next definition begins. -/
theorem definitions_span_text_and_crash_iff :
    (∀ text, Spans text (definitions text)) ∧ ∀ path bytes,
      let text := Utf8.lossy (masked bytes)
      (analyze ⟨path, bytes⟩ = .error .crash ↔ Overrun text) ∧
        (¬ Overrun text → ∃ (f : Fragment) (nodes : List Node),
          analyze ⟨path, bytes⟩ = .ok f ∧
            (definitions text).map (node? path text) = nodes.map some ∧
            f.nodes = nodes.eraseDupsBy Fragment.sameId ∧
            ∀ d ∈ definitions text, ∀ n, node? path text d = some n →
              ∃ endLine : Nat, n.get? Key.line = some (.int (lineAt text d.start)) ∧
                n.get? Key.endLine = some (.int endLine) ∧ lineAt text d.start ≤ endLine ∧
                ∀ e, [d, e] <:+: definitions text → endLine ≤ lineAt text e.start) := by
  refine ⟨spans_definitions, fun path bytes => ⟨analyze_eq_crash_iff, fun hoverrun => ?_⟩⟩
  obtain ⟨f, hf⟩ : ∃ f, fragment? path (Utf8.lossy (masked bytes)) = some f := by
    rw [← Option.isSome_iff_exists, ← Option.ne_none_iff_isSome, Ne, fragment?_eq_none_iff]
    exact hoverrun
  obtain ⟨nodes, hnodes, hfirst⟩ := exists_nodes_of_fragment? hf
  refine ⟨f, nodes, by rw [analyze, hf], hnodes, hfirst, fun d hd n hn => ?_⟩
  obtain ⟨endLine, hline, hendLine, hle, hstop⟩ := lines_of_node? hd hn
  refine ⟨endLine, hline, hendLine, hle, fun e he => ?_⟩
  rwa [← stop_eq_of_infix_closeEach he]

/-- The word behind `ON` is also the beginning of the next definition. -/
example : fragment? "t.sql" "CREATE TRIGGER t ON CREATE TABLE x".toList = none :=
  Option.isNone_iff_eq_none.mp (by decide +kernel)

end CodeGraph.Sql

import CodeGraph.Path
import CodeGraph.Proofs.Text.Lines

/-!
Collapsed paths. What remains of a path are names, in a relative one after as many steps up as lead
out of it, so collapsing once more changes nothing. A path whose last component is a name keeps
that name through collapsing, and an extension may be added before or after.
-/

namespace CodeGraph

/-! ### Pieces -/

namespace Seq

variable {α : Type} {sep : α → Bool}

theorem not_sep_of_mem_splitOn {s piece : List α} (h : piece ∈ splitOn sep s) :
    ∀ a ∈ piece, sep a = false := by
  induction s generalizing piece with
  | nil =>
      rw [List.mem_singleton.mp h]
      intro a ha
      cases ha
  | cons b s ih =>
      cases hb : sep b with
      | true =>
          rw [splitOn_cons_of_sep hb] at h
          rcases List.mem_cons.mp h with rfl | h
          · intro a ha
            cases ha
          · exact ih h
      | false =>
          obtain ⟨p, ps, hs⟩ := exists_splitOn_eq sep s
          rw [splitOn_cons_of_not_sep hb hs] at h
          rw [hs] at ih
          rcases List.mem_cons.mp h with rfl | h
          · exact List.forall_mem_cons.mpr ⟨hb, ih List.mem_cons_self⟩
          · exact ih (List.mem_cons_of_mem _ h)

/-- Members that do not separate go to the last piece. -/
theorem splitOn_append_of_eq_concat {s last xs : List α} {init : List (List α)}
    (h : splitOn sep s = init ++ [last]) (hxs : ∀ a ∈ xs, sep a = false) :
    splitOn sep (s ++ xs) = init ++ [last ++ xs] := by
  induction s generalizing init last with
  | nil =>
      obtain ⟨rfl, rfl⟩ : init = [] ∧ last = [] := by
        cases init <;> simp_all [splitOn]
      rw [List.nil_append, splitOn_eq_singleton hxs]
      rfl
  | cons b s ih =>
      rw [List.cons_append]
      cases hb : sep b with
      | true =>
          rw [splitOn_cons_of_sep hb] at h ⊢
          cases init with
          | nil => exact absurd (List.cons.inj h).2 (splitOn_ne_nil sep s)
          | cons p init =>
              obtain ⟨rfl, hs⟩ := List.cons.inj h
              rw [ih hs]
              rfl
      | false =>
          obtain ⟨p, ps, hs⟩ := exists_splitOn_eq sep s
          rw [splitOn_cons_of_not_sep hb hs] at h
          cases init with
          | nil =>
              obtain ⟨rfl, rfl⟩ := List.cons.inj h
              have hall : splitOn sep s = [] ++ [p] := hs
              exact splitOn_cons_of_not_sep hb (ih hall)
          | cons q init =>
              obtain ⟨rfl, rfl⟩ := List.cons.inj h
              have hall : splitOn sep s = (p :: init) ++ [last] := hs
              exact splitOn_cons_of_not_sep hb (ih hall)

theorem lastPiece_eq_of_splitOn {s last : List α} {init : List (List α)}
    (h : splitOn sep s = init ++ [last]) : lastPiece sep s = last := by
  rw [lastPiece, h, List.getLast?_concat]
  rfl

theorem exists_splitOn_eq_concat (sep : α → Bool) (s : List α) :
    ∃ init, splitOn sep s = init ++ [lastPiece sep s] := by
  have hsplit := List.dropLast_append_getLast (splitOn_ne_nil sep s)
  refine ⟨(splitOn sep s).dropLast, ?_⟩
  rw [lastPiece_eq_of_splitOn hsplit.symm, hsplit]

theorem splitOn_intercalate {a : α} (ha : sep a = true) {pieces : List (List α)}
    (hne : pieces ≠ []) (h : ∀ p ∈ pieces, ∀ b ∈ p, sep b = false) :
    splitOn sep ([a].intercalate pieces) = pieces := by
  induction pieces with
  | nil => exact absurd rfl hne
  | cons p rest ih =>
      obtain ⟨hp, hrest⟩ := List.forall_mem_cons.mp h
      cases rest with
      | nil => rw [List.intercalate_singleton, splitOn_eq_singleton hp]
      | cons q rest =>
          rw [List.intercalate_cons_cons, List.append_assoc, List.singleton_append,
            splitOn_append_cons ha, ih (List.cons_ne_nil q rest) hrest, splitOn_eq_singleton hp]
          rfl

end Seq

/-! ### Collapsing -/

namespace Path

abbrev up : List Char := ['.', '.']

/-- A component that stands for an entry of a directory. -/
def IsName (part : List Char) : Prop :=
  part ≠ [] ∧ part ≠ ['.'] ∧ part ≠ up

instance (part : List Char) : Decidable (IsName part) :=
  inferInstanceAs (Decidable (_ ∧ _ ∧ _))

/-- What a collapsed path, held in reverse, looks like: steps up come before all names, and there
are none at the root. -/
def Settled (absolute : Bool) (done : List (List Char)) : Prop :=
  ∃ names k, done = names ++ List.replicate k up ∧ (∀ n ∈ names, IsName n) ∧
    (absolute = true → k = 0)

variable {absolute : Bool} {done : List (List Char)} {part : List Char}

theorem collapse_of_skipped (h : part = [] ∨ part = ['.']) (absolute : Bool)
    (done : List (List Char)) : collapse absolute done part = done := by
  unfold collapse
  rw [if_pos h]

theorem collapse_of_isName (h : IsName part) (absolute : Bool) (done : List (List Char)) :
    collapse absolute done part = part :: done := by
  obtain ⟨hempty, hdot, hup⟩ := h
  unfold collapse
  rw [if_neg (not_or.mpr ⟨hempty, hdot⟩), if_neg hup]

theorem collapse_up_of_isName (h : IsName part) (absolute : Bool) (done : List (List Char)) :
    collapse absolute (part :: done) up = done := by
  unfold collapse
  rw [if_neg (by decide), if_pos rfl]
  exact if_neg h.2.2

theorem collapse_up_root : collapse true [] up = [] := by decide

theorem collapse_up_replicate (k : Nat) :
    collapse false (List.replicate k up) up = List.replicate (k + 1) up := by
  cases k <;> rfl

theorem part_cases (part : List Char) : (part = [] ∨ part = ['.']) ∨ part = up ∨ IsName part := by
  unfold IsName
  tauto

theorem Settled.collapse (h : Settled absolute done) (part : List Char) :
    Settled absolute (collapse absolute done part) := by
  obtain ⟨names, k, rfl, hnames, hk⟩ := h
  rcases part_cases part with hskip | rfl | hname
  · rw [collapse_of_skipped hskip]
    exact ⟨names, k, rfl, hnames, hk⟩
  · cases names with
    | nil =>
        rw [List.nil_append]
        cases absolute with
        | true =>
            rw [hk rfl]
            exact ⟨[], 0, collapse_up_root, hnames, fun _ => rfl⟩
        | false =>
            rw [collapse_up_replicate]
            exact ⟨[], k + 1, rfl, hnames, fun h => by cases h⟩
    | cons n names =>
        obtain ⟨hn, hnames⟩ := List.forall_mem_cons.mp hnames
        rw [List.cons_append, collapse_up_of_isName hn]
        exact ⟨names, k, rfl, hnames, hk⟩
  · rw [collapse_of_isName hname]
    exact ⟨part :: names, k, rfl, List.forall_mem_cons.mpr ⟨hname, hnames⟩, hk⟩

/-- Collapsing the components of a collapsed path changes nothing. -/
theorem Settled.foldl_collapse (h : Settled absolute done) :
    done.reverse.foldl (Path.collapse absolute) [] = done := by
  obtain ⟨names, k, rfl, hnames, hk⟩ := h
  have hups : (List.replicate k up).foldl (Path.collapse absolute) [] = List.replicate k up := by
    cases absolute with
    | true => rw [hk rfl]; rfl
    | false =>
        induction k with
        | zero => rfl
        | succ k ih =>
            rw [List.replicate_succ', List.foldl_append, ih (fun h => by cases h),
              ← List.replicate_succ']
            exact collapse_up_replicate k
  rw [List.reverse_append, List.reverse_replicate, List.foldl_append, hups]
  induction names with
  | nil => rfl
  | cons n names ih =>
      obtain ⟨hn, hnames⟩ := List.forall_mem_cons.mp hnames
      rw [List.reverse_cons, List.foldl_append, ih hnames]
      exact collapse_of_isName hn _ _

theorem settled_collapsed (path : List Char) :
    Settled (isAbsolute path) (collapsed path).reverse := by
  rw [collapsed, List.reverse_reverse]
  refine List.foldlRecOn (motive := Settled (isAbsolute path)) _ _ ?_ fun _ h part _ =>
    h.collapse part
  exact ⟨[], 0, rfl, List.forall_mem_nil _, fun _ => rfl⟩

theorem mem_collapse {part p : List Char} (h : p ∈ collapse absolute done part) :
    p ∈ done ∨ p = part := by
  rcases part_cases part with hskip | rfl | hname
  · rw [collapse_of_skipped hskip] at h
    exact .inl h
  · unfold collapse at h
    rw [if_neg (by decide), if_pos rfl] at h
    split at h
    · split_ifs at h
      · exact .inl h
      · exact (List.mem_cons.mp h).symm
      · exact .inl (List.mem_cons_of_mem _ h)
    · split_ifs at h
      · cases h
      · exact .inr (List.mem_singleton.mp h)
  · rw [collapse_of_isName hname] at h
    exact (List.mem_cons.mp h).symm

theorem mem_components_of_mem_collapsed {path p : List Char} (h : p ∈ collapsed path) :
    p ∈ components path := by
  have hall : ∀ p ∈ (components path).foldl (collapse (isAbsolute path)) [],
      p ∈ components path := by
    refine List.foldlRecOn (motive := fun done => ∀ p ∈ done, p ∈ components path) _ _
      (List.forall_mem_nil _) fun done hdone part hpart p hp => ?_
    rcases mem_collapse hp with hp | rfl
    · exact hdone p hp
    · exact hpart
  exact hall p (List.mem_reverse.mp h)

/-! ### Normal paths -/

theorem ne_nil_of_mem_collapsed {path p : List Char} (h : p ∈ collapsed path) : p ≠ [] := by
  obtain ⟨names, k, hdone, hnames, -⟩ := settled_collapsed path
  have hp : p ∈ names ++ List.replicate k up := hdone ▸ List.mem_reverse.mpr h
  rcases List.mem_append.mp hp with hp | hp
  · exact (hnames p hp).1
  · rw [List.eq_of_mem_replicate hp]
    decide

theorem slash_not_mem_of_mem_collapsed {path p : List Char} (h : p ∈ collapsed path) :
    ∀ c ∈ p, isSlash c = false :=
  Seq.not_sep_of_mem_splitOn (mem_components_of_mem_collapsed h)

/-- The text of a path whose components were collapsed. -/
theorem components_intercalate_collapsed {path : List Char} (h : collapsed path ≠ []) :
    components (['/'].intercalate (collapsed path)) = collapsed path :=
  Seq.splitOn_intercalate (by decide) h fun _ hp => slash_not_mem_of_mem_collapsed hp

theorem isAbsolute_intercalate_collapsed (path : List Char) :
    isAbsolute (['/'].intercalate (collapsed path)) = false := by
  cases hparts : collapsed path with
  | nil => rfl
  | cons first rest =>
      have hmem : first ∈ collapsed path := hparts ▸ List.mem_cons_self
      obtain ⟨c, cs, rfl⟩ := List.exists_cons_of_ne_nil (ne_nil_of_mem_collapsed hmem)
      have hslash : isSlash c = false := slash_not_mem_of_mem_collapsed hmem c List.mem_cons_self
      have hhead : (['/'].intercalate ((c :: cs) :: rest)).head? = some c := by
        cases rest with
        | nil => rw [List.intercalate_singleton]; rfl
        | cons second rest => rw [List.intercalate_cons_cons]; rfl
      rw [isAbsolute, hhead]
      exact hslash

theorem isAbsolute_normalizeChars (path : List Char) :
    isAbsolute (normalizeChars path) = isAbsolute path := by
  unfold normalizeChars
  dsimp only
  split_ifs with habsolute hempty
  · rw [habsolute]
    rfl
  · rw [Bool.eq_false_iff.mpr habsolute]
    rfl
  · rw [isAbsolute_intercalate_collapsed, Bool.eq_false_iff.mpr habsolute]

theorem intercalate_collapsed_ne_nil {path : List Char} (h : collapsed path ≠ []) :
    ['/'].intercalate (collapsed path) ≠ [] := by
  intro hempty
  have hcomponents : collapsed path = [[]] := by
    rw [← components_intercalate_collapsed h, hempty]
    rfl
  exact ne_nil_of_mem_collapsed (hcomponents ▸ List.mem_singleton_self []) rfl

/-- The components of a normal path are the collapsed ones, behind the root if there is one. -/
theorem components_normalizeChars {path : List Char} (h : collapsed path ≠ []) :
    components (normalizeChars path) =
      (if isAbsolute path then [[]] else []) ++ collapsed path := by
  have hjoined := components_intercalate_collapsed h
  unfold normalizeChars
  dsimp only
  split_ifs with habsolute hempty
  · rw [components, Seq.splitOn_cons_of_sep rfl]
    exact congrArg _ hjoined
  · exact absurd hempty (intercalate_collapsed_ne_nil h)
  · exact hjoined

theorem collapsed_normalizeChars (path : List Char) :
    collapsed (normalizeChars path) = collapsed path := by
  by_cases hempty : collapsed path = []
  · have hroot : normalizeChars path = if isAbsolute path then ['/'] else ['.'] := by
      simp only [normalizeChars, hempty]
      rfl
    rw [hempty, hroot]
    split <;> decide
  · have hsettled := (settled_collapsed path).foldl_collapse
    rw [List.reverse_reverse] at hsettled
    rw [collapsed, isAbsolute_normalizeChars, components_normalizeChars hempty, List.foldl_append]
    have hroot : (if isAbsolute path then [[]] else []).foldl (collapse (isAbsolute path)) [] =
        [] := by
      split <;> rfl
    rw [hroot, hsettled, List.reverse_reverse]

theorem normalizeChars_congr {path path' : List Char}
    (habsolute : isAbsolute path = isAbsolute path')
    (hcollapsed : collapsed path = collapsed path') :
    normalizeChars path = normalizeChars path' := by
  simp only [normalizeChars, habsolute, hcollapsed]

theorem normalizeChars_normalizeChars (path : List Char) :
    normalizeChars (normalizeChars path) = normalizeChars path :=
  normalizeChars_congr (isAbsolute_normalizeChars path) (collapsed_normalizeChars path)

theorem toList_normalize (path : String) : (normalize path).toList = normalizeChars path.toList :=
  String.toList_ofList

theorem normalize_normalize (path : String) : normalize (normalize path) = normalize path := by
  refine String.toList_inj.mp ?_
  rw [toList_normalize, toList_normalize, normalizeChars_normalizeChars]

/-! ### Last components -/

theorem isAbsolute_append {path : List Char} (hne : path ≠ []) (ext : List Char) :
    isAbsolute (path ++ ext) = isAbsolute path := by
  obtain ⟨c, cs, rfl⟩ := List.exists_cons_of_ne_nil hne
  rfl

theorem intercalate_concat_append (parents : List (List Char)) (last ext : List Char) :
    ['/'].intercalate (parents ++ [last ++ ext]) =
      ['/'].intercalate (parents ++ [last]) ++ ext := by
  induction parents with
  | nil => simp only [List.nil_append, List.intercalate_singleton]
  | cons p rest ih =>
      rw [List.cons_append, List.cons_append, List.intercalate_cons_of_ne_nil (by simp),
        List.intercalate_cons_of_ne_nil (by simp), ih]
      simp only [List.append_assoc]

section Named

variable {path : List Char} (h : IsName (Seq.lastPiece isSlash path))
include h

theorem ne_nil_of_isName_lastPiece : path ≠ [] := by
  rintro rfl
  exact h.1 rfl

/-- A name at the end is kept by collapsing, with what is added to it. -/
theorem exists_collapsed_append {ext : List Char} (hext : ∀ c ∈ ext, isSlash c = false)
    (hname : IsName (Seq.lastPiece isSlash path ++ ext)) :
    ∃ parents, collapsed path = parents ++ [Seq.lastPiece isSlash path] ∧
      collapsed (path ++ ext) = parents ++ [Seq.lastPiece isSlash path ++ ext] := by
  obtain ⟨init, hsplit⟩ := Seq.exists_splitOn_eq_concat isSlash path
  have hadded := Seq.splitOn_append_of_eq_concat hsplit hext
  refine ⟨(init.foldl (collapse (isAbsolute path)) []).reverse, ?_, ?_⟩
  · rw [collapsed, components, hsplit, List.foldl_append, List.foldl_cons, List.foldl_nil,
      collapse_of_isName h, List.reverse_cons]
  · rw [collapsed, components, isAbsolute_append (ne_nil_of_isName_lastPiece h), hadded,
      List.foldl_append, List.foldl_cons, List.foldl_nil, collapse_of_isName hname,
      List.reverse_cons]

theorem normalizeChars_append {ext : List Char} (hext : ∀ c ∈ ext, isSlash c = false)
    (hname : IsName (Seq.lastPiece isSlash path ++ ext)) :
    normalizeChars (path ++ ext) = normalizeChars path ++ ext := by
  obtain ⟨parents, hpath, hadded⟩ := exists_collapsed_append h hext hname
  have hne : ['/'].intercalate (collapsed path) ≠ [] :=
    intercalate_collapsed_ne_nil (by simp [hpath])
  simp only [normalizeChars, isAbsolute_append (ne_nil_of_isName_lastPiece h), hadded,
    intercalate_concat_append, ← hpath]
  rw [if_neg hne, if_neg fun hnil => hne (List.append_eq_nil_iff.mp hnil).1]
  split <;> rfl

theorem lastPiece_normalizeChars :
    Seq.lastPiece isSlash (normalizeChars path) = Seq.lastPiece isSlash path := by
  obtain ⟨parents, hpath, -⟩ := exists_collapsed_append h (List.forall_mem_nil _)
    (by rwa [List.append_nil])
  have hcomponents := components_normalizeChars (show collapsed path ≠ [] by simp [hpath])
  rw [hpath, ← List.append_assoc] at hcomponents
  exact Seq.lastPiece_eq_of_splitOn hcomponents

end Named

end Path

end CodeGraph

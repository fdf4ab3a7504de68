import CodeGraph.Proofs.Text.Paths

/-!
What paths denote. A path leads from a directory to a location, one component after the other and
without a look at what is there. Collapsing keeps the location, and there is one collapsed path to
each location, so a collapsed path may stand for any path to where it leads: also as the directory
from which another path goes on.
-/

namespace CodeGraph.Path

/-! ### Locations -/

/-- Where a component leads from a directory, which is given by the names from the root to it: an
empty component and `.` stay there, `..` leads to the directory above, if there is one, and a name
leads below. -/
def enter (here : List (List Char)) (part : List Char) : List (List Char) :=
  if part = [] ∨ part = ['.'] then here
  else if part = up then here.dropLast
  else here ++ [part]

/-- The directory from which the components of a path lead on. -/
def origin (absolute : Bool) (here : List (List Char)) : List (List Char) :=
  if absolute then [] else here

def location (here : List (List Char)) (path : List Char) : List (List Char) :=
  (components path).foldl enter (origin (isAbsolute path) here)

variable {absolute : Bool} {done : List (List Char)} {part : List Char}

theorem enter_of_skipped (h : part = [] ∨ part = ['.']) (here : List (List Char)) :
    enter here part = here := by
  rw [enter, if_pos h]

theorem enter_up (here : List (List Char)) : enter here up = here.dropLast := by
  rw [enter, if_neg (by decide), if_pos rfl]

theorem enter_of_isName (h : IsName part) (here : List (List Char)) :
    enter here part = here ++ [part] := by
  obtain ⟨hempty, hdot, hup⟩ := h
  rw [enter, if_neg (not_or.mpr ⟨hempty, hdot⟩), if_neg hup]

/-- Collapsing a component leads where the component itself leads. -/
theorem Settled.foldl_enter_collapse (h : Settled absolute done) (part : List Char)
    (here : List (List Char)) :
    (Path.collapse absolute done part).reverse.foldl enter (origin absolute here) =
      enter (done.reverse.foldl enter (origin absolute here)) part := by
  rcases part_cases part with hskip | rfl | hname
  · rw [collapse_of_skipped hskip, enter_of_skipped hskip]
  · obtain ⟨names, k, rfl, hnames, hk⟩ := h
    cases names with
    | nil =>
        rw [List.nil_append]
        cases absolute with
        | true =>
            rw [hk rfl]
            rfl
        | false =>
            rw [collapse_up_replicate, List.reverse_replicate, List.reverse_replicate,
              List.replicate_succ', List.foldl_append]
            rfl
    | cons n names =>
        have hn : IsName n := hnames n List.mem_cons_self
        rw [List.cons_append, collapse_up_of_isName hn, List.reverse_cons, List.foldl_append,
          List.foldl_cons, List.foldl_nil, enter_of_isName hn, enter_up, List.dropLast_concat]
  · rw [collapse_of_isName hname, List.reverse_cons, List.foldl_append]
    rfl

theorem location_eq_collapsed (here : List (List Char)) (path : List Char) :
    location here path = (collapsed path).foldl enter (origin (isAbsolute path) here) := by
  have hrun : ∀ (parts done : List (List Char)), Settled (isAbsolute path) done →
      (parts.foldl (collapse (isAbsolute path)) done).reverse.foldl enter
          (origin (isAbsolute path) here) =
        parts.foldl enter (done.reverse.foldl enter (origin (isAbsolute path) here)) := by
    intro parts
    induction parts with
    | nil => exact fun _ _ => rfl
    | cons part parts ih =>
        intro done hdone
        rw [List.foldl_cons, ih _ (hdone.collapse part), hdone.foldl_enter_collapse,
          List.foldl_cons]
  exact (hrun _ [] ⟨[], 0, rfl, List.forall_mem_nil _, fun _ => rfl⟩).symm

theorem location_normalizeChars (here : List (List Char)) (path : List Char) :
    location here (normalizeChars path) = location here path := by
  rw [location_eq_collapsed, location_eq_collapsed, collapsed_normalizeChars,
    isAbsolute_normalizeChars]

/-! ### One collapsed path for each location -/

theorem foldl_enter_up (k : Nat) (here : List (List Char)) :
    (List.replicate k up).foldl enter here = here.take (here.length - k) := by
  induction k with
  | zero => simp
  | succ k ih =>
      rw [List.replicate_succ', List.foldl_append, ih, List.foldl_cons, List.foldl_nil, enter_up,
        List.dropLast_eq_take, List.take_take, List.length_take]
      congr 1
      omega

theorem foldl_enter_names {names : List (List Char)} (h : ∀ n ∈ names, IsName n)
    (here : List (List Char)) : names.foldl enter here = here ++ names := by
  induction names generalizing here with
  | nil => simp
  | cons n names ih =>
      obtain ⟨hn, hnames⟩ := List.forall_mem_cons.mp h
      rw [List.foldl_cons, enter_of_isName hn, ih hnames, List.append_assoc]
      rfl

/-- The components of a collapsed path: steps up, none of them at the root, and then names. -/
theorem exists_collapsed_eq (path : List Char) :
    ∃ k names, collapsed path = List.replicate k up ++ names ∧ (∀ n ∈ names, IsName n) ∧
      (isAbsolute path = true → k = 0) ∧
      ∀ here, location here path =
        (origin (isAbsolute path) here).take ((origin (isAbsolute path) here).length - k) ++
          names := by
  obtain ⟨names, k, hdone, hnames, hk⟩ := settled_collapsed path
  have hall : ∀ n ∈ names.reverse, IsName n := fun n hn => hnames n (List.mem_reverse.mp hn)
  have hcollapsed : collapsed path = List.replicate k up ++ names.reverse := by
    rw [← List.reverse_reverse (collapsed path), hdone, List.reverse_append,
      List.reverse_replicate]
  refine ⟨k, names.reverse, hcollapsed, hall, hk, fun here => ?_⟩
  rw [location_eq_collapsed, hcollapsed, List.foldl_append, foldl_enter_up,
    foldl_enter_names hall]

/-- Paths that lead to the same location from everywhere collapse to the same path. -/
theorem normalizeChars_eq_of_location_eq {path other : List Char}
    (h : ∀ here, location here path = location here other) :
    normalizeChars path = normalizeChars other := by
  obtain ⟨k, names, hpath, -, hk, hlocation⟩ := exists_collapsed_eq path
  obtain ⟨l, others, hother, -, hl, hlocation'⟩ := exists_collapsed_eq other
  simp only [hlocation, hlocation'] at h
  -- From the root nothing is left of the steps up.
  obtain rfl : names = others := by simpa [origin] using h []
  -- Far below the root every step up is seen.
  have hlength := congrArg List.length (h (List.replicate (k + l + 1) []))
  have hroot : isAbsolute path = isAbsolute other ∧ k = l := by
    cases hp : isAbsolute path <;> cases ho : isAbsolute other <;>
      simp [hp, ho, origin] at hk hl hlength ⊢ <;> omega
  refine normalizeChars_congr hroot.1 ?_
  rw [hpath, hother, hroot.2]

theorem normalizeChars_eq_iff (path other : List Char) :
    normalizeChars path = normalizeChars other ↔
      ∀ here, location here path = location here other := by
  refine ⟨fun h here => ?_, normalizeChars_eq_of_location_eq⟩
  rw [← location_normalizeChars here path, h, location_normalizeChars]

/-! ### Normal paths -/

/-- The shapes of a collapsed path: `.`, `/`, names behind the root, or names behind steps up. -/
inductive IsNormal (path : List Char) : Prop where
  | here (h : path = ['.'])
  | root (h : path = ['/'])
  | absolute {names : List (List Char)} (h : components path = [] :: names) (hne : names ≠ [])
      (hnames : ∀ n ∈ names, IsName n)
  | relative {k : Nat} {names : List (List Char)}
      (h : components path = List.replicate k up ++ names) (hnames : ∀ n ∈ names, IsName n)

theorem isNormal_normalizeChars (path : List Char) : IsNormal (normalizeChars path) := by
  obtain ⟨k, names, hcollapsed, hnames, hk, -⟩ := exists_collapsed_eq path
  by_cases hempty : collapsed path = []
  · unfold normalizeChars
    rw [hempty]
    cases isAbsolute path with
    | true => exact .root rfl
    | false => exact .here rfl
  · have hcomponents := components_normalizeChars hempty
    cases habsolute : isAbsolute path with
    | true =>
        rw [habsolute, hcollapsed, hk habsolute] at hcomponents
        rw [hcollapsed, hk habsolute] at hempty
        exact .absolute hcomponents hempty hnames
    | false =>
        rw [habsolute, hcollapsed] at hcomponents
        exact .relative hcomponents hnames

theorem normalizeChars_eq_here_iff (path : List Char) :
    normalizeChars path = ['.'] ↔ ∀ here, location here path = here :=
  normalizeChars_eq_iff path ['.']

theorem normalizeChars_eq_root_iff (path : List Char) :
    normalizeChars path = ['/'] ↔ ∀ here, location here path = [] :=
  normalizeChars_eq_iff path ['/']

/-! ### Going on from a path -/

theorem normalizeChars_ne_nil (path : List Char) : normalizeChars path ≠ [] := by
  unfold normalizeChars
  dsimp only
  split_ifs with _ hempty
  · exact List.cons_ne_nil _ _
  · exact List.cons_ne_nil _ _
  · exact hempty

/-- What is appended to a path leads on from where the path leads. -/
theorem location_append {path : List Char} (hne : path ≠ []) (here : List (List Char))
    (rest : List Char) :
    location here (path ++ '/' :: rest) = (components rest).foldl enter (location here path) := by
  rw [location, components, Seq.splitOn_append_cons rfl, List.foldl_append, isAbsolute_append hne]
  rfl

theorem normalizeChars_append_slash {path : List Char} (hne : path ≠ []) (rest : List Char) :
    normalizeChars (path ++ '/' :: rest) = normalizeChars (normalizeChars path ++ '/' :: rest) := by
  refine normalizeChars_eq_of_location_eq fun here => ?_
  rw [location_append hne, location_append (normalizeChars_ne_nil path), location_normalizeChars]

theorem normalize_append_slash {path : String} (hne : path ≠ "") (rest : String) :
    normalize (path ++ "/" ++ rest) = normalize (normalize path ++ "/" ++ rest) := by
  have htoList (a : String) : (a ++ "/" ++ rest).toList = a.toList ++ '/' :: rest.toList := by
    simp [String.toList_append]
  have hchars : path.toList ≠ [] := by simpa using hne
  apply String.toList_inj.mp
  rw [toList_normalize, toList_normalize, htoList, htoList, toList_normalize]
  exact normalizeChars_append_slash hchars rest.toList

theorem joinRelative_of_parent {file : String} (h : parent file ≠ "") (target : String) :
    joinRelative file target = normalize (parent file ++ "/" ++ target) :=
  if_neg (by simpa using h)

/-! ### Normalization -/

/-- A normalized path has one of the shapes of a collapsed path, is absolute if the path is, and
leads where the path leads. There is one for each location: `.` for paths that lead nowhere else
and `/` for paths to the root. So normalizing once more changes nothing, nothing is lost when a
path is normalized before something is joined onto it, and files in the same directory, however it
is written, join alike. -/
theorem normalize_canonical (path : String) :
    IsNormal (normalize path).toList ∧
    isAbsolute (normalize path).toList = isAbsolute path.toList ∧
    (∀ here, location here (normalize path).toList = location here path.toList) ∧
    (∀ other, normalize other = normalize path ↔
      ∀ here, location here other.toList = location here path.toList) ∧
    (normalize path = "." ↔ ∀ here, location here path.toList = here) ∧
    (normalize path = "/" ↔ ∀ here, location here path.toList = []) ∧
    normalize (normalize path) = normalize path ∧
    (path ≠ "" → ∀ rest,
      normalize (path ++ "/" ++ rest) = normalize (normalize path ++ "/" ++ rest)) ∧
    (∀ file file', parent file ≠ "" → parent file' ≠ "" →
      normalize (parent file) = normalize (parent file') →
      ∀ target, joinRelative file target = joinRelative file' target) := by
  refine ⟨?_, ?_, fun here => ?_, fun other => ?_, ?_, ?_, normalize_normalize path,
    normalize_append_slash, fun file file' h h' hparent target => ?_⟩
  · rw [toList_normalize]
    exact isNormal_normalizeChars path.toList
  · rw [toList_normalize]
    exact isAbsolute_normalizeChars path.toList
  · rw [toList_normalize]
    exact location_normalizeChars here path.toList
  · rw [← normalizeChars_eq_iff, ← String.toList_inj, toList_normalize, toList_normalize]
  · rw [← normalizeChars_eq_here_iff, ← String.toList_inj, toList_normalize]
    rfl
  · rw [← normalizeChars_eq_root_iff, ← String.toList_inj, toList_normalize]
    rfl
  · rw [joinRelative_of_parent h, joinRelative_of_parent h', normalize_append_slash h, hparent,
      ← normalize_append_slash h']

/-- Two files of one directory that is written in two ways. -/
theorem same_directory_joins_alike :
    (parent "src/./a.ts" ≠ "" ∧ parent "lib/../src/b.ts" ≠ "" ∧
      normalize (parent "src/./a.ts") = normalize (parent "lib/../src/b.ts")) ∧
    joinRelative "src/./a.ts" "../../c.h" = joinRelative "lib/../src/b.ts" "../../c.h" ∧
    joinRelative "src/./a.ts" "../../c.h" = "../c.h" := by
  obtain ⟨-, -, -, -, -, -, -, hcongr, hjoin⟩ := normalize_canonical "src/."
  have hdir : normalize (parent "src/./a.ts") = normalize (parent "lib/../src/b.ts") := by
    decide +kernel
  refine ⟨⟨by decide +kernel, by decide +kernel, hdir⟩,
    hjoin _ _ (by decide +kernel) (by decide +kernel) hdir _, ?_⟩
  calc joinRelative "src/./a.ts" "../../c.h"
    _ = normalize ("src/." ++ "/" ++ "../../c.h") := by decide +kernel
    _ = normalize (normalize "src/." ++ "/" ++ "../../c.h") := hcongr (by decide) _
    _ = "../c.h" := by decide +kernel

end CodeGraph.Path

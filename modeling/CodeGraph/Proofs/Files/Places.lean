import CodeGraph.Files
import CodeGraph.Proofs.Text.Paths
import CodeGraph.Proofs.Text.Seq
import Mathlib.Data.List.Nodup
import Mathlib.Data.String.Basic

/-!
The files that a walk finds. Seen from the directory where the walk starts, a file has a place, and
the walk lists the paths of the places of all files with no excluded directory on the way, each
before those that it precedes. A path of the walk leads to the place that it was made of.
-/

namespace CodeGraph

def Path.below (dir : String) (p : Place) : String :=
  p.foldl Path.join dir

namespace Entry

/-! ### Trees with proper names -/

def IsFileName (name : String) : Prop :=
  Path.IsName name.toList ∧ '/' ∉ name.toList

instance (name : String) : Decidable (IsFileName name) :=
  inferInstanceAs (Decidable (_ ∧ _))

/-- No directory holds two entries of one name, and every name can be a component of a path. -/
inductive IsTree : Entry → Prop
  | file (content : FileContent) : IsTree (file content)
  | other : IsTree other
  | directory {entries : List (String × Entry)} (nodup : (entries.map (·.1)).Nodup)
      (names : ∀ x ∈ entries, IsFileName x.1) (trees : ∀ x ∈ entries, IsTree x.2) :
      IsTree (directory entries)

attribute [simp] IsTree.file IsTree.other

@[simp] theorem isTree_directory_iff {entries : List (String × Entry)} :
    IsTree (directory entries) ↔ (entries.map (·.1)).Nodup ∧
      (∀ x ∈ entries, IsFileName x.1) ∧ ∀ x ∈ entries, IsTree x.2 := by
  constructor
  · intro h
    cases h with
    | directory nodup names trees => exact ⟨nodup, names, trees⟩
  · rintro ⟨nodup, names, trees⟩
    exact .directory nodup names trees

variable {exclude : List String} {entries : List (String × Entry)} {root e e' : Entry}
  {name dir : String} {place p q : Place}

@[simp] theorem at?_nil (e : Entry) : e.at? [] = some e := by
  cases e <;> rfl

@[simp] theorem at?_directory_cons (entries : List (String × Entry)) (name : String) (p : Place) :
    (directory entries).at? (name :: p) = (entries.lookup name).bind (·.at? p) := by
  rw [at?]

theorem at?_append (e : Entry) (p q : Place) : e.at? (p ++ q) = (e.at? p).bind (·.at? q) := by
  induction p generalizing e with
  | nil => simp
  | cons name p ih =>
      cases e with
      | directory entries =>
          rw [List.cons_append, at?_directory_cons, at?_directory_cons]
          cases entries.lookup name with
          | none => rfl
          | some e => exact ih e
      | _ => rfl

/-- Only a directory has places below it. -/
theorem exists_of_at?_cons (h : e.at? (name :: p) = some e') :
    ∃ entries below, e = directory entries ∧ entries.lookup name = some below ∧
      below.at? p = some e' := by
  cases e with
  | directory entries =>
      rw [at?_directory_cons, Option.bind_eq_some_iff] at h
      obtain ⟨below, hlookup, hbelow⟩ := h
      exact ⟨entries, below, rfl, hlookup, hbelow⟩
  | _ => simp [at?] at h

theorem mem_of_lookup (h : entries.lookup name = some e) : (name, e) ∈ entries := by
  obtain ⟨before, after, rfl, -⟩ := List.lookup_eq_some_iff.mp h
  simp

theorem lookup_of_mem (nodup : (entries.map (·.1)).Nodup) (h : (name, e) ∈ entries) :
    entries.lookup name = some e := by
  obtain ⟨before, after, rfl⟩ := List.append_of_mem h
  rw [List.map_append, List.map_cons, List.nodup_middle, List.nodup_cons] at nodup
  refine List.lookup_eq_some_iff.mpr ⟨before, after, rfl, fun x hx => ?_⟩
  have hne : name ≠ x.1 := by
    rintro rfl
    exact nodup.1 (List.mem_append_left _ (List.mem_map.mpr ⟨x, hx, rfl⟩))
  simpa using hne

/-! ### The places of the files -/

mutual

/-- The places of the files from an entry on, in the order of a walk. -/
def places (exclude : List String) : Entry → List Place
  | file _ => [[]]
  | directory entries =>
      ((placesIn exclude entries).mergeSort fun a b => a.1 ≤ b.1).flatMap fun x =>
        x.2.map (x.1 :: ·)
  | other => []

def placesIn (exclude : List String) : List (String × Entry) → List (String × List Place)
  | [] => []
  | (name, e) :: rest =>
      (name, if e.isDirectory && exclude.contains name then [] else places exclude e) ::
        placesIn exclude rest

end

mutual

theorem files_eq_map_places (exclude : List String) (path : String) :
    ∀ e : Entry, e.files exclude path = (e.places exclude).map (Path.below path)
  | file _ => rfl
  | directory entries => by
      let branch (x : String × List Place) := (x.1, x.2.map (Path.below (Path.join path x.1)))
      have hsort : ((placesIn exclude entries).map branch).mergeSort (fun a b => a.1 ≤ b.1) =
          ((placesIn exclude entries).mergeSort fun a b => a.1 ≤ b.1).map branch := by
        refine (List.map_mergeSort ?_).symm
        exact fun _ _ _ _ => rfl
      rw [files, filesIn_eq_map_placesIn, hsort, places, List.flatMap_map, List.map_flatMap]
      simp only [branch, List.map_map]
      rfl
  | other => rfl

theorem filesIn_eq_map_placesIn (exclude : List String) (dir : String) :
    ∀ entries : List (String × Entry), filesIn exclude dir entries =
      (placesIn exclude entries).map fun x => (x.1, x.2.map (Path.below (Path.join dir x.1)))
  | [] => rfl
  | (name, e) :: rest => by
      rw [filesIn, placesIn, List.map_cons, filesIn_eq_map_placesIn exclude dir rest,
        files_eq_map_places exclude _ e]
      split <;> rfl

end

theorem placesIn_eq_map (exclude : List String) (entries : List (String × Entry)) :
    placesIn exclude entries = entries.map fun x =>
      (x.1, if x.2.isDirectory && exclude.contains x.1 then [] else x.2.places exclude) := by
  induction entries with
  | nil => rfl
  | cons x rest ih => rw [placesIn, ih, List.map_cons]

/-- A place below a directory goes on with the name of an entry that is not left out. -/
theorem mem_places_directory : p ∈ (directory entries).places exclude ↔
    ∃ name e q, p = name :: q ∧ (name, e) ∈ entries ∧
      ¬(e.isDirectory = true ∧ name ∈ exclude) ∧ q ∈ e.places exclude := by
  rw [places, List.mem_flatMap]
  simp only [List.mem_mergeSort, placesIn_eq_map, List.mem_map]
  constructor
  · rintro ⟨_, ⟨⟨name, e⟩, hmem, rfl⟩, q, hq, rfl⟩
    split at hq
    · cases hq
    · rename_i hkept
      exact ⟨name, e, q, rfl, hmem, by simpa using hkept, hq⟩
  · rintro ⟨name, e, q, rfl, hmem, hkept, hq⟩
    refine ⟨_, ⟨(name, e), hmem, rfl⟩, q, ?_, rfl⟩
    rwa [if_neg (by simpa using hkept)]

/-- The name of a directory matters on the way to a file, and that of the file does not. -/
theorem kept_iff {content : FileContent} (h : e.at? p = some (file content)) :
    (¬(e.isDirectory = true ∧ name ∈ exclude) ∧ ∀ n ∈ p.dropLast, n ∉ exclude) ↔
      ∀ n ∈ (name :: p).dropLast, n ∉ exclude := by
  cases p with
  | nil =>
      obtain rfl : e = file content := by simpa using h
      simp [isDirectory]
  | cons n p =>
      obtain ⟨entries, -, rfl, -⟩ := exists_of_at?_cons h
      rw [List.dropLast_cons_cons, List.forall_mem_cons]
      simp [isDirectory]

/-- The walk finds the files, and of them those with no excluded directory on the way. -/
theorem mem_places (h : e.IsTree) : p ∈ e.places exclude ↔
    (∃ content, e.at? p = some (file content)) ∧ ∀ name ∈ p.dropLast, name ∉ exclude := by
  induction h generalizing p with
  | file content => cases p <;> simp [places, at?]
  | other => cases p <;> simp [places, at?]
  | @directory entries nodup names trees ih =>
      rw [mem_places_directory]
      constructor
      · rintro ⟨name, e, q, rfl, hmem, hkept, hq⟩
        obtain ⟨⟨content, hcontent⟩, hway⟩ := (ih _ hmem).mp hq
        refine ⟨⟨content, ?_⟩, (kept_iff hcontent).mp ⟨hkept, hway⟩⟩
        rwa [at?_directory_cons, lookup_of_mem nodup hmem]
      · rintro ⟨⟨content, hcontent⟩, hway⟩
        cases p with
        | nil => simp at hcontent
        | cons name q =>
            obtain ⟨_, e, heq, hlookup, hat⟩ := exists_of_at?_cons hcontent
            obtain rfl := directory.inj heq
            have hmem := mem_of_lookup hlookup
            obtain ⟨hkept, hbelow⟩ := (kept_iff hat).mpr hway
            exact ⟨name, e, q, rfl, hmem, hkept, (ih _ hmem).mpr ⟨⟨content, hat⟩, hbelow⟩⟩

/-! ### The order of a walk -/

/-- Where two places part, the one with the smaller name comes first. -/
inductive Precedes : Place → Place → Prop
  | parting {m n : String} (h : m < n) (p q : Place) : Precedes (m :: p) (n :: q)
  | together (n : String) {p q : Place} (h : Precedes p q) : Precedes (n :: p) (n :: q)

theorem Precedes.ne (h : Precedes p q) : p ≠ q := by
  induction h with
  | parting h p q => exact fun heq => absurd (List.cons.inj heq).1 h.ne
  | together n _ ih => exact fun heq => ih (List.cons.inj heq).2

/-- The entries of a directory come in the order of their names. -/
theorem pairwise_placesIn (nodup : (entries.map (·.1)).Nodup) (exclude : List String) :
    ((placesIn exclude entries).mergeSort fun a b => a.1 ≤ b.1).Pairwise fun a b => a.1 < b.1 := by
  have hsorted : ((placesIn exclude entries).mergeSort fun a b => a.1 ≤ b.1).Pairwise
      fun a b => decide (a.1 ≤ b.1) = true :=
    List.pairwise_mergeSort (fun a b c => by simpa using le_trans)
      (fun a b => by simpa using le_total a.1 b.1) _
  have hnames : (((placesIn exclude entries).mergeSort fun a b => a.1 ≤ b.1).map (·.1)).Nodup := by
    rw [((List.mergeSort_perm _ _).map _).nodup_iff, placesIn_eq_map, List.map_map]
    exact nodup
  refine (hsorted.and (List.pairwise_map.mp hnames)).imp fun h => ?_
  exact lt_of_le_of_ne (of_decide_eq_true h.1) h.2

theorem pairwise_places (h : e.IsTree) (exclude : List String) :
    (e.places exclude).Pairwise Precedes := by
  induction h with
  | file content => simp [places]
  | other => simp [places]
  | @directory entries nodup names trees ih =>
      rw [places, List.pairwise_flatMap]
      constructor
      · intro x hx
        rw [List.mem_mergeSort, placesIn_eq_map, List.mem_map] at hx
        obtain ⟨⟨name, e⟩, hmem, rfl⟩ := hx
        rw [List.pairwise_map]
        dsimp only
        split
        · exact .nil
        · exact (ih _ hmem).imp (.together name)
      · refine (pairwise_placesIn nodup exclude).imp fun {a b} hlt => ?_
        intro p hp q hq
        obtain ⟨p', -, rfl⟩ := List.mem_map.mp hp
        obtain ⟨q', -, rfl⟩ := List.mem_map.mp hq
        exact .parting hlt p' q'

/-! ### The paths of a walk -/

theorem locate_eq_ok_iff : root.locate dir = .ok place ↔
    dir ≠ "" ∧ Path.isAbsolute dir.toList = false ∧
      ((Path.components dir.toList).map String.ofList).foldlM root.step [] = .ok place := by
  rw [locate, parts?]
  split <;> simp_all

theorem step_empty_eq_ok_iff {here : Place} : root.step here "" = .ok place ↔
    here = place ∧ ∃ entries, root.at? here = some (directory entries) := by
  rw [step]
  split <;> simp_all

theorem step_name (hname : IsFileName name) (hat : root.at? place = some (directory entries))
    (hlookup : (entries.lookup name).isSome) : root.step place name = .ok (place ++ [name]) := by
  obtain ⟨⟨hempty, hdot, hup⟩, -⟩ := hname
  rw [step, hat]
  dsimp only
  rw [if_neg, if_neg, if_pos hlookup]
  · rintro rfl
    exact hup rfl
  · rintro (rfl | rfl)
    · exact hempty rfl
    · exact hdot rfl

theorem foldlM_step_concat {parts : List String} :
    (parts ++ [name]).foldlM root.step [] = .ok place ↔
      ∃ here, parts.foldlM root.step [] = .ok here ∧ root.step here name = .ok place := by
  rw [List.foldlM_append]
  cases parts.foldlM root.step [] with
  | error e =>
      refine iff_of_false (fun h => ?_) (by simp)
      cases h
  | ok here =>
      have hlast : [name].foldlM root.step here = root.step here name := bind_pure _
      show [name].foldlM root.step here = .ok place ↔ _
      simp [hlast]

/-- A name is joined to a path by one slash, which may be there already. -/
theorem exists_toList_join (dir name : String) :
    ∃ front, (Path.join dir name).toList = front ++ '/' :: name.toList ∧
      (dir.toList = front ∨ dir.toList = front ++ ['/']) := by
  rw [Path.join]
  split
  case isTrue h =>
    obtain ⟨front, hfront⟩ := Seq.endsWith_iff.mp h
    have hdir : dir.toList = front ++ ['/'] := hfront.symm
    exact ⟨front, by simp [String.toList_append, hdir], .inr hdir⟩
  case isFalse => exact ⟨dir.toList, by simp [String.toList_append], .inl rfl⟩

theorem isAbsolute_join (hdir : dir ≠ "") (name : String) :
    Path.isAbsolute (Path.join dir name).toList = Path.isAbsolute dir.toList := by
  have hne : dir.toList ≠ [] := fun h => hdir (String.toList_inj.mp h)
  rw [Path.join]
  split <;>
    simp only [Path.isAbsolute, String.toList_append, List.append_assoc,
      List.head?_append_of_ne_nil _ hne]

theorem locate_join (hname : IsFileName name) (hdir : root.locate dir = .ok place)
    (hat : root.at? place = some (directory entries)) (hlookup : (entries.lookup name).isSome) :
    root.locate (Path.join dir name) = .ok (place ++ [name]) := by
  obtain ⟨hempty, habsolute, hparts⟩ := locate_eq_ok_iff.mp hdir
  obtain ⟨front, hjoin, hfront⟩ := exists_toList_join dir name
  have hcomponents : Path.components (front ++ '/' :: name.toList) =
      Path.components front ++ [name.toList] := by
    have hslash : ∀ c ∈ name.toList, Path.isSlash c = false := by
      intro c hc
      rw [Path.isSlash, beq_eq_false_iff_ne]
      exact fun h => hname.2 (h ▸ hc)
    rw [← Seq.splitOn_eq_singleton hslash]
    exact Seq.splitOn_append_cons rfl front name.toList
  -- A slash at the end of the path of a directory adds an empty component, which stays there.
  have hstay : ((Path.components front).map String.ofList).foldlM root.step [] = .ok place := by
    rcases hfront with hfront | hfront
    · rwa [hfront] at hparts
    · have hend : Path.components (front ++ ['/']) = Path.components front ++ [[]] :=
        Seq.splitOn_append_cons rfl front []
      rw [hfront, hend, List.map_append] at hparts
      obtain ⟨here, hhere, hstep⟩ := foldlM_step_concat.mp hparts
      rwa [(step_empty_eq_ok_iff.mp hstep).1] at hhere
  refine locate_eq_ok_iff.mpr ⟨?_, ?_, ?_⟩
  · intro h
    simp [h] at hjoin
  · rwa [isAbsolute_join hempty]
  · rw [hjoin, hcomponents, List.map_append]
    refine foldlM_step_concat.mpr ⟨place, hstay, ?_⟩
    simpa using step_name hname hat hlookup

/-- A path of a walk leads to the place that it was made of. -/
theorem locate_below (htree : e.IsTree) (hdir : root.locate dir = .ok place)
    (hat : root.at? place = some e) (h : e.at? p = some e') :
    root.locate (Path.below dir p) = .ok (place ++ p) := by
  induction p generalizing dir place e with
  | nil => simpa [Path.below] using hdir
  | cons name p ih =>
      obtain ⟨entries, below, rfl, hlookup, hbelow⟩ := exists_of_at?_cons h
      have hmem := mem_of_lookup hlookup
      obtain ⟨-, names, trees⟩ := isTree_directory_iff.mp htree
      have hjoin := locate_join (names _ hmem) hdir hat (by simp [hlookup])
      have hrest := ih (trees _ hmem) hjoin (by simp [at?_append, hat, hlookup]) hbelow
      rwa [List.append_assoc] at hrest

theorem walk_eq_map_places (hdir : root.locate dir = .ok place) (hat : root.at? place = some e)
    (exclude : List String) :
    root.walk exclude dir = (e.places exclude).map (Path.below dir) := by
  rw [walk, hdir]
  dsimp only
  rw [hat, Option.map_some, Option.getD_some, files_eq_map_places]

/-- No two paths of a walk lead to one file. -/
theorem nodup_walk (htree : e.IsTree) (hdir : root.locate dir = .ok place)
    (hat : root.at? place = some e) (exclude : List String) : (root.walk exclude dir).Nodup := by
  rw [walk_eq_map_places hdir hat]
  refine List.Nodup.map_on ?_ ((pairwise_places htree exclude).imp Precedes.ne)
  intro p hp q hq heq
  obtain ⟨⟨_, hp⟩, -⟩ := (mem_places htree).mp hp
  obtain ⟨⟨_, hq⟩, -⟩ := (mem_places htree).mp hq
  have hplace := locate_below htree hdir hat hp
  rw [heq, locate_below htree hdir hat hq, Except.ok.injEq] at hplace
  exact (List.append_cancel_left hplace).symm

end Entry

end CodeGraph

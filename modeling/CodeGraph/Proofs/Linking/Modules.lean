import CodeGraph.Proofs.Closure.Linking
import CodeGraph.Proofs.Linking.Outlines
import CodeGraph.Proofs.Text.Paths

/-!
Imports across TypeScript modules. The ID of a declaration is built from the path of its file as it
was given, that of an imported name from the specifier in the importing file, joined with the
directory of that file and collapsed. For a specifier that denotes a file the two agree exactly if
the path of the file is a collapsed one and the specifier leaves out its extension in a way that can
be told: without a dot that would be taken for another extension.
-/

namespace CodeGraph

/-! ### Specifiers -/

namespace Path

/-- A path from the directory that holds `file`, not collapsed. -/
def joined (file path : String) : String :=
  if parent file == "" then path else parent file ++ "/" ++ path

def EndsInName (path : String) : Prop :=
  IsName (Seq.lastPiece isSlash path.toList)

instance (path : String) : Decidable (EndsInName path) :=
  inferInstanceAs (Decidable (IsName _))

theorem joinRelative_eq (file path : String) :
    joinRelative file path = normalize (joined file path) := by
  unfold joinRelative joined
  dsimp only
  split <;> rfl

theorem lastPiece_joined (file path : String) :
    Seq.lastPiece isSlash (joined file path).toList = Seq.lastPiece isSlash path.toList := by
  unfold joined
  split
  · rfl
  · obtain ⟨init, hsplit⟩ := Seq.exists_splitOn_eq_concat isSlash path.toList
    have hjoined := @Seq.splitOn_append_cons _ isSlash '/' rfl (parent file).toList path.toList
    rw [hsplit, ← List.append_assoc] at hjoined
    rw [String.toList_append, String.toList_append, List.append_assoc]
    exact Seq.lastPiece_eq_of_splitOn hjoined

variable {file specifier : String}

theorem endsInName_joined (h : EndsInName specifier) (file : String) :
    EndsInName (joined file specifier) := by
  rw [EndsInName, lastPiece_joined]
  exact h

theorem normalize_append_extension {path : String} (h : EndsInName path) :
    normalize (path ++ ".ts") = normalize path ++ ".ts" := by
  have hext : ∀ c ∈ ".ts".toList, isSlash c = false := by simp [isSlash]
  have hname : IsName (Seq.lastPiece isSlash path.toList ++ ".ts".toList) := by
    have hlong : ∀ short : List Char, short.length < ".ts".toList.length →
        Seq.lastPiece isSlash path.toList ++ ".ts".toList ≠ short := by
      rintro _ hshort rfl
      rw [List.length_append] at hshort
      omega
    exact ⟨hlong _ (by decide), hlong _ (by decide), hlong _ (by decide)⟩
  refine String.toList_inj.mp ?_
  rw [toList_normalize, String.toList_append, String.toList_append, toList_normalize]
  exact normalizeChars_append h hext hname

theorem hasExtension_normalize {path : String} (h : EndsInName path) :
    hasExtension (normalize path) = hasExtension path := by
  rw [hasExtension, hasExtension, toList_normalize, lastPiece_normalizeChars h]

theorem hasExtension_joined (file path : String) :
    hasExtension (joined file path) = hasExtension path := by
  rw [hasExtension, hasExtension, lastPiece_joined]

theorem moduleFile_of_relative (hrelative : isRelativeModule specifier = true)
    (hname : EndsInName specifier) (file : String) :
    moduleFile file specifier =
      if hasExtension specifier then normalize (joined file specifier)
      else normalize (joined file specifier ++ ".ts") := by
  have hjoined := endsInName_joined hname file
  rw [moduleFile, if_pos hrelative]
  dsimp only
  rw [joinRelative_eq, hasExtension_normalize hjoined, hasExtension_joined,
    normalize_append_extension hjoined]

/-- The file that a specifier is taken to name is the file that it denotes exactly if the path of
that file is collapsed and the specifier has no extension. -/
theorem moduleFile_eq_iff {path : String} (hrelative : isRelativeModule specifier = true)
    (hname : EndsInName specifier)
    (hdenotes : normalize (joined file specifier ++ ".ts") = normalize path) :
    moduleFile file specifier = path ↔ normalize path = path ∧ hasExtension specifier = false := by
  rw [moduleFile_of_relative hrelative hname, hdenotes]
  cases hasExtension specifier with
  | false => simp
  | true =>
      -- The joined specifier is collapsed, but the file has the extension behind it.
      simp only [if_true, Bool.true_eq_false, and_false, iff_false]
      rintro rfl
      rw [normalize_normalize,
        normalize_append_extension (endsInName_joined hname file)] at hdenotes
      have hlength := congrArg String.length hdenotes
      simp at hlength

end Path

/-! ### Names and IDs of declarations -/

namespace TypeScript

/-- The name under which a module knows a declaration: those of its types, functions and globals. -/
def symbol? : Declaration → Option String
  | .type _ name _ _ => some name
  | .routine _ name _ none => some name
  | .global name _ => some name
  | _ => none

theorem id_of_variableDeclaration? {f : SourceFile} {above : List Tree} {t : Tree}
    {d : Declaration} (h : variableDeclaration? f above t = some d) {name : String}
    (hname : symbol? d = some name) : d.node.id = Ident.inFile f.path name := by
  unfold variableDeclaration? at h
  split at h
  · cases h
  · split at h
    · cases h
    · dsimp only at h
      split at h
      · cases h
        cases hname
        rfl
      · split at h
        · cases h
        · split at h
          · cases h
            cases hname
            dsimp only [Declaration.node]
            split <;> rfl
          · cases h

/-- The ID of a type, function or global is its name in the file. -/
theorem Made.id_of_symbol? {f : SourceFile} {d : Declaration} (h : Made f d) {name : String}
    (hname : symbol? d = some name) : d.node.id = Ident.inFile f.path name := by
  cases h with
  | class_ t name =>
      cases hname
      exact Declaration.id_mark ..
  | interface t name =>
      cases hname
      rfl
  | function t name =>
      cases hname
      rfl
  | method t owner name => cases hname
  | field t owner name => cases hname
  | declarator h => exact id_of_variableDeclaration? h hname

/-! ### Imported names -/

def importedId (file : String) (imp : Import) (n : Import.Name) : String :=
  if imp.kind == .moduleObject then Path.moduleFile file imp.path
  else State.exportOf (Path.moduleFile file imp.path) n.there

/-- The imported names in order, each with its import. -/
def importedNames (imps : List Import) : List (Import × Import.Name) :=
  imps.flatMap fun imp => imp.names.map fun n => (imp, n)

theorem imports_addImport (st : State) (imp : Import) :
    (addImport st imp).imports =
      imp.names.foldl (fun t n => t.bind n.here (importedId st.file.path imp n)) st.imports := by
  have hnames : ∀ (names : List Import.Name) (st' : State),
      (names.foldl (addImportedName imp.kind (Path.moduleFile st.file.path imp.path)) st').imports =
        names.foldl (fun t n => t.bind n.here (importedId st.file.path imp n)) st'.imports := by
    intro names
    induction names with
    | nil => exact fun _ => rfl
    | cons n names ih =>
        intro st'
        rw [List.foldl_cons, List.foldl_cons, ih, addImportedName, importedId]
        split <;> rfl
  exact hnames imp.names st

theorem imports_foldl_addImport (imps : List Import) (st : State) :
    (imps.foldl addImport st).imports =
      (importedNames imps).foldl (fun t x => t.bind x.2.here (importedId st.file.path x.1 x.2))
        st.imports := by
  induction imps generalizing st with
  | nil => rfl
  | cons imp imps ih =>
      have hnames : importedNames (imp :: imps) =
          imp.names.map (fun n => (imp, n)) ++ importedNames imps := List.flatMap_cons
      have hfile : (addImport st imp).file = st.file := congrArg Prod.fst (fixed_addImport st imp)
      rw [List.foldl_cons, ih, hfile, imports_addImport, hnames, List.foldl_append,
        List.foldl_map]

/-- A name stands for what its first import gives it. -/
theorem get?_initialState_imports (f : SourceFile) (root : Tree) (name : String) :
    (initialState f root).imports.get? name =
      ((importedNames (Import.moduleImports f.bytes root)).find? fun x => x.2.here = name).map
        fun x => importedId f.path x.1 x.2 := by
  rw [initialState, imports_foldl_addImport, Bindings.get?_foldl_bind]
  rfl

/-! ### Linking -/

theorem inFile_inj {path path' name : String} :
    Ident.inFile path name = Ident.inFile path' name ↔ path = path' := by
  rw [Ident.inFile, Ident.inFile, String.append_left_inj, String.append_left_inj]

/-- A specifier that ends in a name and denotes a file links an imported name to the declaration
of that name there exactly if the path of the file is collapsed and the specifier has no
extension. -/
theorem named_import_links_iff {f g : SourceFile} {root root' : Tree} {imp : Import}
    {here there : String} {d : Declaration}
    (himport : (importedNames (Import.moduleImports f.bytes root)).find?
      (fun x => x.2.here = here) = some (imp, ⟨here, there⟩))
    (hkind : imp.kind = .namedExports) (hrelative : Path.isRelativeModule imp.path = true)
    (hname : Path.EndsInName imp.path)
    (hdenotes : Path.normalize (Path.joined f.path imp.path ++ ".ts") = Path.normalize g.path)
    (hd : d ∈ declarations g [] none root') (hthere : symbol? d = some there) :
    d.node.id = Ident.inFile g.path there ∧ d.node.id ∈ (analyze g root').ids ∧
      ((initialState f root).imports.get? here = some d.node.id ↔
        Path.normalize g.path = g.path ∧ Path.hasExtension imp.path = false) := by
  have hid := (made_of_mem_declarations root' d hd).id_of_symbol? hthere
  refine ⟨hid, ?_, ?_⟩
  · exact Outline.id_mem_foldl_of_linked State.outline State.linked_visit
      (outline_initialState g root') root'.sites hd
  · have hnamed : (imp.kind == .moduleObject) = false := by rw [hkind]; rfl
    rw [get?_initialState_imports, himport, hid, Option.map_some, Option.some_inj, importedId,
      hnamed, ← Path.moduleFile_eq_iff hrelative hname hdenotes]
    exact inFile_inj

/-- Specifiers that denote a file from another one and are not taken to name it: the path of the
file is not collapsed, its name has a dot of its own, or the specifier ends in no name. -/
theorem specifiers_not_linked :
    (Path.normalize (Path.joined "./b.ts" "./a" ++ ".ts") = Path.normalize "./a.ts" ∧
      State.exportOf (Path.moduleFile "./b.ts" "./a") "x" = "a.ts:x" ∧
      Ident.inFile "./a.ts" "x" = "./a.ts:x") ∧
    (Path.normalize (Path.joined "src/app.ts" "./user.service" ++ ".ts") =
        Path.normalize "src/user.service.ts" ∧
      State.exportOf (Path.moduleFile "src/app.ts" "./user.service") "x" =
        "src/user.service:x" ∧
      Ident.inFile "src/user.service.ts" "x" = "src/user.service.ts:x") ∧
    (Path.normalize (Path.joined "src/a.ts" "." ++ ".ts") = Path.normalize "src/..ts" ∧
      State.exportOf (Path.moduleFile "src/a.ts" ".") "x" = "src.ts:x" ∧
      Ident.inFile "src/..ts" "x" = "src/..ts:x") := by
  decide +kernel

/-- An application that imports a class of another module. -/
theorem class_import_links :
    ∃ (f g : SourceFile) (root root' : Tree) (id : String),
      f.path = "src/app.ts" ∧ g.path = "src/models/User.ts" ∧
        id ∈ (analyze g root').ids ∧ (initialState f root).imports.get? "U" = some id := by
  let f : SourceFile :=
    ⟨"src/app.ts", Utf8.encode "import \x7b User as U \x7d from './models/User'".toList⟩
  let root : Tree :=
    .node { kind := "program", stop := 41 }
      [.node { kind := "import_statement", stop := 41, key := 1 }
        [.node { kind := "import_clause", start := 7, stop := 20, key := 2 }
          [.node { kind := "named_imports", start := 7, stop := 20, key := 3 }
            [.node { kind := "import_specifier", start := 9, stop := 18, key := 4 }
              [.node { kind := "identifier", field := "name", start := 9, stop := 13, key := 5 } [],
                .node { kind := "identifier", field := "alias", start := 17, stop := 18, key := 6 }
                  []]]],
          .node { kind := "string", field := "source", start := 26, stop := 41, key := 7 } []]]
  let g : SourceFile := ⟨"src/models/User.ts", Utf8.encode "class User \x7b\x7d".toList⟩
  let root' : Tree :=
    .node { kind := "program", stop := 13 }
      [.node { kind := "class_declaration", stop := 13, key := 1 }
        [.node { kind := "type_identifier", field := "name", start := 6, stop := 10, key := 2 } [],
          .node { kind := "class_body", field := "body", start := 11, stop := 13, key := 3 } []]]
  let imp : Import :=
    { kind := .namedExports, path := "./models/User", names := [⟨"U", "User"⟩], glob := false,
      line := 1 }
  let d : Declaration := (declarations g [] none root').head (by decide +kernel)
  have himport : (importedNames (Import.moduleImports f.bytes root)).find?
      (fun x => x.2.here = "U") = some (imp, ⟨"U", "User"⟩) := by
    decide +kernel
  have hthere : symbol? d = some "User" := by decide +kernel
  obtain ⟨-, hmem, hlinks⟩ := named_import_links_iff himport rfl (by decide) (by decide)
    (by decide +kernel) (List.head_mem _) hthere
  exact ⟨f, g, root, root', d.node.id, rfl, rfl, hmem, hlinks.mpr (by decide +kernel)⟩

end TypeScript

end CodeGraph

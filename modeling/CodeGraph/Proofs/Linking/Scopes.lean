import CodeGraph.Proofs.Closure.Outlines
import CodeGraph.Proofs.Text.Paths
import CodeGraph.Proofs.Text.Seq
import CodeGraph.Scope.Namespace
import CodeGraph.Scope.Tables
import Mathlib.Data.List.TakeWhile

/-!
Type references and what they may denote. A simple name, with or without type arguments, stands for
itself, and the last segment of a qualified name tells its type. Where a file neither declares nor
imports a type of that name, every namespace in scope gives a candidate.
-/

namespace CodeGraph

/-! ### Names -/

namespace Seq

variable {α : Type} {sep : α → Bool}

theorem lastPiece_of_not_sep {s : List α} (h : ∀ a ∈ s, sep a = false) : lastPiece sep s = s := by
  rw [lastPiece, splitOn_eq_singleton h]
  rfl

theorem lastPiece_append_cons {a : α} (ha : sep a = true) (s t : List α) :
    lastPiece sep (s ++ a :: t) = lastPiece sep t := by
  obtain ⟨init, hsplit⟩ := exists_splitOn_eq_concat sep t
  have happend := splitOn_append_cons ha s t
  rw [hsplit, ← List.append_assoc] at happend
  exact lastPiece_eq_of_splitOn happend

end Seq

namespace Ident

/-- The name of a type as it is declared: nothing in it ends or divides a type reference. -/
def IsSimple (name : String) : Prop :=
  name ≠ "" ∧ ∀ c ∈ name.toList, Text.isSpace c = false ∧ endsTypeName c = false ∧ c ≠ '.'

instance (name : String) : Decidable (IsSimple name) :=
  have : Decidable (∀ c ∈ name.toList, Text.isSpace c = false ∧ endsTypeName c = false ∧ c ≠ '.') :=
    List.decidableBAll _ _
  inferInstanceAs (Decidable (_ ∧ _))

theorem IsSimple.dot_not_mem {name : String} (h : IsSimple name) : '.' ∉ name.toList :=
  fun hdot => (h.2 '.' hdot).2.2 rfl

/-- The reference is the name, alone or with type arguments. -/
def RefersTo (reference name : String) : Prop :=
  reference = name ∨ ∃ arguments, reference = name ++ "<" ++ arguments

theorem trim_of_not_isSpace {s : List Char} (h : ∀ c ∈ s, Text.isSpace c = false) :
    Chars.trim s = s := by
  have hdrop : ∀ t : List Char, (∀ c ∈ t, Text.isSpace c = false) →
      t.dropWhile Text.isSpace = t := by
    intro t ht
    cases t with
    | nil => rfl
    | cons c t => rw [List.dropWhile_cons_of_neg (by simp [ht c List.mem_cons_self])]
  rw [Chars.trim, Chars.trimStart, hdrop s h, Chars.trimEnd,
    hdrop _ fun c hc => h c (List.mem_reverse.mp hc), List.reverse_reverse]

/-- Trimming leaves what precedes the last character that is not white space. -/
theorem exists_trim_append_cons {s t : List Char} {c : Char} (hs : ∀ b ∈ s, Text.isSpace b = false)
    (hc : Text.isSpace c = false) : ∃ t', Chars.trim (s ++ c :: t) = s ++ c :: t' := by
  have hstart : Chars.trimStart (s ++ c :: t) = s ++ c :: t := by
    cases s with
    | nil => exact List.dropWhile_cons_of_neg (by simp [hc])
    | cons b s => exact List.dropWhile_cons_of_neg (by simp [hs b List.mem_cons_self])
  refine ⟨(t.reverse.dropWhile Text.isSpace).reverse, ?_⟩
  rw [Chars.trim, hstart, Chars.trimEnd, List.reverse_append, List.reverse_cons, List.append_assoc,
    List.dropWhile_append]
  split
  case isTrue hempty =>
    rw [List.isEmpty_iff.mp hempty, List.singleton_append,
      List.dropWhile_cons_of_neg (by simp [hc])]
    simp
  case isFalse => simp

/-- Nothing in the text is white space or ends the name of a type. -/
def IsBare (s : List Char) : Prop :=
  ∀ c ∈ s, Text.isSpace c = false ∧ endsTypeName c = false

instance (s : List Char) : Decidable (IsBare s) :=
  List.decidableBAll _ _

/-- A type reference is cut where type arguments begin. -/
theorem baseTypeChars_of_isBare {s rest : List Char} (hs : IsBare s)
    (hrest : rest = [] ∨ ∃ arguments, rest = '<' :: arguments) :
    baseTypeChars (s ++ rest) = s := by
  have hspace : ∀ c ∈ s, Text.isSpace c = false := fun c hc => (hs c hc).1
  have hends : ∀ c ∈ s, (!endsTypeName c) = true := fun c hc => by simp [(hs c hc).2]
  rcases hrest with rfl | ⟨arguments, rfl⟩
  · rw [List.append_nil, baseTypeChars, trim_of_not_isSpace hspace,
      List.takeWhile_eq_self_iff.mpr hends, trim_of_not_isSpace hspace]
  · obtain ⟨rest, htrim⟩ := exists_trim_append_cons (t := arguments) (c := '<') hspace (by decide)
    rw [baseTypeChars, htrim, List.takeWhile_append_of_pos hends,
      List.takeWhile_cons_of_neg (by decide), List.append_nil, trim_of_not_isSpace hspace]

variable {name : String}

theorem IsSimple.isBare (h : IsSimple name) : IsBare name.toList :=
  fun c hc => ⟨(h.2 c hc).1, (h.2 c hc).2.1⟩

theorem baseType_of_refersTo (h : IsSimple name) {reference : String}
    (hreference : RefersTo reference name) : baseType reference = name := by
  obtain ⟨rest, hlist, hrest⟩ : ∃ rest, reference.toList = name.toList ++ rest ∧
      (rest = [] ∨ ∃ arguments, rest = '<' :: arguments) := by
    rcases hreference with rfl | ⟨arguments, rfl⟩
    · exact ⟨[], by simp, .inl rfl⟩
    · exact ⟨'<' :: arguments.toList, by simp [String.toList_append], .inr ⟨_, rfl⟩⟩
  rw [baseType, Text.onChars, hlist, baseTypeChars_of_isBare h.isBare hrest, String.ofList_toList]

theorem isDot_false_of_not_mem {s : List Char} (h : '.' ∉ s) : ∀ c ∈ s, (c == '.') = false := by
  intro c hc
  rw [beq_eq_false_iff_ne]
  exact fun heq => h (heq ▸ hc)

theorem toList_qualified (space name : String) :
    (qualified space name).toList =
      if space == "" then name.toList else space.toList ++ '.' :: name.toList := by
  unfold qualified
  split
  · rfl
  · simp [String.toList_append]

/-- The name of a type is the last segment of its ID, however the type is nested. -/
theorem lastPiece_typeIn (hname : '.' ∉ name.toList) (space : String) (owner : Option String) :
    Seq.lastPiece (· == '.') (typeIn space owner name).toList = name.toList := by
  have hlast := Seq.lastPiece_of_not_sep (isDot_false_of_not_mem hname)
  have hdotted : ∀ s : List Char, Seq.lastPiece (· == '.') (s ++ '.' :: name.toList) =
      name.toList := fun s => (Seq.lastPiece_append_cons rfl s _).trans hlast
  cases owner with
  | some owner =>
      have hlist : (typeIn space (some owner) name).toList =
          owner.toList ++ '.' :: name.toList := by
        simp [typeIn, String.toList_append]
      rw [hlist, hdotted]
  | none =>
      rw [typeIn, toList_qualified]
      split
      · exact hlast
      · exact hdotted _

theorem name_eq_of_typeIn_eq {name' space space' : String} {owner owner' : Option String}
    (hname : '.' ∉ name.toList) (hname' : '.' ∉ name'.toList)
    (h : typeIn space owner name = typeIn space' owner' name') : name = name' := by
  refine String.toList_inj.mp ?_
  rw [← lastPiece_typeIn hname space owner, h, lastPiece_typeIn hname']

end Ident

/-! ### Symbols -/

namespace SymbolTable

/-- The first ID of a name counts. -/
theorem get?_insert_fold (t : SymbolTable) (name id key : String) :
    (t.insert name id).get? key =
      (t.get? key).or (if t.fold key = t.fold name then some id else none) :=
  Bindings.get?_bind ..

/-- In a table that tells names apart by their letters, the first ID of a name counts. -/
theorem get?_insert {t : SymbolTable} (h : t.ignoresCase = false) (name id key : String) :
    (t.insert name id).get? key = (t.get? key).or (if key = name then some id else none) := by
  have hfold : ∀ key, t.fold key = key := fun key => by simp [fold, h]
  rw [get?_insert_fold, hfold, hfold]

theorem get?_insert_ignoringCase {t : SymbolTable} (h : t.ignoresCase = true)
    (name id key : String) : (t.insert name id).get? key =
      (t.get? key).or (if Text.lower key = Text.lower name then some id else none) := by
  have hfold : ∀ key, t.fold key = Text.lower key := fun key => by simp [fold, h]
  rw [get?_insert_fold, hfold, hfold]

/-- The table tells names apart by their letters and holds those of a list. -/
structure Lists (t : SymbolTable) (names : List String) : Prop where
  ignoresCase : t.ignoresCase = false
  isSome_iff : ∀ name, (t.get? name).isSome ↔ name ∈ names

theorem lists_empty : Lists {} [] :=
  ⟨rfl, fun _ => by simp [get?, Bindings.get?]⟩

theorem Lists.insert {t : SymbolTable} {names : List String} (h : t.Lists names)
    (name id : String) : (t.insert name id).Lists (names ++ [name]) := by
  refine ⟨h.ignoresCase, fun key => ?_⟩
  rw [get?_insert h.ignoresCase, Option.isSome_or, Bool.or_eq_true, h.isSome_iff, List.mem_append,
    List.mem_singleton]
  by_cases hkey : key = name <;> simp [hkey]

end SymbolTable

/-! ### Candidates -/

namespace NamespaceScope

variable {s : NamespaceScope} {name reference : String}

theorem mem_namespaces_addNamespace {space space' : String} (h : space ∈ s.namespaces) :
    space ∈ (s.addNamespace space').namespaces := by
  unfold addNamespace
  split
  · exact h
  · exact List.mem_append_left _ h

theorem mem_namespaces_addNamespace_self {space : String} (h : space ≠ "") :
    space ∈ (s.addNamespace space).namespaces := by
  unfold addNamespace
  split
  case isTrue hskip =>
    rw [Bool.or_eq_true, beq_iff_eq, List.contains_iff_mem] at hskip
    exact hskip.resolve_left h
  case isFalse => exact List.mem_append_right _ (List.mem_singleton_self space)

theorem mem_openCandidates {space space' : String} (h : space ∈ s.namespaces ∨ space = space') :
    Ident.qualified space name ∈ s.openCandidates space' name := by
  unfold openCandidates
  dsimp only
  rcases h with h | rfl
  · have himported : Ident.qualified space name ∈ s.namespaces.map (Ident.qualified · name) :=
      List.mem_map_of_mem h
    split
    · exact himported
    · exact List.mem_append_left _ himported
  · split
    case isTrue hcontains => exact List.contains_iff_mem.mp hcontains
    case isFalse => exact List.mem_append_right _ (List.mem_singleton_self _)

/-- A type that is not declared in the file is among the candidates if it is imported by its name,
or if no type of its name is and its namespace is in scope. -/
theorem mem_candidates (hname : Ident.IsSimple name) (hreference : Ident.RefersTo reference name)
    (hlocal : s.localTypes.get? name = none) {full : String}
    (h : s.exact.get? name = some full ∨ s.exact.get? name = none ∧
      ∃ space, (space ∈ s.namespaces ∨ space = s.current) ∧ full = Ident.qualified space name) :
    full ∈ s.candidates reference := by
  have hcut : Text.cut? "." name = none := by
    rw [Text.cut?, show ".".toList = ['.'] from rfl, Seq.cut?_singleton_eq_none hname.dot_not_mem]
    rfl
  unfold candidates candidatesIn
  dsimp only
  rw [Ident.baseType_of_refersTo hname hreference, if_neg (by simpa using hname.1), hlocal]
  rcases h with hexact | ⟨hexact, space, hspace, rfl⟩
  · rw [hexact]
    exact List.mem_singleton_self full
  · rw [hexact]
    dsimp only
    rw [hcut]
    exact mem_openCandidates hspace

end NamespaceScope

end CodeGraph

import CodeGraph.Proofs.Text.Matching
import CodeGraph.Proofs.Text.Seq
import CodeGraph.Proofs.Vb.Steps

/-!
The lines that open and close blocks, as they are usually written: a keyword and a name, and `End`
with the keyword. Each is read as what it is, whatever the name is.
-/

namespace CodeGraph.Vb

open Pattern

/-! ### Keywords and names -/

def typeModifiers : List String :=
  ["Public", "Private", "Friend", "Protected", "Partial", "MustInherit", "NotInheritable", "Shared",
    "Shadows"]

def routineModifiers : List String :=
  ["Public", "Private", "Friend", "Protected", "Shared", "Overrides", "Overridable", "Overloads",
    "MustOverride", "NotOverridable", "Shadows", "Static", "Async", "Iterator", "Partial"]

inductive TypeKeyword where
  | class_
  | module
  | structure_
  | interface
  deriving DecidableEq, Repr

inductive RoutineKeyword where
  | sub
  | function
  deriving DecidableEq, Repr

/-- The first line of a block: a keyword, a name and what follows the name. -/
def heading (text name : String) (tail : List Char) : List Char :=
  text.toList ++ ' ' :: (name.toList ++ tail)

def ending (text : String) : List Char :=
  "End ".toList ++ text.toList

namespace TypeKeyword

def text : TypeKeyword → String
  | class_ => "Class"
  | module => "Module"
  | structure_ => "Structure"
  | interface => "Interface"

def header (keyword : TypeKeyword) (name : String) : List Char :=
  heading keyword.text name []

def isInterface (keyword : TypeKeyword) : Bool :=
  keyword = .interface

end TypeKeyword

namespace RoutineKeyword

def text : RoutineKeyword → String
  | sub => "Sub"
  | function => "Function"

def header (keyword : RoutineKeyword) (name : String) : List Char :=
  heading keyword.text name "()".toList

end RoutineKeyword

def isNameChar (c : Char) : Bool :=
  Text.isAsciiLetter c || Text.isAsciiDigit c || c == '_'

/-- A name is made of letters, digits and underscores. -/
structure IsName (name : String) : Prop where
  nonempty : name.toList ≠ []
  chars : ∀ c ∈ name.toList, isNameChar c = true

instance (name : String) : Decidable (IsName name) :=
  decidable_of_iff (name.toList ≠ [] ∧ name.toList.all isNameChar = true)
    ⟨fun h => ⟨h.1, List.all_eq_true.mp h.2⟩,
      fun h => ⟨h.nonempty, List.all_eq_true.mpr h.chars⟩⟩

theorem isWord_of_isNameChar {c : Char} (h : isNameChar c = true) : Text.isWord c = true := by
  rw [Text.isWord, ← isNameChar, h, Bool.true_or]

/-- The codes of the characters of a name. -/
theorem toNat_of_isNameChar {c : Char} (h : isNameChar c = true) :
    (97 ≤ c.toNat ∧ c.toNat ≤ 122) ∨ (65 ≤ c.toNat ∧ c.toNat ≤ 90) ∨
      (48 ≤ c.toNat ∧ c.toNat ≤ 57) ∨ c.toNat = 95 := by
  simp only [isNameChar, Text.isAsciiLetter, Text.isAsciiDigit, Bool.or_eq_true, Bool.and_eq_true,
    decide_eq_true_eq, beq_iff_eq, Char.le_def, UInt32.le_iff_toNat_le] at h
  rcases h with ((h | h) | h) | rfl
  · exact .inl h
  · exact .inr (.inl h)
  · exact .inr (.inr (.inl h))
  · exact .inr (.inr (.inr rfl))

theorem not_isSpace_of_isNameChar {c : Char} (h : isNameChar c = true) :
    Text.isSpace c = false := by
  have hcode := toNat_of_isNameChar h
  simp only [Text.isSpace, Bool.or_eq_false_iff, Bool.and_eq_false_iff, decide_eq_false_iff_not,
    beq_eq_false_iff_ne]
  omega

/-- Characters that are no part of a name. -/
theorem ne_of_isNameChar {c d : Char} (h : isNameChar c = true) (hd : isNameChar d = false) :
    c ≠ d := by
  rintro rfl
  simp [h] at hd

/-! ### Shapes -/

theorem string_symbolsOf (index start stop : Nat) (text : String) :
    Group.string ⟨index, start, stop, symbolsOf text.toList⟩ = text := by
  have htext : (symbolsOf text.toList).map Symbol.toChar = text.toList := by
    simp [symbolsOf, Function.comp_def, Symbol.toChar]
  rw [Group.string, Group.chars, htext, String.ofList_toList]

/-- What a character list begins with is its first symbol. -/
theorem head?_symbolsOf (line : List Char) :
    (symbolsOf line).head?.bind Symbol.char? = line.head? := by
  cases line <;> rfl

/-- A line that does not begin with white space has a shape if what the shape says behind white
space fits its beginning. -/
theorem shapeOf?_eq_here? (p : Pattern) (ps : List Pattern) {line : List Char} (hne : line ≠ [])
    (hspace : ∀ c ∈ line.head?, Text.isSpace c = false) :
    shapeOf? (seqs (start :: spaces :: p :: ps)) line =
      (seqs (p :: ps)).here? none 0 (symbolsOf line) := by
  have hspaces : spaces.runs ⟨none, 0, symbolsOf line, []⟩ = [⟨none, 0, symbolsOf line, []⟩] :=
    runs_most_of_stuck (runs_one_of_not_accepts (by rwa [head?_symbolsOf]))
  rw [shapeOf?, first?_of_anchored _ _ (by simpa [symbolsOf] using hne), here?, here?,
    runs_seqs_of_runs hspaces]

/-- A keyword as it is read: not white space, and nothing that may stand in front of it. -/
structure Reads (words texts : List String) (text : String) : Prop where
  nonempty : text.toList ≠ []
  space : ∀ c ∈ text.toList.head?, Text.isSpace c = false
  words : ∀ rest, (seq (keywords words) spaces1).runs
    ⟨none, 0, symbolsOf (text.toList ++ ' ' :: rest), []⟩ = []
  texts : ∀ rest, (keywords texts).runs ⟨none, 0, symbolsOf (text.toList ++ ' ' :: rest), []⟩ =
    [Pattern.Place.past ⟨none, 0, symbolsOf (text.toList ++ ' ' :: rest), []⟩ text.toList
      (symbolsOf (' ' :: rest))]

theorem Reads.space_heading {words texts : List String} {text : String}
    (htext : Reads words texts text) (name : String) (tail : List Char) :
    ∀ c ∈ (heading text name tail).head?, Text.isSpace c = false := by
  rw [heading, List.head?_append_of_ne_nil _ htext.nonempty]
  exact htext.space

/-- The first line of a block has the shape of its kind, and the shape finds the keyword and the
name. -/
theorem shapeOf?_heading {words texts : List String} {text name : String}
    (htext : Reads words texts text) (hname : IsName name) (tail : List Char)
    (htail : ∀ c ∈ tail.head?, Text.isWord c = false) :
    ∃ m g g', shapeOf? (seqs [start, spaces, modifiers words, group 1 (keywords texts), spaces1,
        group 2 word]) (heading text name tail) = some m ∧
      m.group? 1 = some g ∧ g.string = text ∧ m.group? 2 = some g' ∧ g'.string = name := by
  obtain ⟨c, name', hc⟩ := List.exists_cons_of_ne_nil hname.nonempty
  let here : Pattern.Place := ⟨none, 0, symbolsOf (heading text name tail), []⟩
  let behind : Pattern.Place :=
    (here.past text.toList (symbolsOf (' ' :: (name.toList ++ tail)))).remember 1 0
      (symbolsOf text.toList)
  let found : Pattern.Place :=
    ((behind.next (.char ' ') (symbolsOf (name.toList ++ tail))).past name.toList
      (symbolsOf tail)).remember 2 (behind.offset + 1) (symbolsOf name.toList)
  have hmodifiers : (modifiers words).runs here = [here] := runs_most_of_stuck (htext.words _)
  have hkeyword : (group 1 (keywords texts)).runs here = [behind] :=
    runs_group_of_runs (htext.texts _) List.map_append
  have hblank : spaces1.runs behind =
      [behind.next (.char ' ') (symbolsOf (name.toList ++ tail))] :=
    runs_some1_one rfl (by decide) fun c' hc' => by
      obtain rfl : c = c' := by simpa [head?_symbolsOf, hc] using hc'
      exact not_isSpace_of_isNameChar (hname.chars c (by simp [hc]))
  have hrest : (behind.next (.char ' ') (symbolsOf (name.toList ++ tail))).rest =
      symbolsOf name.toList ++ symbolsOf tail := List.map_append
  have hword := head?_runs_some1_one hname.nonempty hrest
    (fun c hc => isWord_of_isNameChar (hname.chars c hc)) (by rwa [head?_symbolsOf])
  have hfound : ((group 2 word).runs
      (behind.next (.char ' ') (symbolsOf (name.toList ++ tail)))).head? = some found :=
    head?_runs_group hword List.map_append
  refine ⟨⟨0, found.offset, here.upTo found, found.groups⟩, ⟨1, 0, _, symbolsOf text.toList⟩,
    ⟨2, _, _, symbolsOf name.toList⟩, ?_, rfl, string_symbolsOf .., rfl, string_symbolsOf ..⟩
  rw [shapeOf?_eq_here? _ _ (by simp [heading]) (htext.space_heading name tail), here?,
    runs_seqs_of_runs hmodifiers, runs_seqs_of_runs hkeyword, runs_seqs_of_runs hblank]
  show ((group 2 word).runs _).head?.map _ = _
  rw [hfound]
  rfl

/-! ### Stripped lines -/

theorem stripFrom_eq_self {line : List Char} (h : ∀ c ∈ line, c ≠ '"' ∧ c ≠ '\'') :
    stripFrom false line = line := by
  induction line with
  | nil => rfl
  | cons c line ih =>
      obtain ⟨hc, hline⟩ := List.forall_mem_cons.mp h
      rw [stripFrom, if_neg (by simpa using hc.1), if_neg (by simp), if_neg (by simpa using hc.2),
        ih hline]

/-- A line without strings and comments is what remains of it. -/
theorem strip_eq_self {line : List Char} (h : ∀ c ∈ line, c ≠ '"' ∧ c ≠ '\'')
    (hrem : Seq.startsWith "rem ".toList (Chars.lower (Chars.trimStart line)) = false) :
    strip line = line := by
  rw [strip, hrem, if_neg Bool.false_ne_true, stripFrom_eq_self h]

theorem notMem_heading {text name : String} {tail : List Char} {d : Char}
    (htext : ∀ c ∈ text.toList, isNameChar c = true) (hname : IsName name)
    (hd : isNameChar d = false) (hblank : d ≠ ' ') (htail : d ∉ tail) :
    d ∉ heading text name tail := by
  intro hmem
  rcases List.mem_append.mp hmem with hmem | hmem
  · exact ne_of_isNameChar (htext d hmem) hd rfl
  · rcases List.mem_cons.mp hmem with hmem | hmem
    · exact hblank hmem
    · rcases List.mem_append.mp hmem with hmem | hmem
      · exact ne_of_isNameChar (hname.chars d hmem) hd rfl
      · exact htail hmem

/-- Nothing has to be stripped from the first line of a block. -/
theorem strip_heading {text name : String} {tail : List Char}
    (htext : ∀ c ∈ text.toList, isNameChar c = true) (hname : IsName name)
    (htail : ∀ c ∈ tail, c ≠ '"' ∧ c ≠ '\'')
    (hrem : Seq.startsWith "rem ".toList
      (Chars.lower (Chars.trimStart (heading text name tail))) = false) :
    strip (heading text name tail) = heading text name tail := by
  refine strip_eq_self (fun c hc => ⟨?_, ?_⟩) hrem
  · rintro rfl
    exact notMem_heading htext hname (by decide) (by decide) (fun h => (htail _ h).1 rfl) hc
  · rintro rfl
    exact notMem_heading htext hname (by decide) (by decide) (fun h => (htail _ h).2 rfl) hc

/-! ### Readings -/

namespace TypeKeyword

variable (keyword : TypeKeyword) {name : String}

theorem isNameChar_text : ∀ c ∈ keyword.text.toList, isNameChar c = true :=
  List.all_eq_true.mp (by cases keyword <;> decide +kernel)

theorem reads : Reads typeModifiers typeKeywords keyword.text := by
  refine ⟨?_, fun c hc => ?_, fun rest => ?_, fun rest => ?_⟩
  · cases keyword <;> decide +kernel
  · exact not_isSpace_of_isNameChar (keyword.isNameChar_text c (List.mem_of_head? hc))
  · cases keyword <;> rfl
  · cases keyword <;> rfl

theorem strip_header (hname : IsName name) : strip (keyword.header name) = keyword.header name :=
  strip_heading keyword.isNameChar_text hname (by simp) (by cases keyword <;> rfl)

/-- The first line of a type opens the type. -/
theorem outside_header (hname : IsName name) :
    Reading.outside (strip (keyword.header name)) = .typeStart keyword.text name := by
  obtain ⟨m, g, g', hshape, hg, htext, hg', hword⟩ :=
    shapeOf?_heading keyword.reads hname [] (by simp)
  have hshape : shapeOf? Vb.typeStart (keyword.header name) = some m := hshape
  rw [keyword.strip_header hname, Reading.outside, hshape]
  simp only [hg, hg', htext, hword]

/-- The last line of a type closes a type. -/
theorem outside_ending : Reading.outside (strip (ending keyword.text)) = .typeEnd := by
  cases keyword <;> decide +kernel

theorem isInterface_text : Blocks.isInterface keyword.text = keyword.isInterface := by
  cases keyword <;> decide +kernel

end TypeKeyword

namespace RoutineKeyword

variable (keyword : RoutineKeyword) {name : String}

theorem isNameChar_text : ∀ c ∈ keyword.text.toList, isNameChar c = true :=
  List.all_eq_true.mp (by cases keyword <;> decide +kernel)

theorem reads : Reads routineModifiers routineKeywords keyword.text := by
  refine ⟨?_, fun c hc => ?_, fun rest => ?_, fun rest => ?_⟩
  · cases keyword <;> decide +kernel
  · exact not_isSpace_of_isNameChar (keyword.isNameChar_text c (List.mem_of_head? hc))
  · cases keyword <;> rfl
  · cases keyword <;> rfl

theorem strip_header (hname : IsName name) : strip (keyword.header name) = keyword.header name :=
  strip_heading keyword.isNameChar_text hname (by simp) (by cases keyword <;> rfl)

/-- Neither the keyword nor what follows the name hides a word in front of the keyword. -/
theorem not_mustoverride_header
    (h : Seq.contains "mustoverride".toList (Chars.lower name.toList) = false) :
    Seq.contains "mustoverride".toList (Chars.lower (keyword.header name)) = false := by
  have hlower : Chars.lower (keyword.header name) =
      Chars.lower keyword.text.toList ++ ' ' :: (Chars.lower name.toList ++ '(' :: [')']) := by
    simp only [header, heading, Chars.lower, List.map_append, List.map_cons]
    rfl
  have htext : ¬ "mustoverride".toList <:+: Chars.lower keyword.text.toList := by
    cases keyword <;> decide +kernel
  rw [Seq.contains_eq_false_iff] at h ⊢
  rw [hlower]
  exact Seq.not_infix_append_cons (by decide) htext
    (Seq.not_infix_append_cons (by decide) h (by decide))

/-- A routine is not taken for anything else that may stand outside routines. -/
theorem no_other_shape (name : String) :
    shapeOf? Vb.typeStart (keyword.header name) = none ∧
      shapeOf? Vb.typeEnd (keyword.header name) = none ∧
      shapeOf? supertypeLine (keyword.header name) = none := by
  have hne : keyword.header name ≠ [] := by simp [header, heading]
  have hspace := keyword.reads.space_heading name "()".toList
  refine ⟨?_, ?_, ?_⟩
  · have hmodifiers : (modifiers typeModifiers).runs
        ⟨none, 0, symbolsOf (keyword.header name), []⟩ =
          [⟨none, 0, symbolsOf (keyword.header name), []⟩] := by
      cases keyword <;> exact runs_most_of_stuck rfl
    have hkeyword : (group 1 (keywords typeKeywords)).runs
        ⟨none, 0, symbolsOf (keyword.header name), []⟩ = [] := by
      cases keyword <;> rfl
    rw [Vb.typeStart, ← typeModifiers, shapeOf?_eq_here? _ _ hne hspace, here?,
      runs_seqs_of_runs hmodifiers, runs_seqs_of_stuck hkeyword]
    rfl
  · have hkeyword : (Pattern.keyword "End").runs
        ⟨none, 0, symbolsOf (keyword.header name), []⟩ = [] := by
      cases keyword <;> rfl
    rw [Vb.typeEnd, shapeOf?_eq_here? _ _ hne hspace, here?, runs_seqs_of_stuck hkeyword]
    rfl
  · have hkeyword : (group 1 (keywords ["Inherits", "Implements"])).runs
        ⟨none, 0, symbolsOf (keyword.header name), []⟩ = [] := by
      cases keyword <;> rfl
    rw [supertypeLine, shapeOf?_eq_here? _ _ hne hspace, here?, runs_seqs_of_stuck hkeyword]
    rfl

/-- The first line of a routine opens the routine. -/
theorem outside_header (hname : IsName name) :
    Reading.outside (strip (keyword.header name)) = .routineStart name := by
  obtain ⟨m, g, g', hshape, -, -, hg', hword⟩ :=
    shapeOf?_heading keyword.reads hname "()".toList (by rintro c ⟨⟩; decide)
  have hshape : shapeOf? Vb.routineStart (keyword.header name) = some m := hshape
  obtain ⟨htype, hend, hsuper⟩ := keyword.no_other_shape name
  have hend : hasShape Vb.typeEnd (keyword.header name) = false := by
    rw [hasShape, occursIn, ← shapeOf?, hend]
    rfl
  rw [keyword.strip_header hname, Reading.outside, htype, hend, hsuper, hshape]
  simp [hg', hword]

theorem endsRoutine_ending : endsRoutine (ending keyword.text) = true := by
  cases keyword <;> decide +kernel

end RoutineKeyword

end CodeGraph.Vb

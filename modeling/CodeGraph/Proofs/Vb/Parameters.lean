import CodeGraph.Proofs.Text.Seq
import CodeGraph.Proofs.Vb.Intervals
import CodeGraph.Proofs.Vb.LeadingNames
import Mathlib.Data.List.Pairwise

/-!
The parameters of a routine. A header declares one parameter in each entry of its list, where a
comma inside parentheses separates nothing. The recognized names are those declared and, besides,
every name behind an inner comma, be it in the type of a parameter or in that of the result; behind
a list of type parameters no name is recognized at all. So a header is read as it is meant exactly
if its inner names are declared as well and nothing is declared behind type parameters, and this
decides which names of the body are taken for calls.
-/

namespace CodeGraph.Vb

open Pattern

/-! ### Enclosed text -/

/-- Whether all parentheses are closed, `depth` of them being open, and each comma is inside one. -/
def enclosedFrom (depth : Nat) : List Char → Bool
  | [] => depth == 0
  | c :: s =>
      if c == '(' then enclosedFrom (depth + 1) s
      else if c == ')' then depth != 0 && enclosedFrom (depth - 1) s
      else if c == ',' then depth != 0 && enclosedFrom depth s
      else enclosedFrom depth s

section

variable {depth : Nat} {c : Char} {s t : List Char}

/-- A character is inside parentheses if it is a comma, and the depth behind it is as in
`entriesFrom`. -/
theorem enclosedFrom_cons (h : enclosedFrom depth (c :: s) = true) :
    (c == ',' && depth == 0) = false ∧
      enclosedFrom (if c == '(' then depth + 1 else if c == ')' then depth - 1 else depth) s =
        true := by
  rw [enclosedFrom] at h
  split at h
  case isTrue hopen =>
    obtain rfl := beq_iff_eq.mp hopen
    exact ⟨rfl, h⟩
  case isFalse hopen =>
    rw [if_neg hopen]
    split at h
    case isTrue hclose =>
      obtain rfl := beq_iff_eq.mp hclose
      exact ⟨rfl, (Bool.and_eq_true_iff.mp h).2⟩
    case isFalse hclose =>
      rw [if_neg hclose]
      split at h
      case isTrue =>
        obtain ⟨hdepth, h⟩ := Bool.and_eq_true_iff.mp h
        exact ⟨by simpa using fun _ => hdepth, h⟩
      case isFalse hcomma => exact ⟨by simp [hcomma], h⟩

theorem exists_enclosedFrom_of_append (h : enclosedFrom depth (s ++ t) = true) :
    ∃ depth', enclosedFrom depth' t = true := by
  induction s generalizing depth with
  | nil => exact ⟨depth, h⟩
  | cons c s ih => exact ih (enclosedFrom_cons h).2

/-- Without a closing parenthesis, nothing is inside parentheses. -/
theorem comma_notMem_of_enclosedFrom (h : enclosedFrom depth s = true) (hclose : ')' ∉ s) :
    depth = 0 ∧ ',' ∉ s := by
  induction s generalizing depth with
  | nil => exact ⟨by simpa [enclosedFrom] using h, by simp⟩
  | cons c s ih =>
      obtain ⟨hc, hclose⟩ := List.ne_and_not_mem_of_not_mem_cons hclose
      obtain ⟨hcomma, hs⟩ := enclosedFrom_cons h
      obtain ⟨hdepth, hlater⟩ := ih hs hclose
      split at hdepth
      case isTrue => exact absurd hdepth (Nat.succ_ne_zero depth)
      case isFalse =>
        rw [if_neg (by simpa using hc.symm)] at hdepth
        subst hdepth
        have hne : c ≠ ',' := by simpa using hcomma
        exact ⟨rfl, by simp [hlater, hne.symm]⟩

theorem enclosedFrom_running (hs : ∀ c ∈ s, isRunning c = true) (t : List Char) :
    enclosedFrom depth (s ++ t) = enclosedFrom depth t := by
  have hmarks : ∀ d ∈ ['(', ')', ','], isRunning d = false := by
    simp only [List.mem_cons, List.not_mem_nil, or_false, forall_eq_or_imp, forall_eq]
    decide
  induction s with
  | nil => rfl
  | cons c s ih =>
      obtain ⟨hc, hs⟩ := List.forall_mem_cons.mp hs
      have hne : ∀ d ∈ ['(', ')', ','], ¬ (c == d) = true := by
        intro d hd heq
        rw [beq_iff_eq.mp heq, hmarks d hd] at hc
        cases hc
      rw [List.cons_append, enclosedFrom, if_neg (hne _ (by simp)), if_neg (hne _ (by simp)),
        if_neg (hne _ (by simp)), ih hs]

/-- Enclosed text stays in one entry. -/
theorem entriesFrom_append (h : enclosedFrom depth s = true) {entry : List Char}
    {entries : List (List Char)} (ht : entriesFrom 0 t = entry :: entries) :
    entriesFrom depth (s ++ t) = (s ++ entry) :: entries := by
  induction s generalizing depth with
  | nil =>
      obtain rfl : depth = 0 := by simpa [enclosedFrom] using h
      exact ht
  | cons c s ih =>
      obtain ⟨hcomma, hs⟩ := enclosedFrom_cons h
      rw [List.cons_append, entriesFrom, hcomma, if_neg Bool.false_ne_true]
      dsimp only
      rw [ih hs]
      rfl

end

/-! ### Names in front of and behind a parenthesis -/

section

variable {c : Char}

/-- Pieces on both sides of a character that is no comma. -/
theorem exists_pieces_append (hc : c ≠ ',') (s t : List Char) :
    ∃ ps p q qs, pieces s = ps ++ [p] ∧ pieces t = q :: qs ∧
      pieces (s ++ c :: t) = ps ++ (p ++ c :: q) :: qs := by
  obtain ⟨q, qs, ht⟩ : ∃ q qs, pieces t = q :: qs := Seq.exists_splitOn_eq (· == ',') t
  induction s with
  | nil => exact ⟨[], [], q, qs, rfl, ht, pieces_cons hc ht⟩
  | cons d s ih =>
      obtain ⟨ps, p, q, qs, hs, ht, hst⟩ := ih
      by_cases hd : d = ','
      · subst hd
        refine ⟨[] :: ps, p, q, qs, ?_, ht, ?_⟩
        · rw [pieces_comma, hs]
          rfl
        · rw [List.cons_append, pieces_comma, hst]
          rfl
      · cases ps with
        | nil => exact ⟨[], d :: p, q, qs, pieces_cons hd hs, ht, pieces_cons hd hst⟩
        | cons p' ps => exact ⟨(d :: p') :: ps, p, q, qs, pieces_cons hd hs, ht, pieces_cons hd hst⟩

theorem leadingName?_append_stop (hc : isRunning c = false) (s t : List Char) :
    leadingName? (s ++ c :: t) = leadingName? s := by
  rw [leadingName?, leadingName?, leadingWords_append_stop s hc]

/-- Behind a parenthesis, no name is found in front of the next comma. -/
theorem namesIn_append_stop (hc : isRunning c = false) (hcomma : c ≠ ',') (s t : List Char) :
    namesIn (s ++ c :: t) = namesIn s ++ namesBehindCommas t := by
  obtain ⟨ps, p, q, qs, hs, ht, hst⟩ := exists_pieces_append hcomma s t
  rw [namesIn, namesIn, namesBehindCommas, hs, ht, hst, List.filterMap_append,
    List.filterMap_append, filterMap_pieces, filterMap_pieces, leadingName?_append_stop hc]
  simp

theorem namesBehindCommas_append_stop (hc : isRunning c = false) (hcomma : c ≠ ',')
    (s t : List Char) :
    namesBehindCommas (s ++ c :: t) = namesBehindCommas s ++ namesBehindCommas t := by
  obtain ⟨ps, p, q, qs, hs, ht, hst⟩ := exists_pieces_append hcomma s t
  rw [namesBehindCommas, namesBehindCommas, namesBehindCommas, hs, ht, hst]
  cases ps with
  | nil => rfl
  | cons p' ps =>
      rw [List.cons_append, List.cons_append, List.tail_cons, List.tail_cons, List.tail_cons,
        List.filterMap_append, List.filterMap_append, filterMap_pieces, filterMap_pieces,
        leadingName?_append_stop hc]
      simp

theorem namesBehindCommas_eq_nil {s : List Char} (h : ',' ∉ s) : namesBehindCommas s = [] := by
  have hpieces : pieces s = [s] := Seq.splitOn_eq_singleton fun c hc => by
    simpa using fun heq : c = ',' => h (heq ▸ hc)
  rw [namesBehindCommas, hpieces]
  rfl

theorem exists_last_of_mem {a : Char} {s : List Char} (h : a ∈ s) :
    ∃ before after, s = before ++ a :: after ∧ a ∉ after := by
  obtain ⟨after, before, hs, ha⟩ := List.eq_append_cons_of_mem (List.mem_reverse.mpr h)
  refine ⟨before.reverse, after.reverse, ?_, by simpa using ha⟩
  rw [← List.reverse_reverse s, hs]
  simp

/-- The text behind a parameter list up to the last parenthesis of the line. No name is found in it
but those behind its commas. -/
theorem exists_cut_result {result : List Char} (h : enclosedFrom 0 result = true) :
    ∃ tail after, ')' :: result = tail ++ ')' :: after ∧ ')' ∉ after ∧
      (∀ c ∈ tail.head?, c = ')') ∧
      ∀ s, namesIn (s ++ tail) = namesIn s ++ namesBehindCommas result := by
  by_cases hclose : ')' ∈ result
  · obtain ⟨before, after, rfl, hafter⟩ := exists_last_of_mem hclose
    obtain ⟨depth, henclosed⟩ := exists_enclosedFrom_of_append (s := before ++ [')']) (t := after)
      (by simpa using h)
    have hcomma : ',' ∉ after := (comma_notMem_of_enclosedFrom henclosed hafter).2
    refine ⟨')' :: before, after, rfl, hafter, by simp, fun s => ?_⟩
    rw [namesIn_append_stop (by decide) (by decide),
      namesBehindCommas_append_stop (by decide) (by decide),
      namesBehindCommas_eq_nil hcomma, List.append_nil]
  · refine ⟨[], result, rfl, hclose, by simp, fun s => ?_⟩
    rw [namesBehindCommas_eq_nil (comma_notMem_of_enclosedFrom h hclose).2, List.append_nil,
      List.append_nil]

end

/-! ### Headers -/

structure Parameter where
  margin : List Char := []
  /-- Modifiers, each with the white space behind it. -/
  modifiers : List (List Char × List Char) := []
  name : List Char
  /-- What follows the name: bounds, type and default. -/
  rest : List Char := []
  margin_space : margin.all Text.isSpace = true := by decide +kernel
  modifiers_read : ∀ m ∈ modifiers, isModifier m.1 = true ∧ m.2 ≠ [] ∧
    m.2.all Text.isSpace = true := by decide +kernel
  name_nonempty : name ≠ [] := by decide +kernel
  name_word : name.all Text.isWord = true := by decide +kernel
  /-- The words of a parameter list are no names. -/
  name_free : isModifier name = false ∧ Chars.lower name ≠ "of".toList := by decide +kernel
  rest_apart : rest.head?.any Text.isWord = false := by decide +kernel
  rest_enclosed : enclosedFrom 0 rest = true := by decide +kernel

namespace Parameter

/-- What stands up to the end of the name. -/
def front (p : Parameter) : List Char :=
  p.margin ++ (p.modifiers.flatMap fun m => m.1 ++ m.2) ++ p.name

def text (p : Parameter) : List Char :=
  p.front ++ p.rest

def key (p : Parameter) : String :=
  String.ofList (Chars.lower p.name)

variable (p : Parameter)

theorem isSpace_margin : ∀ c ∈ p.margin, Text.isSpace c = true :=
  List.all_eq_true.mp p.margin_space

theorem isWord_name : ∀ c ∈ p.name, Text.isWord c = true :=
  List.all_eq_true.mp p.name_word

theorem isWord_rest : ∀ c ∈ p.rest.head?, Text.isWord c = false := by
  intro c hc
  have hapart := p.rest_apart
  rwa [Option.mem_def.mp hc] at hapart

theorem isRunning_front : ∀ c ∈ p.front, isRunning c = true := by
  intro c hc
  rw [isRunning, Bool.or_eq_true_iff]
  rcases List.mem_append.mp hc with hc | hc
  · rcases List.mem_append.mp hc with hc | hc
    · exact .inr (p.isSpace_margin c hc)
    · obtain ⟨m, hm, hc⟩ := List.mem_flatMap.mp hc
      obtain ⟨hmodifier, -, hspace⟩ := p.modifiers_read m hm
      rcases List.mem_append.mp hc with hc | hc
      · exact .inl ((isWord_of_isModifier hmodifier).2 c hc)
      · exact .inr (List.all_eq_true.mp hspace c hc)
  · exact .inl (p.isWord_name c hc)

theorem enclosed_text : enclosedFrom 0 p.text = true := by
  rw [text, enclosedFrom_running p.isRunning_front, p.rest_enclosed]

/-- A word that is no modifier is the name, whatever follows it. -/
theorem nameAmong?_name {t : List Char} (ht : ∀ c ∈ t.head?, Text.isWord c = false) :
    nameAmong? (leadingWords (p.name ++ t)) = some p.name := by
  obtain ⟨space, t, rfl, hspace, hstop⟩ := exists_span Text.isSpace t
  by_cases hspaces : space = []
  · subst hspaces
    rw [List.nil_append, leadingWords_word_stop p.name_nonempty p.isWord_name fun c hc => ?_,
      nameAmong?_singleton]
    simp [isRunning, ht c hc, hstop c hc]
  · rw [leadingWords_word_space p.name_nonempty p.isWord_name hspaces hspace]
    exact nameAmong?_of_not_modifier p.name_free.1 _

/-- A parameter begins with its name, behind the modifiers. -/
theorem leadingName?_front {t : List Char} (ht : ∀ c ∈ t.head?, Text.isWord c = false) :
    leadingName? (p.front ++ t) = some p.key := by
  have hmodifiers (ms : List (List Char × List Char)) (hms : ∀ m ∈ ms, isModifier m.1 = true ∧
      m.2 ≠ [] ∧ m.2.all Text.isSpace = true) :
      nameAmong? (leadingWords ((ms.flatMap fun m => m.1 ++ m.2) ++ (p.name ++ t))) =
        some p.name := by
    induction ms with
    | nil => exact p.nameAmong?_name ht
    | cons m ms ih =>
        obtain ⟨⟨hm, hspaces, hspace⟩, hms⟩ := List.forall_mem_cons.mp hms
        obtain ⟨hne, hword⟩ := isWord_of_isModifier hm
        rw [List.flatMap_cons, List.append_assoc, List.append_assoc,
          leadingWords_word_space hne hword hspaces (List.all_eq_true.mp hspace),
          nameAmong?_of_modifier hm, ih hms]
        rfl
  rw [leadingName?, front, List.append_assoc, List.append_assoc,
    leadingWords_space p.isSpace_margin, hmodifiers p.modifiers p.modifiers_read]
  rfl

/-- The names in the declaration of a parameter. -/
theorem namesIn_text : namesIn p.text = p.key :: namesBehindCommas p.rest := by
  obtain ⟨q, qs, hrest⟩ : ∃ q qs, pieces p.rest = q :: qs := Seq.exists_splitOn_eq (· == ',') _
  have hpieces : pieces p.text = (p.front ++ q) :: qs := by
    refine Seq.splitOn_append_of_not_sep (fun c hc => ?_) hrest
    rw [beq_eq_false_iff_ne]
    rintro rfl
    exact absurd (p.isRunning_front _ hc) (by decide)
  rw [namesIn, namesBehindCommas, hrest, hpieces, filterMap_pieces, List.tail_cons,
    ← leadingName?_eq_of_pieces hpieces, text, p.leadingName?_front p.isWord_rest]
  rfl

end Parameter

def listText (ps : List Parameter) : List Char :=
  [','].intercalate (ps.map Parameter.text)

theorem listText_cons_cons (p q : Parameter) (ps : List Parameter) :
    listText (p :: q :: ps) = p.text ++ ',' :: listText (q :: ps) := by
  simp [listText, List.intercalate_cons_cons]

theorem listText_singleton (p : Parameter) : listText [p] = p.text :=
  List.intercalate_singleton

theorem namesIn_listText (ps : List Parameter) :
    namesIn (listText ps) = ps.flatMap fun p => p.key :: namesBehindCommas p.rest := by
  induction ps with
  | nil => rfl
  | cons p ps ih =>
      rw [List.flatMap_cons, ← ih, ← p.namesIn_text]
      cases ps with
      | nil =>
          rw [listText_singleton]
          exact (List.append_nil _).symm
      | cons q ps =>
          rw [listText_cons_cons, namesIn, pieces, Seq.splitOn_append_cons rfl,
            List.filterMap_append]
          rfl

/-- The parameters are the entries of their list, which is cut at the commas outside
parentheses. -/
theorem entriesFrom_listText {ps : List Parameter} (h : ps ≠ []) :
    entriesFrom 0 (listText ps) = ps.map Parameter.text := by
  induction ps with
  | nil => exact absurd rfl h
  | cons p ps ih =>
      cases ps with
      | nil =>
          have hentry := entriesFrom_append p.enclosed_text (t := []) rfl
          rw [List.append_nil] at hentry
          rw [listText_singleton, hentry]
          rfl
      | cons q ps =>
          have hentries : entriesFrom 0 (',' :: listText (q :: ps)) =
              [] :: (q :: ps).map Parameter.text := by
            rw [← ih (List.cons_ne_nil q ps)]
            rfl
          rw [listText_cons_cons, entriesFrom_append p.enclosed_text hentries, List.append_nil]
          rfl

structure Header where
  /-- What stands in front of the first parenthesis: modifiers, keyword and name. -/
  lead : List Char
  /-- The text of the list of type parameters, if there is one. -/
  typeList : Option (List Char) := none
  params : List Parameter
  /-- What follows the parameter list: the type of the result. -/
  result : List Char := []
  lead_open : '(' ∉ lead := by decide +kernel
  typeList_of : ∀ g ∈ typeList,
    Seq.startsWith "of ".toList (Chars.lower (Chars.trimStart g)) = true := by decide +kernel
  typeList_enclosed : ∀ g ∈ typeList, enclosedFrom 0 ('(' :: (g ++ [')'])) = true := by
    decide +kernel
  result_enclosed : enclosedFrom 0 result = true := by decide +kernel

namespace Header

def text (h : Header) : List Char :=
  h.lead ++ (h.typeList.elim [] fun g => '(' :: (g ++ [')'])) ++
    '(' :: (listText h.params ++ ')' :: h.result)

/-- The names that the header declares. -/
def names (h : Header) : List String :=
  h.params.map Parameter.key

/-- The names behind the commas inside types. -/
def innerNames (h : Header) : List String :=
  (h.params.flatMap fun p => namesBehindCommas p.rest) ++ namesBehindCommas h.result

def recognized (h : Header) : List String :=
  if h.typeList.isSome then []
  else (h.params.flatMap fun p => p.key :: namesBehindCommas p.rest) ++ namesBehindCommas h.result

end Header

theorem cutLast?_eq_none {a : Char} {s : List Char} (h : a ∉ s) :
    Seq.cutLast? (· == a) s = none := by
  induction s with
  | nil => rfl
  | cons b s ih =>
      obtain ⟨hb, hs⟩ := List.ne_and_not_mem_of_not_mem_cons h
      simp [Seq.cutLast?, ih hs, hb.symm]

theorem cutLast?_append_cons {a : Char} (s : List Char) {t : List Char} (h : a ∉ t) :
    Seq.cutLast? (· == a) (s ++ a :: t) = some (s, t) := by
  induction s with
  | nil => simp [Seq.cutLast?, cutLast?_eq_none h]
  | cons b s ih => simp [Seq.cutLast?, ih]

theorem eq_blank_of_lowerChar {c : Char} (h : Text.lowerChar c = ' ') : c = ' ' := by
  unfold Text.lowerChar at h
  split at h
  case isTrue hupper =>
    have hletters : ∀ n < 26, Char.ofNat (65 + n + 32) ≠ ' ' := by decide
    simp only [Text.isAsciiUpper, Bool.and_eq_true, decide_eq_true_eq, Char.le_def,
      UInt32.le_iff_toNat_le] at hupper
    obtain ⟨hlow, hhigh⟩ : 65 ≤ c.toNat ∧ c.toNat ≤ 90 := hupper
    have hcode : 65 + (c.toNat - 65) = c.toNat := by omega
    exact absurd h (hcode ▸ hletters (c.toNat - 65) (by omega))
  case isFalse => exact h

/-- Text that is taken for a list of type parameters begins with the word `Of`. -/
theorem leadingName?_of_typeList {s : List Char}
    (h : Seq.startsWith "of ".toList (Chars.lower (Chars.trimStart s)) = true) :
    leadingName? s = some "of" := by
  obtain ⟨space, t, rfl, hspace, ht⟩ := exists_span Text.isSpace s
  have htrim : Chars.trimStart (space ++ t) = t := by
    rw [Chars.trimStart, List.dropWhile_append_of_pos hspace]
    cases t with
    | nil => rfl
    | cons c t => rw [List.dropWhile_cons, if_neg (by simp [ht c rfl])]
  rw [htrim, Seq.startsWith_iff] at h
  obtain ⟨rest, hrest⟩ := h
  have hrest : 'o' :: 'f' :: ' ' :: rest = Chars.lower t := hrest
  obtain ⟨o, t, rfl, ho, hrest⟩ := List.map_eq_cons_iff.mp hrest.symm
  obtain ⟨f, t, rfl, hf, hrest⟩ := List.map_eq_cons_iff.mp hrest
  obtain ⟨blank, t, rfl, hblank, -⟩ := List.map_eq_cons_iff.mp hrest
  obtain rfl := eq_blank_of_lowerChar hblank
  have hlower : Chars.lower [o, f] = ['o', 'f'] := by simp [Chars.lower, ho, hf]
  have hword : ∀ c ∈ [o, f], Text.isWord c = true := by
    intro c hc
    refine isWord_of_isAsciiLetter_lowerChar ?_
    rcases List.mem_cons.mp hc with rfl | hc
    · rw [ho]
      decide
    · rw [List.mem_singleton.mp hc, hf]
      decide
  have hwords : leadingWords ([o, f] ++ ([' '] ++ t)) = [o, f] :: leadingWords t :=
    leadingWords_word_space (by simp) hword (by simp) (List.all_eq_true.mp (by decide)) t
  have hother : isModifier [o, f] = false := by
    rw [isModifier, hlower]
    decide
  rw [leadingName?, leadingWords_space hspace]
  show (nameAmong? (leadingWords ([o, f] ++ ([' '] ++ t)))).map _ = _
  rw [hwords, nameAmong?_of_not_modifier hother, Option.map_some, hlower]

/-- A parameter list begins with the name of its first parameter. -/
theorem leadingName?_listText (p : Parameter) (ps : List Parameter) {tail : List Char}
    (htail : ∀ c ∈ tail.head?, c = ')') :
    leadingName? (listText (p :: ps) ++ tail) = some p.key := by
  have hapart (t : List Char) (ht : ∀ c ∈ t.head?, Text.isWord c = false) :
      ∀ c ∈ (p.rest ++ t).head?, Text.isWord c = false := by
    intro c hc
    by_cases hrest : p.rest = []
    · rw [hrest] at hc
      exact ht c hc
    · rw [List.head?_append_of_ne_nil _ hrest] at hc
      exact p.isWord_rest c hc
  cases ps with
  | nil =>
      rw [listText_singleton, Parameter.text, List.append_assoc]
      refine p.leadingName?_front (hapart tail fun c hc => ?_)
      rw [htail c hc]
      decide
  | cons q ps =>
      rw [listText_cons_cons, Parameter.text, List.append_assoc, List.append_assoc]
      refine p.leadingName?_front (hapart _ fun c hc => ?_)
      obtain rfl : ',' = c := Option.some.inj hc
      decide

namespace Header

variable (h : Header)

/-- A parameter list is not taken for a list of type parameters. -/
theorem not_typeList_listText {ps : List Parameter} {tail : List Char}
    (htail : ∀ c ∈ tail.head?, c = ')') :
    Seq.startsWith "of ".toList (Chars.lower (Chars.trimStart (listText ps ++ tail))) = false := by
  by_contra hstarts
  have hof := leadingName?_of_typeList (by simpa using hstarts)
  cases ps with
  | nil =>
      have hnone : leadingWords tail = [] := leadingWords_of_stop fun c hc => by
        rw [htail c hc]
        decide
      rw [show listText [] ++ tail = tail from rfl, leadingName?, hnone] at hof
      cases hof
  | cons p ps =>
      rw [leadingName?_listText p ps htail] at hof
      refine p.name_free.2 ?_
      have hkey : String.ofList (Chars.lower p.name) = "of" := Option.some.inj hof
      rw [← hkey, String.toList_ofList]

theorem typeList_append {g : List Char}
    (hg : Seq.startsWith "of ".toList (Chars.lower (Chars.trimStart g)) = true) (t : List Char) :
    Seq.startsWith "of ".toList (Chars.lower (Chars.trimStart (g ++ t))) = true := by
  rw [Seq.startsWith_iff] at hg ⊢
  have hne : (g.dropWhile Text.isSpace).isEmpty = false := by
    cases hempty : g.dropWhile Text.isSpace with
    | nil =>
        rw [Chars.trimStart, hempty] at hg
        exact absurd (List.prefix_nil.mp hg) (by decide)
    | cons c g' => rfl
  rw [Chars.trimStart, List.dropWhile_append, hne, if_neg Bool.false_ne_true, Chars.lower,
    List.map_append]
  exact hg.trans (List.prefix_append _ _)

/-- What is recognized of a header. -/
theorem parameters_text : parameters h.text = h.recognized := by
  obtain ⟨tail, after, hcut, hafter, htail, hnames⟩ := exists_cut_result h.result_enclosed
  cases hlist : h.typeList with
  | none =>
      have htext : h.text = h.lead ++ '(' :: ((listText h.params ++ tail) ++ ')' :: after) := by
        rw [text, hlist, hcut]
        simp
      rw [htext, parameters_of_cut (Seq.cut?_append_cons h.lead_open _)
        (cutLast?_append_cons _ hafter), not_typeList_listText htail, if_neg Bool.false_ne_true,
        hnames, namesIn_listText, recognized, hlist]
      rfl
  | some g =>
      have htext : h.text = h.lead ++
          '(' :: ((g ++ ')' :: '(' :: (listText h.params ++ tail)) ++ ')' :: after) := by
        rw [text, hlist, hcut]
        simp
      rw [htext, parameters_of_cut (Seq.cut?_append_cons h.lead_open _)
        (cutLast?_append_cons _ hafter), typeList_append (h.typeList_of g hlist), if_pos rfl,
        recognized, hlist]
      rfl

theorem mem_recognized_iff (hlist : h.typeList = none) {x : String} :
    x ∈ h.recognized ↔ x ∈ h.names ∨ x ∈ h.innerNames := by
  simp only [recognized, hlist, Option.isSome_none, Bool.false_eq_true, if_false, names, innerNames,
    List.mem_append, List.mem_flatMap, List.mem_cons, List.mem_map]
  constructor
  · rintro (⟨p, hp, rfl | hx⟩ | hx)
    · exact .inl ⟨p, hp, rfl⟩
    · exact .inr (.inl ⟨p, hp, hx⟩)
    · exact .inr (.inr hx)
  · rintro (⟨p, hp, rfl⟩ | ⟨p, hp, hx⟩ | hx)
    · exact .inl ⟨p, hp, .inl rfl⟩
    · exact .inl ⟨p, hp, .inr hx⟩
    · exact .inr hx

/-- A header is read as it is meant exactly if its inner names are declared as well, and nothing is
declared behind type parameters. -/
theorem recognized_eq_names_iff :
    (∀ x, x ∈ h.recognized ↔ x ∈ h.names) ↔
      if h.typeList.isSome then h.params = [] else ∀ x ∈ h.innerNames, x ∈ h.names := by
  cases hlist : h.typeList with
  | some g =>
      have hnone : h.recognized = [] := by
        rw [recognized, hlist]
        rfl
      rw [hnone, Option.isSome_some, if_pos rfl]
      simp [names, List.eq_nil_iff_forall_not_mem]
  | none =>
      rw [Option.isSome_none, if_neg Bool.false_ne_true]
      refine forall_congr' fun x => ?_
      rw [h.mem_recognized_iff hlist]
      constructor
      · exact fun hiff hx => hiff.mp (.inr hx)
      · exact fun hinner => ⟨fun hx => hx.elim id hinner, .inl⟩

end Header

/-! ### Calls -/

/-- A name before a parenthesis that is member of nothing, not reserved and not constructed. -/
structure Bare (line : List Char) (g : Group) : Prop where
  found : ∃ m ∈ callPattern.all (symbolsOf line), m.group? 1 = none ∧ m.group? 2 = some g
  free : isReserved g.string = false
  used : isConstructed line g.start = false

def Announced (line : List Char) (g : Group) : Prop :=
  ∃ m ∈ callStatement.all (symbolsOf line), ∃ g', m.group? 1 = some g' ∧
    g'.start = g.start ∧ g'.string = g.string

section

variable {text : List Symbol} {line : List Char} {m m' : Match} {g g' : Group}

/-- The name of a match lies inside the match. -/
theorem bounds_of_callName (hm : m ∈ callPattern.all text) (hg : m.group? 2 = some g) :
    m.start ≤ g.start ∧ g.start < m.stop := by
  obtain ⟨before, rest, last, -, -, hhere⟩ := exists_here?_of_mem_allFrom hm
  obtain ⟨reached, hreached, hstart, hstop, hgroups, -⟩ := here?_eq_some hhere
  obtain ⟨a, ha, hreached⟩ := mem_runs_seqs_cons.mp hreached
  obtain ⟨b, hb, hreached⟩ := mem_runs_seqs_cons.mp hreached
  obtain ⟨c, hc, hreached⟩ := mem_runs_seqs_cons.mp hreached
  obtain ⟨d, hd, hreached⟩ := mem_runs_seqs_cons.mp hreached
  obtain ⟨e, rest', -, -, rfl⟩ := mem_runs_one.mp hreached
  obtain ⟨name, hname, rfl⟩ := List.mem_map.mp hc
  have hfound : m.groups = name.groups ++ [⟨2, b.offset, name.offset, b.upTo name⟩] :=
    hgroups.trans (groups_of_groupFree rfl hd)
  obtain rfl : ⟨2, b.offset, name.offset, b.upTo name⟩ = g := by
    simpa [Match.group?, hfound] using hg
  have hbefore := ((reaches_of_mem_runs ha).trans (reaches_of_mem_runs hb)).offset_le
  have hbehind := (reaches_of_mem_runs hname).offset_le
  have hspaces := (reaches_of_mem_runs hd).offset_le
  dsimp only [Place.next] at hstop hbefore hbehind hspaces ⊢
  omega

/-- Two matches find their names at different places. -/
theorem eq_of_callName_start (hm : m ∈ callPattern.all text) (hm' : m' ∈ callPattern.all text)
    (hg : m.group? 2 = some g) (hg' : m'.group? 2 = some g') (hstart : g.start = g'.start) :
    m = m' := by
  let Apart (m m' : Match) : Prop := ∀ g g', m.group? 2 = some g → m'.group? 2 = some g' →
    g.start = g'.start → m = m'
  have hapart : (callPattern.all text).Pairwise Apart := by
    refine (pairwise_all callPattern text).imp_of_mem fun hm hm' hle g g' hg hg' hstart => ?_
    have hbounds := bounds_of_callName hm hg
    have hbounds' := bounds_of_callName hm' hg'
    omega
  have hsymm : Std.Symm Apart := ⟨fun _ _ h g g' hg hg' hstart =>
    (h g' g hg' hg hstart.symm).symm⟩
  exact hapart.forall_of_forall (fun _ _ _ _ _ _ _ => rfl) hm hm' g g' hg hg' hstart

/-- A call stands where the name of its match stands. -/
theorem exists_group_of_callOf? {locals : List String} {call : Call}
    (h : callOf? line locals m = some call) :
    ∃ g, m.group? 2 = some g ∧ call = ⟨g.start, g.string⟩ := by
  unfold callOf? at h
  split at h
  case h_1 => cases h
  case h_2 g hg =>
    dsimp only at h
    refine ⟨g, hg, ?_⟩
    split at h
    · cases h
    · split at h
      · exact (Option.some.inj h).symm
      · split at h
        · cases h
        · split at h
          · cases h
          · exact (Option.some.inj h).symm

/-- A bare name is a call unless it is local, and it is one in any case behind `Call`. -/
theorem mem_callsOnLine_iff (h : Bare line g) (locals : List String) :
    ⟨g.start, g.string⟩ ∈ callsOnLine line locals ↔
      Text.lower g.string ∉ locals ∨ Announced line g := by
  obtain ⟨m, hm, hbare, hg⟩ := h.found
  have hcall : callOf? line locals m =
      if locals.contains (Text.lower g.string) then none else some ⟨g.start, g.string⟩ := by
    simp only [callOf?, hg, hbare, h.free, h.used, Bool.false_eq_true, if_false,
      Option.isSome_none]
  rw [callsOnLine, List.mem_mergeSort, List.mem_append, List.mem_filterMap, List.mem_filterMap]
  refine or_congr ⟨?_, fun hlocal => ⟨m, hm, ?_⟩⟩
    (exists_congr fun m' => and_congr_right fun _ => ?_)
  · rintro ⟨m', hm', hcall'⟩ hlocal
    obtain ⟨g', hg', heq⟩ := exists_group_of_callOf? hcall'
    obtain rfl := eq_of_callName_start hm hm' hg hg' (congrArg Call.place heq)
    rw [hcall, if_pos (List.contains_iff_mem.mpr hlocal)] at hcall'
    cases hcall'
  · rw [hcall, if_neg (by simpa using hlocal)]
  · unfold statementCall?
    cases m'.group? 1 with
    | none => simp
    | some g' =>
        simp only [Option.some.injEq, exists_eq_left']
        constructor
        · intro hcall
          split at hcall
          · cases hcall
          · exact Call.mk.inj (Option.some.inj hcall)
        · rintro ⟨hstart, hstring⟩
          rw [hstring, h.free, hstart, if_neg Bool.false_ne_true]

end

/-- The parameters of a header are its entries. Recognized are their names and the names behind the
commas inside types, and none behind type parameters; these are the declared names exactly if the
inner names are declared as well, or if nothing is declared behind type parameters. In the body, a
bare name is a call exactly if it is not recognized and not declared on a line of the body, or if
`Call` announces it; each call gives an edge. -/
theorem parameters_recognized (h : Header) :
    (h.params ≠ [] → entriesFrom 0 (listText h.params) = h.params.map Parameter.text) ∧
      parameters h.text = h.recognized ∧
      ((∀ x, x ∈ parameters h.text ↔ x ∈ h.names) ↔
        if h.typeList.isSome then h.params = [] else ∀ x ∈ h.innerNames, x ∈ h.names) ∧
      ∀ f : SourceFile, ∀ r ∈ bodiesOf f,
        let lines := Chars.lines (Utf8.lossy f.bytes)
        strip (lines[r.start]?.getD []) = h.text →
          ∀ i raw, r.Covers i → lines[i]? = some raw → ∀ g, Bare (strip raw) g →
            (⟨g.start, g.string⟩ ∈ callsOnLine (strip raw) (Blocks.localsOf lines r) ↔
              (Text.lower g.string ∉ h.recognized ∧
                ∀ line ∈ Blocks.bodyLines lines r, Text.lower g.string ∉ localsOnLine line) ∨
              Announced (strip raw) g) ∧
            (⟨g.start, g.string⟩ ∈ callsOnLine (strip raw) (Blocks.localsOf lines r) →
              ⟨r.id, (Blocks.ofLines f.path lines).resolveCall r.owner g.string, Relation.calls⟩ ∈
                (analyze f).edges) := by
  refine ⟨entriesFrom_listText, h.parameters_text, ?_, ?_⟩
  · rw [h.parameters_text]
    exact h.recognized_eq_names_iff
  · intro f r hr lines hheader i raw hcovers hraw g hbare
    constructor
    · rw [mem_callsOnLine_iff hbare, Blocks.localsOf, hheader, h.parameters_text, List.mem_append,
        not_or, List.mem_flatMap]
      simp only [not_exists, not_and]
    · intro hcall
      have hline := Blocks.mem_bodyLines.mpr ⟨i, raw, hcovers, hraw, rfl⟩
      exact (Blocks.mem_edges_foldl_linkCalls (Blocks.ofLines f.path lines) lines
        (bodiesOf f)).mpr (.inr ⟨r, hr, strip raw, hline, _, hcall, rfl⟩)

/-- A header with a modifier and with parentheses in a type. -/
def listHeader : Header where
  lead := "Sub F".toList
  params :=
    [{ modifiers := [("ByVal".toList, [' '])], name := ['p'], rest := " As List(Of T)".toList },
      { margin := [' '], name := ['q'] }]

def listFile : SourceFile :=
  ⟨"a.vb", Utf8.encode "Sub F(ByVal p As List(Of T), q)\np(1)\nG(2)\nEnd Sub\n".toList⟩

theorem listHeader_recognized :
    listHeader.text = "Sub F(ByVal p As List(Of T), q)".toList ∧
      (∀ x, x ∈ parameters listHeader.text ↔ x ∈ ["p", "q"]) ∧
      ⟨0, "p"⟩ ∉ callsOnLine (strip "p(1)".toList)
        (Blocks.localsOf (Chars.lines (Utf8.lossy listFile.bytes)) ⟨"a.vb:F", none, 0, 3⟩) ∧
      ⟨"a.vb:F", "UNKNOWN:G", Relation.calls⟩ ∈ (analyze listFile).edges := by
  obtain ⟨-, -, hnames, hcalls⟩ := parameters_recognized listHeader
  have hinner : listHeader.innerNames = [] := by decide +kernel
  have hdeclared : listHeader.names = ["p", "q"] := by decide +kernel
  have hbody : ⟨"a.vb:F", none, 0, 3⟩ ∈ bodiesOf listFile := by decide +kernel
  have hindexed : Bare (strip "p(1)".toList) ⟨2, 0, 1, symbolsOf "p".toList⟩ :=
    ⟨by decide +kernel, by decide +kernel, by decide +kernel⟩
  have hcalled : Bare (strip "G(2)".toList) ⟨2, 0, 1, symbolsOf "G".toList⟩ :=
    ⟨by decide +kernel, by decide +kernel, by decide +kernel⟩
  obtain ⟨hfirst, -⟩ := hcalls listFile _ hbody (by decide +kernel) 1 "p(1)".toList (by decide)
    (by decide +kernel) _ hindexed
  obtain ⟨hsecond, hedge⟩ := hcalls listFile _ hbody (by decide +kernel) 2 "G(2)".toList (by decide)
    (by decide +kernel) _ hcalled
  rw [string_symbolsOf] at hfirst hsecond hedge
  refine ⟨by decide +kernel, ?_, ?_, ?_⟩
  · have hplain : listHeader.typeList.isSome = false := rfl
    rw [← hdeclared]
    refine hnames.mpr ?_
    rw [hplain, if_neg Bool.false_ne_true, hinner]
    simp
  · rw [hfirst]
    rintro (⟨hunknown, -⟩ | ⟨m, hm, -⟩)
    · exact hunknown (by decide +kernel)
    · have hnone : callStatement.all (symbolsOf (strip "p(1)".toList)) = [] := by decide +kernel
      rw [hnone] at hm
      cases hm
  · exact hedge (hsecond.mpr (.inl (by decide +kernel)))

/-- Behind a list of type parameters, a parameter. -/
def genericHeader : Header where
  lead := "Sub F".toList
  typeList := some "Of T".toList
  params := [{ name := ['x'], rest := " As T".toList }]

def genericFile : SourceFile :=
  ⟨"a.vb", Utf8.encode "Sub F(Of T)(x As T)\nx(1)\nEnd Sub\n".toList⟩

/-- A comma inside the type of a parameter. -/
def nestedHeader : Header where
  lead := "Sub F".toList
  params := [{ name := ['d'], rest := " As Dictionary(Of K, V)".toList }]

def nestedFile : SourceFile :=
  ⟨"a.vb", Utf8.encode "Sub F(d As Dictionary(Of K, V))\nV(1)\nEnd Sub\n".toList⟩

/-- A parameter behind type parameters is not recognized, and its use is taken for a call; the
second type argument is taken for a parameter, and a call of that name is lost. -/
theorem parameters_misread :
    (¬ ∀ h : Header, ∀ x, x ∈ parameters h.text ↔ x ∈ h.names) ∧
      parameters genericHeader.text = [] ∧ genericHeader.names = ["x"] ∧
      (analyze genericFile).edges = [⟨"a.vb:F", "UNKNOWN:x", Relation.calls⟩] ∧
      parameters nestedHeader.text = ["d", "v"] ∧ nestedHeader.names = ["d"] ∧
      (analyze nestedFile).edges = [] := by
  have hgeneric : parameters genericHeader.text = [] := by decide +kernel
  have hnames : genericHeader.names = ["x"] := by decide +kernel
  refine ⟨fun hall => ?_, hgeneric, hnames, by decide +kernel, by decide +kernel,
    by decide +kernel, by decide +kernel⟩
  have hx := (hall genericHeader "x").mpr (by simp [hnames])
  rw [hgeneric] at hx
  cases hx

end CodeGraph.Vb

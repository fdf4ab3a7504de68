import CodeGraph.Proofs.Text.Lines
import CodeGraph.Proofs.Text.Preference
import CodeGraph.Proofs.Vb.Headers
import CodeGraph.Vb.Calls

/-!
The names that the parameter pattern finds. It looks at the beginning of each piece between two
commas and nowhere else: there it skips white space and modifiers and takes the next word. The
parentheses of a header play no part beyond the outermost ones.
-/

namespace CodeGraph.Vb

open Pattern

/-! ### Characters -/

def spaceCodes : List Nat :=
  [9, 10, 11, 12, 13, 0x20, 0x85, 0xa0, 0x1680, 0x2000, 0x2001, 0x2002, 0x2003, 0x2004, 0x2005,
    0x2006, 0x2007, 0x2008, 0x2009, 0x200a, 0x2028, 0x2029, 0x202f, 0x205f, 0x3000]

theorem isWord_eq_false_of_isSpace {c : Char} (h : Text.isSpace c = true) :
    Text.isWord c = false := by
  have hcodes : ∀ n ∈ spaceCodes, Text.isWord (Char.ofNat n) = false := by decide +kernel
  have hmem : c.toNat ∈ spaceCodes := by
    simp only [Text.isSpace, Bool.or_eq_true, Bool.and_eq_true, decide_eq_true_eq,
      beq_iff_eq] at h
    simp only [spaceCodes, List.mem_cons, List.not_mem_nil, or_false]
    omega
  have hword := hcodes c.toNat hmem
  rwa [Char.ofNat_toNat] at hword

theorem isWord_of_isAsciiLetter_lowerChar {c : Char}
    (h : Text.isAsciiLetter (Text.lowerChar c) = true) : Text.isWord c = true := by
  rw [Text.isWord, isAsciiLetter_of_lowerChar h]
  rfl

/-! ### Stretches of a text -/

section

variable {p : Char → Bool} {u u' v v' : List Char}

theorem exists_span (p : Char → Bool) (s : List Char) :
    ∃ u v, s = u ++ v ∧ (∀ c ∈ u, p c = true) ∧ ∀ c ∈ v.head?, p c = false := by
  refine ⟨s.takeWhile p, s.dropWhile p, List.takeWhile_append_dropWhile.symm,
    List.all_eq_true.mp List.all_takeWhile, fun c hc => ?_⟩
  have hstop := List.head?_dropWhile_not p s
  rw [Option.mem_def.mp hc] at hstop
  simpa using hstop

theorem takeWhile_span (hu : ∀ c ∈ u, p c = true) (hv : ∀ c ∈ v.head?, p c = false) :
    (u ++ v).takeWhile p = u := by
  have hstop : v.takeWhile p = [] := by
    cases v with
    | nil => rfl
    | cons c v => rw [List.takeWhile_cons, if_neg (by simp [hv c rfl])]
  rw [List.takeWhile_append_of_pos hu, hstop, List.append_nil]

/-- The stretch of a class at the beginning of a text is determined by the text. -/
theorem span_inj (hu : ∀ c ∈ u, p c = true) (hu' : ∀ c ∈ u', p c = true)
    (hv : ∀ c ∈ v.head?, p c = false) (hv' : ∀ c ∈ v'.head?, p c = false)
    (h : u ++ v = u' ++ v') : u = u' ∧ v = v' := by
  obtain rfl : u = u' := by rw [← takeWhile_span hu hv, h, takeWhile_span hu' hv']
  exact ⟨rfl, List.append_cancel_left h⟩

/-- Part of the stretch at the beginning of a text leaves the other part. -/
theorem exists_left_of_span (hu' : ∀ c ∈ u', p c = true) (hv : ∀ c ∈ v.head?, p c = false)
    (h : u ++ v = u' ++ v') : ∃ left, u = u' ++ left ∧ v' = left ++ v := by
  rcases List.append_eq_append_iff.mp h with ⟨more, rfl, rfl⟩ | ⟨left, rfl, rfl⟩
  · cases more with
    | nil => exact ⟨[], by simp, rfl⟩
    | cons c more =>
        have hc := hu' c (List.mem_append_right _ List.mem_cons_self)
        rw [hv c rfl] at hc
        cases hc
  · exact ⟨left, rfl, rfl⟩

end

/-! ### Leading words -/

/-- A character of a word or white space. -/
def isRunning (c : Char) : Bool :=
  Text.isWord c || Text.isSpace c

/-- The words in front of the first character that is neither part of a word nor white space. -/
def leadingWords (s : List Char) : List (List Char) :=
  Chars.words (s.takeWhile isRunning)

theorem words_space {c : Char} (hc : Text.isSpace c = true) (s : List Char) :
    Chars.words (c :: s) = Chars.words s := by
  rw [Chars.words, Seq.splitOn_cons_of_sep hc, List.filter_cons, if_neg (by simp)]
  rfl

theorem words_word_space {w : List Char} (hne : w ≠ []) (hw : ∀ c ∈ w, Text.isSpace c = false)
    {c : Char} (hc : Text.isSpace c = true) (s : List Char) :
    Chars.words (w ++ c :: s) = w :: Chars.words s := by
  rw [Chars.words, Seq.splitOn_append_cons hc, Seq.splitOn_eq_singleton hw, List.singleton_append,
    List.filter_cons, if_pos (by simpa using hne)]
  rfl

theorem words_word {w : List Char} (hne : w ≠ []) (hw : ∀ c ∈ w, Text.isSpace c = false) :
    Chars.words w = [w] := by
  rw [Chars.words, Seq.splitOn_eq_singleton hw, List.filter_cons, if_pos (by simpa using hne)]
  rfl

section

variable {w space s t : List Char}

theorem isSpace_eq_false_of_isWord {c : Char} (h : Text.isWord c = true) :
    Text.isSpace c = false := by
  by_contra hspace
  rw [isWord_eq_false_of_isSpace (by simpa using hspace)] at h
  cases h

theorem leadingWords_of_stop (h : ∀ c ∈ s.head?, isRunning c = false) : leadingWords s = [] := by
  cases s with
  | nil => rfl
  | cons c s =>
      rw [leadingWords, List.takeWhile_cons, if_neg (by simp [h c rfl])]
      rfl

theorem leadingWords_space (hspace : ∀ c ∈ space, Text.isSpace c = true) (s : List Char) :
    leadingWords (space ++ s) = leadingWords s := by
  induction space with
  | nil => rfl
  | cons c space ih =>
      obtain ⟨hc, hspace⟩ := List.forall_mem_cons.mp hspace
      rw [← ih hspace, leadingWords, List.cons_append, List.takeWhile_cons,
        if_pos (by simp [isRunning, hc]), words_space hc]
      rfl

/-- A word and the white space behind it. -/
theorem leadingWords_word_space (hne : w ≠ []) (hw : ∀ c ∈ w, Text.isWord c = true)
    (hspaces : space ≠ []) (hspace : ∀ c ∈ space, Text.isSpace c = true) (s : List Char) :
    leadingWords (w ++ (space ++ s)) = w :: leadingWords s := by
  cases space with
  | nil => exact absurd rfl hspaces
  | cons c space =>
      obtain ⟨hc, hspace⟩ := List.forall_mem_cons.mp hspace
      rw [← leadingWords_space hspace s, leadingWords,
        List.takeWhile_append_of_pos fun c hc => by simp [isRunning, hw c hc], List.cons_append,
        List.takeWhile_cons, if_pos (by simp [isRunning, hc]),
        words_word_space hne (fun c hc => isSpace_eq_false_of_isWord (hw c hc)) hc]
      rfl

/-- A word behind which no other word follows. -/
theorem leadingWords_word_stop (hne : w ≠ []) (hw : ∀ c ∈ w, Text.isWord c = true)
    (hs : ∀ c ∈ s.head?, isRunning c = false) : leadingWords (w ++ s) = [w] := by
  rw [leadingWords, takeWhile_span (fun c hc => by simp [isRunning, hw c hc]) hs,
    words_word hne fun c hc => isSpace_eq_false_of_isWord (hw c hc)]

/-- What follows a character that belongs to no word and is no white space does not matter. -/
theorem leadingWords_append_stop (s : List Char) {c : Char} (hc : isRunning c = false)
    (t : List Char) : leadingWords (s ++ c :: t) = leadingWords s := by
  have htake : (s ++ c :: t).takeWhile isRunning = s.takeWhile isRunning := by
    induction s with
    | nil => simp [hc]
    | cons d s ih => rw [List.cons_append, List.takeWhile_cons, List.takeWhile_cons, ih]
  rw [leadingWords, leadingWords, htake]

end

/-! ### Modifiers -/

def parameterModifiers : List String := ["ByVal", "ByRef", "Optional", "ParamArray"]

def isModifier (w : List Char) : Bool :=
  (parameterModifiers.map fun m => Chars.lower m.toList).contains (Chars.lower w)

/-- A modifier is what the keyword reads, in any letter case. -/
theorem isModifier_iff {w : List Char} :
    isModifier w = true ↔ ∃ m ∈ parameterModifiers,
      List.Forall₂ (fun c d => Text.sameLetter c d = true) m.toList w := by
  have hletters : ∀ m ∈ parameterModifiers, (m.toList.all fun c =>
      Text.lowerChar c != 's' && Text.lowerChar c != 'k') = true := by decide
  rw [isModifier, List.contains_iff_mem, List.mem_map]
  constructor
  · rintro ⟨m, hm, hlower⟩
    exact ⟨m, hm, sameLetter_of_lower_eq hlower⟩
  · rintro ⟨m, hm, hsame⟩
    exact ⟨m, hm, lower_eq_of_sameLetter (by simpa using hletters m hm) hsame⟩

theorem isWord_of_isModifier {w : List Char} (h : isModifier w = true) :
    w ≠ [] ∧ ∀ c ∈ w, Text.isWord c = true := by
  have hletters : ∀ m ∈ parameterModifiers, m.toList ≠ [] ∧
      (Chars.lower m.toList).all Text.isAsciiLetter = true := by decide
  rw [isModifier, List.contains_iff_mem, List.mem_map] at h
  obtain ⟨m, hm, hlower⟩ := h
  obtain ⟨hne, hm⟩ := hletters m hm
  constructor
  · rintro rfl
    exact hne (List.map_eq_nil_iff.mp hlower)
  · intro c hc
    refine isWord_of_isAsciiLetter_lowerChar (List.all_eq_true.mp hm _ ?_)
    rw [hlower]
    exact List.mem_map_of_mem hc

/-- The word that is taken for a name: the first one that is no modifier, or else the last one. -/
def nameAmong? (ws : List (List Char)) : Option (List Char) :=
  (ws.find? fun w => !isModifier w).or ws.getLast?

theorem nameAmong?_of_modifier {w : List Char} (h : isModifier w = true) (ws : List (List Char)) :
    nameAmong? (w :: ws) = (nameAmong? ws).or (some w) := by
  rw [nameAmong?, nameAmong?, List.find?_cons, h, List.getLast?_cons, Option.or_assoc]
  cases ws.getLast? <;> rfl

theorem nameAmong?_of_not_modifier {w : List Char} (h : isModifier w = false)
    (ws : List (List Char)) : nameAmong? (w :: ws) = some w := by
  rw [nameAmong?, List.find?_cons, h]
  rfl

theorem nameAmong?_singleton (w : List Char) : nameAmong? [w] = some w := by
  cases h : isModifier w with
  | true => rw [nameAmong?_of_modifier h]; rfl
  | false => exact nameAmong?_of_not_modifier h []

/-! ### Preferred runs -/

def remembered (b : Pattern.Place) : List (Nat × List Symbol) :=
  b.groups.map fun g => (g.index, g.text)

def namePattern : Pattern :=
  seqs [modifiers parameterModifiers, group 1 word]

section

variable {a b : Pattern.Place} {s : List Char}

theorem symbolsOf_append (s t : List Char) : symbolsOf (s ++ t) = symbolsOf s ++ symbolsOf t :=
  List.map_append

theorem exists_eq_symbolsOf {read : List Char} {rest : List Symbol}
    (h : symbolsOf s = symbolsOf read ++ rest) : ∃ t, s = read ++ t ∧ rest = symbolsOf t := by
  obtain ⟨read', t, rfl, hread, hrest⟩ := List.map_eq_append_iff.mp h
  have hinj : Function.Injective Symbol.char := fun _ _ => Symbol.char.inj
  obtain rfl := List.map_injective_iff.mpr hinj hread
  exact ⟨t, rfl, hrest.symm⟩

theorem mem_runs_modifier :
    b ∈ (seq (keywords parameterModifiers) spaces1).runs a ↔
      ∃ w space rest, a.rest = symbolsOf (w ++ space) ++ rest ∧ isModifier w = true ∧
        space ≠ [] ∧ (∀ c ∈ space, Text.isSpace c = true) ∧ b = a.past (w ++ space) rest := by
  rw [runs, List.mem_flatMap]
  constructor
  · rintro ⟨mid, hmid, hb⟩
    rw [keywords, runs_alts, List.mem_flatMap] at hmid
    obtain ⟨_, hp, hmid⟩ := hmid
    obtain ⟨m, hm, rfl⟩ := List.mem_map.mp hp
    obtain ⟨w, between, ha, hw, rfl⟩ := mem_runs_keyword.mp hmid
    obtain ⟨space, rest, hne, hbetween, hspace, rfl⟩ := mem_runs_some1_one.mp hb
    have hbetween : between = symbolsOf space ++ rest := hbetween
    refine ⟨w, space, rest, ?_, isModifier_iff.mpr ⟨m, hm, hw⟩, hne, hspace, Place.past_past ..⟩
    rw [ha, hbetween, symbolsOf_append, List.append_assoc]
  · rintro ⟨w, space, rest, ha, hw, hne, hspace, rfl⟩
    obtain ⟨m, hm, hsame⟩ := isModifier_iff.mp hw
    rw [symbolsOf_append, List.append_assoc] at ha
    refine ⟨a.past w (symbolsOf space ++ rest), ?_, mem_runs_some1_one.mpr ?_⟩
    · rw [keywords, runs_alts, List.mem_flatMap]
      exact ⟨keyword m, List.mem_map_of_mem hm, mem_runs_keyword.mpr ⟨w, _, ha, hsame, rfl⟩⟩
    · exact ⟨space, rest, hne, rfl, hspace, (Place.past_past ..).symm⟩

theorem runs_namePattern (a : Pattern.Place) :
    namePattern.runs a = ((seq (keywords parameterModifiers) spaces1).runs a).flatMap
      namePattern.runs ++ (group 1 word).runs a := by
  have hprogress : ∀ a, ∀ b ∈ (seq (keywords parameterModifiers) spaces1).runs a,
      b.rest.length < a.rest.length := by
    intro a b hb
    obtain ⟨w, space, rest, ha, -, hne, -, rfl⟩ := mem_runs_modifier.mp hb
    have hlength : 0 < space.length := List.length_pos_of_ne_nil hne
    rw [ha]
    simp only [Place.past, List.length_append, symbolsOf, List.length_map]
    omega
  show ((modifiers parameterModifiers).runs a).flatMap (group 1 word).runs = _
  rw [modifiers, runs_most_eq hprogress, List.flatMap_append, List.flatMap_singleton,
    List.flatMap_assoc]
  rfl

/-- A word is read to its end. -/
theorem head?_runs_word {w t : List Char} (ha : a.rest = symbolsOf (w ++ t)) (hne : w ≠ [])
    (hw : ∀ c ∈ w, Text.isWord c = true) (ht : ∀ c ∈ t.head?, Text.isWord c = false) :
    (((group 1 word).runs a).head?).map remembered =
      some (remembered a ++ [(1, symbolsOf w)]) := by
  rw [symbolsOf_append] at ha
  have hword : (word.runs a).head? = some (a.past w (symbolsOf t)) :=
    head?_runs_some1_one hne ha hw (by rwa [head?_symbolsOf])
  rw [head?_runs_group hword ha, Option.map_some, remembered, Place.remember]
  simp [remembered, Place.past]

theorem runs_word_of_stop (ha : a.rest = symbolsOf s) (hs : ∀ c ∈ s.head?, Text.isWord c = false) :
    (group 1 word).runs a = [] := by
  have hstuck : word.runs a = [] := by
    refine List.eq_nil_iff_forall_not_mem.mpr fun b hb => ?_
    obtain ⟨read, rest, hne, hrest, hread, -⟩ := mem_runs_some1_one.mp hb
    obtain ⟨t, rfl, -⟩ := exists_eq_symbolsOf (ha.symm.trans hrest)
    obtain ⟨c, read, rfl⟩ := List.exists_cons_of_ne_nil hne
    have hword := hread c List.mem_cons_self
    rw [hs c rfl] at hword
    cases hword
  rw [runs, hstuck, List.map_nil]

theorem runs_namePattern_of_stop (ha : a.rest = symbolsOf s)
    (hs : ∀ c ∈ s.head?, Text.isWord c = false) : namePattern.runs a = [] := by
  have hstuck : (seq (keywords parameterModifiers) spaces1).runs a = [] := by
    refine List.eq_nil_iff_forall_not_mem.mpr fun b hb => ?_
    obtain ⟨w, space, rest, hrest, hw, -⟩ := mem_runs_modifier.mp hb
    obtain ⟨t, rfl, -⟩ := exists_eq_symbolsOf (ha.symm.trans hrest)
    obtain ⟨hne, hword⟩ := isWord_of_isModifier hw
    obtain ⟨c, w, rfl⟩ := List.exists_cons_of_ne_nil hne
    have hword := hword c List.mem_cons_self
    rw [hs c rfl] at hword
    cases hword
  rw [runs_namePattern, hstuck, runs_word_of_stop ha hs]
  rfl

/-- A run that leaves white space behind gets stuck. -/
theorem runs_namePattern_of_left {read left t : List Char}
    (hleft : ∀ c ∈ left, Text.isSpace c = true) :
    namePattern.runs (a.past read (symbolsOf (left ++ t))) =
        namePattern.runs (a.past (read ++ left) (symbolsOf t)) ∨
      namePattern.runs (a.past read (symbolsOf (left ++ t))) = [] := by
  cases left with
  | nil => exact .inl (by simp)
  | cons c left =>
      refine .inr (runs_namePattern_of_stop rfl fun d hd => ?_)
      obtain rfl : c = d := Option.some.inj hd
      exact isWord_eq_false_of_isSpace (hleft c List.mem_cons_self)

/-- Where a modifier is read, it is the first word, and some of the white space behind it is read
as well. -/
theorem eq_past_of_mem_runs_modifier {w space t : List Char}
    (ha : a.rest = symbolsOf (w ++ (space ++ t))) (hw : ∀ c ∈ w, Text.isWord c = true)
    (hspace : ∀ c ∈ space, Text.isSpace c = true)
    (hword : ∀ c ∈ (space ++ t).head?, Text.isWord c = false)
    (ht : ∀ c ∈ t.head?, Text.isSpace c = false)
    (hb : b ∈ (seq (keywords parameterModifiers) spaces1).runs a) :
    isModifier w = true ∧ ∃ read left, space = read ++ left ∧ read ≠ [] ∧
      b = a.past (w ++ read) (symbolsOf (left ++ t)) := by
  obtain ⟨w', read, rest, hrest, hw', hne, hread, rfl⟩ := mem_runs_modifier.mp hb
  obtain ⟨t', hs, rfl⟩ := exists_eq_symbolsOf (ha.symm.trans hrest)
  rw [List.append_assoc] at hs
  have hbehind : ∀ c ∈ (read ++ t').head?, Text.isWord c = false := by
    intro c hc
    obtain ⟨d, read, rfl⟩ := List.exists_cons_of_ne_nil hne
    obtain rfl : d = c := Option.some.inj hc
    exact isWord_eq_false_of_isSpace (hread d List.mem_cons_self)
  obtain ⟨rfl, hspaces⟩ := span_inj hw (isWord_of_isModifier hw').2 hword hbehind hs
  obtain ⟨left, rfl, rfl⟩ := exists_left_of_span hread ht hspaces
  exact ⟨hw', read, left, rfl, hne, rfl⟩

/-- Behind white space, the pattern takes the name among the words that stand there. -/
theorem head?_runs_namePattern (ha : a.rest = symbolsOf s)
    (hs : ∀ c ∈ s.head?, Text.isSpace c = false) :
    ((namePattern.runs a).head?).map remembered =
      (nameAmong? (leadingWords s)).map fun w => remembered a ++ [(1, symbolsOf w)] := by
  induction hn : s.length using Nat.strong_induction_on generalizing s a with
  | _ n ih =>
      obtain ⟨w, r, rfl, hw, hr⟩ := exists_span Text.isWord s
      by_cases hne : w = []
      · subst hne
        have hstop : ∀ c ∈ r.head?, isRunning c = false := fun c hc => by
          simp [isRunning, hr c hc, hs c hc]
        rw [List.nil_append, runs_namePattern_of_stop ha hr, leadingWords_of_stop hstop]
        rfl
      obtain ⟨space, t, rfl, hspace, ht⟩ := exists_span Text.isSpace r
      have hword := head?_runs_word ha hne hw hr
      by_cases hmodifier : isModifier w = true ∧ space ≠ []
      · obtain ⟨hmodifier, hspaces⟩ := hmodifier
        let full : Pattern.Place := a.past (w ++ space) (symbolsOf t)
        have hfull : full ∈ (seq (keywords parameterModifiers) spaces1).runs a := by
          refine mem_runs_modifier.mpr ⟨w, space, _, ?_, hmodifier, hspaces, hspace, rfl⟩
          rw [ha, ← symbolsOf_append, List.append_assoc]
        have hsteps : (((seq (keywords parameterModifiers) spaces1).runs a).flatMap
            namePattern.runs).head? = (namePattern.runs full).head? := by
          refine head?_flatMap_of_mem (fun b hb => ?_) ⟨full, hfull, rfl⟩
          obtain ⟨-, read, left, rfl, -, rfl⟩ :=
            eq_past_of_mem_runs_modifier ha hw hspace hr ht hb
          simp only [full, ← List.append_assoc]
          exact runs_namePattern_of_left fun c hc => hspace c (by simp [hc])
        have hlength : t.length < n := by
          have hpos : 0 < space.length := List.length_pos_of_ne_nil hspaces
          rw [← hn, List.length_append, List.length_append]
          omega
        have hrest := ih t.length hlength (a := full) rfl ht rfl
        rw [runs_namePattern, List.head?_append, hsteps, Option.map_or, hrest, hword,
          leadingWords_word_space hne hw hspaces hspace, nameAmong?_of_modifier hmodifier,
          Option.map_or]
        rfl
      · have hstuck : (seq (keywords parameterModifiers) spaces1).runs a = [] := by
          refine List.eq_nil_iff_forall_not_mem.mpr fun b hb => hmodifier ?_
          obtain ⟨hw', read, left, rfl, hread, -⟩ :=
            eq_past_of_mem_runs_modifier ha hw hspace hr ht hb
          exact ⟨hw', by simp [hread]⟩
        have hname : nameAmong? (leadingWords (w ++ (space ++ t))) = some w := by
          by_cases hspaces : space = []
          · subst hspaces
            rw [List.nil_append, leadingWords_word_stop hne hw fun c hc => ?_,
              nameAmong?_singleton]
            simp [isRunning, hr c hc, ht c hc]
          · rw [leadingWords_word_space hne hw hspaces hspace]
            exact nameAmong?_of_not_modifier (by simpa [hspaces] using hmodifier) _
        rw [runs_namePattern, hstuck, List.flatMap_nil, List.nil_append, hword, hname]
        rfl

def piecePattern : Pattern :=
  seqs [spaces, modifiers parameterModifiers, group 1 word]

theorem head?_runs_piecePattern (ha : a.rest = symbolsOf s) :
    ((piecePattern.runs a).head?).map remembered =
      (nameAmong? (leadingWords s)).map fun w => remembered a ++ [(1, symbolsOf w)] := by
  obtain ⟨space, t, rfl, hspace, ht⟩ := exists_span Text.isSpace s
  let full : Pattern.Place := a.past space (symbolsOf t)
  have hfull : full ∈ spaces.runs a :=
    mem_runs_most_one.mpr ⟨space, symbolsOf t, by rw [ha, symbolsOf_append], hspace, rfl⟩
  have hsteps : (piecePattern.runs a).head? = (namePattern.runs full).head? := by
    refine head?_flatMap_of_mem (fun b hb => ?_) ⟨full, hfull, rfl⟩
    obtain ⟨read, rest, hrest, hread, rfl⟩ := mem_runs_most_one.mp hb
    obtain ⟨t', hs, rfl⟩ := exists_eq_symbolsOf (ha.symm.trans hrest)
    obtain ⟨left, rfl, rfl⟩ := exists_left_of_span hread ht hs
    exact runs_namePattern_of_left fun c hc => hspace c (by simp [hc])
  rw [hsteps, head?_runs_namePattern (a := full) rfl ht, leadingWords_space hspace]
  rfl

end

/-! ### Pieces between commas -/

def leadingName? (piece : List Char) : Option String :=
  (nameAmong? (leadingWords piece)).map fun w => String.ofList (Chars.lower w)

def pieces (s : List Char) : List (List Char) :=
  Seq.splitOn (· == ',') s

def foundName? (m : Match) : Option String :=
  (m.group? 1).map fun g => Text.lower g.string

theorem foundName?_of_remembered {m : Match} {b : Pattern.Place} {w : List Char}
    (hm : m.groups = b.groups) (hb : remembered b = [(1, symbolsOf w)]) :
    foundName? m = some (String.ofList (Chars.lower w)) := by
  obtain ⟨g, hg, heq⟩ := List.map_eq_singleton_iff.mp hb
  obtain ⟨hindex, htext⟩ := Prod.mk.inj heq
  have hchars : g.chars = w := by
    rw [Group.chars, htext, symbolsOf, List.map_map]
    exact List.map_id' w
  rw [foundName?, Match.group?, hm, hg, List.reverse_singleton, List.find?_cons, hindex]
  simp [Group.string, hchars, Text.lower, Text.onChars]

section

variable {last : Option Symbol} {offset : Nat} {c : Char} {s t : List Char}

/-- A match finds the name that the preferred run remembers. -/
theorem foundName?_here? {p : Pattern}
    (h : ((p.runs ⟨last, offset, symbolsOf s, []⟩).head?).map remembered =
      (nameAmong? (leadingWords t)).map fun w => [(1, symbolsOf w)]) :
    (p.here? last offset (symbolsOf s)).map foundName? = (leadingName? t).map some := by
  rw [here?, leadingName?]
  cases hhead : (p.runs ⟨last, offset, symbolsOf s, []⟩).head? with
  | none =>
      rw [hhead] at h
      rw [Option.map_eq_none_iff.mp h.symm]
      rfl
  | some b =>
      rw [hhead, Option.map_some] at h
      obtain ⟨w, hw, hb⟩ := Option.map_eq_some_iff.mp h.symm
      rw [hw]
      exact congrArg some (foundName?_of_remembered rfl hb.symm)

theorem runs_parameterPattern (a : Pattern.Place) :
    parameterPattern.runs a =
      (start.runs a ++ (char ',').runs a).flatMap piecePattern.runs := rfl

theorem runs_piecePattern_of_stop {a : Pattern.Place} (ha : a.rest = symbolsOf (c :: t))
    (hc : isRunning c = false) : piecePattern.runs a = [] := by
  have hnone := head?_runs_piecePattern ha
  rw [leadingWords_of_stop (by simpa using hc)] at hnone
  exact List.head?_eq_none_iff.mp (Option.map_eq_none_iff.mp hnone)

/-- At a comma, the name behind it is found. -/
theorem foundName?_here?_comma (last : Option Symbol) (offset : Nat) (t : List Char) :
    (parameterPattern.here? last offset (symbolsOf (',' :: t))).map foundName? =
      (leadingName? t).map some := by
  let a : Pattern.Place := ⟨last, offset, symbolsOf (',' :: t), []⟩
  have hstart : (start.runs a).flatMap piecePattern.runs = [] := by
    refine List.flatMap_eq_nil_iff.mpr fun b hb => ?_
    unfold runs at hb
    split at hb
    · rw [List.mem_singleton.mp hb]
      exact runs_piecePattern_of_stop (c := ',') rfl (by decide)
    · cases hb
  have hcomma : (char ',').runs a = [a.next (.char ',') (symbolsOf t)] := runs_one rfl rfl
  refine foundName?_here? ?_
  rw [runs_parameterPattern, List.flatMap_append, hstart, hcomma, List.nil_append,
    List.flatMap_singleton, head?_runs_piecePattern rfl]
  rfl

theorem here?_of_ne_comma (l : Symbol) (offset : Nat) (hc : c ≠ ',') (t : List Char) :
    parameterPattern.here? (some l) offset (symbolsOf (c :: t)) = none := by
  have hcomma : (char ',').runs ⟨some l, offset, symbolsOf (c :: t), []⟩ = [] :=
    runs_one_of_not_accepts (by simpa [symbolsOf, Symbol.char?] using hc)
  rw [here?, runs_parameterPattern, hcomma]
  rfl

/-- At the beginning of a text that does not begin with a comma, a name is found there. -/
theorem foundName?_here?_start (hc : c ≠ ',') (t : List Char) :
    (parameterPattern.here? none offset (symbolsOf (c :: t))).map foundName? =
      (leadingName? (c :: t)).map some := by
  let a : Pattern.Place := ⟨none, offset, symbolsOf (c :: t), []⟩
  have hcomma : (char ',').runs a = [] :=
    runs_one_of_not_accepts (by simpa [a, symbolsOf, Symbol.char?] using hc)
  refine foundName?_here? ?_
  rw [runs_parameterPattern, hcomma, List.append_nil]
  show (([a].flatMap piecePattern.runs).head?).map remembered = _
  rw [List.flatMap_singleton, head?_runs_piecePattern rfl]
  rfl

theorem notMem_take_of_read {read rest : List Symbol} (h : symbolsOf t = read ++ rest)
    (hc : .char c ∉ read) : c ∉ t.take read.length := by
  intro hmem
  have hread : symbolsOf (t.take read.length) = read := by
    rw [symbolsOf, List.map_take, ← symbolsOf, h, List.take_left]
  exact hc (hread ▸ List.mem_map_of_mem hmem)

/-- A match reads no comma behind its first character. -/
theorem comma_notMem_of_here? {m : Match}
    (h : parameterPattern.here? last offset (symbolsOf (c :: t)) = some m) :
    ',' ∉ t.take (m.text.length - 1) := by
  obtain ⟨b, hhead, rfl⟩ := Option.map_eq_some_iff.mp h
  have hb := List.mem_of_head? hhead
  rw [runs_parameterPattern] at hb
  obtain ⟨mid, hmid, hb⟩ := List.mem_flatMap.mp hb
  obtain ⟨read, hread, hcomma⟩ := without_of_avoids (c := ',') (by decide) hb
  rcases List.mem_append.mp hmid with hmid | hmid
  · obtain rfl : mid = ⟨last, offset, symbolsOf (c :: t), []⟩ := by
      unfold runs at hmid
      split at hmid
      · exact List.mem_singleton.mp hmid
      · cases hmid
    rw [upTo_of_rest_eq hread]
    cases read with
    | nil => simp
    | cons r read =>
        exact notMem_take_of_read (List.cons.inj hread).2 fun hmem =>
          hcomma (List.mem_cons_of_mem _ hmem)
  · obtain ⟨d, rest, hrest, -, rfl⟩ := mem_runs_one.mp hmid
    obtain ⟨-, rfl⟩ : Symbol.char c = .char d ∧ symbolsOf t = rest := List.cons.inj hrest
    have hread : symbolsOf t = read ++ b.rest := hread
    have hwhole : symbolsOf (c :: t) = (.char c :: read) ++ b.rest := by
      rw [List.cons_append, ← hread]
      rfl
    rw [upTo_of_rest_eq hwhole]
    exact notMem_take_of_read hread hcomma

end

/-! ### All pieces -/

section

variable {c : Char} {s p : List Char} {ps : List (List Char)}

theorem pieces_comma (s : List Char) : pieces (',' :: s) = [] :: pieces s :=
  Seq.splitOn_cons_of_sep rfl s

theorem pieces_cons (hc : c ≠ ',') (hs : pieces s = p :: ps) : pieces (c :: s) = (c :: p) :: ps :=
  Seq.splitOn_cons_of_not_sep (by simpa using hc) hs

/-- A text begins with the name that its first piece begins with. -/
theorem leadingName?_eq_of_pieces (hs : pieces s = p :: ps) : leadingName? s = leadingName? p := by
  have htake : s.takeWhile isRunning = p.takeWhile isRunning := by
    induction s generalizing p ps with
    | nil =>
        obtain ⟨rfl, -⟩ := List.cons.inj hs
        rfl
    | cons c s ih =>
        obtain ⟨q, qs, hq⟩ := Seq.exists_splitOn_eq (· == ',') s
        by_cases hc : c = ','
        · subst hc
          obtain ⟨rfl, -⟩ := List.cons.inj ((pieces_comma s).symm.trans hs)
          rw [List.takeWhile_cons, if_neg (by decide)]
          rfl
        · obtain ⟨rfl, -⟩ := List.cons.inj ((pieces_cons hc hq).symm.trans hs)
          rw [List.takeWhile_cons, List.takeWhile_cons, ih hq]
  rw [leadingName?, leadingName?, leadingWords, leadingWords, htake]

end

theorem filterMap_pieces (p : List Char) (ps : List (List Char)) :
    (p :: ps).filterMap leadingName? = (leadingName? p).toList ++ ps.filterMap leadingName? := by
  rw [List.filterMap_cons]
  cases leadingName? p <;> rfl

/-- One place: what is found there, and then what is found behind it. -/
theorem filterMap_foundName?_step {last : Option Symbol} {offset : Nat} {c : Char} {s : List Char}
    {name? : Option String} {names : List String}
    (hhere : (parameterPattern.here? last offset (symbolsOf (c :: s))).map foundName? =
      name?.map some)
    (hnames : ∀ skip, ',' ∉ s.take skip → (parameterPattern.allFrom (some (.char c)) (offset + 1)
      skip (symbolsOf s)).filterMap foundName? = names) :
    (parameterPattern.allFrom last offset 0 (symbolsOf (c :: s))).filterMap foundName? =
      name?.toList ++ names := by
  show (parameterPattern.allFrom last offset 0 (.char c :: symbolsOf s)).filterMap foundName? = _
  rw [allFrom]
  cases hfound : parameterPattern.here? last offset (symbolsOf (c :: s)) with
  | none =>
      rw [hfound] at hhere
      obtain rfl : name? = none := Option.map_eq_none_iff.mp hhere.symm
      have hfound : parameterPattern.here? last offset (.char c :: symbolsOf s) = none := hfound
      rw [hfound]
      exact hnames 0 (by simp)
  | some m =>
      rw [hfound] at hhere
      obtain ⟨name, rfl, hname⟩ := Option.map_eq_some_iff.mp hhere.symm
      have hrest := hnames (m.text.length - 1) (comma_notMem_of_here? hfound)
      have hfound : parameterPattern.here? last offset (.char c :: symbolsOf s) = some m := hfound
      rw [hfound]
      dsimp only
      rw [List.filterMap_cons, ← hname, hrest]
      rfl

/-- Behind the beginning of a text, the pattern finds the names behind its commas. -/
theorem filterMap_foundName?_allFrom (l : Symbol) (offset skip : Nat) (s : List Char)
    (hskip : ',' ∉ s.take skip) :
    (parameterPattern.allFrom (some l) offset skip (symbolsOf s)).filterMap foundName? =
      (pieces s).tail.filterMap leadingName? := by
  induction s generalizing l offset skip with
  | nil => rfl
  | cons c s ih =>
      obtain ⟨p, ps, hs⟩ : ∃ p ps, pieces s = p :: ps := Seq.exists_splitOn_eq (· == ',') s
      have hrest (skip : Nat) (hskip : ',' ∉ s.take skip) :
          (parameterPattern.allFrom (some (.char c)) (offset + 1) skip
            (symbolsOf s)).filterMap foundName? = ps.filterMap leadingName? := by
        rw [ih _ _ _ hskip, hs, List.tail_cons]
      cases skip with
      | succ skip =>
          obtain ⟨hc, hskip⟩ := List.ne_and_not_mem_of_not_mem_cons hskip
          rw [pieces_cons hc.symm hs, List.tail_cons, ← hrest skip hskip]
          rfl
      | zero =>
          by_cases hc : c = ','
          · subst hc
            rw [filterMap_foundName?_step (foundName?_here?_comma _ _ s) hrest, pieces_comma,
              List.tail_cons, hs, filterMap_pieces, leadingName?_eq_of_pieces hs]
          · have hnone : (parameterPattern.here? (some l) offset (symbolsOf (c :: s))).map
                foundName? = (none : Option String).map some := by
              rw [here?_of_ne_comma l offset hc s]
              rfl
            rw [filterMap_foundName?_step hnone hrest, pieces_cons hc hs, List.tail_cons]
            rfl

/-- The pattern finds one name in each piece that begins with one. -/
theorem filterMap_foundName?_all (s : List Char) :
    (parameterPattern.all (symbolsOf s)).filterMap foundName? =
      (pieces s).filterMap leadingName? := by
  cases s with
  | nil => rfl
  | cons c s =>
      obtain ⟨p, ps, hs⟩ : ∃ p ps, pieces s = p :: ps := Seq.exists_splitOn_eq (· == ',') s
      have hrest (skip : Nat) (hskip : ',' ∉ s.take skip) :
          (parameterPattern.allFrom (some (.char c)) 1 skip (symbolsOf s)).filterMap foundName? =
            ps.filterMap leadingName? := by
        rw [filterMap_foundName?_allFrom _ _ _ s hskip, hs, List.tail_cons]
      rw [all]
      by_cases hc : c = ','
      · subst hc
        rw [filterMap_foundName?_step (foundName?_here?_comma none 0 s) hrest, pieces_comma, hs,
          leadingName?_eq_of_pieces hs, ← filterMap_pieces]
        rfl
      · have hpieces := pieces_cons hc hs
        rw [filterMap_foundName?_step (foundName?_here?_start hc s) hrest, hpieces,
          leadingName?_eq_of_pieces hpieces, ← filterMap_pieces]

/-- The names that stand at the beginning of a text and behind its commas. -/
def namesIn (s : List Char) : List String :=
  (pieces s).filterMap leadingName?

def namesBehindCommas (s : List Char) : List String :=
  (pieces s).tail.filterMap leadingName?

/-- The parameters of a header are the names between its outermost parentheses, unless these begin
with a list of type parameters. -/
theorem parameters_of_cut {header before rest inner after : List Char}
    (hopen : Seq.cut? ['('] header = some (before, rest))
    (hclose : Seq.cutLast? (· == ')') rest = some (inner, after)) :
    parameters header =
      if Seq.startsWith "of ".toList (Chars.lower (Chars.trimStart inner)) then []
      else namesIn inner := by
  have hfound : ((parameterPattern.all (symbolsOf inner)).filterMap (·.group? 1)).map
      (fun g => Text.lower g.string) = namesIn inner := by
    rw [namesIn, ← filterMap_foundName?_all, List.map_filterMap]
    rfl
  simp only [parameters, hopen, hclose, hfound]

end CodeGraph.Vb

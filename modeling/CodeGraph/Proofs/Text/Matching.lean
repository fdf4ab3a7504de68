import CodeGraph.Proofs.Text.Patterns

/-!
Matching step by step. Where each part of a pattern can be read in one way only, the runs of the
whole are found by reading one part after the other; a repeated character class prefers to read as
far as it can. A pattern that is anchored at the beginning matches there or nowhere.
-/

namespace CodeGraph.Pattern

variable {p q : Pattern} {ps : List Pattern} {a b : Place}

/-! ### One part after the other -/

theorem runs_seqs_cons (p : Pattern) (ps : List Pattern) (a : Place) :
    (seqs (p :: ps)).runs a = (p.runs a).flatMap (seqs ps).runs := by
  cases ps with
  | nil => exact (List.flatMap_singleton' _).symm
  | cons q qs => rfl

theorem runs_seqs_append (ps qs : List Pattern) (a : Place) :
    (seqs (ps ++ qs)).runs a = ((seqs ps).runs a).flatMap (seqs qs).runs := by
  induction ps generalizing a with
  | nil => exact (List.flatMap_singleton ..).symm
  | cons p ps ih =>
      rw [List.cons_append, runs_seqs_cons, runs_seqs_cons, List.flatMap_assoc]
      exact List.flatMap_congr fun b _ => ih b

theorem runs_seqs_of_runs (h : p.runs a = [b]) :
    (seqs (p :: q :: ps)).runs a = (seqs (q :: ps)).runs b := by
  show (p.runs a).flatMap (seqs (q :: ps)).runs = _
  rw [h, List.flatMap_singleton]

theorem runs_seqs_of_stuck (h : p.runs a = []) : (seqs (p :: q :: ps)).runs a = [] := by
  show (p.runs a).flatMap (seqs (q :: ps)).runs = _
  rw [h, List.flatMap_nil]

theorem upTo_of_rest_eq {read : List Symbol} (h : a.rest = read ++ b.rest) : a.upTo b = read := by
  rw [Place.upTo, h, List.length_append, Nat.add_sub_cancel, List.take_left]

def Place.remember (b : Place) (index start : Nat) (text : List Symbol) : Place :=
  { b with groups := b.groups ++ [⟨index, start, b.offset, text⟩] }

theorem runs_group_of_runs {index : Nat} {read : List Symbol} (h : p.runs a = [b])
    (hread : a.rest = read ++ b.rest) :
    (group index p).runs a = [b.remember index a.offset read] := by
  simp only [runs, h, List.map_singleton, upTo_of_rest_eq hread, Place.remember]

theorem head?_runs_group {index : Nat} {read : List Symbol} (h : (p.runs a).head? = some b)
    (hread : a.rest = read ++ b.rest) :
    ((group index p).runs a).head? = some (b.remember index a.offset read) := by
  simp only [runs, List.head?_map, h, Option.map_some, upTo_of_rest_eq hread, Place.remember]

theorem runs_most_of_stuck (h : p.runs a = []) : (most p).runs a = [a] := by
  have hgreedy (limit : Nat) : greedy p.runs limit a = [a] := by
    cases limit with
    | zero => rfl
    | succ n => rw [greedy, h, List.flatMap_nil, List.nil_append]
  exact hgreedy _

/-! ### Character classes -/

def Place.past (a : Place) (read : List Char) (rest : List Symbol) : Place :=
  { a with
    last := (read.getLast?.map Symbol.char).or a.last
    offset := a.offset + read.length
    rest }

variable {accepts : Char → Bool} {c : Char} {rest : List Symbol}

theorem Place.past_nil (a : Place) : a.past [] a.rest = a := rfl

theorem Place.past_next (a : Place) (c : Char) (between : List Symbol) (read : List Char)
    (rest : List Symbol) : (a.next (.char c) between).past read rest = a.past (c :: read) rest := by
  have hlast : (read.getLast?.map Symbol.char).or (some (.char c)) =
      ((c :: read).getLast?.map Symbol.char).or a.last := by
    rw [List.getLast?_cons]
    cases read.getLast? <;> rfl
  have hoffset : a.offset + 1 + read.length = a.offset + (c :: read).length := by
    rw [List.length_cons]
    omega
  simp only [Place.past, Place.next, hlast, hoffset]

theorem runs_one (ha : a.rest = .char c :: rest) (hc : accepts c = true) :
    (one accepts).runs a = [a.next (.char c) rest] := by
  simp only [runs, ha, hc, if_true]

theorem runs_one_of_not_accepts (h : ∀ c ∈ a.rest.head?.bind Symbol.char?, accepts c = false) :
    (one accepts).runs a = [] := by
  unfold runs
  split
  case h_1 c rest hrest => rw [if_neg (by simp [h c (by simp [hrest, Symbol.char?])])]
  case h_2 => rfl

/-- The preferred run of a repeated class reads all characters of the class that stand here. -/
theorem head?_runs_most_one {read : List Char} (ha : a.rest = symbolsOf read ++ rest)
    (hread : ∀ c ∈ read, accepts c = true)
    (hrest : ∀ c ∈ rest.head?.bind Symbol.char?, accepts c = false) :
    ((most (one accepts)).runs a).head? = some (a.past read rest) := by
  have hgreedy (limit : Nat) (hlimit : read.length ≤ limit) :
      (greedy (one accepts).runs limit a).head? = some (a.past read rest) := by
    induction read generalizing a limit with
    | nil =>
        have hstuck : (one accepts).runs a = [] :=
          runs_one_of_not_accepts (by rw [ha]; exact hrest)
        obtain rfl : a.rest = rest := ha
        rw [Place.past_nil]
        cases limit with
        | zero => rfl
        | succ n => rw [greedy, hstuck, List.flatMap_nil, List.nil_append, List.head?_cons]
    | cons c read ih =>
        obtain ⟨hc, hread⟩ := List.forall_mem_cons.mp hread
        obtain ⟨n, rfl⟩ : ∃ n, limit = n + 1 := ⟨limit - 1, by simp at hlimit; omega⟩
        have hnext := ih (a := a.next (.char c) (symbolsOf read ++ rest)) rfl hread n
          (Nat.le_of_succ_le_succ hlimit)
        have ha : a.rest = .char c :: (symbolsOf read ++ rest) := ha
        rw [greedy, runs_one ha hc, List.flatMap_singleton, List.head?_append, hnext,
          Place.past_next]
        rfl
  exact hgreedy a.rest.length (by simp [ha, symbolsOf])

theorem head?_runs_some1_one {read : List Char} (hne : read ≠ [])
    (ha : a.rest = symbolsOf read ++ rest) (hread : ∀ c ∈ read, accepts c = true)
    (hrest : ∀ c ∈ rest.head?.bind Symbol.char?, accepts c = false) :
    ((some1 (one accepts)).runs a).head? = some (a.past read rest) := by
  cases read with
  | nil => exact absurd rfl hne
  | cons c read =>
      obtain ⟨hc, hread⟩ := List.forall_mem_cons.mp hread
      have ha : a.rest = .char c :: (symbolsOf read ++ rest) := ha
      show (((one accepts).runs a).flatMap (most (one accepts)).runs).head? = _
      rw [runs_one ha hc, List.flatMap_singleton, head?_runs_most_one rfl hread hrest,
        Place.past_next]

/-- One character of a class, behind which stands none. -/
theorem runs_some1_one (ha : a.rest = .char c :: rest) (hc : accepts c = true)
    (hrest : ∀ c ∈ rest.head?.bind Symbol.char?, accepts c = false) :
    (some1 (one accepts)).runs a = [a.next (.char c) rest] := by
  have hstuck : (one accepts).runs (a.next (.char c) rest) = [] := runs_one_of_not_accepts hrest
  show ((one accepts).runs a).flatMap (most (one accepts)).runs = _
  rw [runs_one ha hc, List.flatMap_singleton, runs_most_of_stuck hstuck]

/-! ### Keywords -/

def startsAs : List Char → List Symbol → Bool
  | [], _ => true
  | c :: cs, .char d :: rest => Text.sameLetter c d && startsAs cs rest
  | _ :: _, _ => false

theorem runs_keyword_eq_nil_iff {cs : List Char} :
    (seqs (cs.map fun c => one (Text.sameLetter c))).runs a = [] ↔ startsAs cs a.rest = false := by
  induction cs generalizing a with
  | nil => simp [seqs, runs, startsAs]
  | cons c cs ih =>
      rw [List.map_cons, runs_seqs_cons]
      by_cases hread : ∃ d rest, a.rest = .char d :: rest ∧ Text.sameLetter c d = true
      · obtain ⟨d, rest, ha, hd⟩ := hread
        rw [runs_one ha hd, List.flatMap_singleton, ih, ha, startsAs, hd, Bool.true_and]
        rfl
      · have hstuck : (one (Text.sameLetter c)).runs a = [] := by
          refine List.eq_nil_iff_forall_not_mem.mpr fun b hb => hread ?_
          obtain ⟨d, rest, ha, hd, -⟩ := mem_runs_one.mp hb
          exact ⟨d, rest, ha, hd⟩
        rw [hstuck, List.flatMap_nil]
        refine iff_of_true rfl (Bool.eq_false_iff.mpr fun hstarts => hread ?_)
        unfold startsAs at hstarts
        split at hstarts
        case h_1 heq => cases heq
        case h_2 d rest heq hrest =>
          obtain ⟨rfl, -⟩ := List.cons.inj heq
          exact ⟨d, rest, hrest, (Bool.and_eq_true_iff.mp hstarts).1⟩
        case h_3 => cases hstarts

/-- A text that goes on with another letter begins with nothing more than before. -/
theorem startsAs_of_append {cs : List Char} {d : Char} (hd : cs.any (Text.sameLetter · d) = false)
    {x y : List Symbol} (h : startsAs cs (x ++ .char d :: y) = true) : startsAs cs x = true := by
  fun_induction startsAs cs x with
  | case1 => rfl
  | case2 c cs e rest ih =>
      obtain ⟨-, hcs⟩ := Bool.or_eq_false_iff.mp hd
      obtain ⟨he, hrest⟩ := Bool.and_eq_true_iff.mp h
      exact Bool.and_eq_true_iff.mpr ⟨he, ih hcs hrest⟩
  | case3 c cs x hnone =>
      cases x with
      | nil =>
          obtain ⟨hc, -⟩ := Bool.and_eq_true_iff.mp h
          have hother : Text.sameLetter c d = false := (Bool.or_eq_false_iff.mp hd).1
          rw [hother] at hc
          cases hc
      | cons s x =>
          cases s with
          | char e => exact absurd rfl (hnone e x)
          | broken bytes => cases h

/-- A pattern that occurs nowhere matches at no place. -/
theorem here?_of_firstFrom?_eq_none {last : Option Symbol} {offset : Nat} {before : List Symbol}
    {s : Symbol} (h : p.firstFrom? last offset (before ++ s :: rest) = none) :
    ∃ last' offset', p.here? last' offset' (s :: rest) = none := by
  induction before generalizing last offset with
  | nil =>
      obtain ⟨hhere, -⟩ := Option.or_eq_none_iff.mp h
      exact ⟨last, offset, hhere⟩
  | cons s' before ih =>
      obtain ⟨-, hlater⟩ := Option.or_eq_none_iff.mp h
      exact ih hlater

/-- A keyword that does not occur in a text begins at none of its symbols. -/
theorem startsAs_eq_false_of_not_occursIn {word : String} {text before : List Symbol} {s : Symbol}
    (h : (keyword word).occursIn text = false) (htext : text = before ++ s :: rest) :
    startsAs word.toList (s :: rest) = false := by
  rw [occursIn, Option.isSome_eq_false_iff, Option.isNone_iff_eq_none, htext] at h
  obtain ⟨last, offset, hnone⟩ := here?_of_firstFrom?_eq_none h
  rw [here?, Option.map_eq_none_iff, List.head?_eq_none_iff] at hnone
  exact runs_keyword_eq_nil_iff.mp hnone

/-! ### Anchored patterns -/

theorem firstFrom?_of_anchored (p : Pattern) (ps : List Pattern) (s : Symbol) (offset : Nat)
    (text : List Symbol) : (seqs (start :: p :: ps)).firstFrom? (some s) offset text = none := by
  induction text generalizing s offset with
  | nil => rfl
  | cons s' rest ih =>
      rw [firstFrom?, ih, here?, runs_seqs_of_stuck rfl]
      rfl

/-- An anchored pattern matches at the beginning or nowhere. -/
theorem first?_of_anchored (p : Pattern) (ps : List Pattern) {text : List Symbol} (h : text ≠ []) :
    (seqs (start :: p :: ps)).first? text = (seqs (p :: ps)).here? none 0 text := by
  cases text with
  | nil => exact absurd rfl h
  | cons s rest =>
      rw [first?, firstFrom?, firstFrom?_of_anchored, Option.or_none, here?,
        runs_seqs_of_runs rfl]
      rfl

end CodeGraph.Pattern

import CodeGraph.Text.Pattern
import Mathlib.Data.List.Basic

/-!
Where matches lie. Every run of a pattern reads a stretch of the text in front of it, and the parts
it remembers on the way lie inside that stretch. Hence each match lies inside the text, its parts
lie inside the match, and of two matches the earlier one ends before the later one starts.
-/

namespace CodeGraph.Pattern

/-! ### Places of one text -/

/-- The second place lies ahead of the first: the text between them has been read, and what has
been remembered since lies between them. -/
structure Place.Reaches (a b : Place) : Prop where
  rest : ∃ read, a.rest = read ++ b.rest ∧ b.offset = a.offset + read.length
  groups : ∃ found, b.groups = a.groups ++ found ∧
    ∀ g ∈ found, a.offset ≤ g.start ∧ g.start ≤ g.stop ∧ g.stop ≤ b.offset

namespace Place.Reaches

variable {a b c : Place}

theorem refl (a : Place) : a.Reaches a :=
  ⟨⟨[], rfl, rfl⟩, ⟨[], (List.append_nil _).symm, by simp⟩⟩

theorem offset_le (h : a.Reaches b) : a.offset ≤ b.offset := by
  obtain ⟨read, -, hoffset⟩ := h.rest
  omega

theorem trans (hab : a.Reaches b) (hbc : b.Reaches c) : a.Reaches c := by
  obtain ⟨read, hread, hoffset⟩ := hab.rest
  obtain ⟨read', hread', hoffset'⟩ := hbc.rest
  obtain ⟨found, hfound, hinside⟩ := hab.groups
  obtain ⟨found', hfound', hinside'⟩ := hbc.groups
  refine ⟨⟨read ++ read', ?_, ?_⟩, ⟨found ++ found', ?_, fun g hg => ?_⟩⟩
  · rw [hread, hread', List.append_assoc]
  · rw [hoffset', hoffset, List.length_append, Nat.add_assoc]
  · rw [hfound', hfound, List.append_assoc]
  · have hb : a.offset ≤ b.offset := hab.offset_le
    have hc : b.offset ≤ c.offset := hbc.offset_le
    rcases List.mem_append.mp hg with hg | hg
    · obtain ⟨hstart, horder, hstop⟩ := hinside g hg
      exact ⟨hstart, horder, by omega⟩
    · obtain ⟨hstart, horder, hstop⟩ := hinside' g hg
      exact ⟨by omega, horder, hstop⟩

theorem next {s : Symbol} {rest : List Symbol} (h : a.rest = s :: rest) :
    a.Reaches (a.next s rest) :=
  ⟨⟨[s], h, rfl⟩, ⟨[], (List.append_nil _).symm, by simp⟩⟩

/-- Remembering what has been read since a place. -/
theorem record (h : a.Reaches b) (index : Nat) (text : List Symbol) :
    a.Reaches { b with groups := b.groups ++ [⟨index, a.offset, b.offset, text⟩] } := by
  obtain ⟨found, hfound, hinside⟩ := h.groups
  refine ⟨h.rest, ⟨found ++ [⟨index, a.offset, b.offset, text⟩], ?_, fun g hg => ?_⟩⟩
  · show b.groups ++ _ = _
    rw [hfound, List.append_assoc]
  · rcases List.mem_append.mp hg with hg | hg
    · exact hinside g hg
    · rw [List.mem_singleton.mp hg]
      exact ⟨Nat.le_refl _, h.offset_le, Nat.le_refl _⟩

theorem length_upTo (h : a.Reaches b) : (a.upTo b).length = b.offset - a.offset := by
  obtain ⟨read, hread, hoffset⟩ := h.rest
  have hlength : a.rest.length = read.length + b.rest.length := by
    rw [hread, List.length_append]
  rw [Place.upTo, List.length_take]
  omega

end Place.Reaches

/-! ### Runs -/

section Repetition

variable {step : Place → List Place} {R : Place → Place → Prop}

/-- What a single step keeps and chains of steps keep is kept by a repetition. -/
theorem greedy_rel (hrefl : ∀ a, R a a) (htrans : ∀ {a b c}, R a b → R b c → R a c)
    (hstep : ∀ a, ∀ b ∈ step a, R a b) {limit : Nat} {a b : Place}
    (h : b ∈ greedy step limit a) : R a b := by
  induction limit generalizing a with
  | zero => rw [List.mem_singleton.mp h]; exact hrefl a
  | succ n ih =>
      rcases List.mem_append.mp h with h | h
      · obtain ⟨mid, hmid, hb⟩ := List.mem_flatMap.mp h
        exact htrans (hstep a mid hmid) (ih hb)
      · rw [List.mem_singleton.mp h]
        exact hrefl a

theorem reluctant_rel (hrefl : ∀ a, R a a) (htrans : ∀ {a b c}, R a b → R b c → R a c)
    (hstep : ∀ a, ∀ b ∈ step a, R a b) {limit : Nat} {a b : Place}
    (h : b ∈ reluctant step limit a) : R a b := by
  induction limit generalizing a with
  | zero => rw [List.mem_singleton.mp h]; exact hrefl a
  | succ n ih =>
      rcases List.mem_cons.mp h with rfl | h
      · exact hrefl b
      · obtain ⟨mid, hmid, hb⟩ := List.mem_flatMap.mp h
        exact htrans (hstep a mid hmid) (ih hb)

end Repetition

/-- A single character is read when it is accepted. -/
theorem mem_runs_one {accepts : Char → Bool} {a b : Place} :
    b ∈ (one accepts).runs a ↔
      ∃ c rest, a.rest = .char c :: rest ∧ accepts c = true ∧ b = a.next (.char c) rest := by
  unfold runs
  split
  case h_1 c rest hrest =>
    constructor
    · intro h
      split at h
      case isTrue hc => exact ⟨c, rest, hrest, hc, List.mem_singleton.mp h⟩
      case isFalse => cases h
    · rintro ⟨c', rest', hrest', hc, rfl⟩
      obtain ⟨rfl, rfl⟩ : c = c' ∧ rest = rest' := by simpa [hrest] using hrest'
      rw [if_pos hc]
      exact List.mem_singleton.mpr rfl
  case h_2 hnone =>
    constructor
    · intro h
      cases h
    · rintro ⟨c, rest, hrest, -, -⟩
      exact absurd hrest (hnone c rest)

theorem reaches_of_mem_runs {p : Pattern} {a b : Place} (h : b ∈ p.runs a) : a.Reaches b := by
  induction p generalizing a b with
  | nothing => rw [List.mem_singleton.mp h]; exact .refl a
  | one accepts =>
      obtain ⟨c, rest, hrest, -, rfl⟩ := mem_runs_one.mp h
      exact .next hrest
  | start | stop | edge =>
      unfold runs at h
      split at h
      · rw [List.mem_singleton.mp h]
        exact .refl a
      · cases h
  | seq p q ihp ihq =>
      obtain ⟨mid, hmid, hb⟩ := List.mem_flatMap.mp h
      exact (ihp hmid).trans (ihq hb)
  | alt p q ihp ihq =>
      rcases List.mem_append.mp h with h | h
      · exact ihp h
      · exact ihq h
  | group index p ih =>
      obtain ⟨reached, hreached, rfl⟩ := List.mem_map.mp h
      exact (ih hreached).record index _
  | atMost limit p ih | most p ih =>
      exact greedy_rel (R := Place.Reaches) .refl .trans (fun _ _ => ih) h
  | fewest p ih => exact reluctant_rel (R := Place.Reaches) .refl .trans (fun _ _ => ih) h

theorem mem_runs_seqs_cons {p : Pattern} {ps : List Pattern} {a b : Place} :
    b ∈ (seqs (p :: ps)).runs a ↔ ∃ mid ∈ p.runs a, b ∈ (seqs ps).runs mid := by
  cases ps with
  | nil => simp [seqs, runs]
  | cons q qs => exact List.mem_flatMap

theorem mem_runs_seqs_append {ps qs : List Pattern} {a b : Place} :
    b ∈ (seqs (ps ++ qs)).runs a ↔ ∃ mid ∈ (seqs ps).runs a, b ∈ (seqs qs).runs mid := by
  induction ps generalizing a with
  | nil => simp [seqs, runs]
  | cons p ps ih =>
      simp only [List.cons_append, mem_runs_seqs_cons, ih]
      constructor
      · rintro ⟨m, hm, mid, hmid, hb⟩
        exact ⟨mid, ⟨m, hm, hmid⟩, hb⟩
      · rintro ⟨mid, ⟨m, hm, hmid⟩, hb⟩
        exact ⟨m, hm, mid, hmid, hb⟩

/-! ### Patterns that remember nothing -/

def groupFree : Pattern → Bool
  | nothing | one _ | start | stop | edge => true
  | seq p q | alt p q => p.groupFree && q.groupFree
  | group _ _ => false
  | atMost _ p | most p | fewest p => p.groupFree

theorem groups_of_groupFree {p : Pattern} (hp : p.groupFree = true) {a b : Place}
    (h : b ∈ p.runs a) : b.groups = a.groups := by
  induction p generalizing a b with
  | nothing => rw [List.mem_singleton.mp h]
  | one accepts =>
      obtain ⟨c, rest, -, -, rfl⟩ := mem_runs_one.mp h
      rfl
  | start | stop | edge =>
      unfold runs at h
      split at h
      · rw [List.mem_singleton.mp h]
      · cases h
  | seq p q ihp ihq =>
      obtain ⟨hp, hq⟩ := Bool.and_eq_true_iff.mp hp
      obtain ⟨mid, hmid, hb⟩ := List.mem_flatMap.mp h
      exact (ihq hq hb).trans (ihp hp hmid)
  | alt p q ihp ihq =>
      obtain ⟨hp, hq⟩ := Bool.and_eq_true_iff.mp hp
      rcases List.mem_append.mp h with h | h
      · exact ihp hp h
      · exact ihq hq h
  | group index p => cases hp
  | atMost limit p ih | most p ih =>
      exact greedy_rel (R := fun a b => b.groups = a.groups) (fun _ => rfl)
        (fun hab hbc => hbc.trans hab) (fun _ _ => ih hp) h
  | fewest p ih =>
      exact reluctant_rel (R := fun a b => b.groups = a.groups) (fun _ => rfl)
        (fun hab hbc => hbc.trans hab) (fun _ _ => ih hp) h

/-! ### Matches -/

variable {p : Pattern} {last : Option Symbol} {offset skip : Nat} {text : List Symbol} {m : Match}

theorem here?_eq_some (h : p.here? last offset text = some m) :
    ∃ reached ∈ p.runs ⟨last, offset, text, []⟩,
      m.start = offset ∧ m.stop = reached.offset ∧ m.groups = reached.groups ∧
        m.text.length = m.stop - m.start := by
  obtain ⟨reached, hhead, rfl⟩ := Option.map_eq_some_iff.mp h
  have hreached : reached ∈ p.runs ⟨last, offset, text, []⟩ := List.mem_of_head? hhead
  exact ⟨reached, hreached, rfl, rfl, rfl, (reaches_of_mem_runs hreached).length_upTo⟩

/-- A match and what it remembers lie inside the text. -/
theorem bounds_of_here? (h : p.here? last offset text = some m) :
    m.start = offset ∧ m.start ≤ m.stop ∧ m.stop ≤ offset + text.length ∧
      ∀ g ∈ m.groups, g.stop ≤ m.stop := by
  obtain ⟨reached, hreached, hstart, hstop, hgroups, -⟩ := here?_eq_some h
  obtain ⟨⟨read, hread, hoffset⟩, found, hfound, hinside⟩ := reaches_of_mem_runs hreached
  dsimp only at hread hoffset hfound
  refine ⟨hstart, by omega, ?_, fun g hg => ?_⟩
  · rw [hstop, hoffset, hread, List.length_append]
    omega
  · rw [hgroups, hfound, List.nil_append] at hg
    rw [hstop]
    exact (hinside g hg).2.2

/-- Each match is one that begins at some place of the text. -/
theorem exists_here?_of_mem_allFrom (h : m ∈ p.allFrom last offset skip text) :
    ∃ before rest last', text = before ++ rest ∧ skip ≤ before.length ∧
      p.here? last' (offset + before.length) rest = some m := by
  fun_induction allFrom p last offset skip text with
  | case1 => cases h
  | case2 last offset s rest skip ih =>
      obtain ⟨before, rest', last', rfl, hskip, hm⟩ := ih h
      refine ⟨s :: before, rest', last', rfl, Nat.succ_le_succ hskip, ?_⟩
      rw [← hm, List.length_cons, Nat.add_assoc, Nat.add_comm 1]
  | case3 last offset s rest found hfound ih =>
      rcases List.mem_cons.mp h with rfl | h
      · exact ⟨[], s :: rest, last, rfl, Nat.le_refl 0, hfound⟩
      · obtain ⟨before, rest', last', rfl, -, hm⟩ := ih h
        refine ⟨s :: before, rest', last', rfl, Nat.zero_le _, ?_⟩
        rw [← hm, List.length_cons, Nat.add_assoc, Nat.add_comm 1]
  | case4 last offset s rest hnone ih =>
      obtain ⟨before, rest', last', rfl, -, hm⟩ := ih h
      refine ⟨s :: before, rest', last', rfl, Nat.zero_le _, ?_⟩
      rw [← hm, List.length_cons, Nat.add_assoc, Nat.add_comm 1]

theorem le_start_of_mem_allFrom (h : m ∈ p.allFrom last offset skip text) :
    offset + skip ≤ m.start := by
  obtain ⟨before, rest, last', -, hskip, hm⟩ := exists_here?_of_mem_allFrom h
  obtain ⟨reached, -, hstart, -⟩ := here?_eq_some hm
  omega

/-- Of two matches the earlier one ends before the later one starts. -/
theorem pairwise_allFrom (p : Pattern) (last : Option Symbol) (offset skip : Nat)
    (text : List Symbol) :
    (p.allFrom last offset skip text).Pairwise fun m m' => m.stop ≤ m'.start := by
  fun_induction allFrom p last offset skip text with
  | case1 => exact .nil
  | case2 last offset s rest skip ih => exact ih
  | case3 last offset s rest m hm ih =>
      refine List.Pairwise.cons (fun m' hm' => ?_) ih
      obtain ⟨reached, -, hstart, -, -, hlength⟩ := here?_eq_some hm
      have hle : offset + 1 + (m.text.length - 1) ≤ m'.start := le_start_of_mem_allFrom hm'
      omega
  | case4 last offset s rest hnone ih => exact ih

theorem pairwise_start_allFrom (p : Pattern) (last : Option Symbol) (offset skip : Nat)
    (text : List Symbol) :
    (p.allFrom last offset skip text).Pairwise fun m m' => m.start < m'.start := by
  fun_induction allFrom p last offset skip text with
  | case1 => exact .nil
  | case2 last offset s rest skip ih => exact ih
  | case3 last offset s rest m hm ih =>
      refine List.Pairwise.cons (fun m' hm' => ?_) ih
      have hle := le_start_of_mem_allFrom hm'
      have hstart := (bounds_of_here? hm).1
      omega
  | case4 last offset s rest hnone ih => exact ih

theorem exists_here?_of_firstFrom? (h : p.firstFrom? last offset text = some m) :
    ∃ before rest last', text = before ++ rest ∧
      p.here? last' (offset + before.length) rest = some m := by
  fun_induction firstFrom? p last offset text with
  | case1 => cases h
  | case2 last offset s rest ih =>
      rcases Option.or_eq_some_iff.mp h with hhere | ⟨-, hlater⟩
      · exact ⟨[], s :: rest, last, rfl, hhere⟩
      · obtain ⟨before, rest', last', rfl, hm⟩ := ih hlater
        refine ⟨s :: before, rest', last', rfl, ?_⟩
        rw [← hm, List.length_cons, Nat.add_assoc, Nat.add_comm 1]

theorem pairwise_all (p : Pattern) (text : List Symbol) :
    (p.all text).Pairwise fun m m' => m.stop ≤ m'.start :=
  pairwise_allFrom p none 0 0 text

end CodeGraph.Pattern

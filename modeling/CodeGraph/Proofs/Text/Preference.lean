import CodeGraph.Proofs.Text.Delimited
import CodeGraph.Text.Chars
import Mathlib.Data.List.Forall2

/-!
Which runs a pattern has and which of them it prefers. The runs of a keyword and of a repeated
character class are given by the characters that they read. A repetition prefers one more step
wherever the step leads to a match, so it unfolds into its steps, the way that takes none last.
-/

namespace CodeGraph.Pattern

variable {a b : Place} {accepts : Char → Bool} {rest : List Symbol}

/-! ### Runs as the characters they read -/

@[simp] theorem Place.past_past (a : Place) (read read' : List Char) (rest rest' : List Symbol) :
    (a.past read rest).past read' rest' = a.past (read ++ read') rest' := by
  have hlast : (read'.getLast?.map Symbol.char).or ((read.getLast?.map Symbol.char).or a.last) =
      ((read ++ read').getLast?.map Symbol.char).or a.last := by
    rw [List.getLast?_append]
    cases read'.getLast? <;> rfl
  simp only [Place.past, hlast, List.length_append, Nat.add_assoc]

theorem runs_alts (ps : List Pattern) (a : Place) :
    (alts ps).runs a = ps.flatMap (·.runs a) := by
  fun_induction alts ps with
  | case1 => exact runs_one_of_not_accepts fun _ _ => rfl
  | case2 p => simp
  | case3 p ps _ ih => rw [List.flatMap_cons, ← ih, runs]

theorem mem_runs_keyword {word : String} :
    b ∈ (keyword word).runs a ↔ ∃ read rest, a.rest = symbolsOf read ++ rest ∧
      List.Forall₂ (fun c d => Text.sameLetter c d = true) word.toList read ∧
      b = a.past read rest := by
  unfold keyword
  generalize word.toList = cs
  induction cs generalizing a with
  | nil =>
      constructor
      · intro h
        obtain rfl := List.mem_singleton.mp h
        exact ⟨[], b.rest, rfl, .nil, rfl⟩
      · rintro ⟨read, rest, ha, hread, rfl⟩
        cases hread
        obtain rfl : a.rest = rest := ha
        exact List.mem_singleton.mpr rfl
  | cons c cs ih =>
      rw [List.map_cons, mem_runs_seqs_cons]
      constructor
      · rintro ⟨mid, hmid, hb⟩
        obtain ⟨d, between, ha, hd, rfl⟩ := mem_runs_one.mp hmid
        obtain ⟨read, rest, hbetween, hread, rfl⟩ := ih.mp hb
        have hbetween : between = symbolsOf read ++ rest := hbetween
        refine ⟨d :: read, rest, ?_, .cons hd hread, ?_⟩
        · rw [ha, hbetween]
          rfl
        · rw [Place.past_next]
      · rintro ⟨read, rest, ha, hread, rfl⟩
        cases hread with
        | @cons _ d _ read hd hread =>
            refine ⟨a.next (.char d) (symbolsOf read ++ rest), mem_runs_one.mpr ?_, ih.mpr ?_⟩
            · exact ⟨d, symbolsOf read ++ rest, ha, hd, rfl⟩
            · exact ⟨read, rest, rfl, hread, (Place.past_next ..).symm⟩

/-! ### Letters -/

theorem isAsciiLetter_of_lowerChar {c : Char} (h : Text.isAsciiLetter (Text.lowerChar c) = true) :
    Text.isAsciiLetter c = true := by
  unfold Text.lowerChar at h
  split at h
  case isTrue hupper =>
    rw [Text.isAsciiUpper] at hupper
    rw [Text.isAsciiLetter, hupper, Bool.or_true]
  case isFalse => exact h

theorem lower_eq_of_sameLetter {cs w : List Char}
    (hcs : ∀ c ∈ cs, Text.lowerChar c ≠ 's' ∧ Text.lowerChar c ≠ 'k')
    (h : List.Forall₂ (fun c d => Text.sameLetter c d = true) cs w) :
    Chars.lower cs = Chars.lower w := by
  induction h with
  | nil => rfl
  | @cons c d cs w hcd _ ih =>
      obtain ⟨⟨hs, hk⟩, hcs⟩ := List.forall_mem_cons.mp hcs
      have heq : Text.lowerChar c = Text.lowerChar d := by
        simpa [Text.sameLetter, hs, hk] using hcd
      simp only [Chars.lower, List.map_cons] at ih ⊢
      rw [heq, ih hcs]

theorem sameLetter_of_lower_eq {cs w : List Char} (h : Chars.lower cs = Chars.lower w) :
    List.Forall₂ (fun c d => Text.sameLetter c d = true) cs w := by
  have hletters : List.Forall₂ (fun c d => Text.lowerChar c = Text.lowerChar d) cs w := by
    rw [Chars.lower, Chars.lower, ← List.forall₂_eq_eq_eq] at h
    rwa [List.forall₂_map_left_iff, List.forall₂_map_right_iff] at h
  exact hletters.imp fun c d hcd => by simp [Text.sameLetter, hcd]

/-! ### Repeated classes -/

theorem mem_greedy_one {limit : Nat} (hlimit : a.rest.length ≤ limit) :
    b ∈ greedy (one accepts).runs limit a ↔ ∃ read rest, a.rest = symbolsOf read ++ rest ∧
      (∀ c ∈ read, accepts c = true) ∧ b = a.past read rest := by
  induction limit generalizing a with
  | zero =>
      have ha : a.rest = [] := List.length_eq_zero_iff.mp (Nat.le_zero.mp hlimit)
      constructor
      · intro h
        obtain rfl := List.mem_singleton.mp h
        exact ⟨[], b.rest, rfl, by simp, rfl⟩
      · rintro ⟨read, rest, hread, -, rfl⟩
        obtain ⟨hnil, rfl⟩ := List.append_eq_nil_iff.mp (ha ▸ hread).symm
        obtain rfl : read = [] := List.map_eq_nil_iff.mp hnil
        exact List.mem_singleton.mpr (by rw [← ha, Place.past_nil])
  | succ limit ih =>
      rw [greedy, List.mem_append, List.mem_flatMap, List.mem_singleton]
      constructor
      · rintro (⟨mid, hmid, hb⟩ | rfl)
        · obtain ⟨c, between, ha, hc, rfl⟩ := mem_runs_one.mp hmid
          rw [ha] at hlimit
          obtain ⟨read, rest, hbetween, hread, rfl⟩ :=
            (ih (a := a.next (.char c) between) (Nat.le_of_succ_le_succ hlimit)).mp hb
          have hbetween : between = symbolsOf read ++ rest := hbetween
          refine ⟨c :: read, rest, ?_, List.forall_mem_cons.mpr ⟨hc, hread⟩, ?_⟩
          · rw [ha, hbetween]
            rfl
          · rw [Place.past_next]
        · exact ⟨[], b.rest, rfl, by simp, rfl⟩
      · rintro ⟨read, rest, ha, hread, rfl⟩
        cases read with
        | nil =>
            obtain rfl : a.rest = rest := ha
            exact .inr rfl
        | cons c read =>
            obtain ⟨hc, hread⟩ := List.forall_mem_cons.mp hread
            have ha : a.rest = .char c :: (symbolsOf read ++ rest) := ha
            have hlimit : (a.next (.char c) (symbolsOf read ++ rest)).rest.length ≤ limit := by
              rw [ha] at hlimit
              exact Nat.le_of_succ_le_succ hlimit
            refine .inl ⟨_, mem_runs_one.mpr ⟨c, _, ha, hc, rfl⟩, (ih hlimit).mpr ?_⟩
            exact ⟨read, rest, rfl, hread, (Place.past_next ..).symm⟩

theorem mem_runs_most_one :
    b ∈ (most (one accepts)).runs a ↔ ∃ read rest, a.rest = symbolsOf read ++ rest ∧
      (∀ c ∈ read, accepts c = true) ∧ b = a.past read rest :=
  mem_greedy_one (Nat.le_refl _)

theorem mem_runs_some1_one :
    b ∈ (some1 (one accepts)).runs a ↔ ∃ read rest, read ≠ [] ∧ a.rest = symbolsOf read ++ rest ∧
      (∀ c ∈ read, accepts c = true) ∧ b = a.past read rest := by
  unfold some1
  rw [runs, List.mem_flatMap]
  constructor
  · rintro ⟨mid, hmid, hb⟩
    obtain ⟨c, between, ha, hc, rfl⟩ := mem_runs_one.mp hmid
    obtain ⟨read, rest, hbetween, hread, rfl⟩ := mem_runs_most_one.mp hb
    have hbetween : between = symbolsOf read ++ rest := hbetween
    refine ⟨c :: read, rest, by simp, ?_, List.forall_mem_cons.mpr ⟨hc, hread⟩, ?_⟩
    · rw [ha, hbetween]
      rfl
    · rw [Place.past_next]
  · rintro ⟨read, rest, hne, ha, hread, rfl⟩
    cases read with
    | nil => exact absurd rfl hne
    | cons c read =>
        obtain ⟨hc, hread⟩ := List.forall_mem_cons.mp hread
        refine ⟨_, mem_runs_one.mpr ⟨c, _, ha, hc, rfl⟩, mem_runs_most_one.mpr ?_⟩
        exact ⟨read, rest, rfl, hread, (Place.past_next ..).symm⟩

/-! ### Repetition -/

/-- A limit on the number of steps does not matter where each step reads something. -/
theorem greedy_eq_greedy {step : Place → List Place}
    (hstep : ∀ a, ∀ b ∈ step a, b.rest.length < a.rest.length) {limit limit' : Nat}
    (h : a.rest.length ≤ limit) (h' : a.rest.length ≤ limit') :
    greedy step limit a = greedy step limit' a := by
  induction limit generalizing a limit' with
  | zero =>
      have hstuck : step a = [] := List.eq_nil_iff_forall_not_mem.mpr fun b hb => by
        have hlt := hstep a b hb
        omega
      cases limit' with
      | zero => rfl
      | succ limit' => simp [greedy, hstuck]
  | succ limit ih =>
      cases limit' with
      | zero =>
          have hstuck : step a = [] := List.eq_nil_iff_forall_not_mem.mpr fun b hb => by
            have hlt := hstep a b hb
            omega
          simp [greedy, hstuck]
      | succ limit' =>
          rw [greedy, greedy]
          congr 1
          refine List.flatMap_congr fun b hb => ih ?_ ?_
          all_goals
            have hlt := hstep a b hb
            omega

/-- A repetition takes one more step or ends here. -/
theorem runs_most_eq {p : Pattern} (hp : ∀ a, ∀ b ∈ p.runs a, b.rest.length < a.rest.length)
    (a : Place) : (most p).runs a = (p.runs a).flatMap (most p).runs ++ [a] := by
  have hmore : greedy p.runs a.rest.length a = greedy p.runs (a.rest.length + 1) a :=
    greedy_eq_greedy hp (Nat.le_refl _) (Nat.le_succ _)
  rw [runs, hmore, greedy]
  congr 1
  refine List.flatMap_congr fun b hb => ?_
  rw [runs]
  exact greedy_eq_greedy hp (Nat.le_of_lt (hp a b hb)) (Nat.le_refl _)

/-! ### Characters that are not read -/

def avoids (c : Char) : Pattern → Bool
  | nothing | start | stop | edge => true
  | one accepts => !accepts c
  | seq p q | alt p q => p.avoids c && q.avoids c
  | group _ p | atMost _ p | most p | fewest p => p.avoids c

def Place.Without (c : Char) (a b : Place) : Prop :=
  ∃ read, a.rest = read ++ b.rest ∧ .char c ∉ read

theorem Place.Without.refl (c : Char) (a : Place) : a.Without c a :=
  ⟨[], rfl, by simp⟩

theorem Place.Without.trans {c : Char} {a b d : Place} (h : a.Without c b) (h' : b.Without c d) :
    a.Without c d := by
  obtain ⟨read, hread, hc⟩ := h
  obtain ⟨read', hread', hc'⟩ := h'
  refine ⟨read ++ read', by rw [hread, hread', List.append_assoc], ?_⟩
  simp [hc, hc']

theorem without_of_avoids {p : Pattern} {c : Char} (hp : p.avoids c = true)
    (h : b ∈ p.runs a) : a.Without c b := by
  induction p generalizing a b with
  | nothing => rw [List.mem_singleton.mp h]; exact .refl c a
  | one accepts =>
      obtain ⟨d, rest, ha, hd, rfl⟩ := mem_runs_one.mp h
      refine ⟨[.char d], ha, fun hmem => ?_⟩
      obtain rfl : c = d := by simpa using hmem
      simp [avoids, hd] at hp
  | start | stop | edge =>
      unfold runs at h
      split at h
      · rw [List.mem_singleton.mp h]
        exact .refl c a
      · cases h
  | seq p q ihp ihq =>
      obtain ⟨hp, hq⟩ := Bool.and_eq_true_iff.mp hp
      obtain ⟨mid, hmid, hb⟩ := List.mem_flatMap.mp h
      exact (ihp hp hmid).trans (ihq hq hb)
  | alt p q ihp ihq =>
      obtain ⟨hp, hq⟩ := Bool.and_eq_true_iff.mp hp
      rcases List.mem_append.mp h with h | h
      · exact ihp hp h
      · exact ihq hq h
  | group index p ih =>
      obtain ⟨reached, hreached, rfl⟩ := List.mem_map.mp h
      obtain ⟨read, hread, hc⟩ := ih hp hreached
      exact ⟨read, hread, hc⟩
  | atMost limit p ih | most p ih =>
      exact greedy_rel (R := Place.Without c) (.refl c) .trans (fun _ _ => ih hp) h
  | fewest p ih => exact reluctant_rel (R := Place.Without c) (.refl c) .trans (fun _ _ => ih hp) h

/-- What a pattern remembers contains none of the characters that it does not read. -/
theorem not_mem_groups_of_avoids {p : Pattern} {c : Char} (hp : p.avoids c = true)
    (h : b ∈ p.runs a) (ha : ∀ g ∈ a.groups, .char c ∉ g.text) :
    ∀ g ∈ b.groups, .char c ∉ g.text := by
  induction p generalizing a b with
  | nothing => rwa [List.mem_singleton.mp h]
  | one accepts =>
      obtain ⟨d, rest, -, -, rfl⟩ := mem_runs_one.mp h
      exact ha
  | start | stop | edge =>
      unfold runs at h
      split at h
      · rwa [List.mem_singleton.mp h]
      · cases h
  | seq p q ihp ihq =>
      obtain ⟨hp, hq⟩ := Bool.and_eq_true_iff.mp hp
      obtain ⟨mid, hmid, hb⟩ := List.mem_flatMap.mp h
      exact ihq hq hb (ihp hp hmid ha)
  | alt p q ihp ihq =>
      obtain ⟨hp, hq⟩ := Bool.and_eq_true_iff.mp hp
      rcases List.mem_append.mp h with h | h
      · exact ihp hp h ha
      · exact ihq hq h ha
  | group index p ih =>
      obtain ⟨reached, hreached, rfl⟩ := List.mem_map.mp h
      obtain ⟨read, hread, hc⟩ := without_of_avoids (p := p) hp hreached
      refine List.forall_mem_append.mpr ⟨ih hp hreached ha, List.forall_mem_singleton.mpr ?_⟩
      rwa [upTo_of_rest_eq hread]
  | atMost limit p ih | most p ih =>
      exact greedy_rel (R := fun a b => (∀ g ∈ a.groups, .char c ∉ g.text) →
        ∀ g ∈ b.groups, .char c ∉ g.text) (fun _ h => h) (fun hab hbc h => hbc (hab h))
        (fun _ _ => ih hp) h ha
  | fewest p ih =>
      exact reluctant_rel (R := fun a b => (∀ g ∈ a.groups, .char c ∉ g.text) →
        ∀ g ∈ b.groups, .char c ∉ g.text) (fun _ h => h) (fun hab hbc h => hbc (hab h))
        (fun _ _ => ih hp) h ha

/-- The same of the text that is remembered in a match. -/
theorem not_mem_chars_of_avoids {p : Pattern} {c : Char} (hp : p.avoids c = true)
    (hc : c ≠ Char.ofNat 0xfffd) {text : List Symbol} {m : Match} {g : Group} {index : Nat}
    (hm : p.first? text = some m) (hg : m.group? index = some g) : c ∉ g.chars := by
  obtain ⟨before, rest, last, -, hhere⟩ := exists_here?_of_firstFrom? hm
  obtain ⟨reached, hreached, -, -, hgroups, -⟩ := here?_eq_some hhere
  have hmem : g ∈ reached.groups := hgroups ▸ List.mem_reverse.mp (List.mem_of_find?_eq_some hg)
  intro hchars
  obtain ⟨s, hs, hchar⟩ := List.mem_map.mp hchars
  cases s with
  | char d =>
      obtain rfl : d = c := hchar
      exact not_mem_groups_of_avoids hp hreached (by simp) g hmem hs
  | broken w => exact hc hchar.symm

end CodeGraph.Pattern

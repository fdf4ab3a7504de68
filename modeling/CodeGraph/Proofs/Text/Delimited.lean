import CodeGraph.Proofs.Text.Matching

/-!
Patterns in front of a character that they do not read. Such a pattern looks at that character at
most, so whether it reads all that stands in front of it does not depend on what follows, nor on the
place in the text. Every match of the pattern and the character ends at the first such character.
-/

namespace CodeGraph.Pattern

variable {c : Char}

/-! ### Sparing a character -/

/-- Whether a pattern never reads a character. Only single characters are repeated in it, and it
remembers nothing. -/
def spares (c : Char) : Pattern → Bool
  | nothing | edge => true
  | one accepts | most (one accepts) | atMost _ (one accepts) => !accepts c
  | seq p q | alt p q => p.spares c && q.spares c
  | _ => false

/-- Two places alike up to the next `c`, behind which `x` stands at the first place and `x'` at the
second. -/
structure Place.Alike (c : Char) (x x' : List Symbol) (a a' : Place) : Prop where
  last : a.last = a'.last
  rest : ∃ w, a.rest = w ++ .char c :: x ∧ a'.rest = w ++ .char c :: x'

variable {x x' : List Symbol} {a a' b : Place}

theorem Place.Alike.head? (h : a.Alike c x x' a') : a.rest.head? = a'.rest.head? := by
  obtain ⟨w, hw, hw'⟩ := h.rest
  rw [hw, hw']
  cases w <;> rfl

/-- A step over one character that is not `c`. -/
theorem Place.Alike.next (h : a.Alike c x x' a') {d : Char} {rest : List Symbol}
    (hrest : a.rest = .char d :: rest) (hd : d ≠ c) :
    ∃ rest', a'.rest = .char d :: rest' ∧
      (a.next (.char d) rest).Alike c x x' (a'.next (.char d) rest') := by
  obtain ⟨w, hw, hw'⟩ := h.rest
  cases w with
  | nil =>
      rw [hrest] at hw
      exact absurd (Symbol.char.inj (List.cons.inj hw).1) hd
  | cons s w =>
      rw [hrest] at hw
      obtain ⟨rfl, rfl⟩ := List.cons.inj hw
      exact ⟨w ++ .char c :: x', hw', rfl, w, rfl, rfl⟩

theorem exists_alike_of_one {accepts : Char → Bool} (hc : accepts c = false)
    (h : a.Alike c x x' a') (hb : b ∈ (one accepts).runs a) :
    ∃ b' ∈ (one accepts).runs a', b.Alike c x x' b' := by
  obtain ⟨d, rest, hrest, hd, rfl⟩ := mem_runs_one.mp hb
  have hne : d ≠ c := by
    rintro rfl
    simp [hc] at hd
  obtain ⟨rest', hrest', halike⟩ := h.next hrest hne
  exact ⟨_, mem_runs_one.mpr ⟨d, rest', hrest', hd, rfl⟩, halike⟩

theorem mem_greedy_self (step : Place → List Place) (limit : Nat) (a : Place) :
    a ∈ greedy step limit a := by
  cases limit <;> simp [greedy]

/-- A repetition takes a step for each character at most, so a limit on the number of steps does
not matter if it is as great as the other or as the number of characters in front of `c`. -/
theorem exists_alike_of_greedy {accepts : Char → Bool} (hc : accepts c = false) {limit limit' : Nat}
    (h : a.Alike c x x' a') (hlimit : limit ≤ limit' ∨ a'.rest.length ≤ limit' + (x'.length + 1))
    (hb : b ∈ greedy (one accepts).runs limit a) :
    ∃ b' ∈ greedy (one accepts).runs limit' a', b.Alike c x x' b' := by
  induction limit generalizing a a' limit' with
  | zero =>
      obtain rfl := List.mem_singleton.mp hb
      exact ⟨a', mem_greedy_self _ _ _, h⟩
  | succ limit ih =>
      rcases List.mem_append.mp hb with hb | hb
      · obtain ⟨mid, hmid, hb⟩ := List.mem_flatMap.mp hb
        obtain ⟨mid', hmid', halike⟩ := exists_alike_of_one hc h hmid
        obtain ⟨d, rest', hrest', -, rfl⟩ := mem_runs_one.mp hmid'
        have hlength : a'.rest.length = rest'.length + 1 := by rw [hrest', List.length_cons]
        have hbehind : x'.length + 1 ≤ rest'.length := by
          obtain ⟨w, -, hw⟩ := halike.rest
          have hw : rest' = w ++ .char c :: x' := hw
          rw [hw, List.length_append, List.length_cons]
          omega
        obtain ⟨limit', rfl⟩ : ∃ k, limit' = k + 1 := ⟨limit' - 1, by omega⟩
        have hnext : limit ≤ limit' ∨
            (a'.next (.char d) rest').rest.length ≤ limit' + (x'.length + 1) := by
          show _ ∨ rest'.length ≤ _
          omega
        obtain ⟨b', hb', hreached⟩ := ih halike hnext hb
        exact ⟨b', List.mem_append_left _ (List.mem_flatMap.mpr ⟨_, hmid', hb'⟩), hreached⟩
      · obtain rfl := List.mem_singleton.mp hb
        exact ⟨a', mem_greedy_self _ _ _, h⟩

/-- From alike places a pattern that spares `c` reaches alike places. -/
theorem exists_alike_of_mem_runs {p : Pattern} (hp : p.spares c = true) (h : a.Alike c x x' a')
    (hb : b ∈ p.runs a) : ∃ b' ∈ p.runs a', b.Alike c x x' b' := by
  fun_induction spares c p generalizing a a' b with
  | case1 =>
      obtain rfl := List.mem_singleton.mp hb
      exact ⟨a', List.mem_singleton.mpr rfl, h⟩
  | case2 =>
      unfold runs at hb
      split at hb
      case isTrue hedge =>
        obtain rfl := List.mem_singleton.mp hb
        refine ⟨a', ?_, h⟩
        rw [h.last, h.head?] at hedge
        unfold runs
        rw [if_pos hedge]
        exact List.mem_singleton.mpr rfl
      case isFalse => cases hb
  | case3 accepts => exact exists_alike_of_one (by simpa using hp) h hb
  | case4 accepts =>
      refine exists_alike_of_greedy (by simpa using hp) h (.inr ?_) hb
      omega
  | case5 limit accepts =>
      exact exists_alike_of_greedy (by simpa using hp) h (.inl (Nat.le_refl limit)) hb
  | case6 p q ihp ihq =>
      obtain ⟨hp, hq⟩ := Bool.and_eq_true_iff.mp hp
      obtain ⟨mid, hmid, hb⟩ := List.mem_flatMap.mp hb
      obtain ⟨mid', hmid', halike⟩ := ihp hp h hmid
      obtain ⟨b', hb', hreached⟩ := ihq hq halike hb
      exact ⟨b', List.mem_flatMap.mpr ⟨mid', hmid', hb'⟩, hreached⟩
  | case7 p q ihp ihq =>
      obtain ⟨hp, hq⟩ := Bool.and_eq_true_iff.mp hp
      rcases List.mem_append.mp hb with hb | hb
      · obtain ⟨b', hb', hreached⟩ := ihp hp h hb
        exact ⟨b', List.mem_append_left _ hb', hreached⟩
      · obtain ⟨b', hb', hreached⟩ := ihq hq h hb
        exact ⟨b', List.mem_append_right _ hb', hreached⟩
  | case8 => cases hp

theorem groupFree_of_spares {p : Pattern} (hp : p.spares c = true) : p.groupFree = true := by
  fun_induction spares c p with
  | case1 | case2 | case3 | case4 | case5 => rfl
  | case6 p q ihp ihq | case7 p q ihp ihq =>
      obtain ⟨hp, hq⟩ := Bool.and_eq_true_iff.mp hp
      exact Bool.and_eq_true_iff.mpr ⟨ihp hp, ihq hq⟩
  | case8 => cases hp

/-! ### Beginning with a character -/

/-- Whether a pattern begins with a character, so that it does not matter what stands in front. -/
def led : Pattern → Bool
  | one _ => true
  | seq p _ => p.led
  | _ => false

theorem runs_of_led {p : Pattern} (hp : p.led = true) (a : Place) (last : Option Symbol) :
    p.runs { a with last } = p.runs a := by
  fun_induction led p with
  | case1 accepts =>
      unfold runs
      dsimp only
      split <;> rfl
  | case2 p q ih =>
      unfold runs
      rw [ih hp]
  | case3 => cases hp

/-! ### Reading up to a character -/

/-- Where all members that give anything give the same, so does the whole. -/
theorem head?_flatMap_of_mem {α β : Type} {l : List α} {f : α → List β} {result : List β}
    (hf : ∀ y ∈ l, f y = result ∨ f y = []) (h : ∃ y ∈ l, f y = result) :
    (l.flatMap f).head? = result.head? := by
  induction l with
  | nil => simp at h
  | cons y l ih =>
      obtain ⟨hy, hl⟩ := List.forall_mem_cons.mp hf
      rw [List.flatMap_cons, List.head?_append]
      by_cases hlater : ∃ z ∈ l, f z = result
      · rw [ih hl hlater]
        rcases hy with hy | hy <;> simp [hy]
      · have hnil : l.flatMap f = [] := List.flatMap_eq_nil_iff.mpr fun z hz =>
          (hl z hz).resolve_left fun hresult => hlater ⟨z, hz, hresult⟩
        have hy : f y = result := by simpa [hlater] using h
        rw [hnil, hy, List.head?_nil, Option.or_none]

/-- The pattern can read a text that stands in front of `c`. -/
def ReadsUpTo (c : Char) (p : Pattern) (u : List Symbol) : Prop :=
  ∃ b ∈ p.runs ⟨none, 0, u ++ [.char c], []⟩, b.rest = [.char c]

section

variable {ps qs : List Pattern} {u : List Symbol}

/-- Where a pattern that spares `c` ends in front of the first `c`, or else `c` does not follow. -/
theorem rest_of_mem_runs {p : Pattern} (hp : p.spares c = true) (ha : a.rest = u ++ .char c :: x)
    (hu : .char c ∉ u) (hb : b ∈ p.runs a) :
    (b.rest = .char c :: x ∧ b.offset = a.offset + u.length ∧ b.groups = a.groups) ∨
      b.rest.head? ≠ some (.char c) := by
  obtain ⟨b', -, -, w, hw, -⟩ := exists_alike_of_mem_runs hp ⟨rfl, u, ha, ha⟩ hb
  obtain ⟨⟨read, hread, hoffset⟩, -⟩ := reaches_of_mem_runs hb
  obtain rfl : u = read ++ w := by
    rw [ha, hw, ← List.append_assoc] at hread
    exact List.append_cancel_right hread
  cases w with
  | nil =>
      left
      rw [List.append_nil]
      exact ⟨hw, hoffset, groups_of_groupFree (groupFree_of_spares hp) hb⟩
  | cons s w =>
      right
      rw [hw]
      rintro hhead
      obtain rfl : s = .char c := by simpa using hhead
      simp at hu

/-- Whether a text can be read up to `c` depends neither on its place nor on what follows `c`. -/
theorem readsUpTo_iff {p : Pattern} (hp : p.spares c = true) (hled : p.led = true)
    (ha : a.rest = u ++ .char c :: x) :
    ReadsUpTo c p u ↔ ∃ b ∈ p.runs a, b.rest = .char c :: x := by
  rw [← runs_of_led hled a none]
  have hcancel {w y : List Symbol} (h : .char c :: y = w ++ .char c :: y) : w = [] := by
    simpa using h
  constructor
  · rintro ⟨b, hb, hrest⟩
    have halike : Place.Alike c [] x ⟨none, 0, u ++ [.char c], []⟩ { a with last := none } :=
      ⟨rfl, u, rfl, ha⟩
    obtain ⟨b', hb', -, w, hw, hw'⟩ := exists_alike_of_mem_runs hp halike hb
    rw [hcancel (hrest.symm.trans hw)] at hw'
    exact ⟨b', hb', hw'⟩
  · rintro ⟨b, hb, hrest⟩
    have halike : Place.Alike c x [] { a with last := none } ⟨none, 0, u ++ [.char c], []⟩ :=
      ⟨rfl, u, ha, rfl⟩
    obtain ⟨b', hb', -, w, hw, hw'⟩ := exists_alike_of_mem_runs hp halike hb
    rw [hcancel (hrest.symm.trans hw)] at hw'
    exact ⟨b', hb', hw'⟩

theorem runs_char_of_rest (qs : List Pattern) (hb : b.rest = .char c :: x) :
    (seqs (char c :: qs)).runs b = (seqs qs).runs (b.next (.char c) x) := by
  have hread : (char c).runs b = [b.next (.char c) x] := runs_one hb (beq_self_eq_true c)
  rw [runs_seqs_cons, hread, List.flatMap_singleton]

theorem runs_char_of_ne (qs : List Pattern) (hb : b.rest.head? ≠ some (.char c)) :
    (seqs (char c :: qs)).runs b = [] := by
  have hstuck : (char c).runs b = [] := by
    refine List.eq_nil_iff_forall_not_mem.mpr fun b' hb' => ?_
    obtain ⟨d, rest, hrest, hd, -⟩ := mem_runs_one.mp hb'
    rw [hrest, beq_iff_eq.mp hd] at hb
    exact hb rfl
  rw [runs_seqs_cons, hstuck, List.flatMap_nil]

/-- A text that can be read up to `c` is read so, and the pattern goes on behind `c`. -/
theorem head?_runs_of_reads (hps : (seqs ps).spares c = true) (hled : (seqs ps).led = true)
    (ha : a.rest = u ++ .char c :: x) (hu : .char c ∉ u) (h : ReadsUpTo c (seqs ps) u) :
    ((seqs (ps ++ char c :: qs)).runs a).head? =
      ((seqs qs).runs ⟨some (.char c), a.offset + u.length + 1, x, a.groups⟩).head? := by
  rw [runs_seqs_append]
  refine head?_flatMap_of_mem (fun b hb => ?_) ?_
  · rcases rest_of_mem_runs hps ha hu hb with ⟨hrest, hoffset, hgroups⟩ | hne
    · exact .inl (by rw [runs_char_of_rest qs hrest, Place.next, hoffset, hgroups])
    · exact .inr (runs_char_of_ne qs hne)
  · obtain ⟨b, hb, hrest⟩ := (readsUpTo_iff hps hled ha).mp h
    rcases rest_of_mem_runs hps ha hu hb with ⟨-, hoffset, hgroups⟩ | hne
    · exact ⟨b, hb, by rw [runs_char_of_rest qs hrest, Place.next, hoffset, hgroups]⟩
    · simp [hrest] at hne

theorem runs_of_not_reads (hps : (seqs ps).spares c = true) (hled : (seqs ps).led = true)
    (ha : a.rest = u ++ .char c :: x) (hu : .char c ∉ u) (h : ¬ ReadsUpTo c (seqs ps) u) :
    (seqs (ps ++ char c :: qs)).runs a = [] := by
  rw [runs_seqs_append]
  refine List.flatMap_eq_nil_iff.mpr fun b hb => ?_
  rcases rest_of_mem_runs hps ha hu hb with ⟨hrest, -⟩ | hne
  · exact absurd ((readsUpTo_iff hps hled ha).mpr ⟨b, hb, hrest⟩) h
  · exact runs_char_of_ne qs hne

/-- Nothing is read where `c` does not follow. -/
theorem runs_of_notMem (h : .char c ∉ a.rest) : (seqs (ps ++ char c :: qs)).runs a = [] := by
  rw [runs_seqs_append]
  refine List.flatMap_eq_nil_iff.mpr fun b hb => runs_char_of_ne qs fun hhead => h ?_
  obtain ⟨⟨read, hread, -⟩, -⟩ := reaches_of_mem_runs hb
  rw [hread]
  exact List.mem_append_right _ (List.mem_of_head? hhead)

end

end CodeGraph.Pattern

import CodeGraph.Text.Seq
import Mathlib.Data.List.Infix

/-!
Searching and cutting lists. A search gives the first offset at which the needle occurs, and it
fails exactly when the needle occurs nowhere. What follows the first occurrence has no influence on
it.
-/

namespace CodeGraph.Seq

variable {α : Type}

/-! ### Stretches -/

theorem getElem?_slice (s : List α) (start stop i : Nat) :
    (slice s start stop)[i]? = if i < stop - start then s[start + i]? else none := by
  rw [slice, List.getElem?_take]
  split
  · rw [List.getElem?_drop]
  · rfl

theorem slice_append_drop (s : List α) {start stop : Nat} (h : start ≤ stop) :
    slice s start stop ++ s.drop stop = s.drop start := by
  obtain ⟨k, rfl⟩ := Nat.exists_eq_add_of_le h
  rw [slice, Nat.add_sub_cancel_left, ← List.drop_drop, List.take_append_drop]

theorem length_slice {s : List α} {start stop : Nat} (h : stop ≤ s.length) :
    (slice s start stop).length = stop - start := by
  rw [slice, List.length_take, List.length_drop]
  omega

theorem slice_length (s : List α) (start : Nat) : slice s start s.length = s.drop start := by
  rw [slice, ← List.length_drop, List.take_length]

theorem slice_append_append (before text after : List α) :
    slice (before ++ (text ++ after)) before.length (before.length + text.length) = text := by
  rw [slice, List.drop_left, Nat.add_sub_cancel_left, List.take_left]

/-! ### First occurrences -/

/-- The needle occurs at an offset and nowhere before it. -/
structure FirstAt (needle s : List α) (n : Nat) : Prop where
  here : needle <+: s.drop n
  before : ∀ i < n, ¬ needle <+: s.drop i

section

variable {needle s : List α} {n : Nat}

theorem FirstAt.unique {m : Nat} (hn : FirstAt needle s n) (hm : FirstAt needle s m) : n = m := by
  rcases Nat.lt_trichotomy n m with h | h | h
  · exact absurd hn.here (hm.before n h)
  · exact h
  · exact absurd hm.here (hn.before m h)

theorem firstAt_zero : FirstAt needle s 0 ↔ needle <+: s :=
  ⟨fun h => h.here, fun h => ⟨h, fun _ hi => absurd hi (Nat.not_lt_zero _)⟩⟩

theorem firstAt_succ {a : α} :
    FirstAt needle (a :: s) (n + 1) ↔ ¬ needle <+: a :: s ∧ FirstAt needle s n := by
  constructor
  · rintro ⟨hhere, hbefore⟩
    exact ⟨hbefore 0 (Nat.succ_pos n), hhere, fun i hi => hbefore (i + 1) (Nat.succ_lt_succ hi)⟩
  · rintro ⟨hfirst, hhere, hbefore⟩
    refine ⟨hhere, fun i hi => ?_⟩
    cases i with
    | zero => exact hfirst
    | succ i => exact hbefore i (Nat.lt_of_succ_lt_succ hi)

theorem FirstAt.le_length (h : FirstAt needle s n) : n + needle.length ≤ s.length := by
  have hlength : needle.length ≤ s.length - n := by
    rw [← List.length_drop]
    exact h.here.length_le
  by_cases hn : n ≤ s.length
  · omega
  · -- Only the empty needle occurs behind the end, and that occurs at the beginning.
    obtain rfl : needle = [] := List.eq_nil_of_length_eq_zero (by omega)
    exact absurd List.nil_prefix (h.before 0 (by omega))

theorem prefix_iff_of_take_eq {s' : List α} {k : Nat} (hk : needle.length ≤ k)
    (h : s.take k = s'.take k) : needle <+: s ↔ needle <+: s' := by
  rw [List.prefix_iff_eq_take, List.prefix_iff_eq_take, ← Nat.min_eq_left hk, ← List.take_take,
    ← List.take_take, h]

/-- What follows an occurrence has no influence on whether it is the first. -/
theorem FirstAt.congr {s' : List α} (h : FirstAt needle s n)
    (hs : s.take (n + needle.length) = s'.take (n + needle.length)) : FirstAt needle s' n := by
  have hoccurs {i : Nat} (hi : i ≤ n) : needle <+: s.drop i ↔ needle <+: s'.drop i := by
    refine prefix_iff_of_take_eq (k := n + needle.length - i) (by omega) ?_
    rw [← List.drop_take, ← List.drop_take, hs]
  exact ⟨(hoccurs (Nat.le_refl n)).mp h.here, fun i hi hhere =>
    h.before i hi ((hoccurs (Nat.le_of_lt hi)).mpr hhere)⟩

theorem FirstAt.append (h : FirstAt needle s n) (t : List α) : FirstAt needle (s ++ t) n :=
  h.congr (List.take_append_of_le_length h.le_length).symm

/-- Two different members that stand nowhere side by side in front of them occur there first. -/
theorem firstAt_pair {a b : α} (hab : a ≠ b) (h : ¬ [a, b] <:+: s) (t : List α) :
    FirstAt [a, b] (s ++ ([a, b] ++ t)) s.length := by
  induction s with
  | nil => exact firstAt_zero.mpr (List.prefix_append _ _)
  | cons c s ih =>
      refine firstAt_succ.mpr ⟨?_, ih fun hin => h (List.infix_cons hin)⟩
      rintro ⟨rest, hrest⟩
      obtain ⟨rfl, htail⟩ := List.cons.inj hrest
      cases s with
      | nil =>
          -- Behind the last member in front stands `a`, and not `b`.
          exact hab (List.cons.inj htail).1.symm
      | cons d s =>
          obtain ⟨rfl, -⟩ := List.cons.inj htail
          exact h ⟨[], s, rfl⟩

/-- A needle that holds its last member only once occurs first behind a list that ends with that
member and does not hold the needle. -/
theorem firstAt_of_getLast? (lead : List α) {a : α} (ha : a ∉ lead) (hs : s.getLast? = some a)
    (h : ¬ lead ++ [a] <:+: s) (t : List α) :
    FirstAt (lead ++ [a]) (s ++ (lead ++ [a] ++ t)) s.length := by
  refine ⟨by rw [List.drop_left]; exact List.prefix_append _ _, fun i hi hhere => ?_⟩
  have hsuffix : s.drop i <:+: s := (List.drop_suffix i s).isInfix
  rw [List.drop_append_of_le_length (Nat.le_of_lt hi)] at hhere
  rcases List.prefix_or_prefix_of_prefix hhere (List.prefix_append _ _) with hin | hin
  · exact h (hin.isInfix.trans hsuffix)
  · -- What begins the needle and ends with its last member is the needle.
    rcases List.prefix_concat_iff.mp hin with heq | hlead
    · exact h (heq ▸ hsuffix)
    · refine ha (hlead.subset (List.mem_of_getLast? ?_))
      rw [List.getLast?_drop, if_neg (by omega), hs]

theorem prefix_of_prefix_append_cons {a : α} (ha : a ∉ needle) {t : List α}
    (h : needle <+: s ++ a :: t) : needle <+: s := by
  rcases List.prefix_or_prefix_of_prefix h (List.prefix_append s (a :: t)) with hs | ⟨u, rfl⟩
  · exact hs
  · have hu : u <+: a :: t := (List.prefix_append_right_inj s).mp h
    cases u with
    | nil => simp
    | cons b u =>
        obtain ⟨rfl, -⟩ := List.cons_prefix_cons.mp hu
        simp at ha

/-- What does not hold a member occurs nowhere across it. -/
theorem not_infix_append_cons {a : α} (ha : a ∉ needle) {t : List α} (hs : ¬ needle <:+: s)
    (ht : ¬ needle <:+: t) : ¬ needle <:+: s ++ a :: t := by
  induction s with
  | nil =>
      intro h
      rcases List.infix_cons_iff.mp h with h | h
      · exact hs (prefix_of_prefix_append_cons (s := []) ha h).isInfix
      · exact ht h
  | cons b s ih =>
      intro h
      rcases List.infix_cons_iff.mp h with h | h
      · exact hs (prefix_of_prefix_append_cons (s := b :: s) ha h).isInfix
      · exact ih (fun hin => hs (List.infix_cons hin)) h

end

/-! ### Searches -/

variable [DecidableEq α]

theorem stripStart?_eq_some {lead s rest : List α} :
    stripStart? lead s = some rest ↔ s = lead ++ rest := by
  induction lead generalizing s with
  | nil => simp [stripStart?]
  | cons a lead ih =>
      cases s with
      | nil => simp [stripStart?]
      | cons b s =>
          rw [stripStart?]
          split
          case isTrue h => simp [ih, h]
          case isFalse h => simp [Ne.symm h]

theorem stripStart?_append (lead rest : List α) : stripStart? lead (lead ++ rest) = some rest :=
  stripStart?_eq_some.mpr rfl

theorem startsWith_iff {lead s : List α} : startsWith lead s = true ↔ lead <+: s := by
  rw [startsWith, Option.isSome_iff_exists]
  constructor
  · rintro ⟨rest, hrest⟩
    exact ⟨rest, (stripStart?_eq_some.mp hrest).symm⟩
  · rintro ⟨rest, rfl⟩
    exact ⟨rest, stripStart?_append lead rest⟩

theorem endsWith_iff {tail s : List α} : endsWith tail s = true ↔ tail <:+ s := by
  rw [endsWith, stripEnd?, Option.isSome_map, ← List.reverse_prefix]
  exact startsWith_iff

variable {needle s : List α} {n : Nat}

theorem find?_eq_some_iff : find? needle s = some n ↔ FirstAt needle s n := by
  induction s generalizing n with
  | nil =>
      rw [find?]
      by_cases hneedle : needle = []
      · subst hneedle
        have hfirst : FirstAt [] ([] : List α) 0 := firstAt_zero.mpr List.nil_prefix
        rw [if_pos rfl, Option.some.injEq]
        exact ⟨fun h => h ▸ hfirst, hfirst.unique⟩
      · rw [if_neg hneedle]
        refine iff_of_false (by simp) fun h => hneedle ?_
        exact List.prefix_nil.mp (by simpa using h.here)
  | cons a s ih =>
      rw [find?]
      by_cases hstarts : needle <+: a :: s
      · have hfirst : FirstAt needle (a :: s) 0 := firstAt_zero.mpr hstarts
        rw [if_pos (startsWith_iff.mpr hstarts), Option.some.injEq]
        exact ⟨fun h => h ▸ hfirst, hfirst.unique⟩
      · rw [if_neg (mt startsWith_iff.mp hstarts), Option.map_eq_some_iff]
        constructor
        · rintro ⟨m, hm, rfl⟩
          exact firstAt_succ.mpr ⟨hstarts, ih.mp hm⟩
        · intro h
          cases n with
          | zero => exact absurd h.here hstarts
          | succ m => exact ⟨m, ih.mpr (firstAt_succ.mp h).2, rfl⟩

instance : Decidable (FirstAt needle s n) :=
  decidable_of_iff (find? needle s = some n) find?_eq_some_iff

theorem find?_eq_none_iff : find? needle s = none ↔ ¬ needle <:+: s := by
  induction s with
  | nil =>
      rw [find?, List.infix_nil]
      split <;> simp_all
  | cons a s ih =>
      rw [find?, List.infix_cons_iff, not_or, ← startsWith_iff, ← ih]
      split <;> simp_all

theorem contains_eq_false_iff : contains needle s = false ↔ ¬ needle <:+: s := by
  rw [contains, Option.isSome_eq_false_iff, Option.isNone_iff_eq_none, find?_eq_none_iff]

/-! ### Cuts at one member -/

theorem cut?_singleton_eq_none {a : α} {s : List α} (h : a ∉ s) : cut? [a] s = none := by
  induction s with
  | nil => rfl
  | cons b s ih =>
      obtain ⟨hb, hs⟩ := not_or.mp (mt List.mem_cons.mpr h)
      rw [cut?, stripStart?, if_neg hb, ih hs]
      rfl

theorem cut?_append_cons {a : α} {s : List α} (h : a ∉ s) (t : List α) :
    cut? [a] (s ++ a :: t) = some (s, t) := by
  induction s with
  | nil => simp [cut?, stripStart?]
  | cons b s ih =>
      obtain ⟨hb, hs⟩ := List.ne_and_not_mem_of_not_mem_cons h
      simp [cut?, stripStart?, hb, ih hs]

end CodeGraph.Seq

import CodeGraph.Proofs.Page.Regions
import CodeGraph.Proofs.Text.Delimited

/-!
Server scripts as elements: a tag up to its first closing bracket, a body of whole characters, and
the first closing tag behind it. Where an element is and how long its body is depends on the text
from its tag to its closing tag only, so that another body in its place gives an element again and
leaves all other elements of the page where they are.
-/

namespace CodeGraph.Page

open Pattern

/-! ### Closing tags -/

def closingParts : List Pattern :=
  [keyword "</script", spaces]

/-- A closing tag without its bracket. -/
def IsClosing (text : List Symbol) : Prop :=
  ReadsUpTo '>' (seqs closingParts) text

/-- The number of symbols of the closing tag that stands here. -/
def closingTag? (text : List Symbol) : Option Nat :=
  ((seqs scriptEnd).runs ⟨none, 0, text, []⟩).head?.map (·.offset)

theorem scriptEnd_eq : scriptEnd = closingParts ++ [char '>'] := rfl

theorem spares_closingParts : (seqs closingParts).spares '>' = true := by decide +kernel

variable {u x y : List Symbol} {a : Pattern.Place}

theorem head?_runs_of_isClosing (ha : a.rest = u ++ .char '>' :: x) (hu : .char '>' ∉ u)
    (h : IsClosing u) :
    ((seqs scriptEnd).runs a).head? =
      some ⟨some (.char '>'), a.offset + u.length + 1, x, a.groups⟩ := by
  rw [scriptEnd_eq, head?_runs_of_reads spares_closingParts rfl ha hu h]
  rfl

theorem runs_of_not_isClosing (ha : a.rest = u ++ .char '>' :: x) (hu : .char '>' ∉ u)
    (h : ¬ IsClosing u) : (seqs scriptEnd).runs a = [] := by
  rw [scriptEnd_eq, runs_of_not_reads spares_closingParts rfl ha hu h]

theorem runs_scriptEnd_of_notMem (h : .char '>' ∉ a.rest) : (seqs scriptEnd).runs a = [] := by
  rw [scriptEnd_eq, runs_of_notMem h]

theorem closingTag?_of_isClosing (hu : .char '>' ∉ u) (h : IsClosing u) (x : List Symbol) :
    closingTag? (u ++ .char '>' :: x) = some (u.length + 1) := by
  rw [closingTag?, head?_runs_of_isClosing rfl hu h, Option.map_some, Nat.zero_add]

theorem closingTag?_of_not_isClosing (hu : .char '>' ∉ u) (h : ¬ IsClosing u) (x : List Symbol) :
    closingTag? (u ++ .char '>' :: x) = none := by
  rw [closingTag?, runs_of_not_isClosing rfl hu h]
  rfl

theorem closingTag?_of_notMem (h : .char '>' ∉ x) : closingTag? x = none := by
  rw [closingTag?, runs_scriptEnd_of_notMem h]
  rfl

/-- A text holds a bracket or not; if it does, the first one counts. -/
theorem bracket_cases (text : List Symbol) :
    .char '>' ∉ text ∨ ∃ u x, text = u ++ .char '>' :: x ∧ .char '>' ∉ u := by
  by_cases h : .char '>' ∈ text
  · exact .inr (List.eq_append_cons_of_mem h)
  · exact .inl h

/-- What the closing tag that stands here leads to. -/
theorem head?_runs_scriptEnd (a : Pattern.Place) :
    ((seqs scriptEnd).runs a).head? = (closingTag? a.rest).map fun n =>
      ⟨some (.char '>'), a.offset + n, a.rest.drop n, a.groups⟩ := by
  rcases bracket_cases a.rest with hnone | ⟨u, x, ha, hu⟩
  · rw [runs_scriptEnd_of_notMem hnone, closingTag?_of_notMem hnone]
    rfl
  · by_cases h : IsClosing u
    · rw [head?_runs_of_isClosing ha hu h, ha, closingTag?_of_isClosing hu h]
      simp [Nat.add_assoc, List.drop_append]
    · rw [runs_of_not_isClosing ha hu h, ha, closingTag?_of_not_isClosing hu h]
      rfl

/-- A closing tag ends at the first bracket, so what follows that does not matter. -/
theorem closingTag?_append (h : .char '>' ∈ x) (y : List Symbol) :
    closingTag? (x ++ y) = closingTag? x := by
  obtain ⟨u, z, rfl, hu⟩ := List.eq_append_cons_of_mem h
  rw [List.append_assoc, List.cons_append]
  by_cases h : IsClosing u
  · rw [closingTag?_of_isClosing hu h, closingTag?_of_isClosing hu h]
  · rw [closingTag?_of_not_isClosing hu h, closingTag?_of_not_isClosing hu h]

theorem startsAs_of_closingTag? {n : Nat} (h : closingTag? x = some n) :
    startsAs "</script".toList x = true := by
  by_contra hstarts
  have hstuck : (keyword "</script").runs ⟨none, 0, x, []⟩ = [] :=
    runs_keyword_eq_nil_iff.mpr (Bool.eq_false_iff.mpr hstarts)
  rw [closingTag?, scriptEnd, runs_seqs_of_stuck hstuck] at h
  cases h

theorem eq_of_sameLetter_lt {c : Char} (h : Text.sameLetter '<' c = true) : c = '<' := by
  have hlower : Text.lowerChar c = '<' := by
    simp only [Text.sameLetter, Bool.or_eq_true, Bool.and_eq_true, beq_iff_eq] at h
    rcases h with (h | ⟨h, -⟩) | ⟨h, -⟩
    · exact h.symm
    · cases h
    · cases h
  unfold Text.lowerChar at hlower
  split at hlower
  case isTrue hupper =>
    -- A small letter is no bracket.
    simp only [Text.isAsciiUpper, Bool.and_eq_true, decide_eq_true_eq] at hupper
    have hlo : 65 ≤ c.toNat := hupper.1
    have hhi : c.toNat ≤ 90 := hupper.2
    have hvalid : (c.toNat + 32).isValidChar := .inl (by omega)
    have hnat : c.toNat + 32 = 60 :=
      (Utf8.toNat_ofNat hvalid).symm.trans (congrArg Char.toNat hlower)
    omega
  case isFalse => exact hlower

theorem exists_of_closingTag? {n : Nat} (h : closingTag? x = some n) :
    ∃ c z, x = .char '<' :: (c ++ z) ∧ n = c.length + 1 := by
  have hstarts := startsAs_of_closingTag? h
  obtain ⟨y, rfl⟩ : ∃ y, x = .char '<' :: y := by
    unfold startsAs at hstarts
    split at hstarts
    case h_1 heq => cases heq
    case h_2 c cs d rest heq =>
      obtain ⟨rfl, -⟩ := List.cons.inj heq
      obtain ⟨hd, -⟩ := Bool.and_eq_true_iff.mp hstarts
      exact ⟨rest, by rw [eq_of_sameLetter_lt hd]⟩
    case h_3 => cases hstarts
  rcases bracket_cases y with hnone | ⟨u, z, rfl, hu⟩
  · rw [closingTag?_of_notMem (by simpa using hnone)] at h
    cases h
  · have hu' : .char '>' ∉ .char '<' :: u := by simpa using hu
    by_cases hclosing : IsClosing (.char '<' :: u)
    · have hlength := closingTag?_of_isClosing hu' hclosing z
      rw [← List.cons_append, hlength] at h
      refine ⟨u ++ [.char '>'], z, by simp, ?_⟩
      rw [← Option.some.inj h, List.length_cons, List.length_append, List.length_singleton]
    · rw [← List.cons_append, closingTag?_of_not_isClosing hu' hclosing] at h
      cases h

/-! ### Bodies -/

/-- Where a body ends: the number of its symbols and that of its closing tag. -/
structure BodyEnd where
  body : Nat
  tag : Nat

/-- The end of the body that begins here. A body holds no broken bytes and no closing tag. -/
def bodyEnd? : List Symbol → Option BodyEnd
  | [] => none
  | s :: rest =>
      match closingTag? (s :: rest) with
      | some n => some ⟨0, n⟩
      | none =>
          if s.char?.isSome then (bodyEnd? rest).map fun e => ⟨e.body + 1, e.tag⟩ else none

abbrev anyChar : Pattern := one fun _ => true

theorem reluctant_of_stuck {step : Pattern.Place → List Pattern.Place} {r : Pattern.Place}
    (h : step r = []) (limit : Nat) :
    reluctant step limit r = [r] := by
  cases limit with
  | zero => rfl
  | succ n => rw [reluctant, h, List.flatMap_nil]

/-- Going on from a place `r` inside the body that began at `a`. -/
theorem head?_runs_within_body {r : Pattern.Place} {read : List Symbol}
    (hr : a.rest = read ++ r.rest) {limit : Nat} (hlimit : r.rest.length ≤ limit) :
    ((reluctant anyChar.runs limit r).flatMap fun q =>
        (seqs scriptEnd).runs (q.remember 1 a.offset (a.upTo q))).head? =
      (bodyEnd? r.rest).map fun e => ⟨some (.char '>'), r.offset + e.body + e.tag,
        r.rest.drop (e.body + e.tag),
        r.groups ++ [⟨1, a.offset, r.offset + e.body, read ++ r.rest.take e.body⟩]⟩ := by
  generalize hrest : r.rest = rest at hr hlimit ⊢
  induction rest generalizing r read limit with
  | nil =>
      have hstuck : anyChar.runs r = [] := runs_one_of_not_accepts (by simp [hrest])
      rw [reluctant_of_stuck hstuck, List.flatMap_singleton, head?_runs_scriptEnd]
      show (closingTag? r.rest).map _ = _
      rw [hrest, closingTag?_of_notMem (by simp)]
      rfl
  | cons s rest ih =>
      obtain ⟨n, rfl⟩ : ∃ n, limit = n + 1 := ⟨limit - 1, by simp at hlimit; omega⟩
      have hhere : ((seqs scriptEnd).runs (r.remember 1 a.offset (a.upTo r))).head? =
          (closingTag? (s :: rest)).map fun n => ⟨some (.char '>'), r.offset + n,
            (s :: rest).drop n, r.groups ++ [⟨1, a.offset, r.offset, read⟩]⟩ := by
        rw [head?_runs_scriptEnd, upTo_of_rest_eq (hrest ▸ hr), ← hrest]
        rfl
      rw [reluctant, List.flatMap_cons, List.head?_append, hhere, bodyEnd?]
      cases hclosing : closingTag? (s :: rest) with
      | some n => simp
      | none =>
          cases s with
          | broken bytes =>
              have hstuck : anyChar.runs r = [] :=
                runs_one_of_not_accepts (by simp [hrest, Symbol.char?])
              rw [hstuck]
              rfl
          | char c =>
              have hnext : anyChar.runs r = [r.next (.char c) rest] := runs_one hrest rfl
              have hread : a.rest = (read ++ [.char c]) ++ rest := by
                rw [hr, List.append_assoc, List.singleton_append]
              rw [hnext, List.flatMap_singleton,
                ih (r := r.next (.char c) rest) rfl hread (Nat.le_of_succ_le_succ hlimit)]
              cases bodyEnd? rest with
              | none => rfl
              | some e =>
                  have hoffset : r.offset + 1 + e.body = r.offset + (e.body + 1) := by omega
                  have hlength : e.body + 1 + e.tag = e.body + e.tag + 1 := by omega
                  simp [Pattern.Place.next, hoffset, hlength, Symbol.char?]

/-- The place behind the body and its closing tag, where the body is remembered. -/
theorem head?_runs_body (a : Pattern.Place) :
    ((seqs (group 1 (fewest anyChar) :: scriptEnd)).runs a).head? =
      (bodyEnd? a.rest).map fun e => ⟨some (.char '>'), a.offset + e.body + e.tag,
        a.rest.drop (e.body + e.tag),
        a.groups ++ [⟨1, a.offset, a.offset + e.body, a.rest.take e.body⟩]⟩ := by
  rw [runs_seqs_cons]
  show ((List.map _ (reluctant anyChar.runs a.rest.length a)).flatMap _).head? = _
  have hnothing : a.rest = [] ++ a.rest := rfl
  rw [List.flatMap_map]
  exact head?_runs_within_body hnothing (Nat.le_refl _)

theorem exists_of_bodyEnd? {e : BodyEnd} (h : bodyEnd? x = some e) :
    ∃ b t, x = b ++ t ∧ b.length = e.body ∧ closingTag? t = some e.tag ∧
      ∀ s ∈ b, s.char?.isSome = true := by
  induction x generalizing e with
  | nil => cases h
  | cons s x ih =>
      rw [bodyEnd?] at h
      cases hclosing : closingTag? (s :: x) with
      | some n =>
          rw [hclosing] at h
          obtain rfl := Option.some.inj h
          exact ⟨[], s :: x, rfl, rfl, hclosing, by simp⟩
      | none =>
          rw [hclosing] at h
          obtain ⟨hchar, hrest⟩ := Option.ite_none_right_eq_some.mp h
          obtain ⟨e, he, rfl⟩ := Option.map_eq_some_iff.mp hrest
          obtain ⟨b, t, rfl, hlength, ht, hb⟩ := ih he
          refine ⟨s :: b, t, rfl, ?_, ht, List.forall_mem_cons.mpr ⟨hchar, hb⟩⟩
          rw [List.length_cons, hlength]

/-- The text of a body: whole characters that do not begin a closing tag. -/
structure IsBody (text : List Symbol) : Prop where
  chars : ∀ s ∈ text, s.char?.isSome = true
  unclosed : ∀ before s rest, text = before ++ s :: rest →
    startsAs "</script".toList (s :: rest) = false

theorem IsBody.tail {s : Symbol} (h : IsBody (s :: x)) : IsBody x :=
  ⟨fun s' hs' => h.chars s' (List.mem_cons_of_mem s hs'), fun before s' rest htext =>
    h.unclosed (s :: before) s' rest (congrArg (s :: ·) htext)⟩

theorem isBody_of_not_occursIn (hchars : ∀ s ∈ x, s.char?.isSome = true)
    (h : (keyword "</script").occursIn x = false) : IsBody x :=
  ⟨hchars, fun _ _ _ htext => startsAs_eq_false_of_not_occursIn h htext⟩

/-- A body goes up to the closing tag that follows it. Nothing that begins in the body is one:
behind its first character a closing tag does not hold another opening bracket. -/
theorem IsBody.bodyEnd? {b t : List Symbol} {n : Nat} (hb : IsBody b)
    (ht : closingTag? t = some n) : bodyEnd? (b ++ t) = some ⟨b.length, n⟩ := by
  obtain ⟨c, z, rfl, -⟩ := exists_of_closingTag? ht
  induction b with
  | nil => rw [List.nil_append, Page.bodyEnd?, ht]; rfl
  | cons s b ih =>
      have hnone : closingTag? (s :: (b ++ .char '<' :: (c ++ z))) = none := by
        refine Option.eq_none_iff_forall_ne_some.mpr fun n hn => ?_
        have hstarts := startsAs_of_closingTag? hn
        have hfirst := hb.unclosed [] s b rfl
        cases s with
        | broken bytes => cases hstarts
        | char c =>
            obtain ⟨hc, hstarts⟩ := Bool.and_eq_true_iff.mp hstarts
            have hwithin := startsAs_of_append (by decide +kernel) hstarts
            exact Bool.eq_false_iff.mp hfirst (Bool.and_eq_true_iff.mpr ⟨hc, hwithin⟩)
      rw [List.cons_append, Page.bodyEnd?, hnone]
      simp [hb.chars s List.mem_cons_self, ih hb.tail]

/-- A text that ends with a bracket, or an empty one. -/
def Bracketed (text : List Symbol) : Prop :=
  ∀ s ∈ text.getLast?, s = .char '>'

theorem Bracketed.of_append (h : Bracketed (x ++ y)) : Bracketed y := by
  intro s hs
  refine h s ?_
  rw [List.getLast?_append, hs]
  rfl

theorem Bracketed.mem {s : Symbol} (h : Bracketed (s :: x)) : .char '>' ∈ s :: x := by
  have hlast := List.getLast?_eq_some_getLast (List.cons_ne_nil s x)
  rw [← h _ hlast]
  exact List.getLast_mem _

/-- A body ends in a bracketed text, or what follows decides where it ends. -/
theorem bodyEnd?_append (h : Bracketed x) (y : List Symbol) :
    bodyEnd? (x ++ y) = (bodyEnd? x).or
      (if x.all (·.char?.isSome) then (bodyEnd? y).map fun e => ⟨x.length + e.body, e.tag⟩
        else none) := by
  induction x with
  | nil => simp [bodyEnd?]
  | cons s x ih =>
      rw [List.cons_append, bodyEnd?, bodyEnd?, ← List.cons_append, closingTag?_append h.mem]
      cases closingTag? (s :: x) with
      | some n => rfl
      | none =>
          cases hs : s.char?.isSome with
          | false => simp [hs]
          | true =>
              have htail : Bracketed x := h.of_append (x := [s])
              simp only [if_true, ih htail, List.all_cons, hs, Bool.true_and, List.length_cons]
              cases bodyEnd? x with
              | some e => rfl
              | none =>
                  cases x.all (·.char?.isSome) with
                  | false => rfl
                  | true =>
                      cases bodyEnd? y with
                      | none => rfl
                      | some e => simp; omega

/-! ### Elements -/

def IsTag (text : List Symbol) : Prop :=
  ReadsUpTo '>' (seqs scriptTag) text

/-- An element that begins here: the number of symbols in front of its body, in front of its closing
tag, and in all. -/
structure Element where
  start : Nat
  stop : Nat
  size : Nat

def element? (text : List Symbol) : Option Element :=
  (scriptPattern.here? none 0 text).bind fun m =>
    (m.group? 1).map fun g => ⟨g.start, g.stop, m.stop⟩

theorem spares_scriptTag : (seqs scriptTag).spares '>' = true := by decide +kernel

theorem here?_of_isTag (hu : .char '>' ∉ u) (h : IsTag u) (last : Option Symbol) (offset : Nat)
    (x : List Symbol) :
    scriptPattern.here? last offset (u ++ .char '>' :: x) = (bodyEnd? x).map fun e =>
      ⟨offset, offset + u.length + 1 + e.body + e.tag,
        Pattern.Place.upTo ⟨last, offset, u ++ .char '>' :: x, []⟩
          ⟨some (.char '>'), offset + u.length + 1 + e.body + e.tag, x.drop (e.body + e.tag),
            [⟨1, offset + u.length + 1, offset + u.length + 1 + e.body, x.take e.body⟩]⟩,
        [⟨1, offset + u.length + 1, offset + u.length + 1 + e.body, x.take e.body⟩]⟩ := by
  rw [here?, scriptPattern_eq, head?_runs_of_reads spares_scriptTag rfl rfl hu h, head?_runs_body,
    Option.map_map]
  rfl

theorem here?_of_not_isTag (hu : .char '>' ∉ u) (h : ¬ IsTag u) (last : Option Symbol)
    (offset : Nat) (x : List Symbol) :
    scriptPattern.here? last offset (u ++ .char '>' :: x) = none := by
  rw [here?, scriptPattern_eq, runs_of_not_reads spares_scriptTag rfl rfl hu h]
  rfl

theorem here?_of_notMem (h : .char '>' ∉ x) (last : Option Symbol) (offset : Nat) :
    scriptPattern.here? last offset x = none := by
  rw [here?, scriptPattern_eq, runs_of_notMem h]
  rfl

theorem element?_of_isTag (hu : .char '>' ∉ u) (h : IsTag u) (x : List Symbol) :
    element? (u ++ .char '>' :: x) = (bodyEnd? x).map fun e =>
      ⟨u.length + 1, u.length + 1 + e.body, u.length + 1 + e.body + e.tag⟩ := by
  rw [element?, here?_of_isTag hu h]
  cases bodyEnd? x with
  | none => rfl
  | some e => simp [Match.group?]

theorem element?_of_not_isTag (hu : .char '>' ∉ u) (h : ¬ IsTag u) (x : List Symbol) :
    element? (u ++ .char '>' :: x) = none := by
  rw [element?, here?_of_not_isTag hu h]
  rfl

theorem element?_of_notMem (h : .char '>' ∉ x) : element? x = none := by
  rw [element?, here?_of_notMem h]
  rfl

/-- A match is an element, wherever it stands in the text. -/
theorem here?_eq_element? (last : Option Symbol) (offset : Nat) (text : List Symbol) :
    (scriptPattern.here? last offset text).map
        (fun m => ((m.group? 1).map fun g => (g.start, g.stop), m.text.length)) =
      (element? text).map fun e => (some (offset + e.start, offset + e.stop), e.size) := by
  rcases bracket_cases text with hnone | ⟨u, x, rfl, hu⟩
  · rw [here?_of_notMem hnone, element?_of_notMem hnone]
    rfl
  · by_cases h : IsTag u
    · have hhere := here?_of_isTag hu h last offset x
      rw [element?_of_isTag hu h]
      cases he : bodyEnd? x with
      | none => rw [hhere, he]; rfl
      | some e =>
          rw [he, Option.map_some] at hhere
          obtain ⟨-, -, -, -, -, hlength⟩ := here?_eq_some hhere
          rw [hhere]
          simp only [Option.map_some, hlength]
          simp [Match.group?]
          omega
    · rw [here?_of_not_isTag hu h, element?_of_not_isTag hu h]
      rfl

theorem exists_of_element? {e : Element} (h : element? x = some e) :
    ∃ u z b, x = u ++ .char '>' :: z ∧ bodyEnd? z = some b ∧
      e = ⟨u.length + 1, u.length + 1 + b.body, u.length + 1 + b.body + b.tag⟩ := by
  rcases bracket_cases x with hnone | ⟨u, z, rfl, hu⟩
  · rw [element?_of_notMem hnone] at h
    cases h
  · by_cases htag : IsTag u
    · rw [element?_of_isTag hu htag] at h
      obtain ⟨b, hb, rfl⟩ := Option.map_eq_some_iff.mp h
      exact ⟨u, z, b, rfl, hb, rfl⟩
    · rw [element?_of_not_isTag hu htag] at h
      cases h

/-! ### The elements of a page -/

def widthOf (text : List Symbol) : Nat :=
  (text.map Symbol.width).sum

@[simp] theorem widthOf_nil : widthOf [] = 0 := rfl

@[simp] theorem widthOf_cons (s : Symbol) (text : List Symbol) :
    widthOf (s :: text) = s.width + widthOf text := by
  simp [widthOf]

@[simp] theorem widthOf_append (x y : List Symbol) : widthOf (x ++ y) = widthOf x + widthOf y := by
  simp [widthOf]

theorem eq_nil_of_widthOf_eq_zero (hwide : ∀ s ∈ x, 0 < s.width) (h : widthOf x = 0) : x = [] := by
  cases x with
  | nil => rfl
  | cons s x =>
      have hs := hwide s List.mem_cons_self
      rw [widthOf_cons] at h
      omega

@[simp] theorem width_bracket : (Symbol.char '>').width = 1 := rfl

theorem byteOffset_append (before text : List Symbol) (n : Nat) :
    byteOffset (before ++ text) (before.length + n) = widthOf before + widthOf (text.take n) := by
  rw [byteOffset_eq_sum, List.take_length_add_append, List.map_append, List.sum_append]
  rfl

theorem widthOf_take_body (u b t : List Symbol) :
    widthOf ((u ++ .char '>' :: (b ++ t)).take (u.length + 1 + b.length)) =
      widthOf u + 1 + widthOf b := by
  have hsplit : u ++ .char '>' :: (b ++ t) = (u ++ [.char '>']) ++ (b ++ t) := by simp
  have hlength : u.length + 1 = (u ++ [Symbol.char '>']).length := by simp
  rw [hsplit, hlength, List.take_length_add_append, List.take_left, widthOf_append, widthOf_append]
  rfl

theorem widthOf_take_tag (u z : List Symbol) :
    widthOf ((u ++ .char '>' :: z).take (u.length + 1)) = widthOf u + 1 :=
  widthOf_take_body u [] z

/-- The bodies of the elements from here on, when `skip` symbols still belong to the element
before. -/
def scriptsFrom (offset skip : Nat) : List Symbol → List Region
  | [] => []
  | s :: rest =>
      match skip with
      | skip + 1 => scriptsFrom (offset + s.width) skip rest
      | 0 =>
          match element? (s :: rest) with
          | none => scriptsFrom (offset + s.width) 0 rest
          | some e =>
              ⟨offset + widthOf ((s :: rest).take e.start),
                  offset + widthOf ((s :: rest).take e.stop), .members⟩ ::
                scriptsFrom (offset + s.width) (e.size - 1) rest

theorem regions_of_allFrom (last : Option Symbol) (before : List Symbol) (skip : Nat)
    (text : List Symbol) :
    ((scriptPattern.allFrom last before.length skip text).filterMap (·.group? 1)).map (fun g =>
        (⟨byteOffset (before ++ text) g.start, byteOffset (before ++ text) g.stop, .members⟩ :
          Region)) =
      scriptsFrom (widthOf before) skip text := by
  induction text generalizing last before skip with
  | nil => rfl
  | cons s rest ih =>
      have hnext (skip : Nat) := ih (some s) (before ++ [s]) skip
      simp only [List.length_append, List.length_singleton, List.append_assoc,
        List.singleton_append, widthOf_append, widthOf_cons, widthOf_nil, Nat.add_zero] at hnext
      cases skip with
      | succ skip => exact hnext skip
      | zero =>
          have helement := here?_eq_element? last before.length (s :: rest)
          rw [allFrom, scriptsFrom]
          cases hm : scriptPattern.here? last before.length (s :: rest) with
          | none =>
              cases he : element? (s :: rest) with
              | none => exact hnext 0
              | some e =>
                  rw [hm, he] at helement
                  cases helement
          | some m =>
              cases he : element? (s :: rest) with
              | none =>
                  rw [hm, he] at helement
                  cases helement
              | some e =>
                  rw [hm, he] at helement
                  obtain ⟨hgroup, hsize⟩ := Prod.mk.inj (Option.some.inj helement)
                  obtain ⟨g, hg, hplace⟩ := Option.map_eq_some_iff.mp hgroup
                  obtain ⟨hstart, hstop⟩ := Prod.mk.inj hplace
                  dsimp only
                  rw [List.filterMap_cons, hg, List.map_cons, hstart, hstop, hsize, hnext,
                    byteOffset_append, byteOffset_append]

theorem scripts_eq_scriptsFrom (bytes : List UInt8) :
    scripts bytes = scriptsFrom 0 0 (Utf8.decode bytes) :=
  regions_of_allFrom none [] 0 (Utf8.decode bytes)

theorem scriptsFrom_skip (offset skip : Nat) (text : List Symbol) :
    scriptsFrom offset skip text =
      scriptsFrom (offset + widthOf (text.take skip)) 0 (text.drop skip) := by
  induction skip generalizing offset text with
  | zero => rfl
  | succ skip ih =>
      cases text with
      | nil => rfl
      | cons s rest =>
          rw [scriptsFrom, ih, List.take_succ_cons, widthOf_cons, List.drop_succ_cons,
            Nat.add_assoc]

theorem scriptsFrom_of_none (offset : Nat) {s : Symbol} (h : element? (s :: x) = none) :
    scriptsFrom offset 0 (s :: x) = scriptsFrom (offset + s.width) 0 x := by
  rw [scriptsFrom, h]

/-- The search goes on behind an element. -/
theorem scriptsFrom_of_element (offset : Nat) {e : Element} (h : element? x = some e) :
    scriptsFrom offset 0 x =
      ⟨offset + widthOf (x.take e.start), offset + widthOf (x.take e.stop), .members⟩ ::
        scriptsFrom (offset + widthOf (x.take e.size)) 0 (x.drop e.size) := by
  obtain ⟨n, hn⟩ : ∃ n, e.size = n + 1 := by
    obtain ⟨u, z, b, -, -, rfl⟩ := exists_of_element? h
    exact ⟨u.length + b.body + b.tag, by dsimp only; omega⟩
  rw [← scriptsFrom_skip, hn]
  cases x with
  | nil => rw [element?_of_notMem (by simp)] at h; cases h
  | cons s x =>
      rw [scriptsFrom, scriptsFrom, h]
      dsimp only
      rw [hn, Nat.add_sub_cancel]

/-- Each body stands between the bracket of its tag and a closing tag. -/
theorem exists_of_mem_scriptsFrom {offset skip : Nat} {r : Region}
    (h : r ∈ scriptsFrom offset skip x) :
    ∃ front b t n, x = front ++ .char '>' :: (b ++ t) ∧ skip ≤ front.length ∧
      r = ⟨offset + widthOf front + 1, offset + widthOf front + 1 + widthOf b, .members⟩ ∧
      closingTag? t = some n ∧ ∀ s ∈ b, s.char?.isSome = true := by
  fun_induction scriptsFrom offset skip x with
  | case1 => cases h
  | case2 offset s rest skip ih =>
      obtain ⟨front, b, t, n, rfl, hskip, rfl, ht, hb⟩ := ih h
      refine ⟨s :: front, b, t, n, rfl, Nat.succ_le_succ hskip, ?_, ht, hb⟩
      rw [widthOf_cons, Nat.add_assoc offset]
  | case3 offset s rest hnone ih =>
      obtain ⟨front, b, t, n, rfl, -, rfl, ht, hb⟩ := ih h
      refine ⟨s :: front, b, t, n, rfl, Nat.zero_le _, ?_, ht, hb⟩
      rw [widthOf_cons, Nat.add_assoc offset]
  | case4 offset s rest e he ih =>
      rcases List.mem_cons.mp h with rfl | h
      · obtain ⟨u, z, e, hx, hend, rfl⟩ := exists_of_element? he
        obtain ⟨b, t, rfl, hlength, ht, hb⟩ := exists_of_bodyEnd? hend
        refine ⟨u, b, t, e.tag, hx, Nat.zero_le _, ?_, ht, hb⟩
        rw [hx, ← hlength, widthOf_take_tag, widthOf_take_body, Nat.add_assoc offset,
          Nat.add_assoc offset]
      · obtain ⟨front, b, t, n, rfl, -, rfl, ht, hb⟩ := ih h
        refine ⟨s :: front, b, t, n, rfl, Nat.zero_le _, ?_, ht, hb⟩
        rw [widthOf_cons, Nat.add_assoc offset]

theorem lt_start_of_mem_scriptsFrom {offset : Nat} {r : Region} (h : r ∈ scriptsFrom offset 0 x) :
    offset < r.start := by
  obtain ⟨front, b, t, n, -, -, rfl, -⟩ := exists_of_mem_scriptsFrom h
  dsimp only
  omega

/-! ### Other bodies -/

def bodyRegion (offset : Nat) (body : List Symbol) : Region :=
  ⟨offset, offset + widthOf body, .members⟩

/-- The search finds the element of a tag and goes on behind its closing tag `c`. -/
theorem scriptsFrom_of_isTag (offset : Nat) {b c z : List Symbol} (hu : .char '>' ∉ u)
    (h : IsTag u) (hend : bodyEnd? (b ++ (c ++ z)) = some ⟨b.length, c.length⟩) :
    scriptsFrom offset 0 (u ++ .char '>' :: (b ++ (c ++ z))) =
      bodyRegion (offset + widthOf u + 1) b ::
        scriptsFrom (offset + widthOf u + 1 + widthOf b + widthOf c) 0 z := by
  have helement := element?_of_isTag hu h (b ++ (c ++ z))
  rw [hend, Option.map_some] at helement
  have hsize : u.length + 1 + b.length + c.length = u.length + 1 + (b ++ c).length := by
    rw [List.length_append, Nat.add_assoc _ b.length]
  have hwidth : widthOf ((u ++ .char '>' :: (b ++ (c ++ z))).take
      (u.length + 1 + b.length + c.length)) = widthOf u + 1 + widthOf b + widthOf c := by
    rw [hsize, ← List.append_assoc b, widthOf_take_body, widthOf_append,
      Nat.add_assoc _ (widthOf b)]
  have hdrop : (u ++ .char '>' :: (b ++ (c ++ z))).drop
      (u.length + 1 + b.length + c.length) = z := by
    have hsplit : u ++ .char '>' :: (b ++ (c ++ z)) = (u ++ .char '>' :: (b ++ c)) ++ z := by simp
    rw [hsplit]
    refine List.drop_left' ?_
    simp only [List.length_append, List.length_cons]
    omega
  rw [scriptsFrom_of_element offset helement]
  dsimp only
  rw [widthOf_take_tag, widthOf_take_body, hwidth, hdrop, bodyRegion]
  simp only [Nat.add_assoc]

/-- The search goes on behind a part of the text in the same way, whatever follows the text. -/
def GoesOn (offset : Nat) (x : List Symbol) : Prop :=
  ∃ seen front rest, x = front ++ rest ∧ front ≠ [] ∧
    (∀ r ∈ seen, r.start < offset + widthOf x) ∧
    ∀ y, scriptsFrom offset 0 (x ++ y) =
      seen ++ scriptsFrom (offset + widthOf front) 0 (rest ++ y)

/-- An element that is closed in a bracketed text is found there, whatever follows that. -/
theorem goesOn_of_closed (offset : Nat) {z : List Symbol} {e : BodyEnd}
    (hu : .char '>' ∉ u) (htag : IsTag u) (hz : Bracketed z) (hend : bodyEnd? z = some e) :
    GoesOn offset (u ++ .char '>' :: z) := by
  obtain ⟨b, t, rfl, hbody, ht, -⟩ := exists_of_bodyEnd? hend
  obtain ⟨c, rest, rfl, htagEnd⟩ := exists_of_closingTag? ht
  refine ⟨[bodyRegion (offset + widthOf u + 1) b], u ++ .char '>' :: (b ++ .char '<' :: c), rest,
    by simp, by simp, ?_, fun y => ?_⟩
  · have hlt : (Symbol.char '<').width = 1 := rfl
    simp [bodyRegion, hlt]
    omega
  · have hwidth : widthOf (u ++ .char '>' :: (b ++ .char '<' :: c)) =
        widthOf u + 1 + widthOf b + widthOf (.char '<' :: c) := by
      simp
      omega
    have hmore := bodyEnd?_append hz y
    have hlength : e = ⟨b.length, (.char '<' :: c : List Symbol).length⟩ := by
      rw [List.length_cons, hbody, ← htagEnd]
    have hbehind : b ++ .char '<' :: (c ++ rest) ++ y = b ++ ((.char '<' :: c) ++ (rest ++ y)) := by
      simp
    rw [hend, Option.some_or, hbehind, hlength] at hmore
    rw [List.append_assoc, List.cons_append, hbehind, scriptsFrom_of_isTag offset hu htag hmore,
      List.singleton_append, hwidth]
    simp only [Nat.add_assoc]

theorem goesOn_of_none (offset : Nat) (hne : x ≠ []) (h : ∀ y, element? (x ++ y) = none) :
    GoesOn offset x := by
  cases x with
  | nil => exact absurd rfl hne
  | cons s x => exact ⟨[], [s], x, rfl, by simp, by simp, fun y => scriptsFrom_of_none offset (h y)⟩

/-- One round of the search in a bracketed text: it goes on in the text, or it has come to a tag
whose element is not closed there. -/
theorem scriptsFrom_round (offset : Nat) (hne : x ≠ []) (h : Bracketed x) :
    GoesOn offset x ∨
      ∃ u z, x = u ++ .char '>' :: z ∧ .char '>' ∉ u ∧ IsTag u ∧
        ∀ y, bodyEnd? (z ++ y) = (bodyEnd? y).map fun e => ⟨z.length + e.body, e.tag⟩ := by
  have hbracket : .char '>' ∈ x := by
    cases x with
    | nil => exact absurd rfl hne
    | cons s x => exact h.mem
  obtain ⟨u, z, rfl, hu⟩ := List.eq_append_cons_of_mem hbracket
  have hz : Bracketed z := Bracketed.of_append (x := u ++ [.char '>']) (by simpa using h)
  have hcons (y : List Symbol) : (u ++ .char '>' :: z) ++ y = u ++ .char '>' :: (z ++ y) := by simp
  by_cases htag : IsTag u
  · cases hend : bodyEnd? z with
    | some e => exact .inl (goesOn_of_closed offset hu htag hz hend)
    | none =>
        by_cases hchars : z.all (·.char?.isSome) = true
        · refine .inr ⟨u, z, rfl, hu, htag, fun y => ?_⟩
          rw [bodyEnd?_append hz, hend, if_pos hchars, Option.none_or]
        · refine .inl (goesOn_of_none offset hne fun y => ?_)
          rw [hcons, element?_of_isTag hu htag, bodyEnd?_append hz, hend, if_neg hchars]
          rfl
  · refine .inl (goesOn_of_none offset hne fun y => ?_)
    rw [hcons, element?_of_not_isTag hu htag]

/-- Another body and another text behind it in an element of a page leave what stands in front as
it is, and the search goes on behind the closing tag. -/
theorem exists_scriptsFrom_eq_append {offset n : Nat} {b t : List Symbol} (hx : Bracketed x)
    (hwide : ∀ s ∈ x, 0 < s.width) (hb : IsBody b) (ht : closingTag? t = some n)
    (h : bodyRegion (offset + widthOf x) b ∈ scriptsFrom offset 0 (x ++ (b ++ t))) :
    ∃ before, ∀ b' c' z', IsBody b' → closingTag? (c' ++ z') = some c'.length →
      scriptsFrom offset 0 (x ++ (b' ++ (c' ++ z'))) =
        before ++ bodyRegion (offset + widthOf x) b' ::
          scriptsFrom (offset + widthOf x + widthOf b' + widthOf c') 0 z' := by
  induction hlength : x.length using Nat.strong_induction_on generalizing x offset with
  | _ length ih =>
  by_cases hne : x = []
  · subst hne
    exact absurd (lt_start_of_mem_scriptsFrom h) (Nat.lt_irrefl _)
  rcases scriptsFrom_round offset hne hx with
    ⟨seen, front, rest, rfl, hfront, hseen, hround⟩ | ⟨u, z, rfl, hu, htag, hend⟩
  · rw [widthOf_append, ← Nat.add_assoc] at h hseen
    rw [hround] at h
    have hmem : bodyRegion (offset + widthOf front + widthOf rest) b ∈
        scriptsFrom (offset + widthOf front) 0 (rest ++ (b ++ t)) := by
      refine (List.mem_append.mp h).resolve_left fun hin => ?_
      exact Nat.lt_irrefl _ (hseen _ hin)
    have hshorter : rest.length < length := by
      have hpos := List.length_pos_iff.mpr hfront
      rw [← hlength, List.length_append]
      omega
    obtain ⟨before, hbefore⟩ := ih rest.length hshorter hx.of_append
      (fun s hs => hwide s (List.mem_append_right _ hs)) hmem rfl
    refine ⟨seen ++ before, fun b' c' z' hb' hc' => ?_⟩
    rw [hround, hbefore b' c' z' hb' hc', widthOf_append, List.append_assoc, ← Nat.add_assoc]
  · have hstep (b' c' z' : List Symbol) (hb' : IsBody b')
        (hc' : closingTag? (c' ++ z') = some c'.length) :
        scriptsFrom offset 0 (u ++ .char '>' :: z ++ (b' ++ (c' ++ z'))) =
          bodyRegion (offset + widthOf u + 1) (z ++ b') ::
            scriptsFrom (offset + widthOf u + 1 + widthOf (z ++ b') + widthOf c') 0 z' := by
      have hbody := hend (b' ++ (c' ++ z'))
      rw [hb'.bodyEnd? hc', Option.map_some, ← List.append_assoc, ← List.length_append] at hbody
      rw [List.append_assoc, List.cons_append, ← List.append_assoc z,
        scriptsFrom_of_isTag offset hu htag hbody]
    have hwidth : offset + widthOf (u ++ .char '>' :: z) = offset + widthOf u + 1 + widthOf z := by
      simp
      omega
    obtain ⟨c, w, rfl, rfl⟩ := exists_of_closingTag? ht
    rw [← List.cons_append, hstep b (.char '<' :: c) w hb ht, hwidth] at h
    -- The body begins right behind the tag.
    obtain rfl : z = [] := by
      refine eq_nil_of_widthOf_eq_zero
        (fun s hs => hwide s (List.mem_append_right _ (List.mem_cons_of_mem _ hs))) ?_
      rcases List.mem_cons.mp h with heq | hlater
      · have hstart := congrArg Region.start heq
        simp only [bodyRegion] at hstart
        omega
      · have hlt := lt_start_of_mem_scriptsFrom hlater
        simp only [bodyRegion, widthOf_append] at hlt
        omega
    refine ⟨[], fun b' c' z' hb' hc' => ?_⟩
    rw [hstep b' c' z' hb' hc', hwidth]
    rfl

end CodeGraph.Page

import CodeGraph.Text.Bytes
import CodeGraph.Text.Chars
import Mathlib.Algebra.Ring.Nat
import Mathlib.Data.List.Forall2

/-!
Decoding cuts the bytes of a text into the symbols it returns: put together, the bytes of all
symbols are the bytes that were decoded, each symbol is as wide as its bytes, and ASCII characters
are exactly the single bytes below 128.
-/

namespace CodeGraph

/-! ### Symbols and their bytes -/

/-- The bytes that a symbol is read from: one for an ASCII character, and bytes from 128 on for
everything else. -/
inductive Symbol.Spells : Symbol → List UInt8 → Prop where
  | ascii {c : Char} {b : UInt8} (hc : c.toNat < 0x80) (hb : b.toNat = c.toNat) :
      Symbol.Spells (.char c) [b]
  | other {s : Symbol} {w : List UInt8} (hne : w ≠ []) (hwidth : w.length = s.width)
      (hchar : 0x80 ≤ s.toChar.toNat) (hbytes : ∀ b ∈ w, 0x80 ≤ b.toNat) : Symbol.Spells s w

theorem Symbol.Spells.length {s : Symbol} {w : List UInt8} (h : s.Spells w) :
    w.length = s.width := by
  cases h with
  | @ascii c b hc =>
      have hle : c.val ≤ 127 := UInt32.le_iff_toNat_le.mpr (Nat.le_of_lt_succ hc)
      exact (Char.utf8Size_eq_one_iff.mpr hle).symm
  | other _ hwidth => exact hwidth

theorem Symbol.Spells.width_pos {s : Symbol} {w : List UInt8} (h : s.Spells w) : 0 < s.width := by
  rw [← h.length]
  cases h with
  | ascii => exact Nat.one_pos
  | other hne => exact List.length_pos_iff.mpr hne

namespace Utf8

theorem toNat_ofNat {n : Nat} (h : n.isValidChar) : (Char.ofNat n).toNat = n := by
  rw [Char.ofNat, dif_pos h]
  rfl

theorem utf8Size_ofNat {n : Nat} (h : n.isValidChar) :
    (Char.ofNat n).utf8Size = if n ≤ 0x7f then 1 else if n ≤ 0x7ff then 2
      else if n ≤ 0xffff then 3 else 4 := by
  have hval : (Char.ofNat n).val.toNat = n := toNat_ofNat h
  simp only [Char.utf8Size, UInt32.le_iff_toNat_le, hval]
  rfl

namespace Pending

def least (p : Pending) : Nat :=
  (p.value * 64 + (p.lo - 0x80)) * 64 ^ (p.more - 1)

def limit (p : Pending) : Nat :=
  (p.value * 64 + (p.hi - 0x80) + 1) * 64 ^ (p.more - 1)

/-- However a pending character goes on, it is a character of as many bytes as were announced. -/
structure Sound (p : Pending) : Prop where
  more_pos : 0 < p.more
  lo_le : 0x80 ≤ p.lo
  hi_le : p.hi ≤ 0xbf
  got_ne_nil : p.got ≠ []
  got_high : ∀ b ∈ p.got, 0x80 ≤ b.toNat
  value : ∀ n, p.least ≤ n → n < p.limit →
    n.isValidChar ∧ 0x80 ≤ n ∧ (Char.ofNat n).utf8Size = p.got.length + p.more

end Pending

/-! ### One byte -/

def Lead.Sound (b : UInt8) : Lead → Prop
  | .done s => s.Spells [b]
  | .more p => p.Sound ∧ p.got = [b]

theorem spells_broken {w : List UInt8} (hne : w ≠ []) (hbytes : ∀ b ∈ w, 0x80 ≤ b.toNat) :
    (Symbol.broken w).Spells w := by
  refine .other hne rfl ?_ hbytes
  show 0x80 ≤ (Char.ofNat 0xfffd).toNat
  decide

theorem sound_more {b : UInt8} {bits more lo hi : Nat} (hb : 0x80 ≤ b.toNat) (hmore : 0 < more)
    (hlo : 0x80 ≤ lo) (hhi : hi ≤ 0xbf)
    (hvalue : ∀ n, (bits * 64 + (lo - 0x80)) * 64 ^ (more - 1) ≤ n →
      n < (bits * 64 + (hi - 0x80) + 1) * 64 ^ (more - 1) →
      n.isValidChar ∧ 0x80 ≤ n ∧ (Char.ofNat n).utf8Size = 1 + more) :
    (Lead.more ⟨[b], bits, more, lo, hi⟩).Sound b := by
  refine ⟨⟨hmore, hlo, hhi, by simp, fun b' hb' => ?_, hvalue⟩, rfl⟩
  rw [List.mem_singleton.mp hb']
  exact hb

theorem sound_lead (b : UInt8) : (lead b).Sound b := by
  have hlt : b.toNat < 256 := b.toNat_lt
  unfold lead
  simp only [Bool.and_eq_true, decide_eq_true_eq, beq_iff_eq]
  split_ifs with h1 h2 h3 h4 h5 h6 h7 h8
  · have hvalid : b.toNat.isValidChar := by simp only [Nat.isValidChar]; omega
    refine .ascii ?_ (toNat_ofNat hvalid).symm
    rw [toNat_ofNat hvalid]
    exact h1
  on_goal 8 => exact spells_broken (by simp) fun b' hb' => by rw [List.mem_singleton.mp hb']; omega
  -- The seven kinds of first bytes that announce more bytes.
  all_goals
    refine sound_more (by omega) (by omega) (by omega) (by omega) fun n hlo hhi => ?_
    have hvalid : n.isValidChar := by simp only [Nat.isValidChar]; omega
    refine ⟨hvalid, by omega, ?_⟩
    rw [utf8Size_ofNat hvalid]
    split_ifs <;> omega

theorem sound_feed {p : Pending} (hp : p.Sound) {b : UInt8} {l : Lead} (h : p.feed b = some l) :
    0x80 ≤ b.toNat ∧
      match l with
      | .done s => s.Spells (p.got ++ [b])
      | .more q => q.Sound ∧ q.got = p.got ++ [b] := by
  obtain ⟨hmore, hlo, hhi, hne, hhigh, hvalue⟩ := hp
  unfold Pending.feed at h
  simp only [Bool.and_eq_true, decide_eq_true_eq] at h
  split at h
  case isFalse => cases h
  case isTrue hb =>
    have hb' : 0x80 ≤ b.toNat := by omega
    have hgot : ∀ b' ∈ p.got ++ [b], 0x80 ≤ b'.toNat := by
      intro b' hmem
      rcases List.mem_append.mp hmem with hmem | hmem
      · exact hhigh b' hmem
      · rw [List.mem_singleton.mp hmem]
        exact hb'
    refine ⟨hb', ?_⟩
    split at h
    case isTrue hlast =>
      cases h
      have hone : p.more = 1 := by omega
      obtain ⟨hvalid, hge, hsize⟩ := hvalue (p.value * 64 + (b.toNat - 0x80))
        (by simp only [Pending.least, hone]; omega) (by simp only [Pending.limit, hone]; omega)
      refine .other (by simp) ?_ ?_ hgot
      · rw [Symbol.width, hsize, hone, List.length_append, List.length_singleton]
      · rw [Symbol.toChar, toNat_ofNat hvalid]
        exact hge
    case isFalse hlast =>
      cases h
      refine ⟨⟨?_, Nat.le_refl _, Nat.le_refl _, by simp, hgot, fun n hleast hlimit => ?_⟩, rfl⟩
      · show 0 < p.more - 1
        omega
      -- The values that remain possible are among those that were possible before.
      have hpow : 64 ^ (p.more - 1) = 64 * 64 ^ (p.more - 1 - 1) := by
        rw [← Nat.pow_succ']
        congr 1
        omega
      have hleast' : p.least ≤ n := by
        refine Nat.le_trans ?_ hleast
        simp only [Pending.least, hpow, ← Nat.mul_assoc]
        refine Nat.mul_le_mul_right _ ?_
        omega
      have hlimit' : n < p.limit := by
        refine Nat.lt_of_lt_of_le hlimit ?_
        simp only [Pending.limit, hpow, ← Nat.mul_assoc]
        refine Nat.mul_le_mul_right _ ?_
        omega
      obtain ⟨hvalid, hge, hsize⟩ := hvalue n hleast' hlimit'
      refine ⟨hvalid, hge, ?_⟩
      rw [hsize, List.length_append, List.length_singleton]
      show _ = _ + 1 + (p.more - 1)
      omega

/-- The symbols that a first byte completes, and what is pending behind it. -/
def Lead.parts : Lead → List Symbol × Option Pending
  | .done s => ([s], none)
  | .more p => ([], some p)

def read (pending : Option Pending) (b : UInt8) : List Symbol × Option Pending :=
  match pending with
  | none => (lead b).parts
  | some p =>
      match p.feed b with
      | some l => l.parts
      | none => (.broken p.got :: (lead b).parts.1, (lead b).parts.2)

theorem decodeFrom_cons (pending : Option Pending) (b : UInt8) (s : List UInt8) :
    decodeFrom pending (b :: s) = (read pending b).1 ++ decodeFrom (read pending b).2 s := by
  cases pending with
  | none =>
      rw [decodeFrom, read]
      cases lead b <;> rfl
  | some p =>
      rw [decodeFrom, read]
      cases p.feed b with
      | none => cases lead b <;> rfl
      | some l => cases l <;> rfl

def held : Option Pending → List UInt8
  | none => []
  | some p => p.got

/-- One more byte goes to the symbols that it completes or to what is pending behind it. -/
theorem read_spells {pending : Option Pending} (hp : ∀ p ∈ pending, p.Sound) (b : UInt8) :
    (∀ p ∈ (read pending b).2, p.Sound) ∧
      ∃ ws, held pending ++ [b] = ws.flatten ++ held (read pending b).2 ∧
        List.Forall₂ Symbol.Spells (read pending b).1 ws := by
  have hlead : (∀ p ∈ (lead b).parts.2, p.Sound) ∧
      ∃ ws, [b] = ws.flatten ++ held (lead b).parts.2 ∧
        List.Forall₂ Symbol.Spells (lead b).parts.1 ws := by
    have hsound := sound_lead b
    cases hl : lead b with
    | done s =>
        rw [hl] at hsound
        exact ⟨by simp [Lead.parts], [[b]], rfl, .cons hsound .nil⟩
    | more p =>
        rw [hl] at hsound
        obtain ⟨hsound, hgot⟩ := hsound
        exact ⟨by simpa [Lead.parts] using hsound, [], hgot.symm, .nil⟩
  cases pending with
  | none => exact hlead
  | some p =>
      have hsound : p.Sound := hp p rfl
      rw [read]
      cases hfeed : p.feed b with
      | none =>
          obtain ⟨hnext, ws, hws, hspells⟩ := hlead
          refine ⟨hnext, p.got :: ws, ?_, .cons (spells_broken hsound.got_ne_nil hsound.got_high)
            hspells⟩
          rw [List.flatten_cons, List.append_assoc, ← hws]
          rfl
      | some l =>
          obtain ⟨-, hl⟩ := sound_feed hsound hfeed
          cases l with
          | done s => exact ⟨by simp [Lead.parts], [p.got ++ [b]], by simp [held, Lead.parts],
              .cons hl .nil⟩
          | more q =>
              obtain ⟨hq, hgot⟩ := hl
              exact ⟨by simpa [Lead.parts] using hq, [], hgot.symm, .nil⟩

/-- An ASCII byte is a symbol of its own, and what was pending is broken. -/
theorem read_ascii {pending : Option Pending} (hp : ∀ p ∈ pending, p.Sound) {b : UInt8}
    (hb : b.toNat < 0x80) :
    read pending b = (decodeFrom pending [] ++ [.char (Char.ofNat b.toNat)], none) := by
  have hlead : lead b = .done (.char (Char.ofNat b.toNat)) := by simp [lead, hb]
  cases pending with
  | none =>
      rw [read, hlead]
      rfl
  | some p =>
      have hlo : ¬ p.lo ≤ b.toNat := by
        have h80 : 0x80 ≤ p.lo := (hp p rfl).lo_le
        omega
      have hfeed : p.feed b = none := by
        rw [Pending.feed, if_neg (by simp [hlo])]
      rw [read, hfeed, hlead]
      rfl

/-! ### Whole texts -/

theorem decodeFrom_spells {pending : Option Pending} (hp : ∀ p ∈ pending, p.Sound)
    (bytes : List UInt8) :
    ∃ ws, held pending ++ bytes = ws.flatten ∧
      List.Forall₂ Symbol.Spells (decodeFrom pending bytes) ws := by
  induction bytes generalizing pending with
  | nil =>
      cases pending with
      | none => exact ⟨[], rfl, .nil⟩
      | some p =>
          have hsound : p.Sound := hp p rfl
          exact ⟨[p.got], by simp [held],
            .cons (spells_broken hsound.got_ne_nil hsound.got_high) .nil⟩
  | cons b s ih =>
      obtain ⟨hnext, ws, hws, hspells⟩ := read_spells hp b
      obtain ⟨ws', hws', hspells'⟩ := ih hnext
      refine ⟨ws ++ ws', ?_, ?_⟩
      · rw [List.flatten_append, ← hws', ← List.append_assoc, ← hws, List.append_assoc]
        rfl
      · rw [decodeFrom_cons]
        exact List.rel_append hspells hspells'

theorem decode_spells (bytes : List UInt8) :
    ∃ ws, bytes = ws.flatten ∧ List.Forall₂ Symbol.Spells (decode bytes) ws :=
  @decodeFrom_spells none (by simp) bytes

theorem width_pos_of_mem_decode {bytes : List UInt8} : ∀ s ∈ decode bytes, 0 < s.width := by
  obtain ⟨ws, -, hspells⟩ := decode_spells bytes
  generalize decode bytes = symbols at hspells
  induction hspells with
  | nil => simp
  | cons hs _ ih => exact List.forall_mem_cons.mpr ⟨hs.width_pos, ih⟩

/-- Decoding can be cut in front of an ASCII byte. -/
theorem decodeFrom_append_ascii {pending : Option Pending} (hp : ∀ p ∈ pending, p.Sound) {b : UInt8}
    (hb : b.toNat < 0x80) (s t : List UInt8) :
    decodeFrom pending (s ++ b :: t) = decodeFrom pending s ++ decodeFrom none (b :: t) := by
  induction s generalizing pending with
  | nil =>
      have hlead : (read none b).1 = [.char (Char.ofNat b.toNat)] ∧ (read none b).2 = none := by
        rw [read_ascii (by simp) hb]
        exact ⟨rfl, rfl⟩
      rw [List.nil_append, decodeFrom_cons, decodeFrom_cons none, read_ascii hp hb, hlead.1,
        hlead.2, List.append_assoc]
  | cons b' s ih =>
      rw [List.cons_append, decodeFrom_cons, decodeFrom_cons, ih (read_spells hp b').1,
        List.append_assoc]

theorem decode_append_ascii {b : UInt8} (hb : b.toNat < 0x80) (s t : List UInt8) :
    decode (s ++ b :: t) = decode s ++ decode (b :: t) :=
  decodeFrom_append_ascii (by simp) hb s t

theorem decode_cons_ascii {b : UInt8} (hb : b.toNat < 0x80) (t : List UInt8) :
    decode (b :: t) = .char (Char.ofNat b.toNat) :: decode t := by
  rw [decode, decodeFrom_cons, read_ascii (by simp) hb]
  rfl

theorem length_flatten_of_spells {symbols : List Symbol} {ws : List (List UInt8)}
    (h : List.Forall₂ Symbol.Spells symbols ws) :
    ws.flatten.length = (symbols.map Symbol.width).sum := by
  induction h with
  | nil => rfl
  | cons hs _ ih =>
      rw [List.flatten_cons, List.length_append, List.map_cons, List.sum_cons, ih, hs.length]

theorem sum_width_decode (bytes : List UInt8) :
    ((decode bytes).map Symbol.width).sum = bytes.length := by
  obtain ⟨ws, hbytes, hspells⟩ := decode_spells bytes
  rw [← length_flatten_of_spells hspells, ← hbytes]

/-- An ASCII character is decoded from its own byte. -/
theorem getElem?_of_decode_eq {bytes : List UInt8} {before after : List Symbol} {c : Char}
    (h : decode bytes = before ++ .char c :: after) (hc : c.toNat < 0x80) :
    bytes[(before.map Symbol.width).sum]? = some (UInt8.ofNat c.toNat) := by
  obtain ⟨ws, hbytes, hspells⟩ := decode_spells bytes
  rw [h] at hspells
  rw [hbytes]
  clear h hbytes
  induction before generalizing ws with
  | nil =>
      cases hspells with
      | cons hs _ =>
          cases hs with
          | ascii _ hb => simp [← hb]
          | other _ _ hchar _ => exact absurd hc (Nat.not_lt.mpr hchar)
  | cons s before ih =>
      cases hspells with
      | cons hs htail =>
          rw [List.flatten_cons, List.map_cons, List.sum_cons, ← hs.length,
            List.getElem?_append_right (Nat.le_add_right _ _), Nat.add_sub_cancel_left]
          exact ih _ htail

/-! ### Cutting a text -/

theorem eq_nil_of_sum_width {symbols : List Symbol} (hpos : ∀ s ∈ symbols, 0 < s.width)
    (h : (symbols.map Symbol.width).sum = 0) : symbols = [] := by
  cases symbols with
  | nil => rfl
  | cons s symbols =>
      have hs := hpos s List.mem_cons_self
      rw [List.map_cons, List.sum_cons] at h
      omega

/-- What stands in front of an ASCII character is decoded on its own, and so is what begins with
it. -/
theorem decode_cut_of_decode_eq {bytes : List UInt8} {before after : List Symbol} {c : Char}
    (h : decode bytes = before ++ .char c :: after) (hc : c.toNat < 0x80) :
    decode (bytes.take (before.map Symbol.width).sum) = before ∧
      decode (bytes.drop (before.map Symbol.width).sum) = .char c :: after := by
  obtain ⟨hlt, hbyte⟩ := List.getElem?_eq_some_iff.mp (getElem?_of_decode_eq h hc)
  generalize hoffset : (before.map Symbol.width).sum = offset at hlt hbyte ⊢
  have hb : bytes[offset].toNat < 0x80 := by
    rw [hbyte, UInt8.toNat_ofNat']
    omega
  have hcut : decode (bytes.take offset) ++ decode (bytes.drop offset) =
      before ++ .char c :: after := by
    rw [List.drop_eq_getElem_cons hlt, ← decode_append_ascii hb, ← List.drop_eq_getElem_cons hlt,
      List.take_append_drop, h]
  have hwidth : ((decode (bytes.take offset)).map Symbol.width).sum = offset := by
    rw [sum_width_decode, List.length_take, Nat.min_eq_left (Nat.le_of_lt hlt)]
  have hpos : ∀ s ∈ before ++ .char c :: after, 0 < s.width := h ▸ width_pos_of_mem_decode
  -- The two texts in front are as wide as each other, so neither goes on behind the other.
  rcases List.append_eq_append_iff.mp hcut with ⟨more, hbefore, hrest⟩ | ⟨more, hfront, hrest⟩
  · obtain rfl : more = [] := by
      refine eq_nil_of_sum_width (fun s hs => hpos s ?_) ?_
      · rw [hbefore, List.mem_append, List.mem_append]
        exact .inl (.inr hs)
      · rw [hbefore, List.map_append, List.sum_append] at hoffset
        omega
    rw [List.append_nil] at hbefore
    exact ⟨hbefore.symm, hrest⟩
  · obtain rfl : more = [] := by
      refine eq_nil_of_sum_width (fun s hs => hpos s ?_) ?_
      · rw [hrest, List.mem_append, List.mem_append]
        exact .inr (.inl hs)
      · rw [hfront, List.map_append, List.sum_append] at hwidth
        omega
    rw [List.append_nil] at hfront
    exact ⟨hfront, hrest.symm⟩

/-- ASCII characters at the beginning of a text are decoded from bytes of their own. -/
theorem exists_bytes_of_lossy_eq {bytes : List UInt8} {read rest : List Char}
    (hread : ∀ c ∈ read, c.toNat < 0x80) (h : lossy bytes = read ++ rest) :
    ∃ word tail, bytes = word ++ tail ∧ lossy word = read ∧
      ∀ b ∈ word, ∃ c ∈ read, b.toNat = c.toNat := by
  induction read generalizing bytes with
  | nil => exact ⟨[], bytes, rfl, rfl, by simp⟩
  | cons c read ih =>
      obtain ⟨hc, htail⟩ := List.forall_mem_cons.mp hread
      obtain ⟨ws, hbytes, hspells⟩ := decode_spells bytes
      obtain ⟨s, symbols, hdecode, rfl, -⟩ := List.map_eq_cons_iff.mp h
      rw [hdecode] at hspells
      cases hspells with
      | @cons _ w _ ws hs _ =>
          cases hs with
          | other _ _ hchar _ => exact absurd hc (Nat.not_lt.mpr hchar)
          | @ascii d b _ hb =>
              obtain rfl : bytes = b :: ws.flatten := hbytes
              have hlossy (t : List UInt8) : lossy (b :: t) = d :: lossy t := by
                rw [lossy, decode_cons_ascii (by omega), List.map_cons, hb, Char.ofNat_toNat]
                rfl
              obtain ⟨word, tail, hws, hword, hown⟩ :=
                ih htail (List.tail_eq_of_cons_eq ((hlossy _).symm.trans h))
              refine ⟨b :: word, tail, by rw [hws]; rfl, by rw [hlossy, hword]; rfl, ?_⟩
              refine List.forall_mem_cons.mpr ⟨⟨d, List.mem_cons_self, hb⟩, fun b' hb' => ?_⟩
              obtain ⟨c, hc, heq⟩ := hown b' hb'
              exact ⟨c, List.mem_cons_of_mem _ hc, heq⟩

end Utf8

end CodeGraph

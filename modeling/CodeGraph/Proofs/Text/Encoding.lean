import CodeGraph.Proofs.Text.Decoding

/-!
Encoding a text and reading the bytes again. A strict reading gives the text back, and a line feed
among the bytes comes from a line feed of the text.
-/

namespace CodeGraph.Utf8

/-! ### The bytes of one character -/

section Bytes

variable {got : List UInt8} {value lo hi : Nat} {b : UInt8}

theorem feed_last (hlo : lo ≤ b.toNat) (hhi : b.toNat ≤ hi) :
    Pending.feed ⟨got, value, 1, lo, hi⟩ b =
      some (.done (.char (Char.ofNat (value * 64 + (b.toNat - 0x80))))) := by
  simp [Pending.feed, hlo, hhi]

theorem feed_inner (more : Nat) (hlo : lo ≤ b.toNat) (hhi : b.toNat ≤ hi) :
    Pending.feed ⟨got, value, more + 2, lo, hi⟩ b =
      some (.more ⟨got ++ [b], value * 64 + (b.toNat - 0x80), more + 1, 0x80, 0xbf⟩) := by
  simp [Pending.feed, hlo, hhi]

theorem lead_of_one (h : b.toNat < 0x80) : lead b = .done (.char (Char.ofNat b.toNat)) := by
  simp [lead, h]

theorem lead_of_two (hlo : 0xc2 ≤ b.toNat) (hhi : b.toNat ≤ 0xdf) :
    lead b = .more ⟨[b], b.toNat - 0xc0, 1, 0x80, 0xbf⟩ := by
  unfold lead
  simp only [Bool.and_eq_true, decide_eq_true_eq, beq_iff_eq]
  rw [if_neg (by omega), if_pos ⟨hlo, hhi⟩]

/-- The second byte of three is bounded by the first where an overlong form or a surrogate
threatens. -/
theorem lead_of_three {m : Nat} (hb : 0xe0 ≤ b.toNat) (hb' : b.toNat ≤ 0xef) (hm : 0x80 ≤ m)
    (hm' : m ≤ 0xbf) (hlong : b.toNat = 0xe0 → 0xa0 ≤ m) (hsurrogate : b.toNat = 0xed → m ≤ 0x9f) :
    ∃ lo hi, lead b = .more ⟨[b], b.toNat - 0xe0, 2, lo, hi⟩ ∧ lo ≤ m ∧ m ≤ hi := by
  unfold lead
  simp only [Bool.and_eq_true, decide_eq_true_eq, beq_iff_eq]
  rw [if_neg (by omega), if_neg (by omega)]
  split_ifs with h1 h2 h3
  · exact ⟨0xa0, 0xbf, by rw [h1], hlong h1, hm'⟩
  · exact ⟨0x80, 0x9f, by rw [h2], hm, hsurrogate h2⟩
  · exact ⟨0x80, 0xbf, rfl, hm, hm'⟩
  all_goals omega

theorem lead_of_four {m : Nat} (hb : 0xf0 ≤ b.toNat) (hb' : b.toNat ≤ 0xf4) (hm : 0x80 ≤ m)
    (hm' : m ≤ 0xbf) (hlong : b.toNat = 0xf0 → 0x90 ≤ m) (hlarge : b.toNat = 0xf4 → m ≤ 0x8f) :
    ∃ lo hi, lead b = .more ⟨[b], b.toNat - 0xf0, 3, lo, hi⟩ ∧ lo ≤ m ∧ m ≤ hi := by
  unfold lead
  simp only [Bool.and_eq_true, decide_eq_true_eq, beq_iff_eq]
  rw [if_neg (by omega), if_neg (by omega), if_neg (by omega), if_neg (by omega),
    if_neg (by omega)]
  split_ifs with h1 h2 h3
  · exact ⟨0x90, 0xbf, by rw [h1], hlong h1, hm'⟩
  · exact ⟨0x80, 0x8f, by rw [h2], hm, hlarge h2⟩
  · exact ⟨0x80, 0xbf, rfl, hm, hm'⟩
  all_goals omega

end Bytes

/-- The bytes of a character are read as that character, whatever follows. -/
theorem decodeFrom_utf8EncodeChar (c : Char) (s : List UInt8) :
    decodeFrom none (String.utf8EncodeChar c ++ s) = .char c :: decodeFrom none s := by
  have hvalid : c.val.toNat < 0xd800 ∨ 0xdfff < c.val.toNat ∧ c.val.toNat < 0x110000 := c.valid
  have hchar : ∀ n, n = c.val.toNat → Char.ofNat n = c := by
    rintro n rfl
    exact Char.ofNat_toNat c
  have hbyte : ∀ n, n < 256 → (UInt8.ofNat n).toNat = n := by
    intro n hn
    exact UInt8.toNat_ofNat_of_lt' hn
  unfold String.utf8EncodeChar
  generalize c.val.toNat = v at hvalid hchar
  dsimp only
  split_ifs with h1 h2 h3 <;> simp only [List.cons_append, List.nil_append]
  · have hb := hbyte v (by omega)
    rw [decodeFrom, lead_of_one (by omega)]
    dsimp only
    rw [hb, hchar v rfl]
  · have hb := hbyte (v / 64 % 32 + 192) (by omega)
    have hb' := hbyte (v % 64 + 128) (by omega)
    rw [decodeFrom, lead_of_two (by omega) (by omega)]
    dsimp only
    rw [decodeFrom, feed_last (by omega) (by omega)]
    dsimp only
    rw [hchar _ (by omega)]
  · have hb := hbyte (v / 4096 % 16 + 224) (by omega)
    have hb' := hbyte (v / 64 % 64 + 128) (by omega)
    have hb'' := hbyte (v % 64 + 128) (by omega)
    obtain ⟨lo, hi, hlead, hlo, hhi⟩ := lead_of_three (b := UInt8.ofNat (v / 4096 % 16 + 224))
      (m := v / 64 % 64 + 128) (by omega) (by omega) (by omega) (by omega) (by omega) (by omega)
    rw [decodeFrom, hlead]
    dsimp only
    rw [decodeFrom, feed_inner 0 (by omega) (by omega)]
    dsimp only
    rw [decodeFrom, feed_last (by omega) (by omega)]
    dsimp only
    rw [hchar _ (by omega)]
  · have hb := hbyte (v / 262144 % 8 + 240) (by omega)
    have hb' := hbyte (v / 4096 % 64 + 128) (by omega)
    have hb'' := hbyte (v / 64 % 64 + 128) (by omega)
    have hb''' := hbyte (v % 64 + 128) (by omega)
    obtain ⟨lo, hi, hlead, hlo, hhi⟩ := lead_of_four (b := UInt8.ofNat (v / 262144 % 8 + 240))
      (m := v / 4096 % 64 + 128) (by omega) (by omega) (by omega) (by omega) (by omega) (by omega)
    rw [decodeFrom, hlead]
    dsimp only
    rw [decodeFrom, feed_inner 1 (by omega) (by omega)]
    dsimp only
    rw [decodeFrom, feed_inner 0 (by omega) (by omega)]
    dsimp only
    rw [decodeFrom, feed_last (by omega) (by omega)]
    dsimp only
    rw [hchar _ (by omega)]

theorem eq_newline_of_mem_utf8EncodeChar {c : Char} (h : Mask.lf ∈ String.utf8EncodeChar c) :
    c = '\n' := by
  have hlf : ∀ n, n < 256 → Mask.lf = UInt8.ofNat n → n = 10 := by
    intro n hn heq
    rw [← UInt8.toNat_ofNat_of_lt' hn, ← heq]
    rfl
  unfold String.utf8EncodeChar at h
  dsimp only at h
  split_ifs at h with h1
  · have hval := hlf _ (by omega) (List.mem_singleton.mp h)
    exact Char.ext (UInt32.toNat.inj hval)
  -- All other bytes are 128 at least.
  all_goals
    have hbyte : ∃ n, n < 256 ∧ 128 ≤ n ∧ Mask.lf = UInt8.ofNat n := by
      simp only [List.mem_cons, List.not_mem_nil, or_false] at h
      grind
    obtain ⟨n, hlt, hge, heq⟩ := hbyte
    have hten := hlf n hlt heq
    omega

/-! ### Whole texts -/

theorem decode_encode (s : List Char) : decode (encode s) = s.map .char := by
  induction s with
  | nil => rfl
  | cons c s ih =>
      rw [encode, List.flatMap_cons, decode, decodeFrom_utf8EncodeChar, List.map_cons]
      exact congrArg _ ih

theorem strict?_encode (s : List Char) : strict? (encode s) = some s := by
  rw [strict?, decode_encode]
  induction s with
  | nil => rfl
  | cons c s ih => simp [ih, Symbol.char?]

theorem lossy_encode (s : List Char) : lossy (encode s) = s := by
  rw [lossy, decode_encode, List.map_map]
  exact List.map_id s

theorem newline_mem_of_lf_mem_encode {s : List Char} (h : Mask.lf ∈ encode s) : '\n' ∈ s := by
  obtain ⟨c, hc, hlf⟩ := List.mem_flatMap.mp h
  rwa [eq_newline_of_mem_utf8EncodeChar hlf] at hc

end CodeGraph.Utf8

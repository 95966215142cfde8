import ShaderReport.Text.Utf8

/-!
# UTF-8 both ways

The strict reading of a byte string and the bytes of a text are inverse to each other:
`decode?_eq_some_iff` says that a byte string reads as a text just when it is the bytes of that
text.

The decoder cuts off one piece at a time.  `takePiece_two`, `takePiece_three` and `takePiece_four`
say what it makes of the first and the further bytes of a character, with the narrower ranges of the
second byte spelled out, and `takePiece_cases` says that it makes a character of nothing else.  What
is left after that is arithmetic on code points (`takePiece_encode`, `encode_takePiece`).
-/

namespace ShaderReport.Utf8

/-! ### What the decoder makes of bytes -/

theorem isTail_iff (b : UInt8) : isTail b = true ↔ 0x80 ≤ b.toNat ∧ b.toNat ≤ 0xBF := by
  simp [isTail, UInt8.le_iff_toNat_le]

theorem lead_two {b : UInt8} (h : 0xC2 ≤ b.toNat ∧ b.toNat ≤ 0xDF) :
    lead b = some (1, b.toNat - 0xC0, 0x80, 0xBF) := by
  simp only [lead, UInt8.le_iff_toNat_le, UInt8.reduceToNat]
  rw [if_pos h]

theorem lead_three {b : UInt8} (h : 0xE0 ≤ b.toNat ∧ b.toNat ≤ 0xEF) :
    lead b = some (2, b.toNat - 0xE0, if b.toNat = 0xE0 then 0xA0 else 0x80,
      if b.toNat = 0xED then 0x9F else 0xBF) := by
  simp only [lead, UInt8.le_iff_toNat_le, UInt8.reduceToNat, ← UInt8.toNat_inj]
  rw [if_neg (by omega)]
  by_cases h0 : b.toNat = 0xE0
  · simp [h0]
  · by_cases hd : b.toNat = 0xED
    · simp [hd]
    · rw [if_neg h0, if_neg hd, if_pos (by omega), if_neg h0, if_neg hd]

theorem lead_four {b : UInt8} (h : 0xF0 ≤ b.toNat ∧ b.toNat ≤ 0xF4) :
    lead b = some (3, b.toNat - 0xF0, if b.toNat = 0xF0 then 0x90 else 0x80,
      if b.toNat = 0xF4 then 0x8F else 0xBF) := by
  simp only [lead, UInt8.le_iff_toNat_le, UInt8.reduceToNat, ← UInt8.toNat_inj]
  rw [if_neg (by omega), if_neg (by omega), if_neg (by omega), if_neg (by omega)]
  by_cases h0 : b.toNat = 0xF0
  · simp [h0]
  · by_cases hd : b.toNat = 0xF4
    · simp [hd]
    · rw [if_neg h0, if_pos (by omega), if_neg h0, if_neg hd]

theorem lead_none {b : UInt8} (h : b.toNat < 0xC2 ∨ 0xF4 < b.toNat) : lead b = none := by
  simp only [lead, UInt8.le_iff_toNat_le, UInt8.reduceToNat, ← UInt8.toNat_inj]
  repeat rw [if_neg (by omega)]

theorem takePiece_one {b : UInt8} (h : b.toNat < 0x80) (rest : Bytes) :
    takePiece b rest = (.char (Char.ofNat b.toNat), rest) := by
  have hb : b < 0x80 := UInt8.lt_iff_toNat_lt.mpr h
  simp [takePiece, hb]

theorem takePiece_none {b : UInt8} (h : 0x80 ≤ b.toNat) (hl : lead b = none) (rest : Bytes) :
    takePiece b rest = (.broken, rest) := by
  have hb : ¬ b < 0x80 := fun hlt => absurd (UInt8.lt_iff_toNat_lt.mp hlt) (Nat.not_lt.mpr h)
  simp [takePiece, hb, hl]

theorem takePiece_nil {b : UInt8} (h : 0x80 ≤ b.toNat) : takePiece b [] = (.broken, []) := by
  have hb : ¬ b < 0x80 := fun hlt => absurd (UInt8.lt_iff_toNat_lt.mp hlt) (Nat.not_lt.mpr h)
  cases hl : lead b <;> simp [takePiece, hb, hl]

theorem takePiece_cons {b : UInt8} {tails bits : Nat} {low high : UInt8} (h : 0x80 ≤ b.toNat)
    (hl : lead b = some (tails, bits, low, high)) (y : UInt8) (rest : Bytes) :
    takePiece b (y :: rest) = if low ≤ y ∧ y ≤ high then
        takeTails (tails - 1) (bits * 64 + y.toNat % 64) rest
      else (.broken, y :: rest) := by
  have hb : ¬ b < 0x80 := fun hlt => absurd (UInt8.lt_iff_toNat_lt.mp hlt) (Nat.not_lt.mpr h)
  simp [takePiece, hb, hl]

/-- What may be the first two bytes of three. -/
def IsThree (b y : UInt8) : Prop :=
  (0xE0 ≤ b.toNat ∧ b.toNat ≤ 0xEF) ∧ (0x80 ≤ y.toNat ∧ y.toNat ≤ 0xBF) ∧
    (b.toNat = 0xE0 → 0xA0 ≤ y.toNat) ∧ (b.toNat = 0xED → y.toNat ≤ 0x9F)

/-- What may be the first two bytes of four. -/
def IsFour (b y : UInt8) : Prop :=
  (0xF0 ≤ b.toNat ∧ b.toNat ≤ 0xF4) ∧ (0x80 ≤ y.toNat ∧ y.toNat ≤ 0xBF) ∧
    (b.toNat = 0xF0 → 0x90 ≤ y.toNat) ∧ (b.toNat = 0xF4 → y.toNat ≤ 0x8F)

theorem isThree_iff {b y : UInt8} (hb : 0xE0 ≤ b.toNat ∧ b.toNat ≤ 0xEF) :
    ((if b.toNat = 0xE0 then (0xA0 : UInt8) else 0x80) ≤ y ∧
      y ≤ (if b.toNat = 0xED then (0x9F : UInt8) else 0xBF)) ↔ IsThree b y := by
  unfold IsThree
  split <;> split <;> simp only [UInt8.le_iff_toNat_le, UInt8.reduceToNat] <;> omega

theorem isFour_iff {b y : UInt8} (hb : 0xF0 ≤ b.toNat ∧ b.toNat ≤ 0xF4) :
    ((if b.toNat = 0xF0 then (0x90 : UInt8) else 0x80) ≤ y ∧
      y ≤ (if b.toNat = 0xF4 then (0x8F : UInt8) else 0xBF)) ↔ IsFour b y := by
  unfold IsFour
  split <;> split <;> simp only [UInt8.le_iff_toNat_le, UInt8.reduceToNat] <;> omega

/-- A tail byte. -/
def IsRest (b : UInt8) : Prop := 0x80 ≤ b.toNat ∧ b.toNat ≤ 0xBF

theorem takeTails_cons (n bits : Nat) (b : UInt8) (rest : Bytes) :
    takeTails (n + 1) bits (b :: rest) =
      if isTail b then takeTails n (bits * 64 + b.toNat % 64) rest else (.broken, b :: rest) := rfl

theorem takePiece_two {b y : UInt8} (hb : 0xC2 ≤ b.toNat ∧ b.toNat ≤ 0xDF) (hy : IsRest y)
    (rest : Bytes) :
    takePiece b (y :: rest) = (.char (Char.ofNat ((b.toNat - 0xC0) * 64 + y.toNat % 64)), rest) := by
  rw [takePiece_cons (by omega) (lead_two hb), if_pos]
  · rfl
  · simp only [UInt8.le_iff_toNat_le, UInt8.reduceToNat]
    exact hy

theorem takePiece_three {b y z : UInt8} (h : IsThree b y) (hz : IsRest z) (rest : Bytes) :
    takePiece b (y :: z :: rest) = (.char (Char.ofNat
      (((b.toNat - 0xE0) * 64 + y.toNat % 64) * 64 + z.toNat % 64)), rest) := by
  rw [takePiece_cons (by have := h.1; omega) (lead_three h.1), if_pos ((isThree_iff h.1).mpr h),
    takeTails_cons, if_pos ((isTail_iff z).mpr hz)]
  rfl

theorem takePiece_four {b y z w : UInt8} (h : IsFour b y) (hz : IsRest z) (hw : IsRest w)
    (rest : Bytes) :
    takePiece b (y :: z :: w :: rest) = (.char (Char.ofNat
      ((((b.toNat - 0xF0) * 64 + y.toNat % 64) * 64 + z.toNat % 64) * 64 + w.toNat % 64)), rest) := by
  rw [takePiece_cons (by have := h.1; omega) (lead_four h.1), if_pos ((isFour_iff h.1).mpr h),
    takeTails_cons, if_pos ((isTail_iff z).mpr hz), takeTails_cons, if_pos ((isTail_iff w).mpr hw)]
  rfl

theorem of_takeTails_one {bits : Nat} {rest rest' : Bytes} {c : Char}
    (h : takeTails 1 bits rest = (.char c, rest')) :
    ∃ z, IsRest z ∧ rest = z :: rest' ∧ c = Char.ofNat (bits * 64 + z.toNat % 64) := by
  cases rest with
  | nil => simp [takeTails] at h
  | cons z rest =>
    rw [takeTails_cons] at h
    split at h
    · next hz =>
      simp only [takeTails, Prod.mk.injEq, Piece.char.injEq] at h
      exact ⟨z, (isTail_iff z).mp hz, by rw [h.2], h.1.symm⟩
    · simp at h

theorem of_takeTails_two {bits : Nat} {rest rest' : Bytes} {c : Char}
    (h : takeTails 2 bits rest = (.char c, rest')) :
    ∃ z w, IsRest z ∧ IsRest w ∧ rest = z :: w :: rest' ∧
      c = Char.ofNat ((bits * 64 + z.toNat % 64) * 64 + w.toNat % 64) := by
  cases rest with
  | nil => simp [takeTails] at h
  | cons z rest =>
    rw [takeTails_cons] at h
    split at h
    · next hz =>
      obtain ⟨w, hw, rfl, rfl⟩ := of_takeTails_one h
      exact ⟨z, w, (isTail_iff z).mp hz, hw, rfl, rfl⟩
    · simp at h

/-- **The decoder makes a character of one to four bytes**, each of them in its range. -/
theorem takePiece_cases {b : UInt8} {rest rest' : Bytes} {c : Char}
    (h : takePiece b rest = (.char c, rest')) :
    (b.toNat < 0x80 ∧ rest = rest' ∧ c = Char.ofNat b.toNat) ∨
    (∃ y, (0xC2 ≤ b.toNat ∧ b.toNat ≤ 0xDF) ∧ IsRest y ∧ rest = y :: rest' ∧
      c = Char.ofNat ((b.toNat - 0xC0) * 64 + y.toNat % 64)) ∨
    (∃ y z, IsThree b y ∧ IsRest z ∧ rest = y :: z :: rest' ∧
      c = Char.ofNat (((b.toNat - 0xE0) * 64 + y.toNat % 64) * 64 + z.toNat % 64)) ∨
    (∃ y z w, IsFour b y ∧ IsRest z ∧ IsRest w ∧ rest = y :: z :: w :: rest' ∧
      c = Char.ofNat ((((b.toNat - 0xF0) * 64 + y.toNat % 64) * 64 + z.toNat % 64) * 64 +
        w.toNat % 64)) := by
  by_cases h1 : b.toNat < 0x80
  · rw [takePiece_one h1] at h
    simp only [Prod.mk.injEq, Piece.char.injEq] at h
    exact Or.inl ⟨h1, h.2, h.1.symm⟩
  by_cases hn : b.toNat < 0xC2 ∨ 0xF4 < b.toNat
  · rw [takePiece_none (by omega) (lead_none hn)] at h
    simp at h
  cases rest with
  | nil =>
    rw [takePiece_nil (by omega)] at h
    simp at h
  | cons y rest =>
    by_cases h2 : b.toNat ≤ 0xDF
    · rw [takePiece_cons (by omega) (lead_two (by omega))] at h
      split at h
      · next hy =>
        simp only [UInt8.le_iff_toNat_le, UInt8.reduceToNat] at hy
        simp only [takeTails, Nat.sub_self, Prod.mk.injEq, Piece.char.injEq] at h
        exact Or.inr (Or.inl ⟨y, by omega, hy, by rw [h.2], h.1.symm⟩)
      · simp at h
    by_cases h3 : b.toNat ≤ 0xEF
    · have hb : 0xE0 ≤ b.toNat ∧ b.toNat ≤ 0xEF := by omega
      rw [takePiece_cons (by omega) (lead_three hb)] at h
      by_cases hy : IsThree b y
      · rw [if_pos ((isThree_iff hb).mpr hy)] at h
        obtain ⟨z, hz, rfl, rfl⟩ := of_takeTails_one h
        exact Or.inr (Or.inr (Or.inl ⟨y, z, hy, hz, rfl, rfl⟩))
      · rw [if_neg (mt (isThree_iff hb).mp hy)] at h
        simp at h
    · have hb : 0xF0 ≤ b.toNat ∧ b.toNat ≤ 0xF4 := by omega
      rw [takePiece_cons (by omega) (lead_four hb)] at h
      by_cases hy : IsFour b y
      · rw [if_pos ((isFour_iff hb).mpr hy)] at h
        obtain ⟨z, w, hz, hw, rfl, rfl⟩ := of_takeTails_two h
        exact Or.inr (Or.inr (Or.inr ⟨y, z, w, hy, hz, hw, rfl, rfl⟩))
      · rw [if_neg (mt (isFour_iff hb).mp hy)] at h
        simp at h

/-! ### The bytes of a code point -/

theorem toNat_char_ofNat {v : Nat} (h : v.isValidChar) : (Char.ofNat v).val.toNat = v := by
  rw [Char.ofNat, dif_pos h]
  rfl

theorem toNat_byte {n : Nat} (h : n < 256) : (UInt8.ofNat n).toNat = n := by
  rw [UInt8.toNat_ofNat', Nat.mod_eq_of_lt h]

theorem eq_byte {n : Nat} {b : UInt8} (h : b.toNat = n) : UInt8.ofNat n = b := by
  rw [← h, UInt8.ofNat_toNat]

theorem encode_one {v : Nat} (h : v < 0x80) :
    String.utf8EncodeChar (Char.ofNat v) = [UInt8.ofNat v] := by
  simp only [String.utf8EncodeChar, toNat_char_ofNat (show v.isValidChar from Or.inl (by omega))]
  rw [if_pos (by omega)]

theorem encode_two {v : Nat} (h : 0x80 ≤ v) (h' : v < 0x800) :
    String.utf8EncodeChar (Char.ofNat v) =
      [UInt8.ofNat (0xC0 + v / 64), UInt8.ofNat (0x80 + v % 64)] := by
  simp only [String.utf8EncodeChar, toNat_char_ofNat (show v.isValidChar from Or.inl (by omega))]
  rw [if_neg (by omega), if_pos (by omega), show v / 64 % 0x20 + 0xc0 = 0xC0 + v / 64 by omega,
    Nat.add_comm (v % 0x40)]

theorem encode_three {v : Nat} (h : 0x800 ≤ v) (h' : v < 0x10000) (hv : v.isValidChar) :
    String.utf8EncodeChar (Char.ofNat v) = [UInt8.ofNat (0xE0 + v / 4096),
      UInt8.ofNat (0x80 + v / 64 % 64), UInt8.ofNat (0x80 + v % 64)] := by
  simp only [String.utf8EncodeChar, toNat_char_ofNat hv]
  rw [if_neg (by omega), if_neg (by omega), if_pos (by omega),
    show v / 4096 % 0x10 + 0xe0 = 0xE0 + v / 4096 by omega, Nat.add_comm (v % 0x40),
    Nat.add_comm (v / 64 % 0x40)]

theorem encode_four {v : Nat} (h : 0x10000 ≤ v) (h' : v < 0x110000) :
    String.utf8EncodeChar (Char.ofNat v) = [UInt8.ofNat (0xF0 + v / 262144),
      UInt8.ofNat (0x80 + v / 4096 % 64), UInt8.ofNat (0x80 + v / 64 % 64),
      UInt8.ofNat (0x80 + v % 64)] := by
  simp only [String.utf8EncodeChar,
    toNat_char_ofNat (show v.isValidChar from Or.inr ⟨by omega, h'⟩)]
  rw [if_neg (by omega), if_neg (by omega), if_neg (by omega),
    show v / 262144 % 0x08 + 0xf0 = 0xF0 + v / 262144 by omega, Nat.add_comm (v % 0x40),
    Nat.add_comm (v / 64 % 0x40), Nat.add_comm (v / 4096 % 0x40)]

/-- **The bytes of a character are taken as that character**, whatever follows them. -/
theorem takePiece_encode (c : Char) (rest : Bytes) :
    ∃ b tail, String.utf8EncodeChar c = b :: tail ∧
      takePiece b (tail ++ rest) = (.char c, rest) := by
  obtain ⟨v, hv, rfl⟩ : ∃ v : Nat, v.isValidChar ∧ Char.ofNat v = c :=
    ⟨c.toNat, c.valid, Char.ofNat_toNat c⟩
  have hmax : v < 0x110000 := by rcases hv with h | h <;> omega
  by_cases h1 : v < 0x80
  · have hb := toNat_byte (show v < 256 by omega)
    refine ⟨_, _, encode_one h1, ?_⟩
    rw [List.nil_append, takePiece_one (by omega), hb]
  by_cases h2 : v < 0x800
  · have hb := toNat_byte (show 0xC0 + v / 64 < 256 by omega)
    have hy := toNat_byte (show 0x80 + v % 64 < 256 by omega)
    refine ⟨_, _, encode_two (by omega) h2, ?_⟩
    rw [List.singleton_append, takePiece_two (by omega) ⟨by omega, by omega⟩, hb, hy]
    congr 3
    omega
  by_cases h3 : v < 0x10000
  · have hb := toNat_byte (show 0xE0 + v / 4096 < 256 by omega)
    have hy := toNat_byte (show 0x80 + v / 64 % 64 < 256 by omega)
    have hz := toNat_byte (show 0x80 + v % 64 < 256 by omega)
    have hthree : IsThree (UInt8.ofNat (0xE0 + v / 4096)) (UInt8.ofNat (0x80 + v / 64 % 64)) := by
      rw [IsThree, hb, hy]
      rcases hv with h | h <;> omega
    refine ⟨_, _, encode_three (by omega) h3 hv, ?_⟩
    rw [List.cons_append, List.singleton_append, takePiece_three hthree ⟨by omega, by omega⟩, hb,
      hy, hz]
    congr 3
    omega
  · have hb := toNat_byte (show 0xF0 + v / 262144 < 256 by omega)
    have hy := toNat_byte (show 0x80 + v / 4096 % 64 < 256 by omega)
    have hz := toNat_byte (show 0x80 + v / 64 % 64 < 256 by omega)
    have hw := toNat_byte (show 0x80 + v % 64 < 256 by omega)
    have hfour : IsFour (UInt8.ofNat (0xF0 + v / 262144)) (UInt8.ofNat (0x80 + v / 4096 % 64)) := by
      rw [IsFour, hb, hy]
      omega
    refine ⟨_, _, encode_four (by omega) hmax, ?_⟩
    rw [List.cons_append, List.cons_append, List.singleton_append,
      takePiece_four hfour ⟨by omega, by omega⟩ ⟨by omega, by omega⟩, hb, hy, hz, hw]
    congr 3
    omega

/-- **A piece that is a character was cut off as the bytes of that character.** -/
theorem encode_takePiece {b : UInt8} {rest rest' : Bytes} {c : Char}
    (h : takePiece b rest = (.char c, rest')) : String.utf8EncodeChar c ++ rest' = b :: rest := by
  rcases takePiece_cases h with ⟨hb, rfl, rfl⟩ | ⟨y, hb, hy, rfl, rfl⟩ | ⟨y, z, hb, hz, rfl, rfl⟩ |
    ⟨y, z, w, hb, hz, hw, rfl, rfl⟩
  · rw [encode_one hb, UInt8.ofNat_toNat]
    rfl
  · obtain ⟨hy, hy'⟩ := hy
    rw [encode_two (by omega) (by omega), eq_byte (b := b) (by omega), eq_byte (b := y) (by omega)]
    rfl
  · obtain ⟨hb, hy, h0, hd⟩ := hb
    obtain ⟨hz, hz'⟩ := hz
    rw [encode_three (by omega) (by omega) (by simp only [Nat.isValidChar]; omega),
      eq_byte (b := b) (by omega), eq_byte (b := y) (by omega), eq_byte (b := z) (by omega)]
    rfl
  · obtain ⟨hb, hy, h0, h4⟩ := hb
    obtain ⟨hz, hz'⟩ := hz
    obtain ⟨hw, hw'⟩ := hw
    rw [encode_four (by omega) (by omega), eq_byte (b := b) (by omega), eq_byte (b := y) (by omega),
      eq_byte (b := z) (by omega), eq_byte (b := w) (by omega)]
    rfl

/-- A byte below 0x80 stands for its own character only. -/
theorem eq_of_mem_utf8EncodeChar {b : UInt8} {c : Char} (hb : b.toNat < 0x80)
    (h : b ∈ String.utf8EncodeChar c) : c = Char.ofNat b.toNat := by
  obtain ⟨v, hv, rfl⟩ : ∃ v : Nat, v.isValidChar ∧ Char.ofNat v = c :=
    ⟨c.toNat, c.valid, Char.ofNat_toNat c⟩
  have hmax : v < 0x110000 := by rcases hv with h | h <;> omega
  have hbig : ∀ n, 0x80 ≤ n → n < 256 → b ≠ UInt8.ofNat n := by
    rintro n hn hn' rfl
    rw [toNat_byte hn'] at hb
    omega
  by_cases h1 : v < 0x80
  · rw [encode_one h1, List.mem_singleton] at h
    rw [h, toNat_byte (by omega)]
  by_cases h2 : v < 0x800
  · rw [encode_two (by omega) h2] at h
    simp only [List.mem_cons, List.not_mem_nil, or_false] at h
    rcases h with h | h <;> exact absurd h (hbig _ (by omega) (by omega))
  by_cases h3 : v < 0x10000
  · rw [encode_three (by omega) h3 hv] at h
    simp only [List.mem_cons, List.not_mem_nil, or_false] at h
    rcases h with h | h | h <;> exact absurd h (hbig _ (by omega) (by omega))
  · rw [encode_four (by omega) hmax] at h
    simp only [List.mem_cons, List.not_mem_nil, or_false] at h
    rcases h with h | h | h | h <;> exact absurd h (hbig _ (by omega) (by omega))

/-! ### Byte strings and texts -/

theorem pieces_cons (b : UInt8) (rest : Bytes) :
    pieces (b :: rest) = (takePiece b rest).1 :: pieces (takePiece b rest).2 := by
  rw [pieces]

theorem pieces_encode_append (cs : List Char) :
    pieces (cs.flatMap String.utf8EncodeChar) = cs.map .char := by
  induction cs with
  | nil => simp [pieces]
  | cons c cs ih =>
    obtain ⟨b, tail, hc, hp⟩ := takePiece_encode c (cs.flatMap String.utf8EncodeChar)
    rw [List.flatMap_cons, hc, List.cons_append, pieces_cons, hp, ih]
    rfl

theorem mapM_char (cs : List Char) : (cs.map Piece.char).mapM Piece.char? = some cs := by
  induction cs with
  | nil => rfl
  | cons c cs ih => rw [List.map_cons, List.mapM_cons, ih]; rfl

theorem encode_of_pieces (bs : Bytes) (cs : List Char)
    (h : (pieces bs).mapM Piece.char? = some cs) : cs.flatMap String.utf8EncodeChar = bs := by
  induction hn : bs.length using Nat.strongRecOn generalizing bs cs with
  | ind n ih =>
    cases bs with
    | nil =>
      rw [pieces] at h
      cases h
      rfl
    | cons b rest =>
      rw [pieces_cons, List.mapM_cons] at h
      rcases hp : takePiece b rest with ⟨piece, rest'⟩
      rw [hp] at h
      have hlen := length_takePiece_le b rest
      rw [hp] at hlen
      cases piece with
      | broken => cases h
      | char c =>
        cases hm : (pieces rest').mapM Piece.char? with
        | none =>
          simp only [hm] at h
          cases h
        | some ds =>
          simp only [hm] at h
          cases h
          rw [List.flatMap_cons, ih rest'.length (by subst hn; exact Nat.lt_succ_of_le hlen) rest'
            ds hm rfl]
          exact encode_takePiece hp

theorem encode_of_decode? {bs : Bytes} {s : String} (h : decode? bs = some s) : encode s = bs := by
  obtain ⟨cs, hm, rfl⟩ := Option.map_eq_some_iff.mp h
  rw [encode, String.toList_ofList]
  exact encode_of_pieces bs cs hm

@[simp] theorem decode?_encode (s : String) : decode? (encode s) = some s := by
  rw [decode?, encode, pieces_encode_append, mapM_char, Option.map_some, String.ofList_toList]

/-- **A byte string reads as a text just when it is the bytes of that text.** -/
theorem decode?_eq_some_iff {bs : Bytes} {s : String} : decode? bs = some s ↔ bs = encode s :=
  ⟨fun h => (encode_of_decode? h).symm, fun h => h ▸ decode?_encode s⟩

@[simp] theorem decodeLossy_encode (s : String) : decodeLossy (encode s) = s := by
  rw [decodeLossy, encode, pieces_encode_append, List.map_map,
    show Piece.shown ∘ Piece.char = id from rfl, List.map_id, String.ofList_toList]

theorem encode_append (s t : String) : encode (s ++ t) = encode s ++ encode t := by
  simp [encode]

theorem mem_of_mem_encode {b : UInt8} {s : String} (hb : b.toNat < 0x80) (h : b ∈ encode s) :
    Char.ofNat b.toNat ∈ s.toList := by
  obtain ⟨c, hc, hbc⟩ := List.mem_flatMap.mp h
  exact eq_of_mem_utf8EncodeChar hb hbc ▸ hc

theorem encode_injective {s t : String} (h : encode s = encode t) : s = t :=
  Option.some.inj (by rw [← decode?_encode s, h, decode?_encode])

end ShaderReport.Utf8

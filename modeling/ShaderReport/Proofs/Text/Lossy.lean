import ShaderReport.Proofs.Text.Utf8

/-!
# Lenient reading around ASCII bytes

A byte below 0x80 begins no longer character and continues none.  So the pieces of a byte string never
reach over such a byte, whatever stands before it: `pieces_append_ascii`.  The text shown for a byte
string is therefore put together from the texts on both sides of the byte, broken or not
(`decodeLossy_append_ascii`), and it does not begin with such a byte unless the byte string does
(`head?_decodeLossy`).
-/

namespace ShaderReport.Utf8

theorem not_isTail {x : UInt8} (hx : x.toNat < 0x80) : isTail x = false := by
  rw [Bool.eq_false_iff]
  intro h
  have := (isTail_iff x).mp h
  omega

theorem le_of_lead {b low high : UInt8} {tails bits : Nat} (h : lead b = some (tails, bits, low, high)) :
    0x80 ≤ low.toNat := by
  by_cases hn : b.toNat < 0xC2 ∨ 0xF4 < b.toNat
  · rw [lead_none hn] at h
    cases h
  by_cases h2 : b.toNat ≤ 0xDF
  · rw [lead_two (by omega), Option.some.injEq, Prod.mk.injEq, Prod.mk.injEq, Prod.mk.injEq] at h
    rw [← h.2.2.1]
    decide
  by_cases h3 : b.toNat ≤ 0xEF
  · rw [lead_three (by omega), Option.some.injEq, Prod.mk.injEq, Prod.mk.injEq, Prod.mk.injEq] at h
    rw [← h.2.2.1]
    split <;> decide
  · rw [lead_four (by omega), Option.some.injEq, Prod.mk.injEq, Prod.mk.injEq, Prod.mk.injEq] at h
    rw [← h.2.2.1]
    split <;> decide

theorem encode_decodeLossy_ne_nil (b : UInt8) (bs : Bytes) : encode (decodeLossy (b :: bs)) ≠ [] := by
  obtain ⟨y, ys, hy, -⟩ := takePiece_encode (takePiece b bs).1.shown []
  rw [decodeLossy, pieces_cons, encode, List.map_cons, String.toList_ofList, List.flatMap_cons, hy]
  exact List.cons_ne_nil _ _

section

variable {x : UInt8} (hx : x.toNat < 0x80) (tail : Bytes)

include hx

theorem takeTails_append_ascii (n bits : Nat) (bs : Bytes) :
    takeTails n bits (bs ++ x :: tail) =
      ((takeTails n bits bs).1, (takeTails n bits bs).2 ++ x :: tail) := by
  induction n generalizing bits bs with
  | zero => rfl
  | succ n ih =>
    cases bs with
    | nil => rw [List.nil_append, takeTails_cons, not_isTail hx]; rfl
    | cons b bs =>
      rw [List.cons_append, takeTails_cons, takeTails_cons]
      by_cases hb : isTail b
      · rw [if_pos hb, if_pos hb, ih]
      · rw [if_neg hb, if_neg hb]
        rfl

theorem takePiece_append_ascii (b : UInt8) (bs : Bytes) :
    takePiece b (bs ++ x :: tail) = ((takePiece b bs).1, (takePiece b bs).2 ++ x :: tail) := by
  by_cases hb : b.toNat < 0x80
  · rw [takePiece_one hb, takePiece_one hb]
  have hb : 0x80 ≤ b.toNat := Nat.not_lt.mp hb
  cases hl : lead b with
  | none => rw [takePiece_none hb hl, takePiece_none hb hl]
  | some range =>
    obtain ⟨tails, bits, low, high⟩ := range
    cases bs with
    | nil =>
      -- The byte is below all that may come second.
      have hlow : ¬ (low ≤ x ∧ x ≤ high) := by
        have := le_of_lead hl
        rw [UInt8.le_iff_toNat_le]
        omega
      rw [List.nil_append, takePiece_cons hb hl, if_neg hlow, takePiece_nil hb]
      rfl
    | cons y bs =>
      rw [List.cons_append, takePiece_cons hb hl, takePiece_cons hb hl]
      by_cases hy : low ≤ y ∧ y ≤ high
      · rw [if_pos hy, if_pos hy, takeTails_append_ascii hx]
      · rw [if_neg hy, if_neg hy]
        rfl

/-- **No piece reaches over a byte below 0x80.** -/
theorem pieces_append_ascii (bs : Bytes) :
    pieces (bs ++ x :: tail) = pieces bs ++ .char (Char.ofNat x.toNat) :: pieces tail := by
  induction hn : bs.length using Nat.strongRecOn generalizing bs with
  | ind n ih =>
    cases bs with
    | nil =>
      rw [List.nil_append, pieces_cons, takePiece_one hx, pieces]
      rfl
    | cons b bs =>
      have hlen := length_takePiece_le b bs
      rw [List.cons_append, pieces_cons, takePiece_append_ascii hx, pieces_cons b bs,
        ih _ (by subst hn; exact Nat.lt_succ_of_le hlen) _ rfl]
      rfl

theorem decodeLossy_append_ascii (bs : Bytes) :
    decodeLossy (bs ++ x :: tail) =
      decodeLossy bs ++ String.ofList [Char.ofNat x.toNat] ++ decodeLossy tail := by
  simp only [decodeLossy, pieces_append_ascii hx, List.map_append, List.map_cons, ← String.ofList_append,
    List.append_assoc, List.singleton_append]
  rfl

/-- The text shown for a byte string begins with a byte below 0x80 only if the byte string does. -/
theorem head?_decodeLossy {bs : Bytes} (h : (encode (decodeLossy bs)).head? = some x) :
    bs.head? = some x := by
  cases bs with
  | nil => simp [decodeLossy, pieces, encode] at h
  | cons b bs =>
    rcases hp : takePiece b bs with ⟨piece, rest⟩
    obtain ⟨y, ys, hy, -⟩ := takePiece_encode piece.shown []
    rw [decodeLossy, pieces_cons, encode, List.map_cons, String.toList_ofList, List.flatMap_cons, hp,
      hy] at h
    obtain rfl : y = x := Option.some.inj h
    have hshown : piece.shown = Char.ofNat y.toNat :=
      eq_of_mem_utf8EncodeChar hx (hy ▸ List.mem_cons_self)
    cases piece with
    | broken =>
      have hnat : ('\uFFFD' : Char).toNat = y.toNat := by
        rw [show '\uFFFD' = Char.ofNat y.toNat from hshown]
        exact toNat_char_ofNat (Or.inl (by omega))
      rw [show ('\uFFFD' : Char).toNat = 0xFFFD from rfl] at hnat
      omega
    | char c =>
      have hbytes := encode_takePiece hp
      rw [show String.utf8EncodeChar c = y :: ys from hy] at hbytes
      exact congrArg List.head? hbytes.symm

end

end ShaderReport.Utf8

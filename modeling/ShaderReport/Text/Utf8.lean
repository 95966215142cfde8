/-!
# UTF-8

Byte strings and the text they hold. One decoder cuts a byte string into pieces, each a character
or a run of bytes that no character begins with in this way; the strict reading accepts a byte
string all of whose pieces are characters, the lenient one shows U+FFFD for every broken piece.
-/

namespace ShaderReport

/-- A string of arbitrary bytes, as file names, arguments and file contents are. -/
abbrev Bytes := List UInt8

namespace Utf8

/-- The bytes of a text. -/
def encode (s : String) : Bytes :=
  s.toList.flatMap String.utf8EncodeChar

/-- A piece of a byte string: a character, or a longest run of bytes that starts one in vain. -/
inductive Piece where
  | char (c : Char)
  | broken
  deriving DecidableEq, Repr

/-- The bytes that carry six bits of a character begun before. -/
def isTail (b : UInt8) : Bool :=
  0x80 ≤ b && b ≤ 0xBF

/-- What may follow a first byte above 0x7F: how many tail bytes the character takes, the bits
that the first byte gives, and the least and the greatest second byte. The narrower ranges leave
out longer spellings of a character, surrogates, and all beyond U+10FFFF. -/
def lead (b : UInt8) : Option (Nat × Nat × UInt8 × UInt8) :=
  if 0xC2 ≤ b ∧ b ≤ 0xDF then some (1, b.toNat - 0xC0, 0x80, 0xBF)
  else if b = 0xE0 then some (2, 0, 0xA0, 0xBF)
  else if b = 0xED then some (2, 0xD, 0x80, 0x9F)
  else if 0xE1 ≤ b ∧ b ≤ 0xEF then some (2, b.toNat - 0xE0, 0x80, 0xBF)
  else if b = 0xF0 then some (3, 0, 0x90, 0xBF)
  else if 0xF1 ≤ b ∧ b ≤ 0xF3 then some (3, b.toNat - 0xF0, 0x80, 0xBF)
  else if b = 0xF4 then some (3, 4, 0x80, 0x8F)
  else none

/-- Takes the given number of tail bytes onto the bits read so far. -/
def takeTails : Nat → Nat → Bytes → Piece × Bytes
  | 0, bits, rest => (.char (Char.ofNat bits), rest)
  | _ + 1, _, [] => (.broken, [])
  | n + 1, bits, b :: rest =>
    if isTail b then takeTails n (bits * 64 + b.toNat % 64) rest else (.broken, b :: rest)

/-- The piece that begins with the given byte, and what follows it. -/
def takePiece (first : UInt8) (rest : Bytes) : Piece × Bytes :=
  if first < 0x80 then (.char (Char.ofNat first.toNat), rest)
  else match lead first, rest with
    | none, _ => (.broken, rest)
    | some _, [] => (.broken, [])
    | some (tails, bits, low, high), b :: rest' =>
      if low ≤ b ∧ b ≤ high then takeTails (tails - 1) (bits * 64 + b.toNat % 64) rest'
      else (.broken, b :: rest')

theorem length_takeTails_le (n bits : Nat) (bs : Bytes) :
    (takeTails n bits bs).2.length ≤ bs.length := by
  induction n generalizing bits bs with
  | zero => simp [takeTails]
  | succ n ih =>
    cases bs with
    | nil => simp [takeTails]
    | cons b rest =>
      rw [takeTails]
      split
      · exact Nat.le_succ_of_le (ih _ rest)
      · simp

theorem length_takePiece_le (first : UInt8) (rest : Bytes) :
    (takePiece first rest).2.length ≤ rest.length := by
  unfold takePiece
  split
  · simp
  · split
    · simp
    · simp
    · split
      · exact Nat.le_succ_of_le (length_takeTails_le _ _ _)
      · simp

/-- The pieces of a byte string, in order. -/
def pieces : Bytes → List Piece
  | [] => []
  | b :: rest => (takePiece b rest).1 :: pieces (takePiece b rest).2
  termination_by bs => bs.length
  decreasing_by exact Nat.lt_succ_of_le (length_takePiece_le b rest)

/-- The character of a piece that is one. -/
def Piece.char? : Piece → Option Char
  | .char c => some c
  | .broken => none

/-- The character that shows a piece. -/
def Piece.shown : Piece → Char
  | .char c => c
  | .broken => '\uFFFD'

/-- The text of a byte string, if it is valid. -/
def decode? (bs : Bytes) : Option String :=
  ((pieces bs).mapM Piece.char?).map String.ofList

/-- The text of a byte string with U+FFFD in the place of every broken piece. -/
def decodeLossy (bs : Bytes) : String :=
  String.ofList ((pieces bs).map Piece.shown)

end Utf8

end ShaderReport

import ShaderReport.Json.Printer
import ShaderReport.Json.Reader

/-!
# Reading texts and numbers back

What is printed for a text or for a whole number of 64 bits is read back as it was, whatever stands
behind it: `text_quoted` and `number_print`.

A printed text needs no condition on what follows, as its closing quote ends it.  A number does: its
digits end where something else than a digit, a point or a power of ten begins (`EndsNumber`).
-/

namespace ShaderReport.Json

/-! ### Texts -/

theorem fourDigits_hexPair {n : Nat} (h : n < 0x20) (rest : List Char) :
    fourDigits ('0' :: '0' :: (hexPair n ++ rest)) = .ok (n, rest) := by
  have hh := Text.digitValue?_digitChar (d := n / 16 % 16) (by omega)
  have hl := Text.digitValue?_digitChar (d := n % 16) (by omega)
  have h0 : Text.digitValue? '0' = some 0 := rfl
  simp only [hexPair, List.cons_append, List.nil_append, fourDigits, List.all_cons, List.all_nil,
    Text.isDigitOf, Text.numberOf, List.foldl_cons, List.foldl_nil, h0, hh, hl, Option.any_some,
    Option.getD_some]
  rw [if_pos (by simp; omega)]
  congr 2
  omega

theorem escapedNumber_hexPair {c : Char} (h : c.toNat < 0x20) (rest : List Char) :
    escapedNumber ('0' :: '0' :: (hexPair c.toNat ++ rest)) = .ok (c, rest) := by
  rw [escapedNumber, fourDigits_hexPair h]
  simp only [bind, Except.bind]
  rw [if_pos (by omega), Char.ofNat_toNat]

theorem characters_backslash {cs rest : List Char} {d : Char} (h : escaped cs = .ok (d, rest)) :
    characters ('\\' :: cs) = (characters rest).map fun (ds, rest) => (d :: ds, rest) := by
  rw [characters, if_neg (by decide), if_pos rfl]
  split
  · next e he =>
    rw [he] at h
    cases h
  · next d' rest' hd =>
    rw [hd] at h
    cases h
    rfl

theorem characters_escape (c : Char) (rest : List Char) :
    characters (escape c ++ rest) = (characters rest).map fun (ds, rest) => (c :: ds, rest) := by
  unfold escape
  by_cases hq : c = '"'
  · rw [if_pos hq, hq]
    exact characters_backslash rfl
  rw [if_neg hq]
  by_cases hs : c = '\\'
  · rw [if_pos hs, hs]
    exact characters_backslash rfl
  rw [if_neg hs]
  by_cases hb : c = '\x08'
  · rw [if_pos hb, hb]
    exact characters_backslash rfl
  rw [if_neg hb]
  by_cases hf : c = '\x0c'
  · rw [if_pos hf, hf]
    exact characters_backslash rfl
  rw [if_neg hf]
  by_cases hn : c = '\n'
  · rw [if_pos hn, hn]
    exact characters_backslash rfl
  rw [if_neg hn]
  by_cases hr : c = '\r'
  · rw [if_pos hr, hr]
    exact characters_backslash rfl
  rw [if_neg hr]
  by_cases ht : c = '\t'
  · rw [if_pos ht, ht]
    exact characters_backslash rfl
  rw [if_neg ht]
  by_cases hu : c.toNat < 0x20
  · rw [if_pos hu]
    exact characters_backslash (escapedNumber_hexPair hu rest)
  · rw [if_neg hu, List.singleton_append, characters, if_neg hq, if_neg hs, if_neg hu]

theorem characters_quote (rest : List Char) : characters ('"' :: rest) = .ok ([], rest) := by
  rw [characters, if_pos rfl]

theorem characters_flatMap_escape (cs rest : List Char) :
    characters (cs.flatMap escape ++ '"' :: rest) = .ok (cs, rest) := by
  induction cs with
  | nil => exact characters_quote rest
  | cons c cs ih =>
    rw [List.flatMap_cons, List.append_assoc, characters_escape, ih]
    rfl

theorem text_quoted (s : String) (rest : List Char) :
    ∃ cs, quoted s ++ rest = '"' :: cs ∧ text cs = .ok (s, rest) := by
  refine ⟨s.toList.flatMap escape ++ '"' :: rest, ?_, ?_⟩
  · simp [quoted]
  · rw [text, characters_flatMap_escape]
    simp only [Except.map, String.ofList_toList]

/-! ### Numbers -/

/-- A text that does not go on with a number that ends before it. -/
def EndsNumber (rest : List Char) : Prop :=
  ∀ c ∈ rest.head?, c.isDigit = false ∧ c ≠ '.' ∧ c ≠ 'e' ∧ c ≠ 'E'

theorem endsNumber_cons {c : Char} {rest : List Char}
    (h : c.isDigit = false ∧ c ≠ '.' ∧ c ≠ 'e' ∧ c ≠ 'E') : EndsNumber (c :: rest) := by
  intro d hd
  cases hd
  exact h

theorem head?_toDigits {n : Nat} (h : n ≠ 0) : (Nat.toDigits 10 n).head? ≠ some '0' := by
  induction n using Nat.strongRecOn with
  | ind n ih =>
    by_cases hn : n < 10
    · rw [Nat.toDigits_of_lt_base hn]
      have all : ∀ d < 10, d ≠ 0 → [Nat.digitChar d].head? ≠ some '0' := by decide
      exact all n hn h
    · rw [Nat.toDigits_of_base_le (by decide) (by omega), List.head?_append]
      have hi := ih (n / 10) (by omega) (by omega)
      cases hd : (Nat.toDigits 10 (n / 10)).head? with
      | none => simp [Nat.toDigits_ne_nil] at hd
      | some c =>
        rw [hd] at hi
        exact hi

theorem takeWhile_dropWhile_toDigits (n : Nat) {rest : List Char} (h : EndsNumber rest) :
    (Nat.toDigits 10 n ++ rest).takeWhile Char.isDigit = Nat.toDigits 10 n ∧
      (Nat.toDigits 10 n ++ rest).dropWhile Char.isDigit = rest := by
  have hd : ∀ c ∈ Nat.toDigits 10 n, c.isDigit = true := fun c hc =>
    Nat.isDigit_of_mem_toDigits (by decide) (by decide) hc
  rw [List.takeWhile_append_of_pos hd, List.dropWhile_append_of_pos hd]
  cases rest with
  | nil => simp
  | cons c rest => simp [(h c rfl).1]

theorem wholeDigits_toDigits (n : Nat) {rest : List Char} (h : EndsNumber rest) :
    wholeDigits (Nat.toDigits 10 n ++ rest) = .ok (Nat.toDigits 10 n, rest) := by
  obtain ⟨htake, hdrop⟩ := takeWhile_dropWhile_toDigits n h
  have hne : (Nat.toDigits 10 n).isEmpty = false := by simp [Nat.toDigits_ne_nil]
  have hdigits : digits (Nat.toDigits 10 n ++ rest) = .ok (Nat.toDigits 10 n, rest) := by
    rw [digits, htake, hdrop, hne]
    rfl
  rw [wholeDigits, hdigits]
  simp only [bind, Except.bind]
  rw [if_neg]
  rintro ⟨hlen, hhead⟩
  by_cases hn : n = 0
  · subst hn
    simp [Nat.toDigits_zero] at hlen
  · exact head?_toDigits hn hhead

theorem fraction_end {rest : List Char} (h : EndsNumber rest) : fraction rest = .ok (none, rest) := by
  unfold fraction
  split
  · exact absurd rfl (h '.' rfl).2.1
  · rfl

theorem power_end {rest : List Char} (h : EndsNumber rest) : power rest = .ok (none, rest) := by
  cases rest with
  | nil => rfl
  | cons c rest =>
    obtain ⟨-, -, he, hE⟩ := h c rfl
    unfold power
    dsimp only
    rw [if_neg (by simp [he, hE])]

/-- Whether a whole number is within 64 bits, those with a sign for a negative one. -/
def Fits (n : Int) : Prop :=
  -(Limit.signed : Int) ≤ n ∧ n < Limit.unsigned

theorem number_of_wholeDigits (negative : Bool) {n : Nat} {k : Int} {cs rest : List Char}
    (hcs : (negative = true ∧ ∃ ds, cs = '-' :: ds ∧
        wholeDigits ds = .ok (Nat.toDigits 10 n, rest)) ∨
      (negative = false ∧ cs.head? ≠ some '-' ∧ wholeDigits cs = .ok (Nat.toDigits 10 n, rest)))
    (h : EndsNumber rest)
    (hk : Number.ofDigits negative (Nat.toDigits 10 n) none none = .ok (.whole k)) :
    number cs = .ok (.whole k, rest) := by
  unfold number
  split
  next negative' cs' heq =>
  have hw : negative' = negative ∧ wholeDigits cs' = .ok (Nat.toDigits 10 n, rest) := by
    rcases hcs with ⟨rfl, ds, rfl, hds⟩ | ⟨rfl, hne, hds⟩
    · cases heq
      exact ⟨rfl, hds⟩
    · split at heq
      · exact absurd rfl hne
      · cases heq
        exact ⟨rfl, hds⟩
  rw [hw.1, hw.2]
  simp only [bind, Except.bind, fraction_end h, power_end h, hk]

theorem number_toDigits {n : Nat} (hn : n < Limit.unsigned) {rest : List Char}
    (h : EndsNumber rest) : number (Nat.toDigits 10 n ++ rest) = .ok (.whole n, rest) := by
  refine number_of_wholeDigits false (Or.inr ⟨rfl, ?_, wholeDigits_toDigits n h⟩) h ?_
  · obtain ⟨d, ds, hd⟩ := List.exists_cons_of_ne_nil (Nat.toDigits_ne_nil (n := n) (b := 10))
    have hdigit : d.isDigit = true := Nat.isDigit_of_mem_toDigits (b := 10) (n := n) (by decide)
      (by decide) (by rw [hd]; exact List.mem_cons_self)
    rw [hd]
    rintro heq
    cases heq
    revert hdigit
    decide
  · simp [Number.ofDigits, Text.numberOf_toDigits, hn]

theorem number_minus_toDigits {n : Nat} (hn : n ≠ 0 ∧ n ≤ Limit.signed) {rest : List Char}
    (h : EndsNumber rest) :
    number ('-' :: (Nat.toDigits 10 n ++ rest)) = .ok (.whole (-n), rest) := by
  refine number_of_wholeDigits true (Or.inl ⟨rfl, _, rfl, wholeDigits_toDigits n h⟩)
    h ?_
  simp [Number.ofDigits, Text.numberOf_toDigits, hn]

theorem number_print {n : Int} (hn : Fits n) {rest : List Char} (h : EndsNumber rest) :
    number ((Number.whole n).print ++ rest) = .ok (.whole n, rest) := by
  obtain ⟨hlow, hhigh⟩ := hn
  rw [Number.print, signed]
  by_cases hneg : n < 0
  · have := number_minus_toDigits (n := n.natAbs) (by omega) h
    rw [show -(n.natAbs : Int) = n by omega] at this
    simpa [hneg] using this
  · have := number_toDigits (n := n.natAbs) (by omega) h
    rw [show (n.natAbs : Int) = n by omega] at this
    simpa [hneg] using this

end ShaderReport.Json

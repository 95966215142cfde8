import ShaderReport.Proofs.Json.Scalars

/-!
# Spellings of values

A value may be spelled with any blanks between its parts.  `Spells` relates a value to its
spellings, level by level, and does the same for what is left of an array or of an object after some
of its parts, because that is what the readers go through.

* `Spells.read`: **what spells a value is read as that value**, in no more steps than it has
  characters.  The induction is on the spelling; every part of it takes at least one character, and
  that pays for the step of its reader.
* `spells_compact` and `spells_pretty`: both printed forms of a value are spellings of it, if it is
  `Readable`: its numbers are whole and have 64 bits, and it is not too deep.
-/

namespace ShaderReport.Json

/-- A text of blanks. -/
def Blank (cs : List Char) : Prop :=
  ∀ c ∈ cs, isBlank c = true

theorem blank_nil : Blank [] := by
  intro c hc
  cases hc

theorem skipBlanks_append {cs : List Char} (h : Blank cs) {c : Char} (hc : isBlank c = false)
    (rest : List Char) : skipBlanks (cs ++ c :: rest) = c :: rest := by
  rw [skipBlanks, List.dropWhile_append_of_pos h, List.dropWhile_cons_of_neg (by simp [hc])]

/-- What a reader goes through: a value, or what is left of an array or of an object, whose first
part may still be to come. -/
inductive Part where
  | value (v : Value)
  | items (first : Bool) (vs : List Value)
  | members (first : Bool) (ms : List (String × Value))

/-- What may stand before an item or a member: blanks, and a comma among them unless it is the
first one. -/
inductive Leads : Bool → List Char → Prop where
  | first {b : List Char} (hb : Blank b) : Leads true b
  | comma {b b' : List Char} (hb : Blank b) (hb' : Blank b') : Leads false (b ++ ',' :: b')

/-- The spellings of a part where the given number of levels is left. -/
inductive Spells : Nat → Part → List Char → Prop where
  | null {levels : Nat} : Spells levels (.value .null) "null".toList
  | bool {levels : Nat} (b : Bool) : Spells levels (.value (.bool b)) (toString b).toList
  | number {levels : Nat} {n : Int} (hn : Fits n) :
      Spells levels (.value (.number (.whole n))) (Number.whole n).print
  | string {levels : Nat} (s : String) : Spells levels (.value (.string s)) (quoted s)
  | array {levels : Nat} {vs : List Value} {cs : List Char}
      (hs : Spells (levels + 1) (.items true vs) cs) :
      Spells (levels + 2) (.value (.array vs)) ('[' :: cs)
  | object {levels : Nat} {ms : List (String × Value)} {cs : List Char}
      (hs : Spells (levels + 1) (.members true ms) cs) :
      Spells (levels + 2) (.value (.object ms)) ('\x7b' :: cs)
  | closeArray {levels : Nat} {first : Bool} {b : List Char} (hb : Blank b) :
      Spells levels (.items first []) (b ++ [']'])
  | item {levels : Nat} {first : Bool} {v : Value} {vs : List Value} {lead cs tail : List Char}
      (hl : Leads first lead) (hv : Spells levels (.value v) cs)
      (hs : Spells levels (.items false vs) tail) :
      Spells levels (.items first (v :: vs)) (lead ++ (cs ++ tail))
  | closeObject {levels : Nat} {first : Bool} {b : List Char} (hb : Blank b) :
      Spells levels (.members first []) (b ++ ['\x7d'])
  | member {levels : Nat} {first : Bool} (name : String) {v : Value} {ms : List (String × Value)}
      {lead b b' cs tail : List Char} (hl : Leads first lead) (hb : Blank b) (hb' : Blank b')
      (hv : Spells levels (.value v) cs) (hs : Spells levels (.members false ms) tail) :
      Spells levels (.members first ((name, v) :: ms))
        (lead ++ (quoted name ++ (b ++ ':' :: (b' ++ (cs ++ tail)))))

/-! ### Where spellings begin -/

/-- What a value may begin with. -/
def Begins (c : Char) : Prop :=
  isBlank c = false ∧ c ≠ ']' ∧ c ≠ ','

/-- What a value that is no array and no object may begin with. -/
def BeginsScalar (c : Char) : Prop :=
  Begins c ∧ c ≠ '[' ∧ c ≠ '\x7b'

/-- A value that is no array and no object. -/
def Value.IsScalar : Value → Prop
  | .array _ => False
  | .object _ => False
  | _ => True

theorem beginsScalar_of_isDigit {c : Char} (h : c = '-' ∨ c.isDigit = true) : BeginsScalar c := by
  have hne : ∀ d : Char, (d = '-' ∨ d.isDigit = true) = False → c ≠ d := by
    rintro d hd rfl
    exact hd.mp h
  refine ⟨⟨?_, hne _ (by decide), hne _ (by decide)⟩, hne _ (by decide), hne _ (by decide)⟩
  simp only [isBlank, Bool.or_eq_false_iff, beq_eq_false_iff_ne]
  exact ⟨⟨⟨hne _ (by decide), hne _ (by decide)⟩, hne _ (by decide)⟩, hne _ (by decide)⟩

theorem print_eq_cons (n : Int) :
    ∃ c cs, (Number.whole n).print = c :: cs ∧ (c = '-' ∨ c.isDigit = true) := by
  obtain ⟨d, ds, hd⟩ := List.exists_cons_of_ne_nil (Nat.toDigits_ne_nil (n := n.natAbs) (b := 10))
  have hdigit : d.isDigit = true := Nat.isDigit_of_mem_toDigits (b := 10) (n := n.natAbs)
    (by decide) (by decide) (by rw [hd]; exact List.mem_cons_self)
  rw [Number.print, signed, hd]
  by_cases hneg : n < 0
  · exact ⟨'-', d :: ds, by simp [hneg], Or.inl rfl⟩
  · exact ⟨d, ds, by simp [hneg], Or.inr hdigit⟩

theorem Spells.beginsScalar {levels : Nat} {v : Value} {cs : List Char}
    (h : Spells levels (.value v) cs) (hv : v.IsScalar) :
    ∃ c ds, cs = c :: ds ∧ BeginsScalar c := by
  have hb : ∀ c : Char, (isBlank c || c == ']' || c == ',' || c == '[' || c == '\x7b') = false →
      BeginsScalar c := by
    intro c hc
    simpa [BeginsScalar, Begins, and_assoc] using hc
  cases h with
  | null => exact ⟨'n', _, rfl, hb _ (by decide)⟩
  | bool b =>
    cases b with
    | false => exact ⟨'f', _, rfl, hb _ (by decide)⟩
    | true => exact ⟨'t', _, rfl, hb _ (by decide)⟩
  | number hn =>
    obtain ⟨c, ds, hc, hd⟩ := print_eq_cons _
    exact ⟨c, ds, hc, beginsScalar_of_isDigit hd⟩
  | string s => exact ⟨'"', _, rfl, hb _ (by decide)⟩
  | array hs => exact hv.elim
  | object hs => exact hv.elim

theorem Spells.begins {levels : Nat} {v : Value} {cs : List Char}
    (h : Spells levels (.value v) cs) : ∃ c ds, cs = c :: ds ∧ Begins c := by
  cases v with
  | array vs =>
    cases h with
    | array hs => exact ⟨'[', _, rfl, by decide, by decide, by decide⟩
  | object ms =>
    cases h with
    | object hs => exact ⟨'\x7b', _, rfl, by decide, by decide, by decide⟩
  | _ =>
    obtain ⟨c, ds, hc, hd⟩ := h.beginsScalar trivial
    exact ⟨c, ds, hc, hd.1⟩

theorem endsNumber_append {b : List Char} (hb : Blank b) {c : Char}
    (hc : c.isDigit = false ∧ c ≠ '.' ∧ c ≠ 'e' ∧ c ≠ 'E') (rest : List Char) :
    EndsNumber (b ++ c :: rest) := by
  cases b with
  | nil => exact endsNumber_cons hc
  | cons d b =>
    refine endsNumber_cons ?_
    have hd := hb d List.mem_cons_self
    simp only [isBlank, Bool.or_eq_true, beq_iff_eq] at hd
    rcases hd with ((rfl | rfl) | rfl) | rfl <;> decide

/-- No item or member but the first, and no end of an array or an object, goes on with a number. -/
theorem Spells.endsNumber {levels : Nat} {p : Part} {cs : List Char} (h : Spells levels p cs)
    (hp : (∃ vs, p = .items false vs) ∨ (∃ ms, p = .members false ms)) (rest : List Char) :
    EndsNumber (cs ++ rest) := by
  cases h with
  | closeArray hb =>
    rw [List.append_assoc]
    exact endsNumber_append hb (by decide) rest
  | closeObject hb =>
    rw [List.append_assoc]
    exact endsNumber_append hb (by decide) rest
  | item hl hv hs =>
    cases hl with
    | first => simp at hp
    | comma hb hb' =>
      simp only [List.append_assoc, List.cons_append]
      exact endsNumber_append hb (by decide) _
  | member name hl hb hb' hv hs =>
    cases hl with
    | first => simp at hp
    | comma hb hb' =>
      simp only [List.append_assoc, List.cons_append]
      exact endsNumber_append hb (by decide) _
  | _ => simp at hp

/-! ### Reading what is spelled -/

theorem nextItem_lead {first : Bool} {lead : List Char} (hl : Leads first lead) {c : Char}
    (hc : Begins c) (rest : List Char) :
    nextItem first (lead ++ c :: rest) = .ok (true, c :: rest) := by
  obtain ⟨hblank, hclose, hcomma⟩ := hc
  cases hl with
  | first hb =>
    rw [nextItem, skipBlanks_append hb hblank]
    split <;> simp_all
  | comma hb hb' =>
    rw [List.append_assoc, List.cons_append, nextItem, skipBlanks_append hb (by decide)]
    simp only [Bool.false_eq_true, if_false]
    rw [skipBlanks_append hb' hblank]
    split <;> simp_all

theorem nextItem_close (first : Bool) {b : List Char} (hb : Blank b) (rest : List Char) :
    nextItem first (b ++ ']' :: rest) = .ok (false, rest) := by
  rw [nextItem, skipBlanks_append hb (by decide)]
  rfl

theorem nextName_lead {first : Bool} {lead : List Char} (hl : Leads first lead) (name : String)
    (rest : List Char) :
    nextName first (lead ++ (quoted name ++ rest)) = .ok (some name, rest) := by
  obtain ⟨cs, hcs, htext⟩ := text_quoted name rest
  rw [hcs]
  cases hl with
  | first hb =>
    rw [nextName, skipBlanks_append hb (by decide)]
    simp only [if_true, htext, Except.map]
  | comma hb hb' =>
    rw [List.append_assoc, List.cons_append, nextName, skipBlanks_append hb (by decide)]
    simp only [Bool.false_eq_true, if_false]
    rw [skipBlanks_append hb' (by decide)]
    simp only [htext, Except.map]

theorem nextName_close (first : Bool) {b : List Char} (hb : Blank b) (rest : List Char) :
    nextName first (b ++ '\x7d' :: rest) = .ok (none, rest) := by
  rw [nextName, skipBlanks_append hb (by decide)]
  rfl

theorem colon_append {b : List Char} (hb : Blank b) (rest : List Char) :
    colon (b ++ ':' :: rest) = .ok ((), rest) := by
  rw [colon, skipBlanks_append hb (by decide)]
  rfl

theorem literal_append (es rest : List Char) : literal es (es ++ rest) = .ok ((), rest) := by
  induction es with
  | nil => rfl
  | cons e es ih => rw [List.cons_append, literal, if_pos rfl, ih]

theorem scalar_number {c : Char} (hc : c = '-' ∨ c.isDigit = true) (cs : List Char) :
    scalar (c :: cs) = (number (c :: cs)).map fun (n, rest) => (.number n, rest) := by
  unfold scalar
  split
  case h_5 heq =>
    cases heq
    rw [if_pos hc]
  case h_6 heq => cases heq
  all_goals
    next heq =>
    cases heq
    exact absurd hc (by decide)

theorem Spells.scalar {levels : Nat} {v : Value} {cs : List Char} (h : Spells levels (.value v) cs)
    (hv : v.IsScalar) {rest : List Char} (hr : EndsNumber rest) :
    scalar (cs ++ rest) = .ok (v, rest) := by
  cases h with
  | null =>
    have := literal_append "ull".toList rest
    rw [show "null".toList ++ rest = 'n' :: ("ull".toList ++ rest) from rfl, Json.scalar, this]
    rfl
  | bool b =>
    cases b with
    | false =>
      have := literal_append "alse".toList rest
      rw [show (toString false).toList ++ rest = 'f' :: ("alse".toList ++ rest) from rfl,
        Json.scalar, this]
      rfl
    | true =>
      have := literal_append "rue".toList rest
      rw [show (toString true).toList ++ rest = 't' :: ("rue".toList ++ rest) from rfl,
        Json.scalar, this]
      rfl
  | number hn =>
    obtain ⟨c, ds, hc, hd⟩ := print_eq_cons _
    have hnum := number_print hn hr
    rw [hc, List.cons_append] at hnum ⊢
    rw [scalar_number hd, hnum]
    rfl
  | string s =>
    obtain ⟨ds, hds, htext⟩ := text_quoted s rest
    rw [hds, Json.scalar, htext]
    rfl
  | array hs => exact hv.elim
  | object hs => exact hv.elim

theorem valueWithin_scalar {c : Char} (hc : BeginsScalar c) (steps levels : Nat) (cs : List Char) :
    valueWithin (steps + 1) levels (c :: cs) = Json.scalar (c :: cs) := by
  obtain ⟨⟨hblank, -, -⟩, hbracket, hbrace⟩ := hc
  rw [valueWithin, show skipBlanks (c :: cs) = c :: cs from skipBlanks_append blank_nil hblank cs]
  split
  · next heq =>
    cases heq
    exact absurd rfl hbracket
  · next heq =>
    cases heq
    exact absurd rfl hbrace
  · rfl

theorem valueWithin_bracket (steps levels : Nat) (cs : List Char) :
    valueWithin (steps + 1) (levels + 2) ('[' :: cs) =
      (itemsWithin steps (levels + 1) true cs).map fun (vs, rest) => (.array vs, rest) := by
  rw [valueWithin]
  exact if_neg (by omega)

theorem valueWithin_brace (steps levels : Nat) (cs : List Char) :
    valueWithin (steps + 1) (levels + 2) ('\x7b' :: cs) =
      (membersWithin steps (levels + 1) true cs).map fun (ms, rest) => (.object ms, rest) := by
  rw [valueWithin]
  exact if_neg (by omega)

theorem Spells.skip {levels : Nat} {v : Value} {cs : List Char} (h : Spells levels (.value v) cs)
    {b : List Char} (hb : Blank b) (steps levels' : Nat) (rest : List Char) :
    valueWithin steps levels' (b ++ (cs ++ rest)) = valueWithin steps levels' (cs ++ rest) := by
  obtain ⟨c, ds, rfl, hc, -, -⟩ := h.begins
  cases steps with
  | zero => rfl
  | succ steps =>
    rw [List.cons_append, valueWithin, valueWithin, skipBlanks_append hb hc,
      show skipBlanks (c :: (ds ++ rest)) = c :: (ds ++ rest) from
        skipBlanks_append blank_nil hc _]

theorem Spells.length_pos {levels : Nat} {p : Part} {cs : List Char} (h : Spells levels p cs) :
    0 < cs.length := by
  cases p with
  | value v =>
    obtain ⟨c, ds, rfl, -⟩ := h.begins
    simp
  | items first vs =>
    cases h with
    | closeArray hb => simp
    | item hl hv hs =>
      obtain ⟨c, ds, rfl, -⟩ := hv.begins
      simp only [List.length_append, List.length_cons]
      omega
  | members first ms =>
    cases h with
    | closeObject hb => simp
    | member name hl hb hb' hv hs =>
      simp only [List.length_append, List.length_cons]
      omega

/-- What reading a part off a text gives, if the part comes first in the text. -/
def Part.ReadFrom (steps levels : Nat) (cs rest : List Char) : Part → Prop
  | .value v => EndsNumber rest → valueWithin steps levels (cs ++ rest) = .ok (v, rest)
  | .items first vs => itemsWithin steps levels first (cs ++ rest) = .ok (vs, rest)
  | .members first ms => membersWithin steps levels first (cs ++ rest) = .ok (ms, rest)

theorem Spells.exists_step {levels : Nat} {p : Part} {cs : List Char} (h : Spells levels p cs)
    {steps : Nat} (hs : cs.length ≤ steps) : ∃ n, steps = n + 1 :=
  Nat.exists_eq_add_one.mpr (Nat.lt_of_lt_of_le h.length_pos hs)

theorem Spells.readFrom_scalar {levels : Nat} {v : Value} {cs : List Char}
    (h : Spells levels (.value v) cs) (hv : v.IsScalar) {steps : Nat} (hs : cs.length ≤ steps)
    (rest : List Char) : (Part.value v).ReadFrom steps levels cs rest := by
  intro hr
  have hread := h.scalar hv hr
  obtain ⟨steps, rfl⟩ := h.exists_step hs
  obtain ⟨c, ds, rfl, hc⟩ := h.beginsScalar hv
  rw [List.cons_append] at hread ⊢
  rw [valueWithin_scalar hc, hread]

/-- **What spells a part is read as that part**, in no more steps than it has characters. -/
theorem Spells.read {levels : Nat} {p : Part} {cs : List Char} (h : Spells levels p cs)
    {steps : Nat} (hs : cs.length ≤ steps) (rest : List Char) :
    p.ReadFrom steps levels cs rest := by
  -- A value is followed by the rest of its array or object, so the rest has to stay arbitrary.
  induction h generalizing steps rest with
  | null => exact Spells.null.readFrom_scalar trivial hs rest
  | bool b => exact (Spells.bool b).readFrom_scalar trivial hs rest
  | number hn => exact (Spells.number hn).readFrom_scalar trivial hs rest
  | string s => exact (Spells.string s).readFrom_scalar trivial hs rest
  | @array levels vs cs hitems ih =>
    intro hr
    obtain ⟨steps, rfl⟩ := hitems.array.exists_step hs
    have hread : itemsWithin steps (levels + 1) true (cs ++ rest) = .ok (vs, rest) :=
      ih (Nat.le_of_succ_le_succ hs) rest
    rw [List.cons_append, valueWithin_bracket, hread]
    rfl
  | @object levels ms cs hmembers ih =>
    intro hr
    obtain ⟨steps, rfl⟩ := hmembers.object.exists_step hs
    have hread : membersWithin steps (levels + 1) true (cs ++ rest) = .ok (ms, rest) :=
      ih (Nat.le_of_succ_le_succ hs) rest
    rw [List.cons_append, valueWithin_brace, hread]
    rfl
  | @closeArray levels first b hb =>
    have h : Spells levels (.items first []) (b ++ [']']) := .closeArray hb
    obtain ⟨steps, rfl⟩ := h.exists_step hs
    show itemsWithin (steps + 1) levels first (b ++ [']'] ++ rest) = .ok ([], rest)
    rw [List.append_assoc, List.singleton_append, itemsWithin, nextItem_close first hb]
    rfl
  | @item levels first v vs lead cs tail hl hv htail ihv ihtail =>
    obtain ⟨steps, rfl⟩ := (Spells.item hl hv htail).exists_step hs
    have hvpos := hv.length_pos
    have htpos := htail.length_pos
    simp only [List.length_append] at hs
    have hvalue : valueWithin steps levels (cs ++ (tail ++ rest)) = .ok (v, tail ++ rest) :=
      ihv (by omega) (tail ++ rest) (htail.endsNumber (Or.inl ⟨vs, rfl⟩) rest)
    have hitems : itemsWithin steps levels false (tail ++ rest) = .ok (vs, rest) :=
      ihtail (by omega) rest
    show itemsWithin (steps + 1) levels first (lead ++ (cs ++ tail) ++ rest) = .ok (v :: vs, rest)
    obtain ⟨c, ds, rfl, hc⟩ := hv.begins
    rw [List.append_assoc, List.append_assoc, itemsWithin, List.cons_append, nextItem_lead hl hc,
      ← List.cons_append]
    simp only [bind, Except.bind, if_true, hvalue, hitems]
  | @closeObject levels first b hb =>
    have h : Spells levels (.members first []) (b ++ ['\x7d']) := .closeObject hb
    obtain ⟨steps, rfl⟩ := h.exists_step hs
    show membersWithin (steps + 1) levels first (b ++ ['\x7d'] ++ rest) = .ok ([], rest)
    rw [List.append_assoc, List.singleton_append, membersWithin, nextName_close first hb]
    rfl
  | @member levels first name v ms lead b b' cs tail hl hb hb' hv htail ihv ihtail =>
    obtain ⟨steps, rfl⟩ := (Spells.member name hl hb hb' hv htail).exists_step hs
    simp only [List.length_append, List.length_cons] at hs
    have hvalue : valueWithin steps levels (b' ++ (cs ++ (tail ++ rest))) =
        .ok (v, tail ++ rest) := by
      rw [hv.skip hb']
      exact ihv (by omega) (tail ++ rest) (htail.endsNumber (Or.inr ⟨ms, rfl⟩) rest)
    have hmembers : membersWithin steps levels false (tail ++ rest) = .ok (ms, rest) :=
      ihtail (by omega) rest
    show membersWithin (steps + 1) levels first
      (lead ++ (quoted name ++ (b ++ ':' :: (b' ++ (cs ++ tail)))) ++ rest) =
        .ok ((name, v) :: ms, rest)
    simp only [List.append_assoc, List.cons_append]
    rw [membersWithin, nextName_lead hl]
    simp only [bind, Except.bind, colon_append hb, hvalue, hmembers]

theorem Spells.value {levels : Nat} {v : Value} {cs : List Char} (h : Spells levels (.value v) cs)
    {b rest : List Char} (hb : Blank b) (hr : EndsNumber rest) :
    Json.value levels (b ++ (cs ++ rest)) = .ok (v, rest) := by
  rw [Json.value, h.skip hb]
  refine h.read ?_ rest hr
  simp only [List.length_append]
  omega

/-- **The text of a spelled value is read as that value.** -/
theorem Spells.parse {v : Value} {cs : List Char} (h : Spells maxLevels (.value v) cs) :
    Json.parse (String.ofList cs) = .ok v := by
  have hend : EndsNumber [] := by
    intro c hc
    cases hc
  have hread := h.value blank_nil hend
  rw [List.nil_append, List.append_nil] at hread
  rw [Json.parse, String.toList_ofList, hread]
  rfl

/-! ### Both printed forms are spellings -/

namespace Value

mutual

/-- Whether the printed forms of a value can be read where the given number of levels is left: its
numbers are whole and have 64 bits, and it is not too deep. -/
def Readable (levels : Nat) : Value → Prop
  | .null => True
  | .bool _ => True
  | .number (.whole n) => Fits n
  | .number (.decimal ..) => False
  | .string _ => True
  | .array vs => 1 < levels ∧ ReadableItems (levels - 1) vs
  | .object ms => 1 < levels ∧ ReadableMembers (levels - 1) ms

/-- Whether the printed forms of all items can be read. -/
def ReadableItems (levels : Nat) : List Value → Prop
  | [] => True
  | v :: vs => Readable levels v ∧ ReadableItems levels vs

/-- Whether the printed forms of all members can be read. -/
def ReadableMembers (levels : Nat) : List (String × Value) → Prop
  | [] => True
  | (_, v) :: ms => Readable levels v ∧ ReadableMembers levels ms

end

theorem readableItems_iff {levels : Nat} {vs : List Value} :
    ReadableItems levels vs ↔ ∀ v ∈ vs, Readable levels v := by
  induction vs with
  | nil => simp [ReadableItems]
  | cons v vs ih => simp [ReadableItems, ih]

theorem readableMembers_iff {levels : Nat} {ms : List (String × Value)} :
    ReadableMembers levels ms ↔ ∀ m ∈ ms, Readable levels m.2 := by
  induction ms with
  | nil => simp [ReadableMembers]
  | cons m ms ih => simp [ReadableMembers, ih]

theorem readable_ofStrings {levels : Nat} (h : 1 < levels) (texts : List String) :
    Readable levels (.ofStrings texts) := by
  refine ⟨h, readableItems_iff.mpr ?_⟩
  intro v hv
  obtain ⟨s, -, rfl⟩ := List.mem_map.mp hv
  trivial

theorem readable_ofNat {levels n : Nat} (h : n < Limit.unsigned) : Readable levels (.ofNat n) :=
  ⟨by omega, by omega⟩

/-! The printed forms of items and members are joined by commas. -/

theorem compactItems_eq (vs : List Value) : compactItems vs = [','].intercalate (vs.map compact) := by
  induction vs with
  | nil => rfl
  | cons v vs ih =>
    cases vs with
    | nil => simp [compactItems]
    | cons w vs => simp [compactItems, ih]

theorem compactMembers_eq (ms : List (String × Value)) :
    compactMembers ms =
      [','].intercalate (ms.map fun m => quoted m.1 ++ ':' :: compact m.2) := by
  induction ms with
  | nil => rfl
  | cons m ms ih =>
    cases ms with
    | nil => simp [compactMembers]
    | cons l ms => simp [compactMembers, ih]

theorem prettyItems_eq (level : Nat) (vs : List Value) :
    prettyItems level vs = [','].intercalate (vs.map fun v => newline level ++ pretty level v) := by
  induction vs with
  | nil => rfl
  | cons v vs ih =>
    cases vs with
    | nil => simp [prettyItems]
    | cons w vs => simp [prettyItems, ih]

theorem prettyMembers_eq (level : Nat) (ms : List (String × Value)) :
    prettyMembers level ms = [','].intercalate (ms.map fun m =>
      newline level ++ (quoted m.1 ++ ':' :: ' ' :: pretty level m.2)) := by
  induction ms with
  | nil => rfl
  | cons m ms ih =>
    cases ms with
    | nil => simp [prettyMembers]
    | cons l ms => simp [prettyMembers, ih]

end Value

open Value

theorem Leads.append {first : Bool} {lead b : List Char} (hl : Leads first lead) (hb : Blank b) :
    Leads first (lead ++ b) := by
  have happ : ∀ {cs : List Char}, Blank cs → Blank (cs ++ b) := by
    intro cs hcs c hc
    rcases List.mem_append.mp hc with h | h
    · exact hcs c h
    · exact hb c h
  cases hl with
  | first hb => exact .first (happ hb)
  | comma hb hb' =>
    rw [List.append_assoc, List.cons_append]
    exact .comma hb (happ hb')

theorem leads_comma : Leads false [','] :=
  .comma blank_nil blank_nil

/-- Items that are spelled after some blanks, joined by commas, spell what is left of an array. -/
theorem spells_items {levels : Nat} {print : Value → List Char} {b close : List Char}
    (hb : Blank b) (hclose : Blank close) {vs : List Value}
    (hv : ∀ v ∈ vs, Spells levels (.value v) (print v)) (hne : vs ≠ []) {first : Bool}
    {lead : List Char} (hl : Leads first lead) :
    Spells levels (.items first vs)
      (lead ++ ([','].intercalate (vs.map fun v => b ++ print v) ++ (close ++ [']']))) := by
  induction vs generalizing first lead with
  | nil => exact absurd rfl hne
  | cons v vs ih =>
    have hhead := hv v List.mem_cons_self
    have htail : ∀ w ∈ vs, Spells levels (.value w) (print w) := fun w hw =>
      hv w (List.mem_cons_of_mem v hw)
    cases vs with
    | nil =>
      have := Spells.item (hl.append hb) hhead (.closeArray hclose)
      simpa using this
    | cons w vs =>
      have := Spells.item (hl.append hb) hhead (ih htail (by simp) leads_comma)
      simpa using this

theorem spells_members {levels : Nat} {print : Value → List Char} {b before after close : List Char}
    (hb : Blank b) (hbefore : Blank before) (hafter : Blank after) (hclose : Blank close)
    {ms : List (String × Value)} (hm : ∀ m ∈ ms, Spells levels (.value m.2) (print m.2))
    (hne : ms ≠ []) {first : Bool} {lead : List Char} (hl : Leads first lead) :
    Spells levels (.members first ms)
      (lead ++ ([','].intercalate (ms.map fun m =>
        b ++ (quoted m.1 ++ (before ++ ':' :: (after ++ print m.2)))) ++ (close ++ ['\x7d']))) := by
  induction ms generalizing first lead with
  | nil => exact absurd rfl hne
  | cons m ms ih =>
    have hhead := hm m List.mem_cons_self
    have htail : ∀ l ∈ ms, Spells levels (.value l.2) (print l.2) := fun l hmem =>
      hm l (List.mem_cons_of_mem m hmem)
    cases ms with
    | nil =>
      have := Spells.member m.1 (hl.append hb) hbefore hafter hhead (.closeObject hclose)
      simpa using this
    | cons l ms =>
      have := Spells.member m.1 (hl.append hb) hbefore hafter hhead
        (ih htail (by simp) leads_comma)
      simpa using this

theorem sizeOf_member {m : String × Value} {ms : List (String × Value)} (h : m ∈ ms) :
    sizeOf m.2 < sizeOf (Value.object ms) := by
  have := List.sizeOf_lt_of_mem h
  obtain ⟨name, v⟩ := m
  simp only [Prod.mk.sizeOf_spec, Value.object.sizeOf_spec] at this ⊢
  omega

/-- **The compact form of a value is a spelling of it.** -/
theorem spells_compact {levels : Nat} (v : Value) (h : v.Readable levels) :
    Spells levels (.value v) v.compact := by
  match v with
  | .null => exact .null
  | .bool b => exact .bool b
  | .number (.whole n) => exact .number h
  | .string s => exact .string s
  | .array vs =>
    obtain ⟨hlevels, hvs⟩ := h
    obtain ⟨levels, rfl⟩ : ∃ n, levels = n + 2 := ⟨levels - 2, by omega⟩
    have hv : ∀ w ∈ vs, Spells (levels + 1) (.value w) w.compact := fun w hw =>
      spells_compact w (readableItems_iff.mp hvs w hw)
    rw [compact, compactItems_eq]
    refine .array ?_
    by_cases hne : vs = []
    · subst hne
      exact .closeArray blank_nil
    · have := spells_items blank_nil blank_nil hv hne (.first blank_nil)
      simpa using this
  | .object ms =>
    obtain ⟨hlevels, hms⟩ := h
    obtain ⟨levels, rfl⟩ : ∃ n, levels = n + 2 := ⟨levels - 2, by omega⟩
    have hm : ∀ m ∈ ms, Spells (levels + 1) (.value m.2) m.2.compact := fun m hmem =>
      spells_compact m.2 (readableMembers_iff.mp hms m hmem)
    rw [compact, compactMembers_eq]
    refine .object ?_
    by_cases hne : ms = []
    · subst hne
      exact .closeObject blank_nil
    · have := spells_members blank_nil blank_nil blank_nil blank_nil hm hne (.first blank_nil)
      simpa using this
termination_by sizeOf v
decreasing_by
  · have := List.sizeOf_lt_of_mem hw
    simp only [Value.array.sizeOf_spec]
    omega
  · exact sizeOf_member hmem

theorem blank_newline (level : Nat) : Blank (newline level) := by
  intro c hc
  rcases List.mem_cons.mp hc with rfl | hc
  · decide
  · rw [(List.mem_replicate.mp hc).2]
    decide

/-- **The laid out form of a value on any level is a spelling of it.** -/
theorem spells_pretty {levels : Nat} (v : Value) (h : v.Readable levels) (level : Nat) :
    Spells levels (.value v) (v.pretty level) := by
  match v with
  | .null => exact .null
  | .bool b => exact .bool b
  | .number (.whole n) => exact .number h
  | .string s => exact .string s
  | .array vs =>
    obtain ⟨hlevels, hvs⟩ := h
    obtain ⟨levels, rfl⟩ : ∃ n, levels = n + 2 := ⟨levels - 2, by omega⟩
    have hv : ∀ w ∈ vs, Spells (levels + 1) (.value w) (w.pretty (level + 1)) := fun w hw =>
      spells_pretty w (readableItems_iff.mp hvs w hw) (level + 1)
    cases vs with
    | nil => exact .array (.closeArray blank_nil)
    | cons w vs =>
      have := spells_items (blank_newline (level + 1)) (blank_newline level) hv (by simp)
        (.first blank_nil)
      rw [pretty, prettyItems_eq]
      refine .array ?_
      simpa using this
  | .object ms =>
    obtain ⟨hlevels, hms⟩ := h
    obtain ⟨levels, rfl⟩ : ∃ n, levels = n + 2 := ⟨levels - 2, by omega⟩
    have hm : ∀ m ∈ ms, Spells (levels + 1) (.value m.2) (m.2.pretty (level + 1)) :=
      fun m hmem => spells_pretty m.2 (readableMembers_iff.mp hms m hmem) (level + 1)
    have hspace : Blank [' '] := by
      intro c hc
      rw [List.mem_singleton.mp hc]
      decide
    cases ms with
    | nil => exact .object (.closeObject blank_nil)
    | cons m ms =>
      have := spells_members (blank_newline (level + 1)) blank_nil hspace (blank_newline level) hm
        (by simp) (.first blank_nil)
      rw [pretty, prettyMembers_eq]
      refine .object ?_
      simpa using this
termination_by sizeOf v
decreasing_by
  · have := List.sizeOf_lt_of_mem hw
    simp only [Value.array.sizeOf_spec]
    omega
  · exact sizeOf_member hmem

end ShaderReport.Json

import Mathlib.Data.List.TakeWhile
import ShaderReport.Proofs.Json.Spelling

/-!
# Readers look no further than they read

What a reader takes off a text does not depend on what comes after it, as long as that does not go on
with a number: `IsLocal`.  So a value can be cut out of one text and put into another one.

The law holds of one reader after the other because it holds of two readers in a row
(`IsLocal.bind`): what the second one takes stands behind what the first one takes, and begins in the
same way in both texts.  Arrays and objects are read step by step, and there the law also says how many
steps are enough (`IsLocalWithin`): as many as characters were read.
-/

namespace ShaderReport.Json

/-! ### Local readers -/

/-- Whether a text may stand in the place of another one: it begins in the same way, or it does not go
on with a number. -/
def MayFollow (rest rest' : List Char) : Prop :=
  rest'.head? = rest.head? ∨ EndsNumber rest'

theorem MayFollow.append {rest rest' : List Char} (h : MayFollow rest rest') (used : List Char) :
    MayFollow (used ++ rest) (used ++ rest') := by
  cases used with
  | nil => exact h
  | cons c used => exact Or.inl rfl

theorem mayFollow_nil {rest : List Char} : MayFollow rest [] := by
  refine Or.inr ?_
  intro c hc
  cases hc

/-- Whether a reader reads the same off any text that begins with what it took, if what follows may
stand in the place of what was left. -/
def IsLocal {α : Type} (read : Reader α) : Prop :=
  ∀ (cs rest : List Char) (a : α), read cs = .ok (a, rest) →
    ∃ used, cs = used ++ rest ∧ ∀ rest', MayFollow rest rest' → read (used ++ rest') = .ok (a, rest')

section

variable {α β : Type}

theorem map_eq_ok_iff {x : Except ReadError α} {f : α → β} {b : β} :
    x.map f = .ok b ↔ ∃ a, x = .ok a ∧ f a = b := by
  cases x <;> simp [Except.map]

theorem bind_eq_ok_iff {x : Except ReadError α} {f : α → Except ReadError β} {b : β} :
    x >>= f = .ok b ↔ ∃ a, x = .ok a ∧ f a = .ok b := by
  cases x <;> simp [Bind.bind, Except.bind]

theorem isLocal_ok (a : α) : IsLocal fun cs => .ok (a, cs) := by
  intro cs rest b h
  cases h
  exact ⟨[], rfl, fun _ _ => rfl⟩

theorem isLocal_error (e : ReadError) : IsLocal (fun _ => .error e : Reader α) := by
  intro cs rest b h
  cases h

theorem IsLocal.ite {p : Prop} [Decidable p] {f g : Reader α} (hf : IsLocal f) (hg : IsLocal g) :
    IsLocal fun cs => if p then f cs else g cs := by
  by_cases hp : p
  · simpa only [hp, if_true] using hf
  · simpa only [hp, if_false] using hg

theorem IsLocal.map {f : Reader α} {k : α × List Char → β × List Char} {t : α → β} (hf : IsLocal f)
    (hk : ∀ a rest, k (a, rest) = (t a, rest)) : IsLocal fun cs => (f cs).map k := by
  intro cs rest b h
  obtain ⟨⟨a, left⟩, ha, hb⟩ := map_eq_ok_iff.mp h
  rw [hk] at hb
  cases hb
  obtain ⟨used, heq, hread⟩ := hf cs rest a ha
  refine ⟨used, heq, ?_⟩
  intro rest' hrest
  exact map_eq_ok_iff.mpr ⟨_, hread rest' hrest, hk a rest'⟩

/-- **Two local readers in a row are local.** -/
theorem IsLocal.bind {f : Reader α} {k : α × List Char → Except ReadError (β × List Char)}
    (hf : IsLocal f) (hk : ∀ a, IsLocal fun rest => k (a, rest)) : IsLocal fun cs => f cs >>= k := by
  intro cs rest b h
  obtain ⟨⟨a, middle⟩, ha, hb⟩ := bind_eq_ok_iff.mp h
  obtain ⟨used, rfl, hread⟩ := hf cs middle a ha
  obtain ⟨used', rfl, hread'⟩ := hk a middle rest b hb
  refine ⟨used ++ used', (List.append_assoc _ _ _).symm, ?_⟩
  intro rest' hrest
  refine bind_eq_ok_iff.mpr ⟨(a, used' ++ rest'), ?_, hread' rest' hrest⟩
  rw [List.append_assoc]
  exact hread _ (hrest.append used')

/-- A local reader that reads nothing off the empty text takes a character off any other one. -/
theorem IsLocal.exists_cons {read : Reader α} (hlocal : IsLocal read)
    (hnil : ∀ a, read [] ≠ .ok (a, [])) {cs rest : List Char} {a : α}
    (h : read cs = .ok (a, rest)) :
    ∃ c used, cs = c :: (used ++ rest) ∧
      ∀ rest', MayFollow rest rest' → read (c :: (used ++ rest')) = .ok (a, rest') := by
  obtain ⟨used, rfl, hread⟩ := hlocal cs rest a h
  have hne : used ≠ [] := by
    rintro rfl
    exact hnil a (hread [] mayFollow_nil)
  obtain ⟨c, used, rfl⟩ := List.exists_cons_of_ne_nil hne
  exact ⟨c, used, rfl, hread⟩

end

/-! ### Texts -/

theorem isLocal_literal (es : List Char) : IsLocal (literal es) := by
  induction es with
  | nil => exact isLocal_ok ()
  | cons e es ih =>
    intro cs rest a h
    cases cs with
    | nil => cases h
    | cons c cs =>
      rw [literal] at h
      by_cases hc : c = e
      · rw [if_pos hc] at h
        obtain ⟨used, rfl, hread⟩ := ih cs rest a h
        refine ⟨c :: used, rfl, ?_⟩
        intro rest' hrest
        rw [List.cons_append, literal, if_pos hc, hread rest' hrest]
      · rw [if_neg hc] at h
        cases h

theorem isLocal_fourDigits : IsLocal fourDigits := by
  intro cs rest n h
  unfold fourDigits at h
  split at h
  · next a b c d rest' =>
    split at h
    · next hall =>
      cases h
      refine ⟨[a, b, c, d], rfl, ?_⟩
      intro rest' _
      exact if_pos hall
    · cases h
  · split at h <;> cases h

theorem isLocal_escapedNumber : IsLocal escapedNumber := by
  refine isLocal_fourDigits.bind fun high => ?_
  refine IsLocal.ite (isLocal_ok _) (IsLocal.ite (isLocal_error _) ?_)
  refine (isLocal_literal _).bind fun _ => ?_
  refine isLocal_fourDigits.bind fun low => ?_
  exact IsLocal.ite (isLocal_ok _) (isLocal_error _)

theorem not_refuse_eq_ok {α : Type} {cs : List Char} {a : α} : ¬ refuse cs = .ok a := by
  intro h
  unfold refuse at h
  split at h <;> cases h

theorem isLocal_escaped : IsLocal escaped := by
  intro cs rest d h
  unfold escaped at h
  split at h
  case h_9 =>
    obtain ⟨used, rfl, hread⟩ := isLocal_escapedNumber _ rest d h
    exact ⟨'u' :: used, rfl, fun rest' hrest => hread rest' hrest⟩
  case h_10 => exact absurd h not_refuse_eq_ok
  all_goals
    cases h
    exact ⟨[_], rfl, fun _ _ => rfl⟩

theorem isLocal_characters : IsLocal characters := by
  intro cs rest ds h
  induction cs using characters.induct generalizing ds with
  | case1 =>
    rw [characters] at h
    cases h
  | case2 cs =>
    rw [characters_quote] at h
    cases h
    exact ⟨['"'], rfl, fun rest' _ => characters_quote rest'⟩
  | case3 cs e he hquote =>
    rw [characters, if_neg hquote, if_pos rfl] at h
    split at h
    · cases h
    · next hd =>
      rw [he] at hd
      cases hd
  | case4 cs d middle he hlen hquote ih =>
    rw [characters_backslash he] at h
    obtain ⟨used, rfl, hread⟩ := isLocal_escaped cs middle d he
    obtain ⟨⟨ds', left⟩, hds, heq⟩ := map_eq_ok_iff.mp h
    cases heq
    obtain ⟨used', rfl, hread'⟩ := ih ds' hds
    refine ⟨'\\' :: (used ++ used'), by simp, ?_⟩
    intro rest' hrest
    rw [List.cons_append, List.append_assoc, characters_backslash (hread _ (hrest.append used'))]
    exact map_eq_ok_iff.mpr ⟨_, hread' rest' hrest, rfl⟩
  | case5 c cs hquote hslash hcontrol =>
    rw [characters, if_neg hquote, if_neg hslash, if_pos hcontrol] at h
    cases h
  | case6 c cs hquote hslash hcontrol ih =>
    rw [characters, if_neg hquote, if_neg hslash, if_neg hcontrol] at h
    obtain ⟨⟨ds', left⟩, hds, heq⟩ := map_eq_ok_iff.mp h
    cases heq
    obtain ⟨used, rfl, hread⟩ := ih ds' hds
    refine ⟨c :: used, rfl, ?_⟩
    intro rest' hrest
    rw [List.cons_append, characters, if_neg hquote, if_neg hslash, if_neg hcontrol]
    exact map_eq_ok_iff.mpr ⟨_, hread rest' hrest, rfl⟩

theorem isLocal_text : IsLocal text :=
  isLocal_characters.map fun _ _ => rfl

/-! ### Numbers -/

/-- A text that stands in the place of another one goes on with a number only if the other one does. -/
theorem MayFollow.head_ne {rest rest' : List Char} (h : MayFollow rest rest') {c : Char}
    (hc : c.isDigit = true ∨ c = '.' ∨ c = 'e' ∨ c = 'E') (hne : rest.head? ≠ some c) :
    rest'.head? ≠ some c := by
  rcases h with hsame | hends
  · rwa [hsame]
  · intro hhead
    obtain ⟨hdigit, hpoint, hlow, hhigh⟩ := hends c hhead
    rcases hc with hc | hc | hc | hc
    · rw [hdigit] at hc
      cases hc
    · exact hpoint hc
    · exact hlow hc
    · exact hhigh hc

theorem isLocal_digits : IsLocal digits := by
  intro cs rest ds h
  unfold digits at h
  dsimp only at h
  split at h
  · exact absurd h not_refuse_eq_ok
  · next hne =>
    cases h
    refine ⟨cs.takeWhile Char.isDigit, List.takeWhile_append_dropWhile.symm, ?_⟩
    intro rest' hrest
    have hdigits : ∀ c ∈ cs.takeWhile Char.isDigit, c.isDigit = true := fun c hc =>
      List.mem_takeWhile_imp hc
    have hhead : ∀ c ∈ rest'.head?, ¬ c.isDigit = true := by
      intro c hc hdigit
      refine hrest.head_ne (Or.inl hdigit) ?_ hc
      intro hhead
      have := List.head?_dropWhile_not Char.isDigit cs
      rw [hhead] at this
      simp [hdigit] at this
    have htake : rest'.takeWhile Char.isDigit = [] ∧ rest'.dropWhile Char.isDigit = rest' := by
      cases rest' with
      | nil => exact ⟨rfl, rfl⟩
      | cons c rest' => simp [hhead c rfl]
    unfold digits
    dsimp only
    rw [List.takeWhile_append_of_pos hdigits, List.dropWhile_append_of_pos hdigits, htake.1, htake.2,
      List.append_nil, if_neg hne]

theorem isLocal_wholeDigits : IsLocal wholeDigits := by
  refine isLocal_digits.bind fun ds => ?_
  exact IsLocal.ite (isLocal_error _) (isLocal_ok _)

theorem isLocal_fraction : IsLocal fraction := by
  intro cs rest ds h
  unfold fraction at h
  split at h
  · next cs =>
    obtain ⟨used, rfl, hread⟩ := isLocal_digits.map (t := some) (fun _ _ => rfl) cs rest ds h
    exact ⟨'.' :: used, rfl, fun rest' hrest => hread rest' hrest⟩
  · next hpoint =>
    cases h
    refine ⟨[], rfl, ?_⟩
    intro rest' hrest
    have hne : rest'.head? ≠ some '.' := by
      refine hrest.head_ne (by decide) ?_
      intro hhead
      obtain ⟨tail, htail⟩ := List.head?_eq_some_iff.mp hhead
      exact hpoint tail htail
    show fraction rest' = .ok (none, rest')
    unfold fraction
    split
    · exact absurd rfl hne
    · rfl

/-- Reads the digits of a power of ten whose sign was read. -/
def scale (negative : Bool) : Reader (Option Int) := fun cs =>
  (digits cs).map fun (ds, rest) =>
    (some (if negative then -(Text.numberOf 10 ds : Int) else Text.numberOf 10 ds), rest)

theorem isLocal_scale (negative : Bool) : IsLocal (scale negative) :=
  isLocal_digits.map fun _ _ => rfl

/-- Reads a power of ten whose letter was read. -/
def signedScale : Reader (Option Int)
  | '-' :: cs => scale true cs
  | '+' :: cs => scale false cs
  | cs => scale false cs

theorem signedScale_of_ne {cs : List Char} (hminus : ∀ tail, cs = '-' :: tail → False)
    (hplus : ∀ tail, cs = '+' :: tail → False) : signedScale cs = scale false cs := by
  unfold signedScale
  split
  · exact (hminus _ rfl).elim
  · exact (hplus _ rfl).elim
  · rfl

theorem power_cons {c : Char} (hc : c = 'e' ∨ c = 'E') (cs : List Char) :
    power (c :: cs) = signedScale cs := by
  unfold power
  dsimp only
  rw [if_pos hc]
  split
  · rfl
  · rfl
  · next hminus hplus => exact (signedScale_of_ne hminus hplus).symm

theorem isLocal_signedScale : IsLocal signedScale := by
  intro cs rest n h
  unfold signedScale at h
  split at h
  · next cs =>
    obtain ⟨used, rfl, hread⟩ := isLocal_scale true cs rest n h
    exact ⟨'-' :: used, rfl, fun rest' hrest => hread rest' hrest⟩
  · next cs =>
    obtain ⟨used, rfl, hread⟩ := isLocal_scale false cs rest n h
    exact ⟨'+' :: used, rfl, fun rest' hrest => hread rest' hrest⟩
  · next hminus hplus =>
    obtain ⟨c, used, rfl, hread⟩ := (isLocal_scale false).exists_cons (by intro a ha; cases ha) h
    refine ⟨c :: used, rfl, ?_⟩
    intro rest' hrest
    rw [List.cons_append, ← hread rest' hrest]
    refine signedScale_of_ne ?_ ?_
    · rintro tail htail
      cases htail
      exact hminus _ rfl
    · rintro tail htail
      cases htail
      exact hplus _ rfl

theorem isLocal_power : IsLocal power := by
  intro cs rest n h
  by_cases hletter : cs.head? = some 'e' ∨ cs.head? = some 'E'
  · obtain ⟨c, cs, rfl, hc⟩ : ∃ c tail, cs = c :: tail ∧ (c = 'e' ∨ c = 'E') := by
      rcases hletter with h | h <;> obtain ⟨tail, rfl⟩ := List.head?_eq_some_iff.mp h
      · exact ⟨'e', tail, rfl, by decide⟩
      · exact ⟨'E', tail, rfl, by decide⟩
    rw [power_cons hc] at h
    obtain ⟨used, rfl, hread⟩ := isLocal_signedScale cs rest n h
    refine ⟨c :: used, rfl, ?_⟩
    intro rest' hrest
    rw [List.cons_append, power_cons hc, hread rest' hrest]
  · have hnone : ∀ ds : List Char, ds.head? ≠ some 'e' → ds.head? ≠ some 'E' →
        power ds = .ok (none, ds) := by
      intro ds hlow hhigh
      cases ds with
      | nil => rfl
      | cons c ds =>
        refine if_neg ?_
        rintro (rfl | rfl)
        · exact hlow rfl
        · exact hhigh rfl
    obtain ⟨hlow, hhigh⟩ := not_or.mp hletter
    rw [hnone cs hlow hhigh] at h
    cases h
    refine ⟨[], rfl, ?_⟩
    intro rest' hrest
    exact hnone rest' (hrest.head_ne (by decide) hlow) (hrest.head_ne (by decide) hhigh)

/-- Reads a number whose sign was read. -/
def unsigned (negative : Bool) : Reader Number := fun cs => do
  let (wholes, cs) ← wholeDigits cs
  let (decimals, cs) ← fraction cs
  let (exponent, cs) ← power cs
  .ok (← Number.ofDigits negative wholes decimals exponent, cs)

theorem number_of_head_ne {cs : List Char} (h : cs.head? ≠ some '-') :
    number cs = unsigned false cs := by
  unfold number
  split
  next negative ds heq =>
  split at heq
  · exact (h rfl).elim
  · cases heq
    rfl

theorem isLocal_unsigned (negative : Bool) : IsLocal (unsigned negative) := by
  refine isLocal_wholeDigits.bind fun wholes => ?_
  refine isLocal_fraction.bind fun decimals => ?_
  refine isLocal_power.bind fun exponent => ?_
  cases hn : Number.ofDigits negative wholes decimals exponent with
  | error e => 
    simp only [hn]
    exact isLocal_error e
  | ok n => 
    simp only [hn]
    exact isLocal_ok n

theorem isLocal_number : IsLocal number := by
  intro cs rest n h
  by_cases hminus : cs.head? = some '-'
  · obtain ⟨cs, rfl⟩ := List.head?_eq_some_iff.mp hminus
    obtain ⟨used, rfl, hread⟩ := isLocal_unsigned true cs rest n h
    exact ⟨'-' :: used, rfl, fun rest' hrest => hread rest' hrest⟩
  · rw [number_of_head_ne hminus] at h
    obtain ⟨c, used, rfl, hread⟩ := (isLocal_unsigned false).exists_cons (by intro a ha; cases ha) h
    refine ⟨c :: used, rfl, ?_⟩
    intro rest' hrest
    have hminus' : (c :: (used ++ rest')).head? ≠ some '-' := hminus
    rw [List.cons_append, number_of_head_ne hminus', hread rest' hrest]

/-! ### The parts of arrays and objects -/

theorem isLocal_scalar : IsLocal scalar := by
  intro cs rest v h
  unfold scalar at h
  split at h
  · next cs =>
    obtain ⟨used, rfl, hread⟩ :=
      (isLocal_literal "ull".toList).map (t := fun _ => Value.null) (fun _ _ => rfl) cs rest v h
    exact ⟨'n' :: used, rfl, fun rest' hrest => hread rest' hrest⟩
  · next cs =>
    obtain ⟨used, rfl, hread⟩ :=
      (isLocal_literal "rue".toList).map (t := fun _ => Value.bool true) (fun _ _ => rfl) cs rest v h
    exact ⟨'t' :: used, rfl, fun rest' hrest => hread rest' hrest⟩
  · next cs =>
    obtain ⟨used, rfl, hread⟩ :=
      (isLocal_literal "alse".toList).map (t := fun _ => Value.bool false) (fun _ _ => rfl) cs rest v h
    exact ⟨'f' :: used, rfl, fun rest' hrest => hread rest' hrest⟩
  · next cs =>
    obtain ⟨used, rfl, hread⟩ := isLocal_text.map (t := Value.string) (fun _ _ => rfl) cs rest v h
    exact ⟨'"' :: used, rfl, fun rest' hrest => hread rest' hrest⟩
  · next c cs _ _ _ _ =>
    split at h
    · next hc =>
      obtain ⟨⟨n, left⟩, hn, heq⟩ := map_eq_ok_iff.mp h
      cases heq
      obtain ⟨d, used, heq, hread⟩ := isLocal_number.exists_cons (by intro a ha; cases ha) hn
      cases heq
      refine ⟨c :: used, rfl, ?_⟩
      intro rest' hrest
      rw [List.cons_append, scalar_number hc]
      exact map_eq_ok_iff.mpr ⟨_, hread rest' hrest, rfl⟩
    · cases h
  · cases h

theorem skipBlanks_eq_cons {cs rest : List Char} {c : Char} (h : skipBlanks cs = c :: rest) :
    isBlank c = false ∧ ∃ b, Blank b ∧ cs = b ++ c :: rest := by
  constructor
  · have := List.head?_dropWhile_not isBlank cs
    rw [← skipBlanks, h] at this
    simpa using this
  · refine ⟨cs.takeWhile isBlank, fun c hc => List.mem_takeWhile_imp hc, ?_⟩
    rw [← h, skipBlanks, List.takeWhile_append_dropWhile]

theorem isLocal_colon : IsLocal colon := by
  intro cs rest a h
  unfold colon at h
  split at h
  · next hskip =>
    obtain ⟨-, b, hb, rfl⟩ := skipBlanks_eq_cons hskip
    cases h
    refine ⟨b ++ [':'], by simp, ?_⟩
    intro rest' _
    simpa using colon_append hb rest'
  · exact absurd h not_refuse_eq_ok

theorem isLocal_nextName (first : Bool) : IsLocal (nextName first) := by
  intro cs rest a h
  unfold nextName at h
  split at h
  · next hskip =>
    obtain ⟨-, b, hb, rfl⟩ := skipBlanks_eq_cons hskip
    cases h
    refine ⟨b ++ ['\x7d'], by simp, ?_⟩
    intro rest' _
    simpa using nextName_close first hb rest'
  · next cs' hskip =>
    obtain ⟨-, b, hb, rfl⟩ := skipBlanks_eq_cons hskip
    split at h
    · next hfirst =>
      obtain ⟨⟨name, left⟩, hname, heq⟩ := map_eq_ok_iff.mp h
      cases heq
      obtain ⟨used, rfl, hread⟩ := isLocal_text cs' rest name hname
      refine ⟨b ++ '"' :: used, by simp, ?_⟩
      intro rest' hrest
      rw [List.append_assoc, List.cons_append, nextName, skipBlanks_append hb (by decide), hfirst]
      exact map_eq_ok_iff.mpr ⟨_, hread rest' hrest, rfl⟩
    · cases h
  · next cs' hskip =>
    obtain ⟨-, b, hb, rfl⟩ := skipBlanks_eq_cons hskip
    split at h
    · cases h
    · next hfirst =>
      rw [Bool.not_eq_true] at hfirst
      split at h
      · next cs'' hskip' =>
        obtain ⟨-, b', hb', rfl⟩ := skipBlanks_eq_cons hskip'
        obtain ⟨⟨name, left⟩, hname, heq⟩ := map_eq_ok_iff.mp h
        cases heq
        obtain ⟨used, rfl, hread⟩ := isLocal_text cs'' rest name hname
        refine ⟨b ++ ',' :: (b' ++ '"' :: used), by simp, ?_⟩
        intro rest' hrest
        simp only [List.append_assoc, List.cons_append]
        rw [nextName, skipBlanks_append hb (by decide), hfirst]
        simp only [Bool.false_eq_true, if_false]
        rw [skipBlanks_append hb' (by decide)]
        exact map_eq_ok_iff.mpr ⟨_, hread rest' hrest, rfl⟩
      · exact absurd h not_refuse_eq_ok
  · exact absurd h not_refuse_eq_ok

theorem isLocal_nextItem_close {first : Bool} {cs rest : List Char}
    (h : nextItem first cs = .ok (false, rest)) :
    ∃ used, cs = used ++ rest ∧ used ≠ [] ∧
      ∀ rest', nextItem first (used ++ rest') = .ok (false, rest') := by
  unfold nextItem at h
  split at h
  · next hskip =>
    obtain ⟨-, b, hb, rfl⟩ := skipBlanks_eq_cons hskip
    cases h
    refine ⟨b ++ [']'], by simp, by simp, ?_⟩
    intro rest'
    simpa using nextItem_close first hb rest'
  · split at h
    · cases h
    · split at h <;> cases h
  · cases h
  · split at h <;> cases h

theorem nextItem_item {first : Bool} {cs rest : List Char} {c : Char}
    (h : nextItem first cs = .ok (true, c :: rest)) :
    ∃ lead, cs = lead ++ c :: rest ∧
      ∀ rest', nextItem first (lead ++ c :: rest') = .ok (true, c :: rest') := by
  unfold nextItem at h
  split at h
  · cases h
  · next cs' hskip =>
    obtain ⟨-, b, hb, rfl⟩ := skipBlanks_eq_cons hskip
    split at h
    · cases h
    · next hfirst =>
      rw [Bool.not_eq_true] at hfirst
      split at h
      · cases h
      · next hclose =>
        obtain ⟨hblank, b', hb', rfl⟩ := skipBlanks_eq_cons (Prod.mk.inj (Except.ok.inj h)).2
        refine ⟨b ++ ',' :: b', by simp, ?_⟩
        intro rest'
        simp only [List.append_assoc, List.cons_append]
        rw [nextItem, skipBlanks_append hb (by decide), hfirst]
        simp only [Bool.false_eq_true, if_false]
        rw [skipBlanks_append hb' hblank]
        split
        · next heq =>
          cases heq
          exact (hclose _ (skipBlanks_append hb' hblank rest)).elim
        · rfl
  · cases h
  · next hclose hcomma hnil =>
    split at h
    · next hfirst =>
      obtain ⟨hblank, b, hb, rfl⟩ := skipBlanks_eq_cons (Prod.mk.inj (Except.ok.inj h)).2
      have hskip := skipBlanks_append hb hblank rest
      refine ⟨b, rfl, ?_⟩
      intro rest'
      rw [nextItem, skipBlanks_append hb hblank, hfirst]
      split
      · next heq =>
        cases heq
        exact (hclose _ hskip).elim
      · next heq =>
        cases heq
        exact (hcomma _ hskip).elim
      · next heq => cases heq
      · rfl
    · cases h

/-! ### Values -/

/-- Whether a reader that takes steps reads the same off any text that begins with what it took, if
there is a step for every character of that. -/
def IsLocalWithin {α : Type} (read : Nat → Reader α) (steps : Nat) : Prop :=
  ∀ (cs rest : List Char) (a : α), read steps cs = .ok (a, rest) →
    ∃ used, cs = used ++ rest ∧ used ≠ [] ∧ ∀ steps' rest', used.length ≤ steps' →
      MayFollow rest rest' → read steps' (used ++ rest') = .ok (a, rest')

theorem exists_steps {used : List Char} (hne : used ≠ []) {steps : Nat} (h : used.length ≤ steps) :
    ∃ n, steps = n + 1 :=
  Nat.exists_eq_add_one.mpr (Nat.lt_of_lt_of_le (List.length_pos_iff.mpr hne) h)

theorem beginsScalar_of_scalar {c : Char} {cs rest : List Char} {v : Value}
    (h : scalar (c :: cs) = .ok (v, rest)) : BeginsScalar c := by
  unfold scalar at h
  split at h
  case h_5 heq =>
    cases heq
    split at h
    · next hc => exact beginsScalar_of_isDigit hc
    · cases h
  case h_6 => cases h
  all_goals
    next heq =>
    cases heq
    exact ⟨⟨by decide, by decide, by decide⟩, by decide, by decide⟩

theorem valueWithin_of_scalar {cs tail rest : List Char} {c : Char} {v : Value}
    (hskip : skipBlanks cs = c :: tail) (h : scalar (c :: tail) = .ok (v, rest))
    (steps levels : Nat) : valueWithin (steps + 1) levels cs = .ok (v, rest) := by
  obtain ⟨-, hbracket, hbrace⟩ := beginsScalar_of_scalar h
  unfold valueWithin
  rw [hskip]
  split
  · next heq =>
    cases heq
    exact absurd rfl hbracket
  · next heq =>
    cases heq
    exact absurd rfl hbrace
  · exact h

theorem isLocal_value_step {steps levels : Nat}
    (hitems : IsLocalWithin (fun steps => itemsWithin steps (levels - 1) true) steps)
    (hmembers : IsLocalWithin (fun steps => membersWithin steps (levels - 1) true) steps) :
    IsLocalWithin (fun steps => valueWithin steps levels) (steps + 1) := by
  intro cs rest v h
  simp only at h
  unfold valueWithin at h
  split at h
  · next cs' hskip =>
    obtain ⟨-, b, hb, rfl⟩ := skipBlanks_eq_cons hskip
    split at h
    · cases h
    next hlevels =>
    obtain ⟨⟨vs, left⟩, hvs, heq⟩ := map_eq_ok_iff.mp h
    cases heq
    obtain ⟨used, rfl, -, hread⟩ := hitems cs' rest vs hvs
    refine ⟨b ++ '[' :: used, by simp, by simp, ?_⟩
    intro steps' rest' hsteps hrest
    obtain ⟨steps', rfl⟩ := exists_steps (by simp) hsteps
    simp only [List.length_append, List.length_cons] at hsteps
    simp only [List.append_assoc, List.cons_append]
    rw [valueWithin, skipBlanks_append hb (by decide)]
    simp only [hlevels, if_false]
    exact map_eq_ok_iff.mpr ⟨_, hread steps' rest' (by omega) hrest, rfl⟩
  · next cs' hskip =>
    obtain ⟨-, b, hb, rfl⟩ := skipBlanks_eq_cons hskip
    split at h
    · cases h
    next hlevels =>
    obtain ⟨⟨ms, left⟩, hms, heq⟩ := map_eq_ok_iff.mp h
    cases heq
    obtain ⟨used, rfl, -, hread⟩ := hmembers cs' rest ms hms
    refine ⟨b ++ '\x7b' :: used, by simp, by simp, ?_⟩
    intro steps' rest' hsteps hrest
    obtain ⟨steps', rfl⟩ := exists_steps (by simp) hsteps
    simp only [List.length_append, List.length_cons] at hsteps
    simp only [List.append_assoc, List.cons_append]
    rw [valueWithin, skipBlanks_append hb (by decide)]
    simp only [hlevels, if_false]
    exact map_eq_ok_iff.mpr ⟨_, hread steps' rest' (by omega) hrest, rfl⟩
  · obtain ⟨c, used, heq, hread⟩ := isLocal_scalar.exists_cons (by intro a ha; cases ha) h
    obtain ⟨hblank, b, hb, rfl⟩ := skipBlanks_eq_cons heq
    refine ⟨b ++ c :: used, by simp, by simp, ?_⟩
    intro steps' rest' hsteps hrest
    obtain ⟨steps', rfl⟩ := exists_steps (by simp) hsteps
    simp only [List.append_assoc, List.cons_append]
    exact valueWithin_of_scalar (skipBlanks_append hb hblank _) (hread rest' hrest) steps' levels

theorem isLocal_items_step {steps levels : Nat} {first : Bool}
    (hvalue : IsLocalWithin (fun steps => valueWithin steps levels) steps)
    (hitems : IsLocalWithin (fun steps => itemsWithin steps levels false) steps) :
    IsLocalWithin (fun steps => itemsWithin steps levels first) (steps + 1) := by
  intro cs rest vs h
  simp only [itemsWithin] at h
  obtain ⟨⟨more, left⟩, hnext, h⟩ := bind_eq_ok_iff.mp h
  cases more with
  | false =>
    cases h
    obtain ⟨used, rfl, hne, hread⟩ := isLocal_nextItem_close hnext
    refine ⟨used, rfl, hne, ?_⟩
    intro steps' rest' hsteps hrest
    obtain ⟨steps', rfl⟩ := exists_steps hne hsteps
    simp only [itemsWithin]
    exact bind_eq_ok_iff.mpr ⟨_, hread rest', rfl⟩
  | true =>
    obtain ⟨⟨v, middle⟩, hv, h⟩ := bind_eq_ok_iff.mp h
    obtain ⟨⟨vs', last⟩, hvs, h⟩ := bind_eq_ok_iff.mp h
    cases h
    obtain ⟨used, rfl, hne, hread⟩ := hvalue left middle v hv
    obtain ⟨used', rfl, hne', hread'⟩ := hitems middle last vs' hvs
    obtain ⟨c, used, rfl⟩ := List.exists_cons_of_ne_nil hne
    obtain ⟨lead, rfl, hlead⟩ := nextItem_item hnext
    refine ⟨lead ++ (c :: used ++ used'), by simp, by simp, ?_⟩
    intro steps' rest' hsteps hrest
    obtain ⟨steps', rfl⟩ := exists_steps (by simp) hsteps
    -- The item takes a character, and so does what follows it: each leaves a step for the other one.
    have hpos := List.length_pos_iff.mpr hne'
    simp only [List.length_append, List.length_cons] at hsteps
    simp only [itemsWithin, List.append_assoc, List.cons_append]
    refine bind_eq_ok_iff.mpr ⟨_, hlead _, ?_⟩
    refine bind_eq_ok_iff.mpr ⟨_, hread steps' (used' ++ rest') ?_ (hrest.append used'), ?_⟩
    · simp only [List.length_cons]
      omega
    · exact bind_eq_ok_iff.mpr ⟨_, hread' steps' rest' (by omega) hrest, rfl⟩

theorem isLocal_members_step {steps levels : Nat} {first : Bool}
    (hvalue : IsLocalWithin (fun steps => valueWithin steps levels) steps)
    (hmembers : IsLocalWithin (fun steps => membersWithin steps levels false) steps) :
    IsLocalWithin (fun steps => membersWithin steps levels first) (steps + 1) := by
  intro cs rest ms h
  simp only [membersWithin] at h
  obtain ⟨⟨name, left⟩, hname, h⟩ := bind_eq_ok_iff.mp h
  obtain ⟨c, used, rfl, hread⟩ :=
    (isLocal_nextName first).exists_cons (by intro a ha; cases ha) hname
  cases name with
  | none =>
    cases h
    refine ⟨c :: used, rfl, by simp, ?_⟩
    intro steps' rest' hsteps hrest
    obtain ⟨steps', rfl⟩ := exists_steps (by simp) hsteps
    simp only [membersWithin]
    exact bind_eq_ok_iff.mpr ⟨_, hread rest' hrest, rfl⟩
  | some name =>
    obtain ⟨⟨_, behind⟩, hcolon, h⟩ := bind_eq_ok_iff.mp h
    obtain ⟨⟨v, middle⟩, hv, h⟩ := bind_eq_ok_iff.mp h
    obtain ⟨⟨ms', last⟩, hms, h⟩ := bind_eq_ok_iff.mp h
    cases h
    obtain ⟨used₁, rfl, hread₁⟩ := isLocal_colon left behind () hcolon
    obtain ⟨used₂, rfl, hne₂, hread₂⟩ := hvalue behind middle v hv
    obtain ⟨used₃, rfl, hne₃, hread₃⟩ := hmembers middle last ms' hms
    refine ⟨c :: (used ++ (used₁ ++ (used₂ ++ used₃))), by simp, by simp, ?_⟩
    intro steps' rest' hsteps hrest
    obtain ⟨steps', rfl⟩ := exists_steps (by simp) hsteps
    simp only [List.length_cons, List.length_append] at hsteps
    simp only [membersWithin, List.cons_append, List.append_assoc]
    have hrest₃ := hrest.append used₃
    have hrest₂ := hrest₃.append used₂
    refine bind_eq_ok_iff.mpr ⟨_, hread _ (hrest₂.append used₁), ?_⟩
    refine bind_eq_ok_iff.mpr ⟨_, hread₁ _ hrest₂, ?_⟩
    refine bind_eq_ok_iff.mpr ⟨_, hread₂ steps' _ (by omega) hrest₃, ?_⟩
    exact bind_eq_ok_iff.mpr ⟨_, hread₃ steps' rest' (by omega) hrest, rfl⟩

/-- **The readers of values, items and members are local.** -/
theorem isLocalWithin (steps levels : Nat) :
    IsLocalWithin (fun steps => valueWithin steps levels) steps ∧
    (∀ first, IsLocalWithin (fun steps => itemsWithin steps levels first) steps) ∧
    (∀ first, IsLocalWithin (fun steps => membersWithin steps levels first) steps) := by
  -- A step of one reader calls the others with one step less, a value also with one level less.
  induction steps generalizing levels with
  | zero =>
    refine ⟨?_, ?_, ?_⟩
    · intro cs rest v h
      simp only [valueWithin] at h
      cases h
    · intro first cs rest vs h
      simp only [itemsWithin] at h
      cases h
    · intro first cs rest ms h
      simp only [membersWithin] at h
      cases h
  | succ steps ih =>
    obtain ⟨hvalue, hitems, hmembers⟩ := ih levels
    obtain ⟨-, hinner, hinner'⟩ := ih (levels - 1)
    exact ⟨isLocal_value_step (hinner true) (hinner' true),
      fun first => isLocal_items_step hvalue (hitems false),
      fun first => isLocal_members_step hvalue (hmembers false)⟩

/-- A value that is read in some number of steps is read in any that is enough for the text. -/
theorem valueWithin_of_length_le {steps steps' levels : Nat} {cs rest : List Char} {v : Value}
    (h : valueWithin steps levels cs = .ok (v, rest)) (hsteps : cs.length ≤ steps') :
    valueWithin steps' levels cs = .ok (v, rest) := by
  obtain ⟨used, rfl, -, hread⟩ := (isLocalWithin steps levels).1 cs rest v h
  rw [List.length_append] at hsteps
  exact hread steps' rest (by omega) (Or.inl rfl)

theorem value_of_valueWithin {steps levels : Nat} {cs rest : List Char} {v : Value}
    (h : valueWithin steps levels cs = .ok (v, rest)) : value levels cs = .ok (v, rest) :=
  valueWithin_of_length_le h (by omega)

/-- **A value is read in the same way wherever it stands**, and reading it takes something. -/
theorem value_local {levels : Nat} {cs rest : List Char} {v : Value}
    (h : value levels cs = .ok (v, rest)) :
    ∃ used, cs = used ++ rest ∧ used ≠ [] ∧
      ∀ rest', MayFollow rest rest' → value levels (used ++ rest') = .ok (v, rest') := by
  obtain ⟨used, heq, hne, hread⟩ := (isLocalWithin _ levels).1 cs rest v h
  refine ⟨used, heq, hne, ?_⟩
  intro rest' hrest
  exact value_of_valueWithin (hread used.length rest' (Nat.le_refl _) hrest)

end ShaderReport.Json

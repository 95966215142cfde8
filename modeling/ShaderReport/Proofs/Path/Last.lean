import ShaderReport.Proofs.Path.Names

/-!
# The last component of a path

What a path ends with is said here of its bytes alone.  A path may end with slashes, and with dots that
stand alone behind slashes; such a trail (`IsTrail`) leaves it the path that it was without.  In front of
the trail, back to the slash before it, stands the last component (`EndsIn`).

A path has one last component at most (`EndsIn.unique`), and it has one unless there is nothing in front of
the trail but a `.` (`exists_trail`).  The file name of a path is its last component unless that is `..`
(`fileName_eq_some_iff`).  A relative path that is joined to another one brings its own last component along
(`fileName_join`), and leaves that of the other one if it has none (`fileName_join_of_not_endsIn`).
-/

namespace ShaderReport.Path

/-! ### Trails -/

/-- Slashes, and dots that stand alone behind slashes, in any number and mix. -/
inductive IsTrail : Bytes → Prop where
  | nil : IsTrail []
  | skip {t : Bytes} (h : IsTrail t) : IsTrail (slash :: t)
  | here {t : Bytes} (h : IsTrail t) : IsTrail (slash :: dot :: t)

theorem IsTrail.append {s t : Bytes} (hs : IsTrail s) (ht : IsTrail t) : IsTrail (s ++ t) := by
  induction hs with
  | nil => exact ht
  | skip hs ih => exact .skip ih
  | here hs ih => exact .here ih

theorem IsTrail.names_append {t : Bytes} (h : IsTrail t) (a : Bytes) :
    (Path.mk (a ++ t)).names.filter (· ≠ [dot]) = (Path.mk a).names.filter (· ≠ [dot]) := by
  have hempty : (Path.mk []).names = [] := rfl
  have hdot : (Path.mk [dot]).names = [[dot]] := rfl
  induction h generalizing a with
  | nil => rw [List.append_nil]
  | @skip t h ih =>
    have htrail := ih []
    rw [List.nil_append, hempty] at htrail
    rw [names_append_slash, List.filter_append, htrail, List.filter_nil, List.append_nil]
  | @here t h ih =>
    have htrail := ih [dot]
    rw [List.singleton_append, hdot] at htrail
    rw [names_append_slash, List.filter_append, htrail]
    simp

/-! ### Last components -/

/-- **The last component of a path**: bytes without a slash, where the path begins or behind a slash, with
nothing but a trail after them.  A lone `.` is none: behind a slash it is part of the trail, and where the
path begins it names nothing. -/
def EndsIn (p : Path) (n : Bytes) : Prop :=
  ∃ front trail, p.bytes = front ++ n ++ trail ∧ (front = [] ∨ ∃ above, front = above ++ [slash]) ∧
    n ≠ [] ∧ n ≠ [dot] ∧ slash ∉ n ∧ IsTrail trail

theorem EndsIn.append_trail {a t n : Bytes} (h : (Path.mk a).EndsIn n) (ht : IsTrail t) :
    (Path.mk (a ++ t)).EndsIn n := by
  obtain ⟨front, trail, rfl, hfront, hn, hdot, hslash, htrail⟩ := h
  exact ⟨front, trail ++ t, List.append_assoc .., hfront, hn, hdot, hslash, htrail.append ht⟩

theorem exists_last_slash (bs : Bytes) :
    slash ∉ bs ∨ ∃ above n, bs = above ++ slash :: n ∧ slash ∉ n := by
  by_cases hs : slash ∈ bs
  · obtain ⟨n, above, hrev, hn⟩ := List.eq_append_cons_of_mem (List.mem_reverse.mpr hs)
    refine Or.inr ⟨above.reverse, n.reverse, ?_, by simpa using hn⟩
    simpa using congrArg List.reverse hrev
  · exact Or.inl hs

theorem exists_trail_piece (bs : Bytes) :
    (∃ above piece, bs = above ++ piece ∧ IsTrail piece ∧ piece ≠ []) ∨
    bs = [] ∨ bs = [dot] ∨ ∃ n, (Path.mk bs).EndsIn n := by
  rcases exists_last_slash bs with hslash | ⟨above, n, hbs, hslash⟩
  · by_cases hnil : bs = []
    · exact Or.inr (Or.inl hnil)
    by_cases hdot : bs = [dot]
    · exact Or.inr (Or.inr (Or.inl hdot))
    · exact Or.inr (Or.inr (Or.inr ⟨bs, [], [], by simp, Or.inl rfl, hnil, hdot, hslash, .nil⟩))
  · by_cases hnil : n = []
    · exact Or.inl ⟨above, [slash], hnil ▸ hbs, .skip .nil, by simp⟩
    by_cases hdot : n = [dot]
    · exact Or.inl ⟨above, [slash, dot], hdot ▸ hbs, .here .nil, by simp⟩
    · exact Or.inr (Or.inr (Or.inr
        ⟨n, above ++ [slash], [], by simp [hbs], Or.inr ⟨above, rfl⟩, hnil, hdot, hslash, .nil⟩))

/-- **In front of its trail a path ends in a last component**, unless there is nothing at all or a lone
`.`. -/
theorem exists_trail (bs : Bytes) : ∃ core trail, bs = core ++ trail ∧ IsTrail trail ∧
    (core = [] ∨ core = [dot] ∨ ∃ n, (Path.mk core).EndsIn n) := by
  induction hlen : bs.length using Nat.strongRecOn generalizing bs with
  | ind len ih =>
    rcases exists_trail_piece bs with ⟨above, piece, rfl, hpiece, hne⟩ | hcore
    · have hshorter : above.length < len := by
        have := List.length_pos_iff.mpr hne
        rw [← hlen, List.length_append]
        omega
      obtain ⟨core, trail, rfl, htrail, hcore⟩ := ih _ hshorter above rfl
      exact ⟨core, trail ++ piece, List.append_assoc .., htrail.append hpiece, hcore⟩
    · exact ⟨bs, [], (List.append_nil bs).symm, .nil, hcore⟩

/-! ### File names by last components -/

theorem names_of_endsIn {p : Path} {n : Bytes} (h : p.EndsIn n) :
    ∃ ns, p.names.filter (· ≠ [dot]) = ns ++ [n] := by
  obtain ⟨bytes⟩ := p
  obtain ⟨front, trail, rfl, hfront, hn, hdot, hslash, htrail⟩ := h
  have hname := names_name hn hslash
  rw [htrail.names_append]
  rcases hfront with rfl | ⟨above, rfl⟩
  · exact ⟨[], by simp [hname, hdot]⟩
  · rw [List.append_assoc, List.singleton_append, names_append_slash, List.filter_append, hname]
    exact ⟨(Path.mk above).names.filter (· ≠ [dot]), by simp [hdot]⟩

theorem fileName_of_endsIn {p : Path} {n : Bytes} (h : p.EndsIn n) (hup : n ≠ [dot, dot]) :
    p.fileName = some n := by
  obtain ⟨ns, hns⟩ := names_of_endsIn h
  rw [fileName_eq, hns]
  simp [hup]

/-- **A path has one last component at most.** -/
theorem EndsIn.unique {p : Path} {n m : Bytes} (hn : p.EndsIn n) (hm : p.EndsIn m) : n = m := by
  obtain ⟨ns, hns⟩ := names_of_endsIn hn
  obtain ⟨ms, hms⟩ := names_of_endsIn hm
  have hlast := congrArg List.getLast? (hns.symm.trans hms)
  simpa using hlast

theorem names_of_not_endsIn {p : Path} (h : ∀ n, ¬ p.EndsIn n) : p.names.filter (· ≠ [dot]) = [] := by
  obtain ⟨bytes⟩ := p
  obtain ⟨core, trail, rfl, htrail, hcore⟩ := exists_trail bytes
  rw [htrail.names_append]
  rcases hcore with rfl | rfl | ⟨n, hn⟩
  · rfl
  · rfl
  · exact absurd (hn.append_trail htrail) (h n)

/-- **The file name of a path is its last component, unless that is `..`.** -/
theorem fileName_eq_some_iff {p : Path} {n : Bytes} :
    p.fileName = some n ↔ p.EndsIn n ∧ n ≠ [dot, dot] := by
  constructor
  · intro h
    by_cases hends : ∃ m, p.EndsIn m
    · obtain ⟨m, hm⟩ := hends
      obtain ⟨ms, hms⟩ := names_of_endsIn hm
      rw [fileName_eq, hms, List.getLast?_concat, Option.filter_eq_some_iff] at h
      obtain ⟨hmn, hup⟩ := h
      cases hmn
      exact ⟨hm, by simpa using hup⟩
    · rw [fileName_eq, names_of_not_endsIn (not_exists.mp hends)] at h
      cases h
  · rintro ⟨hends, hup⟩
    exact fileName_of_endsIn hends hup

/-! ### Joined paths -/

theorem EndsIn.join {p : Path} {n : Bytes} (h : p.EndsIn n) (hp : p.isAbsolute = false) (dir : Path) :
    (dir.join p).EndsIn n := by
  obtain ⟨front, trail, hbytes, hfront, hn⟩ := h
  have hbehind : ∀ above, (dir.join p).bytes = above ++ slash :: p.bytes → (dir.join p).EndsIn n := by
    intro above hjoin
    refine ⟨above ++ slash :: front, trail, by simp [hjoin, hbytes], Or.inr ?_, hn⟩
    rcases hfront with rfl | ⟨inner, rfl⟩
    · exact ⟨above, rfl⟩
    · exact ⟨above ++ slash :: inner, by simp⟩
  rcases bytes_join hp dir with ⟨-, hjoin⟩ | ⟨above, -, hjoin⟩ | ⟨-, hjoin⟩
  · exact ⟨front, trail, hjoin.trans hbytes, hfront, hn⟩
  · exact hbehind above hjoin
  · exact hbehind dir.bytes hjoin

/-- **A relative path brings its last component along.** -/
theorem fileName_join {p : Path} (h : ∃ n, p.EndsIn n) (hp : p.isAbsolute = false) (dir : Path) :
    (dir.join p).fileName = p.fileName := by
  obtain ⟨n, hn⟩ := h
  obtain ⟨ns, hns⟩ := names_of_endsIn hn
  obtain ⟨ms, hms⟩ := names_of_endsIn (hn.join hp dir)
  rw [fileName_eq, fileName_eq, hns, hms, List.getLast?_concat, List.getLast?_concat]

/-- **A relative path without a last component leaves that of the path it is joined to.** -/
theorem fileName_join_of_not_endsIn {p : Path} (h : ∀ n, ¬ p.EndsIn n) (hp : p.isAbsolute = false)
    (dir : Path) : (dir.join p).fileName = dir.fileName := by
  rw [fileName_eq, fileName_eq, names_join_relative hp, List.filter_append, names_of_not_endsIn h,
    List.append_nil]

end ShaderReport.Path

import Mathlib.Data.List.Induction
import ShaderReport.FileSystem.Access
import ShaderReport.Proofs.Path.Names

/-!
# Walks

`Walks` lists the ways in which following names can succeed, one constructor for each; following
names is nothing else (`walk_eq_ok_iff`).  What is shown of paths is shown by induction on walks:

* `Walks.ends`: a walk ends in a directory that is reached through directories (`IsPlace`), or at a
  name in one.
* `Walks.mono`: a walk to a directory does not care for files.
* `Walks.arrives`: a walk finds what was put where it ended.
* `Walks.concat`, `Walks.split`: a walk to a name is a walk to its directory and one more step.
* `walks_down`: a walk down a place meets directories only.
-/

namespace ShaderReport.FileSystem

/-! ### Places -/

/-- A directory that is reached from the root through directories only. -/
inductive IsPlace (fs : FileSystem) : Location → Prop where
  | root : IsPlace fs []
  | child {l : Location} {n : Bytes} (hl : IsPlace fs l) (hn : IsName n)
      (hd : fs.get? (l ++ [n]) = some .directory) : IsPlace fs (l ++ [n])

namespace IsPlace

variable {fs : FileSystem} {l : Location}

theorem get? (h : IsPlace fs l) : fs.get? l = some .directory := by
  cases h with
  | root => rfl
  | child hl hn hd => exact hd

theorem names (h : IsPlace fs l) : ∀ n ∈ l, IsName n := by
  induction h with
  | root =>
    intro n hn
    cases hn
  | child hl hn hd ih => exact List.forall_mem_append.mpr ⟨ih, List.forall_mem_singleton.mpr hn⟩

theorem names_concat (h : IsPlace fs l) {n : Bytes} (hn : IsName n) : ∀ m ∈ l ++ [n], IsName m :=
  List.forall_mem_append.mpr ⟨h.names, List.forall_mem_singleton.mpr hn⟩

theorem dropLast (h : IsPlace fs l) : IsPlace fs l.dropLast := by
  cases h with
  | root => exact .root
  | child hl hn hd =>
    rw [List.dropLast_concat]
    exact hl

theorem of_append {m : Location} (h : IsPlace fs (l ++ m)) : IsPlace fs l := by
  induction m using List.reverseRecOn with
  | nil => rwa [List.append_nil] at h
  | append_singleton m n ih =>
    rw [← List.append_assoc] at h
    have := h.dropLast
    rw [List.dropLast_concat] at this
    exact ih this

end IsPlace

/-! ### Ways to succeed -/

/-- Whether a name is looked up in a directory, when the given names come after it. -/
structure Enters (aim : Aim) (place : Location) (n : Bytes) (rest : List Bytes)
    (asDirectory : Bool) : Prop where
  ne_here : n ≠ [dot]
  ne_up : n ≠ [dot, dot]
  no_file : ¬ (aim = .writing ∧ rest.isEmpty = true ∧ asDirectory = true)
  in_reach : isOutOfReach aim (place ++ [n]) = false

/-- The ways in which following names from a directory succeeds. -/
inductive Walks (fs : FileSystem) (aim : Aim) :
    Nat → Location → List Bytes → Bool → Destination → Prop where
  | stop {links : Nat} {place : Location} {b : Bool} :
      Walks fs aim links place [] b (.found place .directory b)
  | here {links : Nat} {place : Location} {rest : List Bytes} {b : Bool} {d : Destination}
      (h : Walks fs aim links place rest b d) : Walks fs aim links place ([dot] :: rest) b d
  | up {links : Nat} {place : Location} {rest : List Bytes} {b : Bool} {d : Destination}
      (h : Walks fs aim links place.dropLast rest b d) :
      Walks fs aim links place ([dot, dot] :: rest) b d
  | down {links : Nat} {place : Location} {n : Bytes} {rest : List Bytes} {b : Bool}
      {d : Destination} (hn : Enters aim place n rest b)
      (hg : fs.get? (place ++ [n]) = some .directory)
      (h : Walks fs aim links (place ++ [n]) rest b d) : Walks fs aim links place (n :: rest) b d
  | free {links : Nat} {place : Location} {n : Bytes} {b : Bool} (hn : Enters aim place n [] b)
      (hg : fs.get? (place ++ [n]) = none) :
      Walks fs aim links place [n] b (.free (place ++ [n]))
  | file {links : Nat} {place : Location} {n : Bytes} {b : Bool} {content : Bytes}
      (hn : Enters aim place n [] b) (hg : fs.get? (place ++ [n]) = some (.file content)) :
      Walks fs aim links place [n] b (.found (place ++ [n]) (.file content) b)
  | link {links : Nat} {place : Location} {n : Bytes} {b : Bool} {target : Path}
      (hn : Enters aim place n [] b) (hg : fs.get? (place ++ [n]) = some (.link target))
      (ha : aim = .entry) : Walks fs aim links place [n] b (.found (place ++ [n]) (.link target) b)
  | follow {links : Nat} {place : Location} {n : Bytes} {rest : List Bytes} {b : Bool}
      {target : Path} {d : Destination} (hn : Enters aim place n rest b)
      (hg : fs.get? (place ++ [n]) = some (.link target))
      (ha : ¬ (rest.isEmpty = true ∧ aim = .entry))
      (h : Walks fs aim links (if target.isAbsolute then [] else place) (target.names ++ rest)
        (if rest.isEmpty then b || target.endsWithSlash else b) d) :
      Walks fs aim (links + 1) place (n :: rest) b d

theorem walks_of_walk {fs : FileSystem} {aim : Aim} {links : Nat} {place : Location}
    {names : List Bytes} {b : Bool} {d : Destination}
    (h : fs.walk aim links place names b = .ok d) : Walks fs aim links place names b d := by
  fun_induction walk fs aim links place names b with
  | case1 =>
    cases h
    exact .stop
  | case2 links place b rest ih => exact .here (ih h)
  | case3 links place b rest hne ih => exact .up (ih h)
  | case8 links place b n rest hhere hup hfile hreach hg ih =>
    exact .down ⟨hhere, hup, hfile, by simpa using hreach⟩ hg (ih h)
  | case6 links place b n rest hhere hup hfile hreach hg hrest =>
    cases h
    obtain rfl := List.isEmpty_iff.mp hrest
    exact .free ⟨hhere, hup, hfile, by simpa using hreach⟩ hg
  | case9 links place b n rest hhere hup hfile hreach content hg hrest =>
    cases h
    obtain rfl := List.isEmpty_iff.mp hrest
    exact .file ⟨hhere, hup, hfile, by simpa using hreach⟩ hg
  | case11 links place b n rest hhere hup hfile hreach target hg hentry =>
    cases h
    obtain rfl := List.isEmpty_iff.mp hentry.1
    exact .link ⟨hhere, hup, hfile, by simpa using hreach⟩ hg hentry.2
  | case13 place b n rest hhere hup hfile hreach target hg hentry links ih =>
    exact .follow ⟨hhere, hup, hfile, by simpa using hreach⟩ hg hentry (ih h)
  | _ => cases h

namespace Enters

variable {fs : FileSystem} {aim : Aim} {place : Location} {n : Bytes} {rest : List Bytes} {b : Bool}

theorem walk_of_none (hn : Enters aim place n rest b) (hg : fs.get? (place ++ [n]) = none)
    (links : Nat) : fs.walk aim links place (n :: rest) b =
      if rest.isEmpty then .ok (.free (place ++ [n])) else .error .notFound := by
  rw [walk, if_neg hn.ne_here, if_neg hn.ne_up, if_neg hn.no_file, if_neg (by simp [hn.in_reach]), hg]

theorem walk_of_directory (hn : Enters aim place n rest b)
    (hg : fs.get? (place ++ [n]) = some .directory) (links : Nat) :
    fs.walk aim links place (n :: rest) b = fs.walk aim links (place ++ [n]) rest b := by
  rw [walk, if_neg hn.ne_here, if_neg hn.ne_up, if_neg hn.no_file, if_neg (by simp [hn.in_reach]), hg]

theorem walk_of_link {target : Path} (hn : Enters aim place n rest b)
    (hg : fs.get? (place ++ [n]) = some (.link target)) (ha : ¬ (rest.isEmpty = true ∧ aim = .entry))
    (links : Nat) : fs.walk aim (links + 1) place (n :: rest) b =
      fs.walk aim links (if target.isAbsolute then [] else place) (target.names ++ rest)
        (if rest.isEmpty then b || target.endsWithSlash else b) := by
  rw [walk, if_neg hn.ne_here, if_neg hn.ne_up, if_neg hn.no_file, if_neg (by simp [hn.in_reach]), hg]
  exact if_neg ha

end Enters

theorem walk_of_walks {fs : FileSystem} {aim : Aim} {links : Nat} {place : Location}
    {names : List Bytes} {b : Bool} {d : Destination}
    (h : Walks fs aim links place names b d) : fs.walk aim links place names b = .ok d := by
  induction h with
  | stop => rw [walk]
  | here h ih => rw [walk, if_pos rfl, ih]
  | up h ih => rw [walk, if_neg (by decide), if_pos rfl, ih]
  | down hn hg h ih => exact (hn.walk_of_directory hg _).trans ih
  | free hn hg => exact hn.walk_of_none hg _
  | file hn hg =>
    rw [walk, if_neg hn.ne_here, if_neg hn.ne_up, if_neg hn.no_file, if_neg (by simp [hn.in_reach]),
      hg]
    rfl
  | link hn hg ha =>
    rw [walk, if_neg hn.ne_here, if_neg hn.ne_up, if_neg hn.no_file, if_neg (by simp [hn.in_reach]),
      hg]
    exact if_pos ⟨rfl, ha⟩
  | follow hn hg ha h ih => exact (hn.walk_of_link hg ha _).trans ih

/-- **Following names succeeds in the ways listed.** -/
theorem walk_eq_ok_iff {fs : FileSystem} {aim : Aim} {links : Nat} {place : Location}
    {names : List Bytes} {b : Bool} {d : Destination} :
    fs.walk aim links place names b = .ok d ↔ Walks fs aim links place names b d :=
  ⟨walks_of_walk, walk_of_walks⟩

/-! ### Where walks end -/

section Ends

variable {fs : FileSystem} {aim : Aim} {links : Nat} {place : Location} {names : List Bytes}
  {b : Bool} {d : Destination}

/-- Names as a path has them. -/
def AreNames (names : List Bytes) : Prop :=
  ∀ n ∈ names, n ≠ [] ∧ slash ∉ n

theorem areNames_path (p : Path) : AreNames p.names :=
  fun _ hn => Path.of_mem_names hn

theorem AreNames.isName {n : Bytes} {rest : List Bytes} (h : AreNames (n :: rest))
    (hn : Enters aim place n rest b) : IsName n :=
  ⟨(h n List.mem_cons_self).1, (h n List.mem_cons_self).2, hn.ne_here, hn.ne_up⟩

theorem AreNames.tail {n : Bytes} {rest : List Bytes} (h : AreNames (n :: rest)) : AreNames rest :=
  fun m hm => h m (List.mem_cons_of_mem n hm)

theorem AreNames.append {ns ms : List Bytes} (hn : AreNames ns) (hm : AreNames ms) :
    AreNames (ns ++ ms) := by
  intro n h
  rcases List.mem_append.mp h with h | h
  · exact hn n h
  · exact hm n h

theorem isPlace_start (hplace : IsPlace fs place) (target : Path) :
    IsPlace fs (if target.isAbsolute then [] else place) := by
  split
  · exact .root
  · exact hplace

/-- **A walk ends at a directory that is a place, or else at a name in a place.** -/
theorem Walks.ends (h : Walks fs aim links place names b d) (hplace : IsPlace fs place)
    (hnames : AreNames names) :
    (∃ l b', d = .found l .directory b' ∧ IsPlace fs l) ∨
    ∃ m n, IsPlace fs m ∧ IsName n ∧
      ((d = .free (m ++ [n]) ∧ fs.get? (m ++ [n]) = none) ∨
        ∃ e b', d = .found (m ++ [n]) e b' ∧ fs.get? (m ++ [n]) = some e) := by
  induction h with
  | stop => exact Or.inl ⟨_, _, rfl, hplace⟩
  | here h ih => exact ih hplace hnames.tail
  | up h ih => exact ih hplace.dropLast hnames.tail
  | down hn hg h ih => exact ih (.child hplace (hnames.isName hn) hg) hnames.tail
  | free hn hg => exact Or.inr ⟨_, _, hplace, hnames.isName hn, Or.inl ⟨rfl, hg⟩⟩
  | file hn hg => exact Or.inr ⟨_, _, hplace, hnames.isName hn, Or.inr ⟨_, _, rfl, hg⟩⟩
  | link hn hg ha => exact Or.inr ⟨_, _, hplace, hnames.isName hn, Or.inr ⟨_, _, rfl, hg⟩⟩
  | follow hn hg ha h ih =>
    exact ih (isPlace_start hplace _) ((areNames_path _).append hnames.tail)

theorem Walks.not_link {l : Location} {t : Path} {b' : Bool} (ha : aim ≠ .entry) :
    ¬ Walks fs aim links place names b (.found l (.link t) b') := by
  intro h
  generalize hd : Destination.found l (.link t) b' = d at h
  induction h with
  | here h ih => exact ih hd
  | up h ih => exact ih hd
  | down hn hg h ih => exact ih hd
  | link hn hg ha' => exact ha ha'
  | follow hn hg ha h ih => exact ih hd
  | _ => cases hd

/-- What a walk ends at is what is there, wherever it starts.  Of a directory this is not said: a walk
may end at the one that it starts from. -/
theorem Walks.get?_end (h : Walks fs aim links place names b d) :
    (∀ {l}, d = .free l → fs.get? l = none) ∧
      ∀ {l e b'}, d = .found l e b' → e ≠ .directory → fs.get? l = some e := by
  induction h with
  | stop =>
    refine ⟨nofun, ?_⟩
    rintro l e b' ⟨⟩ he
    exact absurd rfl he
  | here h ih => exact ih
  | up h ih => exact ih
  | down hn hg h ih => exact ih
  | free hn hg =>
    refine ⟨?_, nofun⟩
    rintro l ⟨⟩
    exact hg
  | file hn hg =>
    refine ⟨nofun, ?_⟩
    rintro l e b' ⟨⟩ -
    exact hg
  | link hn hg ha =>
    refine ⟨nofun, ?_⟩
    rintro l e b' ⟨⟩ -
    exact hg
  | follow hn hg ha h ih => exact ih

end Ends

/-! ### Walks in two file systems -/

/-- Whether directories and links stay where they are. -/
structure KeepsWays (fs fs' : FileSystem) : Prop where
  current : fs'.current = fs.current
  directory : ∀ {l}, fs.get? l = some .directory → fs'.get? l = some .directory
  link : ∀ {l t}, fs.get? l = some (.link t) → fs'.get? l = some (.link t)

theorem KeepsWays.refl (fs : FileSystem) : KeepsWays fs fs :=
  ⟨rfl, id, id⟩

theorem KeepsWays.trans {fs fs' fs'' : FileSystem} (h : KeepsWays fs fs')
    (h' : KeepsWays fs' fs'') : KeepsWays fs fs'' :=
  ⟨h'.current.trans h.current, fun hd => h'.directory (h.directory hd), fun hl => h'.link (h.link hl)⟩

theorem IsPlace.mono {fs fs' : FileSystem} (h : KeepsWays fs fs') {l : Location}
    (hl : IsPlace fs l) : IsPlace fs' l := by
  induction hl with
  | root => exact .root
  | child hl hn hd ih => exact .child ih hn (h.directory hd)

/-- **A walk to a directory does not care for files.** -/
theorem Walks.mono {fs fs' : FileSystem} (hk : KeepsWays fs fs') {aim : Aim} {links : Nat}
    {place : Location} {names : List Bytes} {b b' : Bool} {l : Location}
    (h : Walks fs aim links place names b (.found l .directory b')) :
    Walks fs' aim links place names b (.found l .directory b') := by
  generalize hd : Destination.found l .directory b' = d at h
  induction h with
  | stop => exact .stop
  | here h ih => exact .here (ih hd)
  | up h ih => exact .up (ih hd)
  | down hn hg h ih => exact .down hn (hk.directory hg) (ih hd)
  | follow hn hg ha h ih => exact .follow hn (hk.link hg) ha (ih hd)
  | _ => cases hd

/-! ### The last step of a walk -/

theorem isOutOfReach_eq {aim : Aim} (ha : aim ≠ .naming) (l : Location) :
    isOutOfReach aim l = isOutOfReach .target l := by
  cases aim <;> first | rfl | exact absurd rfl ha

theorem Enters.target {aim : Aim} (ha : aim ≠ .naming) {place : Location} {n : Bytes}
    {rest : List Bytes} {b : Bool} (h : Enters aim place n rest b) (rest' : List Bytes) (b' : Bool) :
    Enters .target place n rest' b' where
  ne_here := h.ne_here
  ne_up := h.ne_up
  no_file := fun hw => nomatch hw.1
  in_reach := (isOutOfReach_eq ha _).symm.trans h.in_reach

theorem Enters.of_target {aim : Aim} (ha : aim ≠ .naming) {place : Location} {n : Bytes}
    {rest : List Bytes} {b : Bool} (h : Enters .target place n rest b) {rest' : List Bytes}
    (hne : rest' ≠ []) (b' : Bool) : Enters aim place n rest' b' where
  ne_here := h.ne_here
  ne_up := h.ne_up
  no_file := fun hw => hne (List.isEmpty_iff.mp hw.2.1)
  in_reach := (isOutOfReach_eq ha _).trans h.in_reach

/-- What is put where a walk ends is found by a walk of the same names, as long as the ways are kept.
What is to be written is named without a slash behind it. -/
theorem Walks.arrives {fs fs' : FileSystem} (hk : KeepsWays fs fs') {aim : Aim} (ha : aim ≠ .naming)
    {links : Nat} {place : Location} {names : List Bytes} {b : Bool} {d : Destination}
    (h : Walks fs aim links place names b d) {l : Location}
    (hd : d = .free l ∨ ∃ content b', d = .found l (.file content) b') {e : Entry}
    (he : fs'.get? l = some e) (hlink : ∀ t, e ≠ .link t) :
    ∃ b', Walks fs' .target links place names b (.found l e b') ∧ (aim = .writing → b' = false) := by
  have hlast : ∀ {links : Nat} {place : Location} {n : Bytes} {b : Bool}, place ++ [n] = l →
      Enters aim place n [] b →
      ∃ b', Walks fs' .target links place [n] b (.found l e b') ∧ (aim = .writing → b' = false) := by
    rintro links place n b rfl hn
    refine ⟨b, ?_, fun hw => ?_⟩
    · have hn' := hn.target ha [] b
      cases e with
      | file content => exact .file hn' he
      | directory => exact .down hn' he .stop
      | link t => exact absurd rfl (hlink t)
    · cases b with
      | true => exact absurd ⟨hw, rfl, rfl⟩ hn.no_file
      | false => rfl
  induction h with
  | stop => simp at hd
  | here h ih =>
    obtain ⟨b', hw, hb⟩ := ih hd
    exact ⟨b', .here hw, hb⟩
  | up h ih =>
    obtain ⟨b', hw, hb⟩ := ih hd
    exact ⟨b', .up hw, hb⟩
  | down hn hg h ih =>
    obtain ⟨b', hw, hb⟩ := ih hd
    exact ⟨b', .down (hn.target ha _ _) (hk.directory hg) hw, hb⟩
  | free hn hg => exact hlast (by simpa using hd) hn
  | file hn hg => exact hlast (by simpa using hd) hn
  | link hn hg hentry => simp at hd
  | follow hn hg hentry h ih =>
    obtain ⟨b', hw, hb⟩ := ih hd
    exact ⟨b', .follow (hn.target ha _ _) (hk.link hg) (by simp) hw, hb⟩

/-- **A walk to a directory goes on with one more name.** -/
theorem Walks.concat {fs : FileSystem} {links : Nat} {place : Location} {ns : List Bytes}
    {b b' : Bool} {l : Location} (h : Walks fs .target links place ns b (.found l .directory b')) :
    ∃ links', ∀ {aim : Aim} {n : Bytes} {c : Bool} {d : Destination}, aim ≠ .naming →
      Walks fs aim links' l [n] c d → Walks fs aim links place (ns ++ [n]) c d := by
  generalize hd : Destination.found l .directory b' = d at h
  induction h with
  | stop =>
    cases hd
    exact ⟨_, fun _ h => h⟩
  | here h ih =>
    obtain ⟨links', hl⟩ := ih hd
    exact ⟨links', fun ha h => .here (hl ha h)⟩
  | up h ih =>
    obtain ⟨links', hl⟩ := ih hd
    exact ⟨links', fun ha h => .up (hl ha h)⟩
  | down hn hg h ih =>
    obtain ⟨links', hl⟩ := ih hd
    exact ⟨links', fun ha h => .down (hn.of_target ha (by simp) _) hg (hl ha h)⟩
  | @follow _ _ _ rest _ target _ hn hg ha h ih =>
    obtain ⟨links', hl⟩ := ih hd
    refine ⟨links', fun {aim n c d} haim h => ?_⟩
    have hd := hl haim h
    rw [List.append_assoc] at hd
    exact .follow (hn.of_target haim (by simp) _) hg (by simp) (by simpa using hd)
  | _ => cases hd

/-- **A walk to a name goes by way of a directory**, which a path without the name leads to. -/
theorem Walks.split {fs : FileSystem} {aim : Aim} (haim : aim ≠ .naming) {links : Nat}
    {place : Location} {ns : List Bytes} {n : Bytes} {c : Bool} {d : Destination}
    (h : Walks fs aim links place (ns ++ [n]) c d) (b : Bool) :
    ∃ l b' links', Walks fs .target links place ns b (.found l .directory b') ∧
      Walks fs aim links' l [n] c d := by
  generalize hns : ns ++ [n] = names at h
  induction h generalizing ns b with
  | stop => simp at hns
  | @here links place rest c d h ih =>
    cases ns with
    | nil =>
      cases hns
      exact ⟨_, b, links, .stop, .here h⟩
    | cons m ns =>
      cases hns
      obtain ⟨l, b', links', hl, hd⟩ := ih b rfl
      exact ⟨l, b', links', .here hl, hd⟩
  | @up links place rest c d h ih =>
    cases ns with
    | nil =>
      cases hns
      exact ⟨_, b, links, .stop, .up h⟩
    | cons m ns =>
      cases hns
      obtain ⟨l, b', links', hl, hd⟩ := ih b rfl
      exact ⟨l, b', links', .up hl, hd⟩
  | @down links place m rest c d hn hg h ih =>
    cases ns with
    | nil =>
      cases hns
      exact ⟨_, b, links, .stop, .down hn hg h⟩
    | cons m ns =>
      cases hns
      obtain ⟨l, b', links', hl, hd⟩ := ih b rfl
      exact ⟨l, b', links', .down (hn.target haim _ _) hg hl, hd⟩
  | @free links place m c hn hg =>
    cases ns with
    | nil =>
      cases hns
      exact ⟨_, b, links, .stop, .free hn hg⟩
    | cons k ns => simp at hns
  | @file links place m c content hn hg =>
    cases ns with
    | nil =>
      cases hns
      exact ⟨_, b, links, .stop, .file hn hg⟩
    | cons k ns => simp at hns
  | @link links place m c target hn hg ha =>
    cases ns with
    | nil =>
      cases hns
      exact ⟨_, b, links, .stop, .link hn hg ha⟩
    | cons k ns => simp at hns
  | @follow links place m rest c target d hn hg ha h ih =>
    cases ns with
    | nil =>
      cases hns
      exact ⟨_, b, links + 1, .stop, .follow hn hg ha h⟩
    | cons k ns =>
      -- The names of the target come in front, so the last name is still the one split off.
      obtain ⟨rfl, rfl⟩ := List.cons.inj hns
      have hns' : (target.names ++ ns) ++ [n] = target.names ++ (ns ++ [n]) := List.append_assoc ..
      obtain ⟨l, b', links', hl, hd⟩ :=
        ih (if ns.isEmpty then b || target.endsWithSlash else b) hns'
      exact ⟨l, b', links', .follow (hn.target haim _ _) hg (by simp) hl, by simpa using hd⟩

/-! ### Walks down a place -/

/-- Whether all the locations on the way down from a place can be looked up. -/
def InReach (aim : Aim) : Location → List Bytes → Prop
  | _, [] => True
  | place, n :: ns => isOutOfReach aim (place ++ [n]) = false ∧ InReach aim (place ++ [n]) ns

theorem walks_directory {fs : FileSystem} {aim : Aim} {links : Nat} {place : Location} {n : Bytes}
    {rest : List Bytes} {b : Bool} {d : Destination} (hn : IsName n)
    (hg : fs.get? (place ++ [n]) = some .directory) (hrest : rest ≠ []) :
    Walks fs aim links place (n :: rest) b d ↔
      isOutOfReach aim (place ++ [n]) = false ∧ Walks fs aim links (place ++ [n]) rest b d := by
  have hempty : rest.isEmpty = false := by simpa using hrest
  constructor
  · intro h
    cases h with
    | here h => exact absurd rfl hn.ne_here
    | up h => exact absurd rfl hn.ne_up
    | down hen _ h => exact ⟨hen.in_reach, h⟩
    | follow _ hg' => simp [hg] at hg'
    | _ => exact absurd rfl hrest
  · rintro ⟨hreach, h⟩
    exact .down ⟨hn.ne_here, hn.ne_up, by simp [hempty], hreach⟩ hg h

/-- **A walk down a place meets directories only.** -/
theorem walks_down {fs : FileSystem} {aim : Aim} {links : Nat} {place : Location} {ns : List Bytes}
    {rest : List Bytes} {b : Bool} {d : Destination} (hp : IsPlace fs (place ++ ns))
    (hrest : rest ≠ []) :
    Walks fs aim links place (ns ++ rest) b d ↔
      InReach aim place ns ∧ Walks fs aim links (place ++ ns) rest b d := by
  induction ns generalizing place with
  | nil => simp [InReach]
  | cons n ns ih =>
    have hp' : IsPlace fs (place ++ [n] ++ ns) := by simpa using hp
    have hn : IsName n := hp.names n (by simp)
    rw [List.cons_append, walks_directory hn hp'.of_append.get? (by simp [hrest]), ih hp', InReach,
      and_assoc]
    simp

theorem walks_name {fs : FileSystem} {links : Nat} {place : Location} {n : Bytes} {b : Bool}
    {d : Destination} {e : Entry} (hn : IsName n) (hg : fs.get? (place ++ [n]) = some e)
    (he : ∀ t, e ≠ .link t) :
    Walks fs .target links place [n] b d ↔
      isOutOfReach .target (place ++ [n]) = false ∧ d = .found (place ++ [n]) e b := by
  constructor
  · intro h
    cases h with
    | here h => exact absurd rfl hn.ne_here
    | up h => exact absurd rfl hn.ne_up
    | down hen hg' h =>
      rw [hg] at hg'
      cases hg'
      cases h
      exact ⟨hen.in_reach, rfl⟩
    | free hen hg' => simp [hg] at hg'
    | file hen hg' =>
      rw [hg] at hg'
      cases hg'
      exact ⟨hen.in_reach, rfl⟩
    | link hen hg' ha => cases ha
    | follow hen hg' =>
      rw [hg] at hg'
      exact absurd (Option.some.inj hg') (he _)
  · rintro ⟨hreach, rfl⟩
    have hen : Enters .target place n [] b := ⟨hn.ne_here, hn.ne_up, by simp, hreach⟩
    cases e with
    | file content => exact .file hen hg
    | directory => exact .down hen hg .stop
    | link t => exact absurd rfl (he t)

end ShaderReport.FileSystem

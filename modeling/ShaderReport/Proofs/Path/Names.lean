import ShaderReport.FileSystem.Basic
import ShaderReport.Proofs.Text.Utf8

/-!
# Names of paths

How the names of a path come out of its bytes.

* `Path.splitNames_append_slash`: a slash separates the names before it from those behind it.
* `Location.names_path`, `Location.fileName_path`: the absolute path of a location has the names of
  the location, the last one as its file name.
* `Path.names_join_relative`, `Path.names_join`: joining a relative path adds its names to those of the
  path, and joining a name adds it.
* `Path.fileName_eq`: the file name of a path comes from its last name that is no `.`.
* `Path.exists_fileName_append`: what a path ends with its file name ends with.
* `Path.names_text`: all names of a path that is text are text.
-/

namespace ShaderReport

/-- A name that an entry can have. -/
structure IsName (n : Bytes) : Prop where
  ne_nil : n ≠ []
  no_slash : slash ∉ n
  ne_here : n ≠ [dot]
  ne_up : n ≠ [dot, dot]

namespace Path

/-! ### Splitting at slashes -/

theorem splitNames_slash (bs : Bytes) : splitNames (slash :: bs) = [] :: splitNames bs := by
  rw [splitNames, if_pos rfl]

theorem exists_splitNames (bs : Bytes) : ∃ n ns, splitNames bs = n :: ns := by
  cases bs with
  | nil => exact ⟨[], [], rfl⟩
  | cons b bs =>
    rw [splitNames]
    split
    · exact ⟨_, _, rfl⟩
    · split
      · exact ⟨_, _, rfl⟩
      · exact ⟨_, _, rfl⟩

theorem splitNames_append {a : Bytes} (h : slash ∉ a) {b n : Bytes} {ns : List Bytes}
    (hb : splitNames b = n :: ns) : splitNames (a ++ b) = (a ++ n) :: ns := by
  induction a with
  | nil => exact hb
  | cons x a ih =>
    have hx : x ≠ slash := fun hx => h (hx ▸ List.mem_cons_self)
    have ha := ih fun hmem => h (List.mem_cons_of_mem x hmem)
    rw [List.cons_append, splitNames, if_neg hx, ha]
    rfl

theorem splitNames_of_not_mem {n : Bytes} (h : slash ∉ n) : splitNames n = [n] := by
  have := splitNames_append h (b := []) rfl
  simpa using this

theorem splitNames_append_slash (a b : Bytes) :
    splitNames (a ++ slash :: b) = splitNames a ++ splitNames b := by
  induction a with
  | nil => exact splitNames_slash b
  | cons x a ih =>
    obtain ⟨n, ns, hn⟩ := exists_splitNames a
    by_cases hx : x = slash
    · rw [hx, List.cons_append, splitNames_slash, splitNames_slash, ih]
      rfl
    · rw [List.cons_append, splitNames, if_neg hx, ih, splitNames, if_neg hx, hn]
      rfl

theorem not_mem_of_splitNames {bs n : Bytes} (h : n ∈ splitNames bs) : slash ∉ n := by
  induction bs generalizing n with
  | nil =>
    rw [List.mem_singleton.mp h]
    exact List.not_mem_nil
  | cons b bs ih =>
    by_cases hb : b = slash
    · rw [hb, splitNames_slash] at h
      rcases List.mem_cons.mp h with rfl | h
      · exact List.not_mem_nil
      · exact ih h
    · obtain ⟨m, ms, hm⟩ := exists_splitNames bs
      rw [splitNames, if_neg hb, hm] at h
      rcases List.mem_cons.mp h with rfl | h
      · intro hmem
        rcases List.mem_cons.mp hmem with hslash | hmem
        · exact hb hslash.symm
        · exact ih (hm ▸ List.mem_cons_self) hmem
      · exact ih (hm ▸ List.mem_cons_of_mem m h)

theorem of_mem_names {p : Path} {n : Bytes} (h : n ∈ p.names) : n ≠ [] ∧ slash ∉ n := by
  obtain ⟨hsplit, hne⟩ := List.mem_filter.mp h
  exact ⟨by simpa using hne, not_mem_of_splitNames hsplit⟩

theorem names_append_slash (a b : Bytes) :
    (Path.mk (a ++ slash :: b)).names = (Path.mk a).names ++ (Path.mk b).names := by
  rw [names, splitNames_append_slash, List.filter_append]
  rfl

/-! ### Joining a name -/

/-- Joining a relative path adds its bytes, and a slash before them where one is missing. -/
theorem bytes_join {p : Path} (hp : p.isAbsolute = false) (base : Path) :
    (base.bytes = [] ∧ (base.join p).bytes = p.bytes) ∨
    (∃ b, base.bytes = b ++ [slash] ∧ (base.join p).bytes = b ++ slash :: p.bytes) ∨
    (base.bytes ≠ [] ∧ (base.join p).bytes = base.bytes ++ slash :: p.bytes) := by
  rw [join, if_neg (by simp [hp])]
  by_cases hempty : base.bytes = []
  · exact Or.inl ⟨hempty, by simp [hempty]⟩
  by_cases hends : base.endsWithSlash = true
  · obtain ⟨b, hb⟩ := List.getLast?_eq_some_iff.mp (beq_iff_eq.mp hends)
    exact Or.inr (Or.inl ⟨b, hb, by simp [hends, hb]⟩)
  · exact Or.inr (Or.inr ⟨hempty, by simp [hempty, hends]⟩)

/-- **Joining a relative path adds its names.** -/
theorem names_join_relative {p : Path} (hp : p.isAbsolute = false) (base : Path) :
    (base.join p).names = base.names ++ p.names := by
  rcases bytes_join hp base with ⟨hbase, hjoin⟩ | ⟨b, hbase, hjoin⟩ | ⟨-, hjoin⟩
  · rw [names, hjoin, show base.names = [] by rw [names, hbase]; rfl]
    rfl
  · have hnames : base.names = (Path.mk b).names := by
      rw [names, hbase]
      exact (names_append_slash b []).trans (List.append_nil _)
    rw [names, hjoin, hnames]
    exact names_append_slash b p.bytes
  · rw [names, hjoin]
    exact names_append_slash base.bytes p.bytes

section Join

variable {n : Bytes} (hn : n ≠ []) (hs : slash ∉ n) (base : Path)

include hn hs

theorem isAbsolute_name : (Path.mk n).isAbsolute = false := by
  obtain ⟨b, bs, rfl⟩ := List.exists_cons_of_ne_nil hn
  have hb : b ≠ slash := fun hb => hs (hb ▸ List.mem_cons_self)
  simpa [isAbsolute] using hb

theorem isAbsolute_append (rest : Bytes) : (Path.mk (n ++ rest)).isAbsolute = false := by
  have hname := isAbsolute_name hn hs
  obtain ⟨b, bs, rfl⟩ := List.exists_cons_of_ne_nil hn
  exact hname

theorem names_name : (Path.mk n).names = [n] := by
  rw [names, splitNames_of_not_mem hs]
  simpa using hn

theorem names_join : (base.join ⟨n⟩).names = base.names ++ [n] := by
  rw [names_join_relative (isAbsolute_name hn hs), names_name hn hs]

theorem isAbsolute_join : (base.join ⟨n⟩).isAbsolute = base.isAbsolute := by
  rcases bytes_join (isAbsolute_name hn hs) base with ⟨hb, hj⟩ | ⟨b, hb, hj⟩ | ⟨hb, hj⟩
  · have := isAbsolute_name hn hs
    rw [isAbsolute] at this ⊢
    rw [hj, this, isAbsolute, hb]
    rfl
  · rw [isAbsolute, isAbsolute, hj, hb]
    cases b <;> rfl
  · obtain ⟨x, xs, hx⟩ := List.exists_cons_of_ne_nil hb
    rw [isAbsolute, isAbsolute, hj, hx]
    rfl

theorem endsWithSlash_join : (base.join ⟨n⟩).endsWithSlash = false := by
  obtain ⟨m, x, rfl⟩ : ∃ m x, n = m ++ [x] := ⟨_, _, (List.dropLast_concat_getLast hn).symm⟩
  have hx : x ≠ slash := fun hx => hs (by simp [hx])
  rcases bytes_join (isAbsolute_name hn hs) base with ⟨-, hj⟩ | ⟨b, -, hj⟩ | ⟨-, hj⟩ <;>
    rw [endsWithSlash, hj] <;> simp [hx, List.getLast?_cons, List.getLast?_append]

theorem prefix_join : base.bytes <+: (base.join ⟨n⟩).bytes := by
  rcases bytes_join (isAbsolute_name hn hs) base with ⟨hb, -⟩ | ⟨b, hb, hj⟩ | ⟨-, hj⟩
  · rw [hb]
    exact List.nil_prefix
  · exact ⟨n, by rw [hj, hb, List.append_assoc, List.singleton_append]⟩
  · exact ⟨slash :: n, hj.symm⟩

end Join

theorem join_injective {base p q : Path} (hp : p.isAbsolute = false) (hq : q.isAbsolute = false)
    (h : base.join p = base.join q) : p = q := by
  cases hends : base.bytes.isEmpty || base.endsWithSlash with
  | true =>
    simp only [join, hp, hq, hends, if_true, Bool.false_eq_true, if_false, Path.mk.injEq] at h
    exact congrArg Path.mk (List.append_cancel_left h)
  | false =>
    simp only [join, hp, hq, hends, Bool.false_eq_true, if_false, Path.mk.injEq] at h
    exact congrArg Path.mk (List.cons.inj (List.append_cancel_left h)).2

/-! ### File names -/

theorem Component.ofName_eq_here_iff {n : Bytes} : ofName n = .here ↔ n = [dot] := by
  rw [ofName]
  by_cases hhere : n = [dot]
  · simp [hhere]
  · rw [if_neg hhere]
    split <;> simp [hhere]

/-- The components of a path are those of its names, and what it starts with: the root, a `.`, or
nothing. -/
theorem exists_components (p : Path) : ∃ start, (∀ n, start.getLast? ≠ some (.name n)) ∧
    p.components = start ++ (p.names.filter (· ≠ [dot])).map Component.ofName := by
  have hsteps : (p.names.map Component.ofName).filter (· ≠ .here) =
      (p.names.filter (· ≠ [dot])).map Component.ofName := by
    rw [List.filter_map]
    simp only [Function.comp_def, ne_eq, Component.ofName_eq_here_iff]
  rw [components]
  simp only [hsteps]
  split
  · exact ⟨[.root], by simp, rfl⟩
  · split
    · next rest hrest =>
      refine ⟨[.here], by simp, ?_⟩
      rw [← hsteps, hrest]
      simp
    · exact ⟨[], by simp, hsteps⟩

/-- **The file name of a path is its last name that is no `.`**, unless that is a `..`. -/
theorem fileName_eq (p : Path) :
    p.fileName = (p.names.filter (· ≠ [dot])).getLast?.filter (· ≠ [dot, dot]) := by
  obtain ⟨start, hstart, hcomponents⟩ := p.exists_components
  rw [fileName, hcomponents, List.getLast?_append, List.getLast?_map]
  cases hlast : (p.names.filter (· ≠ [dot])).getLast? with
  | none =>
    rw [Option.map_none, Option.none_or, Option.filter_none]
    split
    · next n hn => exact absurd hn (hstart n)
    · rfl
  | some n =>
    have hn : n ≠ [dot] := by simpa using (List.mem_filter.mp (List.mem_of_getLast? hlast)).2
    rw [Option.map_some, Option.some_or, Component.ofName, if_neg hn]
    by_cases hup : n = [dot, dot]
    · simp [hup, Option.filter]
    · simp [hup, Option.filter]

theorem mem_names_of_fileName {p : Path} {n : Bytes} (h : p.fileName = some n) : n ∈ p.names := by
  rw [fileName_eq] at h
  exact (List.mem_filter.mp (List.mem_of_getLast? (Option.filter_eq_some_iff.mp h).1)).1

theorem exists_splitNames_concat (front : Bytes) {n : Bytes} (h : slash ∉ n) :
    ∃ ns m, splitNames (front ++ n) = ns ++ [m ++ n] := by
  induction front with
  | nil => exact ⟨[], [], splitNames_of_not_mem h⟩
  | cons b front ih =>
    obtain ⟨ns, m, hsplit⟩ := ih
    by_cases hb : b = slash
    · exact ⟨[] :: ns, m, by rw [hb, List.cons_append, splitNames_slash, hsplit]; rfl⟩
    · rw [List.cons_append, splitNames, if_neg hb, hsplit]
      cases ns with
      | nil => exact ⟨[], b :: m, rfl⟩
      | cons k ns => exact ⟨(b :: k) :: ns, m, rfl⟩

/-- The last name of a path is its file name, unless it consists of dots. -/
theorem fileName_of_names {p : Path} {ns : List Bytes} {n : Bytes} (h : p.names = ns ++ [n])
    (hhere : n ≠ [dot]) (hup : n ≠ [dot, dot]) : p.fileName = some n := by
  rw [fileName_eq, h]
  simp [hhere, hup]

/-- A path that ends with more than two bytes without a slash has a file name that does. -/
theorem exists_fileName_append (front : Bytes) {n : Bytes} (h : slash ∉ n) (hn : 2 < n.length) :
    ∃ m, (Path.mk (front ++ n)).fileName = some (m ++ n) := by
  obtain ⟨ns, m, hsplit⟩ := exists_splitNames_concat front h
  have hlen : 2 < (m ++ n).length := by
    rw [List.length_append]
    omega
  have hne : (m ++ n).isEmpty = false := by
    rw [List.isEmpty_eq_false_iff]
    intro h
    rw [h] at hlen
    cases hlen
  have hnames : (Path.mk (front ++ n)).names = ns.filter (!·.isEmpty) ++ [m ++ n] := by
    rw [names, hsplit, List.filter_append, List.filter_cons_of_pos (by simp [hne]), List.filter_nil]
  refine ⟨m, fileName_of_names hnames ?_ ?_⟩
  all_goals
    intro h
    rw [h] at hlen
    revert hlen
    decide

/-! ### Names that are text -/

theorem exists_text_of_splitNames (cs : List Char) {n : Bytes}
    (h : n ∈ splitNames (cs.flatMap String.utf8EncodeChar)) :
    ∃ ds : List Char, n = ds.flatMap String.utf8EncodeChar := by
  induction cs generalizing n with
  | nil => exact ⟨[], List.mem_singleton.mp h⟩
  | cons c cs ih =>
    rw [List.flatMap_cons] at h
    by_cases hc : c = '/'
    · rw [hc, show String.utf8EncodeChar '/' = [slash] from rfl, List.singleton_append,
        splitNames_slash] at h
      rcases List.mem_cons.mp h with rfl | h
      · exact ⟨[], rfl⟩
      · exact ih h
    · have hslash : slash ∉ String.utf8EncodeChar c := fun hmem =>
        hc (Utf8.eq_of_mem_utf8EncodeChar (by decide) hmem)
      obtain ⟨m, ms, hm⟩ := exists_splitNames (cs.flatMap String.utf8EncodeChar)
      rw [splitNames_append hslash hm] at h
      rcases List.mem_cons.mp h with rfl | h
      · obtain ⟨ds, rfl⟩ := ih (hm ▸ List.mem_cons_self)
        exact ⟨c :: ds, List.flatMap_cons.symm⟩
      · exact ih (hm ▸ List.mem_cons_of_mem m h)

theorem names_text {p : Path} {s : String} (hp : p.text? = some s) {n : Bytes} (hn : n ∈ p.names) :
    ∃ t, n = Utf8.encode t := by
  have hbytes : p.bytes = s.toList.flatMap String.utf8EncodeChar := Utf8.decode?_eq_some_iff.mp hp
  have hsplit := (List.mem_filter.mp hn).1
  rw [hbytes] at hsplit
  obtain ⟨ds, hds⟩ := exists_text_of_splitNames s.toList hsplit
  exact ⟨String.ofList ds, by rw [hds, Utf8.encode, String.toList_ofList]⟩

end Path

/-! ### Paths of locations -/

namespace Location

theorem splitNames_flatMap {l : Location} (h : ∀ n ∈ l, slash ∉ n) :
    Path.splitNames (l.flatMap (slash :: ·)) = [] :: l := by
  induction l with
  | nil => rfl
  | cons n l ih =>
    have htail := ih fun m hm => h m (List.mem_cons_of_mem n hm)
    rw [List.flatMap_cons, List.cons_append, Path.splitNames_slash,
      Path.splitNames_append (h n List.mem_cons_self) htail, List.append_nil]

theorem bytes_path {l : Location} (h : l ≠ []) : l.path.bytes = l.flatMap (slash :: ·) := by
  rw [path, if_neg (by simpa using h)]

theorem names_path {l : Location} (h : ∀ n ∈ l, IsName n) : l.path.names = l := by
  by_cases hl : l = []
  · subst hl
    rfl
  · rw [Path.names, bytes_path hl, splitNames_flatMap fun n hn => (h n hn).no_slash]
    simpa using fun n hn => (h n hn).ne_nil

theorem isAbsolute_path (l : Location) : l.path.isAbsolute = true := by
  cases l <;> rfl

theorem endsWithSlash_path {l : Location} (h : ∀ n ∈ l, IsName n) (hl : l ≠ []) :
    l.path.endsWithSlash = false := by
  obtain ⟨m, n, rfl⟩ : ∃ m n, l = m ++ [n] :=
    ⟨_, _, (List.dropLast_concat_getLast hl).symm⟩
  obtain ⟨hne, hslash, -, -⟩ := h n (by simp)
  obtain ⟨k, x, rfl⟩ : ∃ k x, n = k ++ [x] := ⟨_, _, (List.dropLast_concat_getLast hne).symm⟩
  have hx : x ≠ slash := fun hx => hslash (by simp [hx])
  rw [Path.endsWithSlash, bytes_path hl]
  simp [hx, List.getLast?_cons, List.getLast?_append]

theorem fileName_path {l : Location} (h : ∀ n ∈ l, IsName n) : l.path.fileName = l.getLast? := by
  have hnames : l.filter (· ≠ [dot]) = l :=
    List.filter_eq_self.mpr fun n hn => by simpa using (h n hn).ne_here
  rw [Path.fileName_eq, names_path h, hnames]
  cases hl : l.getLast? with
  | none => rfl
  | some n =>
    have hup := (h n (List.mem_of_getLast? hl)).ne_up
    simp [hup, Option.filter]

end Location

end ShaderReport

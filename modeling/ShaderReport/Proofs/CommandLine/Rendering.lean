import Mathlib.Data.List.Nodup
import ShaderReport.CommandLine
import ShaderReport.Proofs.Text.Utf8

/-!
# Written command lines

A `Setting` is an option of `analyze` along with its value, and its word is `--name=value`.  A command line
that is written as such words, `--` and the assets reads back as what was written: `parse_line`.

No name has an equals sign, so the first one of a word ends the name, whatever the value is (`ofBytes_word`).
Every value is read as what it was written from, and so a setting does one thing to what was taken before:
it adds to it, unless its option was taken (`set_setting`).  By induction on the words, settings are added up
if all their options differ (`setAll_eq_ok`) and refused if two are the same (`setAll_eq_error`), and since
different options do not touch each other the order is of no account (`foldl_plus_perm`).  After `--` no
word is looked at but as an asset (`takeWords_assets`).
-/

namespace ShaderReport.CommandLine

/-! ### Settings -/

/-- An option of `analyze` along with its value. -/
inductive Setting where
  | config (path : Path)
  | platform (target : BuildTarget)
  | outputDir (path : Path)
  | linesPerTick (pace : Pace)
  deriving DecidableEq, Repr

namespace Setting

/-- The option that is set. -/
def name : Setting → OptionName
  | .config _ => .config
  | .platform _ => .platform
  | .outputDir _ => .outputDir
  | .linesPerTick _ => .linesPerTick

/-- The value as it is written: a number in decimal digits. -/
def value : Setting → Bytes
  | .config path => path.bytes
  | .platform target => Utf8.encode target.name
  | .outputDir path => path.bytes
  | .linesPerTick pace => Utf8.encode (String.ofList (Nat.toDigits 10 pace.lines))

/-- The word `--name=value`. -/
def word (s : Setting) : Bytes :=
  dash :: dash :: (Utf8.encode s.name.long ++ equals :: s.value)

end Setting

namespace Taken

/-- What was taken of the options, as settings. -/
def settings (t : Taken) : List Setting :=
  (t.config.map .config).toList ++ (t.target.map .platform).toList ++
    (t.outputDir.map .outputDir).toList ++ (t.pace.map .linesPerTick).toList

/-- What is asked for: the default value for an option that was not taken. -/
def invocation (t : Taken) : Invocation :=
  .analyze t.config
    ⟨t.target.getD Options.default.target, t.outputDir, t.pace.getD Options.default.pace⟩ t.assets

/-- Whether an option was taken. -/
def has (t : Taken) : OptionName → Bool
  | .config => t.config.isSome
  | .platform => t.target.isSome
  | .outputDir => t.outputDir.isSome
  | .linesPerTick => t.pace.isSome

/-- What was taken, and a setting. -/
def plus (t : Taken) : Setting → Taken
  | .config path => { t with config := some path }
  | .platform target => { t with target := some target }
  | .outputDir path => { t with outputDir := some path }
  | .linesPerTick pace => { t with pace := some pace }

end Taken

/-- The command line with settings and nothing behind them. -/
def settingsLine (settings : List Setting) : List Bytes :=
  Utf8.encode "analyze" :: settings.map Setting.word

/-- The command line with settings, `--` and assets. -/
def line (settings : List Setting) (assets : List Path) : List Bytes :=
  settingsLine settings ++ [dash, dash] :: assets.map Path.bytes

/-- The words that `analyze` takes. -/
abbrev analyzeForm : Form :=
  ⟨[.config, .platform, .outputDir, .linesPerTick], true⟩

/-! ### The words of settings -/

theorem equals_notMem_long (name : OptionName) : equals ∉ Utf8.encode name.long := by
  intro h
  have hc := Utf8.mem_of_mem_encode (by decide) h
  revert hc
  cases name <;> decide

/-- The first equals sign ends a name, so a name without one and any value are told apart. -/
theorem ofBytes_long {name : Bytes} (h : equals ∉ name) (value : Bytes) :
    Word.ofBytes (dash :: dash :: (name ++ equals :: value)) =
      .long (Utf8.decode? name) (some value) := by
  have hname : ∀ b ∈ name, decide (b ≠ equals) = true := by
    intro b hb
    exact decide_eq_true (ne_of_mem_of_not_mem hb h)
  have htake : (name ++ equals :: value).takeWhile (· ≠ equals) = name := by
    rw [List.takeWhile_append_of_pos hname, List.takeWhile_cons_of_neg (by decide), List.append_nil]
  have hdrop : (name ++ equals :: value).dropWhile (· ≠ equals) = equals :: value := by
    rw [List.dropWhile_append_of_pos hname, List.dropWhile_cons_of_neg (by decide)]
  have hne : (name ++ equals :: value).isEmpty = false := by simp
  rw [Word.ofBytes, if_pos ⟨rfl, rfl⟩, if_neg (by rw [hne]; decide), htake, afterEquals, hdrop]

theorem ofBytes_word (s : Setting) :
    Word.ofBytes s.word = .long (some s.name.long) (some s.value) := by
  rw [Setting.word, ofBytes_long (equals_notMem_long s.name), Utf8.decode?_encode]

/-! ### The values of settings -/

theorem readPath_bytes {path : Path} (h : path.bytes ≠ []) : readPath path.bytes = .ok path :=
  if_neg (by simpa using h)

theorem readText_encode (text : String) : readText (Utf8.encode text) = .ok text := by
  rw [readText, Utf8.decode?_encode]

/-- Decimal digits do not start with a plus sign, so all of them are read. -/
theorem readNumber?_toDigits (n : Nat) : readNumber? (Nat.toDigits 10 n) = some n := by
  have hdigits : ∀ c ∈ Nat.toDigits 10 n, c.isDigit = true := fun c hc =>
    Nat.isDigit_of_mem_toDigits (by decide) (by decide) hc
  cases hn : Nat.toDigits 10 n with
  | nil => exact absurd hn Nat.toDigits_ne_nil
  | cons d ds =>
    have hplus : d ≠ '+' := by
      rintro rfl
      exact absurd (hdigits '+' (by rw [hn]; exact List.mem_cons_self)) (by decide)
    have hall : (d :: ds).all Char.isDigit = true := by
      rw [← hn]
      exact List.all_eq_true.mpr hdigits
    have hnumber : Text.numberOf 10 (d :: ds) = n := by
      rw [← hn]
      exact Text.numberOf_toDigits n
    simp [readNumber?, hplus, hall, hnumber]

theorem readPace_toDigits (pace : Pace) :
    readPace (Utf8.encode (String.ofList (Nat.toDigits 10 pace.lines))) = .ok pace := by
  have hnumber : (readNumber? (String.ofList (Nat.toDigits 10 pace.lines)).toList).bind
      Pace.ofNat? = some pace := by
    rw [String.toList_ofList, readNumber?_toDigits, Option.bind_some, Pace.ofNat?_lines]
  rw [readPace, readText_encode]
  simp only [bind, Except.bind, hnumber]

variable {t : Taken} {s : Setting} {settings : List Setting} {assets : List Path}

/-- **A setting is refused if its option was taken before, and is added otherwise.** -/
theorem set_setting (hs : s.value ≠ []) :
    t.set s.name s.value = if t.has s.name then .error .repeated else .ok (t.plus s) := by
  cases s with
  | config path =>
    show (if t.config.isSome then _ else (readPath path.bytes).map _) = _
    rw [readPath_bytes (show path.bytes ≠ [] from hs)]
    rfl
  | platform target =>
    show (if t.target.isSome then _ else (readText (Utf8.encode target.name)).map _) = _
    rw [readText_encode]
    rfl
  | outputDir path =>
    show (if t.outputDir.isSome then _ else (readPath path.bytes).map _) = _
    rw [readPath_bytes (show path.bytes ≠ [] from hs)]
    rfl
  | linesPerTick pace =>
    show (if t.pace.isSome then _ else
      (readPace (Utf8.encode (String.ofList (Nat.toDigits 10 pace.lines)))).map _) = _
    rw [readPace_toDigits]
    rfl

/-! ### All settings of a line -/

/-- Takes the values of settings one after the other. -/
def setAll (t : Taken) (settings : List Setting) : Except UsageError Taken :=
  settings.foldlM (fun t s => t.set s.name s.value) t

theorem has_plus (t : Taken) (s : Setting) (name : OptionName) :
    (t.plus s).has name = (decide (name = s.name) || t.has name) := by
  cases s <;> cases name <;> rfl

theorem plus_comm {s s' : Setting} (h : s.name ≠ s'.name) (t : Taken) :
    (t.plus s).plus s' = (t.plus s').plus s := by
  cases s <;> cases s' <;> first | rfl | exact absurd rfl h

theorem setAll_eq_ok (hs : ∀ s ∈ settings, s.value ≠ [])
    (hnew : ∀ s ∈ settings, t.has s.name = false) (h : (settings.map Setting.name).Nodup) :
    setAll t settings = .ok (settings.foldl Taken.plus t) := by
  induction settings generalizing t with
  | nil => rfl
  | cons s settings ih =>
    obtain ⟨hnot, hrest⟩ := List.nodup_cons.mp h
    have hset : t.set s.name s.value = .ok (t.plus s) := by
      rw [set_setting (hs s List.mem_cons_self), hnew s List.mem_cons_self]
      rfl
    have hplus : ∀ s' ∈ settings, (t.plus s).has s'.name = false := by
      intro s' hs'
      have hne : s'.name ≠ s.name := fun he => hnot (he ▸ List.mem_map_of_mem hs')
      rw [has_plus, decide_eq_false hne, hnew s' (List.mem_cons_of_mem s hs')]
      rfl
    rw [setAll, List.foldlM_cons, hset]
    exact ih (fun s' hs' => hs s' (List.mem_cons_of_mem s hs')) hplus hrest

theorem setAll_eq_error (hs : ∀ s ∈ settings, s.value ≠ [])
    (h : (∃ s ∈ settings, t.has s.name = true) ∨ ¬ (settings.map Setting.name).Nodup) :
    setAll t settings = .error .repeated := by
  induction settings generalizing t with
  | nil =>
    obtain ⟨s, hmem, -⟩ | hdup := h
    · cases hmem
    · exact absurd List.nodup_nil hdup
  | cons s settings ih =>
    rw [setAll, List.foldlM_cons, set_setting (hs s List.mem_cons_self)]
    by_cases htaken : t.has s.name = true
    · rw [if_pos htaken]
      rfl
    -- the setting is added, and is what a later one of the same option runs into
    rw [if_neg htaken]
    apply ih (fun s' hs' => hs s' (List.mem_cons_of_mem s hs'))
    obtain ⟨s', hmem, hhas⟩ | hdup := h
    · obtain rfl | hmem := List.mem_cons.mp hmem
      · exact absurd hhas htaken
      · exact .inl ⟨s', hmem, by rw [has_plus, hhas, Bool.or_true]⟩
    · by_cases hin : s.name ∈ settings.map Setting.name
      · obtain ⟨s', hmem, he⟩ := List.mem_map.mp hin
        exact .inl ⟨s', hmem, by rw [has_plus, decide_eq_true he, Bool.true_or]⟩
      · exact .inr fun hrest => hdup (List.nodup_cons.mpr ⟨hin, hrest⟩)

theorem nodup_settings (t : Taken) : (t.settings.map Setting.name).Nodup := by
  obtain ⟨config, target, dir, pace, assets⟩ := t
  cases config <;> cases target <;> cases dir <;> cases pace <;>
    simp [Taken.settings, Setting.name]

theorem foldl_plus_perm {settings' : List Setting} (h : settings.Perm settings')
    (hnodup : (settings.map Setting.name).Nodup) (t : Taken) :
    settings.foldl Taken.plus t = settings'.foldl Taken.plus t := by
  apply h.foldl_eq'
  intro s hs s' hs' t
  by_cases he : s.name = s'.name
  · rw [List.inj_on_of_nodup_map hnodup hs hs' he]
  · exact plus_comm he t

theorem foldl_settings (t : Taken) :
    t.settings.foldl Taken.plus .none = { t with assets := [] } := by
  obtain ⟨config, target, dir, pace, assets⟩ := t
  cases config <;> cases target <;> cases dir <;> cases pace <;> rfl

/-! ### Words one by one -/

theorem takeWord_setting (t : Taken) (s : Setting) :
    takeWord analyzeForm t .nothing s.word =
      (t.set s.name s.value).map fun t => (t, .nothing) := by
  have htake : takeWord analyzeForm t .nothing s.word =
      takeOption t .nothing s.name (some s.value) := by
    rw [takeWord, ofBytes_word]
    cases s <;> rfl
  rw [htake]
  show (do let t ← t.set s.name s.value; Except.ok (t, Pending.nothing)) = _
  cases t.set s.name s.value <;> rfl

theorem takeWords_settings (words : List Bytes) :
    takeWords analyzeForm false t .nothing (settings.map Setting.word ++ words) =
      setAll t settings >>= fun t => takeWords analyzeForm false t .nothing words := by
  induction settings generalizing t with
  | nil => rfl
  | cons s settings ih =>
    have hword : decide (Word.ofBytes s.word = .endOfOptions) = false := by
      rw [ofBytes_word]
      rfl
    rw [List.map_cons, List.cons_append, takeWords, if_neg (by decide), takeWord_setting, hword,
      setAll, List.foldlM_cons]
    cases t.set s.name s.value with
    | error e => rfl
    | ok t => exact ih

theorem takeWords_waiting (t : Taken) (list words : List Bytes) :
    takeWords analyzeForm true t (.assets list) words = settle t (.assets (list ++ words)) := by
  induction words generalizing list with
  | nil => rw [takeWords, List.append_nil]
  | cons word words ih =>
    rw [takeWords, if_pos rfl]
    show takeWords analyzeForm true t (.assets (list ++ [word])) words = _
    rw [ih, List.append_assoc, List.singleton_append]

theorem mapM_readPath (ha : ∀ p ∈ assets, p.bytes ≠ []) :
    (assets.map Path.bytes).mapM readPath = .ok assets := by
  induction assets with
  | nil => rfl
  | cons p assets ih =>
    rw [List.map_cons, List.mapM_cons, readPath_bytes (ha p List.mem_cons_self),
      ih fun q hq => ha q (List.mem_cons_of_mem p hq)]
    rfl

/-- **Behind `--` all words are assets, whatever bytes they are made of.** -/
theorem takeWords_assets (ha : ∀ p ∈ assets, p.bytes ≠ []) (t : Taken) :
    takeWords analyzeForm false t .nothing ([dash, dash] :: assets.map Path.bytes) =
      .ok { t with assets := t.assets ++ assets } := by
  show takeWords analyzeForm true t .nothing (assets.map Path.bytes) = _
  cases assets with
  | nil => rw [List.append_nil]; rfl
  | cons p assets =>
    show takeWords analyzeForm true t (.assets [p.bytes]) (assets.map Path.bytes) = _
    rw [takeWords_waiting]
    show ((p :: assets).map Path.bytes |>.mapM readPath).map _ = _
    rw [mapM_readPath ha]
    rfl

/-! ### Whole lines -/

theorem parse_analyze (words : List Bytes) :
    parse (Utf8.encode "analyze" :: words) = parseAnalyze words := by
  have hpart : part? [("analyze", .leaf parseAnalyze), ("show", showCommand)]
      (Utf8.encode "analyze") = some (.leaf parseAnalyze) := by
    rw [part?, Utf8.decode?_encode]
    rfl
  rw [parse, program, parseCommand.eq_def]
  simp only [hpart]
  rw [parseCommand.eq_def]

theorem parseAnalyze_of_take {words : List Bytes} (h : take analyzeForm words = .ok t) :
    parseAnalyze words = if t.assets = [] then .error .assetsMissing else .ok t.invocation := by
  rw [parseAnalyze, h]
  cases hassets : t.assets <;> simp [bind, Except.bind, hassets, Taken.invocation]

theorem assets_foldl_plus (settings : List Setting) (t : Taken) :
    (settings.foldl Taken.plus t).assets = t.assets := by
  induction settings generalizing t with
  | nil => rfl
  | cons s settings ih =>
    rw [List.foldl_cons, ih]
    cases s <;> rfl

theorem take_settings (hs : ∀ s ∈ settings, s.value ≠ [])
    (h : (settings.map Setting.name).Nodup) (words : List Bytes) :
    take analyzeForm (settings.map Setting.word ++ words) =
      takeWords analyzeForm false (settings.foldl Taken.plus .none) .nothing words := by
  have hnew : ∀ s ∈ settings, Taken.none.has s.name = false := by
    intro s _
    cases s <;> rfl
  rw [take, takeWords_settings, setAll_eq_ok hs hnew h]
  rfl

theorem parse_settingsLine (hs : ∀ s ∈ settings, s.value ≠ [])
    (h : (settings.map Setting.name).Nodup) :
    parse (settingsLine settings) = .error .assetsMissing := by
  have hwords : take analyzeForm (settings.map Setting.word) =
      .ok (settings.foldl Taken.plus .none) := by
    have htake := take_settings hs h []
    rwa [List.append_nil] at htake
  rw [settingsLine, parse_analyze, parseAnalyze_of_take hwords, assets_foldl_plus]
  rfl

theorem parse_line_of_nodup (hs : ∀ s ∈ settings, s.value ≠ [])
    (ha : ∀ p ∈ assets, p.bytes ≠ []) (h : (settings.map Setting.name).Nodup) :
    parse (line settings assets) =
      if assets = [] then .error .assetsMissing
      else .ok (Taken.invocation { settings.foldl Taken.plus .none with assets := assets }) := by
  have hwords : take analyzeForm
      (settings.map Setting.word ++ [dash, dash] :: assets.map Path.bytes) =
        .ok { settings.foldl Taken.plus .none with assets := assets } := by
    rw [take_settings hs h, takeWords_assets ha, assets_foldl_plus]
    rfl
  rw [line, settingsLine, List.cons_append, parse_analyze, parseAnalyze_of_take hwords]

theorem parse_of_not_nodup (hs : ∀ s ∈ settings, s.value ≠ [])
    (h : ¬ (settings.map Setting.name).Nodup) (words : List Bytes) :
    parse (settingsLine settings ++ words) = .error .repeated := by
  have hwords : take analyzeForm (settings.map Setting.word ++ words) = .error .repeated := by
    rw [take, takeWords_settings, setAll_eq_error hs (.inr h)]
    rfl
  rw [settingsLine, List.cons_append, parse_analyze, parseAnalyze, hwords]
  rfl

/-- **A written command line reads back as what was written, with the settings in any order and the default
values for the others.  An option that is written twice is an error, and so are no assets at all.** -/
theorem parse_line (hs : ∀ s ∈ settings, s.value ≠ []) (ha : ∀ p ∈ assets, p.bytes ≠ []) :
    (∀ t : Taken, settings.Perm t.settings → t.assets = assets → assets ≠ [] →
      parse (line settings assets) = .ok t.invocation) ∧
    (¬ (settings.map Setting.name).Nodup →
      parse (line settings assets) = .error .repeated ∧
        parse (settingsLine settings) = .error .repeated) ∧
    ((settings.map Setting.name).Nodup →
      parse (line settings []) = .error .assetsMissing ∧
        parse (settingsLine settings) = .error .assetsMissing) := by
  refine ⟨?_, ?_, ?_⟩
  · intro t hperm hassets hne
    have hnodup : (settings.map Setting.name).Nodup :=
      (hperm.map Setting.name).nodup_iff.mpr (nodup_settings t)
    have hfold : { settings.foldl Taken.plus .none with assets := assets } = t := by
      rw [foldl_plus_perm hperm hnodup, foldl_settings, ← hassets]
    rw [parse_line_of_nodup hs ha hnodup, if_neg hne, hfold]
  · intro hdup
    have hbare := parse_of_not_nodup hs hdup []
    rw [List.append_nil] at hbare
    exact ⟨parse_of_not_nodup hs hdup _, hbare⟩
  · intro hnodup
    refine ⟨?_, parse_settingsLine hs hnodup⟩
    exact parse_line_of_nodup hs (fun p hp => absurd hp List.not_mem_nil) hnodup

/-- Values and assets may look like options, and values may have equals signs of their own.  A setting that
is written twice is refused, even with one and the same value. -/
theorem parse_line_ofDashes :
    parse (line [.linesPerTick ⟨18446744073709551615, by decide⟩, .outputDir (.ofString "--"),
        .config (.ofString "--platform=a=b")]
      [.ofString "--config=c", .ofString "analyze", .ofString "-p="]) =
      .ok (.analyze (some (.ofString "--platform=a=b"))
        ⟨.offline, some (.ofString "--"), ⟨18446744073709551615, by decide⟩⟩
        [.ofString "--config=c", .ofString "analyze", .ofString "-p="]) ∧
    parse (line [.platform ⟨"="⟩, .platform ⟨"="⟩] [.ofString "-p="]) = .error .repeated :=
  ⟨(parse_line (by decide) (by decide)).1
    ⟨some (.ofString "--platform=a=b"), none, some (.ofString "--"),
      some ⟨18446744073709551615, by decide⟩,
      [.ofString "--config=c", .ofString "analyze", .ofString "-p="]⟩
    (by decide) rfl (by decide),
    ((parse_line (by decide) (by decide)).2.1 (by decide)).1⟩

end ShaderReport.CommandLine
